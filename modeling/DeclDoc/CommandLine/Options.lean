/-! # Command-line options

Arguments are options, with values or without, and input files. Reading them stops at the first thing
wrong, or at a request for the version or for help. `read_nil`, `read_files`: arguments after `--`
are files, whatever they look like.
-/

set_option autoImplicit false

namespace DeclDoc.CommandLine

/-- Options that take a value. -/
inductive ValueOption where
  | output
  | format
  | compilerArgument
  | ignore
  | ignoreKind
  | frontEnd
  | stdinName
deriving DecidableEq, Repr

/-- Options without a value. -/
inductive Flag where
  | skipUndocumentedObjects
  | skipUndocumentedMembers
  | warnUndocumented
  | plainComments
  | verbose
  | version
  | help
deriving DecidableEq, Repr

inductive OptionName where
  | value (option : ValueOption)
  | flag (flag : Flag)
deriving DecidableEq, Repr

namespace OptionName

def ofLong? (name : String) : Option OptionName :=
  match name with
  | "output" => some (.value .output)
  | "format" => some (.value .format)
  | "clang-arg" => some (.value .compilerArgument)
  | "ignore" => some (.value .ignore)
  | "ignore-kind" => some (.value .ignoreKind)
  | "frontend" => some (.value .frontEnd)
  | "stdin-filename" => some (.value .stdinName)
  | "skip-undocumented-objects" => some (.flag .skipUndocumentedObjects)
  | "skip-undocumented-members" => some (.flag .skipUndocumentedMembers)
  | "warn-undocumented" => some (.flag .warnUndocumented)
  | "plain-comments" => some (.flag .plainComments)
  | "verbose" => some (.flag .verbose)
  | "version" => some (.flag .version)
  | "help" => some (.flag .help)
  | _ => none

def ofShort? (letter : Char) : Option OptionName :=
  match letter with
  | 'o' => some (.value .output)
  | 'f' => some (.value .format)
  | 'X' => some (.value .compilerArgument)
  | 'v' => some (.flag .verbose)
  | 'V' => some (.flag .version)
  | 'h' => some (.flag .help)
  | _ => none

end OptionName

/-- What the options ask for; `none` stands for an option that is not given. -/
structure Options where
  files : List String := []
  output : Option String := none
  format : Option String := none
  compilerArguments : List String := []
  ignore : List String := []
  ignoreKinds : List String := []
  skipUndocumentedObjects : Bool := false
  skipUndocumentedMembers : Bool := false
  warnUndocumented : Bool := false
  frontEnd : Option String := none
  plainComments : Bool := false
  stdinName : Option String := none
  verbosity : Nat := 0
deriving DecidableEq, Repr, Inhabited

/-- What is wrong with the arguments. -/
inductive UsageError where
  | unknownOption (text : String)
  | repeated
  | valueMissing
  | valueEmpty
  | valueUnexpected
deriving DecidableEq, Repr

def UsageError.message : UsageError → String
  | .unknownOption text => "unexpected argument '" ++ text ++ "' found"
  | .repeated => "an option that takes one value is given twice"
  | .valueMissing => "a value is required for an option but none was supplied"
  | .valueEmpty => "a value is required for an option but it is empty"
  | .valueUnexpected => "a value is given for an option that takes none"

/-- What the arguments ask the program to do. -/
inductive Command where
  | run (options : Options)
  | version
  | help
deriving DecidableEq, Repr

namespace Options

/-- A value for an option that is not given yet. -/
def once (given : Option String) (value : String) : Except UsageError (Option String) :=
  if given.isSome then .error .repeated else .ok (some value)

/-- The options with one more value. Only lists take several; a file to write has a name. -/
def setValue (options : Options) (option : ValueOption) (value : String) :
    Except UsageError Options :=
  match option with
  | .output =>
    if value.isEmpty then .error .valueEmpty
    else (once options.output value).map fun output => { options with output }
  | .format => (once options.format value).map fun format => { options with format }
  | .frontEnd => (once options.frontEnd value).map fun frontEnd => { options with frontEnd }
  | .stdinName => (once options.stdinName value).map fun stdinName => { options with stdinName }
  | .compilerArgument =>
    .ok { options with compilerArguments := options.compilerArguments ++ [value] }
  | .ignore => .ok { options with ignore := options.ignore ++ [value] }
  | .ignoreKind => .ok { options with ignoreKinds := options.ignoreKinds ++ [value] }

/-- The command after a flag: the options with it, or what it asks for instead. -/
def setFlag (options : Options) (flag : Flag) : Except UsageError Command :=
  let once (given : Bool) (options : Options) : Except UsageError Command :=
    if given then .error .repeated else .ok (.run options)
  match flag with
  | .skipUndocumentedObjects =>
    once options.skipUndocumentedObjects { options with skipUndocumentedObjects := true }
  | .skipUndocumentedMembers =>
    once options.skipUndocumentedMembers { options with skipUndocumentedMembers := true }
  | .warnUndocumented => once options.warnUndocumented { options with warnUndocumented := true }
  | .plainComments => once options.plainComments { options with plainComments := true }
  | .verbose => .ok (.run { options with verbosity := options.verbosity + 1 })
  | .version => .ok .version
  | .help => .ok .help

end Options

/-! ## Clusters of short options -/

/-- What a cluster of short options leaves: a command, or an option that waits for its value. -/
inductive Cluster where
  | done (command : Command)
  | waiting (options : Options) (option : ValueOption)

/-- The text attached to an option in a cluster, without the equals sign in front. -/
def attached : List Char → String
  | '=' :: rest => String.ofList rest
  | text => String.ofList text

/-- Reads the letters after a dash. An option with a value takes the rest of the letters for it. -/
def readCluster (options : Options) : List Char → Except UsageError Cluster
  | [] => .ok (.done (.run options))
  | letter :: rest =>
    match OptionName.ofShort? letter with
    | none => .error (.unknownOption (String.ofList ['-', letter]))
    | some (.value option) =>
      if rest.isEmpty then .ok (.waiting options option)
      else (options.setValue option (attached rest)).map fun options => .done (.run options)
    | some (.flag flag) =>
      match options.setFlag flag with
      | .ok (.run options) => readCluster options rest
      | .ok command => .ok (.done command)
      | .error fault => .error fault

/-! ## Arguments -/

/-- How an argument looks. -/
inductive Shape where
  | escape
  | long (name : String) (value : Option String)
  | short (letters : List Char)
  | plain
deriving DecidableEq, Repr

/-- Two dashes end the options, two dashes and a name are a long option, one dash and letters are
short ones, and anything else, a lone dash too, is plain. -/
def shape (argument : String) : Shape :=
  match argument.toList with
  | ['-', '-'] => .escape
  | '-' :: '-' :: text =>
    let name := text.takeWhile (· != '=')
    match text.drop name.length with
    | [] => .long (String.ofList name) none
    | _ :: value => .long (String.ofList name) (some (String.ofList value))
  | '-' :: letter :: letters => .short (letter :: letters)
  | _ => .plain

/-- Whether an argument can be the value of an option before it; compiler arguments may look like
options themselves. -/
def canBeValue (option : ValueOption) (argument : String) : Bool :=
  option == .compilerArgument || shape argument == .plain

/-- Reads on with the options so far. -/
def readFrom (options : Options) (arguments : List String) : Except UsageError Command :=
  match arguments with
  | [] => .ok (.run options)
  | argument :: rest =>
    match shape argument with
    | .escape => .ok (.run { options with files := options.files ++ rest })
    | .plain => readFrom { options with files := options.files ++ [argument] } rest
    | .long name value =>
      match OptionName.ofLong? name, value with
      | none, _ => .error (.unknownOption argument)
      | some (.flag flag), none =>
        match options.setFlag flag with
        | .ok (.run options) => readFrom options rest
        | .ok command => .ok command
        | .error fault => .error fault
      | some (.flag _), some _ => .error .valueUnexpected
      | some (.value option), some value =>
        match options.setValue option value with
        | .ok options => readFrom options rest
        | .error fault => .error fault
      | some (.value option), none => readWaiting options option rest
    | .short letters =>
      match readCluster options letters with
      | .ok (.done (.run options)) => readFrom options rest
      | .ok (.done command) => .ok command
      | .ok (.waiting options option) => readWaiting options option rest
      | .error fault => .error fault
where
  /-- Reads on where an option waits for its value. -/
  readWaiting (options : Options) (option : ValueOption) (arguments : List String) :
      Except UsageError Command :=
    match arguments with
    | [] => .error .valueMissing
    | value :: rest =>
      if canBeValue option value then
        match options.setValue option value with
        | .ok options => readFrom options rest
        | .error fault => .error fault
      else .error .valueMissing

/-- What the arguments of a call ask for. -/
def read (arguments : List String) : Except UsageError Command := readFrom {} arguments

theorem read_nil : read [] = .ok (.run {}) := rfl

/-- Arguments after two dashes are files, whatever they look like. -/
theorem read_files (files : List String) : read ("--" :: files) = .ok (.run { files }) := rfl

end DeclDoc.CommandLine
