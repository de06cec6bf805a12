import DeclDoc.Json
import DeclDoc.Store

/-! # The JSON dump

Every part of the model has one JSON form. Fields without a value and empty lists are left out, and
the children of a node stand as a list in key order.
-/

set_option autoImplicit false

namespace DeclDoc

open Json (optional nonempty)

def Location.toJson (location : Location) : Json :=
  .object [("file", .string location.file), ("line", .number location.line.toNat),
    ("column", .number location.column.toNat)]

def Diagnostic.toJson (diagnostic : Diagnostic) : Json :=
  .object <|
    [("severity", .string diagnostic.severity.name)] ++
      optional "location" Location.toJson diagnostic.location ++
      [("message", .string diagnostic.message)]

def Fragment.toJson : Fragment → Json
  | .returns typeName => .object [("role", .string "return"), ("type_name", .string typeName)]
  | .parameter keyword typeName name =>
    .object <|
      [("role", .string "parameter")] ++ optional "keyword" .string keyword ++
        [("type_name", .string typeName), ("name", .string name)]
  | .variadic => .object [("role", .string "variadic")]

def NamedDescription.toJson (entry : NamedDescription) : Json :=
  .object [("name", .string entry.name), ("description", .string entry.description)]

def Comment.toJson (comment : Comment) : Json :=
  .object <|
    [("raw", .string comment.raw)] ++
      optional "short_description" .string comment.shortDescription ++
      optional "long_description" .string comment.longDescription ++
      nonempty "parameters" NamedDescription.toJson comment.parameters ++
      optional "returns" .string comment.returns ++
      nonempty "exceptions" NamedDescription.toJson comment.exceptions ++
      nonempty "see_also" .string comment.seeAlso ++
      nonempty "warnings" .string comment.warnings ++
      nonempty "bugs" .string comment.bugs ++
      optional "deprecated" .string comment.deprecated

def NodeKey.toJson (key : NodeKey) : Json :=
  .object [("kind", .string key.kind.name), ("name", .string key.name)]

/-- The fields of a node but for its children. -/
def NodeInfo.fields (info : NodeInfo) : List (String × Json) :=
  [("kind", .string info.kind.name), ("name", .string info.name),
    ("location", info.location.toJson),
    ("declared_in", .array (info.declaredIn.map Location.toJson))] ++
    optional "comment" Comment.toJson info.comment ++
    nonempty "signature" Fragment.toJson info.signature ++
    optional "flavor" (fun flavor : Flavor => .string flavor.name) info.flavor ++
    optional "type_name" .string info.typeName ++
    optional "superclass" .string info.superclass ++
    nonempty "protocols" .string info.protocols ++
    optional "base_class" .string info.baseClass ++
    nonempty "attributes" .string info.attributes ++
    optional "group" .string info.group ++
    optional "resolution" (fun resolution : Resolution => .string resolution.name)
      info.resolution ++
    optional "parent" NodeKey.toJson info.parent

mutual

def Node.toJson : Node → Json
  | ⟨info, children⟩ => .object (info.fields ++ [("children", .array (Node.childrenToJson children))])

def Node.childrenToJson : List (NodeKey × Node) → List Json
  | [] => []
  | (_, child) :: rest => child.toJson :: Node.childrenToJson rest

end

namespace Store

/-- Everything in a store, in key order, with the diagnostics as they came. -/
def toJson (store : Store) : Json :=
  .object [("roots", .array ((OrderedMap.values store.roots).map Node.toJson)),
    ("unresolved", .array ((OrderedMap.values store.pending).map Node.toJson)),
    ("diagnostics", .array (store.diagnostics.map Diagnostic.toJson))]

def dump (store : Store) : String := store.toJson.print 0 ++ "\n"

end Store

end DeclDoc
