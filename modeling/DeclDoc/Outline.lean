import DeclDoc.Store

/-! # The outline

An outline has a line for each node, indented by its depth, children in the order of the source. A
group of members has a heading where it begins. `head?_outline`: the first line of a node's
outline is its own.
-/

set_option autoImplicit false

namespace DeclDoc

inductive OutlineLine where
  | node (depth : Nat) (info : NodeInfo)
  | heading (depth : Nat) (title : String)
  | blank
  | unresolved

namespace OutlineLine

def indentation (depth : Nat) : String := String.ofList (List.replicate (2 * depth) ' ')

/-- What stands on the line of a node. -/
def summary (info : NodeInfo) : String :=
  String.join
    [info.kind.name, " ", info.displayName,
      (info.superclass.map (" : " ++ ·)).getD "",
      if info.protocols.isEmpty then "" else " <" ++ ", ".intercalate info.protocols ++ ">",
      (info.typeName.map fun type => " [" ++ type ++ "]").getD "",
      if info.resolution = some .unresolved then " (unresolved)" else "",
      ((info.comment.bind Comment.shortDescription).map ("  // " ++ ·)).getD ""]

def text : OutlineLine → String
  | .node depth info => indentation depth ++ summary info
  | .heading depth title => indentation depth ++ "@name " ++ title
  | .blank => ""
  | .unresolved => "unresolved:"

end OutlineLine

namespace Node

/-- A child and its lines. -/
structure Block where
  child : Node
  lines : List OutlineLine

/-- The lines of siblings, with a heading where a group begins that is not the current one. -/
def headed (depth : Nat) (current : Option String) : List Block → List OutlineLine
  | [] => []
  | block :: rest =>
    match block.child.info.group with
    | some title =>
      if current = some title then block.lines ++ headed depth current rest
      else .heading depth title :: block.lines ++ headed depth (some title) rest
    | none => block.lines ++ headed depth current rest

mutual

/-- The lines of a node at a depth. -/
def outline (depth : Nat) : Node → List OutlineLine
  | ⟨info, children⟩ =>
    let blocks :=
      (outlineChildren (depth + 1) children).mergeSort fun a b => (a.child.sourceOrder b.child).isLE
    .node depth info :: headed (depth + 1) none blocks

def outlineChildren (depth : Nat) : List (NodeKey × Node) → List Block
  | [] => []
  | (_, child) :: rest => ⟨child, child.outline depth⟩ :: outlineChildren depth rest

end

theorem head?_outline (depth : Nat) (node : Node) :
    (node.outline depth).head? = some (.node depth node.info) := by
  cases node
  rfl

end Node

namespace Store

/-- The roots by location, then the categories whose class is unknown. -/
def outline (store : Store) : List OutlineLine :=
  let roots :=
    (OrderedMap.values store.roots).mergeSort fun a b =>
      (compare a.info.location b.info.location).isLE
  let pending := OrderedMap.values store.pending
  roots.flatMap (Node.outline 0) ++
    if pending.isEmpty then []
    else .blank :: .unresolved :: pending.flatMap (Node.outline 1)

def outlineText (store : Store) : String :=
  String.join (store.outline.map fun line => line.text ++ "\n")

end Store

end DeclDoc
