import DeclDoc.Outline
import DeclDoc.Proofs.StorePath
import DeclDoc.Proofs.Matching
import Mathlib.Data.List.Infix

/-!
# The shape of an outline

The outline of a node is its own line and the outlines of its children in the order of the source,
with headings in between (`Node.outline_eq`). All lines of a child stand deeper than that of its node
(`Node.below_outline`), and every node of a store has its lines in one piece, at its depth
(`Store.outline_within`).
-/

set_option autoImplicit false

namespace DeclDoc

/-- How deep a path leads; categories that wait are one level deeper. -/
def StorePath.depth (path : StorePath) : Nat :=
  match path.start with
  | .root _ => path.trail.length
  | .pending _ => path.trail.length + 1

/-- A line of a node or a heading at a level or deeper. -/
def OutlineLine.Below (level : Nat) : OutlineLine → Prop
  | .node depth _ | .heading depth _ => level ≤ depth
  | .blank | .unresolved => False

theorem OutlineLine.Below.mono {low high : Nat} (hle : low ≤ high) {line : OutlineLine}
    (h : line.Below high) : line.Below low := by
  cases line with
  | node | heading => exact Nat.le_trans hle h
  | blank | unresolved => exact h

namespace Node

theorem mem_childrenInSourceOrder {node child : Node} :
    child ∈ node.childrenInSourceOrder ↔ child ∈ OrderedMap.values node.children :=
  List.mem_mergeSort

/-- Induction over trees, by the children in the order of the source. -/
theorem inductionOnChildren {motive : Node → Prop} (node : Node)
    (step : ∀ node, (∀ child ∈ node.childrenInSourceOrder, motive child) → motive node) :
    motive node := by
  induction node using Node.inductionOn with
  | step node ih =>
    refine step node fun child hchild => ?_
    obtain ⟨⟨key, child⟩, hentry, rfl⟩ := List.mem_map.1 (mem_childrenInSourceOrder.1 hchild)
    exact ih key child hentry

/-! ## Headings between siblings -/

/-- The heading that stands before a child, if its group begins there. -/
def heading (depth : Nat) (current : Option String) : Option String → List OutlineLine
  | none => []
  | some title => if current = some title then [] else [.heading depth title]

theorem headed_cons (depth : Nat) (current : Option String) (block : Block) (rest : List Block) :
    headed depth current (block :: rest) =
      heading depth current block.child.info.group ++ block.lines ++
        headed depth (block.child.info.group.or current) rest := by
  rw [headed]
  cases block.child.info.group with
  | none => rfl
  | some title =>
    dsimp only [heading]
    split
    · next h =>
      rw [h]
      rfl
    · rfl

/-- A child with its lines at a depth. -/
def block (depth : Nat) (child : Node) : Block := ⟨child, child.outline depth⟩

theorem outlineChildren_eq (depth : Nat) (children : List (NodeKey × Node)) :
    outlineChildren depth children = (OrderedMap.values children).map (block depth) := by
  induction children with
  | nil => rw [outlineChildren]; rfl
  | cons entry rest ih => rw [outlineChildren, ih]; rfl

theorem outline_eq (depth : Nat) (node : Node) :
    node.outline depth = .node depth node.info ::
      headed (depth + 1) none (node.childrenInSourceOrder.map (block (depth + 1))) := by
  obtain ⟨info, children⟩ := node
  rw [outline, outlineChildren_eq, childrenInSourceOrder]
  dsimp only
  rw [List.map_mergeSort]
  intro a _ b _
  rfl

/-! ## Deeper lines -/

theorem below_headed {level : Nat} {blocks : List Block}
    (h : ∀ block ∈ blocks, ∀ line ∈ block.lines, line.Below level) (current : Option String) :
    ∀ line ∈ headed level current blocks, line.Below level := by
  induction blocks generalizing current with
  | nil =>
    intro line hline
    cases hline
  | cons block rest ih =>
    intro line hline
    rw [headed_cons, List.mem_append, List.mem_append] at hline
    rcases hline with (hline | hline) | hline
    · unfold heading at hline
      split at hline
      · cases hline
      · split at hline
        · cases hline
        · cases List.mem_singleton.1 hline
          exact Nat.le_refl level
    · exact h block List.mem_cons_self line hline
    · exact ih (fun b hb => h b (List.mem_cons_of_mem _ hb)) _ line hline

theorem below_outline (depth : Nat) (node : Node) :
    ∀ line ∈ node.outline depth, line.Below depth := by
  induction node using Node.inductionOnChildren generalizing depth with
  | step node ih =>
    intro line hline
    rw [outline_eq] at hline
    rcases List.mem_cons.1 hline with rfl | hline
    · exact Nat.le_refl depth
    · refine (below_headed (fun b hb => ?_) none line hline).mono (Nat.le_succ depth)
      obtain ⟨child, hchild, rfl⟩ := List.mem_map.1 hb
      exact ih child hchild (depth + 1)

/-- All but the first line of a node stand deeper. -/
theorem below_tail_outline (depth : Nat) (node : Node) :
    ∀ line ∈ (node.outline depth).tail, line.Below (depth + 1) := by
  rw [outline_eq]
  refine below_headed (fun b hb => ?_) none
  obtain ⟨child, -, rfl⟩ := List.mem_map.1 hb
  exact child.below_outline (depth + 1)

/-! ## The lines of one node -/

theorem lines_infix_headed {depth : Nat} {block : Block} {blocks : List Block} (h : block ∈ blocks)
    (current : Option String) : block.lines <:+: headed depth current blocks := by
  induction blocks generalizing current with
  | nil => cases h
  | cons first rest ih =>
    rw [headed_cons]
    rcases List.mem_cons.1 h with rfl | h
    · exact List.infix_append _ _ _
    · exact (ih h _).trans (List.suffix_append ..).isInfix

theorem outline_within {node below : Node} {trail : List NodeKey}
    (h : node.descend? trail = some below) (depth : Nat) :
    below.outline (depth + trail.length) <:+: node.outline depth := by
  induction trail generalizing node depth with
  | nil =>
    cases h
    exact List.infix_refl _
  | cons key trail ih =>
    obtain ⟨child, hchild, hbelow⟩ := Option.bind_eq_some_iff.1 h
    have hmem : child ∈ node.childrenInSourceOrder :=
      mem_childrenInSourceOrder.2 (List.mem_map.2 ⟨_, OrderedMap.mem_of_find? hchild, rfl⟩)
    have hblock : block (depth + 1) child ∈ node.childrenInSourceOrder.map (block (depth + 1)) :=
      List.mem_map_of_mem hmem
    have hbelow := ih hbelow (depth + 1)
    rw [Nat.add_right_comm, Nat.add_assoc] at hbelow
    rw [outline_eq depth node]
    exact (hbelow.trans (lines_infix_headed hblock none)).trans (List.suffix_cons ..).isInfix

end Node

namespace Store

theorem infix_flatMap {α β : Type} {f : α → List β} {x : α} {xs : List α} (h : x ∈ xs) :
    f x <:+: xs.flatMap f := by
  have := ((List.singleton_infix_iff x xs).2 h).flatMap f
  rwa [List.flatMap_singleton] at this

/-- Every node of a store has its lines in one piece, at its depth. -/
theorem outline_within {store : Store} {path : StorePath} {node : Node}
    (h : store.locate? path = some node) : node.outline path.depth <:+: store.outline := by
  obtain ⟨top, htop, hnode⟩ := Option.bind_eq_some_iff.1 h
  obtain ⟨start, trail⟩ := path
  cases start with
  | root key =>
    have hmem : top ∈ (OrderedMap.values store.roots).mergeSort fun a b =>
        (compare a.info.location b.info.location).isLE :=
      List.mem_mergeSort.2 (List.mem_map.2 ⟨_, OrderedMap.mem_of_find? htop, rfl⟩)
    have hlines := Node.outline_within hnode 0
    rw [Nat.zero_add] at hlines
    exact (hlines.trans (infix_flatMap hmem)).trans (List.prefix_append ..).isInfix
  | pending key =>
    have hmem : top ∈ OrderedMap.values store.pending :=
      List.mem_map.2 ⟨_, OrderedMap.mem_of_find? htop, rfl⟩
    have hpending : (OrderedMap.values store.pending).isEmpty = false :=
      List.isEmpty_eq_false_iff.2 (List.ne_nil_of_mem hmem)
    have hlines := Node.outline_within hnode 1
    rw [Nat.add_comm] at hlines
    refine ((hlines.trans (infix_flatMap hmem)).trans ?_).trans (List.suffix_append ..).isInfix
    rw [hpending, if_neg Bool.false_ne_true]
    exact (List.suffix_append [OutlineLine.blank, OutlineLine.unresolved] _).isInfix

end Store

end DeclDoc
