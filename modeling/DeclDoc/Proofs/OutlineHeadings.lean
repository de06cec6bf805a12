import DeclDoc.Proofs.OutlineShape
import DeclDoc.Proofs.StoreForm

/-!
# Headings of an outline

`OutlineLine.placed level` reads off an outline under which heading of a level each node of that level
stands. For the children of a node that is the group of the child, and for a child without a group that
of the nearest sibling before it that has one (`Store.groups_outline`): the heading of a group is not
taken back (`Store.groups_outline_ungrouped`).
-/

set_option autoImplicit false

namespace DeclDoc

namespace OutlineLine

/-- The nodes at a level, each with the title of the last heading of that level before it; `current` is
the heading that the lines begin under. -/
def placed (level : Nat) (current : Option String) :
    List OutlineLine → List (NodeInfo × Option String)
  | [] => []
  | .node depth info :: rest =>
    if depth = level then (info, current) :: placed level current rest
    else placed level current rest
  | .heading depth title :: rest =>
    placed level (if depth = level then some title else current) rest
  | .blank :: rest | .unresolved :: rest => placed level current rest

/-- Deeper lines are passed over. -/
theorem placed_append_of_below {level : Nat} {lines : List OutlineLine}
    (h : ∀ line ∈ lines, line.Below (level + 1)) (current : Option String)
    (rest : List OutlineLine) : placed level current (lines ++ rest) = placed level current rest := by
  induction lines with
  | nil => rfl
  | cons line lines ih =>
    have hline := h line List.mem_cons_self
    have ih := ih fun l hl => h l (List.mem_cons_of_mem _ hl)
    cases line with
    | node depth info =>
      rw [List.cons_append, placed, if_neg (Nat.ne_of_gt hline), ih]
    | heading depth title =>
      rw [List.cons_append, placed, if_neg (Nat.ne_of_gt hline), ih]
    | blank | unresolved => exact hline.elim

end OutlineLine

namespace Node

open OutlineLine (placed)

theorem placed_outline_append (level : Nat) (current : Option String) (node : Node)
    (rest : List OutlineLine) :
    placed level current (node.outline level ++ rest) =
      (node.info, current) :: placed level current rest := by
  have hbelow := node.below_tail_outline level
  rw [outline_eq, List.tail_cons] at hbelow
  rw [outline_eq, List.cons_append, placed, if_pos rfl, OutlineLine.placed_append_of_below hbelow]

theorem placed_heading_append (level : Nat) (current group : Option String)
    (rest : List OutlineLine) :
    placed level current (heading level current group ++ rest) =
      placed level (group.or current) rest := by
  cases group with
  | none => rfl
  | some title =>
    rw [heading, Option.some_or]
    split
    · next h =>
      rw [h]
      rfl
    · rw [List.singleton_append, placed, if_pos rfl]

/-- The last group among siblings. -/
def lastGroup (siblings : List Node) : Option String :=
  (siblings.filterMap (·.info.group)).getLast?

theorem lastGroup_cons (node : Node) (siblings : List Node) :
    lastGroup (node :: siblings) = (lastGroup siblings).or node.info.group := by
  unfold lastGroup
  rw [List.filterMap_cons]
  cases node.info.group with
  | none => rw [Option.or_none]
  | some title =>
    rw [List.getLast?_cons]
    cases (siblings.filterMap (·.info.group)).getLast? <;> rfl

theorem placed_headed (level : Nat) (current : Option String) (siblings : List Node) :
    placed level current (headed level current (siblings.map (block level))) =
      siblings.mapIdx fun i child =>
        (child.info, child.info.group.or ((lastGroup (siblings.take i)).or current)) := by
  induction siblings generalizing current with
  | nil => rfl
  | cons node siblings ih =>
    rw [List.map_cons, headed_cons, List.append_assoc, placed_heading_append]
    refine (placed_outline_append level _ node _).trans ?_
    rw [ih, List.mapIdx_cons]
    simp only [List.take_succ_cons, lastGroup_cons, Option.or_assoc]
    rfl

/-- Each child below the heading of its group, or of the last group before it if it has none. -/
theorem placed_outline (depth : Nat) (node : Node) :
    placed (depth + 1) none (node.outline depth) =
      node.childrenInSourceOrder.mapIdx fun i child =>
        (child.info, child.info.group.or (lastGroup (node.childrenInSourceOrder.take i))) := by
  rw [outline_eq, placed, if_neg (Nat.ne_of_lt (Nat.lt_succ_self _)), placed_headed]
  simp only [Option.or_none]

/-- The same where the keys of the children are in the order of the source. -/
theorem placed_outline_of_pairwise {node : Node} (depth : Nat)
    (h : (OrderedMap.values node.children).Pairwise fun a b => (a.sourceOrder b).isLE = true) :
    placed (depth + 1) none (node.outline depth) =
      (OrderedMap.values node.children).mapIdx fun i child =>
        (child.info,
          child.info.group.or (lastGroup ((OrderedMap.values node.children).take i))) := by
  have hsorted : node.childrenInSourceOrder = OrderedMap.values node.children :=
    List.mergeSort_of_pairwise h
  rw [placed_outline, hsorted]

end Node

namespace Store

open OutlineLine (placed)

/-- The lines of every node stand together in the outline, and among them each child stands below the
heading of its group, or of the last group before it if it has none. -/
theorem groups_outline (turns : List Turn) {path : StorePath} {node : Node}
    (hnode : (afterTurns turns).locate? path = some node) :
    node.outline path.depth <:+: (afterTurns turns).outline ∧
      placed (path.depth + 1) none (node.outline path.depth) =
        node.childrenInSourceOrder.mapIdx fun i child =>
          (child.info,
            child.info.group.or (Node.lastGroup (node.childrenInSourceOrder.take i))) :=
  ⟨outline_within hnode, node.placed_outline path.depth⟩

/-- What two files tell of a class, with groups in the one and a category in the other. -/
def groupedTurns : List Turn :=
  [.read ⟨{}, "A.h", "@interface C (More)\n/// @name K\n- (void)e;\n@end".toList⟩,
    .read ⟨{}, "B.h", ("@interface C\n- (void)a;\n/// @name G\n- (void)b;\n" ++
      "/// @name H\n- (void)c;\n@end").toList⟩,
    .read ⟨{}, "C.m", "@implementation C\n- (void)d {}\n@end".toList⟩,
    .finish {}]

theorem groups_outline_grouped :
    let path : StorePath := ⟨.root ⟨.interface, "C"⟩, []⟩
    ∃ node, (afterTurns groupedTurns).locate? path = some node ∧
      node.outline path.depth <:+: (afterTurns groupedTurns).outline ∧
      placed (path.depth + 1) none (node.outline path.depth) =
        node.childrenInSourceOrder.mapIdx (fun i child =>
          (child.info,
            child.info.group.or (Node.lastGroup (node.childrenInSourceOrder.take i)))) ∧
      (placed (path.depth + 1) none (node.outline path.depth)).map
          (fun entry => (entry.1.displayName, entry.2)) =
        [("C(More)", none), ("-a", none), ("-b", some "G"), ("-c", some "H"), ("-d", some "H")] := by
  intro path
  have hread : (((afterTurns groupedTurns).locate? path).filter fun node =>
      (OrderedMap.values node.children).Pairwise fun a b => (a.sourceOrder b).isLE = true).map
        (fun node => ((OrderedMap.values node.children).mapIdx fun i child =>
          (child.info,
            child.info.group.or (Node.lastGroup ((OrderedMap.values node.children).take i)))).map
              fun entry => (entry.1.displayName, entry.2)) =
        some [("C(More)", none), ("-a", none), ("-b", some "G"), ("-c", some "H"),
          ("-d", some "H")] := by
    decide +kernel
  obtain ⟨node, hfound, hplaced⟩ := Option.map_eq_some_iff.1 hread
  obtain ⟨hnode, hsorted⟩ := Option.filter_eq_some_iff.1 hfound
  obtain ⟨hwithin, hgroups⟩ := groups_outline groupedTurns hnode
  refine ⟨node, hnode, hwithin, hgroups, ?_⟩
  rw [Node.placed_outline_of_pairwise _ (of_decide_eq_true hsorted)]
  exact hplaced

/-- What two files tell of a class, with a group in the first one only. -/
def ungroupedTurns : List Turn :=
  [.read ⟨{}, "A.h", "@interface C\n/// @name G\n- (void)a;\n@end".toList⟩,
    .read ⟨{}, "B.m", "@implementation C\n- (void)b {}\n@end".toList⟩,
    .finish {}]

/-- The heading of a group is not taken back: a method without a group may stand below that of one
before it. -/
theorem groups_outline_ungrouped :
    ¬ ∀ (turns : List Turn) (path : StorePath) (node : Node),
      (afterTurns turns).locate? path = some node →
        ∀ entry ∈ placed (path.depth + 1) none (node.outline path.depth),
          entry.2 = entry.1.group := by
  intro hall
  have hread : (((afterTurns ungroupedTurns).locate? ⟨.root ⟨.interface, "C"⟩, []⟩).filter fun node =>
      (OrderedMap.values node.children).Pairwise fun a b => (a.sourceOrder b).isLE = true).map
        (fun node => ((OrderedMap.values node.children).mapIdx fun i child =>
          (child.info,
            child.info.group.or (Node.lastGroup ((OrderedMap.values node.children).take i)))).map
              fun entry => (entry.1.group, entry.2)) =
        some [(some "G", some "G"), (none, some "G")] := by
    decide +kernel
  obtain ⟨node, hfound, hplaced⟩ := Option.map_eq_some_iff.1 hread
  obtain ⟨hnode, hsorted⟩ := Option.filter_eq_some_iff.1 hfound
  have hlines : (placed 1 none (node.outline 0)).map (fun entry => (entry.1.group, entry.2)) =
      [(some "G", some "G"), (none, some "G")] := by
    rw [Node.placed_outline_of_pairwise 0 (of_decide_eq_true hsorted)]
    exact hplaced
  have hmethod : (none, some "G") ∈
      (placed 1 none (node.outline 0)).map fun entry => (entry.1.group, entry.2) := by
    rw [hlines]
    exact List.mem_cons_of_mem _ List.mem_cons_self
  obtain ⟨entry, hentry, heq⟩ := List.mem_map.1 hmethod
  obtain ⟨hgroup, htitle⟩ := Prod.mk.inj heq
  have hsame := hall ungroupedTurns _ node hnode entry hentry
  rw [hgroup, htitle] at hsame
  cases hsame

end Store

end DeclDoc
