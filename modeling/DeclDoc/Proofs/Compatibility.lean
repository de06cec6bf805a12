import DeclDoc.Proofs.MergeLaws
import Mathlib.Data.List.Pairwise

/-!
# Compatible declarations

Merging compares a node only with what the nodes before it have come to, and that keeps the first
value of everything. `Node.mergeAll_conflictFree_iff`: no conflict is missed by that. Nodes merge one
after the other without a conflict exactly when every two of them are compatible, so the order in
which they are merged does not matter to whether one is found.

Two nodes are `Compatible` when they say nothing different where both say something, here and in
every member that both have. What carries the proof is that agreement is an equivalence where
something is said (`AgreeOn.or_iff`), so what agrees with the first of two compatible values, or else
with the second, agrees with both.
-/

set_option autoImplicit false

namespace DeclDoc

/-! ## Agreement -/

/-- Values that are given on both sides are related. -/
def AgreeOn {α : Type} (R : α → α → Prop) (a b : Option α) : Prop := ∀ x ∈ a, ∀ y ∈ b, R x y

namespace AgreeOn

variable {α : Type} {R : α → α → Prop} {a b c : Option α} {x y : α}

theorem some_iff : AgreeOn R (some x) (some y) ↔ R x y := by
  simp [AgreeOn]

@[simp] theorem none_left : AgreeOn R none a := fun _ h => by cases h

@[simp] theorem none_right : AgreeOn R a none := fun _ _ _ h => by cases h

theorem symm (hR : ∀ x y, R x y → R y x) (h : AgreeOn R a b) : AgreeOn R b a :=
  fun y hy x hx => hR x y (h x hx y hy)

theorem refl (hR : ∀ x, R x x) (a : Option α) : AgreeOn R a a := fun x hx y hy => by
  rw [Option.mem_def] at hx hy
  cases hx.symm.trans hy
  exact hR x

/-- What agrees with the first given of two values that agree, agrees with both. -/
theorem or_iff (hR : Equivalence R) (hab : AgreeOn R a b) :
    AgreeOn R (a.or b) c ↔ AgreeOn R a c ∧ AgreeOn R b c := by
  cases a with
  | none => simp
  | some x =>
    cases b with
    | none => simp
    | some y =>
      have hxy : R x y := some_iff.1 hab
      rw [Option.some_or]
      exact ⟨fun h => ⟨h, fun u hu z hz => by
        cases hu
        exact hR.trans (hR.symm hxy) (h x rfl z hz)⟩, And.left⟩

end AgreeOn

/-! ## Signatures and types -/

/-- Types without their blanks. -/
def bareType (typeName : String) : List Char := Text.squash typeName.toList

theorem sameType_iff {a b : String} : sameType a b = true ↔ bareType a = bareType b := beq_iff_eq

/-- A fragment without what signatures may differ in: blanks of types, and names of parameters. -/
def Fragment.bare : Fragment → Fragment
  | .returns typeName => .returns (.ofList (bareType typeName))
  | .parameter keyword typeName _ => .parameter keyword (.ofList (bareType typeName)) ""
  | .variadic => .variadic

theorem Fragment.agrees_iff {a b : Fragment} : a.agrees b = true ↔ a.bare = b.bare := by
  cases a <;> cases b <;> simp [agrees, bare, sameType_iff, String.ofList_inj]

theorem sameSignature_iff {as bs : List Fragment} :
    sameSignature as bs = true ↔ as.map Fragment.bare = bs.map Fragment.bare := by
  fun_induction sameSignature as bs with
  | case1 => simp
  | case2 a as b bs ih => rw [Bool.and_eq_true, Fragment.agrees_iff, ih, List.map_cons, List.map_cons,
      List.cons.injEq]
  | case3 as bs hnil hcons =>
    cases as with
    | nil => cases bs with
      | nil => exact absurd rfl (hnil rfl)
      | cons b bs => simp
    | cons a as => cases bs with
      | nil => simp
      | cons b bs => exact (hcons a as b bs rfl rfl).elim

theorem sameSignature_equivalence : Equivalence fun as bs => sameSignature as bs = true := by
  simp only [sameSignature_iff]
  exact ⟨fun _ => rfl, Eq.symm, Eq.trans⟩

theorem bareType_equivalence : Equivalence fun a b => bareType a = bareType b :=
  ⟨fun _ => rfl, Eq.symm, Eq.trans⟩

namespace NodeInfo

/-- The signature, if there is one. -/
def signature? (info : NodeInfo) : Option (List Fragment) :=
  if info.signature.isEmpty then none else some info.signature

/-- Two nodes say nothing different of themselves: where both have a signature, a type or a
superclass, the signatures agree, the types differ in blanks only, and the superclasses are the
same. -/
structure Compatible (a b : NodeInfo) : Prop where
  signature : AgreeOn (fun as bs => sameSignature as bs = true) a.signature? b.signature?
  typeName : AgreeOn (fun current incoming => bareType current = bareType incoming)
    a.typeName b.typeName
  superclass : AgreeOn Eq a.superclass b.superclass

variable {a b c : NodeInfo}

theorem signature?_merge (a b : NodeInfo) : (a.merge b).signature? = a.signature?.or b.signature? := by
  unfold signature? merge
  cases ha : a.signature.isEmpty <;> simp [ha]

theorem Compatible.refl (a : NodeInfo) : a.Compatible a :=
  ⟨.refl sameSignature_equivalence.refl _, .refl bareType_equivalence.refl _, .refl Eq.refl _⟩

theorem Compatible.symm (h : a.Compatible b) : b.Compatible a :=
  ⟨h.signature.symm fun _ _ => sameSignature_equivalence.symm,
    h.typeName.symm fun _ _ => bareType_equivalence.symm, h.superclass.symm fun _ _ => Eq.symm⟩

/-- What is compatible with two nodes together is compatible with each of them. -/
theorem Compatible.merge_iff (h : a.Compatible b) :
    (a.merge b).Compatible c ↔ a.Compatible c ∧ b.Compatible c := by
  have hsignature := h.signature.or_iff (c := c.signature?) sameSignature_equivalence
  have htype := h.typeName.or_iff (c := c.typeName) bareType_equivalence
  have hsuperclass := h.superclass.or_iff (c := c.superclass) eq_equivalence
  rw [← signature?_merge] at hsignature
  constructor
  · intro hc
    obtain ⟨hsa, hsb⟩ := hsignature.1 hc.signature
    obtain ⟨hta, htb⟩ := htype.1 hc.typeName
    obtain ⟨hca, hcb⟩ := hsuperclass.1 hc.superclass
    exact ⟨⟨hsa, hta, hca⟩, ⟨hsb, htb, hcb⟩⟩
  · rintro ⟨hac, hbc⟩
    exact ⟨hsignature.2 ⟨hac.signature, hbc.signature⟩, htype.2 ⟨hac.typeName, hbc.typeName⟩,
      hsuperclass.2 ⟨hac.superclass, hbc.superclass⟩⟩

theorem conflicts_eq_nil_iff : a.conflicts b = [] ↔ a.Compatible b := by
  have hsignature : a.signatureConflict b = [] ↔
      AgreeOn (fun as bs => sameSignature as bs = true) a.signature? b.signature? := by
    unfold signatureConflict signature?
    cases a.signature.isEmpty <;> cases b.signature.isEmpty <;> simp [AgreeOn.some_iff]
  have htype : a.typeConflict b = [] ↔
      AgreeOn (fun current incoming => bareType current = bareType incoming)
        a.typeName b.typeName := by
    unfold typeConflict
    cases a.typeName <;> cases b.typeName <;> simp [AgreeOn.some_iff, sameType_iff]
  have hsuperclass : a.superclassConflict b = [] ↔ AgreeOn Eq a.superclass b.superclass := by
    unfold superclassConflict
    cases a.superclass <;> cases b.superclass <;> simp [AgreeOn.some_iff]
  rw [conflicts, List.append_eq_nil_iff, List.append_eq_nil_iff, hsignature, htype, hsuperclass]
  constructor
  · rintro ⟨⟨hs, ht⟩, hc⟩
    exact ⟨hs, ht, hc⟩
  · intro h
    exact ⟨⟨h.signature, h.typeName⟩, h.superclass⟩

/-- The same where one of them may not be there. -/
theorem agreeOn_joined_iff {a b c : Option NodeInfo} (h : AgreeOn Compatible a b) :
    AgreeOn Compatible (joined a b) c ↔ AgreeOn Compatible a c ∧ AgreeOn Compatible b c := by
  cases a with
  | none => simp
  | some a =>
    cases b with
    | none => simp
    | some b =>
      cases c with
      | none => simp
      | some c =>
        rw [AgreeOn.some_iff] at h
        exact AgreeOn.some_iff.trans (h.merge_iff.trans
          (and_congr AgreeOn.some_iff.symm AgreeOn.some_iff.symm))

end NodeInfo

namespace Node

/-! ## Compatible trees -/

/-- Two nodes are compatible when what they say of themselves is, and so are the members that both
have under one key. -/
inductive Compatible : Node → Node → Prop where
  | intro {a b : Node} (here : a.info.Compatible b.info)
      (members : ∀ key x y, OrderedMap.find? key a.children = some x →
        OrderedMap.find? key b.children = some y → Compatible x y) : Compatible a b

variable {a b c : Node}

theorem compatible_iff :
    a.Compatible b ↔ a.info.Compatible b.info ∧
      ∀ key x y, OrderedMap.find? key a.children = some x →
        OrderedMap.find? key b.children = some y → x.Compatible y :=
  ⟨fun ⟨here, members⟩ => ⟨here, members⟩, fun ⟨here, members⟩ => ⟨here, members⟩⟩

/-- Compatible nodes are compatible wherever both say something. -/
theorem compatible_iff_infoAt? :
    a.Compatible b ↔ ∀ trail, AgreeOn NodeInfo.Compatible (a.infoAt? trail) (b.infoAt? trail) := by
  constructor
  · intro h
    induction h with
    | intro here members ih =>
      intro trail x hx y hy
      cases trail with
      | nil =>
        cases hx
        cases hy
        exact here
      | cons key trail =>
        rw [infoAt?_cons] at hx hy
        obtain ⟨m, hm, hx⟩ := Option.bind_eq_some_iff.1 hx
        obtain ⟨n, hn, hy⟩ := Option.bind_eq_some_iff.1 hy
        exact ih key m n hm hn trail x hx y hy
  · intro h
    induction a using Node.inductionOn generalizing b with
    | step a ih =>
      refine ⟨h [] a.info rfl b.info rfl, fun key m n hm hn => ?_⟩
      refine ih key m (OrderedMap.mem_of_find? hm) fun trail => ?_
      have hbelow := h (key :: trail)
      rwa [infoAt?_cons, infoAt?_cons, hm, hn] at hbelow

theorem Compatible.refl (a : Node) : a.Compatible a :=
  compatible_iff_infoAt?.2 fun _ => .refl NodeInfo.Compatible.refl _

theorem Compatible.symm (h : a.Compatible b) : b.Compatible a :=
  compatible_iff_infoAt?.2 fun trail =>
    (compatible_iff_infoAt?.1 h trail).symm fun _ _ => NodeInfo.Compatible.symm

instance : Std.Symm Compatible := ⟨fun _ _ => Compatible.symm⟩

/-- What is compatible with a merged node is compatible with both its parts. -/
theorem Compatible.merge_iff (hb : b.Keyed) (h : a.Compatible b) :
    (a.merge b).value.Compatible c ↔ a.Compatible c ∧ b.Compatible c := by
  simp only [compatible_iff_infoAt?] at h ⊢
  rw [← forall_and]
  refine forall_congr' fun trail => ?_
  rw [infoAt?_merge a hb]
  exact NodeInfo.agreeOn_joined_iff (h trail)

/-! ## Merging without conflicts -/

theorem conflicts_merge_eq_nil_iff (hb : b.Keyed) :
    (a.merge b).conflicts = [] ↔ a.Compatible b := by
  induction b using Node.inductionOn generalizing a with
  | step b ih =>
    obtain ⟨hchildren, hall⟩ := keyed_iff.1 hb
    rw [conflicts_merge, List.append_eq_nil_iff, NodeInfo.conflicts_eq_nil_iff,
      conflicts_mergeChildren hchildren hb.key_of_mem, List.flatMap_eq_nil_iff, compatible_iff]
    refine and_congr_right fun _ => ?_
    constructor
    · intro h key x y hx hy
      have hmem := OrderedMap.mem_of_find? hy
      have hquiet := h (key, y) hmem
      rw [hx] at hquiet
      exact (ih key y hmem (hall key y hy).2).1 hquiet
    · rintro h ⟨key, y⟩ hmem
      have hy := (OrderedMap.find?_eq_some_iff hchildren).2 hmem
      cases hx : OrderedMap.find? key a.children with
      | none => rfl
      | some x => exact (ih key y hmem (hall key y hy).2).2 (h key x y hx hy)

/-- Nodes merged into a first one, one after the other, with the conflicts of each. -/
def mergeAll (first : Node) : List Node → Merged Node
  | [] => ⟨first, []⟩
  | node :: rest =>
    let merged := first.merge node
    let others := mergeAll merged.value rest
    ⟨others.value, merged.conflicts ++ others.conflicts⟩

theorem conflicts_mergeAll_eq_nil_iff {first : Node} {rest : List Node}
    (h : ∀ node ∈ first :: rest, node.Keyed) :
    (mergeAll first rest).conflicts = [] ↔ (first :: rest).Pairwise Compatible := by
  induction rest generalizing first with
  | nil => exact ⟨fun _ => List.pairwise_singleton _ _, fun _ => rfl⟩
  | cons node rest ih =>
    obtain ⟨hfirst, hothers⟩ := List.forall_mem_cons.1 h
    obtain ⟨hnode, hrest⟩ := List.forall_mem_cons.1 hothers
    have hmerged : ∀ n ∈ (first.merge node).value :: rest, n.Keyed :=
      List.forall_mem_cons.2 ⟨hfirst.merge hnode, hrest⟩
    have hsplit : (mergeAll first (node :: rest)).conflicts = [] ↔
        first.Compatible node ∧ ((first.merge node).value :: rest).Pairwise Compatible := by
      rw [← ih hmerged, ← conflicts_merge_eq_nil_iff hnode, mergeAll, List.append_eq_nil_iff]
    rw [hsplit, List.pairwise_cons, List.pairwise_cons, List.pairwise_cons, List.forall_mem_cons,
      and_assoc]
    refine and_congr_right fun hcompatible => ?_
    -- The nodes behind are compared with the first two merged, that is with each of them.
    simp only [hcompatible.merge_iff hnode, forall_and, and_assoc]

/-- Nodes merge one after the other without a conflict exactly if every two of them are compatible, so no
order of them hides a conflict that another one shows. -/
theorem mergeAll_conflictFree_iff {first : Node} {rest : List Node}
    (h : ∀ node ∈ first :: rest, node.Keyed) :
    ((mergeAll first rest).conflicts = [] ↔
        ∀ a ∈ first :: rest, ∀ b ∈ first :: rest, a.Compatible b) ∧
      ∀ first' rest', (first :: rest).Perm (first' :: rest') →
        ((mergeAll first' rest').conflicts = [] ↔ (mergeAll first rest).conflicts = []) := by
  have hall : ∀ {first : Node} {rest : List Node}, (∀ node ∈ first :: rest, node.Keyed) →
      ((mergeAll first rest).conflicts = [] ↔
        ∀ a ∈ first :: rest, ∀ b ∈ first :: rest, a.Compatible b) := by
    intro first rest h
    rw [conflicts_mergeAll_eq_nil_iff h]
    exact ⟨fun hpairs _ ha _ hb => hpairs.forall_of_forall (fun a _ => .refl a) ha hb,
      List.pairwise_of_forall_mem_list⟩
  refine ⟨hall h, fun first' rest' hperm => ?_⟩
  rw [hall h, hall fun node hnode => h node (hperm.mem_iff.2 hnode)]
  simp only [hperm.mem_iff]

/-- A class as a file declares it, with one member. -/
def classIn (file : String) (protocols : List String) (member : Entity) : Node :=
  let declared := ofEntity
    { kind := .interface, name := "C", location := ⟨file, 1, 12⟩, protocols } none
  { declared with children := OrderedMap.insert member.key (ofEntity member none) declared.children }

theorem wellKept_classIn (file : String) (protocols : List String) (member : Entity) :
    (classIn file protocols member).WellKept :=
  (wellKept_ofEntity _ none).insert (wellKept_ofEntity member none)

/-- A class as a file declares it, with a property that may be given a type. -/
def classWith (file : String) (typeName : Option String) : Node :=
  classIn file [] { kind := .property, name := "x", location := ⟨file, 2, 1⟩, typeName }

/-- The first and the last of three files give a property different types. The one between them gives
none, so no two files that come one after the other contradict each other. -/
theorem mergeAll_conflictFree_threeFiles :
    let a := classWith "A.h" (some "char *")
    let b := classWith "B.h" none
    let c := classWith "C.h" (some "long")
    (∀ node ∈ [a, b, c], node.Keyed) ∧
      (mergeAll a [b, c]).conflicts = [.types "x" "char *" "long"] ∧
      ¬(∀ x ∈ [a, b, c], ∀ y ∈ [a, b, c], x.Compatible y) ∧
      (mergeAll c [a, b]).conflicts ≠ [] ∧
      (mergeAll a [b, classWith "D.h" (some "char*")]).conflicts = [] := by
  intro a b c
  have hkeyed : ∀ node ∈ [a, b, c], node.Keyed := by
    intro node hnode
    simp only [List.mem_cons, List.not_mem_nil, or_false] at hnode
    rcases hnode with rfl | rfl | rfl <;> exact (wellKept_classIn ..).keyed
  have hfound : (mergeAll a [b, c]).conflicts = [.types "x" "char *" "long"] := by decide +kernel
  have hsome : (mergeAll a [b, c]).conflicts ≠ [] := hfound ▸ List.cons_ne_nil _ _
  have hmoved : ([a, b] ++ [c]).Perm ([c] ++ [a, b]) := List.perm_append_comm
  obtain ⟨hiff, horder⟩ := mergeAll_conflictFree_iff hkeyed
  exact ⟨hkeyed, hfound, fun h => hsome (hiff.2 h), fun h => hsome ((horder c [a, b] hmoved).1 h),
    by decide +kernel⟩

end Node

end DeclDoc
