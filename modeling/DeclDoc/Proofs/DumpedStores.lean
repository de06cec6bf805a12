import DeclDoc.Proofs.DumpedValues
import DeclDoc.Proofs.StoreForm

/-!
# Dumps of stores

A dump lists nodes without the keys that they stand under. In a store that was put together by reading
and finishing a key can be told from its node, so that such stores have the same dump only if they are
the same (`Store.toJson_same_iff`): trees by induction, level by level (`Node.eq_of_same`), then the
nodes at the root and those that wait.
-/

set_option autoImplicit false

namespace DeclDoc

/-- A map whose keys can be told from the values is told by its values. -/
theorem OrderedMap.eq_of_values {κ α : Type} (keyOf : α → κ) {xs ys : List (κ × α)}
    (hxs : ∀ entry ∈ xs, keyOf entry.2 = entry.1) (hys : ∀ entry ∈ ys, keyOf entry.2 = entry.1)
    (h : values xs = values ys) : xs = ys := by
  have hkeyed : ∀ map : List (κ × α), (∀ entry ∈ map, keyOf entry.2 = entry.1) →
      map = (values map).map fun value => (keyOf value, value) := fun map hmap => by
    rw [values, List.map_map]
    exact (List.map_id'' (fun entry => rfl) map).symm.trans
      (List.map_congr_left fun entry hentry => Prod.ext (hmap entry hentry).symm rfl)
  rw [hkeyed xs hxs, hkeyed ys hys, h]

/-- Values that are pairwise the same, where the same value tells the same node. -/
theorem eq_of_forall₂ {α : Type} {R : α → α → Prop} {xs ys : List α} (h : List.Forall₂ R xs ys)
    (heq : ∀ x ∈ xs, ∀ y ∈ ys, R x y → x = y) : xs = ys := by
  induction h with
  | nil => rfl
  | @cons x y xs ys hhead _ ih =>
    rw [heq x List.mem_cons_self y List.mem_cons_self hhead,
      ih fun x hx y hy => heq x (List.mem_cons_of_mem _ hx) y (List.mem_cons_of_mem _ hy)]

/-! ## Trees -/

namespace Node

theorem Keyed.of_mem {node : Node} (h : node.Keyed) :
    ∀ child ∈ OrderedMap.values node.children, child.Keyed := by
  obtain ⟨hascending, hall⟩ := keyed_iff.1 h
  intro child hchild
  obtain ⟨⟨key, child⟩, hentry, rfl⟩ := List.mem_map.1 hchild
  exact (hall key child ((OrderedMap.find?_eq_some_iff hascending).2 hentry)).2

/-- Trees whose members stand under their own keys are told by their dumps. -/
theorem eq_of_same {a b : Node} (ha : a.Keyed) (hb : b.Keyed) (h : a.toJson.Same b.toJson) :
    a = b := by
  induction a using Node.inductionOn generalizing b with
  | step a ih =>
    obtain ⟨hinfo, hmembers⟩ := parts_of_same h
    have hvalues : OrderedMap.values a.children = OrderedMap.values b.children :=
      eq_of_forall₂ hmembers fun x hx y hy hsame => by
        obtain ⟨⟨key, x⟩, hentry, rfl⟩ := List.mem_map.1 hx
        exact ih key x hentry (ha.of_mem x hx) (hb.of_mem y hy) hsame
    have hchildren : a.children = b.children :=
      OrderedMap.eq_of_values Node.key ha.key_of_mem hb.key_of_mem hvalues
    cases a
    cases b
    cases hinfo
    cases hchildren
    rfl

end Node

/-! ## Stores -/

namespace Store

open Json (present)

/-- Keys of a store can be told from the nodes under them. -/
structure Recoverable (store : Store) : Prop where
  roots : ∀ entry ∈ store.roots, entry.2.key = entry.1 ∧ entry.2.Keyed
  pending : ∀ entry ∈ store.pending,
    (⟨entry.2.info.baseClass.getD "", entry.2.key⟩ : CategoryKey) = entry.1 ∧ entry.2.Keyed

theorem Fit.recoverable {store : Store} {accepted : List Accepted} (h : store.Fit accepted) :
    store.Recoverable where
  roots := fun (key, node) hentry => by
    have hcontainer : store.container? (.root key) = some node :=
      (OrderedMap.find?_eq_some_iff h.keyed.ordered.roots).2 hentry
    exact h.keyed.container? hcontainer
  pending := fun (key, node) hentry => by
    obtain ⟨hbase, hkey⟩ := h.sound.pendingKeys key node hentry
    refine ⟨?_, (h.keyed.container? (h.keyed.pending hentry).1).2⟩
    rw [hbase, hkey]
    rfl

/-- Nodes of two maps with the same dumps, where keys can be told from the nodes. -/
theorem eq_of_dumped {κ : Type} (keyOf : Node → κ) {xs ys : List (κ × Node)}
    (hxs : ∀ entry ∈ xs, keyOf entry.2 = entry.1 ∧ entry.2.Keyed)
    (hys : ∀ entry ∈ ys, keyOf entry.2 = entry.1 ∧ entry.2.Keyed)
    (h : Json.Same (.array ((OrderedMap.values xs).map Node.toJson))
      (.array ((OrderedMap.values ys).map Node.toJson))) : xs = ys := by
  refine OrderedMap.eq_of_values keyOf (fun e he => (hxs e he).1) (fun e he => (hys e he).1) ?_
  have hitems := h.items
  rw [List.forall₂_map_left_iff, List.forall₂_map_right_iff] at hitems
  refine eq_of_forall₂ hitems fun x hx y hy hsame => ?_
  obtain ⟨entry, hentry, rfl⟩ := List.mem_map.1 hx
  obtain ⟨other, hother, rfl⟩ := List.mem_map.1 hy
  exact Node.eq_of_same (hxs entry hentry).2 (hys other hother).2 hsame

/-- What stands under the keys of a store's dump. -/
def dumpValues (store : Store) : List (Option Json) :=
  [some (.array ((OrderedMap.values store.roots).map Node.toJson)),
    some (.array ((OrderedMap.values store.pending).map Node.toJson)),
    some (.array (store.diagnostics.map Diagnostic.toJson))]

theorem toJson_eq (store : Store) :
    store.toJson = .object (present ["roots", "unresolved", "diagnostics"] store.dumpValues) := rfl

theorem Recoverable.eq_of_same {a b : Store} (ha : a.Recoverable) (hb : b.Recoverable)
    (h : a.toJson.Same b.toJson) : a = b := by
  rw [toJson_eq, toJson_eq] at h
  have hvalues := h.values (by decide) rfl rfl
  simp only [dumpValues, List.forall₂_cons, Option.rel_some_some] at hvalues
  obtain ⟨hroots, hpending, hdiagnostics, -⟩ := hvalues
  have hroots := eq_of_dumped Node.key ha.roots hb.roots hroots
  have hpending := eq_of_dumped (fun node => ⟨node.info.baseClass.getD "", node.key⟩)
    ha.pending hb.pending hpending
  have hdiagnostics := Diagnostic.faithful_toJson.array _ _ hdiagnostics
  cases a
  cases b
  cases hroots
  cases hpending
  cases hdiagnostics
  rfl

theorem recoverable_afterTurns (turns : List Turn) : (afterTurns turns).Recoverable :=
  (Fit.empty.foldl_apply turns).recoverable

/-- Whatever turns are taken, two stores have the same dump only if they are the same: all keys, and
every value that was left out, can be told from it. -/
theorem toJson_same_iff (turns others : List Turn) :
    (afterTurns turns).toJson.Same (afterTurns others).toJson ↔
      afterTurns turns = afterTurns others := by
  constructor
  · exact (recoverable_afterTurns turns).eq_of_same (recoverable_afterTurns others)
  · intro h
    rw [h]
    exact Json.Same.refl _

end Store

end DeclDoc
