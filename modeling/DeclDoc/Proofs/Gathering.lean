import DeclDoc.Proofs.StoreForm

/-!
# Categories gathered in parts

A category that is declared, moved under its class, and declared again stands in two places until the
store is finalized once more. `Store.Gathers accepted store`: what is said in both places, put
together, is what the entities `accepted` for the category say one after the other, but for whether
its class is known. More entities and more finalizing keep this (`Store.Gathers.takes`,
`Store.Gathers.finalize`), so it does not matter to a finalized store when it was finalized before
(`Store.Gathers.infoAt?_finalize_eq`).
-/

set_option autoImplicit false

namespace DeclDoc

/-! ## What is said in parts -/

namespace NodeInfo

/-- What declarations of one thing say, one after the other. -/
def gathered (declared : List NodeInfo) : Option NodeInfo :=
  declared.foldl (fun existing info => some (info.mergedInto existing)) none

theorem gathered_concat (declared : List NodeInfo) (info : NodeInfo) :
    gathered (declared ++ [info]) = joined (gathered declared) (some info) := by
  rw [gathered, List.foldl_append]
  rfl

theorem joined_assoc {a : Option NodeInfo} (h : ∀ info, a = some info → info.Sorted)
    (b c : Option NodeInfo) : joined a (joined b c) = joined (joined a b) c := by
  cases c with
  | none => rfl
  | some c =>
    cases b with
    | none => rfl
    | some b =>
      cases a with
      | none => rfl
      | some a => exact congrArg some (merge_assoc (h a rfl) b c)

theorem Sorted.joined {a b : Option NodeInfo} (ha : ∀ info, a = some info → info.Sorted)
    (hb : ∀ info, b = some info → info.Sorted) {info : NodeInfo}
    (h : NodeInfo.joined a b = some info) : info.Sorted := by
  cases b with
  | none => exact ha info h
  | some b =>
    cases h
    cases a with
    | none => exact hb b rfl
    | some a => exact (ha a rfl).merge b

/-! ## What finalizing does not change -/

/-- What a category says but for what finalizing says of it. -/
def unsettled (info : NodeInfo) : NodeInfo := { info with resolution := none, parent := none }

theorem unsettled_settled (known : String → Bool) (baseClass : String) (info : NodeInfo) :
    (info.settled known baseClass).unsettled = info.unsettled := by
  unfold settled
  split <;> rfl

theorem eq_of_unsettled_eq {a b : NodeInfo} (h : a.unsettled = b.unsettled)
    (hresolution : a.resolution = b.resolution) (hparent : a.parent = b.parent) : a = b := by
  obtain ⟨⟩ := a
  obtain ⟨⟩ := b
  simp_all [unsettled]

/-- What is settled at the end of a trail that leads on from a category: the category itself. -/
def settledOn (known : String → Bool) (baseClass : String) (trail : List NodeKey)
    (info : NodeInfo) : NodeInfo :=
  if trail = [] then info.settled known baseClass else info

/-- What finalizing does not change at the end of a trail that leads on from a category. -/
def unsettledOn (trail : List NodeKey) (info : NodeInfo) : NodeInfo :=
  if trail = [] then info.unsettled else info

theorem unsettledOn_settledOn (known : String → Bool) (baseClass : String) (trail : List NodeKey)
    (info : NodeInfo) :
    (info.settledOn known baseClass trail).unsettledOn trail = info.unsettledOn trail := by
  unfold settledOn unsettledOn
  split
  · exact unsettled_settled known baseClass info
  · rfl

theorem map_unsettledOn_joined (trail : List NodeKey) (a b : Option NodeInfo) :
    (joined a b).map (unsettledOn trail) =
      joined (a.map (unsettledOn trail)) (b.map (unsettledOn trail)) := by
  cases b with
  | none => rfl
  | some b =>
    cases a with
    | none => rfl
    | some a =>
      unfold unsettledOn
      by_cases h : trail = [] <;> simp only [h, if_true, if_false] <;> rfl

/-- What is said is the same where finalizing said the same of it. -/
theorem eq_of_map_unsettledOn_eq {trail : List NodeKey} {a b : Option NodeInfo}
    (h : a.map (unsettledOn trail) = b.map (unsettledOn trail))
    (hmarks : trail = [] → ∀ x y, a = some x → b = some y →
      x.resolution = y.resolution ∧ x.parent = y.parent) : a = b := by
  cases a with
  | none => exact (Option.map_eq_none_iff.1 h.symm).symm
  | some x =>
    cases b with
    | none => cases h
    | some y =>
      have hsame : x.unsettledOn trail = y.unsettledOn trail := Option.some.inj h
      unfold unsettledOn at hsame
      split at hsame
      · next htrail =>
        obtain ⟨hresolution, hparent⟩ := hmarks htrail x y rfl rfl
        rw [eq_of_unsettled_eq hsame hresolution hparent]
      · rw [hsame]

theorem Sorted.settled {info : NodeInfo} (h : info.Sorted) (known : String → Bool)
    (baseClass : String) : (info.settled known baseClass).Sorted := by
  unfold NodeInfo.settled
  split <;> exact ⟨h.declaredIn, h.protocols⟩

end NodeInfo

theorem Accepted.sorted (a : Accepted) : a.info.Sorted :=
  ⟨OrderedSet.ascending_singleton _, OrderedSet.ascending_ofList _⟩

/-! ## The two places of a category -/

/-- Where a category, and what is below it, stands under its class. -/
def CategoryKey.inClass (key : CategoryKey) (trail : List NodeKey) : StorePath :=
  ⟨.root ⟨.interface, key.baseClass⟩, key.key :: trail⟩

namespace StorePath

variable {known : String → Bool} {key other : CategoryKey} {trail below : List NodeKey}

theorem inClass_eq_home_iff :
    key.inClass trail = home known ⟨.pending other, below⟩ ↔
      known key.baseClass = true ∧ key = other ∧ trail = below := by
  obtain ⟨base, key⟩ := key
  obtain ⟨base', key'⟩ := other
  rw [home_pending, CategoryKey.inClass]
  split <;> grind

theorem pending_eq_home_iff :
    (⟨.pending key, trail⟩ : StorePath) = home known ⟨.pending other, below⟩ ↔
      known key.baseClass = false ∧ key = other ∧ trail = below := by
  rw [home_pending]
  split <;> grind

end StorePath

namespace Store

open StorePath (home)

variable {store : Store} {accepted : List Accepted}

/-- A category that waits, or nothing, at a path that starts where it waits. -/
theorem Keyed.infoAt?_pending (h : store.Keyed) (key : CategoryKey) (trail : List NodeKey) :
    (∃ node, (key, node) ∈ store.pending ∧
        store.infoAt? ⟨.pending key, trail⟩ = node.infoAt? trail) ∨
      (∀ entry ∈ store.pending, entry.1 ≠ key) ∧
        store.infoAt? ⟨.pending key, trail⟩ = none := by
  cases hc : store.container? (.pending key) with
  | some node =>
    refine .inl ⟨node, (OrderedMap.find?_eq_some_iff h.ordered.pending).1 hc, ?_⟩
    rw [infoAt?, hc]
    rfl
  | none =>
    refine .inr ⟨?_, ?_⟩
    · rintro entry hentry rfl
      rw [(h.pending hentry).1] at hc
      cases hc
    · rw [infoAt?, hc]
      rfl

theorem infoAt?_settledNode_eq (baseClass : String) (node : Node) (trail : List NodeKey) :
    (store.settledNode baseClass node).infoAt? trail =
      (node.infoAt? trail).map (NodeInfo.settledOn store.knows baseClass trail) := by
  rw [infoAt?_settledNode]
  cases trail with
  | nil => rfl
  | cons key trail =>
    have hid : NodeInfo.settledOn store.knows baseClass (key :: trail) = id :=
      funext fun _ => if_neg (List.cons_ne_nil key trail)
    rw [if_neg (List.cons_ne_nil key trail), hid, Option.map_id_apply]

/-- What is said of a category under its class after finalizing. -/
theorem Keyed.infoAt?_finalize_inClass (h : store.Keyed) (key : CategoryKey)
    (trail : List NodeKey) :
    store.finalize.infoAt? (key.inClass trail) =
      if store.knows key.baseClass then
        NodeInfo.joined (store.infoAt? (key.inClass trail))
          ((store.infoAt? ⟨.pending key, trail⟩).map
            (NodeInfo.settledOn store.knows key.baseClass trail))
      else store.infoAt? (key.inClass trail) := by
  have hroots : infoAt? { store with pending := [] } (key.inClass trail) =
      store.infoAt? (key.inClass trail) := rfl
  split
  · next hknown =>
    have hhome : home store.knows ⟨.pending key, trail⟩ = key.inClass trail :=
      (StorePath.inClass_eq_home_iff.2 ⟨hknown, rfl, rfl⟩).symm
    rcases h.infoAt?_pending key trail with ⟨node, hnode, hinfo⟩ | ⟨hnone, hinfo⟩
    · rw [← hhome, h.infoAt?_finalize_home hnode trail, hhome, hroots, hinfo,
        infoAt?_settledNode_eq]
    · rw [hinfo, h.infoAt?_finalize_of_ne, hroots]
      · rfl
      · intro entry hentry below heq
        exact hnone entry hentry (StorePath.inClass_eq_home_iff.1 heq).2.1.symm
  · next hknown =>
    rw [h.infoAt?_finalize_of_ne, hroots]
    intro entry hentry below heq
    exact hknown (StorePath.inClass_eq_home_iff.1 heq).1

/-- What is said of a category where it waits after finalizing. -/
theorem Keyed.infoAt?_finalize_pending (h : store.Keyed) (key : CategoryKey)
    (trail : List NodeKey) :
    store.finalize.infoAt? ⟨.pending key, trail⟩ =
      if store.knows key.baseClass then none
      else (store.infoAt? ⟨.pending key, trail⟩).map
        (NodeInfo.settledOn store.knows key.baseClass trail) := by
  have hcleared : infoAt? { store with pending := [] } ⟨.pending key, trail⟩ = none := rfl
  split
  · next hknown =>
    rw [h.infoAt?_finalize_of_ne, hcleared]
    intro entry hentry below heq
    rw [(StorePath.pending_eq_home_iff.1 heq).1] at hknown
    cases hknown
  · next hknown =>
    have hhome : home store.knows ⟨.pending key, trail⟩ = ⟨.pending key, trail⟩ :=
      (StorePath.pending_eq_home_iff.2 ⟨Bool.eq_false_iff.2 hknown, rfl, rfl⟩).symm
    rcases h.infoAt?_pending key trail with ⟨node, hnode, hinfo⟩ | ⟨hnone, hinfo⟩
    · have hthere := h.infoAt?_finalize_home hnode trail
      rw [hhome, hcleared, NodeInfo.none_joined, infoAt?_settledNode_eq] at hthere
      rw [hthere, hinfo]
    · rw [hinfo, h.infoAt?_finalize_of_ne, hcleared]
      · rfl
      · intro entry hentry below heq
        exact hnone entry hentry (StorePath.pending_eq_home_iff.1 heq).2.1.symm

/-! ## Stores and what was accepted for them -/

/-- What is said of a category under its class and where it waits, put together, is what the entities
accepted for it say but for whether its class is known; elsewhere the store says what was accepted. -/
structure Gathers (accepted : List Accepted) (store : Store) : Prop where
  fit : store.Fit accepted
  sorted : ∀ path info, store.infoAt? path = some info → info.Sorted
  waiting : ∀ key info, store.infoAt? ⟨.pending key, []⟩ = some info → info.parent = none
  elsewhere : ∀ path,
    (∀ (key : CategoryKey) trail, key.key.kind.isCategoryLike = true →
      path ≠ ⟨.pending key, trail⟩ ∧ path ≠ key.inClass trail) →
    store.infoAt? path = NodeInfo.gathered (infosAt accepted path)
  categories : ∀ key : CategoryKey, key.key.kind.isCategoryLike = true → ∀ trail,
    (NodeInfo.joined (store.infoAt? (key.inClass trail))
        (store.infoAt? ⟨.pending key, trail⟩)).map (NodeInfo.unsettledOn trail) =
      (NodeInfo.gathered (infosAt accepted ⟨.pending key, trail⟩)).map
        (NodeInfo.unsettledOn trail)

/-- Whatever waits has the key of a category. -/
theorem Fit.isCategoryLike (h : store.Fit accepted) {key : CategoryKey} {trail : List NodeKey}
    {info : NodeInfo} (hinfo : store.infoAt? ⟨.pending key, trail⟩ = some info) :
    key.key.kind.isCategoryLike = true := by
  obtain ⟨node, hnode, -⟩ := Option.bind_eq_some_iff.1 hinfo
  have hfits := h.fits ⟨.pending key, []⟩ node.info (by rw [infoAt?_start, hnode]; rfl)
  have hkey : node.info.key = key.key := hfits.key
  rw [← hkey, NodeInfo.key, NodeKey.kind_ofDeclaration]
  exact hfits.place.2

/-- A category under its class is marked so. -/
theorem Fit.marks (h : store.Fit accepted) {key : CategoryKey}
    (hkey : key.key.kind.isCategoryLike = true) {info : NodeInfo}
    (hinfo : store.infoAt? (key.inClass []) = some info) :
    info.resolution = some .resolved ∧ info.parent = some ⟨.interface, key.baseClass⟩ := by
  have hfits := h.fits _ info hinfo
  obtain ⟨hparent, hkind⟩ := hfits.place
  refine ⟨?_, hparent⟩
  rcases hkind with haccepts | ⟨-, hresolution, -⟩
  · have hlike : info.kind.isCategoryLike = true := by
      have hkeys : info.key = key.key := hfits.key
      rw [← hkeys, NodeInfo.key, NodeKey.kind_ofDeclaration] at hkey
      exact hkey
    cases hk : info.kind <;> rw [hk] at haccepts hlike <;> cases hlike <;> cases haccepts
  · exact hresolution

namespace Gathers

variable {after : Store} {accepted more : List Accepted}

theorem empty : Gathers [] {} where
  fit := .empty
  sorted := Everywhere.empty
  waiting key info h := by cases h
  elsewhere path _ := infoAt?_empty path
  categories key _ trail := rfl

theorem withDiagnostics (h : store.Gathers accepted) (diagnostics : List Diagnostic) :
    Gathers accepted { store with diagnostics } :=
  ⟨h.fit.withDiagnostics diagnostics, h.sorted, h.waiting, h.elsewhere, h.categories⟩

/-- One more entity. -/
theorem takes (h : store.Gathers accepted) {a : Accepted} (ha : store.Takes a after) :
    after.Gathers (accepted ++ [a]) where
  fit := h.fit.takes ha
  sorted := Everywhere.takes (fun hx _ => hx.merge _) h.sorted ha a.sorted
  waiting key info hinfo := by
    rw [ha.infoAt?] at hinfo
    split at hinfo
    · next hpath =>
      have hparent : a.info.parent = none := by
        obtain ⟨hstanding, -⟩ := Accepted.path_eq_pending_iff.1 hpath.symm
        show a.parent = none
        rw [Accepted.parent, hstanding]
      cases hinfo
      cases hbefore : store.infoAt? ⟨.pending key, []⟩ with
      | none => exact hparent
      | some e =>
        show e.parent.or a.info.parent = none
        rw [h.waiting key e hbefore, hparent]
        rfl
    · exact h.waiting key info hinfo
  elsewhere path hpath := by
    rw [ha.infoAt?, h.elsewhere path hpath, infosAt_concat]
    split
    · rw [NodeInfo.gathered_concat]
      rfl
    · rfl
  categories key hkey trail := by
    have hclass : after.infoAt? (key.inClass trail) = store.infoAt? (key.inClass trail) := by
      have hne : a.path ≠ key.inClass trail :=
        Accepted.path_ne_of_isCategoryLike ha.wellFormed hkey
      rw [ha.infoAt?, if_neg hne.symm]
    have hbefore := h.categories key hkey trail
    rw [hclass, ha.infoAt?, infosAt_concat]
    split
    · have hmore : some (a.info.mergedInto (store.infoAt? ⟨.pending key, trail⟩)) =
          NodeInfo.joined (store.infoAt? ⟨.pending key, trail⟩) (some a.info) := rfl
      rw [NodeInfo.gathered_concat, hmore, NodeInfo.joined_assoc (h.sorted _),
        NodeInfo.map_unsettledOn_joined, hbefore, NodeInfo.map_unsettledOn_joined]
    · exact hbefore

theorem takesAll (h : store.Gathers accepted) (hmore : store.TakesAll more after) :
    after.Gathers (accepted ++ more) :=
  hmore.inv (P := fun accepted store => store.Gathers accepted) accepted h
    (fun hbefore ha => hbefore.takes ha) fun diagnostics hbefore => hbefore.withDiagnostics diagnostics

/-- A class that is not known has no members. -/
theorem infoAt?_inClass_of_unknown {key : CategoryKey} (h : store.knows key.baseClass = false)
    (trail : List NodeKey) : store.infoAt? (key.inClass trail) = none := by
  have hnone : store.container? (.root ⟨.interface, key.baseClass⟩) = none := by
    rw [← Option.not_isSome_iff_eq_none]
    exact Bool.eq_false_iff.1 h
  rw [CategoryKey.inClass, infoAt?, hnone]
  rfl

/-- Categories under their classes. -/
theorem finalize (h : store.Gathers accepted) : store.finalize.Gathers accepted where
  fit := h.fit.finalize
  sorted := Everywhere.finalize (fun hx _ => hx.merge _) h.sorted h.fit.keyed
    (fun hinfo => hinfo.settled store.knows _) id
  waiting key info hinfo := by
    rw [h.fit.keyed.infoAt?_finalize_pending] at hinfo
    split at hinfo
    · cases hinfo
    · next hunknown =>
      obtain ⟨e, he, rfl⟩ := Option.map_eq_some_iff.1 hinfo
      show (e.settled store.knows key.baseClass).parent = none
      rw [NodeInfo.settled, if_neg hunknown]
      exact h.waiting key e he
  elsewhere path hpath := by
    rw [← h.elsewhere path hpath, h.fit.keyed.infoAt?_finalize_of_ne]
    · obtain ⟨start | key, trail⟩ := path
      · rfl
      · cases hinfo : store.infoAt? ⟨.pending key, trail⟩ with
        | none => rfl
        | some info => exact ((hpath key trail (h.fit.isCategoryLike hinfo)).1 rfl).elim
    · intro entry hentry trail heq
      have hinfo : store.infoAt? ⟨.pending entry.1, []⟩ = some entry.2.info := by
        rw [infoAt?_start, (h.fit.keyed.pending hentry).1]
        rfl
      have hlike := h.fit.isCategoryLike hinfo
      obtain ⟨hwaits, hclass⟩ := hpath entry.1 trail hlike
      rw [StorePath.home_pending] at heq
      split at heq
      · exact hclass heq
      · exact hwaits heq
  categories key hkey trail := by
    rw [← h.categories key hkey trail, h.fit.keyed.infoAt?_finalize_inClass,
      h.fit.keyed.infoAt?_finalize_pending]
    have hsettled : ∀ info : Option NodeInfo,
        (info.map (NodeInfo.settledOn store.knows key.baseClass trail)).map
          (NodeInfo.unsettledOn trail) = info.map (NodeInfo.unsettledOn trail) := fun info => by
      cases info with
      | none => rfl
      | some info => exact congrArg some (NodeInfo.unsettledOn_settledOn ..)
    split
    · rw [NodeInfo.joined_none, NodeInfo.map_unsettledOn_joined, hsettled,
        NodeInfo.map_unsettledOn_joined]
    · rw [NodeInfo.map_unsettledOn_joined, hsettled, NodeInfo.map_unsettledOn_joined]

/-! ## Finalized stores -/

/-- Stores that gather the same know the same classes. -/
theorem knows_eq {a b : Store} (ha : a.Gathers accepted) (hb : b.Gathers accepted) :
    a.knows = b.knows := by
  funext baseClass
  have hclass : a.infoAt? ⟨.root ⟨.interface, baseClass⟩, []⟩ =
      b.infoAt? ⟨.root ⟨.interface, baseClass⟩, []⟩ := by
    have hplain : ∀ (key : CategoryKey) trail, key.key.kind.isCategoryLike = true →
        (⟨.root ⟨.interface, baseClass⟩, []⟩ : StorePath) ≠ ⟨.pending key, trail⟩ ∧
          (⟨.root ⟨.interface, baseClass⟩, []⟩ : StorePath) ≠ key.inClass trail := fun key trail _ =>
      ⟨(fun h => by cases h), fun h => by cases h⟩
    rw [ha.elsewhere _ hplain, hb.elsewhere _ hplain]
  rw [infoAt?_start, infoAt?_start] at hclass
  rw [knows, knows, ← Option.isSome_map (f := Node.info), hclass, Option.isSome_map]

/-- When they are finalized, they say the same of every category. -/
theorem infoAt?_finalize_category {a b : Store} (ha : a.Gathers accepted)
    (hb : b.Gathers accepted) {key : CategoryKey} (hkey : key.key.kind.isCategoryLike = true)
    (trail : List NodeKey) :
    a.finalize.infoAt? (key.inClass trail) = b.finalize.infoAt? (key.inClass trail) ∧
      a.finalize.infoAt? ⟨.pending key, trail⟩ = b.finalize.infoAt? ⟨.pending key, trail⟩ := by
  have hknows := ha.knows_eq hb
  have hsame := (ha.finalize.categories key hkey trail).trans
    (hb.finalize.categories key hkey trail).symm
  cases hknown : a.knows key.baseClass with
  | true =>
    have hanone : a.finalize.infoAt? ⟨.pending key, trail⟩ = none := by
      rw [ha.fit.keyed.infoAt?_finalize_pending, if_pos hknown]
    have hbnone : b.finalize.infoAt? ⟨.pending key, trail⟩ = none := by
      rw [hb.fit.keyed.infoAt?_finalize_pending, if_pos (hknows ▸ hknown)]
    refine ⟨?_, hanone.trans hbnone.symm⟩
    rw [hanone, hbnone, NodeInfo.joined_none, NodeInfo.joined_none] at hsame
    refine NodeInfo.eq_of_map_unsettledOn_eq hsame fun htrail x y hx hy => ?_
    subst htrail
    obtain ⟨hxresolution, hxparent⟩ := ha.finalize.fit.marks hkey hx
    obtain ⟨hyresolution, hyparent⟩ := hb.finalize.fit.marks hkey hy
    exact ⟨hxresolution.trans hyresolution.symm, hxparent.trans hyparent.symm⟩
  | false =>
    have hanone : a.finalize.infoAt? (key.inClass trail) = none :=
      infoAt?_inClass_of_unknown (by rw [ha.fit.keyed.knows_finalize, hknown]) trail
    have hbnone : b.finalize.infoAt? (key.inClass trail) = none :=
      infoAt?_inClass_of_unknown (by rw [hb.fit.keyed.knows_finalize, ← hknows, hknown]) trail
    refine ⟨hanone.trans hbnone.symm, ?_⟩
    rw [hanone, hbnone, NodeInfo.none_joined, NodeInfo.none_joined] at hsame
    refine NodeInfo.eq_of_map_unsettledOn_eq hsame fun htrail x y hx hy => ?_
    subst htrail
    have hxresolution := (ha.fit.pending_finalize hx).1
    have hyresolution := (hb.fit.pending_finalize hy).1
    have hxparent := ha.finalize.waiting key x hx
    have hyparent := hb.finalize.waiting key y hy
    exact ⟨hxresolution.trans hyresolution.symm, hxparent.trans hyparent.symm⟩

/-- It does not matter to a finalized store how what was accepted came into it. -/
theorem infoAt?_finalize_eq {a b : Store} (ha : a.Gathers accepted) (hb : b.Gathers accepted)
    (path : StorePath) : a.finalize.infoAt? path = b.finalize.infoAt? path := by
  by_cases hpath : ∃ (key : CategoryKey) (trail : List NodeKey),
      key.key.kind.isCategoryLike = true ∧ (path = ⟨.pending key, trail⟩ ∨ path = key.inClass trail)
  · obtain ⟨key, trail, hkey, rfl | rfl⟩ := hpath
    · exact (ha.infoAt?_finalize_category hb hkey trail).2
    · exact (ha.infoAt?_finalize_category hb hkey trail).1
  · have hplain : ∀ (key : CategoryKey) trail, key.key.kind.isCategoryLike = true →
        path ≠ ⟨.pending key, trail⟩ ∧ path ≠ key.inClass trail := fun key trail hkey =>
      ⟨fun h => hpath ⟨key, trail, hkey, .inl h⟩, fun h => hpath ⟨key, trail, hkey, .inr h⟩⟩
    rw [ha.finalize.elsewhere path hplain, hb.finalize.elsewhere path hplain]

/-- Finalized, stores that gather the same have the same roots, and the same waits in them. -/
theorem finalize_eq {a b : Store} (ha : a.Gathers accepted) (hb : b.Gathers accepted) :
    a.finalize.roots = b.finalize.roots ∧ a.finalize.pending = b.finalize.pending :=
  eq_of_infoAt?_eq ha.finalize.fit.keyed.ordered hb.finalize.fit.keyed.ordered
    (ha.infoAt?_finalize_eq hb)

end Gathers

/-! ## Before anything is finalized -/

/-- While files are read, every node says what was accepted for it. -/
theorem TakesAll.infoAt?_eq {after : Store} (h : TakesAll {} accepted after) (path : StorePath) :
    after.infoAt? path = NodeInfo.gathered (infosAt accepted path) := by
  induction h with
  | nil => exact infoAt?_empty path
  | @snoc front before after a _ ha ih =>
    rw [ha.infoAt?, ih, infosAt_concat]
    split
    · rw [NodeInfo.gathered_concat]
      rfl
    · rfl
  | said diagnostics _ ih => exact ih

end Store

end DeclDoc
