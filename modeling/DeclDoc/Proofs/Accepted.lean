import DeclDoc.Proofs.MergedInfo
import DeclDoc.Proofs.MergedTrees
import Mathlib.Tactic.Simps.Basic

/-!
# Accepted entities

An entity that goes into a store is `Accepted`: it stands at the root, among the categories of a
class, or in a container, and so at a path, where it says what its declaration and its comment say.

`Store.Holds store accepted`: at every path the store says what the entities accepted for that path
say together, and nothing elsewhere. One more accepted entity keeps this (`Holds.insertRoot`,
`Holds.insertCategory`, `Holds.insertChild?`).
-/

set_option autoImplicit false

namespace DeclDoc

/-- Where an accepted entity stands. -/
inductive Standing where
  | root
  | category (baseClass : String)
  | member (container : ContainerRef)
deriving DecidableEq, Repr

/-- An entity that went into a store, with the group that was in force and its comment. -/
structure Accepted where
  standing : Standing
  entity : Entity
  comment : Option Comment := none
deriving DecidableEq, Repr

namespace Accepted

/-- A root's key, a class and a category's key, or a container's path and a member's key. -/
def path (accepted : Accepted) : StorePath :=
  match accepted.standing with
  | .root => ⟨.root accepted.entity.key, []⟩
  | .category baseClass => ⟨.pending ⟨baseClass, accepted.entity.key⟩, []⟩
  | .member container => ⟨container, [accepted.entity.key]⟩

/-- The node that an accepted entity stands in. -/
def parent (accepted : Accepted) : Option NodeKey :=
  match accepted.standing with
  | .member container => some container.key
  | .root | .category _ => none

/-- What an accepted entity says of its node: what it declares, its comment, and where it stands. -/
@[simps] def info (accepted : Accepted) : NodeInfo :=
  { NodeInfo.ofEntity accepted.entity accepted.comment with parent := accepted.parent }

/-- Kinds stand where they may, and methods alone belong to instances or to the class. -/
structure WellFormed (accepted : Accepted) : Prop where
  flavor : accepted.entity.flavor.isSome = true ↔ accepted.entity.kind = .method
  standing :
    match accepted.standing with
    | .root => accepted.entity.kind.isMember = false ∧ accepted.entity.kind.isCategoryLike = false
    | .category _ => accepted.entity.kind.isCategoryLike = true
    | .member _ => accepted.entity.kind.isMember = true

end Accepted

/-! ## Keys -/

/-- Where methods alone have a flavor, a key tells kind, name and flavor. -/
theorem NodeKey.ofDeclaration_inj {kind kind' : Kind} {name name' : String}
    {flavor flavor' : Option Flavor} (h : flavor.isSome = true ↔ kind = .method)
    (h' : flavor'.isSome = true ↔ kind' = .method)
    (heq : ofDeclaration kind name flavor = ofDeclaration kind' name' flavor') :
    kind' = kind ∧ name' = name ∧ flavor' = flavor := by
  have hkind : kind = kind' := by
    simpa using congrArg NodeKey.kind heq
  subst hkind
  by_cases hm : kind = .method
  · subst hm
    obtain ⟨f, rfl⟩ := Option.isSome_iff_exists.1 (h.2 rfl)
    obtain ⟨g, rfl⟩ := Option.isSome_iff_exists.1 (h'.2 rfl)
    have hname := congrArg (fun key : NodeKey => key.name.toList) heq
    have hsame : g = f ∧ name'.toList = name.toList := by
      clear heq
      cases f <;> cases g <;> simp_all [ofDeclaration, Flavor.sign]
    exact ⟨rfl, String.toList_injective hsame.2, congrArg some hsame.1⟩
  · have hf : flavor = none := by simpa [hm] using h
    have hf' : flavor' = none := by simpa [hm] using h'
    subst hf hf'
    have hname : name = name' := by simpa [ofDeclaration] using congrArg NodeKey.name heq
    exact ⟨rfl, hname.symm, rfl⟩

namespace Accepted

variable {a b : Accepted}

theorem key_path (a : Accepted) : a.path.key = a.entity.key := by
  unfold path
  split <;> rfl

/-- Entities at one path have one key. -/
theorem key_eq_of_path_eq (h : a.path = b.path) : a.entity.key = b.entity.key := by
  rw [← a.key_path, ← b.key_path, h]

theorem parent_eq_of_path_eq (h : a.path = b.path) : a.parent = b.parent := by
  unfold path at h
  unfold parent
  split at h <;> split at h <;> simp_all

/-- Entities at one path are of one kind, name and flavor. -/
theorem same_of_path_eq (ha : a.WellFormed) (hb : b.WellFormed) (h : a.path = b.path) :
    b.info.kind = a.info.kind ∧ b.info.name = a.info.name ∧ b.info.flavor = a.info.flavor :=
  NodeKey.ofDeclaration_inj ha.flavor hb.flavor (key_eq_of_path_eq h)

theorem summarizes_info (a : Accepted) : a.info.Summarizes [a.info] where
  key d hd := by cases List.mem_singleton.1 hd; exact ⟨rfl, rfl, rfl⟩
  declaredIn site := by simp
  ascending := OrderedSet.ascending_singleton _
  location := List.mem_singleton_self _
  earliest site hsite := by
    cases List.mem_singleton.1 hsite
    simp [Std.ReflOrd.compare_self]
  comment := by
    by_cases h : a.info.isDocumented = true <;>
      simp [NodeInfo.firstComment, List.find?, h]
  signature := by
    by_cases h : a.entity.signature = [] <;> simp [NodeInfo.firstSignature, List.find?, h]
  typeName := by simp
  superclass := by simp
  baseClass := by simp
  group := by simp
  resolution := by simp
  parent := by simp
  protocols name := by simp
  protocolsAscending := OrderedSet.ascending_ofList _
  attributes name := by simp
  attributesNodup h := h _ (List.mem_singleton_self _)

end Accepted

/-! ## Stores that take entities -/

namespace Store

/-- `after` is the store with one more accepted entity: the entity tells of its node, and nothing else
is said otherwise than before. A category names its class, and a member has a container, of a kind
that takes it. -/
structure Takes (store : Store) (a : Accepted) (after : Store) : Prop where
  wellFormed : a.WellFormed
  based : ∀ baseClass, a.standing = .category baseClass → a.entity.baseClass = some baseClass
  housed : ∀ container, a.standing = .member container →
    container.key.kind.accepts a.entity.kind = true ∧
      (store.container? container).isSome = true
  keyed : after.Keyed
  infoAt? : ∀ path, after.infoAt? path =
    if path = a.path then some (a.info.mergedInto (store.infoAt? path)) else store.infoAt? path

/-- Accepted entities one after the other, and diagnostics in between. -/
inductive TakesAll (store : Store) : List Accepted → Store → Prop
  | nil : TakesAll store [] store
  | snoc {accepted : List Accepted} {before after : Store} {a : Accepted}
      (h : TakesAll store accepted before) (ha : before.Takes a after) :
      TakesAll store (accepted ++ [a]) after
  | said {accepted : List Accepted} {after : Store} (diagnostics : List Diagnostic)
      (h : TakesAll store accepted after) : TakesAll store accepted { after with diagnostics }

variable {store after : Store}

/-- Invariant rule: what each taken entity and each diagnostic keeps, all of them keep. -/
theorem TakesAll.inv {P : List Accepted → Store → Prop} {more : List Accepted}
    (hmore : store.TakesAll more after) (done : List Accepted) (h : P done store)
    (htakes : ∀ {accepted : List Accepted} {before next : Store} {a : Accepted},
      P accepted before → before.Takes a next → P (accepted ++ [a]) next)
    (hsaid : ∀ {accepted : List Accepted} {before : Store} (diagnostics : List Diagnostic),
      P accepted before → P accepted { before with diagnostics }) : P (done ++ more) after := by
  induction hmore with
  | nil => rwa [List.append_nil]
  | snoc _ hlast ih =>
    rw [← List.append_assoc]
    exact htakes ih hlast
  | said diagnostics _ ih => exact hsaid diagnostics ih

/-- A container stays where it is. -/
theorem Takes.isSome_container? {a : Accepted} (h : store.Takes a after) {container : ContainerRef}
    (hc : (store.container? container).isSome = true) :
    (after.container? container).isSome = true := by
  have hinfo := h.infoAt? ⟨container, []⟩
  rw [infoAt?_start, infoAt?_start] at hinfo
  rw [← Option.isSome_map (f := Node.info), hinfo]
  split
  · rfl
  · rwa [Option.isSome_map]

/-- The container that an entity opens is there. -/
theorem Takes.isSome_container?_of_path {a : Accepted} (h : store.Takes a after)
    {container : ContainerRef} (hpath : a.path = ⟨container, []⟩) :
    (after.container? container).isSome = true := by
  have hinfo := h.infoAt? a.path
  rw [if_pos rfl, hpath, infoAt?_start] at hinfo
  rw [← Option.isSome_map (f := Node.info), hinfo]
  rfl

theorem TakesAll.keyed {accepted : List Accepted} (h : store.TakesAll accepted after)
    (hstore : store.Keyed) : after.Keyed := by
  induction h with
  | nil => exact hstore
  | snoc _ ha _ => exact ha.keyed
  | said diagnostics _ ih => exact ih.withDiagnostics diagnostics

variable {entity : Entity} {comment : Option Comment}

theorem takes_insertRoot (h : store.Keyed) (ha : Accepted.WellFormed ⟨.root, entity, comment⟩) :
    store.Takes ⟨.root, entity, comment⟩ (store.insertRoot (.ofEntity entity comment)) where
  wellFormed := ha
  based _ hb := by cases hb
  housed _ hc := by cases hc
  keyed := h.insertRoot _
  infoAt? := infoAt?_insertRoot store _

theorem takes_insertCategory (h : store.Keyed) {baseClass : String}
    (hbase : entity.baseClass = some baseClass)
    (ha : Accepted.WellFormed ⟨.category baseClass, entity, comment⟩) :
    store.Takes ⟨.category baseClass, entity, comment⟩
      (store.insertCategory baseClass (.ofEntity entity comment)) where
  wellFormed := ha
  based _ hb := by cases hb; exact hbase
  housed _ hc := by cases hc
  keyed := h.insertCategory _ _
  infoAt? := infoAt?_insertCategory store baseClass _

/-- A member goes into a container that is there. -/
theorem takes_insertChild? (h : store.Keyed) {container : ContainerRef}
    (hc : (store.container? container).isSome = true)
    (haccepts : container.key.kind.accepts entity.kind = true)
    (ha : Accepted.WellFormed ⟨.member container, entity, comment⟩) :
    ∃ after, store.insertChild? container (.ofEntity entity comment) = some after ∧
      store.Takes ⟨.member container, entity, comment⟩ after := by
  obtain ⟨node, hnode⟩ := Option.isSome_iff_exists.1 hc
  obtain ⟨hkey, -⟩ := h.container? hnode
  obtain ⟨after, hafter, hinfo⟩ := infoAt?_insertChild? hnode (.ofEntity entity comment)
  refine ⟨after, hafter, ha, (fun _ hb => by cases hb), ?_, h.insertChild? hafter, ?_⟩
  · intro other hother
    cases hother
    exact ⟨haccepts, hc⟩
  · intro path
    rw [hinfo, hkey]
    rfl

end Store

/-! ## What a store holds -/

/-- Nothing is said without declarations, and else what they say together. -/
def NodeInfo.Tells (declared : List NodeInfo) : Option NodeInfo → Prop
  | none => declared = []
  | some info => info.Summarizes declared

/-- What the entities accepted for a path say, in their order. -/
def infosAt (accepted : List Accepted) (path : StorePath) : List NodeInfo :=
  (accepted.filter fun a => a.path = path).map Accepted.info

theorem infosAt_append (accepted more : List Accepted) (path : StorePath) :
    infosAt (accepted ++ more) path = infosAt accepted path ++ infosAt more path := by
  simp [infosAt]

/-- One more entity says something at its own path only. -/
theorem infosAt_concat (accepted : List Accepted) (a : Accepted) (path : StorePath) :
    infosAt (accepted ++ [a]) path =
      if path = a.path then infosAt accepted path ++ [a.info] else infosAt accepted path := by
  rw [infosAt_append]
  split
  · next hpath => simp [infosAt, hpath]
  · next hpath => simp [infosAt, Ne.symm hpath]

theorem mem_infosAt {accepted : List Accepted} {path : StorePath} {info : NodeInfo} :
    info ∈ infosAt accepted path ↔ ∃ a ∈ accepted, a.path = path ∧ a.info = info := by
  simp [infosAt, and_assoc]

namespace NodeInfo

theorem Tells.isSome_iff {declared : List NodeInfo} {info : Option NodeInfo}
    (h : Tells declared info) : info.isSome = true ↔ declared ≠ [] := by
  cases info with
  | none => simpa [Tells] using h
  | some info =>
    obtain ⟨d, hd⟩ := Summarizes.nonempty h
    simpa using List.ne_nil_of_mem hd

/-- One more declaration of the same thing. -/
theorem Tells.mergedInto {declared : List NodeInfo} {existing : Option NodeInfo} {info : NodeInfo}
    (h : Tells declared existing) (hinfo : info.Summarizes [info])
    (hkey : ∀ d ∈ declared, info.kind = d.kind ∧ info.name = d.name ∧ info.flavor = d.flavor) :
    Tells (declared ++ [info]) (some (info.mergedInto existing)) := by
  cases existing with
  | none =>
    cases (show declared = [] from h)
    exact hinfo
  | some existing =>
    obtain ⟨d, hd⟩ := Summarizes.nonempty h
    obtain ⟨hkind, hname, hflavor⟩ := Summarizes.key h d hd
    obtain ⟨hkind', hname', hflavor'⟩ := hkey d hd
    exact Summarizes.merge h hinfo
      ⟨hkind'.trans hkind, hname'.trans hname, hflavor'.trans hflavor⟩

end NodeInfo

namespace Store

/-- At every path the store says what the entities accepted for it say together, and there is nothing at
other paths. -/
structure Holds (store : Store) (accepted : List Accepted) : Prop where
  ordered : store.Ordered
  wellFormed : ∀ a ∈ accepted, a.WellFormed
  tells : ∀ path, NodeInfo.Tells (infosAt accepted path) (store.infoAt? path)

namespace Holds

variable {store after : Store} {accepted : List Accepted}

theorem empty : Holds {} [] where
  ordered := ordered_empty
  wellFormed _ h := by cases h
  tells path := by
    rw [infoAt?_empty]
    rfl

/-- Diagnostics play no part in what a store holds. -/
theorem withDiagnostics (h : store.Holds accepted) (diagnostics : List Diagnostic) :
    Holds { store with diagnostics } accepted :=
  ⟨h.ordered.withDiagnostics diagnostics, h.wellFormed, h.tells⟩

/-- A store that changed at the path of one more entity holds it. -/
theorem declare (h : store.Holds accepted) {a : Accepted} (ha : a.WellFormed)
    (hordered : after.Ordered)
    (hafter : ∀ path, after.infoAt? path =
      if path = a.path then some (a.info.mergedInto (store.infoAt? path))
      else store.infoAt? path) : after.Holds (accepted ++ [a]) where
  ordered := hordered
  wellFormed b hb := by
    rcases List.mem_append.1 hb with hb | hb
    · exact h.wellFormed b hb
    · cases List.mem_singleton.1 hb; exact ha
  tells path := by
    rw [hafter, infosAt_concat]
    split
    · next hp =>
      refine (h.tells path).mergedInto a.summarizes_info ?_
      intro d hd
      obtain ⟨b, hb, hbp, rfl⟩ := mem_infosAt.1 hd
      exact Accepted.same_of_path_eq (h.wellFormed b hb) ha (hbp.trans hp)
    · exact h.tells path

/-- A path leads to a node when an entity was accepted for it. -/
theorem isSome_infoAt?_iff (h : store.Holds accepted) (path : StorePath) :
    (store.infoAt? path).isSome = true ↔ ∃ a ∈ accepted, a.path = path := by
  simp [(h.tells path).isSome_iff, infosAt, List.filter_eq_nil_iff]

/-- What is said at a path is said under the key that the path ends in. -/
theorem key_of_infoAt? (h : store.Holds accepted) {path : StorePath} {info : NodeInfo}
    (hinfo : store.infoAt? path = some info) : info.key = path.key := by
  have htells := h.tells path
  rw [hinfo] at htells
  obtain ⟨d, hd⟩ := NodeInfo.Summarizes.nonempty htells
  obtain ⟨hkind, hname, hflavor⟩ := NodeInfo.Summarizes.key htells d hd
  obtain ⟨a, -, rfl, rfl⟩ := mem_infosAt.1 hd
  have hkey : info.key = a.info.key := by
    rw [NodeInfo.key, NodeInfo.key, hkind, hname, hflavor]
  rw [hkey, a.key_path]
  rfl

/-- A container's node has the key that it is looked for with. -/
theorem key_of_container? (h : store.Holds accepted) {container : ContainerRef} {node : Node}
    (hc : store.container? container = some node) : node.key = container.key := by
  have hnode : store.infoAt? ⟨container, []⟩ = some node.info := by
    rw [infoAt?_start, hc, Option.map_some]
  exact h.key_of_infoAt? hnode

theorem keyed (h : store.Holds accepted) : store.Keyed :=
  ⟨h.ordered, fun _ _ hinfo => h.key_of_infoAt? hinfo⟩

theorem takes (h : store.Holds accepted) {a : Accepted} (ha : store.Takes a after) :
    after.Holds (accepted ++ [a]) :=
  h.declare ha.wellFormed ha.keyed.ordered ha.infoAt?

/-- A store that has taken entities holds them as well. -/
theorem takesAll (h : store.Holds accepted) {more : List Accepted}
    (hmore : store.TakesAll more after) : after.Holds (accepted ++ more) :=
  hmore.inv (P := fun accepted store => store.Holds accepted) accepted h
    (fun hbefore ha => hbefore.takes ha) fun diagnostics hbefore => hbefore.withDiagnostics diagnostics

end Holds

end Store

end DeclDoc
