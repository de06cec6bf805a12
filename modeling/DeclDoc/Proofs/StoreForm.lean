import DeclDoc.Proofs.FileOrder

/-!
# The form of a store

What holds of all nodes of a store (`Store.Everywhere`) and is kept when two nodes become one still holds
of them after one more entity, after categories went under their classes, and after trimming.

`NodeInfo.Fits accepted path info`: what `info` says suits a node at the path that was put together
from some of the entities `accepted`. That is such a condition, so a store has its form after any number
of turns (`Store.afterTurns_sound`).
-/

set_option autoImplicit false

namespace DeclDoc

/-! ## Turns -/

/-- What may be done to a store, again and again. -/
inductive Turn where
  | read (call : Call)
  | finalize
  | finish (extraction : Extraction)

namespace Turn

def apply (store : Store) : Turn → Store
  | .read call => (call.read store).store
  | .finalize => store.finalize
  | .finish extraction => (extraction.finish store).store

/-- What is accepted in a turn. -/
def accepted : Turn → List Accepted
  | .read call => call.accepted
  | .finalize | .finish _ => []

end Turn

/-- Invariant rule: what each turn keeps, all of them keep. -/
theorem Turn.inv {P : List Accepted → Store → Prop} {turns : List Turn}
    (hturn : ∀ turn ∈ turns, ∀ {accepted : List Accepted} {store : Store}, P accepted store →
      P (accepted ++ turn.accepted) (turn.apply store))
    (accepted : List Accepted) {store : Store} (h : P accepted store) :
    P (accepted ++ turns.flatMap Turn.accepted) (turns.foldl Turn.apply store) := by
  induction turns generalizing accepted store with
  | nil => rwa [List.flatMap_nil, List.append_nil]
  | cons turn rest ih =>
    rw [List.flatMap_cons, ← List.append_assoc]
    exact ih (fun other hother => hturn other (List.mem_cons_of_mem _ hother)) _
      (hturn turn List.mem_cons_self h)

/-- What turns make of the empty store. -/
def Store.afterTurns (turns : List Turn) : Store := turns.foldl Turn.apply {}

/-! ## What suits a path -/

/-- Where the node is that a member stands in. -/
def StorePath.owner (path : StorePath) : StorePath := ⟨path.start, path.trail.dropLast⟩

@[simp] theorem StorePath.owner_append (start : ContainerRef) (trail : List NodeKey) (key : NodeKey) :
    (⟨start, trail ++ [key]⟩ : StorePath).owner = ⟨start, trail⟩ := by
  rw [owner, List.dropLast_concat]

namespace NodeInfo

/-- What says where a node stands suits its path: roots stand alone, categories that wait name their
class, members name their owner, which takes them or is the class that a category was resolved to. -/
def SuitsPlace (info : NodeInfo) (path : StorePath) : Prop :=
  match path.trail, path.start with
  | [], .root _ =>
    info.parent = none ∧ info.resolution = none ∧ info.kind.isMember = false ∧
      info.kind.isCategoryLike = false
  | [], .pending key => info.baseClass = some key.baseClass ∧ info.kind.isCategoryLike = true
  | _ :: _, _ =>
    info.parent = some path.owner.key ∧
      (path.owner.key.kind.accepts info.kind = true ∨
        info.kind.isCategoryLike = true ∧ info.resolution = some .resolved ∧
          ∃ baseClass, path.owner = ⟨.root ⟨.interface, baseClass⟩, []⟩)

/-- What a node says suits its path, and its locations are those of entities that were accepted for
it. -/
structure Fits (accepted : List Accepted) (path : StorePath) (info : NodeInfo) : Prop where
  key : info.key = path.key
  flavor : info.flavor.isSome = true ↔ info.kind = .method
  location : info.location ∈ info.declaredIn
  earliest : ∀ site ∈ info.declaredIn, (compare info.location site).isLE = true
  declared : ∀ site ∈ info.declaredIn, ∃ a ∈ accepted, a.entity.location = site ∧
    a.entity.kind = info.kind ∧ a.entity.flavor = info.flavor ∧ a.entity.name = info.name
  place : info.SuitsPlace path

variable {accepted : List Accepted} {path : StorePath} {a b : NodeInfo}

theorem Fits.mono (h : a.Fits accepted path) {more : List Accepted}
    (hmore : ∀ d ∈ accepted, d ∈ more) : a.Fits more path where
  key := h.key
  flavor := h.flavor
  location := h.location
  earliest := h.earliest
  declared site hsite := by
    obtain ⟨d, hd, htells⟩ := h.declared site hsite
    exact ⟨d, hmore d hd, htells⟩
  place := h.place

/-- Nodes of one path are of one kind, flavor and name. -/
theorem Fits.same (ha : a.Fits accepted path) (hb : b.Fits accepted path) :
    b.kind = a.kind ∧ b.name = a.name ∧ b.flavor = a.flavor :=
  NodeKey.ofDeclaration_inj ha.flavor hb.flavor (ha.key.trans hb.key.symm)

/-- What suits a place inside a node. -/
theorem SuitsPlace.inside (h : a.SuitsPlace path) (htrail : path.trail ≠ []) :
    a.parent = some path.owner.key ∧
      (path.owner.key.kind.accepts a.kind = true ∨
        a.kind.isCategoryLike = true ∧ a.resolution = some .resolved ∧
          ∃ baseClass, path.owner = ⟨.root ⟨.interface, baseClass⟩, []⟩) := by
  obtain ⟨start, _ | ⟨key, trail⟩⟩ := path
  · exact absurd rfl htrail
  · exact h

theorem SuitsPlace.merge (ha : a.SuitsPlace path) (hb : b.SuitsPlace path) :
    (a.merge b).SuitsPlace path := by
  obtain ⟨start, _ | ⟨key, trail⟩⟩ := path
  · cases start with
    | root key =>
      obtain ⟨haparent, haresolution, hkind⟩ := ha
      obtain ⟨hbparent, hbresolution, -⟩ := hb
      refine ⟨?_, ?_, hkind⟩
      · show a.parent.or b.parent = none
        rw [haparent, hbparent]
        rfl
      · show a.resolution.or b.resolution = none
        rw [haresolution, hbresolution]
        rfl
    | pending key =>
      refine ⟨?_, ha.2⟩
      show a.baseClass.or b.baseClass = _
      rw [ha.1]
      rfl
  · obtain ⟨hparent, hkind⟩ := ha
    refine ⟨?_, ?_⟩
    · show a.parent.or b.parent = _
      rw [hparent]
      rfl
    · refine hkind.imp_right fun ⟨hlike, hresolution, hclass⟩ => ⟨hlike, ?_, hclass⟩
      show a.resolution.or b.resolution = _
      rw [hresolution]
      rfl

/-- What two nodes of one path say together suits it. -/
theorem Fits.merge (ha : a.Fits accepted path) (hb : b.Fits accepted path) :
    (a.merge b).Fits accepted path where
  key := ha.key
  flavor := ha.flavor
  location := location_merge ha.location hb.location
  earliest := earliest_merge ha.earliest hb.earliest
  declared site hsite := by
    rcases OrderedSet.mem_union.1 hsite with h | h
    · exact ha.declared site h
    · obtain ⟨hkind, hname, hflavor⟩ := ha.same hb
      obtain ⟨d, hd, hlocation, hdkind, hdflavor, hdname⟩ := hb.declared site h
      exact ⟨d, hd, hlocation, hdkind.trans hkind, hdflavor.trans hflavor, hdname.trans hname⟩
  place := ha.place.merge hb.place

end NodeInfo

/-! ## One more entity -/

/-- What an entity says suits the path that it is accepted for. -/
theorem Store.Takes.fits {store after : Store} {a : Accepted} (h : store.Takes a after) :
    a.info.Fits [a] a.path where
  key := a.key_path.symm
  flavor := h.wellFormed.flavor
  location := List.mem_singleton_self _
  earliest site hsite := by
    cases List.mem_singleton.1 hsite
    rw [Accepted.info_location, NodeInfo.ofEntity_location, Std.ReflOrd.compare_self]
    rfl
  declared site hsite := by
    cases List.mem_singleton.1 hsite
    exact ⟨a, List.mem_singleton_self _, rfl, rfl, rfl, rfl⟩
  place := by
    have hstanding := h.wellFormed.standing
    obtain ⟨standing, entity, comment⟩ := a
    cases standing with
    | root => exact ⟨rfl, rfl, hstanding⟩
    | category baseClass => exact ⟨h.based baseClass rfl, hstanding⟩
    | member container =>
      exact ⟨rfl, .inl (h.housed container rfl).1⟩

/-! ## Categories under their classes -/

namespace StorePath

variable {known : String → Bool}

/-- A category keeps its key where it goes, and so does what is below it. -/
theorem key_home (key : CategoryKey) (trail : List NodeKey) :
    (home known ⟨.pending key, trail⟩).key = (⟨.pending key, trail⟩ : StorePath).key := by
  rw [home_pending]
  split
  · rw [StorePath.key, StorePath.key, List.getLast?_cons]
    rfl
  · rfl

/-- What stands in a category stands in it where it goes. -/
theorem owner_home (key : CategoryKey) (k : NodeKey) (trail : List NodeKey) :
    (home known ⟨.pending key, k :: trail⟩).owner =
      home known ⟨.pending key, (k :: trail).dropLast⟩ := by
  rw [home_pending, home_pending]
  split <;> rfl

end StorePath

namespace NodeInfo

variable {accepted : List Accepted} {info : NodeInfo} {key : CategoryKey}

/-- A settled category suits the place that it comes to. -/
theorem Fits.settled (h : info.Fits accepted ⟨.pending key, []⟩) (known : String → Bool) :
    (info.settled known key.baseClass).Fits accepted (StorePath.home known ⟨.pending key, []⟩) := by
  have hkey : (info.settled known key.baseClass).key = info.key := by
    unfold NodeInfo.settled
    split <;> rfl
  have hplace : (info.settled known key.baseClass).SuitsPlace
      (StorePath.home known ⟨.pending key, []⟩) := by
    obtain ⟨hbase, hlike⟩ := h.place
    rw [StorePath.home_pending]
    unfold NodeInfo.settled
    split
    · exact ⟨rfl, .inr ⟨hlike, rfl, key.baseClass, rfl⟩⟩
    · exact ⟨hbase, hlike⟩
  refine ⟨?_, ?_, ?_, ?_, ?_, hplace⟩
  · rw [hkey, StorePath.key_home, h.key]
  all_goals unfold NodeInfo.settled
  · split <;> exact h.flavor
  · split <;> exact h.location
  · split <;> exact h.earliest
  · split <;> exact h.declared

/-- What stands in a category suits its place when the category moves. -/
theorem Fits.home {k : NodeKey} {trail : List NodeKey}
    (h : info.Fits accepted ⟨.pending key, k :: trail⟩) (known : String → Bool) :
    info.Fits accepted (StorePath.home known ⟨.pending key, k :: trail⟩) where
  key := by rw [StorePath.key_home, h.key]
  flavor := h.flavor
  location := h.location
  earliest := h.earliest
  declared := h.declared
  place := by
    obtain ⟨hparent, hkind⟩ := h.place
    have howner : (StorePath.home known ⟨.pending key, k :: trail⟩).owner.key =
        (⟨.pending key, k :: trail⟩ : StorePath).owner.key := by
      rw [StorePath.owner_home, StorePath.key_home]
      rfl
    have haccepts : (⟨.pending key, k :: trail⟩ : StorePath).owner.key.kind.accepts info.kind =
        true := by
      rcases hkind with haccepts | ⟨-, -, baseClass, hclass⟩
      · exact haccepts
      · cases congrArg StorePath.start hclass
    rw [← howner] at hparent haccepts
    rw [StorePath.home_pending] at hparent haccepts ⊢
    split at hparent
    · next hknown =>
      rw [if_pos hknown] at haccepts ⊢
      exact ⟨hparent, .inl haccepts⟩
    · next hknown =>
      rw [if_neg hknown] at haccepts ⊢
      exact ⟨hparent, .inl haccepts⟩

end NodeInfo

/-! ## What holds of all nodes -/

namespace Store

/-- What the nodes of a store say is as `P` has it at their paths. -/
def Everywhere (P : StorePath → NodeInfo → Prop) (store : Store) : Prop :=
  ∀ path info, store.infoAt? path = some info → P path info

namespace Everywhere

variable {P : StorePath → NodeInfo → Prop} {store after : Store}

theorem empty : Everywhere P {} := fun path info h => by
  obtain ⟨start, trail⟩ := path
  cases start <;> cases h

theorem trim (h : store.Everywhere P) (hstore : store.Ordered) (policy : KeepPolicy) :
    (store.trim policy).Everywhere P :=
  fun path info hinfo => h path info (infoAt?_of_trim hstore hinfo)

section
variable (hmerge : ∀ {path : StorePath} {a b : NodeInfo}, P path a → P path b → P path (a.merge b))
include hmerge

theorem mergedInto {path : StorePath} {info : NodeInfo} (hinfo : P path info)
    {existing : Option NodeInfo} (hexisting : ∀ e, existing = some e → P path e) :
    P path (info.mergedInto existing) := by
  cases existing with
  | none => exact hinfo
  | some e => exact hmerge (hexisting e rfl) hinfo

/-- One more entity. -/
theorem takes (h : store.Everywhere P) {a : Accepted} (ha : store.Takes a after)
    (hnew : P a.path a.info) : after.Everywhere P := by
  intro path info hinfo
  rw [ha.infoAt?] at hinfo
  split at hinfo
  · next hpath =>
    cases hinfo
    exact mergedInto hmerge (hpath ▸ hnew) (h path)
  · exact h path info hinfo

/-- Categories under their classes, with what stands in them. -/
theorem finalize (h : store.Everywhere P) (hstore : store.Keyed)
    (hsettled : ∀ {key info}, P ⟨.pending key, []⟩ info →
      P (StorePath.home store.knows ⟨.pending key, []⟩) (info.settled store.knows key.baseClass))
    (hbelow : ∀ {key k trail info}, P ⟨.pending key, k :: trail⟩ info →
      P (StorePath.home store.knows ⟨.pending key, k :: trail⟩) info) :
    store.finalize.Everywhere P := by
  intro path info hinfo
  have hbefore : ∀ e, infoAt? { store with pending := [] } path = some e → P path e :=
    fun e he => h path e (infoAt?_of_withoutPending he)
  by_cases hpath : ∃ entry ∈ store.pending, ∃ trail,
      path = StorePath.home store.knows ⟨.pending entry.1, trail⟩
  · obtain ⟨⟨key, node⟩, hentry, trail, rfl⟩ := hpath
    have hwaits : ∀ e, node.infoAt? trail = some e → P ⟨.pending key, trail⟩ e :=
      fun e he => h _ e (by rw [infoAt?, (hstore.pending hentry).1]; exact he)
    rw [hstore.infoAt?_finalize_home hentry trail, infoAt?_settledNode] at hinfo
    cases trail with
    | nil =>
      rw [if_pos rfl] at hinfo
      cases hinfo
      exact mergedInto hmerge (hsettled (hwaits _ rfl)) hbefore
    | cons k trail =>
      rw [if_neg (List.cons_ne_nil k trail)] at hinfo
      cases hmore : node.infoAt? (k :: trail) with
      | none =>
        rw [hmore] at hinfo
        exact hbefore info hinfo
      | some e =>
        rw [hmore] at hinfo
        cases hinfo
        exact mergedInto hmerge (hbelow (hwaits e hmore)) hbefore
  · rw [hstore.infoAt?_finalize_of_ne fun entry hentry trail heq =>
      hpath ⟨entry, hentry, trail, heq⟩] at hinfo
    exact hbefore info hinfo

end

end Everywhere

end Store

/-! ## Stores -/

namespace Store

/-- All nodes of the store suit their paths. -/
structure Fit (accepted : List Accepted) (store : Store) : Prop where
  keyed : store.Keyed
  wellFormed : ∀ a ∈ accepted, a.WellFormed
  fits : ∀ path info, store.infoAt? path = some info → info.Fits accepted path

namespace Fit

variable {store after : Store} {accepted more : List Accepted}

theorem empty : Fit [] {} :=
  ⟨keyed_empty, (fun _ h => by cases h), Everywhere.empty⟩

theorem withDiagnostics (h : store.Fit accepted) (diagnostics : List Diagnostic) :
    Fit accepted { store with diagnostics } :=
  ⟨h.keyed.withDiagnostics diagnostics, h.wellFormed, h.fits⟩

theorem takes (h : store.Fit accepted) {a : Accepted} (ha : store.Takes a after) :
    after.Fit (accepted ++ [a]) where
  keyed := ha.keyed
  wellFormed b hb := by
    rcases List.mem_append.1 hb with hb | hb
    · exact h.wellFormed b hb
    · cases List.mem_singleton.1 hb
      exact ha.wellFormed
  fits :=
    have hbefore : store.Everywhere fun path info => info.Fits (accepted ++ [a]) path :=
      fun path e he => (h.fits path e he).mono fun d hd => List.mem_append_left _ hd
    hbefore.takes NodeInfo.Fits.merge ha (ha.fits.mono fun d hd => List.mem_append_right accepted hd)

theorem takesAll (h : store.Fit accepted) (hmore : store.TakesAll more after) :
    after.Fit (accepted ++ more) :=
  hmore.inv (P := fun accepted store => store.Fit accepted) accepted h
    (fun hbefore ha => hbefore.takes ha) fun diagnostics hbefore => hbefore.withDiagnostics diagnostics

theorem finalize (h : store.Fit accepted) : store.finalize.Fit accepted where
  keyed := h.keyed.settles.keyed
  wellFormed := h.wellFormed
  fits :=
    have hbefore : store.Everywhere fun path info => info.Fits accepted path := h.fits
    hbefore.finalize NodeInfo.Fits.merge h.keyed (fun hinfo => hinfo.settled store.knows)
      fun hinfo => hinfo.home store.knows

theorem trim (h : store.Fit accepted) (policy : KeepPolicy) : (store.trim policy).Fit accepted where
  keyed := h.keyed.trim policy
  wellFormed := h.wellFormed
  fits := Everywhere.trim h.fits h.keyed.ordered policy

theorem apply (h : store.Fit accepted) (turn : Turn) :
    (turn.apply store).Fit (accepted ++ turn.accepted) := by
  cases turn with
  | read call => exact h.takesAll (call.extraction.readSource_takes h.keyed _ _).1
  | finalize =>
    rw [Turn.accepted, List.append_nil]
    exact h.finalize
  | finish extraction =>
    rw [Turn.accepted, List.append_nil]
    obtain ⟨⟨diagnostics, heq⟩, -⟩ := extraction.finish_eq store
    rw [Turn.apply, heq]
    exact (h.finalize.withDiagnostics diagnostics).trim _

theorem foldl_apply (h : store.Fit accepted) (turns : List Turn) :
    (turns.foldl Turn.apply store).Fit (accepted ++ turns.flatMap Turn.accepted) :=
  Turn.inv (P := fun accepted store => store.Fit accepted) (fun turn _ _ _ hbefore => hbefore.apply turn)
    accepted h

end Fit

/-! ## The form of stores -/

/-- The form of a store that was put together from `accepted`: keys are those of their nodes, a node
tells of declarations of one kind, flavor and name, roots stand alone, members in an owner that takes
them or in the class of their category, and nodes are located where they were declared first. -/
structure Sound (accepted : List Accepted) (store : Store) : Prop where
  ordered : store.Ordered
  rootKeys : ∀ key node, (key, node) ∈ store.roots → node.key = key
  pendingKeys : ∀ key node, (key, node) ∈ store.pending →
    node.info.baseClass = some key.baseClass ∧ node.key = key.key
  memberKeys : ∀ path owner, store.locate? path = some owner →
    ∀ key member, (key, member) ∈ owner.children → member.key = key
  triples : ∀ path node, store.locate? path = some node →
    (∀ site ∈ node.info.declaredIn, ∃ a ∈ accepted, a.entity.location = site ∧
      a.entity.kind = node.info.kind ∧ a.entity.flavor = node.info.flavor ∧
      a.entity.name = node.info.name) ∧
    ∀ a ∈ accepted, a.entity.key = node.key →
      a.entity.kind = node.info.kind ∧ a.entity.flavor = node.info.flavor ∧
        a.entity.name = node.info.name
  roots : ∀ key node, (key, node) ∈ store.roots →
    node.info.parent = none ∧ node.info.resolution = none ∧
      node.info.kind ∉ [.category, .classExtension, .method, .property, .enumValue]
  members : ∀ path owner, store.locate? path = some owner →
    ∀ key member, (key, member) ∈ owner.children →
      member.info.parent = some owner.key ∧
        (owner.info.kind.accepts member.info.kind = true ∨
          member.info.kind.isCategoryLike = true ∧ member.info.resolution = some .resolved ∧
            ∃ baseClass, path = ⟨.root ⟨.interface, baseClass⟩, []⟩)
  sites : ∀ path node, store.locate? path = some node →
    node.info.location ∈ node.info.declaredIn ∧
      ∀ site ∈ node.info.declaredIn, (compare node.info.location site).isLE = true

namespace Fit

variable {store : Store} {accepted : List Accepted}

theorem sound (h : store.Fit accepted) : store.Sound accepted := by
  have hfits : ∀ path node, store.locate? path = some node → node.info.Fits accepted path :=
    fun path node hnode => h.fits path node.info (infoAt?_of_locate? hnode)
  have hroot : ∀ key node, (key, node) ∈ store.roots →
      store.locate? ⟨.root key, []⟩ = some node := fun key node hmem => by
    have hfind : store.container? (.root key) = some node :=
      (OrderedMap.find?_eq_some_iff h.keyed.ordered.roots).2 hmem
    rw [locate?, hfind]
    rfl
  have hpending : ∀ key node, (key, node) ∈ store.pending →
      store.locate? ⟨.pending key, []⟩ = some node := fun key node hmem => by
    rw [locate?, (h.keyed.pending hmem).1]
    rfl
  have hmember : ∀ path owner, store.locate? path = some owner →
      ∀ key member, (key, member) ∈ owner.children →
        store.locate? ⟨path.start, path.trail ++ [key]⟩ = some member :=
    fun path owner howner key member hmem => (locate?_member howner key).trans <|
      (OrderedMap.find?_eq_some_iff (Node.keyed_iff.1 (h.keyed.locate? howner)).1).2 hmem
  exact {
    ordered := h.keyed.ordered
    rootKeys := fun key node hmem => (hfits _ node (hroot key node hmem)).key
    pendingKeys := fun key node hmem =>
      have hnode := hfits _ node (hpending key node hmem)
      ⟨hnode.place.1, hnode.key⟩
    memberKeys := fun path owner howner key member hmem =>
      (h.keyed.locate? howner).key_of_mem (key, member) hmem
    triples := fun path node hnode => by
      have hfit := hfits path node hnode
      refine ⟨hfit.declared, fun a ha hkey => ?_⟩
      obtain ⟨hkind, hname, hflavor⟩ :=
        NodeKey.ofDeclaration_inj hfit.flavor (h.wellFormed a ha).flavor hkey.symm
      exact ⟨hkind, hflavor, hname⟩
    roots := fun key node hmem => by
      obtain ⟨hparent, hresolution, hmember, hlike⟩ :=
        (hfits _ node (hroot key node hmem)).place
      refine ⟨hparent, hresolution, ?_⟩
      revert hmember hlike
      cases node.info.kind <;> decide
    members := fun path owner howner key member hmem => by
      have hplace := (hfits _ member (hmember path owner howner key member hmem)).place
      have hkey : path.key = owner.key := (hfits path owner howner).key.symm
      have hkind : owner.key.kind = owner.info.kind := NodeKey.kind_ofDeclaration ..
      have hinside := NodeInfo.SuitsPlace.inside hplace (by simp)
      rw [StorePath.owner_append, hkey, hkind] at hinside
      exact hinside
    sites := fun path node hnode => ⟨(hfits path node hnode).location, (hfits path node hnode).earliest⟩ }

/-- What waits in a store that was just finalized is marked, and its class is not known. -/
theorem pending_finalize (h : store.Fit accepted) {key : CategoryKey} {info : NodeInfo}
    (hinfo : store.finalize.infoAt? ⟨.pending key, []⟩ = some info) :
    info.resolution = some .unresolved ∧ store.finalize.knows key.baseClass = false := by
  by_cases hpath : ∃ entry ∈ store.pending, ∃ trail,
      (⟨.pending key, []⟩ : StorePath) = StorePath.home store.knows ⟨.pending entry.1, trail⟩
  · obtain ⟨entry, hentry, trail, heq⟩ := hpath
    rw [heq, h.keyed.infoAt?_finalize_home hentry trail, infoAt?_settledNode] at hinfo
    rw [StorePath.home_pending] at heq hinfo
    split at heq
    · cases heq
    · next hknown =>
      cases heq
      rw [if_neg hknown] at hinfo
      cases hinfo
      refine ⟨?_, ?_⟩
      · show (entry.2.info.settled store.knows entry.1.baseClass).resolution = _
        rw [NodeInfo.settled, if_neg hknown]
      · rw [h.keyed.knows_finalize]
        exact Bool.eq_false_iff.2 hknown
  · rw [h.keyed.infoAt?_finalize_of_ne fun entry hentry trail heq =>
      hpath ⟨entry, hentry, trail, heq⟩] at hinfo
    cases hinfo

/-- What waits in a store that was just finished is marked, and its class is not known. -/
theorem pending_finish (h : store.Fit accepted) (extraction : Extraction) :
    ∀ key node, (key, node) ∈ (extraction.finish store).store.pending →
      node.info.resolution = some .unresolved ∧
        (extraction.finish store).store.root? .interface key.baseClass = none := by
  have hkeyed : (extraction.finish store).store.Keyed := (h.apply (.finish extraction)).keyed
  have hordered := (h.finalize).keyed.ordered
  obtain ⟨⟨diagnostics, heq⟩, -⟩ := extraction.finish_eq store
  have hkept : ∀ path info, (extraction.finish store).store.infoAt? path = some info →
      store.finalize.infoAt? path = some info := fun path info hinfo => by
    rw [heq] at hinfo
    exact infoAt?_of_trim (hordered.withDiagnostics diagnostics) hinfo
  intro key node hmem
  have hwaits : (extraction.finish store).store.infoAt? ⟨.pending key, []⟩ = some node.info := by
    have hcontainer : (extraction.finish store).store.container? (.pending key) = some node :=
      (hkeyed.pending hmem).1
    rw [infoAt?_start, hcontainer]
    rfl
  obtain ⟨hresolution, hknown⟩ := h.pending_finalize (hkept _ _ hwaits)
  refine ⟨hresolution, Option.eq_none_iff_forall_ne_some.2 fun interface hinterface => ?_⟩
  have hclass : (extraction.finish store).store.infoAt? ⟨.root ⟨.interface, key.baseClass⟩, []⟩ =
      some interface.info := by
    rw [infoAt?_start]
    exact congrArg (Option.map Node.info) hinterface
  have hbefore := hkept _ _ hclass
  rw [infoAt?_start] at hbefore
  rw [knows, ← Option.isSome_map (f := Node.info), hbefore] at hknown
  cases hknown

end Fit

/-- Whatever turns are taken, the store has its form, and what waits right after one that closes a run
is marked and has no class in the store. -/
theorem afterTurns_sound (turns : List Turn) :
    (afterTurns turns).Sound (turns.flatMap Turn.accepted) ∧
      ∀ extraction : Extraction, ∀ key node,
        (key, node) ∈ (afterTurns (turns ++ [.finish extraction])).pending →
          node.info.resolution = some .unresolved ∧
            (afterTurns (turns ++ [.finish extraction])).root? .interface key.baseClass = none := by
  have hfit : (afterTurns turns).Fit (turns.flatMap Turn.accepted) := by
    have := Fit.empty.foldl_apply turns
    rwa [List.nil_append] at this
  refine ⟨hfit.sound, fun extraction => ?_⟩
  have hlast : afterTurns (turns ++ [.finish extraction]) =
      (extraction.finish (afterTurns turns)).store := by
    rw [afterTurns, List.foldl_append]
    rfl
  rw [hlast]
  exact hfit.pending_finish extraction

end Store

end DeclDoc
