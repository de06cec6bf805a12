import DeclDoc.Proofs.Gathering
import Mathlib.Data.List.Induction

/-!
# Reading a file again

A declaration that a node has taken in already adds nothing to it, whatever came in between
(`NodeInfo.gathered_append_of_subset`). What is accepted of a file does not depend on the store, so a
file that is read once more leaves every node as it was. Diagnostics are only ever added behind those
that are there, and nothing that is done to a store looks at them (`Call.store_read_behind`,
`Store.finalize_behind`). `Call.readAll_again` puts this together.
-/

set_option autoImplicit false

namespace DeclDoc

/-! ## What adds nothing -/

theorem OrderedSet.union_eq_left {α : Type} [Ord α] [Std.TransOrd α] [Std.LawfulEqOrd α]
    {s t : List α} (h : Ascending s) (ht : ∀ a ∈ t, a ∈ s) : union s t = s :=
  eq_of_mem_iff (ascending_union t h) h fun a => by
    rw [mem_union]
    exact or_iff_left_of_imp (ht a)

theorem Location.earlier_eq_left {a b : Location} (h : (compare a b).isLE = true) :
    a.earlier b = a := by
  rw [earlier, if_neg]
  intro hlt
  rw [Std.OrientedOrd.eq_swap, hlt] at h
  cases h

namespace NodeInfo

theorem mergeAttributes_eq_left {current incoming : List String}
    (h : ∀ name ∈ incoming, name ∈ current) : mergeAttributes current incoming = current := by
  induction incoming with
  | nil => rfl
  | cons name rest ih =>
    rw [mergeAttributes, if_pos (by simpa using h name List.mem_cons_self)]
    exact ih fun other hother => h other (List.mem_cons_of_mem _ hother)

theorem mergeComment_eq_none_iff {a b : NodeInfo} :
    a.mergeComment b = none ↔ a.comment = none ∧ b.comment = none := by
  unfold mergeComment
  split
  · next h =>
    rw [Bool.and_eq_true] at h
    obtain ⟨comment, hcomment, -⟩ := isDocumented_iff.1 h.2
    simp [hcomment]
  · exact Option.or_eq_none_iff

/-- A comment gives way only to one that says something where it does not. -/
theorem mergeComment_eq_left {a b : NodeInfo}
    (hdocumented : b.isDocumented = true → a.isDocumented = true)
    (hcomment : a.comment = none → b.comment = none) : a.mergeComment b = a.comment := by
  rw [mergeComment, if_neg]
  · cases ha : a.comment with
    | none => rw [hcomment ha, Option.or_none]
    | some comment => rfl
  · rw [Bool.and_eq_true, Bool.not_eq_true', Bool.eq_false_iff]
    rintro ⟨hnot, hb⟩
    exact hnot (hdocumented hb)

theorem or_or_eq {α : Type} {x y z : Option α} (h : z = x ∨ z = y) : (x.or y).or z = x.or y := by
  cases x <;> cases y <;> rcases h with rfl | rfl <;> rfl

theorem union_union_eq {α : Type} [Ord α] [Std.TransOrd α] [Std.LawfulEqOrd α] {s t u : List α}
    (hs : OrderedSet.Ascending s) (h : u = s ∨ u = t) :
    OrderedSet.union (OrderedSet.union s t) u = OrderedSet.union s t :=
  OrderedSet.union_eq_left (OrderedSet.ascending_union t hs) fun x hx => by
    rw [OrderedSet.mem_union]
    rcases h with rfl | rfl
    · exact .inl hx
    · exact .inr hx

/-- A declaration says no more than itself. -/
theorem merge_self {a : NodeInfo} (h : a.Sorted) : a.merge a = a := by
  have hlocation : a.location.earlier a.location = a.location :=
    (Location.earlier_eq_or ..).elim id id
  have hcomment : a.mergeComment a = a.comment := mergeComment_eq_left id id
  have hattributes : mergeAttributes a.attributes a.attributes = a.attributes :=
    mergeAttributes_eq_left fun _ hname => hname
  have hsites := OrderedSet.union_eq_left h.declaredIn fun _ hsite => hsite
  have hprotocols := OrderedSet.union_eq_left h.protocols fun _ hname => hname
  unfold merge
  simp only [hlocation, hcomment, hattributes, hsites, hprotocols, Option.or_self, ite_self]

/-- A merged node says the same when one of its two parts comes once more. -/
theorem merge_merge_eq {a b c : NodeInfo} (h : a.Sorted) (hc : c = a ∨ c = b) :
    (a.merge b).merge c = a.merge b := by
  have hlocation : (a.location.earlier b.location).earlier c.location =
      a.location.earlier b.location := by
    refine Location.earlier_eq_left ?_
    rcases hc with rfl | rfl
    · exact Location.isLE_earlier_left ..
    · exact Location.isLE_earlier_right ..
  have hattributes : mergeAttributes (mergeAttributes a.attributes b.attributes) c.attributes =
      mergeAttributes a.attributes b.attributes := by
    refine mergeAttributes_eq_left fun name hname => mem_mergeAttributes.2 ?_
    rcases hc with rfl | rfl
    · exact .inl hname
    · exact .inr hname
  have hcomment : (a.merge b).mergeComment c = a.mergeComment b := by
    refine mergeComment_eq_left (fun hd => ?_) fun hnone => ?_
    · rw [isDocumented_merge, Bool.or_eq_true]
      rcases hc with rfl | rfl
      · exact .inl hd
      · exact .inr hd
    · obtain ⟨ha, hb⟩ := mergeComment_eq_none_iff.1 hnone
      rcases hc with rfl | rfl
      · exact ha
      · exact hb
  have hsignature :
      (if (if a.signature.isEmpty then b.signature else a.signature).isEmpty then c.signature
        else if a.signature.isEmpty then b.signature else a.signature) =
      if a.signature.isEmpty then b.signature else a.signature := by
    rcases hc with rfl | rfl <;> split <;> simp_all
  have hfield : ∀ {α : Type} (f : NodeInfo → Option α), ((f a).or (f b)).or (f c) = (f a).or (f b) :=
    fun f => or_or_eq (hc.imp (congrArg f) (congrArg f))
  unfold merge at hcomment ⊢
  simp only [hlocation, hattributes, hcomment, hsignature,
    union_union_eq h.declaredIn (hc.imp (congrArg declaredIn) (congrArg declaredIn)),
    union_union_eq h.protocols (hc.imp (congrArg protocols) (congrArg protocols)),
    hfield typeName, hfield superclass, hfield baseClass, hfield group, hfield resolution,
    hfield parent]

/-! ## Declarations once more -/

theorem sorted_gathered {declared : List NodeInfo} (h : ∀ d ∈ declared, d.Sorted) {info : NodeInfo}
    (hinfo : gathered declared = some info) : info.Sorted := by
  induction declared using List.reverseRecOn generalizing info with
  | nil => cases hinfo
  | append_singleton front last ih =>
    rw [gathered_concat] at hinfo
    refine Sorted.joined (fun e he => ih (fun d hd => h d (List.mem_append_left _ hd)) he) ?_ hinfo
    intro e he
    exact h e (Option.some.inj he ▸ List.mem_append_right _ List.mem_cons_self)

/-- What was said before adds nothing. -/
theorem gathered_again {declared : List NodeInfo} (h : ∀ d ∈ declared, d.Sorted) {info : NodeInfo}
    (hinfo : info ∈ declared) : gathered (declared ++ [info]) = gathered declared := by
  induction declared using List.reverseRecOn with
  | nil => cases hinfo
  | append_singleton front last ih =>
    have hfront : ∀ d ∈ front, d.Sorted := fun d hd => h d (List.mem_append_left _ hd)
    have hlast : last.Sorted := h last (List.mem_append_right _ List.mem_cons_self)
    rw [gathered_concat, gathered_concat]
    cases hgathered : gathered front with
    | none =>
      rcases List.mem_append.1 hinfo with hmem | hmem
      · have hnone := ih hfront hmem
        rw [gathered_concat, hgathered] at hnone
        cases hnone
      · cases List.mem_singleton.1 hmem
        exact congrArg some (merge_self hlast)
    | some e =>
      have he := sorted_gathered hfront hgathered
      refine congrArg some ?_
      show (e.merge last).merge info = e.merge last
      rcases List.mem_append.1 hinfo with hmem | hmem
      · have hsame := ih hfront hmem
        rw [gathered_concat, hgathered] at hsame
        have htaken : e.merge info = e := Option.some.inj hsame
        have hsorted := hfront info hmem
        calc (e.merge last).merge info
            = (e.merge (info.merge last)).merge info := by rw [merge_assoc he, htaken]
          _ = e.merge ((info.merge last).merge info) := (merge_assoc he _ _).symm
          _ = e.merge (info.merge last) := by rw [merge_merge_eq hsorted (.inl rfl)]
          _ = e.merge last := by rw [merge_assoc he, htaken]
      · cases List.mem_singleton.1 hmem
        exact merge_merge_eq he (.inr rfl)

theorem gathered_append_of_subset {declared more : List NodeInfo} (h : ∀ d ∈ declared, d.Sorted)
    (hmore : ∀ d ∈ more, d ∈ declared) : gathered (declared ++ more) = gathered declared := by
  induction more using List.reverseRecOn with
  | nil => rw [List.append_nil]
  | append_singleton front last ih =>
    have hfront : ∀ d ∈ front, d ∈ declared := fun d hd => hmore d (List.mem_append_left _ hd)
    have hlast : last ∈ declared := hmore last (List.mem_append_right _ List.mem_cons_self)
    rw [← List.append_assoc, gathered_concat, ih hfront, ← gathered_concat, gathered_again h hlast]

end NodeInfo

theorem infosAt_subset {accepted more : List Accepted} (h : ∀ a ∈ more, a ∈ accepted)
    (path : StorePath) : ∀ d ∈ infosAt more path, d ∈ infosAt accepted path := by
  intro d hd
  obtain ⟨a, ha, hpath, rfl⟩ := mem_infosAt.1 hd
  exact mem_infosAt.2 ⟨a, h a ha, hpath, rfl⟩

theorem sorted_of_mem_infosAt {accepted : List Accepted} {path : StorePath} {info : NodeInfo}
    (h : info ∈ infosAt accepted path) : info.Sorted := by
  obtain ⟨a, -, -, rfl⟩ := mem_infosAt.1 h
  exact a.sorted

namespace Store

variable {store after : Store} {accepted more : List Accepted}

theorem TakesAll.append (h : TakesAll {} accepted store) (hmore : store.TakesAll more after) :
    TakesAll {} (accepted ++ more) after :=
  hmore.inv accepted h .snoc .said

/-- A store that takes only what it has taken before stays as it is. -/
theorem TakesAll.eq_of_subset (h : TakesAll {} accepted store) (hmore : store.TakesAll more after)
    (hsubset : ∀ a ∈ more, a ∈ accepted) (hkeyed : store.Keyed) :
    after.roots = store.roots ∧ after.pending = store.pending := by
  refine eq_of_infoAt?_eq (hmore.keyed hkeyed).ordered hkeyed.ordered fun path => ?_
  rw [(h.append hmore).infoAt?_eq, h.infoAt?_eq, infosAt_append]
  exact NodeInfo.gathered_append_of_subset (fun d hd => sorted_of_mem_infosAt hd)
    (infosAt_subset hsubset path)

/-! ## What was said before -/

/-- The store after further diagnostics were kept, before those that it has. -/
def behind (said : List Diagnostic) (store : Store) : Store :=
  { store with diagnostics := said ++ store.diagnostics }

variable (said : List Diagnostic)

theorem insertRoot_behind (node : Node) :
    (store.behind said).insertRoot node = (store.insertRoot node).behind said := by
  simp [behind, insertRoot]

theorem insertCategory_behind (baseClass : String) (node : Node) :
    (store.behind said).insertCategory baseClass node =
      (store.insertCategory baseClass node).behind said := by
  simp [behind, insertCategory]

theorem insertChild?_behind (container : ContainerRef) (node : Node) :
    (store.behind said).insertChild? container node =
      (store.insertChild? container node).map (behind said) := by
  unfold insertChild?
  rw [Option.map_map]
  cases container <;> simp [behind, container?, setContainer, Function.comp_def]

theorem resolve_behind (key : CategoryKey) (node : Node) :
    (store.behind said).resolve key node = (store.resolve key node).behind said := by
  unfold resolve behind
  dsimp only
  split <;> simp

theorem finalize_behind : (store.behind said).finalize = store.finalize.behind said := by
  rw [finalize_toStore, finalize_toStore]
  let move (store : Store) (entry : CategoryKey × Node) : Store := store.resolve entry.1 entry.2
  have hmove : ∀ store entry, move (behind said store) entry = behind said (move store entry) :=
    fun _ entry => resolve_behind said entry.1 entry.2
  have hfold : store.pending.foldl move (behind said { store with pending := [] }) =
      behind said (store.pending.foldl move { store with pending := [] }) :=
    List.foldl_hom (behind said) hmove
  exact hfold

/-- The first store has the nodes of the second, and at least what the second has said. -/
structure Repeats (twice once : Store) : Prop where
  roots : twice.roots = once.roots
  pending : twice.pending = once.pending
  diagnostics : once.diagnostics.Sublist twice.diagnostics

theorem repeats_behind (told said : List Diagnostic) :
    (store.behind (told ++ said)).Repeats (store.behind told) where
  roots := rfl
  pending := rfl
  diagnostics := (List.sublist_append_left told said).append_right _

end Store

theorem Extraction.store_finish_behind (closing : Extraction) (store : Store)
    (said : List Diagnostic) :
    (closing.finish (store.behind said)).store = (closing.finish store).store.behind said := by
  unfold finish
  dsimp only
  have hundocumented : (store.finalize.behind said).undocumented = store.finalize.undocumented := rfl
  rw [Store.finalize_behind, hundocumented]
  split <;> simp [Store.behind, Store.prune]

namespace Reading

/-- The reading with further diagnostics in its store, before those that are there. -/
def behind (said : List Diagnostic) (reading : Reading) : Reading :=
  { reading with store := reading.store.behind said }

variable (said : List Diagnostic) (reading : Reading) (entity : Entity) (comment : Option Comment)

theorem emit_behind (diagnostic : Diagnostic) :
    (reading.behind said).emit diagnostic = (reading.emit diagnostic).behind said := by
  unfold emit behind
  split <;> simp [Store.report, Store.behind]

theorem foldl_emit_behind (diagnostics : List Diagnostic) :
    diagnostics.foldl emit (reading.behind said) = (diagnostics.foldl emit reading).behind said := by
  induction diagnostics generalizing reading with
  | nil => rfl
  | cons diagnostic rest ih => rw [List.foldl_cons, List.foldl_cons, emit_behind, ih]

theorem insertRoot_behind :
    (reading.behind said).insertRoot entity comment =
      (reading.insertRoot entity comment).behind said := by
  simp [insertRoot, behind, countEntity, Store.insertRoot_behind]

theorem insertContainer_behind :
    (reading.behind said).insertContainer entity comment =
      (reading.insertContainer entity comment).behind said := by
  rw [insertContainer, insertRoot_behind]
  rfl

theorem insertCategory_behind :
    (reading.behind said).insertCategory entity comment =
      (reading.insertCategory entity comment).behind said := by
  unfold insertCategory
  cases entity.baseClass with
  | none =>
    dsimp only
    rw [warn, emit_behind]
    rfl
  | some baseClass => simp [behind, countEntity, openContainer, Store.insertCategory_behind]

theorem enterGroup_behind :
    (reading.behind said).enterGroup entity =
      ((reading.enterGroup entity).1.behind said, (reading.enterGroup entity).2) := by
  unfold enterGroup
  split <;> rfl

theorem insertMember_behind :
    (reading.behind said).insertMember entity comment =
      (reading.insertMember entity comment).behind said := by
  have htarget : (reading.behind said).targetOf? entity = reading.targetOf? entity := rfl
  unfold insertMember
  rw [htarget]
  cases reading.targetOf? entity with
  | none =>
    dsimp only
    rw [warn, emit_behind]
    rfl
  | some target =>
    dsimp only
    rw [enterGroup_behind]
    rcases reading.enterGroup entity with ⟨entered, member⟩
    have hstore : (entered.behind said).store.insertChild? target (.ofEntity member comment) =
        (entered.store.insertChild? target (.ofEntity member comment)).map (Store.behind said) :=
      Store.insertChild?_behind said target _
    dsimp only
    rw [hstore]
    cases entered.store.insertChild? target (.ofEntity member comment) <;> rfl

theorem insert_behind :
    (reading.behind said).insert entity comment =
      (reading.insert entity comment).behind said := by
  unfold insert
  split
  case h_15 =>
    rw [trace, emit_behind]
    rfl
  all_goals
    first
    | exact insertContainer_behind ..
    | exact insertCategory_behind ..
    | exact insertMember_behind ..
    | exact insertRoot_behind ..

theorem closeFor_behind (kind : Kind) :
    (reading.behind said).closeFor kind = (reading.closeFor kind).behind said := by
  unfold closeFor
  split <;> rfl

theorem foldl_warn_behind (location : Location) (warnings : List String) :
    warnings.foldl (fun reading warning => reading.warn location warning) (reading.behind said) =
      (warnings.foldl (fun reading warning => reading.warn location warning) reading).behind said := by
  induction warnings generalizing reading with
  | nil => rfl
  | cons warning rest ih => rw [List.foldl_cons, List.foldl_cons, warn, emit_behind, ih]; rfl

variable (settings : Settings) (comments : Comment.Reader)

theorem readEntity_behind :
    (reading.behind said).readEntity settings comments entity =
      (reading.readEntity settings comments entity).behind said := by
  unfold readEntity
  split
  · have hclosed : ((reading.behind said).countFiltered).closeFor entity.kind =
        (reading.countFiltered.closeFor entity.kind).behind said :=
      closeFor_behind said reading.countFiltered entity.kind
    rw [filterOut, hclosed, trace, emit_behind]
    rfl
  split
  · exact insert_behind ..
  cases comments.read entity.rawComment with
  | error fault =>
    dsimp only
    rw [giveUp, warn, emit_behind]
    exact closeFor_behind said (reading.warn entity.location _).countSkipped entity.kind
  | ok parsed =>
    dsimp only
    rw [foldl_warn_behind, insert_behind]

theorem foldl_readStep_behind (steps : List (List Diagnostic × Option Entity)) :
    steps.foldl (readStep settings comments) (reading.behind said) =
      (steps.foldl (readStep settings comments) reading).behind said := by
  induction steps generalizing reading with
  | nil => rfl
  | cons step rest ih =>
    have hstep : (reading.behind said).readStep settings comments step =
        (reading.readStep settings comments step).behind said := by
      unfold readStep
      rw [foldl_emit_behind]
      cases step.2 with
      | none => rfl
      | some entity => exact readEntity_behind ..
    rw [List.foldl_cons, List.foldl_cons, hstep, ih]

end Reading

namespace Call

variable (said : List Diagnostic) (store : Store)

/-- What a file does to a store does not depend on what was said before. -/
theorem store_read_behind (call : Call) :
    (call.read (store.behind said)).store = (call.read store).store.behind said := by
  unfold read Extraction.readSource
  split
  · rfl
  · split
    · rfl
    · exact congrArg Reading.store (Reading.foldl_readStep_behind said ⟨store, none, none, {}, _⟩ ..)

theorem readAll_behind (calls : List Call) :
    readAll calls (store.behind said) = (readAll calls store).behind said := by
  unfold readAll
  induction calls generalizing store with
  | nil => rfl
  | cons call rest ih => rw [List.foldl_cons, List.foldl_cons, store_read_behind, ih]

theorem takesAll_readAll (calls : List Call) :
    Store.TakesAll {} (calls.flatMap accepted) (readAll calls {}) := by
  unfold readAll
  induction calls using List.reverseRecOn with
  | nil => exact .nil
  | append_singleton front last ih =>
    rw [List.foldl_append, List.flatMap_append, List.flatMap_singleton]
    refine ih.append (last.extraction.readSource_takes ?_ _ _).1
    exact ih.keyed Store.Holds.empty.keyed

/-- A file that was read before changes no node. What is said of it comes behind what was said
before. -/
theorem read_again {calls : List Call} {call : Call} (h : call ∈ calls) :
    ∃ (nodes : Store) (told said : List Diagnostic), readAll calls {} = nodes.behind told ∧
      (call.read (readAll calls {})).store = nodes.behind (told ++ said) := by
  have htakes := takesAll_readAll calls
  have hkeyed := htakes.keyed Store.Holds.empty.keyed
  have hmore := (call.extraction.readSource_takes hkeyed call.path call.source).1
  obtain ⟨hroots, hpending⟩ := htakes.eq_of_subset hmore
    (fun a ha => List.mem_flatMap.2 ⟨call, h, ha⟩) hkeyed
  change (call.read _).store.roots = _ at hroots
  change (call.read _).store.pending = _ at hpending
  generalize readAll calls {} = store at hroots hpending
  let nodes : Store := { store with diagnostics := [] }
  have hstore : store = nodes.behind store.diagnostics := by simp [nodes, Store.behind]
  have hread : (call.read store).store = (call.read nodes).store.behind store.diagnostics := by
    conv_lhs => rw [hstore]
    exact store_read_behind _ nodes call
  refine ⟨nodes, store.diagnostics, (call.read nodes).store.diagnostics, hstore, ?_⟩
  rw [hread] at hroots hpending
  change (call.read nodes).store.roots = store.roots at hroots
  change (call.read nodes).store.pending = store.pending at hpending
  rw [hread, Store.behind, hroots, hpending]
  simp [Store.behind, nodes]

/-- Of files read one after the other, one is read once more at any later point: when the store is
finalized, all roots and all that waits are the same as without that, and nothing that was said is
missing. The same holds when the run is closed. -/
theorem readAll_again (before middle after : List Call) (call : Call) :
    let once := readAll (before ++ call :: middle ++ after) {}
    let twice := readAll (before ++ call :: middle ++ call :: after) {}
    twice.finalize.Repeats once.finalize ∧
      ∀ closing : Extraction, (closing.finish twice).store.Repeats (closing.finish once).store := by
  have happend : ∀ front back : List Call,
      readAll (front ++ back) {} = readAll back (readAll front {}) :=
    fun _ _ => List.foldl_append
  have hmem : call ∈ before ++ call :: middle := List.mem_append_right _ List.mem_cons_self
  obtain ⟨nodes, told, said, honce, htwice⟩ := read_again hmem
  intro once twice
  have honce : once = (readAll after nodes).behind told := by
    rw [← readAll_behind, ← honce]
    exact happend ..
  have htwice : twice = (readAll after nodes).behind (told ++ said) := by
    rw [← readAll_behind, ← htwice]
    exact happend ..
  rw [honce, htwice]
  refine ⟨?_, fun closing => ?_⟩
  · rw [Store.finalize_behind, Store.finalize_behind]
    exact Store.repeats_behind told said
  · rw [Extraction.store_finish_behind, Extraction.store_finish_behind]
    exact Store.repeats_behind told said

end Call

end DeclDoc
