import DeclDoc.Proofs.Gathering

/-!
# Finalizing on the way

A run may be finalized before all its files are read, as often as one likes. `Store.finalize_early`:
the store comes out as if it had been finalized in the end only. What finalizing says is here as well:
its warnings of unknown classes are those of the categories that it `warns` about
(`Store.Keyed.diagnostics_finalize`), and it never warns about a category twice
(`Store.Warned.foldl_apply`).
-/

set_option autoImplicit false

namespace DeclDoc

namespace Turn

/-- The turn removes no nodes. -/
def keepsAll : Turn → Bool
  | .read _ | .finalize => true
  | .finish extraction =>
    (Extraction.keepPolicy extraction.settings).objects &&
      (Extraction.keepPolicy extraction.settings).members

/-- The file that is read in a turn. -/
def call? : Turn → Option Call
  | .read call => some call
  | .finalize | .finish _ => none

/-- A turn that closes a run and keeps all nodes finalizes the store. -/
theorem apply_finish {extraction : Extraction} (h : (finish extraction).keepsAll = true)
    (store : Store) :
    ∃ diagnostics, (finish extraction).apply store = { store.finalize with diagnostics } := by
  obtain ⟨⟨diagnostics, heq⟩, -⟩ := extraction.finish_eq store
  refine ⟨diagnostics, heq.trans ?_⟩
  exact if_pos h

end Turn

theorem accepted_eq_flatMap_call? (turns : List Turn) :
    turns.flatMap Turn.accepted = (turns.filterMap Turn.call?).flatMap Call.accepted := by
  induction turns with
  | nil => rfl
  | cons turn rest ih =>
    rw [List.flatMap_cons, ih]
    cases turn <;> rfl

namespace Store

variable {store after : Store} {accepted : List Accepted}

/-! ## The same end -/

theorem Gathers.apply (h : store.Gathers accepted) {turn : Turn} (hturn : turn.keepsAll = true) :
    (turn.apply store).Gathers (accepted ++ turn.accepted) := by
  cases turn with
  | read call => exact h.takesAll (call.extraction.readSource_takes h.fit.keyed _ _).1
  | finalize =>
    rw [Turn.accepted, List.append_nil]
    exact h.finalize
  | finish extraction =>
    rw [Turn.accepted, List.append_nil]
    obtain ⟨diagnostics, heq⟩ := Turn.apply_finish hturn store
    rw [heq]
    exact h.finalize.withDiagnostics diagnostics

theorem Gathers.foldl_apply (h : store.Gathers accepted) {turns : List Turn}
    (hturns : ∀ turn ∈ turns, turn.keepsAll = true) :
    (turns.foldl Turn.apply store).Gathers (accepted ++ turns.flatMap Turn.accepted) :=
  Turn.inv (P := fun accepted store => store.Gathers accepted)
    (fun turn hturn _ _ hbefore => hbefore.apply (hturns turn hturn)) accepted h

theorem gathers_afterTurns {turns : List Turn} (h : ∀ turn ∈ turns, turn.keepsAll = true) :
    (afterTurns turns).Gathers (turns.flatMap Turn.accepted) := by
  have := Gathers.empty.foldl_apply h
  rwa [List.nil_append] at this

theorem afterTurns_concat (turns : List Turn) (turn : Turn) :
    afterTurns (turns ++ [turn]) = turn.apply (afterTurns turns) := by
  rw [afterTurns, List.foldl_append]
  rfl

/-- Reading files is taking turns. -/
theorem afterTurns_read (calls : List Call) :
    afterTurns (calls.map .read) = Call.readAll calls {} := by
  rw [afterTurns, Call.readAll, List.foldl_map]
  rfl

/-- Everything that was accepted stands where it leads in the end, and says there what it is to say:
a category under its class or, when that is not declared, where it waits, and not in both places. -/
structure Settled (accepted : List Accepted) (store : Store) : Prop where
  tells : ∀ path, NodeInfo.Tells (settledAt accepted path) (store.infoAt? path)
  inClass : ∀ key : CategoryKey, (∃ a ∈ accepted, a.path = ⟨.pending key, []⟩) →
    declaresClass accepted key.baseClass = true →
      (store.infoAt? (key.inClass [])).isSome = true ∧ store.infoAt? ⟨.pending key, []⟩ = none
  waits : ∀ key : CategoryKey, (∃ a ∈ accepted, a.path = ⟨.pending key, []⟩) →
    declaresClass accepted key.baseClass = false →
      (store.infoAt? ⟨.pending key, []⟩).isSome = true ∧ store.infoAt? (key.inClass []) = none

theorem Holds.settled (h : store.Holds accepted) : store.finalize.Settled accepted where
  tells := h.tells_finalize
  inClass key hkey hclass := by
    obtain ⟨a, ha, hpath⟩ := hkey
    refine ⟨(h.isSome_infoAt?_finalize_iff _).2 ⟨a, ha, ?_⟩, ?_⟩
    · rw [hpath, StorePath.home_pending, if_pos hclass]
      rfl
    · rw [h.keyed.infoAt?_finalize_pending, h.knows_eq, if_pos hclass]
  waits key hkey hclass := by
    obtain ⟨a, ha, hpath⟩ := hkey
    refine ⟨(h.isSome_infoAt?_finalize_iff _).2 ⟨a, ha, ?_⟩, ?_⟩
    · rw [hpath, StorePath.home_pending, if_neg (Bool.eq_false_iff.1 hclass)]
    · refine Gathers.infoAt?_inClass_of_unknown ?_ []
      rw [h.keyed.knows_finalize, h.knows_eq, hclass]

/-! ## What is said of unknown classes -/

/-- A category is warned about when it is settled and its class is not known, unless it was marked
so before. -/
def warns (store : Store) (entry : CategoryKey × Node) : Bool :=
  !store.knows entry.1.baseClass && entry.2.info.resolution != some .unresolved

/-- What settling a category says: that its class is unknown, or else the conflicts it comes to. -/
def settling (store : Store) (conflicts : CategoryKey → List Conflict)
    (entry : CategoryKey × Node) : List Diagnostic :=
  if store.warns entry then [unknownClassWarning entry.1 entry.2.info]
  else conflictWarnings entry.2.info.location (conflicts entry.1)

/-- The categories that are warned about when the store is finalized. -/
def warned (store : Store) : List CategoryKey := (store.pending.filter store.warns).map (·.1)

theorem diagnostics_resolve (store : Store) (key : CategoryKey) (node : Node) :
    ∃ conflicts, (store.resolve key node).diagnostics =
      store.diagnostics ++ store.settling (fun _ => conflicts) (key, node) := by
  cases hbase : OrderedMap.find? ⟨.interface, key.baseClass⟩ store.roots with
  | some interface =>
    have hknown : store.knows key.baseClass = true := by
      rw [knows, container?, hbase]
      rfl
    unfold resolve settling warns
    simp only [hbase, hknown, Bool.not_true, Bool.false_and, Bool.false_eq_true, if_false]
    exact ⟨_, rfl⟩
  | none =>
    have hknown : store.knows key.baseClass = false := by
      rw [knows, container?, hbase]
      rfl
    refine ⟨[], ?_⟩
    unfold resolve settling warns
    simp only [hbase, hknown, Bool.not_false, Bool.true_and, bne_iff_ne, ne_eq, ite_not]
    rfl

theorem diagnostics_foldl_resolve {entries : List (CategoryKey × Node)}
    (h : OrderedMap.Ascending entries) (store : Store) :
    ∃ conflicts,
      (entries.foldl (fun store (key, node) => store.resolve key node) store).diagnostics =
        store.diagnostics ++ entries.flatMap (store.settling conflicts) := by
  induction entries generalizing store with
  | nil => exact ⟨fun _ => [], (List.append_nil _).symm⟩
  | cons entry rest ih =>
    obtain ⟨hlt, hrest⟩ := List.pairwise_cons.1 h
    obtain ⟨first, hfirst⟩ := store.diagnostics_resolve entry.1 entry.2
    obtain ⟨others, hothers⟩ := ih hrest (store.resolve entry.1 entry.2)
    refine ⟨fun key => if key = entry.1 then first else others key, ?_⟩
    rw [List.foldl_cons, hothers, hfirst, List.flatMap_cons, List.append_assoc]
    have hhead : store.settling (fun _ => first) (entry.1, entry.2) =
        store.settling (fun key => if key = entry.1 then first else others key) entry := by
      simp [settling]
    have htail : rest.flatMap ((store.resolve entry.1 entry.2).settling others) =
        rest.flatMap (store.settling fun key => if key = entry.1 then first else others key) := by
      refine List.flatMap_congr fun other hother => ?_
      have hne : other.1 ≠ entry.1 := (OrderedSet.ne_of_compare_lt (hlt other hother)).symm
      simp only [settling, warns, knows_resolve, if_neg hne]
    rw [hhead, htail]

/-- What finalizing says, one category after the other. -/
theorem Keyed.diagnostics_finalize (h : store.Keyed) :
    ∃ conflicts, store.finalize.diagnostics =
      store.diagnostics ++ store.pending.flatMap (store.settling conflicts) := by
  rw [finalize_toStore]
  exact diagnostics_foldl_resolve h.ordered.pending { store with pending := [] }

/-! ## Warned once -/

end Store

namespace Turn

/-- The categories that are warned about in a turn. -/
def warned (store : Store) : Turn → List CategoryKey
  | .read _ => []
  | .finalize | .finish _ => store.warned

/-- The categories that are warned about in turns, one after the other. -/
def warnedIn (store : Store) : List Turn → List CategoryKey
  | [] => []
  | turn :: rest => turn.warned store ++ warnedIn (turn.apply store) rest

end Turn

namespace Store

variable {store after : Store} {accepted more : List Accepted}

/-- Every category that was warned about has been so once; it waits with a mark, or its class is known
by now. -/
structure Warned (keys : List CategoryKey) (store : Store) : Prop where
  nodup : keys.Nodup
  marked : ∀ key ∈ keys, store.knows key.baseClass = true ∨
    ∃ info, store.infoAt? ⟨.pending key, []⟩ = some info ∧ info.resolution = some .unresolved

namespace Warned

variable {keys : List CategoryKey}

theorem withDiagnostics (h : store.Warned keys) (diagnostics : List Diagnostic) :
    Warned keys { store with diagnostics } := ⟨h.nodup, h.marked⟩

/-- A mark stays when a category is declared again. -/
theorem takes (h : store.Warned keys) {a : Accepted} (ha : store.Takes a after) :
    after.Warned keys where
  nodup := h.nodup
  marked key hkey := by
    refine (h.marked key hkey).imp ha.isSome_container? fun ⟨info, hinfo, hmark⟩ => ?_
    rw [ha.infoAt?, hinfo]
    split
    · refine ⟨info.merge a.info, rfl, ?_⟩
      show info.resolution.or a.info.resolution = _
      rw [hmark]
      rfl
    · exact ⟨info, rfl, hmark⟩

theorem takesAll (h : store.Warned keys) (hmore : store.TakesAll more after) :
    after.Warned keys :=
  hmore.inv (P := fun _ store => store.Warned keys) [] h (fun hbefore ha => hbefore.takes ha)
    fun diagnostics hbefore => hbefore.withDiagnostics diagnostics

/-- Finalizing marks what it warns about, and does not warn about what is marked. -/
theorem finalize (h : store.Warned keys) (hstore : store.Keyed) :
    store.finalize.Warned (keys ++ store.warned) := by
  have hnew : ∀ key ∈ store.warned, store.knows key.baseClass = false ∧
      ∃ info, store.infoAt? ⟨.pending key, []⟩ = some info ∧
        info.resolution ≠ some .unresolved := by
    intro key hkey
    obtain ⟨entry, hentry, rfl⟩ := List.mem_map.1 hkey
    obtain ⟨hpending, hwarns⟩ := List.mem_filter.1 hentry
    rw [warns, Bool.and_eq_true, Bool.not_eq_true', bne_iff_ne] at hwarns
    refine ⟨hwarns.1, entry.2.info, ?_, hwarns.2⟩
    rw [infoAt?_start, (hstore.pending hpending).1]
    rfl
  have hmarks : ∀ key info, store.knows key.baseClass = false →
      store.infoAt? ⟨.pending key, []⟩ = some info →
      ∃ info, store.finalize.infoAt? ⟨.pending key, []⟩ = some info ∧
        info.resolution = some .unresolved := by
    intro key info hunknown hinfo
    have hkeeps := hstore.infoAt?_finalize_pending key []
    rw [if_neg (Bool.eq_false_iff.1 hunknown), hinfo] at hkeeps
    refine ⟨_, hkeeps, ?_⟩
    show (info.settled store.knows key.baseClass).resolution = _
    rw [NodeInfo.settled, if_neg (Bool.eq_false_iff.1 hunknown)]
  refine ⟨List.nodup_append.2 ⟨h.nodup, ?_, ?_⟩, fun key hkey => ?_⟩
  · have hsublist : store.warned.Sublist (store.pending.map (·.1)) :=
      List.filter_sublist.map _
    refine hsublist.nodup (List.pairwise_map.2 ?_)
    exact hstore.ordered.pending.imp OrderedSet.ne_of_compare_lt
  · rintro key hkey _ hother rfl
    obtain ⟨hunknown, info, hinfo, hunmarked⟩ := hnew key hother
    rcases h.marked key hkey with hknown | ⟨other, hsame, hmark⟩
    · rw [hunknown] at hknown
      cases hknown
    · rw [hinfo] at hsame
      cases hsame
      exact hunmarked hmark
  · rw [hstore.knows_finalize]
    rcases List.mem_append.1 hkey with hkey | hkey
    · cases hknown : store.knows key.baseClass with
      | true => exact .inl rfl
      | false =>
        rcases h.marked key hkey with hother | ⟨info, hinfo, -⟩
        · rw [hknown] at hother
          cases hother
        · exact .inr (hmarks key info hknown hinfo)
    · obtain ⟨hunknown, info, hinfo, -⟩ := hnew key hkey
      exact .inr (hmarks key info hunknown hinfo)

theorem apply (h : store.Warned keys) (hstore : store.Keyed) {turn : Turn}
    (hturn : turn.keepsAll = true) :
    (turn.apply store).Warned (keys ++ turn.warned store) := by
  cases turn with
  | read call =>
    rw [Turn.warned, List.append_nil]
    exact h.takesAll (call.extraction.readSource_takes hstore _ _).1
  | finalize => exact h.finalize hstore
  | finish extraction =>
    obtain ⟨diagnostics, heq⟩ := Turn.apply_finish hturn store
    rw [heq]
    exact (h.finalize hstore).withDiagnostics diagnostics

/-- Whatever turns are taken, no category is warned about twice. -/
theorem foldl_apply (h : store.Warned keys) (hstore : store.Gathers accepted) {turns : List Turn}
    (hturns : ∀ turn ∈ turns, turn.keepsAll = true) :
    (turns.foldl Turn.apply store).Warned (keys ++ Turn.warnedIn store turns) := by
  induction turns generalizing store accepted keys with
  | nil => rwa [Turn.warnedIn, List.append_nil]
  | cons turn rest ih =>
    have hturn := hturns turn List.mem_cons_self
    rw [Turn.warnedIn, ← List.append_assoc]
    exact ih (h.apply hstore.fit.keyed hturn) (hstore.apply hturn)
      fun other hother => hturns other (List.mem_cons_of_mem _ hother)

end Warned

/-! ## Early and late -/

/-- Finalizing early changes nothing. Of turns that remove no nodes, closed by finalizing, the store
comes out with the same roots and the same that waits as if the files had been read only and finalized
in the end, and every category stands in its one place. Whenever a store is finalized, that counts
what waits on, as closing a run does, and says of each category that its class is unknown or else the
conflicts it comes to; over all turns no category is warned about twice. -/
theorem finalize_early (turns : List Turn) (h : ∀ turn ∈ turns, turn.keepsAll = true) :
    let calls := turns.filterMap Turn.call?
    let early := afterTurns (turns ++ [.finalize])
    let once := (Call.readAll calls {}).finalize
    (early.roots = once.roots ∧ early.pending = once.pending) ∧
    early.Settled (calls.flatMap Call.accepted) ∧
    (∀ done : List Turn,
      let before := afterTurns done
      let closed := afterTurns (done ++ [.finalize])
      before.finalize = ⟨closed, closed.pending.length⟩ ∧
      (∀ extraction : Extraction,
        (extraction.finish before).unresolved = closed.pending.length) ∧
      ∃ conflicts, closed.diagnostics =
        before.diagnostics ++ before.pending.flatMap (before.settling conflicts)) ∧
    (Turn.warnedIn {} (turns ++ [.finalize])).Nodup := by
  intro calls early once
  have hearly : (afterTurns turns).Gathers (calls.flatMap Call.accepted) := by
    rw [← accepted_eq_flatMap_call?]
    exact gathers_afterTurns h
  have honce : (Call.readAll calls {}).Gathers (calls.flatMap Call.accepted) := by
    have hreads : ∀ turn ∈ calls.map Turn.read, turn.keepsAll = true := by
      simp [Turn.keepsAll]
    have hgathers := gathers_afterTurns hreads
    rwa [afterTurns_read, List.flatMap_map] at hgathers
  have hclosed : early = (afterTurns turns).finalize := afterTurns_concat ..
  refine ⟨?_, ?_, ?_, ?_⟩
  · rw [hclosed]
    exact hearly.finalize_eq honce
  · have hsettled : once.Settled (calls.flatMap Call.accepted) :=
      (Call.holds_readAll_empty calls).settled
    have hsame : ∀ path, early.infoAt? path = once.infoAt? path := by
      rw [hclosed]
      exact hearly.infoAt?_finalize_eq honce
    refine ⟨fun path => ?_, fun key hkey hclass => ?_, fun key hkey hclass => ?_⟩
    · rw [hsame]
      exact hsettled.tells path
    · rw [hsame, hsame]
      exact hsettled.inClass key hkey hclass
    · rw [hsame, hsame]
      exact hsettled.waits key hkey hclass
  · intro done before closed
    have hkeyed : before.Keyed := (Fit.empty.foldl_apply done).keyed
    have hfinal : closed = before.finalize := afterTurns_concat ..
    have hcount := hkeyed.ordered.unresolved_finalize
    rw [hfinal, ← hcount]
    exact ⟨rfl, fun extraction => (extraction.finish_eq before).2, hkeyed.diagnostics_finalize⟩
  · have hkeeps : ∀ turn ∈ turns ++ [.finalize], turn.keepsAll = true := by
      intro turn hturn
      rcases List.mem_append.1 hturn with hturn | hturn
      · exact h turn hturn
      · cases List.mem_singleton.1 hturn
        rfl
    have hnone : Store.Warned [] {} := ⟨List.nodup_nil, fun _ h => by cases h⟩
    exact (hnone.foldl_apply .empty hkeeps).nodup

/-- A category whose class comes after it, and that is declared once more after that. -/
def lateClass : List Turn :=
  [.read ⟨{}, "A.h", "@interface Foo (Bar)\n- (void)m;\n@end".toList⟩, .finalize,
    .read ⟨{}, "B.h", "@interface Foo\n@end".toList⟩, .finalize,
    .read ⟨{}, "C.h", "@interface Foo (Bar)\n- (void)n;\n@end".toList⟩]

theorem finalize_early_lateClass :
    (∀ turn ∈ lateClass, turn.keepsAll = true) ∧
      ((afterTurns (lateClass ++ [.finalize])).roots =
          (Call.readAll (lateClass.filterMap Turn.call?) {}).finalize.roots ∧
        (afterTurns (lateClass ++ [.finalize])).pending =
          (Call.readAll (lateClass.filterMap Turn.call?) {}).finalize.pending) ∧
      (Turn.warnedIn {} (lateClass ++ [.finalize])).Nodup ∧
      Turn.warnedIn {} (lateClass ++ [.finalize]) = [⟨"Foo", ⟨.category, "Bar"⟩⟩] := by
  have hkeeps : ∀ turn ∈ lateClass, turn.keepsAll = true := by decide
  obtain ⟨hsame, -, -, hnodup⟩ := finalize_early lateClass hkeeps
  exact ⟨hkeeps, hsame, hnodup, by decide +kernel⟩

end Store

end DeclDoc
