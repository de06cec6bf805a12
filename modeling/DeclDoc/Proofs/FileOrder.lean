import DeclDoc.Proofs.Matching
import DeclDoc.Proofs.Runs

/-!
# Files in another order

The files of a run may be read in any order: what is left when the run is closed differs in nothing
but which declaration of a node came first (`Extraction.finish_inAnyOrder`). Where no two
declarations of a node say different things of it, the node is the same but for its attributes, and
where besides no declaration lists an attribute twice, only their order differs.
-/

set_option autoImplicit false

namespace DeclDoc

/-! ## What is accepted in another order -/

namespace Accepted

/-- Entities of one path have one parent and one resolution in the end. -/
theorem settled_eq_of_path_eq {known : String → Bool} {a b : Accepted} (h : a.path = b.path) :
    (a.settled known).parent = (b.settled known).parent ∧
      (a.settled known).resolution = (b.settled known).resolution := by
  by_cases hp : ∃ key, a.path = ⟨.pending key, []⟩
  · obtain ⟨key, hkey⟩ := hp
    rw [settled_of_category hkey, settled_of_category (h ▸ hkey)]
    unfold NodeInfo.settled
    split
    · exact ⟨rfl, rfl⟩
    · exact ⟨parent_eq_of_path_eq h, rfl⟩
  · have hp' := not_exists.1 hp
    rw [settled_of_path hp', settled_of_path (h ▸ hp')]
    exact ⟨parent_eq_of_path_eq h, rfl⟩

end Accepted

theorem declaresClass_of_perm {as bs : List Accepted} (h : as.Perm bs) :
    declaresClass as = declaresClass bs :=
  funext fun _ => h.any_eq

theorem settledAt_perm {as bs : List Accepted} (h : as.Perm bs) (path : StorePath) :
    (settledAt as path).Perm (settledAt bs path) := by
  rw [settledAt, settledAt, declaresClass_of_perm h]
  exact (h.filter _).map _

namespace Store.Holds

variable {a b : Store} {as bs : List Accepted}

/-- Accepted entities whose paths lead to one place have one path. -/
theorem path_eq_of_home_eq (h : a.Holds as) {x y : Accepted} (hx : x ∈ as) (hy : y ∈ as)
    (heq : x.path.home (declaresClass as) = y.path.home (declaresClass as)) : x.path = y.path := by
  rcases hxp : x.path with ⟨start | key, trail⟩
  · rcases hyp : y.path with ⟨start' | key', trail'⟩
    · rwa [hxp, hyp] at heq
    · obtain ⟨node, hnode⟩ := h.mem_pending_of_path hy hyp
      rw [hyp, Accepted.home_path_eq_iff (h.wellFormed x hx)
        (h.isCategoryLike_of_pending hnode).2.2] at heq
      rw [← hxp, heq]
  · obtain ⟨node, hnode⟩ := h.mem_pending_of_path hx hxp
    rw [eq_comm, hxp, Accepted.home_path_eq_iff (h.wellFormed y hy)
      (h.isCategoryLike_of_pending hnode).2.2] at heq
    exact heq.symm

/-- Whatever is said in the end at a path, it tells of one parent and one resolution. -/
theorem settledAt_same (h : a.Holds as) (path : StorePath) :
    (∀ d ∈ settledAt as path, ∀ e ∈ settledAt as path, d.parent = e.parent) ∧
      ∀ d ∈ settledAt as path, ∀ e ∈ settledAt as path, d.resolution = e.resolution := by
  have hsame : ∀ d ∈ settledAt as path, ∀ e ∈ settledAt as path,
      d.parent = e.parent ∧ d.resolution = e.resolution := by
    intro d hd e he
    simp only [settledAt, List.mem_map, List.mem_filter, decide_eq_true_eq] at hd he
    obtain ⟨x, ⟨hx, hxp⟩, rfl⟩ := hd
    obtain ⟨y, ⟨hy, hyp⟩, rfl⟩ := he
    exact Accepted.settled_eq_of_path_eq (h.path_eq_of_home_eq hx hy (hxp.trans hyp.symm))
  exact ⟨fun d hd e he => (hsame d hd e he).1, fun d hd e he => (hsame d hd e he).2⟩

/-- Stores that hold the same in different orders match when they are finalized. -/
theorem matches_finalize (ha : a.Holds as) (hb : b.Holds bs) (h : as.Perm bs) :
    Store.Matches NodeInfo.Alike a.finalize b.finalize := by
  intro path
  have hperm := settledAt_perm h path
  have hta := ha.tells_finalize path
  have htb := hb.tells_finalize path
  cases hx : a.finalize.infoAt? path with
  | none =>
    rw [hx] at hta
    have hnil : settledAt bs path = [] := by
      rw [show settledAt as path = [] from hta] at hperm
      exact hperm.nil_eq.symm
    cases hy : b.finalize.infoAt? path with
    | none => exact .none
    | some y =>
      rw [hy, hnil] at htb
      obtain ⟨d, hd⟩ := NodeInfo.Summarizes.nonempty htb
      cases hd
  | some x =>
    rw [hx] at hta
    cases hy : b.finalize.infoAt? path with
    | none =>
      rw [hy] at htb
      obtain ⟨d, hd⟩ := NodeInfo.Summarizes.nonempty hta
      rw [show settledAt bs path = [] from htb] at hperm
      exact absurd (hperm.mem_iff.1 hd) List.not_mem_nil
    | some y =>
      rw [hy] at htb
      obtain ⟨hparent, hresolution⟩ := ha.settledAt_same path
      exact .some (NodeInfo.Summarizes.alike_of_perm hta htb hperm hparent hresolution)

end Store.Holds

/-! ## Closed runs -/

/-- The store without what is not kept. -/
def Store.trim (store : Store) (policy : KeepPolicy) : Store :=
  if policy.objects && policy.members then store else (store.prune policy).value

theorem Extraction.finish_eq (extraction : Extraction) (store : Store) :
    (∃ diagnostics, (extraction.finish store).store =
      Store.trim { store.finalize with diagnostics } (keepPolicy extraction.settings)) ∧
    (extraction.finish store).unresolved = store.finalize.unresolved := by
  by_cases h : ((keepPolicy extraction.settings).objects &&
      (keepPolicy extraction.settings).members) = true
  · simp only [finish, Store.trim, if_pos h]
    exact ⟨⟨_, rfl⟩, trivial⟩
  · simp only [finish, Store.trim, if_neg h]
    exact ⟨⟨_, rfl⟩, trivial⟩

namespace Store

variable {R : NodeInfo → NodeInfo → Prop} {a b : Store}

theorem Ordered.trim (h : a.Ordered) (policy : KeepPolicy) : (a.trim policy).Ordered := by
  unfold Store.trim
  split
  · exact h
  · exact h.prune policy

theorem Keyed.trim (h : a.Keyed) (policy : KeepPolicy) : (a.trim policy).Keyed := by
  unfold Store.trim
  split
  · exact h
  · exact h.prune policy

theorem Matches.trim (hR : ∀ x y, R x y → x.kind = y.kind ∧ x.isDocumented = y.isDocumented)
    (ha : a.Ordered) (hb : b.Ordered) (h : Matches R a b) (policy : KeepPolicy) :
    Matches R (a.trim policy) (b.trim policy) := by
  unfold Store.trim
  split
  · exact h
  · exact h.prune hR ha hb policy

/-- What is kept says what it said. -/
theorem infoAt?_of_trim (ha : a.Ordered) {policy : KeepPolicy} {path : StorePath}
    {info : NodeInfo} (h : (a.trim policy).infoAt? path = some info) :
    a.infoAt? path = some info := by
  unfold Store.trim at h
  split at h
  · exact h
  · exact infoAt?_of_prune ha h

end Store

/-- Two closed runs of the same files. Their stores have the same keys everywhere, and nodes of one
path differ in nothing but which of the declarations `accepted` came first. -/
structure Finished.SameRun (accepted : List Accepted) (x y : Extraction.Finished) : Prop where
  unresolved : x.unresolved = y.unresolved
  rootKeys : x.store.roots.map (·.1) = y.store.roots.map (·.1)
  pendingKeys : x.store.pending.map (·.1) = y.store.pending.map (·.1)
  nodes : ∀ path, Option.Rel
    (fun a b => a.info.Alike b.info ∧ a.children.map (·.1) = b.children.map (·.1))
    (x.store.locate? path) (y.store.locate? path)
  consistent : ∀ path a b, x.store.infoAt? path = some a → y.store.infoAt? path = some b →
    (∀ d ∈ settledAt accepted path, ∀ e ∈ settledAt accepted path, d.Consistent e) → a.Agrees b
  attributes : ∀ path a b, x.store.infoAt? path = some a → y.store.infoAt? path = some b →
    (∀ d ∈ settledAt accepted path, d.attributes.Nodup) → a.attributes.Perm b.attributes

namespace Extraction

/-- Reads files into an empty store. -/
def readAll (extraction : Extraction) (files : List (String × List Char)) : Store :=
  Call.readAll (files.map fun file => ⟨extraction, file.1, file.2⟩) {}

/-- What is accepted of files, one after the other. -/
def acceptedOfAll (extraction : Extraction) (files : List (String × List Char)) : List Accepted :=
  files.flatMap fun file => extraction.acceptedOf file.1 file.2

theorem holds_readAll (extraction : Extraction) (files : List (String × List Char)) :
    (extraction.readAll files).Holds (extraction.acceptedOfAll files) := by
  have := Call.holds_readAll_empty (files.map fun file => ⟨extraction, file.1, file.2⟩)
  rwa [List.flatMap_map] at this

/-- The order in which files are read makes no other difference. -/
theorem finish_inAnyOrder (extraction : Extraction) {files files' : List (String × List Char)}
    (h : files.Perm files') :
    Finished.SameRun (extraction.acceptedOfAll files)
      (extraction.finish (extraction.readAll files))
      (extraction.finish (extraction.readAll files')) := by
  have ha := extraction.holds_readAll files
  have hb := extraction.holds_readAll files'
  have hperm : (extraction.acceptedOfAll files).Perm (extraction.acceptedOfAll files') :=
    h.flatMap_right _
  obtain ⟨⟨dx, hx⟩, hux⟩ := extraction.finish_eq (extraction.readAll files)
  obtain ⟨⟨dy, hy⟩, huy⟩ := extraction.finish_eq (extraction.readAll files')
  have hao := ha.ordered_finalize
  have hbo := hb.ordered_finalize
  have hfinal := ha.matches_finalize hb hperm
  have hmatches := Store.Matches.trim (fun x y h => ⟨h.kind, h.isDocumented⟩)
    (hao.withDiagnostics dx) (hbo.withDiagnostics dy) hfinal (keepPolicy extraction.settings)
  rw [← hx, ← hy] at hmatches
  have hxo := (hao.withDiagnostics dx).trim (keepPolicy extraction.settings)
  have hyo := (hbo.withDiagnostics dy).trim (keepPolicy extraction.settings)
  rw [← hx] at hxo
  rw [← hy] at hyo
  have htold : ∀ path a b,
      (extraction.finish (extraction.readAll files)).store.infoAt? path = some a →
      (extraction.finish (extraction.readAll files')).store.infoAt? path = some b →
      a.Summarizes (settledAt (extraction.acceptedOfAll files) path) ∧
        b.Summarizes (settledAt (extraction.acceptedOfAll files') path) := by
    intro path a b hap hbp
    rw [hx] at hap
    rw [hy] at hbp
    have hap' := Store.infoAt?_of_trim (hao.withDiagnostics dx) hap
    have hbp' := Store.infoAt?_of_trim (hbo.withDiagnostics dy) hbp
    rw [Store.infoAt?_withDiagnostics] at hap' hbp'
    have hta := ha.tells_finalize path
    have htb := hb.tells_finalize path
    rw [hap'] at hta
    rw [hbp'] at htb
    exact ⟨hta, htb⟩
  exact {
    unresolved := by
      have hkeys := congrArg List.length (hfinal.keys_eq hao hbo).2
      rw [List.length_map, List.length_map] at hkeys
      rw [hux, huy, ha.ordered.unresolved_finalize, hb.ordered.unresolved_finalize, hkeys]
    rootKeys := (hmatches.keys_eq hxo hyo).1
    pendingKeys := (hmatches.keys_eq hxo hyo).2
    nodes := hmatches.locate? hxo hyo
    consistent := fun path a b hap hbp hc => by
      obtain ⟨hta, htb⟩ := htold path a b hap hbp
      obtain ⟨hparent, hresolution⟩ := ha.settledAt_same path
      exact hta.agrees_of_perm htb (settledAt_perm hperm path) hparent hresolution hc
    attributes := fun path a b hap hbp hnodup => by
      obtain ⟨hta, htb⟩ := htold path a b hap hbp
      exact hta.attributes_perm htb (settledAt_perm hperm path) hnodup }

/-! ## Where the order shows -/

def copyTwice : String × List Char :=
  ("A.h", "@interface C\n@property (copy, copy) int x;\n@end".toList)

def copyOnce : String × List Char :=
  ("B.h", "@interface C\n@property (copy) int x;\n@end".toList)

theorem finish_inAnyOrder_copies :
    [copyTwice, copyOnce].Perm [copyOnce, copyTwice] ∧
      Finished.SameRun (acceptedOfAll {} [copyTwice, copyOnce])
        (finish {} (readAll {} [copyTwice, copyOnce]))
        (finish {} (readAll {} [copyOnce, copyTwice])) :=
  ⟨.swap .., finish_inAnyOrder {} (.swap ..)⟩

/-- Finds a class in every file, of which it says that it belongs to the file. -/
def ownerFrontEnd : FrontEnd where
  name := "owner"
  read _ path _ :=
    .ok ⟨[{ kind := .interface, spelling := "C", offset := 0, extent := 0,
            detail := { baseClass := some path } }], []⟩

/-- An attribute that one declaration repeats is repeated only where that declaration comes first,
and a base class may be told of any node, by a front-end that does so. -/
theorem attributes_and_baseClass_inOrder :
    let property : StorePath := ⟨.root ⟨.interface, "C"⟩, [⟨.property, "x"⟩]⟩
    let owned : Extraction := { frontEnd := ownerFrontEnd }
    let node : StorePath := ⟨.root ⟨.interface, "C"⟩, []⟩
    ((∀ d ∈ settledAt (acceptedOfAll {} [copyTwice, copyOnce]) property,
        d.comment = none ∧ d.signature = [] ∧ d.typeName = some "int" ∧ d.superclass = none ∧
          d.group = none) ∧
      ((finish {} (readAll {} [copyTwice, copyOnce])).store.infoAt? property).map
        NodeInfo.attributes = some ["copy", "copy"] ∧
      ((finish {} (readAll {} [copyOnce, copyTwice])).store.infoAt? property).map
        NodeInfo.attributes = some ["copy"]) ∧
    ((∀ d ∈ settledAt (acceptedOfAll owned [("A.h", []), ("B.h", [])]) node,
        d.comment = none ∧ d.signature = [] ∧ d.typeName = none ∧ d.superclass = none ∧
          d.group = none) ∧
      ((finish owned (readAll owned [("A.h", []), ("B.h", [])])).store.infoAt? node).map
        NodeInfo.baseClass = some (some "A.h") ∧
      ((finish owned (readAll owned [("B.h", []), ("A.h", [])])).store.infoAt? node).map
        NodeInfo.baseClass = some (some "B.h")) := by
  decide +kernel

end Extraction

end DeclDoc
