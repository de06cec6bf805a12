import DeclDoc.Proofs.Membership
import DeclDoc.Proofs.Recognition
import Mathlib.Algebra.GroupWithZero.Nat
import Mathlib.Data.List.Nodup

/-!
# What is stored of a plain header

A source of the grammar puts one node into an empty store for each of its declarations, with exactly
the declared members under it, and drops nothing (`Extraction.readSource_plain`): a declaration goes
to the paths of its entry (`Cursor.Declares.paths`), and a store that holds what was accepted for the
paths of distinct entries contains those entries and no others (`Store.Holds.contains`).
-/

set_option autoImplicit false

namespace DeclDoc

open Declaration (Entry IsSource IsIdentifier IsAt IsUninterrupted IsParenType IsMember
  IsDeclaration IsForward IsDefine)

/-! ## Paths of an entry -/

namespace Declaration.Entry

/-- Where an entry and its members are stored. -/
def paths (entry : Entry) : List StorePath :=
  ⟨entry.ref, []⟩ :: entry.members.map fun key => ⟨entry.ref, [key]⟩

theorem mem_paths {entry : Entry} {path : StorePath} :
    path ∈ entry.paths ↔
      path.start = entry.ref ∧ (path.trail = [] ∨ ∃ key ∈ entry.members, path.trail = [key]) := by
  obtain ⟨start, trail⟩ := path
  simp only [paths, List.mem_cons, StorePath.mk.injEq, List.mem_map]
  constructor
  · rintro (⟨rfl, rfl⟩ | ⟨key, hkey, rfl, rfl⟩)
    · exact ⟨rfl, .inl rfl⟩
    · exact ⟨rfl, .inr ⟨key, hkey, rfl⟩⟩
  · rintro ⟨rfl, rfl | ⟨key, hkey, rfl⟩⟩
    · exact .inl ⟨rfl, rfl⟩
    · exact .inr ⟨key, hkey, rfl, rfl⟩

/-- One path for each entry and one for each member. -/
theorem length_flatMap_paths (entries : List Entry) :
    (entries.flatMap paths).length =
      entries.length + (entries.map fun entry => entry.members.length).sum := by
  induction entries with
  | nil => rfl
  | cons entry entries ih =>
    rw [List.flatMap_cons, List.length_append, ih, paths, List.length_cons, List.length_map,
      List.map_cons, List.sum_cons, List.length_cons]
    omega

/-- Distinct entries have no path in common. -/
theorem eq_of_ref_eq {entries : List Entry} (h : (entries.map Entry.ref).Nodup) {x y : Entry}
    (hx : x ∈ entries) (hy : y ∈ entries) (href : x.ref = y.ref) : x = y :=
  List.inj_on_of_nodup_map h hx hy href

end Declaration.Entry

namespace Cursor

variable {cursor : Cursor} {entry : Entry}

/-- The declaration of an entry goes to the paths of the entry. -/
theorem Declares.paths (h : cursor.Declares entry) (file : SourceFile) :
    (cursor.spots file).map Prod.fst = entry.paths := by
  rw [Declaration.Entry.paths, ← h.ref, ← h.members, List.map_map]
  rcases h.plain with ⟨hkind, hmembers⟩ | hnamed | ⟨hkind, hne, hnone⟩
  · rw [spots, if_pos hkind, heldSpots_of_isMember hmembers, List.map_cons, List.map_map]
    rfl
  · obtain ⟨hkind, hspelling⟩ := isNamedEnum_iff.1 hnamed
    have hcontainer : isContainerKind cursor.kind = false := by
      rw [hkind]
      rfl
    rw [spots, hcontainer, if_neg Bool.false_ne_true, plainSpots, if_pos hkind, if_neg hspelling,
      List.map_cons, List.map_map]
    rfl
  · rw [spots, hkind, if_neg Bool.false_ne_true, plainSpots, if_neg hne, hnone]
    rfl

/-- No member of it is stranded. -/
theorem Declares.strandings (h : cursor.Declares entry) (file : SourceFile) :
    cursor.strandings file = [] := by
  rw [Cursor.strandings]
  rcases h.plain with ⟨hkind, hmembers⟩ | hnamed | ⟨hkind, -, -⟩
  · rw [if_pos hkind, stranded_of_isMember hmembers]
    rfl
  · rw [(isNamedEnum_iff.1 hnamed).1]
    rfl
  · rw [hkind]
    rfl

/-- Declarations go to the paths of their entries, and none of their members is stranded. -/
theorem paths_of_declares {cursors : List Cursor} {entries : List Entry}
    (h : List.Forall₂ Declares cursors entries) (file : SourceFile) :
    (cursors.flatMap (Cursor.spots file)).map Prod.fst = entries.flatMap Entry.paths ∧
      cursors.flatMap (Cursor.strandings file) = [] := by
  induction h with
  | nil => exact ⟨rfl, rfl⟩
  | cons hfirst _ ih =>
    rw [List.flatMap_cons, List.flatMap_cons, List.flatMap_cons, List.map_append, hfirst.paths file,
      hfirst.strandings file, ih.1, ih.2]
    exact ⟨rfl, rfl⟩

end Cursor

/-! ## Stores of entries -/

namespace Store

/-- The store has a node for each of these entries, and no others: each stands under its key, and
holds its members, which hold nothing. -/
structure Contains (store : Store) (entries : List Entry) : Prop where
  refs : store.refs.Perm (entries.map Entry.ref)
  node : ∀ entry ∈ entries, ∃ node, store.container? entry.ref = some node ∧
    node.key = entry.ref.key ∧ (node.children.map Prod.fst).Perm entry.members ∧
    ∀ child ∈ node.children, child.2.key = child.1 ∧ child.2.children = []

/-- There are as many nodes as entries. -/
theorem Contains.size_eq {store : Store} {entries : List Entry} (h : store.Contains entries) :
    store.size = entries.length := by
  rw [← length_refs, h.refs.length_eq, List.length_map]

namespace Holds

variable {store : Store} {accepted : List Accepted} {entries : List Entry}

theorem isSome_infoAt?_of_paths (h : store.Holds accepted)
    (hpaths : accepted.map Accepted.path = entries.flatMap Entry.paths) (path : StorePath) :
    (store.infoAt? path).isSome = true ↔ ∃ entry ∈ entries, path ∈ entry.paths := by
  rw [h.isSome_infoAt?_iff, ← List.mem_flatMap, ← hpaths, List.mem_map]

/-- Among distinct entries, what is at the node of one and below it is the entry and its members. -/
theorem isSome_node_infoAt?_iff (h : store.Holds accepted)
    (hpaths : accepted.map Accepted.path = entries.flatMap Entry.paths)
    (hrefs : (entries.map Entry.ref).Nodup) {entry : Entry} (hentry : entry ∈ entries) {node : Node}
    (hnode : store.container? entry.ref = some node) (trail : List NodeKey) :
    (node.infoAt? trail).isSome = true ↔
      trail = [] ∨ ∃ key ∈ entry.members, trail = [key] := by
  have hinfo : store.infoAt? ⟨entry.ref, trail⟩ = node.infoAt? trail := by
    rw [infoAt?, hnode]
    rfl
  rw [← hinfo, h.isSome_infoAt?_of_paths hpaths]
  constructor
  · rintro ⟨other, hother, hpath⟩
    obtain ⟨href, htrail⟩ := Entry.mem_paths.1 hpath
    rwa [Entry.eq_of_ref_eq hrefs hentry hother href]
  · exact fun htrail => ⟨entry, hentry, Entry.mem_paths.2 ⟨rfl, htrail⟩⟩

/-- The node of an entry has the entry's members, and these have none. -/
theorem children_of_paths (h : store.Holds accepted)
    (hpaths : accepted.map Accepted.path = entries.flatMap Entry.paths)
    (hrefs : (entries.map Entry.ref).Nodup) {entry : Entry} (hentry : entry ∈ entries)
    (hmembers : entry.members.Nodup) {node : Node}
    (hnode : store.container? entry.ref = some node) :
    (node.children.map Prod.fst).Perm entry.members ∧
      ∀ child ∈ node.children, child.2.key = child.1 ∧ child.2.children = [] := by
  have hbelow := h.isSome_node_infoAt?_iff hpaths hrefs hentry hnode
  obtain ⟨hchildren, hgrandchildren⟩ := Node.ordered_iff.1 (h.ordered.below entry.ref node hnode)
  constructor
  · have hnodup : (node.children.map Prod.fst).Nodup :=
      List.pairwise_map.2 (hchildren.imp OrderedSet.ne_of_compare_lt)
    refine (List.perm_ext_iff_of_nodup hnodup hmembers).2 ?_
    intro key
    have hone : (node.infoAt? [key]).isSome = true ↔ key ∈ entry.members := by
      rw [hbelow]
      simp
    rw [← hone, Node.infoAt?_cons, List.mem_map]
    constructor
    · rintro ⟨⟨k, child⟩, hchild, rfl⟩
      rw [(OrderedMap.find?_eq_some_iff hchildren).2 hchild]
      rfl
    · intro hsome
      obtain ⟨child, hchild⟩ := Option.isSome_iff_exists.1 (Option.isSome_of_isSome_bind hsome)
      exact ⟨(key, child), (OrderedMap.find?_eq_some_iff hchildren).1 hchild, rfl⟩
  · rintro ⟨key, child⟩ hchild
    have hfind := (OrderedMap.find?_eq_some_iff hchildren).2 hchild
    have hinfo : store.infoAt? ⟨entry.ref, [key]⟩ = some child.info := by
      rw [infoAt?, hnode, Option.bind_some, Node.infoAt?_cons, hfind]
      rfl
    refine ⟨h.key_of_infoAt? hinfo, List.eq_nil_iff_forall_not_mem.2 ?_⟩
    rintro ⟨k, grandchild⟩ hgrandchild
    have hordered := (Node.ordered_iff.1 (hgrandchildren key child hfind)).1
    have hdeep : (node.infoAt? [key, k]).isSome = true := by
      rw [Node.infoAt?_cons, hfind, Option.bind_some, Node.infoAt?_cons,
        (OrderedMap.find?_eq_some_iff hordered).2 hgrandchild]
      rfl
    rcases (hbelow _).1 hdeep with hnil | ⟨other, -, hother⟩
    · cases hnil
    · cases hother

/-- A store that holds what was accepted for the paths of distinct entries contains them. -/
theorem contains (h : store.Holds accepted)
    (hpaths : accepted.map Accepted.path = entries.flatMap Entry.paths)
    (hrefs : (entries.map Entry.ref).Nodup) (hmembers : ∀ entry ∈ entries, entry.members.Nodup) :
    store.Contains entries := by
  have hstart (ref : ContainerRef) :
      (store.container? ref).isSome = true ↔ ref ∈ entries.map Entry.ref := by
    have hinfo : (store.container? ref).isSome = (store.infoAt? ⟨ref, []⟩).isSome := by
      rw [infoAt?_start, Option.isSome_map]
    rw [hinfo, h.isSome_infoAt?_of_paths hpaths, List.mem_map]
    constructor
    · rintro ⟨entry, hentry, hpath⟩
      exact ⟨entry, hentry, (Entry.mem_paths.1 hpath).1.symm⟩
    · rintro ⟨entry, hentry, rfl⟩
      exact ⟨entry, hentry, Entry.mem_paths.2 ⟨rfl, .inl rfl⟩⟩
  constructor
  · refine (List.perm_ext_iff_of_nodup (nodup_refs h.ordered) hrefs).2 ?_
    intro ref
    rw [mem_refs_iff h.ordered, hstart]
  · intro entry hentry
    obtain ⟨node, hnode⟩ :=
      Option.isSome_iff_exists.1 ((hstart entry.ref).2 (List.mem_map_of_mem hentry))
    exact ⟨node, hnode, h.key_of_container? hnode,
      h.children_of_paths hpaths hrefs hentry (hmembers entry hentry) hnode⟩

end Holds

end Store

/-! ## Plain headers -/

namespace Extraction

variable {path : String} {source : List Char}

/-- Of a header of the grammar whose nodes are distinct, and whose members are in each node, reading
it without settings into an empty store makes one node for each declaration, with exactly the
declared members; everything that is found is stored, and no member is reported to have no
container. -/
theorem readSource_plain {entries : List Entry} (hpath : (Language.ofPath? path).isSome = true)
    (hsource : '\x00' ∉ source) (hgrammar : IsSource entries (Code.ofLexemes (lex source).1))
    (hrefs : (entries.map Entry.ref).Nodup) (hmembers : ∀ entry ∈ entries, entry.members.Nodup) :
    let result := ({} : Extraction).readSource {} path source
    result.outcome = .ok
        { entities := entries.length + (entries.map fun entry => entry.members.length).sum
          filtered := 0
          skipped := 0 } ∧
      result.store.size = entries.length ∧ result.store.Contains entries ∧
      (Declaration.scanText source).remarks = [] ∧
      ∀ d : Diagnostic, .diagnostic d ∈ result.log → ¬d.IsStranding := by
  intro result
  obtain ⟨cursors, hscan, hdeclares⟩ :=
    Declaration.scan_source hgrammar (Code.Ascending.ofLexemes source).nonempty
  have hscan : Declaration.scanText source = ⟨cursors, []⟩ := hscan
  obtain ⟨hspots, hlog, houtcome⟩ := readSource_scanned hpath hsource Store.Holds.empty
  obtain ⟨hpaths, hstrandings⟩ := Cursor.paths_of_declares hdeclares (.ofText path source)
  rw [hscan] at hspots hlog houtcome
  dsimp only at hspots hlog houtcome
  rw [hstrandings] at hlog houtcome
  have haccepted : (({} : Extraction).acceptedOf path source).map Accepted.path =
      entries.flatMap Entry.paths := by
    rw [← hpaths, ← hspots, List.map_map]
    rfl
  have hholds : result.store.Holds (({} : Extraction).acceptedOf path source) :=
    (readSource_holds {} Store.Holds.empty path source).1
  have hcontains := hholds.contains haccepted hrefs hmembers
  refine ⟨?_, hcontains.size_eq, hcontains, ?_, ?_⟩
  · have hlength : (cursors.flatMap (Cursor.spots (.ofText path source))).length =
        entries.length + (entries.map fun entry => entry.members.length).sum := by
      rw [← Entry.length_flatMap_paths, ← hpaths, List.length_map]
    rw [hlength] at houtcome
    exact houtcome
  · rw [hscan]
  · intro d hd hds
    cases (hlog d hds).1 hd

/-- A header of the grammar. -/
def plainHeader : List Char :=
  "@interface C\n- (int)m;\n@end\n@class D;\nint f(void);\nenum E { A };\n#define M 1".toList

/-- What it declares. -/
def plainEntries : List Entry :=
  [⟨.root ⟨.interface, "C"⟩, [⟨.method, "-m"⟩]⟩, ⟨.root ⟨.function, "f"⟩, []⟩,
    ⟨.root ⟨.enumeration, "E"⟩, [⟨.enumValue, "A"⟩]⟩, ⟨.root ⟨.macroDefinition, "M"⟩, []⟩]

/-- The code token of this number in it. -/
def plainToken (i : Nat) : CodeToken := (Code.ofLexemes (lex plainHeader).1).getD i default

theorem isSource_plainHeader : IsSource plainEntries (Code.ofLexemes (lex plainHeader).1) := by
  -- one evaluation for all tokens
  obtain ⟨hname, htokens, hinterface, hend, hclass, hvoid, henum, hhead, hhead', hdefine⟩ :
      (∀ i ∈ [1, 4, 6, 10, 12, 13, 19, 21], IsIdentifier (plainToken i)) ∧
      [2, 3, 5, 7, 11, 14, 16, 17, 20, 22, 23, 24].map (fun i => (plainToken i).token) =
        [.minus, .openParen, .closeParen, .semicolon, .semicolon, .openParen, .closeParen,
          .semicolon, .openBrace, .closeBrace, .semicolon, .directive] ∧
      IsAt "@interface" (plainToken 0) ∧ IsAt "@end" (plainToken 8) ∧
      IsAt "@class" (plainToken 9) ∧ (plainToken 15).isWord "void" = true ∧
      (plainToken 18).isWord "enum" = true ∧ IsUninterrupted [plainToken 12, plainToken 13] ∧
      IsUninterrupted [plainToken 18, plainToken 19] ∧
      (plainToken 24).text = "#define M 1".toList := by decide +kernel
  simp only [List.map_cons, List.map_nil, List.cons.injEq, and_true] at htokens
  obtain ⟨hminus, hp, hq, hs, hs₁, hp₂, hq₂, hs₂, hp₃, hq₃, hs₃, hdirective⟩ := htokens
  have htype := IsParenType.mk hp (.of_identifier (hname 4 (by decide))) hq
  have hmethod := IsMember.method (.minus hminus) htype (.unary (hname 6 (by decide))) hs
  have hclassC := IsDeclaration.interface hinterface (hname 1 (by decide)) .none .none
    (.cons hmethod .nil) hend
  have hforward := IsForward.classes hclass (.one (hname 10 (by decide))) hs₁
  have hfunction := IsDeclaration.prototype (.of_identifier (hname 12 (by decide)))
    (hname 13 (by decide)) hhead hp₂ (.void hvoid) hq₂ hs₂
  have henumeration := IsDeclaration.enumeration henum (hname 19 (by decide)) hhead' hp₃
    (.one (.bare (hname 21 (by decide)))) hq₃ hs₃
  have hdefined : IsDefine ['M'] (plainToken 24) :=
    ⟨hdirective, ⟨[], [' '], " 1".toList, hdefine.trans (by decide), rfl, rfl, by decide, by decide⟩,
      rfl, rfl⟩
  have hplain := IsSource.declared hclassC (.forward hforward (.declared hfunction
    (.declared henumeration (.declared (.define hdefined) .nil))))
  exact (congrArg₂ IsSource (by decide +kernel) (by decide +kernel)).mp hplain

theorem readSource_plainHeader :
    (Language.ofPath? "C.h").isSome = true ∧ '\x00' ∉ plainHeader ∧
      IsSource plainEntries (Code.ofLexemes (lex plainHeader).1) ∧
      (plainEntries.map Entry.ref).Nodup ∧ (∀ entry ∈ plainEntries, entry.members.Nodup) ∧
      (({} : Extraction).readSource {} "C.h" plainHeader).store.size = 4 ∧
      (({} : Extraction).readSource {} "C.h" plainHeader).store.Contains plainEntries := by
  have hpath : (Language.ofPath? "C.h").isSome = true := by decide +kernel
  have hsource : '\x00' ∉ plainHeader := by decide +kernel
  have hrefs : (plainEntries.map Entry.ref).Nodup := by decide +kernel
  have hmembers : ∀ entry ∈ plainEntries, entry.members.Nodup := by decide +kernel
  obtain ⟨-, hsize, hcontains, -⟩ :=
    readSource_plain hpath hsource isSource_plainHeader hrefs hmembers
  exact ⟨hpath, hsource, isSource_plainHeader, hrefs, hmembers, hsize, hcontains⟩

/-- A directive for a macro whose name begins with a digit. -/
def digitMacro : List Char := "#define 1A 2".toList

/-- A directive for a macro, behind a comment with a NUL character. -/
def nulMacro : List Char := "/*\x00*/ #define A 2".toList

/-- The code of both is one directive, which names a macro in letters and digits, and there is no node
of either. -/
theorem readSource_unread :
    ((Code.ofLexemes (lex digitMacro).1).map fun t => (t.token, t.text)) =
        [(.directive, "#define 1A 2".toList)] ∧
      "1A".toList.all Declaration.isMacroChar = true ∧
      (({} : Extraction).readSource {} "A.h" digitMacro).store.size = 0 ∧
      ((Code.ofLexemes (lex nulMacro).1).map fun t => (t.token, t.text)) =
        [(.directive, "#define A 2".toList)] ∧
      "A".toList.all Declaration.isMacroChar = true ∧
      (({} : Extraction).readSource {} "A.h" nulMacro).store.size = 0 := by
  decide +kernel

end Extraction

end DeclDoc
