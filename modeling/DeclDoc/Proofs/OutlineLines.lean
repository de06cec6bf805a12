import DeclDoc.Proofs.DepthFirst
import DeclDoc.Proofs.OneLineNodes
import Mathlib.Data.List.Destutter

/-!
# Lines of an outline

Without its headings an outline has a line for each node of the store, depth first, and an empty one and
a title before the categories that wait (`Store.filter_outline_nodes`). A heading stands for each group
that begins among the children of a node (`Store.perm_filter_outline`). The line of a node tells its
depth and its kind, and its name if there is no blank in it (`OutlineLine.told_of_text_eq`). Where what an
outline shows stands on one line, its lines are those of its text (`Store.LaidOut`).
-/

set_option autoImplicit false

namespace DeclDoc

namespace OutlineLine

def isHeading : OutlineLine → Bool
  | .heading .. => true
  | .node .. | .blank | .unresolved => false

/-- The line of the node at a path. -/
def ofEntry (entry : StorePath × Node) : OutlineLine := .node entry.1.depth entry.2.info

end OutlineLine

namespace Node

open OutlineLine (isHeading ofEntry)

/-- The groups that begin among the children of a node, in the order of the source. -/
def groups (node : Node) : List String :=
  (node.childrenInSourceOrder.filterMap (·.info.group)).destutter (· ≠ ·)

/-- The headings of these groups. -/
def headings (entry : StorePath × Node) : List OutlineLine :=
  entry.2.groups.map (.heading (entry.1.depth + 1))

/-! ## Siblings -/

theorem filter_heading_nodes (depth : Nat) (current group : Option String) :
    (heading depth current group).filter (!·.isHeading) = [] := by
  unfold heading
  split
  · rfl
  · split <;> rfl

theorem filter_heading (depth : Nat) (current group : Option String) :
    (heading depth current group).filter isHeading = heading depth current group := by
  unfold heading
  split
  · rfl
  · split <;> rfl

theorem filter_headed_nodes (depth : Nat) (current : Option String) (blocks : List Block) :
    (headed depth current blocks).filter (!·.isHeading) =
      blocks.flatMap (·.lines.filter (!·.isHeading)) := by
  induction blocks generalizing current with
  | nil => rfl
  | cons block rest ih =>
    rw [headed_cons, List.filter_append, List.filter_append, filter_heading_nodes, List.nil_append, ih,
      List.flatMap_cons]

/-- The headings between siblings of these groups. -/
def openings (depth : Nat) (current : Option String) : List (Option String) → List OutlineLine
  | [] => []
  | group :: rest => heading depth current group ++ openings depth (group.or current) rest

theorem perm_filter_headed (depth : Nat) (current : Option String) (blocks : List Block) :
    ((headed depth current blocks).filter isHeading).Perm
      (openings depth current (blocks.map (·.child.info.group)) ++
        blocks.flatMap (·.lines.filter isHeading)) := by
  induction blocks generalizing current with
  | nil => exact .refl _
  | cons block rest ih =>
    rw [headed_cons, List.filter_append, List.filter_append, filter_heading, List.map_cons, openings,
      List.flatMap_cons, List.append_assoc, List.append_assoc]
    refine List.Perm.append_left _ (((ih _).append_left _).trans ?_)
    exact List.perm_append_comm_assoc ..

theorem openings_some (depth : Nat) (title : String) (groups : List (Option String)) :
    .heading depth title :: openings depth (some title) groups =
      ((groups.filterMap id).destutter' (· ≠ ·) title).map (.heading depth) := by
  induction groups generalizing title with
  | nil => rfl
  | cons group rest ih =>
    cases group with
    | none => exact ih title
    | some next =>
      rw [openings, heading, show (some next :: rest).filterMap id = next :: rest.filterMap id from rfl,
        List.destutter'_cons]
      by_cases h : title = next
      · rw [if_pos (congrArg some h), if_neg (not_not_intro h), List.nil_append, Option.some_or, ← h]
        exact ih title
      · rw [if_neg fun heq => h (Option.some.inj heq), if_pos h, List.map_cons]
        exact congrArg _ (ih next)

theorem openings_none (depth : Nat) (groups : List (Option String)) :
    openings depth none groups =
      ((groups.filterMap id).destutter (· ≠ ·)).map (.heading depth) := by
  induction groups with
  | nil => rfl
  | cons group rest ih =>
    cases group with
    | none => exact ih
    | some title => exact openings_some depth title rest

/-! ## Trees -/

/-- The lines of the nodes of a tree. -/
theorem filter_outline_nodes (path : StorePath) (node : Node) :
    (node.outline path.depth).filter (!·.isHeading) = (node.depthFirst path).map ofEntry := by
  induction node using Node.inductionOnChildren generalizing path with
  | step node ih =>
    rw [outline_eq, depthFirst_eq, List.map_cons, List.filter_cons_of_pos rfl, filter_headed_nodes,
      List.flatMap_map, List.map_flatMap]
    congr 1
    refine List.flatMap_congr fun child hchild => ?_
    rw [← ih child hchild, StorePath.depth_child]
    rfl

/-- The headings of a tree. -/
theorem perm_filter_outline (path : StorePath) (node : Node) :
    ((node.outline path.depth).filter isHeading).Perm ((node.depthFirst path).flatMap headings) := by
  induction node using Node.inductionOnChildren generalizing path with
  | step node ih =>
    have hopenings : openings (path.depth + 1) none
        ((node.childrenInSourceOrder.map (block (path.depth + 1))).map (·.child.info.group)) =
          headings (path, node) := by
      rw [openings_none, List.map_map, List.filterMap_map]
      rfl
    rw [outline_eq, depthFirst_eq, List.flatMap_cons, List.filter_cons_of_neg Bool.false_ne_true]
    refine (perm_filter_headed ..).trans ?_
    rw [hopenings, List.flatMap_map, List.flatMap_assoc]
    refine List.Perm.append_left _ (List.Perm.flatMap_left _ fun child hchild => ?_)
    have := ih child hchild (path.child child.key)
    rwa [StorePath.depth_child] at this

end Node

/-! ## Stores -/

namespace Store

open OutlineLine (isHeading ofEntry)

variable {store : Store}

/-- The lines of the nodes at the roots, then those of the categories that wait, with what stands before
them. -/
theorem filter_outline_nodes (store : Store) :
    store.outline.filter (!·.isHeading) = store.depthFirstRoots.map ofEntry ++
      if store.pending.isEmpty then []
      else .blank :: .unresolved :: store.depthFirstPending.map ofEntry := by
  rw [outline, List.filter_append, List.filter_flatMap, depthFirstRoots, List.map_flatMap]
  congr 1
  · exact List.flatMap_congr fun node _ => node.filter_outline_nodes ⟨.root node.key, []⟩
  · rw [OrderedMap.values, List.isEmpty_map, apply_ite (List.filter _)]
    refine if_congr Iff.rfl rfl ?_
    rw [List.filter_cons_of_pos rfl, List.filter_cons_of_pos rfl, List.flatMap_map,
      List.filter_flatMap, depthFirstPending, List.map_flatMap]
    congr 2
    exact List.flatMap_congr fun entry _ => entry.2.filter_outline_nodes ⟨.pending entry.1, []⟩

theorem perm_filter_outline (store : Store) :
    (store.outline.filter isHeading).Perm (store.depthFirst.flatMap Node.headings) := by
  have hpending : (if (OrderedMap.values store.pending).isEmpty then []
      else OutlineLine.blank :: .unresolved ::
        (OrderedMap.values store.pending).flatMap (Node.outline 1)).filter isHeading =
      store.pending.flatMap fun entry => (entry.2.outline 1).filter isHeading := by
    rw [OrderedMap.values, List.isEmpty_map]
    split
    · next h =>
      rw [List.isEmpty_iff.1 h]
      rfl
    · rw [List.filter_cons_of_neg Bool.false_ne_true, List.filter_cons_of_neg Bool.false_ne_true,
        List.flatMap_map, List.filter_flatMap]
  rw [outline, List.filter_append, List.filter_flatMap, hpending, depthFirst, List.flatMap_append,
    depthFirstRoots, depthFirstPending, List.flatMap_assoc, List.flatMap_assoc]
  refine List.Perm.append ?_ ?_
  · exact List.Perm.flatMap_left _ fun node _ => node.perm_filter_outline ⟨.root node.key, []⟩
  · exact List.Perm.flatMap_left _ fun entry _ =>
      entry.2.perm_filter_outline ⟨.pending entry.1, []⟩

theorem length_outline (store : Store) :
    store.outline.length = store.depthFirst.length +
      (store.depthFirst.map fun entry => entry.2.groups.length).sum +
        if store.pending.isEmpty then 0 else 2 := by
  have hnodes := congrArg List.length store.filter_outline_nodes
  have hheadings := store.perm_filter_outline.length_eq
  have htotal := List.length_eq_length_filter_add (l := store.outline) isHeading
  have hboth : store.depthFirst.length =
      store.depthFirstRoots.length + store.depthFirstPending.length := List.length_append
  rw [List.length_flatMap] at hheadings
  simp only [Node.headings, List.length_map] at hheadings
  rw [List.length_append, List.length_map] at hnodes
  split at hnodes
  · next h =>
    have hnone : store.depthFirstPending.length = 0 := by
      rw [depthFirstPending, List.isEmpty_iff.1 h]
      rfl
    rw [List.length_nil] at hnodes
    rw [if_pos h]
    omega
  · next h =>
    rw [List.length_cons, List.length_cons, List.length_map] at hnodes
    rw [if_neg h]
    omega

end Store

/-! ## Texts -/

theorem OneLine.getD_map {show' : String → String} {name : Option String}
    (h : ∀ text ∈ name, OneLine (show' text)) : OneLine ((name.map show').getD "") := by
  cases name with
  | none => exact (by decide : OneLine "")
  | some text => exact h text rfl

theorem Kind.oneLine_name (kind : Kind) : OneLine kind.name := by
  cases kind <;> decide

theorem NodeKey.oneLine_ofDeclaration (kind : Kind) (flavor : Option Flavor) {name : String}
    (h : OneLine name) : OneLine (ofDeclaration kind name flavor).name := by
  unfold ofDeclaration
  split
  · next flavor =>
    refine .append ?_ h
    cases flavor <;> decide
  · exact h

theorem NodeInfo.OneLine.displayName {info : NodeInfo} (h : info.OneLine) :
    DeclDoc.OneLine info.displayName := by
  have hcategory : DeclDoc.OneLine (info.baseClass.getD "?" ++ "(" ++ info.name ++ ")") := by
    refine .append (.append (.append ?_ (by decide)) h.name) (by decide)
    cases hbase : info.baseClass with
    | none => exact (by decide : DeclDoc.OneLine "?")
    | some name => exact h.baseClass name hbase
  unfold NodeInfo.displayName
  split
  · exact hcategory
  · exact hcategory
  · exact NodeKey.oneLine_ofDeclaration info.kind info.flavor h.name
  · exact h.name

theorem Kind.blank_notMem_name (kind : Kind) : ' ' ∉ kind.name.toList := by
  cases kind <;> decide

/-- Nothing, or a text that begins with a blank. -/
def IsSetOff (text : String) : Prop := ∀ c ∈ text.toList.head?, c = ' '

instance (text : String) : Decidable (IsSetOff text) :=
  Option.decidableForallMem text.toList.head?

namespace IsSetOff

variable {a b : String}

theorem append (ha : IsSetOff a) (hb : IsSetOff b) : IsSetOff (a ++ b) := by
  intro c hc
  rw [String.toList_append, List.head?_append] at hc
  rcases Option.or_eq_some_iff.1 hc with hc | ⟨-, hc⟩
  · exact ha c hc
  · exact hb c hc

theorem join {texts : List String} (h : ∀ text ∈ texts, IsSetOff text) :
    IsSetOff (String.join texts) := by
  induction texts with
  | nil => decide
  | cons text rest ih =>
    rw [List.forall_mem_cons] at h
    rw [String.join_cons]
    exact h.1.append (ih h.2)

theorem of_head? (h : a.toList.head? = some ' ') (text : String) : IsSetOff (a ++ text) := by
  intro c hc
  rw [String.toList_append, List.head?_append, h] at hc
  exact (Option.some.inj hc).symm

theorem getD_map {write : String → String} (h : ∀ text, IsSetOff (write text))
    (shown : Option String) : IsSetOff ((shown.map write).getD "") := by
  cases shown with
  | none => exact (by decide : IsSetOff "")
  | some text => exact h text

/-- A word ends where something is set off behind it. -/
theorem takeWhile_append {word : List Char} (hword : ' ' ∉ word) {text : String}
    (h : IsSetOff text) : (word ++ text.toList).takeWhile (· != ' ') = word := by
  have hall : ∀ c ∈ word, (c != ' ') = true := fun c hc =>
    bne_iff_ne.2 (ne_of_mem_of_not_mem hc hword)
  rw [List.takeWhile_append_of_pos hall]
  cases htext : text.toList with
  | nil => exact List.append_nil word
  | cons c rest =>
    obtain rfl : c = ' ' := h c (by rw [htext]; rfl)
    exact List.append_nil word

end IsSetOff

namespace OutlineLine

/-- What the line shows stands on one line. -/
def OneLine : OutlineLine → Prop
  | .node _ info => info.OneLine
  | .heading _ title => DeclDoc.OneLine title
  | .blank | .unresolved => True

theorem oneLine_indentation (depth : Nat) : DeclDoc.OneLine (indentation depth) := by
  rw [indentation, DeclDoc.OneLine.ofList_iff]
  intro hbreak
  have := List.eq_of_mem_replicate hbreak
  exact absurd this (by decide)

theorem oneLine_summary {info : NodeInfo} (h : info.OneLine) : DeclDoc.OneLine (summary info) := by
  refine DeclDoc.OneLine.join ?_
  simp only [List.forall_mem_cons]
  refine ⟨info.kind.oneLine_name, by decide, h.displayName, ?_, ?_, ?_, ?_, ?_, List.forall_mem_nil _⟩
  · exact .getD_map fun name hname => .append (by decide) (h.superclass name hname)
  · split
    · decide
    · exact ((DeclDoc.OneLine.append (by decide) (.intercalate (by decide) h.protocols))).append
        (by decide)
  · exact .getD_map fun name hname =>
      (DeclDoc.OneLine.append (by decide) (h.typeName name hname)).append (by decide)
  · split <;> decide
  · refine .getD_map fun text htext => .append (by decide) ?_
    obtain ⟨comment, hcomment, htext⟩ := Option.bind_eq_some_iff.1 htext
    exact h.shortDescription comment hcomment text htext

/-- The line of a node begins with two blanks for each level, and no more. -/
theorem blanks_node (depth : Nat) (info : NodeInfo) :
    ((node depth info).text.toList.takeWhile (· == ' ')).length = 2 * depth := by
  have hkind : ∃ c name, info.kind.name.toList = c :: name ∧ (c == ' ') = false := by
    cases info.kind <;> exact ⟨_, _, rfl, by decide⟩
  obtain ⟨c, name, hname, hc⟩ := hkind
  have hsummary : ∃ rest, (summary info).toList = c :: rest := by
    rw [summary, String.toList_join, List.flatMap_cons, hname]
    exact ⟨_, rfl⟩
  obtain ⟨rest, hrest⟩ := hsummary
  rw [text, indentation, String.toList_append, String.toList_ofList, hrest,
    List.takeWhile_append_of_pos fun b hb => beq_iff_eq.2 (List.eq_of_mem_replicate hb),
    List.takeWhile_cons, if_neg (Bool.eq_false_iff.1 hc), List.append_nil, List.length_replicate]

/-- On the line of a node stand its kind and its name, and all else is set off behind them. -/
theorem exists_details (info : NodeInfo) :
    ∃ details, IsSetOff details ∧
      summary info = info.kind.name ++ " " ++ info.displayName ++ details := by
  have hjoin (a b c : String) (rest : List String) :
      String.join (a :: b :: c :: rest) = a ++ b ++ c ++ String.join rest := by
    simp [String.append_assoc]
  refine ⟨_, .join ?_, hjoin ..⟩
  simp only [List.forall_mem_cons]
  refine ⟨?superclass, ?protocols, ?type, ?mark, ?description, List.forall_mem_nil _⟩
  case superclass | description => exact .getD_map (fun _ => .of_head? rfl _) _
  case protocols =>
    split
    · decide
    · rw [String.append_assoc]
      exact .of_head? rfl _
  case type =>
    refine .getD_map (fun type => ?_) _
    rw [String.append_assoc]
    exact .of_head? rfl _
  case mark => split <;> decide

/-- The line of a node tells its depth and its kind, and its name if there is no blank in it. -/
theorem told_of_text_eq {depth depth' : Nat} {info info' : NodeInfo}
    (h : (node depth info).text = (node depth' info').text) :
    depth = depth' ∧ info.kind = info'.kind ∧
      (' ' ∉ info.displayName.toList → ' ' ∉ info'.displayName.toList →
        info.displayName = info'.displayName) := by
  obtain ⟨details, hdetails, hsummary⟩ := exists_details info
  obtain ⟨details', hdetails', hsummary'⟩ := exists_details info'
  have hdepth : depth = depth' := by
    have hblanks := blanks_node depth info
    rw [h, blanks_node] at hblanks
    omega
  subst hdepth
  have hline := congrArg String.toList ((String.append_right_inj _).1 h)
  rw [hsummary, hsummary'] at hline
  simp only [String.toList_append, List.append_assoc] at hline
  have hword (info : NodeInfo) (details : String) :
      (info.kind.name.toList ++
          (" ".toList ++ (info.displayName.toList ++ details.toList))).takeWhile (· != ' ') =
        info.kind.name.toList := by
    have hbehind : IsSetOff (" " ++ (info.displayName ++ details)) := .of_head? rfl _
    have hends := hbehind.takeWhile_append info.kind.blank_notMem_name
    rwa [String.toList_append, String.toList_append] at hends
  have hkind : info.kind = info'.kind := by
    have hsame := congrArg (List.takeWhile (· != ' ')) hline
    rw [hword, hword] at hsame
    have hfound := congrArg Kind.ofName? (String.toList_injective hsame)
    rw [Kind.ofName?_name, Kind.ofName?_name] at hfound
    exact Option.some.inj hfound
  refine ⟨rfl, hkind, fun hblank hblank' => ?_⟩
  rw [hkind] at hline
  have hbehind := List.append_cancel_left (List.append_cancel_left hline)
  have hsame := congrArg (List.takeWhile (· != ' ')) hbehind
  rw [hdetails.takeWhile_append hblank, hdetails'.takeWhile_append hblank'] at hsame
  exact String.toList_injective hsame

theorem OneLine.text {line : OutlineLine} (h : line.OneLine) : DeclDoc.OneLine line.text := by
  cases line with
  | node depth info => exact (oneLine_indentation depth).append (oneLine_summary h)
  | heading depth title =>
    exact ((oneLine_indentation depth).append (by decide)).append h
  | blank => exact (by decide : DeclDoc.OneLine "")
  | unresolved => exact (by decide : DeclDoc.OneLine "unresolved:")

end OutlineLine

/-- Lines that end with a line feed each are cut again. -/
theorem splitOn_lines {lines : List (List Char)} (h : ∀ line ∈ lines, '\n' ∉ line) :
    (lines.flatMap (· ++ ['\n'])).splitOn '\n' = lines ++ [[]] := by
  induction lines with
  | nil => rfl
  | cons line rest ih =>
    have hline : ∀ c ∈ line, (c == '\n') = false := fun c hc =>
      beq_false_of_ne fun heq => h line List.mem_cons_self (heq ▸ hc)
    rw [List.flatMap_cons, List.append_assoc, List.singleton_append, List.splitOn,
      List.splitOnP_append_cons_of_forall_mem hline '\n' rfl, List.cons_append]
    exact congrArg _ (ih fun l hl => h l (List.mem_cons_of_mem _ hl))

namespace Store

open OutlineLine (isHeading ofEntry indentation)

variable {store : Store}

theorem toList_outlineText (store : Store) :
    store.outlineText.toList = (store.outline.map (·.text.toList)).flatMap (· ++ ['\n']) := by
  rw [outlineText, String.toList_join, List.flatMap_map, List.flatMap_map]
  simp

theorem AllOneLine.of_mem_outline (h : store.AllOneLine) :
    ∀ line ∈ store.outline, line.OneLine := by
  have hentry : ∀ entry ∈ store.depthFirst, entry.2.info.OneLine := fun entry he =>
    h.oneLine entry.1 _ (infoAt?_of_locate? (h.keyed.locate?_of_mem_depthFirst he))
  intro line hline
  by_cases hheading : line.isHeading = true
  · have hmem := store.perm_filter_outline.mem_iff.1 (List.mem_filter.2 ⟨hline, hheading⟩)
    obtain ⟨⟨path, node⟩, he, hmem⟩ := List.mem_flatMap.1 hmem
    obtain ⟨title, htitle, rfl⟩ := List.mem_map.1 hmem
    obtain ⟨child, hchild, hgroup⟩ :=
      List.mem_filterMap.1 ((List.destutter_sublist ..).subset htitle)
    have hplace := h.keyed.locate?_child (h.keyed.locate?_of_mem_depthFirst he) hchild
    exact (h.oneLine _ _ (infoAt?_of_locate? hplace)).group title hgroup
  · have hmem : line ∈ store.outline.filter (!·.isHeading) :=
      List.mem_filter.2 ⟨hline, by simpa using hheading⟩
    rw [filter_outline_nodes, List.mem_append] at hmem
    rcases hmem with hmem | hmem
    · obtain ⟨entry, he, rfl⟩ := List.mem_map.1 hmem
      exact hentry entry (List.mem_append_left _ he)
    split at hmem
    · cases hmem
    rcases List.mem_cons.1 hmem with rfl | hmem
    · trivial
    rcases List.mem_cons.1 hmem with rfl | hmem
    · trivial
    · obtain ⟨entry, he, rfl⟩ := List.mem_map.1 hmem
      exact hentry entry (List.mem_append_right _ he)

/-- How an outline is laid out: its text has the lines of the outline, each ended by a line feed. Among
them is one for every node, and they stand depth first, two blanks to the right for each level; the
categories that wait stand behind an empty line and a title. All other lines are headings, one for
each group that begins among the children of a node. Behind the blanks of a node's line stand its kind
and its name, so equal lines are of one depth and one kind, and of one name if there is no blank in it. -/
structure LaidOut (store : Store) : Prop where
  lines : store.outlineText.toList.splitOn '\n' = store.outline.map (·.text.toList) ++ [[]]
  once : (store.depthFirst.map Prod.fst).Nodup
  all : ∀ path node, (path, node) ∈ store.depthFirst ↔ store.locate? path = some node
  nodes : store.outline.filter (!·.isHeading) = store.depthFirstRoots.map ofEntry ++
    if store.pending.isEmpty then []
    else .blank :: .unresolved :: store.depthFirstPending.map ofEntry
  blanks : ∀ entry ∈ store.depthFirst,
    ((ofEntry entry).text.toList.takeWhile (· == ' ')).length = 2 * entry.1.depth
  shown : ∀ entry ∈ store.depthFirst, ∃ details, IsSetOff details ∧
    (ofEntry entry).text = indentation entry.1.depth ++
      (entry.2.info.kind.name ++ " " ++ entry.2.info.displayName ++ details)
  told : ∀ a ∈ store.depthFirst, ∀ b ∈ store.depthFirst, (ofEntry a).text = (ofEntry b).text →
    a.1.depth = b.1.depth ∧ a.2.info.kind = b.2.info.kind ∧
      (' ' ∉ a.2.info.displayName.toList → ' ' ∉ b.2.info.displayName.toList →
        a.2.info.displayName = b.2.info.displayName)
  headings : (store.outline.filter isHeading).Perm (store.depthFirst.flatMap Node.headings)
  length : store.outline.length = store.depthFirst.length +
    (store.depthFirst.map fun entry => entry.2.groups.length).sum +
      if store.pending.isEmpty then 0 else 2

theorem AllOneLine.laidOut (h : store.AllOneLine) : store.LaidOut where
  lines := by
    rw [toList_outlineText]
    refine splitOn_lines fun text htext => ?_
    obtain ⟨line, hline, rfl⟩ := List.mem_map.1 htext
    exact (h.of_mem_outline line hline).text
  once := h.keyed.nodup_depthFirst
  all _ _ := h.keyed.mem_depthFirst_iff
  nodes := store.filter_outline_nodes
  blanks entry _ := OutlineLine.blanks_node entry.1.depth entry.2.info
  shown entry _ := by
    obtain ⟨details, hdetails, hsummary⟩ := OutlineLine.exists_details entry.2.info
    exact ⟨details, hdetails, congrArg (indentation entry.1.depth ++ ·) hsummary⟩
  told a _ b _ h := OutlineLine.told_of_text_eq h
  headings := store.perm_filter_outline
  length := store.length_outline

/-- Whatever the built-in scanner reads, under whatever settings and in either dialect of comments, the
outline of the store has one line for each node, and what it shows of a node holds no line feed. -/
theorem laidOut_afterTurns {turns : List Turn} (h : ∀ turn ∈ turns, turn.IsBuiltIn) :
    (afterTurns turns).LaidOut ∧
      ∀ path node, (afterTurns turns).locate? path = some node → node.info.OneLine := by
  have hall := allOneLine_afterTurns h
  exact ⟨hall.laidOut, fun path node hnode => hall.oneLine path _ (infoAt?_of_locate? hnode)⟩

/-- A class with a group, and a category whose class is not known, in the two dialects. -/
def unresolvedTurns : List Turn :=
  [.read ⟨{}, "A.h",
      ("/** A class. */\n@interface C\n/// @name G\n- (unsigned\n  long)a;\n@end").toList⟩,
    .read ⟨{ dialect := .plain }, "B.h", "@interface D (More)\n- (void)b;\n@end".toList⟩,
    .finish {}]

theorem laidOut_unresolvedTurns :
    (∀ turn ∈ unresolvedTurns, turn.IsBuiltIn) ∧
      (afterTurns unresolvedTurns).LaidOut ∧
      (∀ path node, (afterTurns unresolvedTurns).locate? path = some node → node.info.OneLine) ∧
      (afterTurns unresolvedTurns).depthFirst.length = 4 ∧
      (afterTurns unresolvedTurns).pending.isEmpty = false := by
  have hturns : ∀ turn ∈ unresolvedTurns, turn.IsBuiltIn := by
    simp only [unresolvedTurns, List.forall_mem_cons]
    exact ⟨⟨rfl, .markup, rfl⟩, ⟨rfl, .plain, rfl⟩, trivial, List.forall_mem_nil _⟩
  have hpaths := (allOneLine_afterTurns hturns).keyed.perm_depthFirst.length_eq
  rw [List.length_map] at hpaths
  obtain ⟨hlaid, hlines⟩ := laidOut_afterTurns hturns
  refine ⟨hturns, hlaid, hlines, hpaths.trans ?_, ?_⟩
  · decide +kernel
  · decide +kernel

end Store

end DeclDoc
