import DeclDoc.Node.Merge
import DeclDoc.Proofs.Ordered

/-!
# What merged declarations say

`info.Summarizes declared`: `info` says what the declarations `declared` of one thing, in their
order, say together — the first one that says something wherever there is room for one value, all of
them where there is a set, the earliest location.

* `Summarizes.merge`: what two nodes summarize, the merged node summarizes one after the other.
* `Summarizes.alike_of_perm`: in another order the same declarations leave the sets, the location,
  and what is said at all unchanged. `Summarizes.agrees_of_perm`: where no two of them say different
  things, everything but the order of attributes.
* `merge_assoc`: of three declarations it does not matter which two are put together first.
-/

set_option autoImplicit false

namespace DeclDoc

/-! ## First values -/

section
variable {α β : Type}

theorem isSome_findSome?_of_perm {f : α → Option β} {xs ys : List α} (h : xs.Perm ys) :
    (xs.findSome? f).isSome = (ys.findSome? f).isSome := by
  rw [Bool.eq_iff_iff, List.findSome?_isSome_iff, List.findSome?_isSome_iff]
  simp only [h.mem_iff]

/-- Where no two members disagree, the first value is that of any order. -/
theorem findSome?_of_perm {f : α → Option β} {xs ys : List α} (h : xs.Perm ys)
    (hf : ∀ x ∈ xs, ∀ y ∈ xs, ∀ a b, f x = some a → f y = some b → a = b) :
    xs.findSome? f = ys.findSome? f := by
  have hsome := isSome_findSome?_of_perm (f := f) h
  cases hx : xs.findSome? f with
  | none =>
    rw [hx] at hsome
    exact (Option.not_isSome_iff_eq_none.1 (by simp [← hsome])).symm
  | some a =>
    rw [hx] at hsome
    obtain ⟨b, hy⟩ := Option.isSome_iff_exists.1 hsome.symm
    obtain ⟨x, hxs, hxa⟩ := List.exists_of_findSome?_eq_some hx
    obtain ⟨y, hys, hyb⟩ := List.exists_of_findSome?_eq_some hy
    rw [hy, hf x hxs y (h.mem_iff.2 hys) a b hxa hyb]

end

namespace Location

theorem earlier_eq_or (a b : Location) : a.earlier b = a ∨ a.earlier b = b := by
  unfold earlier
  split
  · exact .inr rfl
  · exact .inl rfl

theorem isLE_earlier_left (a b : Location) : (compare (a.earlier b) a).isLE = true := by
  unfold earlier
  split
  · next h => simp [h]
  · simp [Std.ReflOrd.compare_self]

theorem isLE_earlier_right (a b : Location) : (compare (a.earlier b) b).isLE = true := by
  unfold earlier
  split
  · simp [Std.ReflOrd.compare_self]
  · next h =>
    rw [Std.OrientedOrd.eq_swap]
    cases hba : compare b a <;> simp_all

theorem eq_of_isLE {a b : Location} (hab : (compare a b).isLE = true)
    (hba : (compare b a).isLE = true) : a = b :=
  Std.LawfulEqOrd.eq_of_compare (Std.OrientedCmp.isLE_antisymm hab hba)

theorem isLE_earlier_iff {a b c : Location} :
    (compare c (a.earlier b)).isLE = true ↔
      (compare c a).isLE = true ∧ (compare c b).isLE = true := by
  refine ⟨fun h => ⟨?_, ?_⟩, fun ⟨ha, hb⟩ => ?_⟩
  · exact Std.TransCmp.isLE_trans h (isLE_earlier_left a b)
  · exact Std.TransCmp.isLE_trans h (isLE_earlier_right a b)
  · rcases earlier_eq_or a b with h | h <;> rwa [h]

theorem earlier_assoc (a b c : Location) :
    a.earlier (b.earlier c) = (a.earlier b).earlier c := by
  have hab := isLE_earlier_left (a.earlier b) c
  have hbc := isLE_earlier_right a (b.earlier c)
  refine eq_of_isLE ?_ ?_
  · simp only [isLE_earlier_iff, isLE_earlier_left, true_and]
    exact ⟨Std.TransCmp.isLE_trans hbc (isLE_earlier_left b c),
      Std.TransCmp.isLE_trans hbc (isLE_earlier_right b c)⟩
  · simp only [isLE_earlier_iff, isLE_earlier_right, and_true]
    exact ⟨Std.TransCmp.isLE_trans hab (isLE_earlier_left a b),
      Std.TransCmp.isLE_trans hab (isLE_earlier_right a b)⟩

end Location

namespace NodeInfo

/-! ## Attributes -/

theorem mem_mergeAttributes {name : String} {current incoming : List String} :
    name ∈ mergeAttributes current incoming ↔ name ∈ current ∨ name ∈ incoming := by
  induction incoming generalizing current with
  | nil => simp [mergeAttributes]
  | cons other rest ih =>
    rw [mergeAttributes, ih]
    split
    · next h =>
      have : other ∈ current := by simpa using h
      grind
    · grind

theorem nodup_mergeAttributes {current : List String} (incoming : List String)
    (h : current.Nodup) : (mergeAttributes current incoming).Nodup := by
  induction incoming generalizing current with
  | nil => exact h
  | cons other rest ih =>
    rw [mergeAttributes]
    split
    · exact ih h
    · next hnot =>
      refine ih (List.nodup_append.2 ⟨h, by simp, ?_⟩)
      intro a ha b hb
      rintro rfl
      cases List.mem_singleton.1 hb
      simp [ha] at hnot

/-! ## Locations -/

theorem location_merge {a b : NodeInfo} (ha : a.location ∈ a.declaredIn)
    (hb : b.location ∈ b.declaredIn) : (a.merge b).location ∈ (a.merge b).declaredIn := by
  show a.location.earlier b.location ∈ OrderedSet.union a.declaredIn b.declaredIn
  rw [OrderedSet.mem_union]
  rcases Location.earlier_eq_or a.location b.location with h | h <;> rw [h]
  · exact .inl ha
  · exact .inr hb

theorem earliest_merge {a b : NodeInfo}
    (ha : ∀ site ∈ a.declaredIn, (compare a.location site).isLE = true)
    (hb : ∀ site ∈ b.declaredIn, (compare b.location site).isLE = true) :
    ∀ site ∈ (a.merge b).declaredIn, (compare (a.merge b).location site).isLE = true := by
  intro site hsite
  rcases OrderedSet.mem_union.1 hsite with h | h
  · exact Std.TransCmp.isLE_trans (Location.isLE_earlier_left ..) (ha site h)
  · exact Std.TransCmp.isLE_trans (Location.isLE_earlier_right ..) (hb site h)

/-! ## Summaries -/

/-- A comment that says something, if there is one among the declarations, else the first one. -/
def firstComment (declared : List NodeInfo) : Option Comment :=
  ((declared.find? isDocumented).bind comment).or (declared.findSome? comment)

def firstSignature (declared : List NodeInfo) : List Fragment :=
  ((declared.map signature).find? fun signature => !signature.isEmpty).getD []

/-- The node says what the declarations say together, one after the other. -/
structure Summarizes (info : NodeInfo) (declared : List NodeInfo) : Prop where
  key : ∀ d ∈ declared, d.kind = info.kind ∧ d.name = info.name ∧ d.flavor = info.flavor
  declaredIn : ∀ site, site ∈ info.declaredIn ↔ ∃ d ∈ declared, site ∈ d.declaredIn
  ascending : OrderedSet.Ascending info.declaredIn
  location : info.location ∈ info.declaredIn
  earliest : ∀ site ∈ info.declaredIn, (compare info.location site).isLE = true
  comment : info.comment = firstComment declared
  signature : info.signature = firstSignature declared
  typeName : info.typeName = declared.findSome? NodeInfo.typeName
  superclass : info.superclass = declared.findSome? NodeInfo.superclass
  baseClass : info.baseClass = declared.findSome? NodeInfo.baseClass
  group : info.group = declared.findSome? NodeInfo.group
  resolution : info.resolution = declared.findSome? NodeInfo.resolution
  parent : info.parent = declared.findSome? NodeInfo.parent
  protocols : ∀ name, name ∈ info.protocols ↔ ∃ d ∈ declared, name ∈ d.protocols
  protocolsAscending : OrderedSet.Ascending info.protocols
  attributes : ∀ name, name ∈ info.attributes ↔ ∃ d ∈ declared, name ∈ d.attributes
  attributesNodup : (∀ d ∈ declared, d.attributes.Nodup) → info.attributes.Nodup

theorem isDocumented_iff {info : NodeInfo} :
    info.isDocumented = true ↔ ∃ comment, info.comment = some comment ∧ comment.isEmpty = false := by
  simp [isDocumented, Option.any_eq_true]

theorem firstComment_of_documented {declared : List NodeInfo} {d : NodeInfo}
    (h : declared.find? isDocumented = some d) : firstComment declared = d.comment := by
  obtain ⟨comment, hd, -⟩ := isDocumented_iff.1 (List.find?_some h)
  simp [firstComment, h, hd]

theorem firstComment_of_undocumented {declared : List NodeInfo}
    (h : declared.find? isDocumented = none) :
    firstComment declared = declared.findSome? comment := by
  simp [firstComment, h]

theorem firstComment_append (xs ys : List NodeInfo) :
    firstComment (xs ++ ys) =
      if (xs.find? isDocumented).isNone && (ys.find? isDocumented).isSome then firstComment ys
      else (firstComment xs).or (firstComment ys) := by
  cases hx : xs.find? isDocumented with
  | some d =>
    obtain ⟨comment, hd, -⟩ := isDocumented_iff.1 (List.find?_some hx)
    have hxy : (xs ++ ys).find? isDocumented = some d := by simp [List.find?_append, hx]
    simp [firstComment_of_documented hxy, firstComment_of_documented hx, hd]
  | none =>
    cases hy : ys.find? isDocumented with
    | some d =>
      have hxy : (xs ++ ys).find? isDocumented = some d := by simp [List.find?_append, hx, hy]
      simp [firstComment_of_documented hxy, firstComment_of_documented hy]
    | none =>
      have hxy : (xs ++ ys).find? isDocumented = none := by simp [List.find?_append, hx, hy]
      simp [firstComment_of_undocumented hxy, firstComment_of_undocumented hx,
        firstComment_of_undocumented hy, List.findSome?_append]

theorem firstSignature_append (xs ys : List NodeInfo) :
    firstSignature (xs ++ ys) =
      if (firstSignature xs).isEmpty then firstSignature ys else firstSignature xs := by
  unfold firstSignature
  rw [List.map_append, List.find?_append]
  cases h : (xs.map signature).find? fun signature => !signature.isEmpty with
  | none => simp
  | some signature =>
    have : signature.isEmpty = false := by simpa using List.find?_some h
    simp [this]

namespace Summarizes

variable {a b : NodeInfo} {as bs : List NodeInfo}

/-- A summary is documented when one of the declarations is. -/
theorem isDocumented_eq (h : a.Summarizes as) : a.isDocumented = as.any isDocumented := by
  rw [Bool.eq_iff_iff, List.any_eq_true]
  cases hf : as.find? isDocumented with
  | some d =>
    have hd := List.find?_some hf
    refine iff_of_true ?_ ⟨d, List.mem_of_find?_eq_some hf, hd⟩
    rw [isDocumented_iff, h.comment, firstComment_of_documented hf]
    exact isDocumented_iff.1 hd
  | none =>
    have hnone := List.find?_eq_none.1 hf
    refine iff_of_false ?_ fun ⟨d, hd, hdoc⟩ => hnone d hd hdoc
    intro ha
    obtain ⟨comment, hc, hsays⟩ := isDocumented_iff.1 ha
    rw [h.comment, firstComment_of_undocumented hf] at hc
    obtain ⟨d, hd, hdc⟩ := List.exists_of_findSome?_eq_some hc
    exact hnone d hd (isDocumented_iff.2 ⟨comment, hdc, hsays⟩)

/-- The merged comment of two summaries is that of the declarations one after the other. -/
theorem mergeComment_eq (ha : a.Summarizes as) (hb : b.Summarizes bs) :
    a.mergeComment b = firstComment (as ++ bs) := by
  rw [mergeComment, firstComment_append, ← ha.comment, ← hb.comment, ha.isDocumented_eq,
    hb.isDocumented_eq]
  simp [List.isSome_find?]

/-- What two nodes of one thing summarize, the merged node summarizes one after the other. -/
theorem merge (ha : a.Summarizes as) (hb : b.Summarizes bs)
    (hkey : b.kind = a.kind ∧ b.name = a.name ∧ b.flavor = a.flavor) :
    (a.merge b).Summarizes (as ++ bs) where
  key d hd := by
    rcases List.mem_append.1 hd with hd | hd
    · exact ha.key d hd
    · obtain ⟨h1, h2, h3⟩ := hb.key d hd
      exact ⟨h1.trans hkey.1, h2.trans hkey.2.1, h3.trans hkey.2.2⟩
  declaredIn site := by
    simp only [NodeInfo.merge, OrderedSet.mem_union, ha.declaredIn, hb.declaredIn]
    simp only [List.mem_append, or_and_right, exists_or]
  ascending := OrderedSet.ascending_union _ ha.ascending
  location := location_merge ha.location hb.location
  earliest := earliest_merge ha.earliest hb.earliest
  comment := mergeComment_eq ha hb
  signature := by
    rw [firstSignature_append, ← ha.signature, ← hb.signature]
    rfl
  typeName := by rw [List.findSome?_append, ← ha.typeName, ← hb.typeName]; rfl
  superclass := by rw [List.findSome?_append, ← ha.superclass, ← hb.superclass]; rfl
  baseClass := by rw [List.findSome?_append, ← ha.baseClass, ← hb.baseClass]; rfl
  group := by rw [List.findSome?_append, ← ha.group, ← hb.group]; rfl
  resolution := by rw [List.findSome?_append, ← ha.resolution, ← hb.resolution]; rfl
  parent := by rw [List.findSome?_append, ← ha.parent, ← hb.parent]; rfl
  protocols name := by
    simp only [NodeInfo.merge, OrderedSet.mem_union, ha.protocols, hb.protocols]
    simp only [List.mem_append, or_and_right, exists_or]
  protocolsAscending := OrderedSet.ascending_union _ ha.protocolsAscending
  attributes name := by
    simp only [NodeInfo.merge, mem_mergeAttributes, ha.attributes, hb.attributes]
    simp only [List.mem_append, or_and_right, exists_or]
  attributesNodup h :=
    nodup_mergeAttributes _ (ha.attributesNodup fun d hd => h d (List.mem_append_left _ hd))

theorem nonempty (h : a.Summarizes as) : ∃ d, d ∈ as := by
  obtain ⟨d, hd, -⟩ := (h.declaredIn _).1 h.location
  exact ⟨d, hd⟩

end Summarizes

/-! ## Other orders -/

/-- Two nodes say the same as far as it does not matter which declaration came first. -/
structure Alike (a b : NodeInfo) : Prop where
  kind : a.kind = b.kind
  name : a.name = b.name
  flavor : a.flavor = b.flavor
  location : a.location = b.location
  declaredIn : a.declaredIn = b.declaredIn
  protocols : a.protocols = b.protocols
  attributes : ∀ name, name ∈ a.attributes ↔ name ∈ b.attributes
  parent : a.parent = b.parent
  resolution : a.resolution = b.resolution
  isDocumented : a.isDocumented = b.isDocumented
  comment : a.comment.isSome = b.comment.isSome
  signature : a.signature.isEmpty = b.signature.isEmpty
  typeName : a.typeName.isSome = b.typeName.isSome
  superclass : a.superclass.isSome = b.superclass.isSome
  baseClass : a.baseClass.isSome = b.baseClass.isSome
  group : a.group.isSome = b.group.isSome

/-- Two nodes say the same, but for the order of attributes and how often each is listed. -/
structure Agrees (a b : NodeInfo) : Prop where
  eq : a = { b with attributes := a.attributes }
  attributes : ∀ name, name ∈ a.attributes ↔ name ∈ b.attributes

/-- Where two declarations both say something of which a node keeps one value, they say the same. -/
structure Consistent (a b : NodeInfo) : Prop where
  comment : ∀ x y, a.comment = some x → b.comment = some y → x = y
  signature : a.signature ≠ [] → b.signature ≠ [] → a.signature = b.signature
  typeName : ∀ x y, a.typeName = some x → b.typeName = some y → x = y
  superclass : ∀ x y, a.superclass = some x → b.superclass = some y → x = y
  baseClass : ∀ x y, a.baseClass = some x → b.baseClass = some y → x = y
  group : ∀ x y, a.group = some x → b.group = some y → x = y

theorem isSome_firstComment (declared : List NodeInfo) :
    (firstComment declared).isSome = (declared.findSome? comment).isSome := by
  cases h : declared.find? isDocumented with
  | none => rw [firstComment_of_undocumented h]
  | some d =>
    obtain ⟨x, hx, -⟩ := isDocumented_iff.1 (List.find?_some h)
    rw [firstComment_of_documented h, hx, Option.isSome_some, eq_comm,
      List.findSome?_isSome_iff]
    exact ⟨d, List.mem_of_find?_eq_some h, by simp [hx]⟩

/-- A summary's comment is that of one of the declarations. -/
theorem exists_of_firstComment {declared : List NodeInfo} {x : Comment}
    (h : firstComment declared = some x) : ∃ d ∈ declared, d.comment = some x := by
  cases hf : declared.find? isDocumented with
  | none =>
    rw [firstComment_of_undocumented hf] at h
    exact List.exists_of_findSome?_eq_some h
  | some d =>
    rw [firstComment_of_documented hf] at h
    exact ⟨d, List.mem_of_find?_eq_some hf, h⟩

theorem isEmpty_firstSignature (declared : List NodeInfo) :
    (firstSignature declared).isEmpty = declared.all fun d => d.signature.isEmpty := by
  unfold firstSignature
  cases h : (declared.map signature).find? fun signature => !signature.isEmpty with
  | none =>
    rw [List.find?_eq_none] at h
    simpa using h
  | some x =>
    have hx : x.isEmpty = false := by simpa using List.find?_some h
    obtain ⟨d, hd, rfl⟩ := List.mem_map.1 (List.mem_of_find?_eq_some h)
    rw [Option.getD_some, hx, eq_comm, List.all_eq_false]
    exact ⟨d, hd, by simp [hx]⟩

/-- A summary's signature that is not empty is that of one of the declarations. -/
theorem exists_of_firstSignature {declared : List NodeInfo} (h : firstSignature declared ≠ []) :
    ∃ d ∈ declared, d.signature = firstSignature declared := by
  unfold firstSignature at h ⊢
  cases hf : (declared.map signature).find? fun signature => !signature.isEmpty with
  | none => simp [hf] at h
  | some x => simpa using List.mem_of_find?_eq_some hf

namespace Summarizes

variable {a b : NodeInfo} {as bs : List NodeInfo}

/-- The same declarations in another order. -/
theorem alike_of_perm (ha : a.Summarizes as) (hb : b.Summarizes bs) (h : as.Perm bs)
    (hparent : ∀ d ∈ as, ∀ e ∈ as, d.parent = e.parent)
    (hresolution : ∀ d ∈ as, ∀ e ∈ as, d.resolution = e.resolution) : a.Alike b := by
  obtain ⟨d, hd⟩ := ha.nonempty
  have hka := ha.key d hd
  have hkb := hb.key d (h.mem_iff.1 hd)
  have hsites : a.declaredIn = b.declaredIn :=
    OrderedSet.eq_of_mem_iff ha.ascending hb.ascending fun site => by
      simp only [ha.declaredIn, hb.declaredIn, h.mem_iff]
  exact {
    kind := hka.1.symm.trans hkb.1
    name := hka.2.1.symm.trans hkb.2.1
    flavor := hka.2.2.symm.trans hkb.2.2
    location :=
      Location.eq_of_isLE (ha.earliest _ (hsites ▸ hb.location)) (hb.earliest _ (hsites ▸ ha.location))
    declaredIn := hsites
    protocols := OrderedSet.eq_of_mem_iff ha.protocolsAscending hb.protocolsAscending fun name => by
      simp only [ha.protocols, hb.protocols, h.mem_iff]
    attributes := fun name => by simp only [ha.attributes, hb.attributes, h.mem_iff]
    parent := by
      rw [ha.parent, hb.parent]
      exact findSome?_of_perm h fun d hd e he x y hx hy => by
        simpa [hx, hy] using hparent d hd e he
    resolution := by
      rw [ha.resolution, hb.resolution]
      exact findSome?_of_perm h fun d hd e he x y hx hy => by
        simpa [hx, hy] using hresolution d hd e he
    isDocumented := by
      rw [ha.isDocumented_eq, hb.isDocumented_eq, Bool.eq_iff_iff, List.any_eq_true,
        List.any_eq_true]
      simp only [h.mem_iff]
    comment := by
      rw [ha.comment, hb.comment, isSome_firstComment, isSome_firstComment]
      exact isSome_findSome?_of_perm h
    signature := by
      rw [ha.signature, hb.signature, isEmpty_firstSignature, isEmpty_firstSignature,
        Bool.eq_iff_iff, List.all_eq_true, List.all_eq_true]
      simp only [h.mem_iff]
    typeName := by rw [ha.typeName, hb.typeName]; exact isSome_findSome?_of_perm h
    superclass := by rw [ha.superclass, hb.superclass]; exact isSome_findSome?_of_perm h
    baseClass := by rw [ha.baseClass, hb.baseClass]; exact isSome_findSome?_of_perm h
    group := by rw [ha.group, hb.group]; exact isSome_findSome?_of_perm h }

/-- Consistent declarations have one comment to give. -/
theorem comment_eq_of_perm (ha : a.Summarizes as) (hb : b.Summarizes bs) (h : as.Perm bs)
    (hsome : a.comment.isSome = b.comment.isSome)
    (hc : ∀ d ∈ as, ∀ e ∈ as, d.Consistent e) : a.comment = b.comment := by
  cases hac : a.comment with
  | none => exact (Option.not_isSome_iff_eq_none.1 (by simp [← hsome, hac])).symm
  | some x =>
    rw [hac] at hsome
    obtain ⟨y, hy⟩ := Option.isSome_iff_exists.1 hsome.symm
    obtain ⟨d, hd, hdx⟩ := exists_of_firstComment (ha.comment.symm.trans hac)
    obtain ⟨e, he, hey⟩ := exists_of_firstComment (hb.comment.symm.trans hy)
    rw [hy, (hc d hd e (h.mem_iff.2 he)).comment x y hdx hey]

/-- Consistent declarations have one signature to give. -/
theorem signature_eq_of_perm (ha : a.Summarizes as) (hb : b.Summarizes bs) (h : as.Perm bs)
    (hempty : a.signature.isEmpty = b.signature.isEmpty)
    (hc : ∀ d ∈ as, ∀ e ∈ as, d.Consistent e) : a.signature = b.signature := by
  by_cases hnil : a.signature = []
  · rw [hnil] at hempty ⊢
    exact (List.isEmpty_iff.1 hempty.symm).symm
  · have hnil' : b.signature ≠ [] := fun hb' => hnil (by simpa [hb'] using hempty)
    obtain ⟨d, hd, hda⟩ := exists_of_firstSignature (ha.signature ▸ hnil)
    obtain ⟨e, he, heb⟩ := exists_of_firstSignature (hb.signature ▸ hnil')
    rw [← ha.signature] at hda
    rw [← hb.signature] at heb
    rw [← hda, ← heb]
    exact (hc d hd e (h.mem_iff.2 he)).signature (hda ▸ hnil) (heb ▸ hnil')

/-- Consistent declarations say the same in any order, but for their attributes. -/
theorem agrees_of_perm (ha : a.Summarizes as) (hb : b.Summarizes bs) (h : as.Perm bs)
    (hparent : ∀ d ∈ as, ∀ e ∈ as, d.parent = e.parent)
    (hresolution : ∀ d ∈ as, ∀ e ∈ as, d.resolution = e.resolution)
    (hc : ∀ d ∈ as, ∀ e ∈ as, d.Consistent e) : a.Agrees b := by
  have hab := ha.alike_of_perm hb h hparent hresolution
  have hcomment := ha.comment_eq_of_perm hb h hab.comment hc
  have hsignature := ha.signature_eq_of_perm hb h hab.signature hc
  have htype : a.typeName = b.typeName := by
    rw [ha.typeName, hb.typeName]
    exact findSome?_of_perm h fun d hd e he => (hc d hd e he).typeName
  have hsuper : a.superclass = b.superclass := by
    rw [ha.superclass, hb.superclass]
    exact findSome?_of_perm h fun d hd e he => (hc d hd e he).superclass
  have hbase : a.baseClass = b.baseClass := by
    rw [ha.baseClass, hb.baseClass]
    exact findSome?_of_perm h fun d hd e he => (hc d hd e he).baseClass
  have hgroup : a.group = b.group := by
    rw [ha.group, hb.group]
    exact findSome?_of_perm h fun d hd e he => (hc d hd e he).group
  refine ⟨?_, hab.attributes⟩
  obtain ⟨⟩ := a
  simp only [NodeInfo.mk.injEq]
  exact ⟨hab.kind, hab.name, hab.location, hab.declaredIn, hcomment, hsignature, hab.flavor, htype,
    hsuper, hab.protocols, hbase, trivial, hgroup, hab.resolution, hab.parent⟩

/-- Where no declaration lists an attribute twice, only the order of attributes differs. -/
theorem attributes_perm (ha : a.Summarizes as) (hb : b.Summarizes bs) (h : as.Perm bs)
    (hnodup : ∀ d ∈ as, d.attributes.Nodup) : a.attributes.Perm b.attributes := by
  refine (List.perm_ext_iff_of_nodup (ha.attributesNodup hnodup)
    (hb.attributesNodup fun d hd => hnodup d (h.mem_iff.2 hd))).2 fun name => ?_
  simp only [ha.attributes, hb.attributes, h.mem_iff]

end Summarizes

/-! ## Three declarations -/

theorem mergeAttributes_append (current more rest : List String) :
    mergeAttributes current (more ++ rest) = mergeAttributes (mergeAttributes current more) rest := by
  induction more generalizing current with
  | nil => rfl
  | cons name more ih => exact ih _

theorem mergeAttributes_assoc (a b c : List String) :
    mergeAttributes a (mergeAttributes b c) = mergeAttributes (mergeAttributes a b) c := by
  induction c generalizing b with
  | nil => rfl
  | cons name rest ih =>
    rw [mergeAttributes, ih, mergeAttributes]
    by_cases h : name ∈ b
    · have hmem : name ∈ mergeAttributes a b := mem_mergeAttributes.2 (.inr h)
      simp [h, hmem]
    · have hone : ∀ current, mergeAttributes current [name] =
        if current.contains name then current else current ++ [name] := fun _ => rfl
      rw [if_neg (by simpa using h), mergeAttributes_append, hone]

theorem isDocumented_merge (a b : NodeInfo) :
    (a.merge b).isDocumented = (a.isDocumented || b.isDocumented) := by
  show Option.any _ (a.mergeComment b) = _
  unfold mergeComment isDocumented
  cases a.comment <;> cases b.comment <;> grind

theorem mergeComment_assoc (a b c : NodeInfo) :
    a.mergeComment (b.merge c) = (a.merge b).mergeComment c := by
  rw [mergeComment, mergeComment, isDocumented_merge, isDocumented_merge]
  show (if _ then b.mergeComment c else a.comment.or (b.mergeComment c)) =
    if _ then c.comment else (a.mergeComment b).or c.comment
  unfold mergeComment
  cases ha : a.isDocumented with
  | true =>
    obtain ⟨comment, hcomment, -⟩ := isDocumented_iff.1 ha
    simp [hcomment]
  | false => cases b.isDocumented <;> cases c.isDocumented <;> simp [Option.or_assoc]

/-- The sets in what is said are in order. -/
structure Sorted (info : NodeInfo) : Prop where
  declaredIn : OrderedSet.Ascending info.declaredIn
  protocols : OrderedSet.Ascending info.protocols

theorem Sorted.merge {a : NodeInfo} (h : a.Sorted) (b : NodeInfo) : (a.merge b).Sorted :=
  ⟨OrderedSet.ascending_union _ h.declaredIn, OrderedSet.ascending_union _ h.protocols⟩

/-- Of three declarations it does not matter which two are put together first. -/
theorem merge_assoc {a : NodeInfo} (h : a.Sorted) (b c : NodeInfo) :
    a.merge (b.merge c) = (a.merge b).merge c := by
  have hcomment := mergeComment_assoc a b c
  have hsignature :
      (if a.signature.isEmpty then if b.signature.isEmpty then c.signature else b.signature
        else a.signature) =
      if (if a.signature.isEmpty then b.signature else a.signature).isEmpty then c.signature
      else if a.signature.isEmpty then b.signature else a.signature := by
    split <;> simp_all
  unfold merge at hcomment ⊢
  simp only [Location.earlier_assoc, OrderedSet.union_assoc h.declaredIn,
    OrderedSet.union_assoc h.protocols, mergeAttributes_assoc, hcomment, hsignature,
    Option.or_assoc]

end NodeInfo

end DeclDoc
