import DeclDoc.Dump
import Mathlib.Data.List.Forall2

/-!
# Dumps as JSON values

Two dumps are the same value (`Json.Same`) if the same stands under each key of their objects, in
whatever order. An encoding is `Faithful` if it gives the same value for equal things only.

An object whose fields may be left out is told by its keys and by what stands under each of them,
`none` where the field is left out (`Json.present`). Objects of the same keys are compared field by
field (`Same.values`). From this each part of a node is encoded faithfully; of a node itself what it
says and the values of its members can be told (`Node.parts_of_same`), but not their keys.
-/

set_option autoImplicit false

namespace DeclDoc

namespace Json

/-! ## The same value -/

/-- The same value: keys may stand in another order, and only the first field of a key counts. -/
inductive Same : Json → Json → Prop
  | number (n : Nat) : Same (.number n) (.number n)
  | string (s : String) : Same (.string s) (.string s)
  | array {xs ys : List Json} (items : List.Forall₂ Same xs ys) : Same (.array xs) (.array ys)
  | object {xs ys : List (String × Json)}
      (fields : ∀ key, Option.Rel Same (xs.lookup key) (ys.lookup key)) :
      Same (.object xs) (.object ys)

theorem mem_of_lookup {key : String} {value : Json} {fields : List (String × Json)}
    (h : fields.lookup key = some value) : (key, value) ∈ fields := by
  induction fields with
  | nil => cases h
  | cons field rest ih =>
    obtain ⟨k, v⟩ := field
    rw [List.lookup_cons] at h
    split at h
    · next hkey =>
      cases h
      rw [eq_of_beq hkey]
      exact List.mem_cons_self
    · exact List.mem_cons_of_mem _ (ih h)

theorem Same.refl : ∀ value : Json, Same value value
  | .number n => .number n
  | .string s => .string s
  | .array items => .array (List.forall₂_same.2 fun item _ => refl item)
  | .object fields => .object fun key => by
    cases h : fields.lookup key with
    | none => exact .none
    | some value => exact .some (refl value)
termination_by value => sizeOf value
decreasing_by
  · next hitem => simpa using Nat.lt_add_left 1 (List.sizeOf_lt_of_mem hitem)
  · have hlt := List.sizeOf_lt_of_mem (mem_of_lookup h)
    simp only [Prod.mk.sizeOf_spec, object.sizeOf_spec] at hlt ⊢
    omega

theorem Same.items {xs ys : List Json} (h : Same (.array xs) (.array ys)) :
    List.Forall₂ Same xs ys := by
  cases h with
  | array items => exact items

theorem Same.fields {xs ys : List (String × Json)} (h : Same (.object xs) (.object ys)) :
    ∀ key, Option.Rel Same (xs.lookup key) (ys.lookup key) := by
  cases h with
  | object fields => exact fields

/-! ## Objects with fields left out -/

/-- The fields that have a value, each under its key. -/
def present : List String → List (Option Json) → List (String × Json)
  | key :: keys, value :: values => (value.map (key, ·)).toList ++ present keys values
  | _, _ => []

@[simp] theorem present_nil (values : List (Option Json)) : present [] values = [] := rfl

@[simp] theorem present_cons (key : String) (keys : List String) (value : Option Json)
    (values : List (Option Json)) :
    present (key :: keys) (value :: values) =
      (value.map (key, ·)).toList ++ present keys values := rfl

/-- A list under a key, if it has items. -/
def listed {α : Type} (encode : α → Json) (items : List α) : Option Json :=
  if items.isEmpty then none else some (.array (items.map encode))

theorem optional_eq {α : Type} (key : String) (encode : α → Json) (value : Option α) :
    optional key encode value = ((value.map encode).map (key, ·)).toList := by
  cases value <;> rfl

theorem nonempty_eq {α : Type} (key : String) (encode : α → Json) (items : List α) :
    nonempty key encode items = ((listed encode items).map (key, ·)).toList := by
  rw [nonempty, listed]
  split <;> rfl

theorem lookup_present_of_notMem {key : String} {keys : List String} (h : key ∉ keys)
    (values : List (Option Json)) : (present keys values).lookup key = none := by
  induction keys generalizing values with
  | nil => rfl
  | cons k keys ih =>
    obtain ⟨hne, hrest⟩ := List.ne_and_not_mem_of_not_mem_cons h
    cases values with
    | nil => rfl
    | cons value values =>
      cases value with
      | none => exact ih hrest values
      | some value =>
        rw [present_cons, Option.map_some, Option.toList_some, List.singleton_append,
          List.lookup_cons, beq_false_of_ne hne]
        exact ih hrest values

theorem lookup_present_self {key : String} {keys : List String} (h : key ∉ keys)
    (value : Option Json) (values : List (Option Json)) :
    (present (key :: keys) (value :: values)).lookup key = value := by
  cases value with
  | none => exact lookup_present_of_notMem h values
  | some value =>
    rw [present_cons, Option.map_some, Option.toList_some, List.singleton_append,
      List.lookup_cons_self]

theorem lookup_present_of_ne {key other : String} (h : other ≠ key) (keys : List String)
    (value : Option Json) (values : List (Option Json)) :
    (present (key :: keys) (value :: values)).lookup other =
      (present keys values).lookup other := by
  cases value with
  | none => rfl
  | some value =>
    rw [present_cons, Option.map_some, Option.toList_some, List.singleton_append,
      List.lookup_cons, beq_false_of_ne h]

/-- Objects of the same keys that are the same value agree in each field. -/
theorem Same.values {keys : List String} (hkeys : keys.Nodup) {xs ys : List (Option Json)}
    (hxs : xs.length = keys.length) (hys : ys.length = keys.length)
    (h : Same (.object (present keys xs)) (.object (present keys ys))) :
    List.Forall₂ (Option.Rel Same) xs ys := by
  have hfields := h.fields
  clear h
  induction keys generalizing xs ys with
  | nil =>
    rw [List.length_eq_zero_iff.1 hxs, List.length_eq_zero_iff.1 hys]
    exact .nil
  | cons key keys ih =>
    obtain ⟨hkey, hkeys⟩ := List.nodup_cons.1 hkeys
    obtain ⟨x, xs, rfl⟩ := List.exists_cons_of_length_eq_add_one hxs
    obtain ⟨y, ys, rfl⟩ := List.exists_cons_of_length_eq_add_one hys
    have hvalue := hfields key
    rw [lookup_present_self hkey, lookup_present_self hkey] at hvalue
    refine .cons hvalue (ih hkeys (Nat.succ.inj hxs) (Nat.succ.inj hys) fun other => ?_)
    by_cases hother : other = key
    · rw [hother, lookup_present_of_notMem hkey, lookup_present_of_notMem hkey]
      exact .none
    · have := hfields other
      rwa [lookup_present_of_ne hother, lookup_present_of_ne hother] at this

/-! ## Faithful encodings -/

/-- Only equal things are encoded as the same value. -/
def Faithful {α : Type} (encode : α → Json) : Prop :=
  ∀ a b, (encode a).Same (encode b) → a = b

namespace Faithful

variable {α : Type} {encode : α → Json}

theorem number : Faithful number := fun _ _ h => by
  cases h
  rfl

theorem string : Faithful string := fun _ _ h => by
  cases h
  rfl

/-- What is told by a name or a number of its own. -/
theorem comp (h : Faithful encode) {β : Type} {f : β → α} (hf : Function.Injective f) :
    Faithful fun b => encode (f b) :=
  fun a b hab => hf (h (f a) (f b) hab)

/-- Under a key that is always there. -/
theorem required (h : Faithful encode) {a b : α}
    (hab : Option.Rel Same (some (encode a)) (some (encode b))) : a = b := by
  cases hab with
  | some hab => exact h a b hab

theorem option (h : Faithful encode) {a b : Option α}
    (hab : Option.Rel Same (a.map encode) (b.map encode)) : a = b := by
  cases a with
  | none =>
    cases b with
    | none => rfl
    | some b => cases hab
  | some a =>
    cases b with
    | none => cases hab
    | some b => exact congrArg some (h.required hab)

theorem items (h : Faithful encode) {as bs : List α}
    (hab : List.Forall₂ Same (as.map encode) (bs.map encode)) : as = bs := by
  rw [List.forall₂_map_left_iff, List.forall₂_map_right_iff] at hab
  exact List.forall₂_eq_eq_eq ▸ hab.imp h

theorem array (h : Faithful encode) : Faithful fun as : List α => .array (as.map encode) :=
  fun _ _ hab => h.items hab.items

theorem listed (h : Faithful encode) {as bs : List α}
    (hab : Option.Rel Same (listed encode as) (listed encode bs)) : as = bs := by
  cases as with
  | nil =>
    cases bs with
    | nil => rfl
    | cons b bs => cases hab
  | cons a as =>
    cases bs with
    | nil => cases hab
    | cons b bs => exact h.array.required hab

/-- An object is told field by field. -/
theorem ofValues (keys : List String) (values : α → List (Option Json)) (hkeys : keys.Nodup)
    (hlength : ∀ a, (values a).length = keys.length)
    (hencode : ∀ a, encode a = .object (present keys (values a)))
    (hvalues : ∀ a b, List.Forall₂ (Option.Rel Same) (values a) (values b) → a = b) :
    Faithful encode := fun a b h => by
  rw [hencode, hencode] at h
  exact hvalues a b (h.values hkeys (hlength a) (hlength b))

end Faithful

end Json

/-! ## Parts of a node -/

open Json (Faithful listed present optional_eq nonempty_eq)

theorem Severity.name_injective : Function.Injective name := by
  intro a b h
  cases a <;> cases b <;> first | rfl | exact absurd h (by decide)

theorem Flavor.name_injective : Function.Injective name := by
  intro a b h
  cases a <;> cases b <;> first | rfl | exact absurd h (by decide)

theorem Resolution.name_injective : Function.Injective name := by
  intro a b h
  cases a <;> cases b <;> first | rfl | exact absurd h (by decide)

theorem Kind.name_injective : Function.Injective name := fun a b h =>
  Option.some.inj ((ofName?_name a).symm.trans ((congrArg ofName? h).trans (ofName?_name b)))

theorem Location.faithful_toJson : Faithful toJson := by
  refine .ofValues ["file", "line", "column"]
    (fun location => [some (.string location.file), some (.number location.line.toNat),
      some (.number location.column.toNat)])
    (by decide) (fun _ => rfl) (fun _ => rfl) ?_
  rintro ⟨file, line, column⟩ ⟨file', line', column'⟩ h
  simp only [List.forall₂_cons] at h
  obtain ⟨hfile, hline, hcolumn, -⟩ := h
  cases Faithful.string.required hfile
  cases UInt32.toNat.inj (Faithful.number.required hline)
  cases UInt32.toNat.inj (Faithful.number.required hcolumn)
  rfl

theorem Diagnostic.faithful_toJson : Faithful toJson := by
  refine .ofValues ["severity", "location", "message"]
    (fun diagnostic => [some (.string diagnostic.severity.name),
      diagnostic.location.map Location.toJson, some (.string diagnostic.message)])
    (by decide) (fun _ => rfl) (fun diagnostic => ?_) ?_
  · simp [toJson, optional_eq]
  rintro ⟨severity, location, message⟩ ⟨severity', location', message'⟩ h
  simp only [List.forall₂_cons] at h
  obtain ⟨hseverity, hlocation, hmessage, -⟩ := h
  cases (Faithful.string.comp Severity.name_injective).required hseverity
  cases Location.faithful_toJson.option hlocation
  cases Faithful.string.required hmessage
  rfl

theorem NamedDescription.faithful_toJson : Faithful toJson := by
  refine .ofValues ["name", "description"]
    (fun entry => [some (.string entry.name), some (.string entry.description)])
    (by decide) (fun _ => rfl) (fun _ => rfl) ?_
  rintro ⟨name, description⟩ ⟨name', description'⟩ h
  simp only [List.forall₂_cons] at h
  obtain ⟨hname, hdescription, -⟩ := h
  cases Faithful.string.required hname
  cases Faithful.string.required hdescription
  rfl

theorem NodeKey.faithful_toJson : Faithful toJson := by
  refine .ofValues ["kind", "name"]
    (fun key => [some (.string key.kind.name), some (.string key.name)])
    (by decide) (fun _ => rfl) (fun _ => rfl) ?_
  rintro ⟨kind, name⟩ ⟨kind', name'⟩ h
  simp only [List.forall₂_cons] at h
  obtain ⟨hkind, hname, -⟩ := h
  cases (Faithful.string.comp Kind.name_injective).required hkind
  cases Faithful.string.required hname
  rfl

/-- The role of a fragment and what comes with it. -/
def Fragment.values : Fragment → List (Option Json)
  | .returns typeName => [some (.string "return"), none, some (.string typeName), none]
  | .parameter keyword typeName name =>
    [some (.string "parameter"), keyword.map .string, some (.string typeName), some (.string name)]
  | .variadic => [some (.string "variadic"), none, none, none]

theorem Fragment.faithful_toJson : Faithful toJson := by
  refine .ofValues ["role", "keyword", "type_name", "name"] values (by decide)
    (fun fragment => by cases fragment <;> rfl) (fun fragment => ?_) ?_
  · cases fragment with
    | returns | variadic => rfl
    | parameter => simp [toJson, values, optional_eq]
  intro a b h
  cases a <;> cases b <;> simp only [values, List.forall₂_cons] at h <;>
    obtain ⟨hrole, hkeyword, htype, hname, -⟩ := h <;>
    have hrole := Faithful.string.required hrole
  case returns.returns =>
    cases Faithful.string.required htype
    rfl
  case parameter.parameter =>
    cases Faithful.string.option hkeyword
    cases Faithful.string.required htype
    cases Faithful.string.required hname
    rfl
  case variadic.variadic => rfl
  all_goals exact absurd hrole (by decide)

theorem Comment.faithful_toJson : Faithful toJson := by
  refine .ofValues ["raw", "short_description", "long_description", "parameters", "returns",
      "exceptions", "see_also", "warnings", "bugs", "deprecated"]
    (fun comment => [some (.string comment.raw), comment.shortDescription.map .string,
      comment.longDescription.map .string, listed NamedDescription.toJson comment.parameters,
      comment.returns.map .string, listed NamedDescription.toJson comment.exceptions,
      listed .string comment.seeAlso, listed .string comment.warnings, listed .string comment.bugs,
      comment.deprecated.map .string])
    (by decide) (fun _ => rfl) (fun comment => ?_) ?_
  · simp [toJson, optional_eq, nonempty_eq]
  rintro ⟨raw, short, long, parameters, returns, exceptions, seeAlso, warnings, bugs, deprecated⟩
    ⟨raw', short', long', parameters', returns', exceptions', seeAlso', warnings', bugs',
      deprecated'⟩ h
  simp only [List.forall₂_cons] at h
  obtain ⟨hraw, hshort, hlong, hparameters, hreturns, hexceptions, hseeAlso, hwarnings, hbugs,
    hdeprecated, -⟩ := h
  cases Faithful.string.required hraw
  cases Faithful.string.option hshort
  cases Faithful.string.option hlong
  cases NamedDescription.faithful_toJson.listed hparameters
  cases Faithful.string.option hreturns
  cases NamedDescription.faithful_toJson.listed hexceptions
  cases Faithful.string.listed hseeAlso
  cases Faithful.string.listed hwarnings
  cases Faithful.string.listed hbugs
  cases Faithful.string.option hdeprecated
  rfl

/-! ## Nodes -/

namespace Node

/-- The keys of a node's fields. -/
def dumpKeys : List String :=
  ["kind", "name", "location", "declared_in", "comment", "signature", "flavor", "type_name",
    "superclass", "protocols", "base_class", "attributes", "group", "resolution", "parent",
    "children"]

/-- What stands under the keys, `none` where the field is left out. -/
def dumpValues (info : NodeInfo) (children : List Json) : List (Option Json) :=
  [some (.string info.kind.name), some (.string info.name), some info.location.toJson,
    some (.array (info.declaredIn.map Location.toJson)), info.comment.map Comment.toJson,
    listed Fragment.toJson info.signature, info.flavor.map fun flavor => .string flavor.name,
    info.typeName.map .string, info.superclass.map .string, listed .string info.protocols,
    info.baseClass.map .string, listed .string info.attributes, info.group.map .string,
    info.resolution.map fun resolution => .string resolution.name,
    info.parent.map NodeKey.toJson, some (.array children)]

theorem childrenToJson_eq (children : List (NodeKey × Node)) :
    childrenToJson children = (OrderedMap.values children).map toJson := by
  induction children with
  | nil => rw [childrenToJson]; rfl
  | cons entry rest ih => rw [childrenToJson, ih]; rfl

theorem toJson_eq (node : Node) :
    node.toJson = .object (present dumpKeys
      (dumpValues node.info ((OrderedMap.values node.children).map toJson))) := by
  obtain ⟨info, children⟩ := node
  rw [toJson, childrenToJson_eq]
  simp [NodeInfo.fields, dumpKeys, dumpValues, optional_eq, nonempty_eq]

/-- Dumps of nodes that are the same value tell the same of themselves, and of their members in the
same order. -/
theorem parts_of_same {a b : Node} (h : a.toJson.Same b.toJson) :
    a.info = b.info ∧ List.Forall₂ (fun x y : Node => x.toJson.Same y.toJson)
      (OrderedMap.values a.children) (OrderedMap.values b.children) := by
  rw [toJson_eq, toJson_eq] at h
  have h := h.values (by decide) rfl rfl
  obtain ⟨⟨kind, name, location, declaredIn, comment, signature, flavor, typeName, superclass,
    protocols, baseClass, attributes, group, resolution, parent⟩, children⟩ := a
  obtain ⟨⟨kind', name', location', declaredIn', comment', signature', flavor', typeName',
    superclass', protocols', baseClass', attributes', group', resolution', parent'⟩,
    children'⟩ := b
  simp only [dumpValues, List.forall₂_cons] at h
  obtain ⟨hkind, hname, hlocation, hdeclaredIn, hcomment, hsignature, hflavor, htypeName,
    hsuperclass, hprotocols, hbaseClass, hattributes, hgroup, hresolution, hparent,
    hchildren, -⟩ := h
  cases (Faithful.string.comp Kind.name_injective).required hkind
  cases Faithful.string.required hname
  cases Location.faithful_toJson.required hlocation
  cases Location.faithful_toJson.array.required hdeclaredIn
  cases Comment.faithful_toJson.option hcomment
  cases Fragment.faithful_toJson.listed hsignature
  cases (Faithful.string.comp Flavor.name_injective).option hflavor
  cases Faithful.string.option htypeName
  cases Faithful.string.option hsuperclass
  cases Faithful.string.listed hprotocols
  cases Faithful.string.option hbaseClass
  cases Faithful.string.listed hattributes
  cases Faithful.string.option hgroup
  cases (Faithful.string.comp Resolution.name_injective).option hresolution
  cases NodeKey.faithful_toJson.option hparent
  refine ⟨rfl, ?_⟩
  cases hchildren with
  | some hchildren =>
    have hitems := hchildren.items
    rwa [List.forall₂_map_left_iff, List.forall₂_map_right_iff] at hitems

end Node

end DeclDoc
