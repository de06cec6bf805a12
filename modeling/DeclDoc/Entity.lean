import DeclDoc.Diagnostic
import DeclDoc.Kind
import DeclDoc.Signature

/-! # Entities and keys

An entity is one declaration as it stands in a file. Its key tells it from its siblings; methods of
instances and of classes have different keys (`key_ne_of_flavor`).
-/

set_option autoImplicit false

namespace DeclDoc

/-- Whether a method belongs to instances or to the class. -/
inductive Flavor where
  | ofInstances
  | ofClass
deriving DecidableEq, Repr, Inhabited

def Flavor.sign : Flavor → String
  | .ofInstances => "-"
  | .ofClass => "+"

def Flavor.name : Flavor → String
  | .ofInstances => "instance"
  | .ofClass => "class"

/-- Identity among siblings. -/
structure NodeKey where
  kind : Kind
  name : String
deriving DecidableEq, Repr, Inhabited

namespace NodeKey

/-- By kind, then by name. -/
instance : Ord NodeKey where
  compare a b := (compare a.kind b.kind).then (compare a.name b.name)

instance : Std.TransOrd NodeKey :=
  inferInstanceAs <| Std.TransCmp <| compareLex (compareOn kind) (compareOn name)

instance : Std.LawfulEqOrd NodeKey where
  eq_of_compare {a b} h := by
    obtain ⟨kind, name⟩ := a
    obtain ⟨hkind, hname⟩ := Ordering.then_eq_eq.1 h
    cases Std.LawfulEqOrd.eq_of_compare hkind
    cases Std.LawfulEqOrd.eq_of_compare hname
    rfl

/-- The key of a declaration; a method's name goes with the sign of its flavor. -/
def ofDeclaration (kind : Kind) (name : String) (flavor : Option Flavor) : NodeKey :=
  match kind, flavor with
  | .method, some flavor => ⟨kind, flavor.sign ++ name⟩
  | _, _ => ⟨kind, name⟩

@[simp] theorem kind_ofDeclaration (kind : Kind) (name : String) (flavor : Option Flavor) :
    (ofDeclaration kind name flavor).kind = kind := by
  unfold ofDeclaration
  split <;> rfl

theorem key_ne_of_flavor (name : String) :
    ofDeclaration .method name (some .ofInstances) ≠ ofDeclaration .method name (some .ofClass) := by
  intro h
  have := congrArg (fun key : NodeKey => key.name.toList) h
  simp [ofDeclaration, Flavor.sign] at this

protected def toString (key : NodeKey) : String := key.kind.name ++ " " ++ key.name

end NodeKey

/-- The container that a declaration stands in. -/
structure ParentRef where
  kind : Kind
  name : String
  location : Location
deriving DecidableEq, Repr, Inhabited

/-- One declaration in a file. `rawComment` is its documentation comment as written, empty if there
is none, and `group` is the title of the group that opens right before it. -/
structure Entity where
  kind : Kind
  name : String
  location : Location
  rawComment : List Char := []
  parent : Option ParentRef := none
  signature : List Fragment := []
  flavor : Option Flavor := none
  typeName : Option String := none
  superclass : Option String := none
  protocols : List String := []
  baseClass : Option String := none
  attributes : List String := []
  group : Option String := none
deriving DecidableEq, Repr, Inhabited

def Entity.key (entity : Entity) : NodeKey :=
  .ofDeclaration entity.kind entity.name entity.flavor

end DeclDoc
