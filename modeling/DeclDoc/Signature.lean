import DeclDoc.Text.Spacing

/-! # Signatures

A method's or function's signature lists what it returns and takes. Two signatures agree when their
types, blanks aside, and selector keywords do; names of parameters are free.
-/

set_option autoImplicit false

namespace DeclDoc

inductive Fragment where
  | returns (typeName : String)
  | parameter (keyword : Option String) (typeName name : String)
  | variadic
deriving DecidableEq, Repr, Inhabited

/-- Types agree when they differ in blanks only. -/
def sameType (a b : String) : Bool := Text.squash a.toList == Text.squash b.toList

def Fragment.agrees : Fragment → Fragment → Bool
  | .returns a, .returns b => sameType a b
  | .parameter keyword a _, .parameter keyword' b _ => keyword == keyword' && sameType a b
  | .variadic, .variadic => true
  | _, _ => false

/-- Fragment by fragment. -/
def sameSignature : List Fragment → List Fragment → Bool
  | [], [] => true
  | a :: as, b :: bs => a.agrees b && sameSignature as bs
  | _, _ => false

theorem sameType_refl (a : String) : sameType a a = true := by simp [sameType]

theorem Fragment.agrees_refl (a : Fragment) : a.agrees a = true := by
  cases a <;> simp [agrees, sameType_refl]

theorem sameSignature_refl (as : List Fragment) : sameSignature as as = true := by
  induction as with
  | nil => rfl
  | cons a as ih => simp [sameSignature, Fragment.agrees_refl, ih]

end DeclDoc
