import DualForm.Ty

/-!
# Parameters

* `Param` — a lambda parameter. Its identity is its `id`: two parameters may share a name and a type
  and still differ, so nested lambdas that reuse a name do not capture each other.
* `FormalParam` — a declared parameter of a factory: a name and a type, compared as such.
-/

namespace DualForm

/-- Lambda parameter. -/
structure Param where
  id : Nat
  name : String
  ty : Ty
deriving DecidableEq, Repr, Inhabited

/-- Declared parameter of a factory. -/
structure FormalParam where
  name : String
  ty : Ty
deriving DecidableEq, Repr, Inhabited

/-- Written form of a declared parameter. -/
def FormalParam.text (p : FormalParam) : String := p.name ++ ": " ++ p.ty.text

end DualForm
