import DualForm.Tree.Basic

/-!
# Comparison up to renaming of lambda parameters

* `Renaming` — the parameters of the left tree declared so far, each with its partner on the right,
  the latest declaration first.
* `Tree.compareUnder` — comparison under a renaming: bound parameters match their partners, free ones
  compare by identity, literals by value and type, members and methods by descriptor.
* `Tree.compare` — comparison of whole trees.
-/

namespace DualForm

/-- Declared parameters with their partners, latest first. -/
abbrev Renaming := List (Param × Param)

/-- Whether a read of `p` on the left matches a read of `q` on the right. -/
def Renaming.relates (r : Renaming) (p q : Param) : Bool :=
  match r.find? (·.1 = p) with
  | some (_, partner) => partner = q
  | none => p = q

/-- Declares the parameters of two lambdas position by position. -/
def Renaming.declare (r : Renaming) (ps qs : List Param) : Renaming := (ps.zip qs).reverse ++ r

namespace Tree

variable {ν γ ι : Type} [BEq ν]

mutual

/-- Comparison under a renaming. -/
def compareUnder (r : Renaming) : Tree ν γ ι → Tree ν γ ι → Bool
  | .literal v t, .literal w u => v == w && t = u
  | .param p, .param q => r.relates p q
  | .staticMember m, .staticMember n => m.same n
  | .member a m, .member b n => m.same n && compareUnder r a b
  | .staticCall m as, .staticCall n bs => m.same n && compareAllUnder r as bs
  | .call a m as, .call b n bs => m.same n && compareUnder r a b && compareAllUnder r as bs
  | .binary o a b m, .binary p c d n =>
      o = p && Method.sameOption m n && compareUnder r a c && compareUnder r b d
  | .unary o a m t, .unary p b n u =>
      o = p && Method.sameOption m n && t = u && compareUnder r a b
  | .lambda ps a, .lambda qs b =>
      ps.map Param.ty = qs.map Param.ty && compareUnder (r.declare ps qs) a b
  | .invoke a as, .invoke b bs => compareUnder r a b && compareAllUnder r as bs
  | .conditional a b c, .conditional d e f =>
      compareUnder r a d && compareUnder r b e && compareUnder r c f
  | _, _ => false

/-- Comparison of two lists of trees under a renaming. -/
def compareAllUnder (r : Renaming) : List (Tree ν γ ι) → List (Tree ν γ ι) → Bool
  | [], [] => true
  | a :: as, b :: bs => compareUnder r a b && compareAllUnder r as bs
  | _, _ => false

end

/-- Whether two trees are equal up to renaming of lambda parameters. -/
def compare (a b : Tree ν γ ι) : Bool := compareUnder [] a b

end Tree

end DualForm
