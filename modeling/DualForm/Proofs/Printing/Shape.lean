import DualForm.Proofs.Printing.Lexemes
import DualForm.Proofs.Tree.Nodes
import DualForm.Tree.Printing

/-!
# The shapes of trees

* `Shape` — what is left of a tree without types, identities, getters and invokers: the kinds of its nodes,
  operators, values, names, and how many subtrees there are.
* `Tree.shape t` — the shape of a tree.
* `Identifier s` — a word that does not begin with a digit.
* `Tree.Plain` — nodes of trees whose printed form is read back: parameters and members with names that are
  identifiers, integers that are not negative, operations other than conversions, lambdas, applications of
  function values and conditionals.
* `Tree.rank` — how tightly a tree holds together in print: parts with a higher rank stand in parentheses.
-/

namespace DualForm

/-! ## Shapes -/

/-- A tree without types, identities, getters and invokers. -/
inductive Shape where
  | literal (value : Value)
  | param (name : String)
  | staticMember (declaring name : String)
  | member (target : Shape) (name : String)
  | staticCall (declaring name : String) (args : List Shape)
  | call (target : Shape) (name : String) (args : List Shape)
  | binary (op : BinaryOp) (lhs rhs : Shape)
  | unary (op : UnaryOp) (operand : Shape)
  | lambda (params : List String) (body : Shape)
  | invoke (callee : Shape) (args : List Shape)
  | conditional (test ifTrue ifFalse : Shape)

/-- The shape of a node over those of its subtrees. -/
def Shape.at : ExprNode (Expr × Shape) → Shape
  | .literal v _ => .literal v
  | .param p => .param p.name
  | .staticMember m => .staticMember m.declaring.name m.name
  | .member (_, target) m => .member target m.name
  | .staticCall m args => .staticCall m.declaring.name m.name (args.map Prod.snd)
  | .call (_, target) m args => .call target m.name (args.map Prod.snd)
  | .binary op (_, lhs) (_, rhs) _ => .binary op lhs rhs
  | .unary op (_, operand) _ _ => .unary op operand
  | .lambda ps (_, body) => .lambda (ps.map Param.name) body
  | .invoke (_, callee) args => .invoke callee (args.map Prod.snd)
  | .conditional (_, test) (_, ifTrue) (_, ifFalse) => .conditional test ifTrue ifFalse

namespace Tree

/-- The shape of a tree. -/
def shape : Expr → Shape := fold Shape.at

theorem shape_invoke (callee : Expr) (args : List Expr) :
    shape (.invoke callee args) = .invoke callee.shape (args.map shape) := by
  unfold shape
  rw [fold_eq]
  simp [node, Node.map, Shape.at, Function.comp_def]

end Tree

/-! ## Words -/

/-- The word begins with a digit. -/
def Word.isNumeral (w : Word) : Bool := w.text.toList.head?.any Char.isDigit

/-- The shape a word stands for. -/
def Word.shape (w : Word) : Shape :=
  if w.isNumeral then .literal (.int (.ofInt (Nat.ofDigitChars 10 w.text.toList 0))) else .param w.text

/-- The string is a word that does not begin with a digit. -/
def Identifier (s : String) : Prop := ∃ w : Word, w.text = s ∧ w.isNumeral = false

theorem Identifier.word {s : String} (h : Identifier s) : ∃ w : Word, w.text = s ∧ w.shape = .param s := by
  obtain ⟨w, rfl, hw⟩ := h
  exact ⟨w, rfl, if_neg (Bool.eq_false_iff.1 hw)⟩

/-- **Integers that are not negative are words,** and are read back. -/
theorem word_of_int {n : Int64} (h : 0 ≤ n.toInt) :
    ∃ w : Word, w.text = Value.text (.int n) ∧ w.shape = .literal (.int n) := by
  obtain ⟨m, hm⟩ := Int.eq_ofNat_of_zero_le h
  have htext : Value.text (.int n) = String.ofList (Nat.toDigits 10 m) := by
    show toString n.toInt = _
    rw [hm]
    exact Nat.toString_eq_ofList_toDigits
  have hdigit : ∀ c ∈ Nat.toDigits 10 m, c.isDigit = true :=
    fun c hc => Nat.isDigit_of_mem_toDigits (by decide) (by decide) hc
  have hne : Nat.toDigits 10 m ≠ [] := Nat.toDigits_ne_nil
  have hspelled : (Nat.toDigits 10 m).all fun c => CharClass.of c = .word :=
    List.all_eq_true.2 fun c hc => by simp [CharClass.of, Char.isAlphanum, hdigit c hc]
  let w : Word := ⟨String.ofList (Nat.toDigits 10 m), by simp, by rwa [String.toList_ofList]⟩
  have hnumeral : w.isNumeral = true := by
    obtain ⟨c, cs, hcs⟩ := List.exists_cons_of_ne_nil hne
    show (String.ofList (Nat.toDigits 10 m)).toList.head?.any Char.isDigit = true
    rw [String.toList_ofList, hcs]
    exact hdigit c (hcs ▸ List.mem_cons_self ..)
  refine ⟨w, htext.symm, ?_⟩
  unfold Word.shape
  rw [if_pos hnumeral]
  show Shape.literal (.int (.ofInt (Nat.ofDigitChars 10 (String.ofList (Nat.toDigits 10 m)).toList 0))) = _
  rw [String.toList_ofList, Nat.ofDigitChars_ten_toDigits]
  rw [← hm, Int64.ofInt_toInt]

/-! ## Printed trees -/

namespace Tree

/-- Nodes whose printed form is read back. -/
def Plain : Expr → Prop
  | .literal v _ => ∃ n : Int64, v = .int n ∧ 0 ≤ n.toInt
  | .param p => Identifier p.name
  | .member _ m => Identifier m.name
  | .unary op _ _ _ => op ≠ .convert
  | .lambda ps _ => ∀ p ∈ ps, Identifier p.name
  | .binary .. | .invoke .. | .conditional .. => True
  | .staticMember .. | .staticCall .. | .call .. => False

/-- How tightly a tree holds together in print. -/
def rank : Expr → Nat
  | .unary .. => 1
  | .binary .. => 2
  | .lambda .. | .conditional .. => 3
  | _ => 0

theorem rank_le (t : Expr) : t.rank ≤ 3 := by cases t <;> simp [rank]

theorem rank_atom {t : Expr} (h : isAtom t = true) : t.rank = 0 := by
  cases t <;> first | rfl | cases h

theorem rank_operand {t : Expr} (h : isCompound t = false) : t.rank ≤ 1 := by
  revert h
  cases t <;> simp [isCompound, rank]

theorem rank_part {t : Expr} (h : isOpenEnded t = false) : t.rank ≤ 2 := by
  revert h
  cases t <;> simp [isOpenEnded, rank]

end Tree

end DualForm
