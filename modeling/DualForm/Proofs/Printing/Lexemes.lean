import DualForm.Operator
import Mathlib.Data.List.SplitBy

/-!
# The lexemes of printed trees

* `CharClass` — characters of words, characters of signs, and those that stand alone; `CharClass.joins` — two
  characters that belong to the same word or sign where they stand side by side.
* `Word`, `Lexeme` — what a printed tree is made of: words, which are names and numbers, and marks.
* `Lexeme.Apart` — lexemes that may stand side by side: not two words, and not two signs.

Principal result: `Lexeme.eq_of_join` — a text is made of lexemes in one way only, if those side by side are
apart.
-/

namespace DualForm

/-! ## Characters -/

/-- The role of a character in a printed tree. -/
inductive CharClass where
  | word
  | sign
  | single
deriving DecidableEq

namespace CharClass

/-- Words are made of letters, digits, underscores and everything that is not ASCII. -/
def of (c : Char) : CharClass :=
  if c.isAlphanum ∨ c = '_' ∨ 128 ≤ c.toNat then .word
  else if c ∈ "+-*/%=!<>&|".toList then .sign
  else .single

/-- Side by side, the characters belong together. -/
def joins (c d : Char) : Bool := of c = of d ∧ of c ≠ .single

end CharClass

/-! ## Lexemes -/

/-- A name or a number. -/
structure Word where
  text : String
  ne_empty : text ≠ ""
  spelled : text.toList.all fun c => CharClass.of c = .word

/-- A word or a mark. -/
inductive Lexeme where
  | word (w : Word)
  | sign (op : BinaryOp)
  | bang | arrow
  | left | right | dot | comma | question | colon | blank

namespace Lexeme

/-- Written form. -/
def text : Lexeme → String
  | .word w => w.text
  | .sign op => op.symbol
  | .bang => "!"
  | .arrow => "=>"
  | .left => "("
  | .right => ")"
  | .dot => "."
  | .comma => ","
  | .question => "?"
  | .colon => ":"
  | .blank => " "

/-- The class of the characters. -/
def kind : Lexeme → CharClass
  | .word _ => .word
  | .sign _ | .bang | .arrow => .sign
  | _ => .single

theorem text_ne_nil (l : Lexeme) : l.text.toList ≠ [] := by
  cases l with
  | word w => exact fun h => w.ne_empty (String.toList_eq_nil_iff.1 h)
  | sign op => cases op <;> decide
  | _ => decide

theorem all_text (l : Lexeme) : l.text.toList.all fun c => CharClass.of c = l.kind := by
  cases l with
  | word w => exact w.spelled
  | sign op => cases op <;> rfl
  | _ => rfl

theorem of_mem_text (l : Lexeme) {c : Char} (hc : c ∈ l.text.toList) : CharClass.of c = l.kind :=
  of_decide_eq_true (List.all_eq_true.1 l.all_text c hc)

theorem length_single {l : Lexeme} (h : l.kind = .single) : l.text.toList.length = 1 := by
  cases l <;> first | rfl | cases h

/-- The marks. -/
def marks : List Lexeme :=
  [.bang, .arrow, .left, .right, .dot, .comma, .question, .colon, .blank] ++ BinaryOp.all.map .sign

theorem find_mark {l : Lexeme} (h : l.kind ≠ .word) : marks.find? (·.text = l.text) = some l := by
  cases l with
  | word w => exact absurd rfl h
  | sign op => cases op <;> rfl
  | _ => rfl

theorem kind_eq {l l' : Lexeme} (h : l.text = l'.text) : l.kind = l'.kind := by
  obtain ⟨c, hc⟩ := List.exists_mem_of_ne_nil _ l.text_ne_nil
  exact (l.of_mem_text hc).symm.trans (l'.of_mem_text (h ▸ hc))

/-- Different lexemes are written differently. -/
theorem text_injective : Function.Injective text := by
  intro l l' h
  by_cases hword : l.kind = .word
  · have hword' := hword
    rw [kind_eq h] at hword'
    cases l with
    | word w =>
        cases l' with
        | word w' => exact congrArg word (by cases w; cases w'; cases h; rfl)
        | _ => cases hword'
    | _ => cases hword
  · have hmark := find_mark hword
    rw [h, find_mark (kind_eq h ▸ hword)] at hmark
    exact (Option.some.inj hmark).symm

/-! ## Texts made of lexemes -/

/-- The lexemes may stand side by side. -/
def Apart (l l' : Lexeme) : Prop := l.kind = l'.kind → l.kind = .single

theorem chain_joins (l : Lexeme) : l.text.toList.IsChain fun c d => CharClass.joins c d := by
  by_cases hsingle : l.kind = .single
  · obtain ⟨c, hc⟩ := List.length_eq_one_iff.1 (length_single hsingle)
    rw [hc]
    exact .singleton c
  · refine (List.pairwise_of_forall_mem_list fun c hc d hd => ?_).isChain
    simp [CharClass.joins, l.of_mem_text hc, l.of_mem_text hd, hsingle]

/-- The runs of characters that belong together are the lexemes. -/
theorem splitBy_join {ls : List Lexeme} (h : ls.IsChain Apart) :
    (String.join (ls.map text)).toList.splitBy CharClass.joins = ls.map fun l => l.text.toList := by
  rw [String.toList_join, List.flatMap_map, List.flatMap_def]
  refine List.splitBy_flatten (fun hnil => ?_) (fun cs hcs => ?_) ?_
  · obtain ⟨l, -, hl⟩ := List.mem_map.1 hnil
    exact l.text_ne_nil hl
  · obtain ⟨l, -, rfl⟩ := List.mem_map.1 hcs
    exact l.chain_joins
  · rw [List.isChain_map]
    refine h.imp fun l l' hapart => ⟨l.text_ne_nil, l'.text_ne_nil, ?_⟩
    have hlast := l.of_mem_text (List.getLast_mem l.text_ne_nil)
    have hhead := l'.of_mem_text (List.head_mem l'.text_ne_nil)
    unfold Apart at hapart
    simpa [CharClass.joins, hlast, hhead] using hapart

/-- **A text is made of lexemes in one way only.** -/
theorem eq_of_join {ls ls' : List Lexeme} (h : ls.IsChain Apart) (h' : ls'.IsChain Apart)
    (htext : String.join (ls.map text) = String.join (ls'.map text)) : ls = ls' := by
  have hsplit := splitBy_join h
  rw [htext, splitBy_join h'] at hsplit
  exact (List.map_injective_iff.2 fun l l' hl => text_injective (String.toList_inj.1 hl)) hsplit.symm

end Lexeme

end DualForm
