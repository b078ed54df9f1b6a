import DualForm.Error
import DualForm.Value.Text

/-!
# Printed form of trees

* `Style` — what a piece of text is, so that it can be coloured.
* `Piece` — a text with its style; spaces have none.
* `Tree.pieces` — the printed form of a tree. An operand that is itself a binary operation, a
  conditional or a lambda is put in parentheses, so the text keeps the grouping of the tree; reading
  a field of a closure container prints as the bare name, as a captured local reads in source.
* `Tree.text`, `Lambda.text` — the pieces without their styles.
* `Tree.coloured` — the pieces with terminal escapes.

Parentheses carry their nesting depth, so that matching ones share a colour.
-/

namespace DualForm

/-- What a piece of text is. -/
inductive Style where
  | punctuation
  /-- Parentheses, by nesting depth. -/
  | paren (depth : Nat)
  /-- `null`, `true` and `false`. -/
  | keyword
  | operator
  /-- Parameters and members. -/
  | ident
  | literal
  /-- Types in conversions and in front of static members. -/
  | type
deriving DecidableEq, Repr, Inhabited

/-- A text with its style, if any. -/
structure Piece where
  style : Option Style
  text : String
deriving DecidableEq, Repr, Inhabited

namespace Piece

/-- A single space. -/
def space : Piece := ⟨none, " "⟩

/-- Punctuation. -/
def punct (s : String) : Piece := ⟨some .punctuation, s⟩

/-- An operator between spaces. -/
def infixed (s : String) : List Piece := [space, ⟨some .operator, s⟩, space]

/-- A name. -/
def named (s : String) : Piece := ⟨some .ident, s⟩

/-- A type. -/
def typed (s : String) : Piece := ⟨some .type, s⟩

/-- Pieces in parentheses. -/
def parens (depth : Nat) (inner : List Piece) : List Piece :=
  ⟨some (.paren depth), "("⟩ :: inner ++ [⟨some (.paren depth), ")"⟩]

/-- Lists of pieces with a comma and a space between them. -/
def commas (items : List (List Piece)) : List Piece := [punct ",", space].intercalate items

end Piece

namespace Tree

open Piece

/-- A literal: keywords are told apart from other values. -/
def literalPiece : Value → Piece
  | .null => ⟨some .keyword, "null"⟩
  | .bool b => ⟨some .keyword, Value.boolText b⟩
  | v => ⟨some .literal, Value.text v⟩

/-- Nodes that stand as an operand or a target without parentheses. -/
def isAtom : Expr → Bool
  | .literal .. | .param _ | .staticMember _ | .member .. | .staticCall .. | .call ..
  | .invoke .. => true
  | _ => false

/-- Nodes that need parentheses as an operand of a binary operation. -/
def isCompound : Expr → Bool
  | .binary .. | .conditional .. | .lambda .. => true
  | _ => false

/-- Nodes that need parentheses as a part of a conditional. -/
def isOpenEnded : Expr → Bool
  | .conditional .. | .lambda .. => true
  | _ => false

/-- Whether the tree is a literal closure container. -/
def isContainer : Expr → Bool
  | .literal v _ => v.isContainer
  | _ => false

/-- Parameter list of a lambda. -/
def paramPieces (depth : Nat) : List Param → List Piece
  | [p] => [named p.name]
  | ps => parens depth (commas (ps.map fun p => [named p.name]))

mutual

/-- Printed form of a tree at a nesting depth. -/
def pieces (depth : Nat) : Expr → List Piece
  | .literal v _ => [literalPiece v]
  | .param p => [named p.name]
  | .staticMember m => [typed m.declaring.name, punct ".", named m.name]
  | .member target m =>
      if isContainer target then [named m.name]
      else
        (if isAtom target then pieces depth target
          else parens depth (pieces (depth + 1) target)) ++ [punct ".", named m.name]
  | .staticCall m args =>
      [typed m.declaring.name, punct ".", named m.name] ++
        parens depth (commas (piecesAll (depth + 1) args))
  | .call target m args =>
      (if isAtom target then pieces depth target else parens depth (pieces (depth + 1) target)) ++
        [punct ".", named m.name] ++ parens depth (commas (piecesAll (depth + 1) args))
  | .binary op lhs rhs _ =>
      (if isCompound lhs then parens depth (pieces (depth + 1) lhs) else pieces depth lhs) ++
        infixed op.symbol ++
        (if isCompound rhs then parens depth (pieces (depth + 1) rhs) else pieces depth rhs)
  | .unary .convert operand _ ty =>
      parens depth [typed ty.text] ++
        (if isAtom operand then pieces (depth + 1) operand
          else parens (depth + 1) (pieces (depth + 2) operand))
  | .unary op operand _ _ =>
      ⟨some .operator, op.symbol⟩ ::
        (if isAtom operand then pieces depth operand
          else parens depth (pieces (depth + 1) operand))
  | .lambda params body =>
      paramPieces depth params ++ [space, punct "=>", space] ++ pieces depth body
  | .invoke callee args =>
      (if isAtom callee then pieces depth callee else parens depth (pieces (depth + 1) callee)) ++
        parens depth (commas (piecesAll (depth + 1) args))
  | .conditional test ifTrue ifFalse =>
      (if isOpenEnded test then parens depth (pieces (depth + 1) test) else pieces depth test) ++
        infixed "?" ++
        (if isOpenEnded ifTrue then parens depth (pieces (depth + 1) ifTrue)
          else pieces depth ifTrue) ++
        infixed ":" ++
        (if isOpenEnded ifFalse then parens depth (pieces (depth + 1) ifFalse)
          else pieces depth ifFalse)

/-- Printed forms of a list of trees. -/
def piecesAll (depth : Nat) : List Expr → List (List Piece)
  | [] => []
  | t :: ts => pieces depth t :: piecesAll depth ts

end

/-- Printed form without colours. -/
def text (t : Expr) : String := String.join ((pieces 0 t).map Piece.text)

/-! ## Colours -/

/-- Escape sequence that selects a colour or an attribute. -/
def escape (code : Nat) : String := "\x1b[" ++ toString code ++ "m"

/-- Colours of parentheses, one for each depth in turn. -/
def parenColour (depth : Nat) : Nat :=
  match depth % 6 with
  | 0 => 34
  | 1 => 32
  | 2 => 37
  | 3 => 33
  | 4 => 31
  | _ => 35

/-- Escape codes of a style: bold, dimmed, colour. -/
def styleCodes : Style → List Nat
  | .punctuation => [2]
  | .paren depth => [2, parenColour depth]
  | .keyword => [1, 36]
  | .operator => [1, 33]
  | .ident => [1, 32]
  | .literal => [31]
  | .type => [35]

/-- A piece with the escapes of its style; each piece starts and ends with a reset. -/
def colouredPiece (p : Piece) : String :=
  match p.style with
  | none => p.text
  | some style => escape 0 ++ String.join ((styleCodes style).map escape) ++ p.text ++ escape 0

/-- Printed form with terminal colours. -/
def coloured (t : Expr) : String := String.join ((pieces 0 t).map colouredPiece)

/-- The error for a node of a shape a rule does not cover. -/
def unexpected (t : Expr) (expected : String) : Error := .unsupportedShape t.text expected

/-- The lambda at the top of a tree, or an error. -/
def expectLambda (t : Expr) : Except Error Lam :=
  match t.lambda? with
  | some l => .ok l
  | none => .error (unexpected t "a lambda")

end Tree

/-- Printed form of a lambda. -/
def Lambda.text (l : Lam) : String := Tree.text l.tree

end DualForm
