import DualForm.Proofs.Factory.Capture
import DualForm.Proofs.Relabelling.Objects

/-!
# Trees under other numbers

* `ExprNode.relabel` — one node with its subtrees under other numbers.

Principal results: a tree is printed and typed as before (`Tree.text_relabel`, `Tree.ty_relabel`), and putting
trees together comes to the same before and after the change of numbers (`Tree.substitute_relabel`,
`Tree.bindArgument_relabel`, `Lambda.composed_relabel` and its companions).
-/

namespace DualForm

/-- The node and its subtrees with other numbers. -/
def ExprNode.relabel (ρ : Nat → Nat) : ExprNode Expr → ExprNode Expr
  | .literal v ty => .literal (Value.relabel ρ v) ty
  | .param p => .param (p.relabel ρ)
  | .staticMember m => .staticMember (m.relabel ρ)
  | .member target m => .member (target.relabel ρ) (m.relabel ρ)
  | .staticCall m args => .staticCall (m.relabel ρ) (args.map (Tree.relabel ρ))
  | .call target m args => .call (target.relabel ρ) (m.relabel ρ) (args.map (Tree.relabel ρ))
  | .binary op lhs rhs via => .binary op (lhs.relabel ρ) (rhs.relabel ρ) (via.map (Method.relabel ρ))
  | .unary op operand via ty => .unary op (operand.relabel ρ) (via.map (Method.relabel ρ)) ty
  | .lambda params body => .lambda (params.map (Param.relabel ρ)) (body.relabel ρ)
  | .invoke callee args => .invoke (callee.relabel ρ) (args.map (Tree.relabel ρ))
  | .conditional test ifTrue ifFalse =>
      .conditional (test.relabel ρ) (ifTrue.relabel ρ) (ifFalse.relabel ρ)

variable {ρ : Nat → Nat}

@[simp] theorem Param.relabel_name (p : Param) : (p.relabel ρ).name = p.name := rfl
@[simp] theorem Param.relabel_ty (p : Param) : (p.relabel ρ).ty = p.ty := rfl

@[simp] theorem Param.relabel_comp_ty : Param.ty ∘ Param.relabel ρ = Param.ty := rfl

@[simp] theorem Method.declaredBy_relabel (m : Method Invoker) (w : Wrapper) :
    (m.relabel ρ).declaredBy w = m.declaredBy w := by
  unfold Method.declaredBy
  rw [Method.relabel_signature]

@[simp] theorem Member.declaredBy_relabel (m : Member Getter) (w : Wrapper) :
    (m.relabel ρ).declaredBy w = m.declaredBy w := by
  unfold Member.declaredBy
  rw [Member.relabel_signature]

namespace Tree

theorem node_relabel (t : Expr) : (t.relabel ρ).node = ExprNode.relabel ρ t.node := by
  cases t <;> simp [Tree.relabel, node, ExprNode.relabel]

theorem tree_relabel (n : ExprNode Expr) : (ExprNode.relabel ρ n).tree = n.tree.relabel ρ := by
  cases n <;> simp [Tree.relabel, Node.tree, ExprNode.relabel]

/-! ## What shows of a tree -/

@[simp] theorem ty_relabel (t : Expr) : (t.relabel ρ).ty = t.ty := by
  induction t using nodewise with
  | binary op lhs rhs via ihl ihr =>
      cases via <;> simp [Tree.relabel, Tree.ty, ihl, ihr]
  | _ => simp_all [Tree.relabel, Tree.ty]

@[simp] theorem isAtom_relabel (t : Expr) : isAtom (t.relabel ρ) = isAtom t := by cases t <;> rfl
@[simp] theorem isCompound_relabel (t : Expr) : isCompound (t.relabel ρ) = isCompound t := by
  cases t <;> rfl
@[simp] theorem isOpenEnded_relabel (t : Expr) : isOpenEnded (t.relabel ρ) = isOpenEnded t := by
  cases t <;> rfl
@[simp] theorem isLiteral_relabel (t : Expr) : (t.relabel ρ).isLiteral = t.isLiteral := by
  cases t <;> rfl
@[simp] theorem isContainer_relabel (t : Expr) : isContainer (t.relabel ρ) = isContainer t := by
  cases t with
  | literal v ty => cases v <;> rfl
  | _ => rfl

theorem literalPiece_relabel (v : Value) : literalPiece (v.relabel ρ) = literalPiece v := by
  have htext := @Value.text_relabel ρ v
  cases v with
  | null | bool => rfl
  | _ => exact congrArg (Piece.mk (some .literal)) htext

theorem paramPieces_relabel (depth : Nat) (ps : List Param) :
    paramPieces depth (ps.map (Param.relabel ρ)) = paramPieces depth ps := by
  have hmany : (ps.map (Param.relabel ρ)).map (fun p => [Piece.named p.name]) =
      ps.map fun p => [Piece.named p.name] := by
    rw [List.map_map]
    rfl
  rcases ps with _ | ⟨p, _ | ⟨q, ps⟩⟩
  · rfl
  · rfl
  · exact congrArg (fun names => Piece.parens depth (Piece.commas names)) hmany

theorem piecesAll_relabel {ts : List Expr} {depth : Nat}
    (h : ∀ t ∈ ts, pieces depth (t.relabel ρ) = pieces depth t) :
    piecesAll depth (ts.map (Tree.relabel ρ)) = piecesAll depth ts := by
  induction ts with
  | nil => rfl
  | cons t ts ih =>
      rw [List.map_cons, piecesAll, piecesAll, h t (List.mem_cons_self ..),
        ih fun u hu => h u (List.mem_cons_of_mem _ hu)]

theorem pieces_relabel (t : Expr) (depth : Nat) : pieces depth (t.relabel ρ) = pieces depth t := by
  induction t using nodewise generalizing depth with
  | literal v ty => simp [Tree.relabel, pieces, literalPiece_relabel]
  | param p => rfl
  | staticMember m => simp [Tree.relabel, pieces]
  | member target m ih => simp [Tree.relabel, pieces, ih]
  | staticCall m args ih => simp [Tree.relabel, pieces, piecesAll_relabel fun t ht => ih t ht _]
  | call target m args iht ih =>
      simp [Tree.relabel, pieces, iht, piecesAll_relabel fun t ht => ih t ht _]
  | binary op lhs rhs via ihl ihr => simp [Tree.relabel, pieces, ihl, ihr]
  | unary op operand via ty ih => cases op <;> simp [Tree.relabel, pieces, ih]
  | lambda params body ih => simp [Tree.relabel, pieces, paramPieces_relabel, ih]
  | invoke callee args ihc ih =>
      simp [Tree.relabel, pieces, ihc, piecesAll_relabel fun t ht => ih t ht _]
  | conditional test ifTrue ifFalse iht ihp ihn => simp [Tree.relabel, pieces, iht, ihp, ihn]

@[simp] theorem text_relabel (t : Expr) : (t.relabel ρ).text = t.text := by
  unfold Tree.text
  rw [pieces_relabel]

@[simp] theorem unexpected_relabel (t : Expr) (expected : String) :
    (t.relabel ρ).unexpected expected = t.unexpected expected := by
  unfold unexpected
  rw [text_relabel]

/-! ## Putting trees together -/

theorem redeclare_relabel (hρ : Function.Injective ρ) (p : Param) (a : Expr) (ps : List Param) :
    redeclare (p.relabel ρ) (a.relabel ρ) (ps.map (Param.relabel ρ)) =
      (redeclare p a ps).map (Param.relabel ρ) := by
  cases a with
  | param r =>
      show List.map _ _ = List.map _ (List.map _ _)
      rw [List.map_map, List.map_map]
      refine List.map_congr_left fun q _ => ?_
      simp only [Function.comp_apply, (Param.relabel_injective hρ).eq_iff]
      split <;> rfl
  | _ => rfl

theorem substitute_relabel (hρ : Function.Injective ρ) (p : Param) (a t : Expr) :
    substitute (p.relabel ρ) (a.relabel ρ) (t.relabel ρ) = (substitute p a t).relabel ρ := by
  induction t using nodewise with
  | param q =>
      simp only [Tree.relabel, substitute, (Param.relabel_injective hρ).eq_iff]
      split <;> rfl
  | lambda params body ih => simp [Tree.relabel, substitute, redeclare_relabel hρ, ih]
  | _ => simp_all [Tree.relabel, substitute, substituteAll_eq_map]

theorem isCaptureOf_relabel (formal : FormalParam) (target : Expr) (m : Member Getter) :
    isCaptureOf formal (target.relabel ρ) (m.relabel ρ) = isCaptureOf formal target m := by
  simp [isCaptureOf]

theorem bindArgument_relabel (formal : FormalParam) (a t : Expr) :
    bindArgument formal (a.relabel ρ) (t.relabel ρ) = (bindArgument formal a t).relabel ρ := by
  induction t using nodewise with
  | member target m ih =>
      simp only [Tree.relabel, bindArgument, isCaptureOf_relabel]
      split
      · rfl
      · rw [ih, Tree.relabel]
  | _ => simp_all [Tree.relabel, bindArgument, bindArgumentAll_eq_map]

theorem expectLambda_relabel (t : Expr) :
    (t.relabel ρ).expectLambda = t.expectLambda.map (Lambda.relabel ρ) := by
  have hrefused : (.error ((t.relabel ρ).unexpected "a lambda") : Except Error Lam) =
      (.error (t.unexpected "a lambda") : Except Error Lam).map (Lambda.relabel ρ) := by
    rw [unexpected_relabel]
    rfl
  cases t with
  | lambda params body => rfl
  | _ => exact hrefused

theorem stripConversions_relabel (t : Expr) :
    stripConversions (t.relabel ρ) = (stripConversions t).relabel ρ := by
  induction t using nodewise with
  | unary op operand via ty ih =>
      cases op with
      | not | negate => rfl
      | convert =>
          cases via with
          | none => rfl
          | some m =>
              simp only [Tree.relabel, Method.relabel?, stripConversions, Method.declaredBy_relabel]
              split
              · exact ih
              · rfl
  | _ => rfl

end Tree

namespace Lambda

@[simp] theorem text_relabel (l : Lam) : (l.relabel ρ).text = l.text := by
  unfold Lambda.text
  rw [relabel_tree, Tree.text_relabel]

theorem singleParam_relabel (l : Lam) :
    (l.relabel ρ).singleParam = l.singleParam.map (Param.relabel ρ) := by
  unfold singleParam
  rw [relabel_params, text_relabel]
  generalize l.params = ps
  rcases ps with _ | ⟨p, _ | ⟨q, ps⟩⟩ <;> simp [Except.map]

theorem expectSingle_relabel (l : Lam) (argument : String) :
    (l.relabel ρ).expectSingle argument = (l.expectSingle argument).map (Param.relabel ρ) := by
  unfold expectSingle
  rw [relabel_params, text_relabel]
  generalize l.params = ps
  rcases ps with _ | ⟨p, _ | ⟨q, ps⟩⟩ <;> simp [Except.map]

theorem applied_relabel (hρ : Function.Injective ρ) (l : Lam) (a : Expr) :
    (l.relabel ρ).applied (a.relabel ρ) = (l.applied a).map (Tree.relabel ρ) := by
  unfold applied
  rw [singleParam_relabel, relabel_body]
  cases l.singleParam with
  | error e => rfl
  | ok p => exact congrArg Except.ok (Tree.substitute_relabel hρ p a l.body)

theorem combined_relabel (hρ : Function.Injective ρ) (op : BinaryOp) (lhs rhs : Lam) :
    combined op (lhs.relabel ρ) (rhs.relabel ρ) = (combined op lhs rhs).map (Lambda.relabel ρ) := by
  unfold combined
  rw [singleParam_relabel, singleParam_relabel, relabel_body, relabel_body]
  cases lhs.singleParam with
  | error e => rfl
  | ok p =>
      cases rhs.singleParam with
      | error e => rfl
      | ok q =>
          have hbody := Tree.substitute_relabel hρ q (.param p) rhs.body
          exact congrArg (fun b => Except.ok (Lambda.mk [p.relabel ρ] (.operation op (lhs.body.relabel ρ) b)))
            hbody

theorem negation_relabel (predicate : Lam) :
    negation (predicate.relabel ρ) = (negation predicate).map (Lambda.relabel ρ) := by
  unfold negation
  rw [singleParam_relabel, relabel_body]
  cases predicate.singleParam <;> rfl

theorem composed_relabel (hρ : Function.Injective ρ) (f g : Lam) :
    composed (f.relabel ρ) (g.relabel ρ) = (composed f g).map (Lambda.relabel ρ) := by
  unfold composed
  rw [singleParam_relabel, singleParam_relabel, relabel_body, relabel_body]
  cases f.singleParam with
  | error e => rfl
  | ok x =>
      cases g.singleParam with
      | error e => rfl
      | ok p =>
          have hbody := Tree.substitute_relabel hρ x g.body f.body
          exact congrArg (fun b => Except.ok (Lambda.mk [p.relabel ρ] b)) hbody

theorem continued_relabel (hρ : Function.Injective ρ) (f g : Lam) :
    continued (f.relabel ρ) (g.relabel ρ) = (continued f g).map (Lambda.relabel ρ) := by
  unfold continued
  rw [singleParam_relabel, singleParam_relabel, relabel_body, relabel_body]
  cases f.singleParam with
  | error e => rfl
  | ok s =>
      cases g.singleParam with
      | error e => rfl
      | ok x =>
          have hbody := Tree.substitute_relabel hρ x f.body g.body
          exact congrArg (fun b => Except.ok (Lambda.mk [s.relabel ρ] b)) hbody

end Lambda

end DualForm
