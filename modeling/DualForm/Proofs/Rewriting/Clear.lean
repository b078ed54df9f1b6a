import DualForm.Proofs.Composition
import DualForm.Proofs.Rewriting.Visit
import DualForm.Proofs.Tree.Substitution

/-!
# Trees a pass has nothing to do in

* `DualPass.acts` — whether a pass replaces a node whatever its subtrees are.
* `Tree.Clear pass t` — no such node is left in `t`.

Principal results: `rewrite_clears` — a pass leaves nothing of its own to do;
`rewrite_keeps_clear` — the passes after the first bring nothing back for another pass, as long as
the published tree forms hold nothing for it; `rewriteDefault_clear` — the same for the whole
pipeline.
-/

namespace DualForm

open Act (Gives)

variable {α β : Type} {pass other : DualPass} {E : Engine} {host : Host}

/-- The pass replaces a node whatever its subtrees are. -/
def DualPass.acts : DualPass → ExprNode α → Bool
  | .factories, .staticCall m _ | .factories, .call _ m _ => isBinding m
  | .combinators, .binary op _ _ via =>
      (op = .and ∨ op = .andAlso) ∧ isCombinator via Specification.andName ∨
        (op = .or ∨ op = .orElse) ∧ isCombinator via Specification.orName
  | .combinators, .unary op _ via _ => op = .not ∧ isCombinator via Specification.notName
  | .inlining kind, .literal _ ty => ty.declares (.dual kind)
  | .inlining kind, .staticMember m => m.ty.declares (.dual kind)
  | .inlining kind, .unary .convert _ (some m) _ => m.declaredBy (.dual kind)
  | _, _ => false

/-- No node is left that the pass would replace whatever its subtrees are. -/
def Tree.Clear (pass : DualPass) (t : Expr) : Prop := t.Everywhere fun u => pass.acts u.node = false

theorem acts_map (f : α → β) (n : ExprNode α) : pass.acts (n.map f) = pass.acts n := by
  cases pass with
  | factories => cases n <;> rfl
  | combinators => cases n <;> rfl
  | inlining kind =>
      cases n with
      | unary op operand via ty => cases op <;> cases via <;> rfl
      | _ => rfl

theorem acts_head {t u : Expr} (h : t.head = u.head) : pass.acts t.node = pass.acts u.node := by
  rw [← acts_map (fun _ => ()) t.node, ← acts_map (fun _ => ()) u.node]
  exact congrArg pass.acts h

theorem acts_given (n : Visited) : pass.acts n.given.node = pass.acts n := by
  unfold Visited.given
  rw [Tree.node_tree, acts_map]

theorem acts_lambda (ps : List Param) (a : α) : pass.acts (.lambda ps a : ExprNode α) = false := by
  cases pass <;> rfl

theorem acts_param (p : Param) : pass.acts (.param p : ExprNode α) = false := by
  cases pass <;> rfl

theorem acts_operation (op : BinaryOp) (a b : α) :
    pass.acts (.binary op a b none : ExprNode α) = false := by
  cases pass <;> simp [DualPass.acts, isCombinator]

theorem acts_complement (a : α) :
    pass.acts (.unary .not a none .bool : ExprNode α) = false := by
  cases pass <;> simp [DualPass.acts, isCombinator]

namespace Tree

theorem clear_shallow (pass : DualPass) : Shallow fun u : Expr => pass.acts u.node = false where
  head h hp := by rw [← acts_head h]; exact hp
  lambda ps b _ := acts_lambda ps b

theorem clear_param (p : Param) : Clear pass (.param p) :=
  everywhere_leaf (acts_param p) rfl

theorem clear_lambda {ps : List Param} {b : Expr} : Clear pass (.lambda ps b) ↔ Clear pass b := by
  constructor
  · intro h; exact h.child (List.mem_singleton.2 rfl)
  · intro h
    refine everywhere_single (acts_lambda ps b) rfl ?_
    exact h

theorem clear_operation {op : BinaryOp} {a b : Expr} (ha : Clear pass a) (hb : Clear pass b) :
    Clear pass (operation op a b) := by
  refine everywhere_pair (acts_operation op a b) rfl ?_ ?_
  · exact ha
  · exact hb

theorem clear_complement {a : Expr} (ha : Clear pass a) : Clear pass a.complement := by
  refine everywhere_single (acts_complement a) rfl ?_
  exact ha

theorem Clear.substitute {p : Param} {arg t : Expr} (ha : Clear pass arg) (ht : Clear pass t) :
    Clear pass (substitute p arg t) := Everywhere.substitute (clear_shallow pass) ha ht

end Tree

/-! ## Lambdas made of lambdas -/

theorem applied_clear {l : Lam} {arg t : Expr} (h : l.applied arg = .ok t) (hl : l.tree.Clear pass)
    (ha : arg.Clear pass) : t.Clear pass := by
  obtain ⟨p, _, rfl⟩ := Lambda.applied_ok.1 h
  exact ha.substitute (Tree.clear_lambda.1 hl)

theorem combined_clear {op : BinaryOp} {lhs rhs l : Lam} (h : Lambda.combined op lhs rhs = .ok l)
    (hl : lhs.tree.Clear pass) (hr : rhs.tree.Clear pass) : l.tree.Clear pass := by
  obtain ⟨p, _, q, _, rfl⟩ := Lambda.combined_ok.1 h
  refine Tree.clear_lambda.2 (Tree.clear_operation (Tree.clear_lambda.1 hl) ?_)
  exact (Tree.clear_param p).substitute (Tree.clear_lambda.1 hr)

theorem negation_clear {predicate l : Lam} (h : Lambda.negation predicate = .ok l)
    (hp : predicate.tree.Clear pass) : l.tree.Clear pass := by
  obtain ⟨p, _, rfl⟩ := Lambda.negation_ok.1 h
  exact Tree.clear_lambda.2 (Tree.clear_complement (Tree.clear_lambda.1 hp))

/-! ## Rebuilt nodes -/

theorem clear_of_parts {n : Visited} {t : Expr} (ht : t.head = n.given.head)
    (hn : pass.acts n = false) (h : ∀ c ∈ t.children, c.Clear pass) : t.Clear pass :=
  Tree.everywhere_iff.2 ⟨by rw [acts_head ht, acts_given]; exact hn, h⟩

theorem rebuild_clears {n : Visited} {Q : Store → Prop}
    (h : ∀ c ∈ n.children, Gives Q (fun t => t.Clear pass) c.2) (hn : pass.acts n = false) :
    Gives Q (fun t => t.Clear pass) n.rebuild :=
  (rebuild_results (Gives.logic _) (R := fun _ t => t.Clear pass) h).imp fun _ ⟨ht, hc⟩ =>
    clear_of_parts ht hn (forall_right hc fun _ _ _ h => h)

theorem rebuild_keeps_clear {n : Visited} {Q : Store → Prop}
    (h : ∀ c ∈ n.children, Gives Q (fun t => c.1.Clear other → t.Clear other) c.2) :
    Gives Q (fun t => n.given.Clear other → t.Clear other) n.rebuild := by
  refine (rebuild_results (Gives.logic _) (R := fun c t => c.1.Clear other → t.Clear other) h).imp ?_
  rintro t ⟨ht, hc⟩ hn
  have hhere := hn.here
  rw [acts_given] at hhere
  exact clear_of_parts ht hhere <|
    forall_right hc fun c u hmem hu => hu (hn.child (Visited.given_child hmem))

/-! ## A pass leaves nothing of its own -/

theorem factoryRule_clears {n : Visited}
    (h : ∀ c ∈ n.children, Gives (fun _ => True) (fun t => t.Clear .factories) c.2) :
    Gives (fun _ => True) (fun t => t.Clear .factories) (factoryRule E n) := by
  unfold factoryRule
  split
  · split
    · exact Gives.fail _
    · rename_i hb
      exact rebuild_clears h (by simpa [DualPass.acts] using hb)
  · split
    · rename_i hb
      exact rebuild_clears h (by simpa [DualPass.acts] using hb)
    · refine Gives.unknown.bind fun receiver => Gives.unknown.bind fun v => ?_
      split
      · exact Gives.fail _
      · refine Gives.unknown.bind fun args => Gives.unknown.bind fun bound => ?_
        refine Gives.pure fun _ _ _ _ => Tree.everywhere_iff.2 ⟨rfl, fun c hc => ?_⟩
        cases hc
  · rename_i hstatic hcall
    refine rebuild_clears h ?_
    cases n with
    | staticCall m args => exact absurd rfl (hstatic m args)
    | call target m args => exact absurd rfl (hcall target.1 target.2 m args)
    | _ => rfl

theorem combinatorRule_clears {n : Visited}
    (hE : ∀ t, Gives (fun _ => True) (fun u => u.Clear .combinators) (E.rewrite .combinators t))
    (h : ∀ c ∈ n.children, Gives (fun _ => True) (fun t => t.Clear .combinators) c.2) :
    Gives (fun _ => True) (fun t => t.Clear .combinators) (combinatorRule E n) := by
  unfold combinatorRule
  split
  · split
    · exact Gives.unknown.bind fun l => Gives.unknown.bind fun r => Gives.unknown.bind fun c =>
        (hE _).imp fun _ h _ _ _ => h
    · split
      · exact Gives.unknown.bind fun l => Gives.unknown.bind fun r => Gives.unknown.bind fun c =>
          (hE _).imp fun _ h _ _ _ => h
      · rename_i hand hor
        exact rebuild_clears h (by simpa [DualPass.acts] using And.intro hand hor)
  · split
    · exact Gives.unknown.bind fun l => Gives.unknown.bind fun c => (hE _).imp fun _ h _ _ => h
    · rename_i hnot
      exact rebuild_clears h (by simpa [DualPass.acts] using hnot)
  · rename_i hbinary hunary
    refine rebuild_clears h ?_
    cases n with
    | binary op lhs rhs via => exact absurd rfl (hbinary op lhs rhs via)
    | unary op operand via ty => exact absurd rfl (hunary op operand via ty)
    | _ => rfl

section Inlining

variable {kind : DualKind} {n : Visited}
  (hE : ∀ t, Gives (fun _ => True) (fun u => u.Clear (.inlining kind))
    (E.rewrite (.inlining kind) t))
  (h : ∀ c ∈ n.children, Gives (fun _ => True) (fun t => t.Clear (.inlining kind)) c.2)

include hE h

theorem spliceDual_clears (hn : n.given.folds = true ∨ DualPass.acts (.inlining kind) n = false) :
    Gives (fun _ => True) (fun t => t.Clear (.inlining kind)) (spliceDual E kind n) := by
  unfold spliceDual
  rcases hn with hfolds | hacts
  · refine (foldDual_of_folds hfolds kind).bind fun o => ?_
    split
    · exact (hE _).imp fun _ h _ => h
    · exact Gives.unknown.imp fun _ _ h => by cases h
  · refine Gives.unknown.bind fun o => ?_
    split
    · exact (hE _).imp fun _ h _ => h
    · exact (rebuild_clears h hacts).imp fun _ h _ => h

theorem evaluationRule_clears (hn : DualPass.acts (.inlining kind) n = false) (receiver arg : Expr) :
    Gives (fun _ => True) (fun t => t.Clear (.inlining kind))
      (evaluationRule E kind receiver arg n) := by
  refine Gives.bind (p := fun o => ∀ t, o = some t → t.Clear (.inlining kind)) ?_ fun o => ?_
  · unfold inlineCall
    refine Gives.unknown.bind fun l => ?_
    split
    · exact Gives.pure fun _ t h => by cases h
    · refine Gives.unknown.bind fun body => (hE _).bind fun t => ?_
      exact Gives.pure fun ht _ _ u hu => by cases hu; exact ht
  · split
    · exact Gives.pure fun h => h _ rfl
    · exact (rebuild_clears h hn).imp fun _ h _ => h

theorem inliningRule_clears :
    Gives (fun _ => True) (fun t => t.Clear (.inlining kind)) (inliningRule E kind n) := by
  unfold inliningRule
  split
  · split
    · exact evaluationRule_clears hE h rfl _ _
    · exact rebuild_clears h rfl
  · split
    · exact evaluationRule_clears hE h rfl _ _
    · exact rebuild_clears h rfl
  · rename_i receiver rewriteReceiver m
    have hrest : Gives (fun _ => True) (fun t => t.Clear (.inlining kind))
        (if m.ty.declares (.dual kind) then
          spliceDual E kind (.member (receiver, rewriteReceiver) m)
        else Visited.rebuild (.member (receiver, rewriteReceiver) m)) := by
      split
      · exact spliceDual_clears hE h (.inr rfl)
      · exact rebuild_clears h rfl
    dsimp only
    split
    · refine Gives.unknown.bind fun b => ?_
      split
      · exact (h (receiver, rewriteReceiver) (by simp [Node.children])).imp fun _ h _ => h
      · exact hrest.imp fun _ h _ => h
    · exact hrest
  · split
    · exact spliceDual_clears hE h (.inl rfl)
    · rename_i hty
      exact rebuild_clears h (by simpa [DualPass.acts] using hty)
  · split
    · exact spliceDual_clears hE h (.inl rfl)
    · rename_i hty
      exact rebuild_clears h (by simpa [DualPass.acts] using hty)
  · rename_i operand rewriteOperand m ty
    split
    · exact h (operand, rewriteOperand) (by simp [Node.children])
    · rename_i hm
      exact rebuild_clears h (by simpa [DualPass.acts] using hm)
  · rename_i hstatic hliteral hconvert
    refine rebuild_clears h ?_
    cases n with
    | staticMember m => exact absurd rfl (hstatic m)
    | literal v ty => exact absurd rfl (hliteral v ty)
    | unary op operand via ty =>
        cases op <;> cases via <;> first | rfl | exact (hconvert _ _ _ _ rfl).elim
    | _ => rfl

end Inlining

/-- The induction is on the nested steps allowed; the one over the tree is that of the pass. -/
theorem rewrite_clears (pass : DualPass) : ∀ (n : Nat) (t : Expr),
    Gives (fun _ => True) (fun u => u.Clear pass) ((machine host n).rewrite pass t)
  | 0, _ => Gives.exhausted
  | n + 1, t => by
      have hE : ∀ t, Gives _ _ ((machine host n).rewrite pass t) := rewrite_clears pass n
      show Gives _ _ (pass.run (machine host n) t)
      induction t using Tree.childwise with
      | step t ih =>
          rw [DualPass.run_eq]
          have h : ∀ c ∈ (t.node.map fun u => (u, pass.run (machine host n) u)).children,
              Gives (fun _ => True) (fun u => u.Clear pass) c.2 := by
            intro c hc
            rw [Node.children_map] at hc
            obtain ⟨u, hu, rfl⟩ := List.mem_map.1 hc
            exact ih u hu
          cases pass with
          | factories => exact factoryRule_clears h
          | combinators => exact combinatorRule_clears hE h
          | inlining kind => exact inliningRule_clears hE h

/-! ## Later passes bring nothing back -/

section Keeping

variable (hE : E.Shows fun l => l.tree.Clear other)
  (hrw : ∀ t, Gives (Published fun l => l.tree.Clear other)
    (fun u => t.Clear other → u.Clear other) (E.rewrite pass t))

include hE

theorem predicateOperand_keeps_clear {operand : Expr × Act Expr}
    (h : Gives (Published fun l => l.tree.Clear other)
      (fun t => operand.1.Clear other → t.Clear other) operand.2) :
    Gives (Published fun l => l.tree.Clear other)
      (fun l => operand.1.Clear other → l.tree.Clear other) (predicateOperand E operand) := by
  unfold predicateOperand
  refine (foldDual_gives hE ..).bind fun o => ?_
  split
  · exact Gives.pure fun ho _ => ho _ rfl
  · refine h.bind fun t => ?_
    split
    · rename_i p body heq
      refine Gives.pure fun ht _ hoperand => ?_
      have := Tree.Everywhere.stripConversions (ht hoperand)
      rwa [heq] at this
    · refine (foldDual_gives hE ..).bind fun o => ?_
      split
      · exact Gives.pure fun ho _ _ _ => ho _ rfl
      · exact Gives.fail _

include hrw

theorem combinatorRule_keeps_clear {n : Visited} (hpass : pass = .combinators)
    (h : ∀ c ∈ n.children, Gives (Published fun l => l.tree.Clear other)
      (fun t => c.1.Clear other → t.Clear other) c.2) :
    Gives (Published fun l => l.tree.Clear other)
      (fun t => n.given.Clear other → t.Clear other) (combinatorRule E n) := by
  subst hpass
  have hboth : ∀ op lhs rhs via, n = .binary op lhs rhs via → ∀ combined : BinaryOp,
      Gives (Published fun l => l.tree.Clear other) (fun t => n.given.Clear other → t.Clear other)
        (do
          let l ← predicateOperand E lhs
          let r ← predicateOperand E rhs
          E.rewrite .combinators (← Act.lift (Lambda.combined combined l r)).tree) := by
    rintro op lhs rhs via rfl combined
    have hl : lhs ∈ (Node.binary op lhs rhs via : Visited).children := by simp [Node.children]
    have hr : rhs ∈ (Node.binary op lhs rhs via : Visited).children := by simp [Node.children]
    refine (predicateOperand_keeps_clear hE (h lhs hl)).bind fun l => ?_
    refine (predicateOperand_keeps_clear hE (h rhs hr)).bind fun r => ?_
    refine (Gives.lift fun c hc => hc).bind fun c => (hrw _).imp fun t ht hc hrc hlc hn => ht ?_
    exact combined_clear hc (hlc (hn.child (Visited.given_child hl)))
      (hrc (hn.child (Visited.given_child hr)))
  unfold combinatorRule
  split
  · split
    · exact hboth _ _ _ _ rfl .andAlso
    · split
      · exact hboth _ _ _ _ rfl .orElse
      · exact rebuild_keeps_clear h
  · rename_i op operand via ty
    split
    · refine (predicateOperand_keeps_clear hE (h operand (by simp [Node.children]))).bind fun l => ?_
      refine (Gives.lift fun c hc => hc).bind fun c => (hrw _).imp fun t ht hc hl hn => ht ?_
      exact negation_clear hc (hl (hn.child (List.mem_singleton.2 rfl)))
    · exact rebuild_keeps_clear h
  · exact rebuild_keeps_clear h

variable {kind : DualKind} {n : Visited}
  (h : ∀ c ∈ n.children, Gives (Published fun l => l.tree.Clear other)
    (fun t => c.1.Clear other → t.Clear other) c.2)

include h

theorem spliceDual_keeps_clear (hpass : pass = .inlining kind) :
    Gives (Published fun l => l.tree.Clear other) (fun t => n.given.Clear other → t.Clear other)
      (spliceDual E kind n) := by
  subst hpass
  unfold spliceDual
  refine (foldDual_gives hE ..).bind fun o => ?_
  split
  · exact (hrw _).imp fun t ht ho _ => ht (ho _ rfl)
  · exact (rebuild_keeps_clear h).imp fun t ht _ => ht

/-- An evaluation whose receiver and argument are parts of the node. -/
theorem evaluationRule_keeps_clear (hpass : pass = .inlining kind) {receiver arg : Expr}
    (hparts : n.given.Clear other → receiver.Clear other ∧ arg.Clear other) :
    Gives (Published fun l => l.tree.Clear other) (fun t => n.given.Clear other → t.Clear other)
      (evaluationRule E kind receiver arg n) := by
  subst hpass
  have hreceiver : Gives (Published fun l => l.tree.Clear other)
      (fun o => ∀ l, o = some l → receiver.Clear other → l.tree.Clear other)
      (receiverLambda E kind receiver) := by
    unfold receiverLambda
    split
    · exact Gives.pure fun l hl hr => by cases hl; exact hr
    · exact (foldDual_gives hE ..).imp fun o ho l hl _ => ho l hl
  refine Gives.bind (p := fun o => ∀ t, o = some t → n.given.Clear other → t.Clear other) ?_
    fun o => ?_
  · unfold inlineCall
    refine hreceiver.bind fun o => ?_
    split
    · exact Gives.pure fun _ t ht => by cases ht
    · rename_i l
      refine (Gives.lift fun b hb => hb).bind fun b => (hrw b).bind fun t => ?_
      refine Gives.pure fun ht hb ho u hu hn => ?_
      cases hu
      exact ht (applied_clear hb (ho l rfl (hparts hn).1) (hparts hn).2)
  · split
    · exact Gives.pure fun ho => ho _ rfl
    · exact (rebuild_keeps_clear h).imp fun t ht _ => ht

theorem inliningRule_keeps_clear (hpass : pass = .inlining kind) :
    Gives (Published fun l => l.tree.Clear other) (fun t => n.given.Clear other → t.Clear other)
      (inliningRule E kind n) := by
  have hsplice := spliceDual_keeps_clear hE hrw h hpass
  unfold inliningRule
  split
  · split
    · refine evaluationRule_keeps_clear hE hrw h hpass fun hn => ?_
      have hread := hn.child (c := .member _ _) (List.mem_cons_self ..)
      exact ⟨hread.child (List.mem_singleton.2 rfl),
        hn.child (List.mem_cons_of_mem _ (List.mem_singleton.2 rfl))⟩
    · exact rebuild_keeps_clear h
  · split
    · refine evaluationRule_keeps_clear hE hrw h hpass fun hn => ?_
      exact ⟨hn.child (List.mem_cons_self ..),
        hn.child (List.mem_cons_of_mem _ (List.mem_singleton.2 rfl))⟩
    · exact rebuild_keeps_clear h
  · rename_i receiver rewriteReceiver m
    have hrest : Gives (Published fun l => l.tree.Clear other)
        (fun t => (Tree.member receiver m : Expr).Clear other → t.Clear other)
        (if m.ty.declares (.dual kind) then
          spliceDual E kind (.member (receiver, rewriteReceiver) m)
        else Visited.rebuild (.member (receiver, rewriteReceiver) m)) := by
      split
      · exact hsplice
      · exact rebuild_keeps_clear h
    dsimp only
    split
    · have hknown : ∀ id l, (isReceiver E receiver).Keeps (TreePublished id l) := fun id l =>
        (isReceiver_concur (hE.keeps id l).concur receiver).keeps
      refine (gives_of_keeps hknown).bind fun b => ?_
      split
      · refine (h (receiver, rewriteReceiver) (by simp [Node.children])).imp fun t ht _ hn => ?_
        exact ht (hn.child (List.mem_singleton.2 rfl))
      · exact hrest.imp fun t ht _ => ht
    · exact hrest
  · split
    · exact hsplice
    · exact rebuild_keeps_clear h
  · split
    · exact hsplice
    · exact rebuild_keeps_clear h
  · rename_i operand rewriteOperand m ty
    split
    · refine (h (operand, rewriteOperand) (by simp [Node.children])).imp fun t ht hn => ?_
      exact ht (hn.child (List.mem_singleton.2 rfl))
    · exact rebuild_keeps_clear h
  · exact rebuild_keeps_clear h

end Keeping

/-- **A pass that binds no factories brings back nothing for another pass,** as long as the
published tree forms hold nothing for it. -/
theorem rewrite_keeps_clear (hh : host.KeepsTrees) (hpass : pass ≠ .factories) :
    ∀ (n : Nat) (t : Expr), Gives (Published fun l => l.tree.Clear other)
      (fun u => t.Clear other → u.Clear other) ((machine host n).rewrite pass t)
  | 0, _ => Gives.exhausted
  | n + 1, t => by
      have hE : (machine host n).Shows fun l => l.tree.Clear other := machine_shows hh n
      have hrw : ∀ t, Gives _ _ ((machine host n).rewrite pass t) := rewrite_keeps_clear hh hpass n
      show Gives _ _ (pass.run (machine host n) t)
      induction t using Tree.childwise with
      | step t ih =>
          have h : ∀ c ∈ (t.node.map fun u => (u, pass.run (machine host n) u)).children,
              Gives (Published fun l => l.tree.Clear other)
                (fun u => c.1.Clear other → u.Clear other) c.2 := by
            intro c hc
            rw [Node.children_map] at hc
            obtain ⟨u, hu, rfl⟩ := List.mem_map.1 hc
            exact ih u hu
          have hgiven := Visited.given_node t fun u => pass.run (machine host n) u
          rw [DualPass.run_eq]
          cases pass with
          | factories => exact absurd rfl hpass
          | combinators =>
              have := combinatorRule_keeps_clear hE hrw rfl h
              rwa [hgiven] at this
          | inlining kind =>
              have := inliningRule_keeps_clear hE hrw h rfl
              rwa [hgiven] at this

/-! ## The pipeline -/

theorem runPasses_keep_clear (hh : host.KeepsTrees) (n : Nat) : ∀ (passes : List DualPass),
    (∀ pass ∈ passes, pass ≠ .factories) → ∀ t, Gives (Published fun l => l.tree.Clear other)
      (fun u => t.Clear other → u.Clear other) (runPasses (machine host n) passes t)
  | [], _, _ => Gives.pure id
  | pass :: passes, h, t => by
      rw [runPasses_cons]
      refine (rewrite_keeps_clear hh (h pass (List.mem_cons_self ..)) n t).bind fun u => ?_
      refine (runPasses_keep_clear hh n passes (fun p hp => h p (List.mem_cons_of_mem _ hp)) u).imp ?_
      exact fun v hv hu ht => hv (hu ht)

/-- What a pass clears stays clear through the passes after it. -/
theorem runPasses_clear (hh : host.KeepsTrees) (n : Nat) (pass : DualPass) (before after : List DualPass)
    (hafter : ∀ p ∈ after, p ≠ .factories) (t : Expr) :
    Gives (Published fun l => l.tree.Clear pass) (fun u => u.Clear pass)
      (runPasses (machine host n) (before ++ pass :: after) t) := by
  have hkeeps : ∀ id l, (machine host n).Keeps (TreePublished id l) := fun id l =>
    machine_keeps (lasting_tree id l) (hh id l) n
  rw [runPasses_append]
  have hbefore : ∀ id l, (runPasses (machine host n) before t).Keeps (TreePublished id l) := fun id l =>
    (runPasses_concur (hkeeps id l).concur before t).keeps
  refine (gives_of_keeps hbefore).bind fun u => ?_
  rw [runPasses_cons]
  have hpass : Gives (Published fun l => l.tree.Clear pass) (fun v => v.Clear pass)
      ((machine host n).rewrite pass u) :=
    (gives_of_keeps fun id l => (hkeeps id l).rewrite pass u).strengthen (rewrite_clears pass n u)
  exact hpass.bind fun v => (runPasses_keep_clear hh n after hafter v).imp fun w hw hv _ => hw hv

/-- What the last pass clears needs nothing of the published forms. -/
theorem runPasses_clear_last (n : Nat) (pass : DualPass) (before : List DualPass) (t : Expr) :
    Gives (fun _ => True) (fun u => u.Clear pass)
      (runPasses (machine host n) (before ++ [pass]) t) := by
  rw [runPasses_append]
  refine Gives.unknown.bind fun u => ?_
  rw [runPasses_cons]
  exact (rewrite_clears pass n u).bind fun v => Gives.pure fun hv _ => hv

/-- **The pipeline leaves no pass anything to do on the spot,** as long as the published tree
forms hold nothing for the passes before the last one. -/
theorem rewriteDefault_clear (hh : host.KeepsTrees) {n : Nat} {e e₁ : Expr} {s s₁ : Store}
    (h : rewriteDefault (machine host n) e s = .ok e₁ s₁)
    (hpub : ∀ pass ≠ .inlining .projection, Published (fun l => l.tree.Clear pass) s₁)
    (pass : DualPass) : e₁.Clear pass := by
  rw [rewriteDefault_eq] at h
  match pass with
  | .factories =>
      have := runPasses_clear hh n .factories []
        [.combinators, .inlining .specification, .inlining .projection] (by decide) e
      exact (this.result s e₁ s₁ h (hpub _ (by decide))).2
  | .combinators =>
      have := runPasses_clear hh n .combinators [.factories]
        [.inlining .specification, .inlining .projection] (by decide) e
      exact (this.result s e₁ s₁ h (hpub _ (by decide))).2
  | .inlining .specification =>
      have := runPasses_clear hh n (.inlining .specification) [.factories, .combinators]
        [.inlining .projection] (by decide) e
      exact (this.result s e₁ s₁ h (hpub _ (by decide))).2
  | .inlining .projection =>
      have hlast : Gives (fun _ => True) (fun u => u.Clear (.inlining .projection))
          (runPasses (machine host n) DualPass.all e) :=
        runPasses_clear_last n (.inlining .projection)
          [.factories, .combinators, .inlining .specification] e
      exact (hlast.result s e₁ s₁ h trivial).2

end DualForm
