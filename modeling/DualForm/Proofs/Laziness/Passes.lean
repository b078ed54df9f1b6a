import DualForm.Proofs.Composition
import DualForm.Proofs.Factory.Capture
import DualForm.Proofs.Laziness.Mirroring
import DualForm.Rewriting.Pass

/-!
# Rewriting beside rewriting

Trees that hold given objects only are rewritten to the same trees, which again hold given objects only.

Principal results: `foldDual_mirrors` — the tree form of the dual a tree folds to; `pass_mirrors` — a pass,
whose rules ask for values and tree forms and leave the rest of the tree to the pass itself;
`rewriteLambda_mirrors` — the pipeline over a lambda; `pass_run_mirrors` — anything that rewrites trees.
-/

namespace DualForm

variable {G : Ground} {X : World → Prop} {F : Nat → Engine} {E : Engine} {W : World} {t u : Expr}
  {l k : Lam} {p : Param}

/-! ## Trees that hold given objects only -/

theorem givenNode_eq (t : Expr) : Tree.GivenNode G t ↔
    Tree.GivenNode G (t.head.map fun _ => (default : Expr)).tree := by cases t <;> exact Iff.rfl

theorem givenNode_shallow : Tree.Shallow (Tree.GivenNode G) where
  head {t u} h ht := by
    rw [givenNode_eq] at ht ⊢
    rwa [← h]
  lambda _ _ _ := trivial

namespace Tree.Given

theorem substitute {a : Expr} (ha : a.Given G) (ht : t.Given G) : (Tree.substitute p a t).Given G :=
  Everywhere.substitute givenNode_shallow ha ht

theorem param (p : Param) : (Tree.param p : Expr).Given G :=
  everywhere_leaf trivial rfl

theorem lambda_iff {ps : List Param} {b : Expr} : (Tree.lambda ps b).Given G ↔ b.Given G := by
  exact ⟨fun h => h.child (List.mem_singleton.2 rfl), everywhere_single trivial rfl⟩

theorem operation {a b : Expr} (op : BinaryOp) (ha : a.Given G) (hb : b.Given G) :
    (Tree.operation op a b).Given G := by
  refine everywhere_pair (fun m hm => (by cases hm)) rfl ?_ ?_
  · exact ha
  · exact hb

theorem complement {a : Expr} (ha : a.Given G) : a.complement.Given G := by
  refine everywhere_single (fun m hm => (by cases hm)) rfl ?_
  exact ha

end Tree.Given

/-! ## Compositions of lambdas -/

theorem applied_given {arg : Expr} (hl : l.body.Given G) (ha : arg.Given G) (h : l.applied arg = .ok t) :
    t.Given G := by
  obtain ⟨p, _, rfl⟩ := Lambda.applied_ok.1 h
  exact ha.substitute hl

theorem combined_given {op : BinaryOp} {r : Lam} (hl : l.body.Given G) (hk : k.body.Given G)
    (h : Lambda.combined op l k = .ok r) : r.body.Given G := by
  obtain ⟨p, _, q, _, rfl⟩ := Lambda.combined_ok.1 h
  exact .operation op hl (Tree.Given.substitute (.param p) hk)

theorem negation_given {r : Lam} (hl : l.body.Given G) (h : Lambda.negation l = .ok r) :
    r.body.Given G := by
  obtain ⟨p, _, rfl⟩ := Lambda.negation_ok.1 h
  exact hl.complement

theorem composed_given {r : Lam} (hl : l.body.Given G) (hk : k.body.Given G)
    (h : Lambda.composed l k = .ok r) : r.body.Given G := by
  obtain ⟨x, _, p, _, rfl⟩ := Lambda.composed_ok.1 h
  exact hk.substitute hl

theorem expectLambda_given (ht : t.Given G) (h : t.expectLambda = .ok l) : l.body.Given G := by
  unfold Tree.expectLambda at h
  cases t <;> cases h
  exact Tree.Given.lambda_iff.1 ht

/-! ## Folding -/

/-- The same lambda, if any, which holds given objects only. -/
abbrev SameFold (G : Ground) : World → Option Lam → Option Lam → Prop := Same fun a => ∀ l ∈ a, l.body.Given G

theorem tryEvaluate_mirrors (hE : E.Mirrors G X F) (ht : t.Given G) :
    ∀ {W : World}, Mirrors G X F (fun W => Option.Rel W.value) W (tryEvaluate E t)
      fun E => tryEvaluate E t := by
  induction t using Tree.nodewise with
  | literal v ty =>
      intro W
      unfold tryEvaluate
      exact .assuming fun hW => .pure (.some (hW.given_value ht.here))
  | staticMember m =>
      intro W
      unfold tryEvaluate
      exact (read_mirrors hE ht.here .none).bind fun _ _ _ _ hv => .pure (.some hv)
  | member target m ih =>
      intro W
      unfold tryEvaluate
      refine (ih (ht.child (List.mem_singleton.2 rfl))).bind fun V hle a b hab => ?_
      cases hab with
      | none => exact .pure .none
      | some hv => exact (read_mirrors hE ht.here (.some hv)).bind fun _ _ _ _ hw => .pure (.some hw)
  | param | staticCall | call | binary | unary | lambda | invoke | conditional =>
      intro W
      unfold tryEvaluate
      exact .pure .none

theorem foldDual_mirrors (hE : E.Mirrors G X F) (kind : DualKind) (ht : t.Given G) :
    Mirrors G X F (SameFold G) W (foldDual E kind t) fun E => foldDual E kind t := by
  unfold foldDual
  refine (tryEvaluate_mirrors hE ht).bind fun V hle a b hab => ?_
  cases hab with
  | none => exact .pure ⟨rfl, fun _ h => by cases h⟩
  | @some v w hv =>
      dsimp only
      rw [← World.isNull_eq hv]
      split
      · exact .fail _
      · refine (dual_mirrors kind hv).bind fun V' _ d e hd => (hE.tree hd).bind fun U _ l k hl => ?_
        obtain ⟨rfl, hgiven⟩ := hl
        exact .pure ⟨rfl, fun _ h => by cases h; exact hgiven⟩

theorem evaluateNotNull_mirrors (hE : E.Mirrors G X F) (ht : t.Given G) :
    Mirrors G X F World.value W (evaluateNotNull E t) fun E => evaluateNotNull E t := by
  unfold evaluateNotNull evaluateNow
  refine Mirrors.bind (R := World.value) ?_ fun V hle v w hv => ?_
  · refine (tryEvaluate_mirrors hE ht).bind fun V hle a b hab => ?_
    cases hab with
    | none => exact .fail _
    | some hv => exact .pure hv
  · rw [← World.isNull_eq hv]
    split
    · exact .fail _
    · exact .pure hv

/-! ## Rules -/

section Rules

variable {m : ExprNode Expr} {f : Expr → Act Expr} {g : Engine → Expr → Act Expr}

/-- The ways to rewrite these trees mirror each other. -/
def Rewrites (G : Ground) (X : World → Prop) (F : Nat → Engine) (f : Expr → Act Expr)
    (g : Engine → Expr → Act Expr) (ts : List Expr) : Prop :=
  ∀ t ∈ ts, ∀ W, Mirrors G X F (SameTree G) W (f t) fun E => g E t

theorem rewriteArgs_mirrors {args : List Expr} (h : Rewrites G X F f g args) :
    Mirrors G X F (Same fun ts => ∀ t ∈ ts, t.Given G) W
      ((args.map fun u => (u, f u)).mapM Prod.snd)
      fun E => (args.map fun u => (u, g E u)).mapM Prod.snd := by
  simp only [List.mapM_map]
  exact Mirrors.mapM fun V _ t ht => h t ht V

/-- The same node, on the same subtrees, which hold given objects only. -/
abbrev SameNode (G : Ground) : World → ExprNode Expr → ExprNode Expr → Prop := Same fun n => n.tree.Given G

theorem node_given {n : ExprNode Expr} (hn : Tree.GivenNode G n.tree) (hc : ∀ c ∈ n.children, c.Given G) :
    n.tree.Given G := by
  refine Tree.everywhere_iff.2 ⟨hn, ?_⟩
  unfold Tree.children
  rw [Tree.node_tree]
  exact hc

/-- The node on its rewritten subtrees. -/
theorem traverse_mirrors (h : Rewrites G X F f g m.children) (hm : Tree.GivenNode G m.tree) :
    Mirrors G X F (SameNode G) W ((Visited.over m f).traverse Prod.snd)
      fun E => (Visited.over m (g E)).traverse Prod.snd := by
  cases m with
  | literal | param | staticMember => exact .pure ⟨rfl, node_given hm fun c hc => by cases hc⟩
  | member target m =>
      refine (h target (by simp [Node.children]) W).bindSame fun V _ u hu => ?_
      exact .pure ⟨rfl, node_given hm (by simpa [Node.children] using hu)⟩
  | unary op operand via ty =>
      refine (h operand (by simp [Node.children]) W).bindSame fun V _ u hu => ?_
      exact .pure ⟨rfl, node_given hm (by simpa [Node.children] using hu)⟩
  | lambda params body =>
      refine (h body (by simp [Node.children]) W).bindSame fun V _ u hu => ?_
      exact .pure ⟨rfl, node_given hm (by simpa [Node.children] using hu)⟩
  | staticCall m args =>
      refine (rewriteArgs_mirrors h).bindSame fun V _ us hus => ?_
      exact .pure ⟨rfl, node_given hm hus⟩
  | call target m args =>
      refine (h target (by simp [Node.children]) W).bindSame fun V _ u hu => ?_
      refine (rewriteArgs_mirrors fun a ha => h a (by simp [Node.children, ha])).bindSame fun V' _ us hus => ?_
      exact .pure ⟨rfl, node_given hm (List.forall_mem_cons.2 ⟨hu, hus⟩)⟩
  | invoke callee args =>
      refine (h callee (by simp [Node.children]) W).bindSame fun V _ u hu => ?_
      refine (rewriteArgs_mirrors fun a ha => h a (by simp [Node.children, ha])).bindSame fun V' _ us hus => ?_
      exact .pure ⟨rfl, node_given hm (List.forall_mem_cons.2 ⟨hu, hus⟩)⟩
  | binary op lhs rhs via =>
      refine (h lhs (by simp [Node.children]) W).bindSame fun V _ a ha => ?_
      refine (h rhs (by simp [Node.children]) V).bindSame fun V' _ b hb => ?_
      exact .pure ⟨rfl, node_given hm (by simpa [Node.children] using ⟨ha, hb⟩)⟩
  | conditional test ifTrue ifFalse =>
      refine (h test (by simp [Node.children]) W).bindSame fun V _ a ha => ?_
      refine (h ifTrue (by simp [Node.children]) V).bindSame fun V' _ b hb => ?_
      refine (h ifFalse (by simp [Node.children]) V').bindSame fun U _ c hc => ?_
      exact .pure ⟨rfl, node_given hm (by simpa [Node.children] using ⟨ha, hb, hc⟩)⟩

theorem rebuild_mirrors (h : Rewrites G X F f g m.children) (hm : Tree.GivenNode G m.tree) :
    Mirrors G X F (SameTree G) W (Visited.over m f).rebuild fun E => (Visited.over m (g E)).rebuild := by
  unfold Visited.rebuild
  refine (traverse_mirrors h hm).bindSame fun V _ n hn => ?_
  exact .pure ⟨rfl, hn⟩

theorem factoryRule_staticCall (E : Engine) (m : Method Invoker) (args : List Expr) (f : Expr → Act Expr) :
    factoryRule E (Visited.over (.staticCall m args) f) =
      if isBinding m then Act.fail ((Tree.staticCall m args).unexpected "a factory receiver")
      else (Visited.over (.staticCall m args) f).rebuild := by
  show (if isBinding m then Act.fail ((Visited.over (.staticCall m args) f).given.unexpected _) else _) = _
  rw [Visited.given_over]
  rfl

/-- There are no factories to bind. -/
theorem factoryRule_mirrors (hE : E.Mirrors G X F) (h : Rewrites G X F f g m.children)
    (hm : Tree.GivenNode G m.tree) :
    Mirrors G X F (SameTree G) W (factoryRule E (Visited.over m f))
      fun E => factoryRule E (Visited.over m (g E)) := by
  have hrebuild := rebuild_mirrors (W := W) h hm
  cases m with
  | staticCall m args =>
      simp only [factoryRule_staticCall]
      by_cases hbinding : isBinding m
      · simp only [if_pos hbinding]
        exact .fail _
      · simp only [if_neg hbinding]
        exact hrebuild
  | call target m args =>
      show Mirrors G X F (SameTree G) W (ite ..) fun E => ite ..
      by_cases hbinding : isBinding m
      · simp only [hbinding, not_true, if_false]
        refine (h target (by simp [Node.children]) W).bindSame fun V _ u hu => ?_
        refine (evaluateNotNull_mirrors hE hu).bind fun V' _ v w hv => ?_
        obtain ⟨hv, hw⟩ := World.no_factory hv
        rw [hv, hw]
        exact .fail _
      · simp only [hbinding]
        exact hrebuild
  | literal | param | staticMember | member | binary | unary | lambda | invoke | conditional =>
      exact hrebuild

theorem predicateOperand_mirrors (hE : E.Mirrors G X F) (ht : t.Given G)
    (h : ∀ W, Mirrors G X F (SameTree G) W (f t) fun E => g E t) :
    Mirrors G X F (SameLambda G) W (predicateOperand E (t, f t))
      fun E => predicateOperand E (t, g E t) := by
  unfold predicateOperand
  refine (foldDual_mirrors hE _ (Tree.Everywhere.stripConversions ht)).bindSame fun V _ a ha => ?_
  cases a with
  | some l => exact .pure ⟨rfl, ha l rfl⟩
  | none =>
      refine (h V).bindSame fun V' _ u hu => ?_
      have hstripped : (stripConversions u).Given G := Tree.Everywhere.stripConversions hu
      split
      · rename_i hlambda
        rw [hlambda] at hstripped
        exact .pure ⟨rfl, Tree.Given.lambda_iff.1 hstripped⟩
      · refine (foldDual_mirrors hE _ hstripped).bindSame fun U _ a ha => ?_
        cases a with
        | some l => exact .pure ⟨rfl, ha l rfl⟩
        | none => exact .fail _

/-- A lambda made of others, rewritten. -/
theorem made_mirrors (hE : E.Mirrors G X F) {q : Except Error Lam} (h : ∀ l, q = .ok l → l.body.Given G) :
    Mirrors G X F (SameTree G) W (do E.rewrite .combinators (← Act.lift q).tree)
      fun E => (do E.rewrite .combinators (← Act.lift q).tree) := by
  refine (Mirrors.liftSame h).bindSame fun V _ l hl => ?_
  exact hE.rewrite (Tree.Given.lambda_iff.2 hl) .combinators

theorem combinatorRule_mirrors (hE : E.Mirrors G X F) (h : Rewrites G X F f g m.children)
    (hm : m.tree.Given G) :
    Mirrors G X F (SameTree G) W (combinatorRule E (Visited.over m f))
      fun E => combinatorRule E (Visited.over m (g E)) := by
  have hrebuild := rebuild_mirrors (W := W) h hm.here
  cases m with
  | binary op lhs rhs via =>
      have hboth : ∀ combine : Lam → Lam → Except Error Lam,
          (∀ l k r, l.body.Given G → k.body.Given G → combine l k = .ok r → r.body.Given G) →
          Mirrors G X F (SameTree G) W
            (do
              let l ← predicateOperand E (lhs, f lhs)
              let r ← predicateOperand E (rhs, f rhs)
              E.rewrite .combinators (← Act.lift (combine l r)).tree)
            fun E => (do
              let l ← predicateOperand E (lhs, g E lhs)
              let r ← predicateOperand E (rhs, g E rhs)
              E.rewrite .combinators (← Act.lift (combine l r)).tree) := by
        intro combine hcombine
        have hlhs : lhs.Given G := hm.child (List.mem_cons_self ..)
        have hrhs : rhs.Given G := hm.child (List.mem_cons_of_mem _ (List.mem_singleton.2 rfl))
        refine (predicateOperand_mirrors hE hlhs (h lhs (by simp [Node.children]))).bindSame fun V _ l hl => ?_
        refine (predicateOperand_mirrors hE hrhs (h rhs (by simp [Node.children]))).bindSame fun V' _ k hk => ?_
        exact made_mirrors hE fun r hr => hcombine l k r hl hk hr
      show Mirrors G X F (SameTree G) W (ite ..) fun E => ite ..
      by_cases hand : (op = .and ∨ op = .andAlso) ∧ isCombinator via Specification.andName
      · simp only [if_pos hand]
        exact hboth Lambda.conjunction fun l k r hl hk => combined_given hl hk
      · simp only [if_neg hand]
        by_cases hor : (op = .or ∨ op = .orElse) ∧ isCombinator via Specification.orName
        · simp only [if_pos hor]
          exact hboth Lambda.disjunction fun l k r hl hk => combined_given hl hk
        · simp only [if_neg hor]
          exact hrebuild
  | unary op operand via ty =>
      show Mirrors G X F (SameTree G) W (ite ..) fun E => ite ..
      by_cases hnot : op = .not ∧ isCombinator via Specification.notName
      · simp only [if_pos hnot]
        have hoperand : operand.Given G := hm.child (List.mem_singleton.2 rfl)
        refine (predicateOperand_mirrors hE hoperand (h operand (by simp [Node.children]))).bindSame
          fun V _ l hl => ?_
        exact made_mirrors hE fun r hr => negation_given hl hr
      · simp only [if_neg hnot]
        exact hrebuild
  | literal | param | staticMember | member | staticCall | call | lambda | invoke | conditional =>
      exact hrebuild

theorem receiverLambda_mirrors (hE : E.Mirrors G X F) (kind : DualKind) (ht : t.Given G) :
    Mirrors G X F (SameFold G) W (receiverLambda E kind t) fun E => receiverLambda E kind t := by
  unfold receiverLambda
  split
  · exact .pure ⟨rfl, fun _ h => by cases h; exact Tree.Given.lambda_iff.1 ht⟩
  · exact foldDual_mirrors hE kind ht

theorem isReceiver_mirrors (hE : E.Mirrors G X F) (ht : t.Given G) :
    Mirrors G X F (fun _ => Eq) W (isReceiver E t) fun E => isReceiver E t := by
  unfold isReceiver
  split
  · exact .pure rfl
  · refine (tryEvaluate_mirrors hE ht).bind fun V _ a b hab => ?_
    cases hab with
    | none => exact .pure rfl
    | some _ => exact .pure rfl

/-- The same tree, if any, which holds given objects only. -/
abbrev SameInlined (G : Ground) : World → Option Expr → Option Expr → Prop := Same fun a => ∀ t ∈ a, t.Given G

theorem inlineCall_mirrors (hE : E.Mirrors G X F) (kind : DualKind) {receiver arg : Expr}
    (hreceiver : receiver.Given G) (harg : arg.Given G) :
    Mirrors G X F (SameInlined G) W (inlineCall E kind receiver arg)
      fun E => inlineCall E kind receiver arg := by
  unfold inlineCall
  refine (receiverLambda_mirrors hE kind hreceiver).bindSame fun V _ a ha => ?_
  cases a with
  | none => exact .pure ⟨rfl, fun _ h => by cases h⟩
  | some l =>
      refine (Mirrors.liftSame fun t ht => applied_given (ha l rfl) harg ht).bindSame fun V' _ t ht => ?_
      refine (hE.rewrite ht (.inlining kind)).bindSame fun U _ u hu => ?_
      exact .pure ⟨rfl, fun _ h => by cases h; exact hu⟩

theorem spliceDual_mirrors (hE : E.Mirrors G X F) (kind : DualKind) (h : Rewrites G X F f g m.children)
    (hm : m.tree.Given G) :
    Mirrors G X F (SameTree G) W (spliceDual E kind (Visited.over m f))
      fun E => spliceDual E kind (Visited.over m (g E)) := by
  unfold spliceDual
  simp only [Visited.given_over]
  refine (foldDual_mirrors hE kind hm).bindSame fun V _ a ha => ?_
  cases a with
  | some l => exact hE.rewrite (Tree.Given.lambda_iff.2 (ha l rfl)) (.inlining kind)
  | none => exact rebuild_mirrors h hm.here

theorem evaluationRule_mirrors (hE : E.Mirrors G X F) (kind : DualKind) {receiver arg : Expr}
    (hreceiver : receiver.Given G) (harg : arg.Given G) (h : Rewrites G X F f g m.children)
    (hm : Tree.GivenNode G m.tree) :
    Mirrors G X F (SameTree G) W (evaluationRule E kind receiver arg (Visited.over m f))
      fun E => evaluationRule E kind receiver arg (Visited.over m (g E)) := by
  unfold evaluationRule
  refine (inlineCall_mirrors hE kind hreceiver harg).bindSame fun V _ a ha => ?_
  cases a with
  | some t => exact .pure ⟨rfl, ha t rfl⟩
  | none => exact rebuild_mirrors h hm

theorem inliningRule_mirrors (hE : E.Mirrors G X F) (kind : DualKind) (h : Rewrites G X F f g m.children)
    (hm : m.tree.Given G) :
    Mirrors G X F (SameTree G) W (inliningRule E kind (Visited.over m f))
      fun E => inliningRule E kind (Visited.over m (g E)) := by
  have hrebuild : ∀ {V : World}, Mirrors G X F (SameTree G) V (Visited.over m f).rebuild
      fun E => (Visited.over m (g E)).rebuild := rebuild_mirrors h hm.here
  have hsplice : ∀ {V : World} (b : Bool), Mirrors G X F (SameTree G) V
      (if b then spliceDual E kind (Visited.over m f) else (Visited.over m f).rebuild)
      fun E => if b then spliceDual E kind (Visited.over m (g E)) else (Visited.over m (g E)).rebuild := by
    intro V b
    cases b with
    | true => exact spliceDual_mirrors hE kind h hm
    | false => exact hrebuild
  cases m with
  | invoke callee args =>
      cases callee with
      | member receiver m =>
          rcases args with _ | ⟨arg, _ | ⟨arg', args⟩⟩
          · exact hrebuild
          · have hcallee : (Tree.member receiver m).Given G := hm.child (List.mem_cons_self ..)
            have hreceiver : receiver.Given G := hcallee.child (List.mem_singleton.2 rfl)
            have harg : arg.Given G := hm.child (List.mem_cons_of_mem _ (List.mem_singleton.2 rfl))
            show Mirrors G X F (SameTree G) W (ite ..) fun E => ite ..
            by_cases hevaluator : isEvaluator kind m
            · simp only [if_pos hevaluator]
              exact evaluationRule_mirrors hE kind hreceiver harg h hm.here
            · simp only [if_neg hevaluator]
              exact hrebuild
          · exact hrebuild
      | literal | param | staticMember | staticCall | call | binary | unary | lambda | invoke
      | conditional => exact hrebuild
  | call receiver m args =>
      rcases args with _ | ⟨arg, _ | ⟨arg', args⟩⟩
      · exact hrebuild
      · have hreceiver : receiver.Given G := hm.child (List.mem_cons_self ..)
        have harg : arg.Given G := hm.child (List.mem_cons_of_mem _ (List.mem_singleton.2 rfl))
        show Mirrors G X F (SameTree G) W (ite ..) fun E => ite ..
        by_cases hmethod : isEvaluateMethod kind m
        · simp only [if_pos hmethod]
          exact evaluationRule_mirrors hE kind hreceiver harg h hm.here
        · simp only [if_neg hmethod]
          exact hrebuild
      · exact hrebuild
  | member receiver m =>
      have hreceiver : receiver.Given G := hm.child (List.mem_singleton.2 rfl)
      show Mirrors G X F (SameTree G) W (ite ..) fun E => ite ..
      by_cases hevaluator : isEvaluator kind m
      · simp only [if_pos hevaluator]
        refine (isReceiver_mirrors hE hreceiver).bind fun V _ b c hbc => ?_
        subst hbc
        cases b with
        | true => exact h receiver (by simp [Node.children]) V
        | false => exact hsplice _
      · simp only [if_neg hevaluator]
        exact hsplice _
  | staticMember m => exact hsplice _
  | literal v ty => exact hsplice _
  | unary op operand via ty =>
      cases op with
      | not | negate => exact hrebuild
      | convert =>
          cases via with
          | none => exact hrebuild
          | some m =>
              show Mirrors G X F (SameTree G) W (ite ..) fun E => ite ..
              by_cases hdeclared : m.declaredBy (.dual kind)
              · simp only [if_pos hdeclared]
                exact h operand (by simp [Node.children]) W
              · simp only [if_neg hdeclared]
                exact hrebuild
  | param | staticCall | binary | lambda | conditional => exact hrebuild

end Rules

/-! ## Passes -/

/-- **A pass over a tree that holds given objects only.** -/
theorem pass_mirrors (hE : E.Mirrors G X F) (pass : DualPass) (ht : t.Given G) :
    ∀ W, Mirrors G X F (SameTree G) W (pass.run E t) fun E => pass.run E t := by
  induction t using Tree.childwise with
  | step t ih =>
      intro W
      have hchildren : Rewrites G X F (pass.run E) (fun E => pass.run E) t.node.children :=
        fun c hc => ih c hc (ht.child hc)
      have ht' : t.node.tree.Given G := by rwa [Tree.tree_node]
      simp only [DualPass.run_eq _ t]
      cases pass with
      | factories => exact factoryRule_mirrors hE hchildren ht'.here
      | combinators => exact combinatorRule_mirrors hE hchildren ht'
      | inlining kind => exact inliningRule_mirrors hE kind hchildren ht'

theorem runPasses_mirrors (hE : E.Mirrors G X F) : ∀ (passes : List DualPass) {t : Expr} {W : World},
    t.Given G → Mirrors G X F (SameTree G) W (runPasses E passes t) fun E => runPasses E passes t
  | [], _, _, ht => .pure ⟨rfl, ht⟩
  | pass :: passes, _, _, ht => (hE.rewrite ht pass).bindSame fun _ _ _ hu => runPasses_mirrors hE passes hu

theorem rewriteLambda_mirrors (hE : E.Mirrors G X F) (hl : l.body.Given G) :
    Mirrors G X F (SameLambda G) W (rewriteLambda E l) fun E => rewriteLambda E l :=
  (runPasses_mirrors hE DualPass.all (Tree.Given.lambda_iff.2 hl)).bindSame
    fun _ _ _ hu => .liftSame fun _ hk => expectLambda_given hu hk

/-! ## All passes -/

theorem givenNode_map {m : ExprNode Expr} (f : Expr → Expr) (h : Tree.GivenNode G m.tree) :
    Tree.GivenNode G (m.map f).tree := by cases m <;> exact h

/-- The node on other subtrees. -/
theorem mapped_given {f : Expr → Expr} (ht : t.Given G) (hf : ∀ c ∈ t.children, (f c).Given G) :
    (t.node.map f).tree.Given G := by
  refine node_given (givenNode_map f ?_) fun c hc => ?_
  · rw [Tree.tree_node]
    exact ht.here
  · rw [Node.children_map] at hc
    obtain ⟨u, hu, rfl⟩ := List.mem_map.1 hc
    exact hf u hu

theorem Tree.Given.bindArgument {a : Expr} (formal : FormalParam) (ha : a.Given G) (ht : t.Given G) :
    (Tree.bindArgument formal a t).Given G := by
  induction t using Tree.childwise with
  | step t ih =>
      have hmapped : (t.node.map (Tree.bindArgument formal a)).tree.Given G :=
        mapped_given ht fun c hc => ih c hc (ht.child hc)
      cases t with
      | member target m =>
          unfold Tree.bindArgument
          split
          · exact ha
          · exact hmapped
      | staticCall | call | invoke =>
          simp only [Tree.node, Node.map, ← Tree.bindArgumentAll_eq_map] at hmapped
          exact hmapped
      | literal | param | staticMember | binary | unary | lambda | conditional => exact hmapped

theorem NodeRule.apply_given (rule : NodeRule) {m : ExprNode Expr} (hm : m.tree.Given G) :
    (rule.apply m).Given G := by
  unfold NodeRule.apply
  split
  · exact Tree.everywhere_leaf trivial rfl
  · rename_i op lhs rhs via
    have hlhs : lhs.Given G := hm.child (List.mem_cons_self ..)
    have hrhs : rhs.Given G := hm.child (List.mem_cons_of_mem _ (List.mem_singleton.2 rfl))
    refine Tree.everywhere_pair hm.here rfl ?_ ?_
    · exact hrhs
    · exact hlhs
  · exact hm.child (List.mem_singleton.2 rfl)
  · exact hm

theorem NodeRule.run_given (rule : NodeRule) (ht : t.Given G) : (rule.run t).Given G := by
  induction t using Tree.childwise with
  | step t ih =>
      unfold NodeRule.run
      rw [Tree.fold_eq]
      simp only [Node.map_map]
      exact rule.apply_given (mapped_given ht fun c hc => ih c hc (ht.child hc))

mutual

/-- The trees put in by the pass hold given objects only. -/
def Pass.Given (G : Ground) : Pass → Prop
  | .substitute _ replacement | .bindArgument _ replacement => replacement.Given G
  | .sequence passes | .pipeline passes _ => Pass.AllGiven G passes
  | .dual _ | .node _ => True

/-- The same for each pass of a list. -/
def Pass.AllGiven (G : Ground) : List Pass → Prop
  | [] => True
  | pass :: rest => Pass.Given G pass ∧ Pass.AllGiven G rest

end

mutual

/-- **Any pass over a tree that holds given objects only.** -/
theorem pass_run_mirrors (hE : E.Mirrors G X F) : ∀ {pass : Pass} {t : Expr} {W : World},
    pass.Given G → t.Given G → Mirrors G X F (SameTree G) W (pass.run E t) fun E => pass.run E t
  | .dual pass, t, W, _, ht => pass_mirrors hE pass ht W
  | .substitute _ _, _, _, ha, ht => .pure ⟨rfl, .substitute ha ht⟩
  | .bindArgument formal _, _, _, ha, ht => .pure ⟨rfl, .bindArgument formal ha ht⟩
  | .node rule, _, _, _, ht => .pure ⟨rfl, rule.run_given ht⟩
  | .sequence passes, t, W, h, ht => by
      unfold Pass.run
      exact pass_runAll_mirrors hE h ht
  | .pipeline passes verify, t, W, h, ht => by
      unfold Pass.run
      refine (pass_runAll_mirrors hE h ht).bindSame fun V _ u hu => ?_
      split
      · exact .fail _
      · exact .pure ⟨rfl, hu⟩

theorem pass_runAll_mirrors (hE : E.Mirrors G X F) : ∀ {passes : List Pass} {t : Expr} {W : World},
    Pass.AllGiven G passes → t.Given G →
      Mirrors G X F (SameTree G) W (Pass.runAll E passes t) fun E => Pass.runAll E passes t
  | [], _, _, _, ht => .pure ⟨rfl, ht⟩
  | pass :: rest, t, W, h, ht => by
      unfold Pass.runAll
      exact (pass_run_mirrors hE h.1 ht).bindSame fun V _ u hu => pass_runAll_mirrors hE h.2 hu

end

end DualForm
