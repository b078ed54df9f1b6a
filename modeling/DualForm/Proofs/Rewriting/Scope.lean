import DualForm.Proofs.Composition
import DualForm.Proofs.Rewriting.Visit
import DualForm.Proofs.Tree.Scope

/-!
# Passes and scopes

* `Stock` — the values and members that trees may be made of.
* `Within S bound t` — `t` is made of values and members of the stock `S`, binds no factory, and
  reads parameters in `bound` only, apart from those declared around the read.
* `Lambda.Within S bound l` — the same for a lambda with one parameter.
* `Stock.Supplies S E I` — on `E`, reading members of the stock gives values of the stock, and the
  tree forms of duals in the stock are closed lambdas within it.

Principal results: `Within.substitute`; `run_within` — no pass lets a parameter escape, given what
the engine answers; `rewriteLambda_within` — nor does the pipeline.
-/

namespace DualForm

open Act (Ensures)

/-- The values and members that trees may be made of. -/
structure Stock where
  value : Value → Prop
  member : Member Getter → Prop

variable {S : Stock} {E : Engine} {I : Store → Prop} {bound bound' : List Param} {t u : Expr}

/-- The value or the member at the top node is in stock, and no factory is bound there. -/
def Stock.holds (S : Stock) : Expr → Prop
  | .literal v _ => S.value v
  | .staticMember m | .member _ m => S.member m
  | .staticCall m _ | .call _ m _ => isBinding m = false
  | _ => True

/-- Made of what is in stock, with all reads in scope. -/
structure Within (S : Stock) (bound : List Param) (t : Expr) : Prop where
  inScope : t.Scoped bound
  stocked : t.Everywhere S.holds

/-- The lambda has one parameter, and is made of what is in stock, with all reads in scope. -/
structure Lambda.Within (S : Stock) (bound : List Param) (l : Lam) : Prop where
  single : ∃ p, l.params = [p]
  within : DualForm.Within S bound l.tree

/-! ## Trees within a scope -/

theorem Stock.holds_eq (S : Stock) (t : Expr) :
    S.holds t ↔ S.holds (t.head.map fun _ => (default : Expr)).tree := by cases t <;> exact Iff.rfl

theorem Stock.shallow (S : Stock) : Tree.Shallow S.holds where
  head {t u} h ht := by
    rw [S.holds_eq] at ht ⊢
    rwa [← h]
  lambda _ _ _ := trivial

namespace Within

theorem child {c : Expr} (h : Within S bound t) (hc : c ∈ t.children) :
    Within S (t.declared ++ bound) c := ⟨h.inScope.child hc, h.stocked.child hc⟩

/-- A node without declarations hands its scope on to its subtrees. -/
theorem same {c : Expr} (h : Within S bound t) (hc : c ∈ t.children) (ht : t.declared = []) :
    Within S bound c := by
  have := h.child hc
  rwa [ht] at this

theorem body {ps : List Param} {b : Expr} (h : Within S bound (.lambda ps b)) :
    Within S (ps ++ bound) b := h.child (List.mem_singleton.2 rfl)

theorem lambda {ps : List Param} {b : Expr} (h : Within S (ps ++ bound) b) :
    Within S bound (.lambda ps b) :=
  ⟨Tree.scoped_lambda.2 h.inScope,
    Tree.everywhere_single trivial rfl h.stocked⟩

theorem param {p : Param} (h : p ∈ bound) : Within S bound (.param p) :=
  ⟨Tree.scoped_param.2 h, Tree.everywhere_leaf trivial rfl⟩

theorem anywhere (h : Within S [] t) : Within S bound t := ⟨h.inScope.anywhere, h.stocked⟩

/-- What a node looks like from the top decides, apart from its subtrees. -/
theorem of_head (h : Within S bound t) (hu : u.head = t.head)
    (hchildren : ∀ c ∈ u.children, Within S (t.declared ++ bound) c) : Within S bound u := by
  refine ⟨Tree.scoped_iff.2 ⟨fun r hr => ?_, fun c hc => ?_⟩, Tree.everywhere_iff.2
    ⟨S.shallow.head hu.symm h.stocked.here, fun c hc => (hchildren c hc).stocked⟩⟩
  · subst hr
    refine (Tree.scoped_iff.1 h.inScope).1 r ?_
    cases t <;> cases hu
    rfl
  · rw [Tree.declared_head hu]
    exact (hchildren c hc).inScope

/-- A substitution for a parameter keeps to the scope and to the stock. -/
theorem substitute {p : Param} {a : Expr} (ht : Within S (p :: bound) t) (ha : Within S bound a) :
    Within S bound (Tree.substitute p a t) := by
  refine ⟨ht.inScope.substitute ha.inScope fun r hr hp => ?_, .substitute S.shallow ha.stocked ht.stocked⟩
  exact (List.mem_cons.1 hr).resolve_left hp

theorem operation {op : BinaryOp} {a b : Expr} (ha : Within S bound a) (hb : Within S bound b) :
    Within S bound (.operation op a b) := by
  have hall : ∀ c ∈ (Tree.operation op a b).children, Within S bound c :=
    List.forall_mem_cons.2 ⟨ha, List.forall_mem_singleton.2 hb⟩
  exact ⟨Tree.scoped_iff.2 ⟨fun r hr => (by cases hr), fun c hc => (hall c hc).inScope⟩,
    Tree.everywhere_iff.2 ⟨trivial, fun c hc => (hall c hc).stocked⟩⟩

theorem complement {a : Expr} (ha : Within S bound a) : Within S bound a.complement := by
  have hall : ∀ c ∈ a.complement.children, Within S bound c := List.forall_mem_singleton.2 ha
  exact ⟨Tree.scoped_iff.2 ⟨fun r hr => (by cases hr), fun c hc => (hall c hc).inScope⟩,
    Tree.everywhere_iff.2 ⟨trivial, fun c hc => (hall c hc).stocked⟩⟩

end Within

/-! ## Lambdas within a scope -/

namespace Lambda.Within

variable {f g l : Lam}

theorem body {p : Param} (h : l.Within S bound) (hp : l.params = [p]) :
    DualForm.Within S (p :: bound) l.body := by
  have := h.within.body
  rwa [hp] at this

theorem anywhere (h : l.Within S []) : l.Within S bound := ⟨h.single, h.within.anywhere⟩

theorem of_body {p : Param} {b : Expr} (h : DualForm.Within S (p :: bound) b) :
    (⟨[p], b⟩ : Lam).Within S bound := ⟨⟨p, rfl⟩, .lambda h⟩

/-- A lambda applied to a tree within the scope. -/
theorem applied (h : l.Within S bound) {arg : Expr} (ha : DualForm.Within S bound arg)
    (hu : l.applied arg = .ok u) : DualForm.Within S bound u := by
  obtain ⟨p, hp, rfl⟩ := Lambda.applied_ok.1 hu
  exact (h.body hp).substitute ha

/-- The replacement reads the parameter that is kept, so it is in scope below it. -/
theorem composed (hf : f.Within S bound) (hg : g.Within S bound) (h : Lambda.composed f g = .ok l) :
    l.Within S bound := by
  obtain ⟨x, hx, p, hp, rfl⟩ := Lambda.composed_ok.1 h
  have hbody : DualForm.Within S (x :: p :: bound) f.body :=
    ⟨(hf.body hx).inScope.mono fun r hr => by
      rcases List.mem_cons.1 hr with rfl | hr
      · exact List.mem_cons_self ..
      · exact List.mem_cons_of_mem _ (List.mem_cons_of_mem _ hr), (hf.body hx).stocked⟩
  exact of_body (hbody.substitute (hg.body hp))

theorem combined {op : BinaryOp} (hf : f.Within S bound) (hg : g.Within S bound)
    (h : Lambda.combined op f g = .ok l) : l.Within S bound := by
  obtain ⟨p, hp, q, hq, rfl⟩ := Lambda.combined_ok.1 h
  have hrenamed : (⟨[p], Tree.substitute q (.param p) g.body⟩ : Lam).Within S bound :=
    hg.composed (of_body (.param (List.mem_cons_self ..)))
      (Lambda.composed_ok.2 ⟨q, hq, p, rfl, rfl⟩)
  exact of_body ((hf.body hp).operation (hrenamed.body rfl))

theorem negation (hf : f.Within S bound) (h : Lambda.negation f = .ok l) : l.Within S bound := by
  obtain ⟨p, hp, rfl⟩ := Lambda.negation_ok.1 h
  exact of_body (hf.body hp).complement

end Lambda.Within

/-! ## What folds -/

/-- Reading members of the stock gives values of the stock, and duals of the stock have closed lambdas
within the stock as their tree forms. -/
structure Stock.Supplies (S : Stock) (E : Engine) (I : Store → Prop) : Prop where
  read : ∀ m, S.member m → ∀ target, (∀ v, target = some v → S.value v) →
    Ensures I S.value (m.read E target)
  tree : ∀ d, S.value (.dual d) → Ensures I (Lambda.Within S []) (E.tree d)

variable (hE : S.Supplies E I)

include hE

theorem tryEvaluate_stocked (ht : t.Everywhere S.holds) :
    Ensures I (fun o => ∀ v, o = some v → S.value v) (tryEvaluate E t) := by
  have hread : ∀ m target, S.member m → (∀ v, target = some v → S.value v) →
      Ensures I (fun o => ∀ v, o = some v → S.value v) (do return some (← m.read E target)) :=
    fun m target hm htarget => (hE.read m hm target htarget).bind fun w hw =>
      Ensures.pure fun v hv => by cases hv; exact hw
  induction t using Tree.nodewise with
  | literal v ty => exact Ensures.pure fun w hw => by cases hw; exact ht.here
  | staticMember m => exact hread m none ht.here fun v hv => by cases hv
  | member target m ih =>
      unfold tryEvaluate
      refine (ih (ht.child (List.mem_singleton.2 rfl))).bind fun o ho => ?_
      split
      · exact hread m _ ht.here ho
      · exact Ensures.pure fun v hv => by cases hv
  | param | staticCall | call | binary | unary | lambda | invoke | conditional =>
      exact Ensures.pure fun v hv => by cases hv

theorem foldDual_within (kind : DualKind) (ht : t.Everywhere S.holds) :
    Ensures I (fun o => ∀ l, o = some l → l.Within S []) (foldDual E kind t) := by
  unfold foldDual
  refine (tryEvaluate_stocked hE ht).bind fun o ho => ?_
  split
  · exact Ensures.pure fun l hl => by cases hl
  · rename_i v
    split
    · exact Ensures.fail _
    · refine (Ensures.lift fun d hd => (expect_ok hd).1).bind fun d hd => ?_
      subst hd
      refine (hE.tree d (ho _ rfl)).bind fun l hl => Ensures.pure fun k hk => ?_
      cases hk
      exact hl

/-! ## One pass -/

omit hE

/-- The tree is within the scope, and a lambda keeps its parameters. -/
structure Rewritten (S : Stock) (bound : List Param) (t u : Expr) : Prop where
  within : Within S bound u
  lambda : ∀ ps b, t = .lambda ps b → ∃ b', u = .lambda ps b'

theorem Rewritten.of_not_lambda (h : Within S bound u) (ht : ∀ ps b, t ≠ .lambda ps b) :
    Rewritten S bound t u := ⟨h, fun ps b hb => absurd hb (ht ps b)⟩

/-- The node is within the scope, and so is what its subtrees are rewritten to. -/
structure Visited.Within (S : Stock) (bound : List Param) (I : Store → Prop) (n : Visited) : Prop where
  given : DualForm.Within S bound n.given
  children : ∀ c ∈ n.children, Ensures I (DualForm.Within S (n.given.declared ++ bound)) c.2

variable {n : Visited} {pass : DualPass}

theorem Visited.Within.child (hn : n.Within S bound I) {c : Expr × Act Expr} (hc : c ∈ n.children)
    (hdeclared : n.given.declared = []) :
    DualForm.Within S bound c.1 ∧ Ensures I (DualForm.Within S bound) c.2 := by
  have := hn.children c hc
  rw [hdeclared] at this
  exact ⟨hn.given.same (Visited.given_child hc) hdeclared, this⟩

theorem rebuild_within (hn : n.Within S bound I) :
    Ensures I (Rewritten S bound n.given) n.rebuild := by
  refine (rebuild_results (Ensures.logic I)
    (R := fun _ u => DualForm.Within S (n.given.declared ++ bound) u) hn.children).imp fun u hu => ?_
  obtain ⟨hhead, hchildren⟩ := hu
  refine ⟨hn.given.of_head hhead (forall_right hchildren fun _ _ _ h => h), fun ps b ht => ?_⟩
  rw [ht] at hhead
  cases u <;> cases hhead
  exact ⟨_, rfl⟩

/-- Binding is out of the question. -/
theorem factoryRule_within (hn : n.Within S bound I) :
    Ensures I (Rewritten S bound n.given) (factoryRule E n) := by
  unfold factoryRule
  split
  · rename_i m args
    have hm : isBinding m = false := hn.given.stocked.here
    rw [if_neg (by simp [hm])]
    exact rebuild_within hn
  · rename_i target rewriteTarget m args
    have hm : isBinding m = false := hn.given.stocked.here
    rw [if_pos (by simp [hm])]
    exact rebuild_within hn
  · exact rebuild_within hn

theorem stripConversions_within (h : Within S bound t) : Within S bound (stripConversions t) := by
  fun_induction stripConversions t with
  | case1 operand m ty hm ih => exact ih (h.same (List.mem_singleton.2 rfl) rfl)
  | case2 => exact h
  | case3 => exact h

section Engine

variable (hE : S.Supplies E I)
  (hrewrite : ∀ bound u, Within S bound u → Ensures I (Within S bound) (E.rewrite pass u))

include hE

theorem predicateOperand_within {operand : Expr × Act Expr} (hgiven : Within S bound operand.1)
    (h : Ensures I (Within S bound) operand.2) :
    Ensures I (Lambda.Within S bound) (predicateOperand E operand) := by
  unfold predicateOperand
  refine (foldDual_within hE _ (stripConversions_within hgiven).stocked).bind fun o ho => ?_
  split
  · exact Ensures.pure (ho _ rfl).anywhere
  · refine h.bind fun u hu => ?_
    have hstripped := stripConversions_within hu
    split
    · rename_i heq
      rw [heq] at hstripped
      exact Ensures.pure ⟨⟨_, rfl⟩, hstripped⟩
    · refine (foldDual_within hE _ hstripped.stocked).bind fun o ho => ?_
      split
      · exact Ensures.pure (ho _ rfl).anywhere
      · exact Ensures.fail _

include hrewrite

theorem combinatorRule_within (hpass : pass = .combinators) (hn : n.Within S bound I) :
    Ensures I (Rewritten S bound n.given) (combinatorRule E n) := by
  subst hpass
  have hvisit : ∀ x : Except Error Lam, (∀ l, x = .ok l → l.Within S bound) →
      (∀ ps b, n.given ≠ .lambda ps b) → Ensures I (Rewritten S bound n.given)
        (do E.rewrite .combinators (← Act.lift x).tree) := fun x hx hlambda =>
    (Ensures.lift hx).bind fun l hl =>
      (hrewrite bound l.tree hl.within).imp fun u hu => .of_not_lambda hu hlambda
  unfold combinatorRule
  split
  · rename_i op lhs rhs via
    obtain ⟨hl, hl'⟩ := hn.child (c := lhs) (by simp [Node.children]) rfl
    obtain ⟨hr, hr'⟩ := hn.child (c := rhs) (by simp [Node.children]) rfl
    split
    · refine (predicateOperand_within hE hl hl').bind fun l hl => ?_
      refine (predicateOperand_within hE hr hr').bind fun r hr => ?_
      exact hvisit _ (fun k hk => hl.combined hr hk) fun ps b h => by cases h
    · split
      · refine (predicateOperand_within hE hl hl').bind fun l hl => ?_
        refine (predicateOperand_within hE hr hr').bind fun r hr => ?_
        exact hvisit _ (fun k hk => hl.combined hr hk) fun ps b h => by cases h
      · exact rebuild_within hn
  · rename_i op operand via ty
    obtain ⟨ho, ho'⟩ := hn.child (c := operand) (by simp [Node.children]) rfl
    split
    · refine (predicateOperand_within hE ho ho').bind fun l hl => ?_
      exact hvisit _ (fun k hk => hl.negation hk) fun ps b h => by cases h
    · exact rebuild_within hn
  · exact rebuild_within hn

/-- The body of the receiver has the parameter of the receiver in scope besides, and loses it. -/
theorem inlineCall_within {kind : DualKind} (hpass : pass = .inlining kind) {receiver arg : Expr}
    (hreceiver : Within S bound receiver) (harg : Within S bound arg) :
    Ensures I (fun o => ∀ u, o = some u → Within S bound u) (inlineCall E kind receiver arg) := by
  subst hpass
  have hlambda : Ensures I (fun o => ∀ l, o = some l → l.Within S bound)
      (receiverLambda E kind receiver) := by
    unfold receiverLambda
    split
    · exact Ensures.pure fun l hl => by cases hl; exact ⟨⟨_, rfl⟩, hreceiver⟩
    · exact (foldDual_within hE kind hreceiver.stocked).imp fun o ho l hl => (ho l hl).anywhere
  unfold inlineCall
  refine hlambda.bind fun o ho => ?_
  split
  · exact Ensures.pure fun u hu => by cases hu
  · refine (Ensures.lift fun u hu => (ho _ rfl).applied harg hu).bind fun u hu => ?_
    exact (hrewrite bound u hu).bind fun v hv => Ensures.pure fun w hw => by cases hw; exact hv

theorem evaluationRule_within {kind : DualKind} (hpass : pass = .inlining kind) {receiver arg : Expr}
    (hn : n.Within S bound I) (hlambda : ∀ ps b, n.given ≠ .lambda ps b)
    (hreceiver : Within S bound receiver) (harg : Within S bound arg) :
    Ensures I (Rewritten S bound n.given) (evaluationRule E kind receiver arg n) := by
  unfold evaluationRule
  refine (inlineCall_within hE hrewrite hpass hreceiver harg).bind fun o ho => ?_
  split
  · exact Ensures.pure (.of_not_lambda (ho _ rfl) hlambda)
  · exact rebuild_within hn

theorem spliceDual_within {kind : DualKind} (hpass : pass = .inlining kind) (hn : n.Within S bound I)
    (hlambda : ∀ ps b, n.given ≠ .lambda ps b) :
    Ensures I (Rewritten S bound n.given) (spliceDual E kind n) := by
  subst hpass
  unfold spliceDual
  refine (foldDual_within hE kind hn.given.stocked).bind fun o ho => ?_
  split
  · refine (hrewrite bound _ (ho _ rfl).anywhere.within).imp fun u hu => .of_not_lambda hu hlambda
  · exact rebuild_within hn

/-- The rule for a tree that may be a dual by its type. -/
theorem spliceTyped_within {kind : DualKind} (hpass : pass = .inlining kind) (ty : Ty)
    (hn : n.Within S bound I) (hlambda : ∀ ps b, n.given ≠ .lambda ps b) :
    Ensures I (Rewritten S bound n.given)
      (if ty.declares (.dual kind) then spliceDual E kind n else n.rebuild) := by
  split
  · exact spliceDual_within hE hrewrite hpass hn hlambda
  · exact rebuild_within hn

omit hrewrite in
theorem isReceiver_within {receiver : Expr} (hreceiver : Within S bound receiver) :
    Ensures I (fun _ => True) (isReceiver E receiver) := by
  unfold isReceiver
  split
  · exact Ensures.pure trivial
  · exact (tryEvaluate_stocked hE hreceiver.stocked).bind fun _ _ => Ensures.pure trivial

theorem inliningRule_within {kind : DualKind} (hpass : pass = .inlining kind)
    (hn : n.Within S bound I) : Ensures I (Rewritten S bound n.given) (inliningRule E kind n) := by
  unfold inliningRule
  split
  · rename_i receiver m rewriteCallee arg rewriteArg
    obtain ⟨hcallee, _⟩ := hn.child (c := (.member receiver m, rewriteCallee))
      (by simp [Node.children]) rfl
    obtain ⟨harg, _⟩ := hn.child (c := (arg, rewriteArg)) (by simp [Node.children]) rfl
    split
    · exact evaluationRule_within hE hrewrite hpass hn (fun ps b h => by cases h)
        (hcallee.same (List.mem_singleton.2 rfl) rfl) harg
    · exact rebuild_within hn
  · rename_i receiver rewriteReceiver m arg rewriteArg
    obtain ⟨hreceiver, _⟩ := hn.child (c := (receiver, rewriteReceiver)) (by simp [Node.children]) rfl
    obtain ⟨harg, _⟩ := hn.child (c := (arg, rewriteArg)) (by simp [Node.children]) rfl
    split
    · exact evaluationRule_within hE hrewrite hpass hn (fun ps b h => by cases h) hreceiver harg
    · exact rebuild_within hn
  · rename_i receiver rewriteReceiver m
    obtain ⟨hreceiver, hreceiver'⟩ := hn.child (c := (receiver, rewriteReceiver))
      (by simp [Node.children]) rfl
    dsimp only
    split
    · refine (isReceiver_within hE hreceiver).bind fun b _ => ?_
      split
      · exact hreceiver'.imp fun u hu => .of_not_lambda hu fun ps b h => by cases h
      · exact spliceTyped_within hE hrewrite hpass m.ty hn fun ps b h => by cases h
    · exact spliceTyped_within hE hrewrite hpass m.ty hn fun ps b h => by cases h
  · exact spliceTyped_within hE hrewrite hpass _ hn fun ps b h => by cases h
  · exact spliceTyped_within hE hrewrite hpass _ hn fun ps b h => by cases h
  · rename_i operand rewriteOperand m ty
    obtain ⟨_, hoperand⟩ := hn.child (c := (operand, rewriteOperand)) (by simp [Node.children]) rfl
    split
    · exact hoperand.imp fun u hu => .of_not_lambda hu fun ps b h => by cases h
    · exact rebuild_within hn
  · exact rebuild_within hn

/-- **No pass lets a parameter escape.** The induction is on the tree; what comes from elsewhere are the
tree forms of duals, which are closed. -/
theorem run_within (ht : Within S bound t) :
    Ensures I (Rewritten S bound t) (pass.run E t) := by
  induction t using Tree.childwise generalizing bound with
  | step t ih =>
      have hn : Visited.Within S bound I (t.node.map fun u => (u, pass.run E u)) := by
        refine ⟨by rwa [Visited.given_node], fun c hc => ?_⟩
        rw [Node.children_map] at hc
        obtain ⟨u, hu, rfl⟩ := List.mem_map.1 hc
        rw [Visited.given_node]
        exact (ih u hu (ht.child hu)).imp fun _ h => h.within
      have hrule : Ensures I (Rewritten S bound t) (pass.rule E (t.node.map fun u => (u, pass.run E u))) := by
        have hgiven := Visited.given_node t (fun u => pass.run E u)
        rw [← hgiven] at ht
        conv => arg 2; rw [← hgiven]
        cases pass with
        | factories => exact factoryRule_within hn
        | combinators => exact combinatorRule_within hE hrewrite rfl hn
        | inlining kind => exact inliningRule_within hE hrewrite rfl hn
      rw [DualPass.run_eq]
      exact hrule

end Engine

/-! ## The pipeline -/

theorem runPasses_within
    (hrewrite : ∀ pass bound u, Within S bound u → Ensures I (Rewritten S bound u) (E.rewrite pass u)) :
    ∀ (passes : List DualPass) (t : Expr), Within S bound t →
      Ensures I (Rewritten S bound t) (runPasses E passes t)
  | [], t, ht => Ensures.pure ⟨ht, fun ps b h => ⟨b, h⟩⟩
  | pass :: passes, t, ht => by
      rw [runPasses_cons]
      refine (hrewrite pass bound t ht).bind fun u hu => ?_
      refine (runPasses_within hrewrite passes u hu.within).imp fun v hv => ⟨hv.within, fun ps b h => ?_⟩
      obtain ⟨b', rfl⟩ := hu.lambda ps b h
      exact hv.lambda ps b' rfl

/-- **The pipeline over a lambda with one parameter lets no parameter escape.** -/
theorem rewriteLambda_within {l : Lam} (hl : l.Within S bound)
    (hrewrite : ∀ pass bound u, Within S bound u → Ensures I (Rewritten S bound u) (E.rewrite pass u)) :
    Ensures I (Lambda.Within S bound) (rewriteLambda E l) := by
  refine (runPasses_within hrewrite DualPass.all l.tree hl.within).bind fun u hu => ?_
  obtain ⟨b, rfl⟩ := hu.lambda l.params l.body rfl
  exact Ensures.pure ⟨hl.single, hu.within⟩

end DualForm
