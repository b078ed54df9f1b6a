import DualForm.Proofs.Host
import DualForm.Proofs.Rewriting.Clear

/-!
# Trees the pipeline leaves as they are

* `Tree.isKnown` — the receivers inlining looks through: those that fold, and lambdas with one
  parameter.
* `Tree.looksThrough` — whether inlining duals of a kind looks through the receiver at the top node.
* `Tree.Quiet` — no node of the tree is one of those.

Principal results: `run_settled` — a pass leaves a tree without work for it as it is, and asks the
engine for nothing; `rewriteDefault_same_iff` — which trees the pipeline leaves as they are;
`rewriteDefault_again` — when it reaches such a tree in one run.
-/

namespace DualForm

open Act (Gives)

variable {pass : DualPass} {kind : DualKind} {E : Engine} {host : Host}

namespace Tree

/-- A tree that folds, or a lambda with one parameter. -/
def isKnown : Expr → Bool
  | .lambda params _ => params.length = 1
  | t => t.folds

/-- Whether inlining duals of this kind looks through the receiver at the top node. -/
def looksThrough (kind : DualKind) : Expr → Bool
  | .member receiver m =>
      isEvaluator kind m && receiver.isKnown || m.ty.declares (.dual kind) && receiver.folds
  | .call receiver m [_] => isEvaluateMethod kind m && receiver.isKnown
  | _ => false

/-- No evaluation, and no read of a dual or of an evaluator, stands on a known receiver. -/
def Quiet (t : Expr) : Prop := t.Everywhere fun u => ∀ kind, u.looksThrough kind = false

theorem folds_of_not_isKnown {t : Expr} (h : t.isKnown = false) : t.folds = false := by
  cases t <;> first | rfl | exact h

end Tree

/-! ## Settled trees stay -/

theorem mapM_same : ∀ args : List (Expr × Act Expr), (∀ a ∈ args, a.2 = pure a.1) →
    args.mapM Prod.snd = (pure (args.map Prod.fst) : Act (List Expr))
  | [], _ => rfl
  | a :: args, h => by
      rw [List.mapM_cons, h a (List.mem_cons_self ..),
        mapM_same args fun b hb => h b (List.mem_cons_of_mem _ hb)]
      rfl

theorem rebuild_same {n : Visited} (h : ∀ c ∈ n.children, c.2 = pure c.1) :
    n.rebuild = pure n.given := by
  unfold Visited.rebuild
  cases n with
  | staticCall m args => rw [Node.traverse, mapM_same args h]; rfl
  | call target m args =>
      rw [Node.traverse, h target (by simp [Node.children]),
        mapM_same args fun a ha => h a (by simp [Node.children, ha])]
      rfl
  | invoke callee args =>
      rw [Node.traverse, h callee (by simp [Node.children]),
        mapM_same args fun a ha => h a (by simp [Node.children, ha])]
      rfl
  | _ => simp_all [Node.children, Node.traverse, Visited.given, Node.map, Node.tree]

theorem receiverLambda_unknown {receiver : Expr} (h : receiver.isKnown = false) (kind : DualKind) :
    receiverLambda E kind receiver = pure none := by
  unfold receiverLambda
  split
  · simp [Tree.isKnown] at h
  · exact foldDual_of_not_folds (Tree.folds_of_not_isKnown h) kind

theorem isReceiver_unknown {receiver : Expr} (h : receiver.isKnown = false) :
    isReceiver E receiver = pure false := by
  unfold isReceiver
  split
  · simp only [Tree.isKnown] at h
    rw [h]
  · rw [tryEvaluate_of_not_folds (Tree.folds_of_not_isKnown h)]
    rfl

theorem inlineCall_unknown {receiver : Expr} (h : receiver.isKnown = false) (kind : DualKind)
    (arg : Expr) : inlineCall E kind receiver arg = pure none := by
  unfold inlineCall
  rw [receiverLambda_unknown h]
  rfl

section Settled

variable {kind : DualKind} {n : Visited} (h : ∀ c ∈ n.children, c.2 = pure c.1)

include h

theorem factoryRule_settled (hacts : DualPass.factories.acts n = false) :
    factoryRule E n = pure n.given := by
  have hsame := rebuild_same h
  unfold factoryRule
  split
  · rw [if_neg (by simpa [DualPass.acts] using hacts), hsame]
  · rw [if_pos (by simpa [DualPass.acts] using hacts), hsame]
  · exact hsame

theorem combinatorRule_settled (hacts : DualPass.combinators.acts n = false) :
    combinatorRule E n = pure n.given := by
  have hsame := rebuild_same h
  unfold combinatorRule
  split
  · obtain ⟨hand, hor⟩ := not_or.1 (of_decide_eq_false hacts)
    rw [if_neg hand, if_neg hor, hsame]
  · rw [if_neg (of_decide_eq_false hacts), hsame]
  · exact hsame

theorem evaluationRule_settled {receiver : Expr} (hr : receiver.isKnown = false) (arg : Expr) :
    evaluationRule E kind receiver arg n = pure n.given := by
  unfold evaluationRule
  rw [inlineCall_unknown hr, pure_bind, rebuild_same h]

theorem spliceDual_settled (hfolds : n.given.folds = false) :
    spliceDual E kind n = pure n.given := by
  unfold spliceDual
  rw [foldDual_of_not_folds hfolds, pure_bind]
  exact rebuild_same h

theorem inliningRule_settled (hacts : (DualPass.inlining kind).acts n = false)
    (hquiet : n.given.Quiet) : inliningRule E kind n = pure n.given := by
  have hsame := rebuild_same h
  unfold inliningRule
  split
  · split
    · rename_i receiver m _ arg _ hm
      have hread := (hquiet.child (c := .member receiver m) (List.mem_cons_self ..)).here kind
      refine evaluationRule_settled h ?_ arg
      simp only [Tree.looksThrough, hm, Bool.true_and, Bool.or_eq_false_iff] at hread
      exact hread.1
    · exact hsame
  · split
    · rename_i receiver _ m arg _ hm
      have hhere := hquiet.here kind
      refine evaluationRule_settled h ?_ arg
      simpa [Tree.looksThrough, Visited.given, Node.map, Node.tree, hm] using hhere
    · exact hsame
  · rename_i receiver rewriteReceiver m
    have hhere := hquiet.here kind
    simp only [Tree.looksThrough, Visited.given, Node.map, Node.tree, Bool.or_eq_false_iff,
      Bool.and_eq_false_iff] at hhere
    have hrest : (if m.ty.declares (.dual kind) then
        spliceDual E kind (.member (receiver, rewriteReceiver) m)
      else Visited.rebuild (.member (receiver, rewriteReceiver) m)) =
        pure (Visited.given (.member (receiver, rewriteReceiver) m)) := by
      split
      · rename_i hty
        exact spliceDual_settled h (hhere.2.resolve_left (by simp [hty]))
      · exact hsame
    dsimp only
    split
    · rename_i hm
      have hunknown : receiver.isKnown = false := hhere.1.resolve_left (by simp [hm])
      rw [isReceiver_unknown hunknown, pure_bind]
      exact hrest
    · exact hrest
  · rw [if_neg (by simpa [DualPass.acts] using hacts), hsame]
  · rw [if_neg (by simpa [DualPass.acts] using hacts), hsame]
  · rw [if_neg (by simpa [DualPass.acts] using hacts), hsame]
  · exact hsame

/-- A rule rebuilds a node it does not act on and does not look through. -/
theorem rule_settled (hacts : pass.acts n = false) (hquiet : n.given.Quiet) :
    pass.rule E n = pure n.given := by
  cases pass with
  | factories => exact factoryRule_settled h hacts
  | combinators => exact combinatorRule_settled h hacts
  | inlining kind => exact inliningRule_settled h hacts hquiet

end Settled

/-- **A pass leaves a tree without work for it as it is,** and asks the engine for nothing. -/
theorem run_settled {t : Expr} (hclear : t.Clear pass) (hquiet : t.Quiet) :
    pass.run E t = pure t := by
  induction t using Tree.childwise with
  | step t ih =>
      have hgiven := Visited.given_node t fun u => pass.run E u
      rw [DualPass.run_eq]
      refine (rule_settled (fun c hc => ?_) ?_ ?_).trans (by rw [hgiven])
      · rw [Node.children_map] at hc
        obtain ⟨u, hu, rfl⟩ := List.mem_map.1 hc
        exact ih u hu (hclear.child hu) (hquiet.child hu)
      · rw [acts_map]
        exact hclear.here
      · rw [hgiven]
        exact hquiet

theorem runPasses_settled {t : Expr} (hclear : ∀ pass, t.Clear pass) (hquiet : t.Quiet) (n : Nat)
    (s : Store) : ∀ passes, runPasses (machine host (n + 1)) passes t s = .ok t s
  | [] => rfl
  | pass :: passes => by
      have hrun : (machine host (n + 1)).rewrite pass t s = .ok t s := by
        rw [machine_rewrite, run_settled (hclear pass) hquiet]
        rfl
      rw [runPasses_cons, Act.bind_ok hrun]
      exact runPasses_settled hclear hquiet n s passes

/-! ## Trees that stay are settled

Without nested steps a pass can only drop nodes. So where the size stays, nothing happened, and no
receiver was looked through. -/

/-- The second tree is smaller, or it is the first one and no receiver in it is looked through. -/
def Shrunk (pass : DualPass) (t u : Expr) : Prop :=
  u.size ≤ t.size ∧ (u.size = t.size →
    u = t ∧ ∀ kind, pass = .inlining kind → t.Everywhere fun w => w.looksThrough kind = false)

theorem shrunk_of_lt {t u : Expr} (h : u.size < t.size) : Shrunk pass t u :=
  ⟨Nat.le_of_lt h, fun heq => absurd heq (Nat.ne_of_lt h)⟩

theorem shrunk_all {cs : List (Expr × Act Expr)} {us : List Expr}
    (h : List.Forall₂ (fun c u => Shrunk pass c.1 u) cs us) :
    Tree.sizeAll us ≤ Tree.sizeAll (cs.map Prod.fst) ∧
      (Tree.sizeAll us = Tree.sizeAll (cs.map Prod.fst) → us = cs.map Prod.fst ∧
        ∀ c ∈ cs, ∀ kind, pass = .inlining kind →
          c.1.Everywhere fun w => w.looksThrough kind = false) := by
  induction h with
  | nil => exact ⟨Nat.le_refl _, fun _ => ⟨rfl, fun c hc => by cases hc⟩⟩
  | @cons c u cs us hcu _ ih =>
      simp only [List.map_cons, Tree.sizeAll]
      refine ⟨Nat.add_le_add hcu.1 ih.1, fun heq => ?_⟩
      have hle := hcu.1
      have hles := ih.1
      obtain ⟨hu, hquiet⟩ := hcu.2 (by omega)
      obtain ⟨hus, hquiets⟩ := ih.2 (by omega)
      refine ⟨by rw [hu, hus], fun d hd => ?_⟩
      rcases List.mem_cons.1 hd with rfl | hd
      · exact hquiet
      · exact hquiets d hd

theorem rebuild_shrunk {n : Visited}
    (h : ∀ c ∈ n.children, Gives (fun _ => True) (Shrunk pass c.1) c.2)
    (hn : ∀ kind, pass = .inlining kind → n.given.looksThrough kind = false) :
    Gives (fun _ => True) (Shrunk pass n.given) n.rebuild := by
  refine (rebuild_results (Gives.logic _) (R := fun c u => Shrunk pass c.1 u) h).imp ?_
  rintro t ⟨ht, hc⟩
  obtain ⟨hle, heq⟩ := shrunk_all hc
  unfold Shrunk
  rw [Tree.size_eq_children t, Tree.size_eq_children n.given, Visited.given_children]
  refine ⟨by omega, fun hsize => ?_⟩
  obtain ⟨hchildren, hquiet⟩ := heq (by omega)
  refine ⟨Tree.eq_of_head_children ht (by rw [hchildren, Visited.given_children]), fun kind hk => ?_⟩
  refine Tree.everywhere_iff.2 ⟨hn kind hk, fun c hc => ?_⟩
  rw [Visited.given_children] at hc
  obtain ⟨d, hd, rfl⟩ := List.mem_map.1 hc
  exact hquiet d hd kind hk

theorem size_child_lt {t c : Expr} (hc : c ∈ t.children) : c.size < t.size := by
  have hmem : ∀ ts : List Expr, c ∈ ts → c.size ≤ Tree.sizeAll ts := by
    intro ts
    induction ts with
    | nil => intro h; cases h
    | cons u us ih =>
        intro h
        simp only [Tree.sizeAll]
        rcases List.mem_cons.1 h with rfl | h
        · omega
        · have := ih h; omega
  have := hmem t.children hc
  rw [Tree.size_eq_children t]
  omega

/-- With no nested steps, nothing is found behind a tree. -/
theorem foldDual_exhausted (kind : DualKind) (t : Expr) :
    Gives (fun _ => True) (fun o => o = none ∧ t.folds = false) (foldDual .exhausted kind t) := by
  cases ht : t.folds with
  | false =>
      rw [foldDual_of_not_folds ht]
      exact Gives.pure ⟨rfl, rfl⟩
  | true =>
      unfold foldDual
      refine (tryEvaluate_of_folds ht).bind fun o => ?_
      split
      · exact Gives.pure fun h => by cases h
      · split
        · exact Gives.fail _
        · refine Gives.unknown.bind fun d => ?_
          exact Gives.bind (p := fun _ => False) Gives.exhausted fun l => Gives.pure fun h => h.elim

theorem inlineCall_exhausted (kind : DualKind) (receiver arg : Expr) :
    Gives (fun _ => True) (fun o => o = none ∧ receiver.isKnown = false)
      (inlineCall .exhausted kind receiver arg) := by
  have hreceiver : Gives (fun _ => True) (fun o => o = none → receiver.isKnown = false)
      (receiverLambda .exhausted kind receiver) := by
    unfold receiverLambda
    split
    · exact Gives.pure fun h => by cases h
    · rename_i hlambda
      refine (foldDual_exhausted kind receiver).imp fun o ho _ => ?_
      cases receiver with
      | lambda ps body =>
          unfold Tree.isKnown
          rcases ps with _ | ⟨p, _ | ⟨_, _⟩⟩
          · rfl
          · exact (hlambda p body rfl).elim
          · simp
      | _ => exact ho.2
  unfold inlineCall
  refine hreceiver.bind fun o => ?_
  split
  · exact Gives.pure fun ho => ⟨rfl, ho rfl⟩
  · refine Gives.unknown.bind fun body => ?_
    exact Gives.bind (p := fun _ => False) Gives.exhausted fun l => Gives.pure fun h => h.elim

theorem isReceiver_false (receiver : Expr) :
    Gives (fun _ => True) (fun b => b = false → receiver.isKnown = false)
      (isReceiver E receiver) := by
  unfold isReceiver
  split
  · rename_i params body
    exact Gives.pure id
  · rename_i hlambda
    cases hfolds : receiver.folds with
    | true =>
        refine (tryEvaluate_of_folds hfolds).bind fun o => Gives.pure fun ho hb => ?_
        rw [ho] at hb; cases hb
    | false =>
        refine Gives.unknown.bind fun o => Gives.pure fun _ _ => ?_
        cases receiver with
        | lambda ps body => exact (hlambda ps body rfl).elim
        | _ => exact hfolds

theorem rewrite_exhausted (p : DualPass) (t : Expr) :
    Gives (fun _ => True) (fun _ => False) (Engine.exhausted.rewrite p t) := Gives.exhausted

section Shrunk

variable {kind : DualKind} {n : Visited}
  (h : ∀ c ∈ n.children, Gives (fun _ => True) (Shrunk pass c.1) c.2)

include h

/-- What is made of a part is smaller than the node. -/
theorem part_shrunk {c : Expr × Act Expr} (hc : c ∈ n.children) :
    Gives (fun _ => True) (Shrunk pass n.given) c.2 := by
  have hlt := size_child_lt (Visited.given_child hc)
  exact (h c hc).imp fun t ht => shrunk_of_lt (Nat.lt_of_le_of_lt ht.1 hlt)

theorem factoryRule_shrunk (hpass : pass = .factories) :
    Gives (fun _ => True) (Shrunk pass n.given) (factoryRule .exhausted n) := by
  subst hpass
  have hbuild := rebuild_shrunk h fun kind hk => by cases hk
  unfold factoryRule
  split
  · split
    · exact Gives.fail _
    · exact hbuild
  · rename_i target rewriteReceiver m args
    have htarget := size_child_lt (Visited.given_child
      (n := .call (target, rewriteReceiver) m args) (List.mem_cons_self ..))
    split
    · exact hbuild
    · refine Gives.unknown.bind fun receiver => Gives.unknown.bind fun v => ?_
      split
      · exact Gives.fail _
      · refine Gives.unknown.bind fun bs => Gives.unknown.bind fun bound => ?_
        refine Gives.pure fun _ _ _ _ => shrunk_of_lt (Nat.lt_of_le_of_lt ?_ htarget)
        rw [Tree.size_eq_children target]
        exact Nat.le_add_left ..
  · exact hbuild

theorem combinatorRule_shrunk (hpass : pass = .combinators) :
    Gives (fun _ => True) (Shrunk pass n.given) (combinatorRule .exhausted n) := by
  subst hpass
  have hbuild := rebuild_shrunk h fun kind hk => by cases hk
  unfold combinatorRule
  split
  · split
    · refine Gives.unknown.bind fun l => Gives.unknown.bind fun r => Gives.unknown.bind fun c => ?_
      exact (rewrite_exhausted _ _).imp fun _ h => h.elim
    · split
      · refine Gives.unknown.bind fun l => Gives.unknown.bind fun r => Gives.unknown.bind fun c => ?_
        exact (rewrite_exhausted _ _).imp fun _ h => h.elim
      · exact hbuild
  · split
    · refine Gives.unknown.bind fun l => Gives.unknown.bind fun c => ?_
      exact (rewrite_exhausted _ _).imp fun _ h => h.elim
    · exact hbuild
  · exact hbuild

theorem spliceDual_shrunk (hpass : pass = .inlining kind)
    (hn : n.given.folds = false → n.given.looksThrough kind = false) :
    Gives (fun _ => True) (Shrunk pass n.given) (spliceDual .exhausted kind n) := by
  subst hpass
  unfold spliceDual
  refine (foldDual_exhausted kind n.given).bind fun o => ?_
  split
  · exact (rewrite_exhausted _ _).imp fun _ h => h.elim
  · cases hfolds : n.given.folds with
    | true => exact Gives.unknown.imp fun _ _ h => by cases h.2
    | false =>
        have hbuild := rebuild_shrunk h fun k hk => by cases hk; exact hn hfolds
        exact hbuild.imp fun _ ht _ => ht

theorem evaluationRule_shrunk (hpass : pass = .inlining kind) (receiver arg : Expr)
    (hn : receiver.isKnown = false → n.given.looksThrough kind = false) :
    Gives (fun _ => True) (Shrunk pass n.given)
      (evaluationRule .exhausted kind receiver arg n) := by
  subst hpass
  refine (inlineCall_exhausted kind receiver arg).bind fun o => ?_
  split
  · exact Gives.pure fun h => by cases h.1
  · cases hknown : receiver.isKnown with
    | true => exact Gives.unknown.imp fun _ _ h => by cases h.2
    | false =>
        have hbuild := rebuild_shrunk h fun k hk => by cases hk; exact hn hknown
        exact hbuild.imp fun _ ht _ => ht

theorem inliningRule_shrunk (hpass : pass = .inlining kind) :
    Gives (fun _ => True) (Shrunk pass n.given) (inliningRule .exhausted kind n) := by
  have hbuild : n.given.looksThrough kind = false →
      Gives (fun _ => True) (Shrunk pass n.given) n.rebuild := fun hn =>
    rebuild_shrunk h fun k hk => by rw [hpass] at hk; cases hk; exact hn
  unfold inliningRule
  split
  · split
    · exact evaluationRule_shrunk h hpass _ _ fun _ => rfl
    · exact hbuild rfl
  · rename_i receiver _ m arg _
    split
    · refine evaluationRule_shrunk h hpass _ _ fun hr => ?_
      simp [Tree.looksThrough, Visited.given, Node.map, Node.tree, hr]
    · rename_i hm
      refine hbuild ?_
      simp [Tree.looksThrough, Visited.given, Node.map, Node.tree, hm]
  · rename_i receiver rewriteReceiver m
    have hrest : (isEvaluator kind m && receiver.isKnown) = false → Gives (fun _ => True)
        (Shrunk pass (Visited.given (.member (receiver, rewriteReceiver) m)))
        (if m.ty.declares (.dual kind) then
          spliceDual .exhausted kind (.member (receiver, rewriteReceiver) m)
        else Visited.rebuild (.member (receiver, rewriteReceiver) m)) := by
      intro hev
      split
      · refine spliceDual_shrunk h hpass fun hfolds => Bool.or_eq_false_iff.2 ⟨hev, ?_⟩
        exact Bool.and_eq_false_iff.2 (.inr hfolds)
      · rename_i hty
        refine hbuild (Bool.or_eq_false_iff.2 ⟨hev, Bool.and_eq_false_iff.2 (.inl ?_)⟩)
        exact Bool.eq_false_iff.2 hty
    dsimp only
    split
    · refine (isReceiver_false receiver).bind fun b => ?_
      split
      · exact (part_shrunk h (c := (receiver, rewriteReceiver)) (by simp [Node.children])).imp
          fun _ h _ => h
      · cases hknown : receiver.isKnown with
        | true =>
            rename_i hb
            exact Gives.unknown.imp fun _ _ h => by cases h (Bool.eq_false_iff.2 hb)
        | false => exact (hrest (by rw [hknown, Bool.and_false])).imp fun _ h _ => h
    · rename_i hm
      exact hrest (by rw [Bool.eq_false_iff.2 hm, Bool.false_and])
  · split
    · exact spliceDual_shrunk h hpass fun _ => rfl
    · exact hbuild rfl
  · split
    · exact spliceDual_shrunk h hpass fun _ => rfl
    · exact hbuild rfl
  · rename_i operand rewriteOperand m ty
    split
    · exact part_shrunk h (c := (operand, rewriteOperand)) (by simp [Node.children])
    · exact hbuild rfl
  -- What is left looks through nothing.
  · rename_i hcallee hmember hstatic hliteral hconvert
    refine hbuild ?_
    cases n with
    | member target m => exact (hmember target.1 target.2 m rfl).elim
    | call target m args =>
        rcases args with _ | ⟨arg, _ | ⟨_, _⟩⟩
        · rfl
        · exact (hcallee target.1 target.2 m arg.1 arg.2 rfl).elim
        · rfl
    | _ => rfl

/-- A pass that may take no nested step drops nodes or leaves the tree. -/
theorem rule_shrunk : Gives (fun _ => True) (Shrunk pass n.given) (pass.rule .exhausted n) := by
  cases pass with
  | factories => exact factoryRule_shrunk h rfl
  | combinators => exact combinatorRule_shrunk h rfl
  | inlining kind => exact inliningRule_shrunk h rfl

end Shrunk

theorem run_shrunk (t : Expr) : Gives (fun _ => True) (Shrunk pass t) (pass.run .exhausted t) := by
  induction t using Tree.childwise with
  | step t ih =>
      have h : Gives (fun _ => True)
          (Shrunk pass (Visited.given (t.node.map fun u => (u, pass.run .exhausted u))))
          (pass.rule .exhausted (t.node.map fun u => (u, pass.run .exhausted u))) := by
        refine rule_shrunk fun c hc => ?_
        rw [Node.children_map] at hc
        obtain ⟨u, hu, rfl⟩ := List.mem_map.1 hc
        exact ih u hu
      rw [Visited.given_node] at h
      rwa [DualPass.run_eq]

/-- What the pipeline leaves as it is, with one nested step for each pass, is settled. -/
theorem settled_of_same {e : Expr} {s t : Store}
    (h : rewriteDefault (machine host 1) e s = .ok e t) : (∀ pass, e.Clear pass) ∧ e.Quiet := by
  obtain ⟨a, s₁, ha, h⟩ := Act.bind_eq_ok.1 h
  obtain ⟨b, s₂, hb, h⟩ := Act.bind_eq_ok.1 h
  obtain ⟨c, s₃, hc, h⟩ := Act.bind_eq_ok.1 h
  obtain ⟨d, s₄, hd, h⟩ := Act.bind_eq_ok.1 h
  obtain ⟨hde, _⟩ := Act.pure_eq_ok.1 h
  have hfactories := ((rewrite_clears .factories 1 e).result s a s₁ ha trivial).2
  have hcombinators := ((rewrite_clears .combinators 1 a).result s₁ b s₂ hb trivial).2
  have hspecifications := ((rewrite_clears _ 1 b).result s₂ c s₃ hc trivial).2
  have hprojections := ((rewrite_clears _ 1 c).result s₃ d s₄ hd trivial).2
  obtain ⟨hea, heqa⟩ := ((run_shrunk e).result s a s₁ ha trivial).2
  obtain ⟨hab, heqb⟩ := ((run_shrunk a).result s₁ b s₂ hb trivial).2
  obtain ⟨hbc, heqc⟩ := ((run_shrunk b).result s₂ c s₃ hc trivial).2
  obtain ⟨hcd, heqd⟩ := ((run_shrunk c).result s₃ d s₄ hd trivial).2
  have hsize : d.size = e.size := by rw [hde]
  obtain ⟨rfl, _⟩ := heqa (by omega)
  obtain ⟨rfl, _⟩ := heqb (by omega)
  obtain ⟨rfl, hspecification⟩ := heqc (by omega)
  obtain ⟨rfl, hprojection⟩ := heqd (by omega)
  constructor
  · intro pass
    match pass with
    | .factories => exact hfactories
    | .combinators => exact hcombinators
    | .inlining .specification => exact hspecifications
    | .inlining .projection => exact hprojections
  · refine ((hspecification _ rfl).and (hprojection _ rfl)).imp fun u hu kind => ?_
    cases kind with
    | specification => exact hu.1
    | projection => exact hu.2

/-! ## The second run -/

/-- **The pipeline leaves a tree as it is exactly if no pass has anything to do on the spot, and no
evaluation and no read of a dual stands on a known receiver.** -/
theorem rewriteDefault_same_iff {e : Expr} :
    (∀ (m : Nat) (t : Store), rewriteDefault (machine host (m + 1)) e t = .ok e t) ↔
      (∀ pass, e.Clear pass) ∧ e.Quiet := by
  constructor
  · intro hsame
    exact settled_of_same (hsame 0 .initial)
  · rintro ⟨hclear, hquiet⟩ m t
    rw [rewriteDefault_eq]
    exact runPasses_settled hclear hquiet m t DualPass.all

/-- **When one run of the pipeline reaches the normal form.** On a host that leaves published tree
forms in place, and as long as these hold nothing for the passes before the last one, rewriting
the result again returns it unchanged exactly if no evaluation and no read of a dual in it stands
on a known receiver. -/
theorem rewriteDefault_again (hh : host.KeepsTrees) {n : Nat} {e e₁ : Expr} {s s₁ : Store}
    (h : rewriteDefault (machine host n) e s = .ok e₁ s₁)
    (hpub : ∀ pass ≠ .inlining .projection, Published (fun l => l.tree.Clear pass) s₁) :
    (∀ (m : Nat) (t : Store), rewriteDefault (machine host (m + 1)) e₁ t = .ok e₁ t) ↔
      e₁.Quiet := by
  rw [rewriteDefault_same_iff]
  exact and_iff_right (rewriteDefault_clear hh h hpub)

/-- Registered host code takes no published form away. -/
theorem registry_keepsTrees (r : Registry) : r.host.KeepsTrees :=
  fun id l => registry_keeps (lasting_tree id l) (formal_tree id l) r

namespace Evaluated

/-- `x => x + 1`. -/
def successor : Lam :=
  ⟨[⟨0, "x", .int⟩], .operation .add (.param ⟨0, "x", .int⟩) (Tree.constant (.int 1))⟩

/-- The evaluation of a projection of integers. -/
def evaluation (receiver arg : Expr) : Expr :=
  .invoke (.member receiver (Dual.evaluator .projection .int .int)) [arg]

/-- `(x => x + 1).evaluate(5)`. -/
def direct : Expr := evaluation successor.tree (Tree.constant (.int 5))

/-- `(y => x => x + 1).evaluate(1).evaluate(5)`. -/
def nested : Expr :=
  evaluation (evaluation (.lambda [⟨1, "y", .int⟩] successor.tree) (Tree.constant (.int 1)))
    (Tree.constant (.int 5))

/-- `5 + 1`. -/
def sum : Expr := .operation .add (Tree.constant (.int 5)) (Tree.constant (.int 1))

theorem sum_quiet : sum.Quiet := by
  have hconstant : ∀ k : Int64, (Tree.constant (.int k)).Quiet := fun k =>
    Tree.everywhere_leaf (fun _ => rfl) rfl
  refine Tree.everywhere_pair (fun _ => rfl) rfl ?_ ?_
  · exact hconstant 5
  · exact hconstant 1

end Evaluated

/-- `(x => x + 1).evaluate(5)` becomes `5 + 1`, which stays. -/
theorem rewriteDefault_again_successor :
    rewriteDefault (machine Registry.empty.host 2) Evaluated.direct .initial =
        .ok Evaluated.sum .initial ∧
      ∀ (m : Nat) (t : Store), rewriteDefault (machine Registry.empty.host (m + 1)) Evaluated.sum t =
        .ok Evaluated.sum t := by
  have hrun : rewriteDefault (machine Registry.empty.host 2) Evaluated.direct .initial =
      .ok Evaluated.sum .initial := rfl
  refine ⟨hrun, (rewriteDefault_again (registry_keepsTrees _) hrun ?_).2 Evaluated.sum_quiet⟩
  intro pass _ id l h
  simp [TreePublished, Store.initial] at h

/-- The condition is needed: where the receiver of an evaluation is itself an evaluation, it is
looked at before it is rewritten, and `(y => x => x + 1).evaluate(1).evaluate(5)` takes two runs.
-/
theorem nested_evaluation_takes_two_runs (host : Host) (m : Nat) (s : Store) :
    rewriteDefault (machine host (m + 2)) Evaluated.nested s = .ok Evaluated.direct s ∧
      rewriteDefault (machine host (m + 2)) Evaluated.direct s = .ok Evaluated.sum s := ⟨rfl, rfl⟩

end DualForm
