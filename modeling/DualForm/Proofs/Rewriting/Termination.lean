import DualForm.Proofs.Dual.Inlining
import DualForm.Proofs.Dual.Removal
import DualForm.Proofs.Ending
import DualForm.Proofs.Matching

/-!
# Inlining ends

* `Halts host I post x` — from every store with `I`, the action `x` ends: with a result that has `post`, in a
  store with `I`, or with an error.
* `Tree.mentions kind`, `Tree.Free kind t` — `t` has no evaluator, evaluation, literal or member of duals of the
  kind, and no conversion through a method of theirs.
* `Evaluates kind r a t` — `t` evaluates the receiver `r` on `a`, by the evaluator or by the method.
* `Lam.Calm l` — `l` does not apply its parameter to itself.
* `Tree.Yields` — a tree that folds does so in finite time, and if it folds to a dual of the kind, its tree form
  ends too and is free.

Principal result: `inlining_ends` — inlining ends on a tree whose receivers have free lambdas, however deep
evaluations are nested in each other's arguments and however often these are copied, if no lambda that
applies its parameter to itself is evaluated on the bare evaluator of another one. Without this it need not
end (`inlining_endless`).

An evaluation is replaced by a body with the argument in it, which may be larger than the evaluation. The
induction is on the tree as it was given: a free body makes no evaluations of its own, so that all there is to
do in the new tree is what there was to do in the argument, and evaluations of the argument, if it is
an evaluator and the body applies it.
-/

namespace DualForm

variable {α β : Type} {host : Host} {I : Store → Prop} {kind : DualKind} {E : Engine}

/-! ## Actions that end -/

/-- From every store with `I`, the action ends: with a result that has `post` in a store with `I`, or with an
error. -/
def Halts (host : Host) (I : Store → Prop) (post : α → Prop) (x : Engine → Act α) : Prop :=
  Coincide host I post x x

namespace Halts

variable {p q : α → Prop} {post : β → Prop} {x y : Engine → Act α}

theorem pure {a : α} (h : p a) : Halts host I p fun _ => Pure.pure a := Coincide.pure h

theorem lift {e : Except Error α} (h : ∀ a, e = .ok a → p a) : Halts host I p fun _ => Act.lift e := by
  cases e with
  | ok a => exact pure (h a rfl)
  | error e => exact fun s _ => ⟨.error (.failed e) s, ⟨0, fun _ _ => rfl⟩, ⟨0, fun _ _ => rfl⟩, trivial⟩

theorem congr (h : ∀ E, x E = y E) (hy : Halts host I p y) : Halts host I p x := Coincide.congr h h hy

theorem bind {f : Engine → α → Act β} (hx : Halts host I p x)
    (hf : ∀ a, p a → Halts host I post fun E => f E a) : Halts host I post fun E => x E >>= f E :=
  Coincide.bind hx hf

theorem imp (hx : Halts host I p x) (h : ∀ a, p a → q a) : Halts host I q x := by
  intro s hs
  obtain ⟨r, hr, hr', hfinished⟩ := hx s hs
  refine ⟨r, hr, hr', ?_⟩
  match r, hfinished with
  | .ok a t, ⟨ha, ht⟩ => exact ⟨h a ha, ht⟩
  | .error (.failed e) t, _ => trivial

/-- An answer of the machine ends where the step it takes does. -/
theorem step (h : ∀ n, x (machine host (n + 1)) = y (machine host n)) (hy : Halts host I p y) :
    Halts host I p x := by
  intro s hs
  obtain ⟨r, hr, _, hfinished⟩ := hy s hs
  exact ⟨r, hr.step h, hr.step h, hfinished⟩

/-- The result is one that the action returns. -/
theorem returned (hx : Halts host I p x) : Halts host I (fun a => p a ∧ Returns host I x a) x := by
  intro s hs
  obtain ⟨r, hr, hr', hfinished⟩ := hx s hs
  refine ⟨r, hr, hr', ?_⟩
  match r, hfinished with
  | .ok a t, ⟨ha, ht⟩ => exact ⟨⟨ha, .of_reaches hs hr⟩, ht⟩
  | .error (.failed e) t, _ => trivial

theorem mapM {f : Engine → α → Act β} : ∀ {as : List α},
    (∀ a ∈ as, Halts host I (fun _ => True) fun E => f E a) →
      Halts host I (fun _ => True) fun E => as.mapM (f E)
  | [], _ => congr (fun _ => List.mapM_nil) (pure trivial)
  | a :: as, h => by
      refine congr (fun _ => List.mapM_cons) ((h a (List.mem_cons_self ..)).bind fun b _ => ?_)
      exact (mapM fun c hc => h c (List.mem_cons_of_mem _ hc)).bind fun _ _ => pure trivial

end Halts

/-! ## Trees without duals of a kind -/

namespace Tree

/-- Whether the top node is a read of an evaluator, an evaluation by the method, a literal, a member or a
conversion of duals of this kind. -/
def mentions (kind : DualKind) : Expr → Bool
  | .literal _ ty => ty.declares (.dual kind)
  | .staticMember m | .member _ m => m.ty.declares (.dual kind) || isEvaluator kind m
  | .staticCall m _ | .call _ m _ => isEvaluateMethod kind m
  | .unary .convert _ (some m) _ => m.declaredBy (.dual kind)
  | _ => false

/-- The tree has nothing to do with duals of this kind. -/
def Free (kind : DualKind) (t : Expr) : Prop := t.Everywhere fun u => u.mentions kind = false

theorem mentions_substitute {p : Param} {a t : Expr} (hp : ∀ q, t ≠ .param q) :
    (substitute p a t).mentions kind = t.mentions kind := by
  cases t with
  | param q => exact absurd rfl (hp q)
  | unary op operand via ty => cases op <;> cases via <;> rfl
  | _ => rfl

/-- A read of an evaluator that stands in a free tree after a substitution is the replacement. -/
theorem param_of_readsEvaluator {p : Param} {a t : Expr} (ht : t.mentions kind = false)
    (h : (substitute p a t).readsEvaluator kind = true) : t = .param p := by
  cases t with
  | param q =>
      unfold substitute at h
      split at h
      · rename_i hq
        rw [hq]
      · cases h
  | member target m =>
      simp only [mentions, Bool.or_eq_false_iff] at ht
      simp [substitute, readsEvaluator, ht.2] at h
  | _ => simp [substitute, readsEvaluator] at h

end Tree

/-- The pass over a tree. -/
abbrev inlining (kind : DualKind) (t : Expr) (E : Engine) : Act Expr := (DualPass.inlining kind).run E t

/-- A node that mentions no dual of the kind is rebuilt, unless it applies an evaluator that inlining looks
through. -/
theorem inlining_rebuilds {t : Expr} (ht : t.mentions kind = false)
    (hcallee : ∀ c arg, t = .invoke c [arg] → c.readsEvaluator kind = false) :
    inlining kind t E = Visited.rebuild (t.node.map fun u => (u, inlining kind u E)) := by
  by_cases hinvoke : ∃ callee args, t = .invoke callee args
  · obtain ⟨callee, args, rfl⟩ := hinvoke
    rw [rebuild_node]
    exact run_application fun k arg hk hargs => by
      cases hk
      exact hcallee callee arg (by rw [hargs])
  refine (DualPass.run_eq (.inlining kind) t).trans ?_
  cases t with
  | invoke callee args => exact absurd ⟨_, _, rfl⟩ hinvoke
  | literal v ty =>
      replace ht : ty.declares (.dual kind) = false := ht
      exact if_neg (by rw [ht]; exact Bool.false_ne_true)
  | staticMember m =>
      simp only [Tree.mentions, Bool.or_eq_false_iff] at ht
      exact if_neg (by rw [ht.1]; exact Bool.false_ne_true)
  | member target m =>
      simp only [Tree.mentions, Bool.or_eq_false_iff] at ht
      exact (inliningRule_member kind target _ ht.2).trans (if_neg (by rw [ht.1]; exact Bool.false_ne_true))
  | call target m args =>
      replace ht : isEvaluateMethod kind m = false := ht
      match args with
      | [arg] => exact if_neg (by rw [ht]; exact Bool.false_ne_true)
      | [] | _ :: _ :: _ => rfl
  | unary op operand via ty =>
      cases op <;> cases via <;> try rfl
      rename_i m
      replace ht : m.declaredBy (.dual kind) = false := ht
      exact if_neg (by rw [ht]; exact Bool.false_ne_true)
  | _ => rfl

theorem rebuild_halts {t : Expr} (h : ∀ c ∈ t.children, Halts host I (fun _ => True) (inlining kind c)) :
    Halts host I (fun _ => True) fun E => Visited.rebuild (t.node.map fun u => (u, inlining kind u E)) :=
  Halts.congr (fun E => rebuild_node t fun u => inlining kind u E) ((Halts.mapM h).bind fun _ _ => .pure trivial)

/-! ## Evaluations -/

/-- The lambda does not apply its parameter to itself. -/
def Lam.Calm (l : Lam) : Prop :=
  ∀ p, l.params = [p] → l.body.Everywhere fun u => u ≠ .invoke (.param p) [.param p]

/-- The tree evaluates a receiver on an argument. -/
inductive Evaluates (kind : DualKind) (r a : Expr) : Expr → Prop
  | applied {m : Member Getter} : isEvaluator kind m = true → Evaluates kind r a (.invoke (.member r m) [a])
  | called {m : Method Invoker} : isEvaluateMethod kind m = true → Evaluates kind r a (.call r m [a])

/-- The body of a lambda with an argument put in, visited again. -/
def visitedAgain (kind : DualKind) (l : Lam) (arg : Expr) (E : Engine) : Act Expr := do
  E.rewrite (.inlining kind) (← Act.lift (l.applied arg))

theorem visitedAgain_halts {l : Lam} {a : Expr}
    (h : ∀ p, l.params = [p] → Halts host I (fun _ => True) (inlining kind (Tree.substitute p a l.body))) :
    Halts host I (fun _ => True) (visitedAgain kind l a) := by
  refine Halts.bind (p := fun t => ∃ p, l.params = [p] ∧ t = Tree.substitute p a l.body)
    (Halts.lift fun t => Lambda.applied_ok.1) ?_
  rintro _ ⟨p, hp, rfl⟩
  exact Halts.step (fun n => machine_rewrite _ _) (h p hp)

/-- The receiver denotes a lambda with `P`, or none. -/
abbrev Denotable (host : Host) (I : Store → Prop) (kind : DualKind) (P : Lam → Prop) (r : Expr) : Prop :=
  Halts host I (fun o => ∀ l, o = some l → P l) fun E => receiverLambda E kind r

/-- In some store the receiver denotes this lambda. -/
def MayDenote (host : Host) (I : Store → Prop) (kind : DualKind) (r : Expr) (l : Lam) : Prop :=
  Returns host I (fun E => receiverLambda E kind r) (some l)

/-- An evaluation ends if the bodies it may be replaced by do, and its parts. -/
theorem evaluation_halts {P : Lam → Prop} {r a t : Expr} (ht : Evaluates kind r a t)
    (hr : Denotable host I kind P r) (hl : ∀ l, P l → Halts host I (fun _ => True) (visitedAgain kind l a))
    (hparts : ∀ c ∈ t.children, Halts host I (fun _ => True) (inlining kind c)) :
    Halts host I (fun _ => True) (inlining kind t) := by
  have hrule : Halts host I (fun _ => True) fun E =>
      evaluationRule E kind r a (t.node.map fun u => (u, inlining kind u E)) := by
    have hinlined : Halts host I (fun _ => True) fun E => inlineCall E kind r a := by
      refine hr.bind fun o ho => ?_
      cases o with
      | none => exact .pure trivial
      | some l => exact Halts.congr (fun E => (bind_assoc ..).symm) ((hl l (ho l rfl)).bind fun _ _ => .pure trivial)
    refine hinlined.bind fun o _ => ?_
    cases o with
    | none => exact rebuild_halts hparts
    | some u => exact .pure trivial
  cases ht with
  | applied hm =>
      refine Halts.congr (fun E => ?_) hrule
      exact (inliningRule_invoke kind r a _ _ _).trans (if_pos hm)
  | called hm =>
      refine Halts.congr (fun E => ?_) hrule
      exact (inliningRule_call kind r a _ _ _).trans (if_pos hm)

/-! ## Free bodies with an argument in them -/

/-- The pass ends on the tree. -/
abbrev Ending (host : Host) (I : Store → Prop) (kind : DualKind) (t : Expr) : Prop :=
  Halts host I (fun _ => True) (inlining kind t)

/-- Induction over a free body with a replaced parameter: the parameter itself, what it is applied to, and all other
nodes, which are rebuilt. -/
theorem Tree.Free.replaced {p : Param} {a : Expr} {motive : Expr → Prop} (read : motive (.param p))
    (applied : ∀ x, x.Free kind → motive x → motive (.invoke (.param p) [x]))
    (rebuilt : ∀ t, t ≠ .param p → (∀ E, inlining kind (substitute p a t) E =
        Visited.rebuild ((substitute p a t).node.map fun u => (u, inlining kind u E))) →
      (substitute p a t).children = t.children.map (substitute p a) → (∀ c ∈ t.children, motive c) → motive t)
    {b : Expr} (hb : b.Free kind) : motive b := by
  induction b using childwise with
  | step b ih =>
      have hchildren : ∀ c ∈ b.children, motive c := fun c hc => ih c hc (hb.child hc)
      by_cases hparam : ∃ q, b = .param q
      · obtain ⟨q, rfl⟩ := hparam
        by_cases hq : q = p
        · exact hq ▸ read
        have hkept : substitute p a (.param q) = .param q := if_neg hq
        refine rebuilt _ (fun h => hq (Tree.param.inj h)) (fun E => ?_) (by rw [hkept]; rfl) hchildren
        rw [hkept]
        exact inlining_rebuilds rfl fun _ _ h => nomatch h
      have hnone : ∀ q, b ≠ .param q := fun q hq => hparam ⟨q, hq⟩
      by_cases happly : ∃ x, b = .invoke (.param p) [x]
      · obtain ⟨x, rfl⟩ := happly
        have hx : x ∈ children (.invoke (.param p) [x] : Expr) :=
          List.mem_cons_of_mem _ (List.mem_singleton.2 rfl)
        exact applied x (hb.child hx) (hchildren x hx)
      refine rebuilt b (hnone p) (fun E => inlining_rebuilds ?_ fun c y h => ?_) (substitute_children hnone) hchildren
      · rw [mentions_substitute hnone]
        exact hb.here
      · refine Bool.eq_false_iff.2 fun hread => ?_
        cases b with
        | invoke callee args =>
            obtain ⟨rfl, hargs⟩ : substitute p a callee = c ∧ substituteAll p a args = [y] := by
              simpa [substitute] using h
            have hcallee := param_of_readsEvaluator (hb.child (List.mem_cons_self ..)).here hread
            rw [substituteAll_eq_map] at hargs
            obtain ⟨x, rfl, -⟩ := List.map_eq_singleton_iff.1 hargs
            exact happly ⟨x, by rw [hcallee]⟩
        | param q => exact hnone q rfl
        | _ => cases h

/-- **A free body with a replaced parameter:** the pass ends on it if it ends on the replacement, and on the
replacement applied to arguments on which it ends, where the body applies the parameter. -/
theorem substituted_ends {p : Param} {a b : Expr} {Q : Expr → Prop} (hb : b.Free kind)
    (hQ : b.Everywhere fun u => ∀ x, u = .invoke (.param p) [x] → Q x) (ha : Ending host I kind a)
    (happlied : ∀ x, x.Free kind → Q x → Ending host I kind (Tree.substitute p a x) →
      Ending host I kind (.invoke a [Tree.substitute p a x])) :
    Ending host I kind (Tree.substitute p a b) := by
  refine hb.replaced (p := p) (a := a)
    (motive := fun b => (b.Everywhere fun u => ∀ x, u = .invoke (.param p) [x] → Q x) →
      Ending host I kind (Tree.substitute p a b))
    (fun _ => ?_) (fun x hx ih hQ => ?_) (fun t _ hrebuild hparts ih hQ => ?_) hQ
  · rw [show Tree.substitute p a (.param p) = a from if_pos rfl]
    exact ha
  · have hmem : x ∈ Tree.children (.invoke (.param p) [x] : Expr) :=
      List.mem_cons_of_mem _ (List.mem_singleton.2 rfl)
    have hgoal := happlied x hx (hQ.here x rfl) (ih (hQ.child hmem))
    simpa [Tree.substitute, Tree.substituteAll] using hgoal
  · refine Halts.congr hrebuild (rebuild_halts fun c hc => ?_)
    rw [hparts] at hc
    obtain ⟨u, hu, rfl⟩ := List.mem_map.1 hc
    exact ih u hu (hQ.child hu)

section Arguments

variable {l : Lam} {a : Expr}

/-- A free tree makes no work. -/
theorem free_ends {t : Expr} (ht : t.Free kind) : Ending host I kind t := by
  induction t using Tree.childwise with
  | step t ih =>
      refine Halts.congr (fun E => inlining_rebuilds ht.here fun c y h => ?_) (rebuild_halts fun c hc =>
        ih c hc (ht.child hc))
      subst h
      have hc := (ht.child (List.mem_cons_self ..)).here
      cases c with
      | member r m =>
          simp only [Tree.mentions, Bool.or_eq_false_iff] at hc
          simp [Tree.readsEvaluator, hc.2]
      | _ => rfl

/-- A free lambda evaluated on an argument that is no evaluator. -/
theorem plain_ends (hl : l.body.Free kind) (ha : Ending host I kind a) (hread : a.readsEvaluator kind = false) :
    Halts host I (fun _ => True) (visitedAgain kind l a) := by
  refine visitedAgain_halts fun p _ => substituted_ends (Q := fun _ => True) hl
    (hl.imp fun _ _ _ _ => trivial) ha fun x _ _ hx => ?_
  refine Halts.congr (fun E => inlining_rebuilds rfl fun c y h => ?_)
    (rebuild_halts (List.forall_mem_cons.2 ⟨ha, List.forall_mem_singleton.2 hx⟩))
  obtain ⟨rfl, -⟩ := Tree.invoke.inj h
  exact hread

variable {r : Expr} {m : Member Getter} {P : Lam → Prop} (hm : isEvaluator kind m = true)
  (hP : ∀ l, P l → l.body.Free kind) (hr : Denotable host I kind P r)
  (ha : Ending host I kind (.member r m))

include hm hP hr ha

/-- An evaluator applied to an argument that is none. -/
theorem applied_plain_ends {y : Expr} (hy : Ending host I kind y) (hread : y.readsEvaluator kind = false) :
    Ending host I kind (.invoke (.member r m) [y]) := by
  exact evaluation_halts (.applied hm) hr (fun l hl => plain_ends (hP l hl) hy hread)
    (List.forall_mem_cons.2 ⟨ha, List.forall_mem_singleton.2 hy⟩)

/-- A calm lambda evaluated on an evaluator applies it to arguments that are none. -/
theorem calm_ends (hl : l.body.Free kind) (hcalm : l.Calm) :
    Halts host I (fun _ => True) (visitedAgain kind l (.member r m)) := by
  refine visitedAgain_halts fun p hp => substituted_ends (Q := fun x => x ≠ .param p) hl
    ((hcalm p hp).imp fun u hu x hx h => hu (by rw [hx, h])) ha fun x hx hne hy => ?_
  refine applied_plain_ends hm hP hr ha hy (Bool.eq_false_iff.2 fun hread => ?_)
  exact hne (Tree.param_of_readsEvaluator hx.here hread)

/-- A lambda evaluated on the evaluator of calm ones may apply this to itself, but then it is done. -/
theorem onCalm_ends (hl : l.body.Free kind) (hcalm : ∀ l, P l → l.Calm) :
    Halts host I (fun _ => True) (visitedAgain kind l (.member r m)) := by
  refine visitedAgain_halts fun p hp => substituted_ends (Q := fun _ => True) hl
    (hl.imp fun _ _ _ _ => trivial) ha fun x hx _ hy => ?_
  by_cases hself : x = .param p
  · subst hself
    rw [show Tree.substitute p (.member r m) (.param p) = .member r m from if_pos rfl]
    exact evaluation_halts (.applied hm) hr (fun l hl => calm_ends hm hP hr ha (hP l hl) (hcalm l hl))
      (List.forall_mem_cons.2 ⟨ha, List.forall_mem_singleton.2 ha⟩)
  · refine applied_plain_ends hm hP hr ha hy (Bool.eq_false_iff.2 fun hread => ?_)
    exact hself (Tree.param_of_readsEvaluator hx.here hread)

end Arguments

/-! ## Whole trees -/

/-- Folding the tree ends, and if it gives a dual of the kind, its tree form ends as well and is free. -/
def Tree.Yields (host : Host) (I : Store → Prop) (kind : DualKind) (t : Expr) : Prop :=
  Halts host I (fun o => ∀ d, o = some (.dual d) → d.kind = kind →
    Halts host I (fun l => l.body.Free kind) fun E => E.tree d) fun E => tryEvaluate E t

/-- The tree has a receiver of the evaluator or of the evaluation method. -/
inductive Receives (kind : DualKind) (r : Expr) : Expr → Prop
  | read {m : Member Getter} : isEvaluator kind m = true → Receives kind r (.member r m)
  | called {m : Method Invoker} {args : List Expr} : isEvaluateMethod kind m = true →
      Receives kind r (.call r m args)

section Receivers

variable {t r : Expr}

theorem foldDual_halts (ht : t.folds = true → t.Yields host I kind) :
    Halts host I (fun o => ∀ l, o = some l → l.body.Free kind) fun E => foldDual E kind t := by
  cases hfolds : t.folds with
  | false => exact Halts.congr (fun E => foldDual_of_not_folds hfolds kind) (.pure fun l h => nomatch h)
  | true =>
      refine (ht hfolds).bind fun o ho => ?_
      cases o with
      | none => exact .pure fun l h => nomatch h
      | some v =>
          dsimp only
          split
          · exact fun s _ => ⟨_, ⟨0, fun _ _ => rfl⟩, ⟨0, fun _ _ => rfl⟩, trivial⟩
          · refine (Halts.lift fun d => expect_ok).bind fun d hd => ?_
            exact (ho d (by rw [hd.1]) hd.2).bind fun l hl => .pure fun k hk => by cases hk; exact hl

theorem receiverLambda_halts (ht : r.folds = true → r.Yields host I kind)
    (hr : ∀ ps b, r = .lambda ps b → b.Free kind) :
    Denotable host I kind (fun l => l.body.Free kind ∧ MayDenote host I kind r l) r := by
  have hfree : Denotable host I kind (fun l => l.body.Free kind) r := by
    by_cases hlambda : ∃ p b, r = .lambda [p] b
    · obtain ⟨p, b, rfl⟩ := hlambda
      exact .pure fun l hl => by cases hl; exact hr _ _ rfl
    · refine Halts.congr (fun E => ?_) (foldDual_halts ht)
      unfold receiverLambda
      split
      · exact absurd ⟨_, _, rfl⟩ hlambda
      · rfl
  refine hfree.returned.imp fun o ho l hl => ?_
  subst hl
  exact ⟨ho.1 l rfl, ho.2⟩

theorem isReceiver_halts (ht : r.folds = true → r.Yields host I kind) :
    Halts host I (fun _ => True) fun E => isReceiver E r := by
  by_cases hlambda : ∃ ps b, r = .lambda ps b
  · obtain ⟨ps, b, rfl⟩ := hlambda
    exact .pure trivial
  · cases hfolds : r.folds with
    | false =>
        refine Halts.congr (fun E => isReceiver_unknown ?_) (.pure trivial)
        cases r with
        | lambda ps b => exact absurd ⟨ps, b, rfl⟩ hlambda
        | _ => exact hfolds
    | true =>
        refine Halts.congr (fun E => ?_) ((ht hfolds).bind (f := fun _ o => pure o.isSome)
          fun o _ => Halts.pure (p := fun _ => True) trivial)
        unfold isReceiver
        split
        · exact absurd ⟨_, _, rfl⟩ hlambda
        · rfl

/-- A dual handed on becomes its lambda, which is free. -/
theorem spliceDual_halts (ht : t.folds = true → t.Yields host I kind)
    (hparts : ∀ c ∈ t.children, Ending host I kind c) : Halts host I (fun _ => True)
      fun E => spliceDual E kind (t.node.map fun u => (u, inlining kind u E)) := by
  have hfold : Halts host I (fun o => ∀ l, o = some l → l.body.Free kind) fun E =>
      foldDual E kind (Visited.given (t.node.map fun u => (u, inlining kind u E))) :=
    Halts.congr (fun E => by rw [Visited.given_node]) (foldDual_halts ht)
  refine hfold.bind fun o ho => ?_
  cases o with
  | none => exact rebuild_halts hparts
  | some l =>
      refine Halts.step (fun n => machine_rewrite _ _) (free_ends ?_)
      exact Tree.everywhere_single rfl rfl (ho l rfl)

/-- A node that may stand for a dual is handed on or rebuilt. -/
theorem standing_halts (declared : Bool) (ht : t.folds = true → t.Yields host I kind)
    (hparts : ∀ c ∈ t.children, Ending host I kind c) : Halts host I (fun _ => True) fun E =>
      if declared then spliceDual E kind (t.node.map fun u => (u, inlining kind u E))
      else Visited.rebuild (t.node.map fun u => (u, inlining kind u E)) := by
  cases declared with
  | true => exact spliceDual_halts ht hparts
  | false => exact rebuild_halts hparts

/-- What a receiver of the evaluator or of the evaluation method denotes is free. -/
theorem receiver_denotable (ht : Receives kind r t) (hr : r ∈ t.children)
    (hfolds : t.Everywhere fun u => u.folds = true → u.Yields host I kind)
    (hlambdas : t.Everywhere fun u => ∀ ps b, Receives kind (.lambda ps b) u → b.Free kind) :
    Denotable host I kind (fun l => l.body.Free kind ∧ MayDenote host I kind r l) r :=
  receiverLambda_halts (hfolds.child hr).here fun ps b h => hlambdas.here ps b (h ▸ ht)

end Receivers

/-- The read of a member: the receiver of an evaluator is rewritten, and a dual becomes its lambda. -/
theorem member_ends {r : Expr} {m : Member Getter}
    (ht : (Tree.member r m : Expr).folds = true → (Tree.member r m : Expr).Yields host I kind)
    (hr : r.folds = true → r.Yields host I kind) (hparts : Ending host I kind r) :
    Ending host I kind (.member r m) := by
  have hchildren : ∀ c ∈ Tree.children (.member r m : Expr), Ending host I kind c :=
    List.forall_mem_singleton.2 hparts
  have hrest := standing_halts (m.ty.declares (.dual kind)) ht hchildren
  by_cases hm : isEvaluator kind m = true
  · have hrule : Halts host I (fun _ => True) fun E => isReceiver E r >>= fun known =>
        if known then inlining kind r E
        else if m.ty.declares (.dual kind) then spliceDual E kind (.member (r, inlining kind r E) m)
        else Visited.rebuild (.member (r, inlining kind r E) m) := by
      refine (isReceiver_halts hr).bind fun known _ => ?_
      split
      · exact hparts
      · exact hrest
    refine Halts.congr (fun E => ?_) hrule
    show inliningRule E kind (.member (r, inlining kind r E) m) = _
    unfold inliningRule
    dsimp only
    rw [hm]
    simp
  · refine Halts.congr (fun E => ?_) hrest
    exact inliningRule_member kind r _ (Bool.eq_false_iff.2 hm)

/-- The evaluation of a receiver on an argument that is an evaluator, or none. -/
theorem evaluates_ends {r a t : Expr} (ht : Evaluates kind r a t)
    (hr : Denotable host I kind (fun l => l.body.Free kind ∧ MayDenote host I kind r l) r)
    (ha : ∀ r' m, a = .member r' m → isEvaluator kind m = true →
      Denotable host I kind (fun l => l.body.Free kind ∧ MayDenote host I kind r' l) r' ∧
        ∀ l l', MayDenote host I kind r l → MayDenote host I kind r' l' → l.Calm ∨ l'.Calm)
    (hparts : ∀ c ∈ t.children, Ending host I kind c) : Ending host I kind t := by
  have harg : Ending host I kind a := by
    cases ht with
    | applied => exact hparts a (List.mem_cons_of_mem _ (List.mem_singleton.2 rfl))
    | called => exact hparts a (List.mem_cons_of_mem _ (List.mem_singleton.2 rfl))
  refine evaluation_halts ht hr (fun l hl => ?_) hparts
  by_cases hread : ∃ r' m, a = .member r' m ∧ isEvaluator kind m = true
  · obtain ⟨r', m, rfl, hm⟩ := hread
    obtain ⟨hr', hcalm⟩ := ha r' m rfl hm
    by_cases hl' : l.Calm
    · exact calm_ends hm (fun _ h => h.1) hr' harg hl.1 hl'
    · exact onCalm_ends hm (fun _ h => h.1) hr' harg hl.1 fun l' hP =>
        (hcalm l l' hl.2 hP.2).resolve_left hl'
  · refine plain_ends hl.1 harg (Bool.eq_false_iff.2 fun h => hread ?_)
    cases a with
    | member r' m => exact ⟨r', m, rfl, (Bool.and_eq_true_iff.1 h).1⟩
    | _ => cases h

/-- A tree that evaluates nothing itself. -/
theorem unevaluated_ends {t : Expr} (hnone : ∀ r a, ¬ Evaluates kind r a t)
    (hfolds : t.Everywhere fun u => u.folds = true → u.Yields host I kind)
    (hparts : ∀ c ∈ t.children, Ending host I kind c) : Ending host I kind t := by
  cases t with
  | member r m =>
      have hr := List.mem_singleton.2 (rfl : r = r)
      exact member_ends hfolds.here (hfolds.child hr).here (hparts r hr)
  | staticMember m =>
      exact Halts.congr (fun E => rfl) (standing_halts (m.ty.declares (.dual kind)) hfolds.here hparts)
  | literal v ty =>
      exact Halts.congr (fun E => rfl) (standing_halts (ty.declares (.dual kind)) hfolds.here hparts)
  | unary op operand via ty =>
      by_cases hvia : ∃ m, op = .convert ∧ via = some m ∧ m.declaredBy (.dual kind) = true
      · obtain ⟨m, rfl, rfl, hm⟩ := hvia
        exact Halts.congr (fun E => if_pos hm) (hparts operand (List.mem_singleton.2 rfl))
      · refine Halts.congr (fun E => inlining_rebuilds ?_ fun _ _ h => by cases h) (rebuild_halts hparts)
        cases op <;> cases via <;> try rfl
        rename_i m
        exact Bool.eq_false_iff.2 fun hm => hvia ⟨m, rfl, rfl, hm⟩
  | invoke callee args =>
      refine Halts.congr (fun E => inlining_rebuilds rfl fun c a h => ?_) (rebuild_halts hparts)
      obtain ⟨rfl, rfl⟩ := Tree.invoke.inj h
      cases callee with
      | member r m =>
          have hm : isEvaluator kind m = false := Bool.eq_false_iff.2 fun hm => hnone r a (.applied hm)
          simp [Tree.readsEvaluator, hm]
      | _ => rfl
  | call r m args =>
      refine Halts.congr (fun E => ?_) (rebuild_halts hparts)
      refine (DualPass.run_eq (.inlining kind) _).trans ?_
      rcases args with _ | ⟨a, _ | ⟨b, args⟩⟩
      · rfl
      · exact if_neg fun hm => hnone r a (.called hm)
      · rfl
  | staticCall m args =>
      exact Halts.congr (fun E => DualPass.run_eq (.inlining kind) _) (rebuild_halts hparts)
  | _ => exact Halts.congr (fun E => inlining_rebuilds rfl fun _ _ h => by cases h) (rebuild_halts hparts)

/-- **Inlining ends.** Let every subtree that folds do so in finite time, and let every dual of the kind it gives
have a tree form that is free; let every lambda that is a receiver of the evaluator or of the evaluation method
be free. Then the pass ends with a result or an error, however deep evaluations are nested in each other's
arguments and however often bodies copy their argument — if no lambda that applies its parameter to
itself is evaluated on the bare evaluator of another such lambda. -/
theorem inlining_ends {e : Expr} (hfolds : e.Everywhere fun t => t.folds = true → t.Yields host I kind)
    (hlambdas : e.Everywhere fun t => ∀ ps b, Receives kind (.lambda ps b) t → b.Free kind)
    (hcalm : e.Everywhere fun t => ∀ r r' m, Evaluates kind r (.member r' m) t → isEvaluator kind m = true →
      ∀ l l', MayDenote host I kind r l → MayDenote host I kind r' l' → l.Calm ∨ l'.Calm)
    {s : Store} (hs : I s) :
    ∃ r, Ends host (fun E => E.rewrite (.inlining kind) e) s r ∧ ∀ t, r ≠ .error .exhausted t := by
  suffices h : Ending host I kind e by
    obtain ⟨r, hr, -, hfinished⟩ := h s hs
    refine ⟨r, hr.step fun n => machine_rewrite _ _, ?_⟩
    rintro t rfl
    exact hfinished
  clear hs s
  induction e using Tree.childwise with
  | step e ih =>
      have hparts : ∀ c ∈ e.children, Ending host I kind c := fun c hc =>
        ih c hc (hfolds.child hc) (hlambdas.child hc) (hcalm.child hc)
      by_cases hevaluates : ∃ r a, Evaluates kind r a e
      · obtain ⟨r, a, he⟩ := hevaluates
        have hread : ∀ {r m}, isEvaluator kind m = true → .member r m ∈ e.children →
            Denotable host I kind (fun l => l.body.Free kind ∧ MayDenote host I kind r l) r := fun hm hmem =>
          receiver_denotable (.read hm) (List.mem_singleton.2 rfl) (hfolds.child hmem) (hlambdas.child hmem)
        -- The receiver of the evaluation is a subtree, and so is that of the evaluator it may be evaluated on.
        refine evaluates_ends he ?_ (fun r' m ha hm => ⟨hread hm ?_, hcalm.here r r' m (ha ▸ he) hm⟩) hparts
        · cases he with
          | applied hm => exact hread hm (List.mem_cons_self ..)
          | called hm => exact receiver_denotable (.called hm) (List.mem_cons_self ..) hfolds hlambdas
        · subst ha
          cases he <;> exact List.mem_cons_of_mem _ (List.mem_singleton.2 rfl)
      · exact unevaluated_ends (fun r a h => hevaluates ⟨r, a, h⟩) hfolds hparts

/-! ## A lambda that applies its parameter to itself -/

section Literals

variable {d : Dual} {l : Lam}

theorem Exactly.halts {x : Engine → Act α} {a : α} (h : Exactly host I x a) : Halts host I (· = a) x := by
  intro s hs
  obtain ⟨t, ht, hI⟩ := h.settles s hs
  exact ⟨.ok a t, ht, ht, rfl, hI⟩

theorem literal_yields (h : Exactly host I (fun E => E.tree d) l) (hl : l.body.Free kind) :
    d.literal.Yields host I kind :=
  Halts.pure fun e he _ => by
    cases he
    exact h.halts.imp fun _ h => h ▸ hl

theorem literal_denotes (h : Exactly host I (fun E => E.tree d) l) {k : Lam}
    (hk : MayDenote host I d.kind d.literal k) : k = l := by
  obtain ⟨n, s, t, hs, hrun⟩ := hk
  have hrun' : foldDual (machine host n) d.kind d.literal s = .ok (some k) t := hrun
  rw [foldDual_literal] at hrun'
  obtain ⟨k', t', hk', hpure⟩ := Act.bind_eq_ok.1 hrun'
  cases hpure
  exact (h.ensures n).result s _ _ hs hk'

/-- The function of a dual made from a lambda is that lambda, compiled. -/
theorem function_halts {raw : Lam} (ho : d.origin = .lambda raw) (hI : ∀ s t, I s → t.trees = s.trees → I t) :
    Halts host I (fun _ => True) fun E => E.function d := by
  refine Halts.step (y := fun E => d.forceFunction host E) (fun _ => machine_function d) fun s hs => ?_
  cases hread : (Slot.function d).read s with
  | some f =>
      have hfound : ∀ E : Engine, d.forceFunction host E s = .ok f s := fun E => publishOnce_found hread
      exact ⟨.ok f s, ⟨0, fun _ _ => hfound _⟩, ⟨0, fun _ _ => hfound _⟩, trivial, hs⟩
  | none =>
      have hfirst : ∀ E : Engine, d.forceFunction host E s = .ok _ _ := fun E => by
        refine publishOnce_first (v := { s with nextId := s.nextId + 1 }) hread ?_ hread
        unfold Dual.initialFunction
        rw [ho]
        rfl
      exact ⟨.ok _ _, ⟨0, fun _ _ => hfirst _⟩, ⟨0, fun _ _ => hfirst _⟩, trivial, hI s _ hs rfl⟩

theorem functionRead_yields (h : Halts host I (fun _ => True) fun E => E.function d) :
    d.functionRead.Yields host I kind := by
  refine Halts.congr (fun E => ?_) (h.bind (f := fun _ f => pure (some (.func f))) fun f _ =>
    .pure fun e he => nomatch he)
  simp [Dual.functionRead, tryEvaluate, Dual.literal, Member.read, Dual.evaluator, expect_dual, Act.lift]

/-- What inlining meets in the evaluation of a dual on the evaluator of another one. -/
theorem invoked_functionRead {e : Dual} {k rawd rawe : Lam} (hd : Exactly host I (fun E => E.tree d) l)
    (he : Exactly host I (fun E => E.tree e) k) (hl : l.body.Free kind) (hk : k.body.Free kind)
    (hod : d.origin = .lambda rawd) (hoe : e.origin = .lambda rawe)
    (hI : ∀ s t, I s → t.trees = s.trees → I t) :
    ((d.invoked e.functionRead).Everywhere fun t => t.folds = true → t.Yields host I kind) ∧
      (d.invoked e.functionRead).Everywhere fun t => ∀ ps b, Receives kind (.lambda ps b) t → b.Free kind := by
  constructor
  · refine Tree.everywhere_pair (fun h => nomatch h) rfl ?_ ?_
    · exact Tree.everywhere_single (fun _ => functionRead_yields (function_halts hod hI)) rfl
        (Tree.everywhere_leaf (fun _ => literal_yields hd hl) rfl)
    · exact Tree.everywhere_single (fun _ => functionRead_yields (function_halts hoe hI)) rfl
        (Tree.everywhere_leaf (fun _ => literal_yields he hk) rfl)
  · refine Tree.everywhere_pair (fun ps b h => nomatch h) rfl ?_ ?_
    · exact Tree.everywhere_single (fun ps b h => nomatch h) rfl (Tree.everywhere_leaf (fun ps b h => nomatch h) rfl)
    · exact Tree.everywhere_single (fun ps b h => nomatch h) rfl (Tree.everywhere_leaf (fun ps b h => nomatch h) rfl)

end Literals

namespace Kept

theorem tree_raw {d : Dual} (hd : d ∈ duals) :
    Exactly host (Holds Dual.raw (· ∈ duals)) (fun E => E.tree d) (Dual.raw d) :=
  tree_of_published fun _ hs => hs d hd

theorem keeps_holds (s t : Store) (hs : Holds Dual.raw (· ∈ duals) s) (h : t.trees = s.trees) :
    Holds Dual.raw (· ∈ duals) t := fun d hd => by
  unfold TreePublished
  rw [h]
  exact hs d hd

theorem successor_free (kind : DualKind) : (Dual.raw Removed.successor).body.Free kind := by
  refine Tree.everywhere_pair rfl rfl (Tree.everywhere_leaf rfl rfl) (Tree.everywhere_leaf ?_ rfl)
  exact declares_of_none rfl _

theorem selfApplied_free (kind : DualKind) : (Dual.raw selfApplied).body.Free kind :=
  Tree.everywhere_pair rfl rfl (Tree.everywhere_leaf rfl rfl) (Tree.everywhere_leaf rfl rfl)

end Kept

open Kept in
/-- The condition on evaluators is needed: `x => x(x)`, evaluated on its own evaluator, is replaced by the same
evaluation again and again. -/
theorem inlining_endless :
    let I := Holds Dual.raw (· ∈ duals)
    let host := Registry.empty.host
    (∃ s, I s) ∧ (endless.Everywhere fun t => t.folds = true → t.Yields host I .projection) ∧
      (endless.Everywhere fun t => ∀ ps b, Receives .projection (.lambda ps b) t → b.Free .projection) ∧
      Exactly host I (fun E => E.tree selfApplied) (Dual.raw selfApplied) ∧
      (∃ p, (Dual.raw selfApplied).params = [p]) ∧
      ∀ s, I s → ∀ n, (machine host n).rewrite (.inlining .projection) endless s = .error .exhausted s := by
  have hself : selfApplied ∈ duals := by simp [duals]
  obtain ⟨hfolds, hlambdas⟩ := invoked_functionRead (tree_raw hself) (tree_raw hself)
    (selfApplied_free .projection) (selfApplied_free .projection) rfl rfl keeps_holds
  refine ⟨⟨_, holds_publishing (by decide)⟩, hfolds, hlambdas, tree_raw hself, ⟨_, rfl⟩, fun s hs n => ?_⟩
  cases n with
  | zero => rfl
  | succ n => exact endless_inlining _ n s hs

open Kept in
/-- Evaluated on the evaluator of `y => y + 1`, the same lambda is inlined in finite time. -/
theorem inlining_ends_selfApplied :
    (∃ s, Holds Dual.raw (· ∈ duals) s) ∧
      ∀ s, Holds Dual.raw (· ∈ duals) s → ∃ r, Ends Registry.empty.host (fun E =>
        E.rewrite (.inlining .projection) (selfApplied.invoked Removed.successor.functionRead)) s r ∧
          ∀ t, r ≠ .error .exhausted t := by
  have hself : selfApplied ∈ duals := by simp [duals]
  have hsuccessor : Removed.successor ∈ duals := by simp [duals]
  have hcalm : (Dual.raw Removed.successor).Calm := by
    intro p hp
    have hleaf : ∀ {t : Expr}, t.children = [] → t.Everywhere fun u => u ≠ .invoke (.param p) [.param p] :=
      fun {t} ht => Tree.everywhere_leaf (fun h => by rw [h] at ht; cases ht) ht
    exact Tree.everywhere_pair (fun h => by cases h) rfl (hleaf rfl) (hleaf rfl)
  obtain ⟨hfolds, hlambdas⟩ := invoked_functionRead (tree_raw hself) (tree_raw hsuccessor)
    (selfApplied_free .projection) (successor_free .projection) rfl rfl keeps_holds
  refine ⟨⟨_, holds_publishing (by decide)⟩, fun s hs => inlining_ends hfolds hlambdas ?_ hs⟩
  have hread : ∀ d : Dual, d.functionRead.Everywhere fun t => ∀ r r' m, Evaluates .projection r (.member r' m) t →
      isEvaluator .projection m = true → ∀ l l', MayDenote Registry.empty.host (Holds Dual.raw (· ∈ duals))
        .projection r l → MayDenote Registry.empty.host (Holds Dual.raw (· ∈ duals)) .projection r' l' →
        l.Calm ∨ l'.Calm := fun d =>
    Tree.everywhere_single (fun r r' m h => by cases h) rfl (Tree.everywhere_leaf (fun r r' m h => by cases h) rfl)
  refine Tree.everywhere_pair (fun r r' m h _ l l' _ hl' => .inr ?_) rfl (hread _) (hread _)
  cases h
  rw [literal_denotes (tree_raw hsuccessor) hl']
  exact hcalm

end DualForm
