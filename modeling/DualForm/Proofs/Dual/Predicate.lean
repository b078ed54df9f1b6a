import DualForm.Proofs.Dual.Combination
import DualForm.Proofs.Dual.Refinement
import DualForm.Proofs.Dual.Removal
import DualForm.Proofs.Ending
import DualForm.Proofs.Tree.Scope

/-!
# Combinations of predicates, run in both forms

* `Dual.Predicate` — a specification made from a lambda without free parameters, references and lambdas
  inside.
* `Combination.Performs c f` — `f` is a function form of the combination `c`.
* `Lambda.Own l p` — `p` is the only parameter of `l`, nothing else is read, and no lambda stands inside.
* `Decides host I x` — `x` ends with a boolean or an error.
* `Connective.decide` — what joining does with two actions: the second is run if the first one does
  not settle it.

Principal results: `evaluate_renamed` — an operand that has taken over another parameter is evaluated
as before; `Combination.Has.coincide` — where the predicates at the leaves end with booleans or errors,
a call of the function form and the body of the combined lambda end alike.
-/

namespace DualForm

variable {host : Host} {I : Store → Prop} {E : Engine}

/-! ## Predicates -/

/-- A specification made from a lambda without free parameters, without references to duals, and
without lambdas inside. -/
structure Dual.Predicate (d : Dual) : Prop where
  made : ∃ l s t, Dual.ofLambda .specification l s = .ok d t
  closed : d.raw.tree.freeParams = []
  lambdaless : d.raw.body.Lambdaless
  unreferenced : d.raw.tree.referencesDuals = false

namespace Dual.Predicate

variable {d : Dual}

theorem origin (h : d.Predicate) :
    d.kind = .specification ∧ d.origin = .lambda d.raw ∧ ∃ p, d.raw.params = [p] := by
  obtain ⟨l, s, t, hmade⟩ := h.made
  obtain ⟨p, s', hp, hcreate⟩ := Act.bind_eq_ok.1 hmade
  obtain ⟨hparam, rfl⟩ := Act.lift_eq_ok.1 hp
  have hsingle : l.params = [p] := Lambda.expectSingle_ok.1 hparam
  split at hcreate
  · cases hcreate
  · cases hcreate
    exact ⟨rfl, rfl, p, hsingle⟩

end Dual.Predicate

/-! ## Lambdas that read their own parameter only -/

/-- The node is no lambda, and reads no parameter but `p`. -/
def Tree.ReadsOnly (p : Param) (u : Expr) : Prop := (∀ ps b, u ≠ .lambda ps b) ∧ ∀ r, u = .param r → r = p

/-- `p` is the only parameter, nothing else is read, and no lambda stands inside. -/
structure Lambda.Own (l : Lam) (p : Param) : Prop where
  single : l.params = [p]
  reads : l.body.Everywhere (Tree.ReadsOnly p)

namespace Tree

variable {p q : Param} {t : Expr}

theorem readsOnly_of_scoped (hscoped : t.Scoped [p]) (hlambdaless : t.Lambdaless) :
    t.Everywhere (ReadsOnly p) := by
  induction t using binderwise with
  | param r =>
      refine everywhere_leaf ⟨fun ps b h => (by cases h), fun q hq => ?_⟩ rfl
      cases hq
      exact List.mem_singleton.1 hscoped
  | lambda ps b _ => exact absurd rfl (hlambdaless.here ps b)
  | other t hparam hlambda ih =>
      refine everywhere_iff.2 ⟨⟨hlambda, fun r hr => absurd hr (hparam r)⟩, fun c hc => ?_⟩
      exact ih c hc ((scoped_other hparam hlambda).1 hscoped c hc) (hlambdaless.child hc)

/-- Taking over another parameter. -/
theorem readsOnly_renamed (h : t.Everywhere (ReadsOnly q)) :
    (substitute q (.param p) t).Everywhere (ReadsOnly p) := by
  induction t using binderwise with
  | param r =>
      obtain rfl := h.here.2 r rfl
      unfold substitute
      rw [if_pos rfl]
      refine everywhere_leaf ⟨fun ps b h => (by cases h), fun q hq => ?_⟩ rfl
      cases hq
      rfl
  | lambda ps b _ => exact absurd rfl (h.here.1 ps b)
  | other t hparam hlambda ih =>
      have hhead := substitute_head (q := q) (a := .param p) hparam hlambda
      refine everywhere_iff.2 ⟨⟨fun ps b hb => ?_, fun r hr => ?_⟩, fun c hc => ?_⟩
      · rw [hb] at hhead
        cases t <;> first | exact absurd rfl (hlambda _ _) | cases hhead
      · rw [hr] at hhead
        cases t <;> first | exact absurd rfl (hparam _) | cases hhead
      · rw [substitute_children hparam] at hc
        obtain ⟨u, hu, rfl⟩ := List.mem_map.1 hc
        exact ih u hu (h.child hu)

end Tree

theorem evaluateAll_map {ρ σ : Scope} {f : Expr → Expr} : ∀ ts : List Expr,
    (∀ t ∈ ts, evaluate E ρ (f t) = evaluate E σ t) → evaluateAll E ρ (ts.map f) = evaluateAll E σ ts
  | [], _ => rfl
  | t :: ts, h => by
      unfold evaluateAll
      rw [List.map_cons]
      dsimp only
      rw [h t (List.mem_cons_self ..), evaluateAll_map ts fun u hu => h u (List.mem_cons_of_mem _ hu)]

/-- **A tree that has taken over another parameter is evaluated as before.** -/
theorem evaluate_renamed {p q : Param} {t : Expr} (h : t.Everywhere (Tree.ReadsOnly q)) (v : Value) :
    evaluate E [(p, v)] (Tree.substitute q (.param p) t) = evaluate E [(q, v)] t := by
  induction t using Tree.nodewise with
  | literal | staticMember => rfl
  | param r =>
      obtain rfl := h.here.2 r rfl
      unfold Tree.substitute
      rw [if_pos rfl, evaluate_own, evaluate_own]
  | member target m ih =>
      have htarget := ih (h.child (List.mem_singleton.2 rfl))
      unfold Tree.substitute evaluate
      rw [htarget]
  | staticCall m args ih =>
      unfold Tree.substitute evaluate
      rw [Tree.substituteAll_eq_map, evaluateAll_map args fun a ha => ih a ha (h.child ha)]
  | call target m args iht ih =>
      unfold Tree.substitute evaluate
      rw [Tree.substituteAll_eq_map, iht (h.child (List.mem_cons_self ..)),
        evaluateAll_map args fun a ha => ih a ha (h.child (List.mem_cons_of_mem _ ha))]
  | binary op lhs rhs via ihl ihr =>
      have hlhs := ihl (h.child (List.mem_cons_self ..))
      have hrhs := ihr (h.child (List.mem_cons_of_mem _ (List.mem_singleton.2 rfl)))
      unfold Tree.substitute
      cases via with
      | some m => rw [evaluate_via, evaluate_via, hlhs, hrhs]
      | none =>
          by_cases hand : op = .andAlso
          · rw [hand, evaluate_andAlso, evaluate_andAlso, hlhs, hrhs]
          by_cases hor : op = .orElse
          · rw [hor, evaluate_orElse, evaluate_orElse, hlhs, hrhs]
          · rw [evaluate_strict hand hor, evaluate_strict hand hor, hlhs, hrhs]
  | unary op operand via ty ih =>
      have hoperand := ih (h.child (List.mem_singleton.2 rfl))
      unfold Tree.substitute evaluate
      rw [hoperand]
  | lambda ps b => exact absurd rfl (h.here.1 ps b)
  | invoke callee args ihc ih =>
      unfold Tree.substitute
      rw [evaluate_invoke, evaluate_invoke, Tree.substituteAll_eq_map,
        ihc (h.child (List.mem_cons_self ..)),
        evaluateAll_map args fun a ha => ih a ha (h.child (List.mem_cons_of_mem _ ha))]
  | conditional test ifTrue ifFalse iht ihp ihn =>
      have htest := iht (h.child (List.mem_cons_self ..))
      have hthen := ihp (h.child (by simp [Tree.children, Tree.node, Node.children]))
      have helse := ihn (h.child (by simp [Tree.children, Tree.node, Node.children]))
      unfold Tree.substitute evaluate
      rw [htest, hthen, helse]

/-! ## Joining actions -/

/-- The value is a boolean. -/
def IsBool (v : Value) : Prop := ∃ b, v = .bool b

/-- From every store with `I`, the action ends with a boolean, in a store with `I`, or with an error. -/
def Decides (host : Host) (I : Store → Prop) (x : Engine → Act Value) : Prop :=
  Coincide host I IsBool x x

namespace Connective

/-- What the two actions decide together, if they return booleans. -/
def decide (k : Connective) (context : String) (x y : Act Value) : Act Value :=
  match k with
  | conjunction => do
      if ← Act.lift (Value.expectBool context (← x)) then
        return .bool (← Act.lift (Value.expectBool context (← y)))
      else return .bool false
  | disjunction => do
      if ← Act.lift (Value.expectBool context (← x)) then return .bool true
      else return .bool (← Act.lift (Value.expectBool context (← y)))

/-- What joins two functions. -/
def code : Connective → Func → Func → Code
  | conjunction => .conjunction
  | disjunction => .disjunction

/-- Where a function that joins two others needs booleans. -/
def name : Connective → String
  | conjunction => Specification.andName
  | disjunction => Specification.orName

/-- Where the operator needs booleans. -/
def symbol : Connective → String
  | conjunction => "&&"
  | disjunction => "||"

theorem call_joined (k : Connective) (id : Nat) (f g : Func) (v : Value) (n : Nat) :
    (machine host (n + 1)).call ⟨id, 1, k.code f g⟩ [v] =
      k.decide k.name ((machine host n).call f [v]) ((machine host n).call g [v]) := by
  have hcall : (machine host (n + 1)).call ⟨id, 1, k.code f g⟩ [v] =
      (k.code f g).run host (machine host n) id [v] := rfl
  rw [hcall]
  cases k <;> simp only [code, Code.run, Func.holds, decide, name, bind_assoc]

theorem evaluate_joined (k : Connective) (ρ : Scope) (lhs rhs : Expr) :
    evaluate E ρ (.operation k.op lhs rhs) =
      k.decide k.symbol (evaluate E ρ lhs) (evaluate E ρ rhs) := by
  cases k <;> rfl

/-- Joined alike, whatever the errors for values other than booleans would say. -/
theorem decide_coincide {x x' y y' : Engine → Act Value} (k : Connective) (context context' : String)
    (hx : Coincide host I IsBool x x') (hy : Coincide host I IsBool y y') :
    Coincide host I IsBool (fun E => k.decide context (x E) (y E))
      fun E => k.decide context' (x' E) (y' E) := by
  have hrest : Coincide host I IsBool
      (fun E => do return .bool (← Act.lift (Value.expectBool context (← y E))))
      fun E => do return .bool (← Act.lift (Value.expectBool context' (← y' E))) := by
    refine hy.bind ?_
    rintro _ ⟨b, rfl⟩
    exact Coincide.pure ⟨b, rfl⟩
  cases k with
  | conjunction =>
      refine hx.bind ?_
      rintro _ ⟨b, rfl⟩
      cases b with
      | true => exact hrest
      | false => exact Coincide.pure ⟨false, rfl⟩
  | disjunction =>
      refine hx.bind ?_
      rintro _ ⟨b, rfl⟩
      cases b with
      | true => exact Coincide.pure ⟨true, rfl⟩
      | false => exact hrest

end Connective

theorem call_negated (id : Nat) (f : Func) (v : Value) (n : Nat) :
    (machine host (n + 1)).call ⟨id, 1, .negation f⟩ [v] = (do
      return .bool (!(← Act.lift
        (Value.expectBool Specification.notName (← (machine host n).call f [v]))))) := by
  show Code.run host (machine host n) id (.negation f) [v] = _
  simp only [Code.run, Func.holds, bind_assoc]

/-! ## Both forms of a combination -/

namespace Combination

/-- A function form of the combination. -/
inductive Performs : Combination → Func → Prop
  | leaf {d : Dual} {l : Lam} (id : Nat) : d.origin = .lambda l →
      Performs (.leaf d) ⟨id, l.arity, .closure l []⟩
  | joined {k : Connective} {c₁ c₂ : Combination} {f g : Func} (id : Nat) : Performs c₁ f →
      Performs c₂ g → Performs (.joined k c₁ c₂) ⟨id, 1, k.code f g⟩
  | negated {c : Combination} {f : Func} (id : Nat) : Performs c f →
      Performs (.negated c) ⟨id, 1, .negation f⟩

variable {c : Combination} {d : Dual} {l : Lam} {D : Dual → Prop} {J : Store → Prop}

theorem Has.own (hD : ∀ e, D e → e.Predicate) (h : Has Dual.raw D J c d l) : ∃ p, l.Own p := by
  induction h with
  | leaf hd _ =>
      obtain ⟨_, _, p, hp⟩ := (hD _ hd).origin
      have hscoped := Tree.freeParams_eq_nil_iff.1 (hD _ hd).closed
      unfold Lambda.tree at hscoped
      rw [Tree.scoped_lambda, hp] at hscoped
      exact ⟨p, hp, Tree.readsOnly_of_scoped hscoped (hD _ hd).lambdaless⟩
  | joined _ _ _ hm _ ihl ihr =>
      obtain ⟨p, hl⟩ := ihl
      obtain ⟨q, hr⟩ := ihr
      obtain ⟨p', hp, q', hq, rfl⟩ := Lambda.combined_ok.1 hm
      obtain rfl : p = p' := List.singleton_inj.1 (hl.single.symm.trans hp)
      obtain rfl : q = q' := List.singleton_inj.1 (hr.single.symm.trans hq)
      refine ⟨p, rfl, Tree.everywhere_iff.2
        ⟨⟨fun ps b h => (by cases h), fun r h => by cases h⟩, fun u hu => ?_⟩⟩
      rcases List.mem_cons.1 hu with rfl | hu
      · exact hl.reads
      · rw [List.mem_singleton.1 hu]
        exact Tree.readsOnly_renamed hr.reads
  | negated _ _ hm _ ih =>
      obtain ⟨p, hl⟩ := ih
      obtain ⟨p', hp, rfl⟩ := Lambda.negation_ok.1 hm
      obtain rfl : p = p' := List.singleton_inj.1 (hl.single.symm.trans hp)
      refine ⟨p, rfl, Tree.everywhere_iff.2
        ⟨⟨fun ps b h => (by cases h), fun r h => by cases h⟩, fun u hu => ?_⟩⟩
      rw [List.mem_singleton.1 hu]
      exact hl.reads

/-- **A call of the function form and the body of the combined lambda end alike,** where the predicates
at the leaves end with booleans or errors. The induction is on the combination; the right part of a
join is evaluated with the parameter of the left one. -/
theorem Has.coincide (hD : ∀ e, D e → e.Predicate) (h : Has Dual.raw D J c d l) {v : Value}
    (hleaves : ∀ e ∈ c.leaves, ∀ f, Performs (.leaf e) f → Decides host I fun E => E.call f [v])
    {f : Func} (hf : c.Performs f) {p : Param} (hp : l.params = [p]) :
    Coincide host I IsBool (fun E => E.call f [v]) fun E => evaluate E [(p, v)] l.body := by
  induction h generalizing f p with
  | @leaf d hd _ =>
      cases hf with
      | leaf id ho =>
          have horigin := (hD _ hd).origin.2.1
          rw [ho] at horigin
          cases horigin
          have hcall := hleaves d (List.mem_singleton.2 rfl) _ (.leaf id ho)
          generalize d.raw = l at hp hcall
          obtain ⟨ps, b⟩ := l
          obtain rfl : ps = [p] := hp
          exact hcall.of_step_right fun n => call_closure id p b v n
  | @joined k c₁ c₂ l r d f₁ f₂ m s t hl hr _ hm _ ihl ihr =>
      cases hf with
      | joined id hf hg =>
          obtain ⟨_, hlown⟩ := hl.own hD
          obtain ⟨q, hrown⟩ := hr.own hD
          obtain ⟨p', hp', q', hq', rfl⟩ := Lambda.combined_ok.1 hm
          obtain rfl : p' = p := List.singleton_inj.1 hp
          obtain rfl : q = q' := List.singleton_inj.1 (hrown.single.symm.trans hq')
          have hleft := ihl (fun e he => hleaves e (List.mem_append_left _ he)) hf hp'
          have hright := ihr (fun e he => hleaves e (List.mem_append_right _ he)) hg hq'
          have hboth := k.decide_coincide k.name k.symbol hleft hright
          refine (hboth.congr (fun _ => rfl) fun E => ?_).step_left fun n => k.call_joined id _ _ v n
          rw [← evaluate_renamed hrown.reads]
          exact k.evaluate_joined ..
  | @negated c e d f₁ m s t hc _ hm _ ih =>
      cases hf with
      | @negated _ g id hf =>
          obtain ⟨p', hp', rfl⟩ := Lambda.negation_ok.1 hm
          obtain rfl : p' = p := List.singleton_inj.1 hp
          have hoperand := ih (fun e he => hleaves e he) hf hp'
          have hnot : Coincide host I IsBool (fun E => do
              return .bool (!(← Act.lift (Value.expectBool Specification.notName (← E.call g [v])))))
              fun E => evaluate E [(p', v)] f₁.body.complement := by
            refine hoperand.bind ?_
            rintro _ ⟨b, rfl⟩
            exact Coincide.pure ⟨!b, rfl⟩
          exact hnot.step_left fun n => call_negated id g v n

end Combination

end DualForm
