import DualForm.Proofs.Dual.Forms
import DualForm.Proofs.Rewriting.Removal
import DualForm.Proofs.Triple

/-!
# Combinations of specifications

The same combination can be made of duals, or written as a tree with operators that go through the
methods of specifications.

* `Connective`, `Combination` — conjunctions, disjunctions and negations over specifications.
* `Combination.make` — the combination, made of the duals at its leaves.
* `Combination.Written c e` — `e` writes the combination with operators over literals, with
  conversions to functions around any part of it.
* `Dual.Allotted I d l` — as far as `I` goes, `d` may publish the tree form `l` and no other.
* `Combination.Has form D I c d l` — `d` has been made as `c` of duals with `D`, and its parts are
  allotted the lambdas that combine those of the leaves; `l` is that of `d`.

Principal results: `Combination.Has.tree` — the tree form of a combination is the combined lambda;
`Combination.Written.denotes` — the combination as a tree stands for the same lambda.
-/

namespace DualForm

variable {host : Host} {I : Store → Prop} {N : Nat} {ends : Prop} {form : Dual → Lam}
  {D : Dual → Prop}

/-- The ways to join two specifications. -/
inductive Connective where
  | conjunction
  | disjunction
deriving DecidableEq, Repr

namespace Connective

/-- The operator between the bodies. -/
def op : Connective → BinaryOp
  | conjunction => .andAlso
  | disjunction => .orElse

/-- Joins two duals. -/
def join : Connective → Dual → Dual → Act Dual
  | conjunction => Dual.conjunction
  | disjunction => Dual.disjunction

/-- The origin of what joins two duals. -/
def origin : Connective → Dual → Dual → Origin
  | conjunction => .conjunction
  | disjunction => .disjunction

theorem join_eq (k : Connective) (l r : Dual) : k.join l r = (do
    Act.lift (Dual.checkSameSource l r)
    Dual.create .specification l.source .bool (k.origin l r)) := by
  cases k <;> rfl

/-- Joining needs a common source. -/
theorem join_ok {k : Connective} {l r d : Dual} {s t : Store} (h : k.join l r s = .ok d t) :
    l.source = r.source ∧ d = ⟨s.nextId, .specification, l.source, .bool, k.origin l r⟩ ∧
      t = { s with nextId := s.nextId + 1 } := by
  rw [join_eq] at h
  obtain ⟨_, s', hcheck, hd⟩ := Act.bind_eq_ok.1 h
  obtain ⟨hcheck, rfl⟩ := Act.lift_eq_ok.1 hcheck
  cases hd
  refine ⟨?_, rfl, rfl⟩
  by_contra hsource
  unfold Dual.checkSameSource at hcheck
  rw [if_neg hsource] at hcheck
  cases hcheck

theorem join_run {l r : Dual} (h : l.source = r.source) (k : Connective) (s : Store) :
    k.join l r s = .ok ⟨s.nextId, .specification, l.source, .bool, k.origin l r⟩
      { s with nextId := s.nextId + 1 } := by
  have hcheck : Dual.checkSameSource l r = .ok () := if_pos h
  rw [join_eq, hcheck]
  rfl

end Connective

/-- A combination of specifications. -/
inductive Combination where
  | leaf (d : Dual)
  | joined (k : Connective) (lhs rhs : Combination)
  | negated (operand : Combination)

namespace Combination

/-- The specifications that are combined, from left to right. -/
def leaves : Combination → List Dual
  | leaf d => [d]
  | joined _ lhs rhs => lhs.leaves ++ rhs.leaves
  | negated operand => operand.leaves

/-- Makes the combination. -/
def make : Combination → Act Dual
  | leaf d => return d
  | joined k lhs rhs => do
      let l ← lhs.make
      k.join l (← rhs.make)
  | negated operand => do Dual.negation (← operand.make)

/-- The tree writes the combination. -/
inductive Written : Combination → Expr → Prop
  | literal {d : Dual} {ty : Ty} : ty.wrapper? = some (.dual .specification) →
      Written (.leaf d) (.literal (.dual d) ty)
  | joined {k : Connective} {op : BinaryOp} {via : Option (Method Invoker)} {c₁ c₂ : Combination}
      {lhs rhs : Expr} : Combines op k.op via → Written c₁ lhs → Written c₂ rhs →
      Written (.joined k c₁ c₂) (.binary op lhs rhs via)
  | negated {via : Option (Method Invoker)} {ty : Ty} {c : Combination} {operand : Expr} :
      isCombinator via Specification.notName = true → Written c operand →
      Written (.negated c) (.unary .not operand via ty)
  | converted {source result ty : Ty} {c : Combination} {e : Expr} : Written c e →
      Written c (Tree.conversion .specification source result ty e)

/-! ## The builders write combinations -/

namespace Written

variable {c c₁ c₂ : Combination} {lhs rhs operand e : Expr}

theorem of_dual {d : Dual} (hd : d.kind = .specification) : Written (.leaf d) d.literal :=
  .literal (by rw [Dual.signature, hd]; exact ofDual_wrapper ..)

theorem of_conjunctionExpr (hlhs : Written c₁ lhs) (hrhs : Written c₂ rhs)
    (h : Specification.conjunctionExpr lhs rhs = .ok e) : Written (.joined .conjunction c₁ c₂) e := by
  obtain ⟨source, _, he⟩ := except_bind_ok.1 h
  obtain rfl := except_pure_ok.1 he
  exact .joined (.inl ⟨.inl rfl, rfl, rfl⟩) hlhs hrhs

theorem of_disjunctionExpr (hlhs : Written c₁ lhs) (hrhs : Written c₂ rhs)
    (h : Specification.disjunctionExpr lhs rhs = .ok e) : Written (.joined .disjunction c₁ c₂) e := by
  obtain ⟨source, _, he⟩ := except_bind_ok.1 h
  obtain rfl := except_pure_ok.1 he
  exact .joined (.inr ⟨.inl rfl, rfl, rfl⟩) hlhs hrhs

theorem of_negationExpr (hoperand : Written c operand)
    (h : Specification.negationExpr operand = .ok e) : Written (.negated c) e := by
  obtain ⟨source, _, he⟩ := except_bind_ok.1 h
  obtain rfl := except_pure_ok.1 he
  exact .negated rfl hoperand

end Written

end Combination

/-! ## Forms that are published once -/

/-- A form that is the same whenever it is computed is handed out. -/
theorem publishOnce_completes {α : Type} {slot : Slot α} {x : Engine → Act α} {a : α}
    (hx : Completes host I N True (· = a) x) (hread : ∀ s b, I s → slot.read s = some b → b = a)
    (hwrite : ∀ s, I s → slot.read s = none → I (slot.write a s)) :
    Completes host I N ends (· = a) fun E => Act.publishOnce slot (x E) := by
  refine ⟨fun n hn => ⟨publishOnce_ensures (hx.delivers n hn).ensures hread ?_, ?_⟩, fun _ => ?_⟩
  · rintro s _ hnone hs rfl
    exact hwrite s hs hnone
  · intro s e t hs he
    exact (hx.delivers n hn).unfailing s e t hs (publishOnce_error he).2
  · obtain ⟨_, rfl, hsettles⟩ := hx.settles trivial
    exact ⟨_, rfl, publishOnce_settles hsettles hread fun s hnone hs => hwrite s hs hnone⟩

/-- As far as `I` goes, the dual may publish `l` and no other tree form. -/
structure Dual.Allotted (I : Store → Prop) (d : Dual) (l : Lam) : Prop where
  only : ∀ s k, I s → s.trees[d.id]? = some k → k = l
  publishable : ∀ s, I s → s.trees[d.id]? = none → I ((Slot.tree d).write l s)

/-- A tree form that is the same whenever it is computed is the tree form of a dual it is allotted
to. -/
theorem Dual.Allotted.tree {d : Dual} {l : Lam} (h : d.Allotted I l)
    (hcomputed : Completes host I N True (· = l) fun E => d.initialTree host E) :
    Completes host I N ends (· = l) fun E => E.tree d :=
  Completes.step_of (y := fun E => d.forceTree host E) rfl (fun _ => machine_tree d)
    (publishOnce_completes hcomputed h.only h.publishable)

/-! ## What is made -/

namespace Combination

/-- `d` has been made as the combination, of duals with `D`. Each dual made on the way is allotted
the lambda that combines those of its parts, and `l` is that of `d`. -/
inductive Has (form : Dual → Lam) (D : Dual → Prop) (I : Store → Prop) :
    Combination → Dual → Lam → Prop
  | leaf {d : Dual} : D d → d.kind = .specification → Has form D I (.leaf d) d (form d)
  | joined {k : Connective} {c₁ c₂ : Combination} {l r d : Dual} {f g m : Lam} {s t : Store} :
      Has form D I c₁ l f → Has form D I c₂ r g → k.join l r s = .ok d t →
      Lambda.combined k.op f g = .ok m → d.Allotted I m → Has form D I (.joined k c₁ c₂) d m
  | negated {c : Combination} {e d : Dual} {f m : Lam} {s t : Store} : Has form D I c e f →
      Dual.negation e s = .ok d t → Lambda.negation f = .ok m → d.Allotted I m →
      Has form D I (.negated c) d m

variable {c : Combination} {d : Dual} {l : Lam} {e : Expr}

/-- **The tree form of a combination combines the lambdas of its leaves.** -/
theorem Has.tree (hforms : Forms host I form D) (h : Has form D I c d l) :
    Completes host I N ends (· = l) fun E => E.tree d := by
  induction h generalizing ends with
  | leaf hd _ => exact (hforms.provides _ hd N).weaken
  | @joined k c₁ c₂ l r d f g m s t _ _ hjoin hm hallotted ihl ihr =>
      obtain ⟨_, rfl, _⟩ := Connective.join_ok hjoin
      have hinitial : ∀ E : Engine,
          Dual.initialTree host E ⟨s.nextId, .specification, l.source, .bool, k.origin l r⟩ = (do
            let f ← E.tree l
            Act.lift (Lambda.combined k.op f (← E.tree r))) := by
        intro E
        cases k <;> rfl
      refine hallotted.tree (Completes.congr hinitial ?_)
      refine ihl.bind fun _ hf => ?_
      refine ihr.bind fun _ hg => ?_
      subst hf hg
      exact Completes.lift hm rfl
  | @negated c e d f m s t _ hmake hm hallotted ih =>
      cases hmake
      refine hallotted.tree (Completes.congr (fun _ => rfl) ?_)
      refine ih.bind fun _ hf => ?_
      subst hf
      exact Completes.lift hm rfl

/-- A combination as a tree stands for what is made as that combination. -/
theorem Written.denotes (he : Written c e) (h : Has form D I c d l) :
    Denotes form D true .specification l e := by
  induction he generalizing d l with
  | literal hty =>
      cases h with
      | leaf hd hkind =>
          rw [← hkind] at hty ⊢
          exact .literal hd hty
  | joined hop _ _ ihl ihr =>
      cases h with
      | joined hl hr _ hm _ => exact .combined hop (ihl hl) (ihr hr) hm
  | negated hvia _ ih =>
      cases h with
      | negated hc _ hm _ => exact .negated hvia (ih hc) hm
  | converted _ ih => exact .converted (ih h)

end Combination

end DualForm
