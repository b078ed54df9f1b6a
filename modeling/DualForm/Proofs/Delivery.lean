import DualForm.Proofs.Outcome

/-!
# Actions that can only run out of steps

* `Act.Delivers I post x` — from a store with `I`, `x` keeps `I` and either returns something with
  `post` or runs out of nested steps; it never fails.
* `Completes host I N ends post x` — `x` delivers with every number of nested steps up to `N`, and
  settles on something with `post` if `ends` holds.

Principal results: one lemma for each of these per way of combining actions. `Completes.step` leads
from a number of nested steps to the next one.
-/

namespace DualForm

variable {α β : Type} {host : Host} {I : Store → Prop}

namespace Act

/-- The invariant is kept, a success satisfies `post`, and nothing but the number of nested steps
can end the action early. -/
structure Delivers (I : Store → Prop) (post : α → Prop) (x : Act α) : Prop where
  ensures : x.Ensures I post
  unfailing : ∀ s e t, I s → x s = .error e t → e = .exhausted

namespace Delivers

variable {p r : α → Prop} {post : β → Prop}

theorem pure {a : α} (h : p a) : Delivers I p (Pure.pure a : Act α) :=
  ⟨Ensures.pure h, fun _ _ _ _ h => by cases h⟩

theorem exhausted : Delivers I p (throw .exhausted : Act α) :=
  ⟨Ensures.exhausted, fun _ _ _ _ h => by cases h; rfl⟩

theorem imp {x : Act α} (hx : Delivers I p x) (h : ∀ a, p a → r a) : Delivers I r x :=
  ⟨hx.ensures.imp h, hx.unfailing⟩

theorem bind {x : Act α} {f : α → Act β} (hx : Delivers I p x)
    (hf : ∀ a, p a → Delivers I post (f a)) : Delivers I post (x >>= f) := by
  refine ⟨hx.ensures.bind fun a ha => (hf a ha).ensures, fun s e t hs he => ?_⟩
  cases h : x s with
  | ok a u =>
      rw [Act.bind_ok h] at he
      exact (hf a (hx.ensures.result s a u hs h)).unfailing u e t (hx.ensures.keeps.ok h hs) he
  | error e' u =>
      rw [Act.bind_error h] at he
      cases he
      exact hx.unfailing s _ _ hs h

end Delivers

end Act

/-- `x` delivers with up to `N` nested steps, and if `ends` it settles on one result. -/
structure Completes (host : Host) (I : Store → Prop) (N : Nat) (ends : Prop) (post : α → Prop)
    (x : Engine → Act α) : Prop where
  delivers : ∀ n ≤ N, (x (machine host n)).Delivers I post
  settles : ends → ∃ a, post a ∧ Settles host I x a

namespace Completes

variable {N : Nat} {ends : Prop} {p r : α → Prop} {post : β → Prop}

theorem pure {a : α} (h : p a) : Completes host I N ends p fun _ => Pure.pure a :=
  ⟨fun _ _ => Act.Delivers.pure h, fun _ => ⟨a, h, (Exactly.pure a).settles⟩⟩

theorem lift {x : Except Error α} {a : α} (hx : x = .ok a) (h : p a) :
    Completes host I N ends p fun _ => Act.lift x := by
  rw [hx]; exact pure h

theorem imp {x : Engine → Act α} (hx : Completes host I N ends p x) (h : ∀ a, p a → r a) :
    Completes host I N ends r x := by
  refine ⟨fun n hn => (hx.delivers n hn).imp h, fun hends => ?_⟩
  obtain ⟨a, ha, hsettles⟩ := hx.settles hends
  exact ⟨a, h a ha, hsettles⟩

theorem congr {x y : Engine → Act α} (h : ∀ E, x E = y E) (hy : Completes host I N ends p y) :
    Completes host I N ends p x := by
  obtain rfl : x = y := funext h
  exact hy

theorem bind {x : Engine → Act α} {f : Engine → α → Act β} (hx : Completes host I N ends p x)
    (hf : ∀ a, p a → Completes host I N ends post fun E => f E a) :
    Completes host I N ends post fun E => x E >>= f E := by
  refine ⟨fun n hn => (hx.delivers n hn).bind fun a ha => (hf a ha).delivers n hn, fun hends => ?_⟩
  obtain ⟨a, ha, hxa⟩ := hx.settles hends
  obtain ⟨b, hb, hfb⟩ := (hf a ha).settles hends
  exact ⟨b, hb, hxa.bind hfb⟩

theorem mapM_mem {f : Engine → α → Act β} {R : α → β → Prop} : ∀ as : List α,
    (∀ a ∈ as, Completes host I N ends (R a) fun E => f E a) →
      Completes host I N ends (List.Forall₂ R as) fun E => as.mapM (f E)
  | [], _ => congr (fun _ => List.mapM_nil) (pure .nil)
  | a :: as, h => by
      refine congr (fun _ => List.mapM_cons) ?_
      refine (h a (List.mem_cons_self ..)).bind fun b hb => ?_
      exact (mapM_mem as fun a ha => h a (List.mem_cons_of_mem _ ha)).bind fun bs hbs =>
        pure (.cons hb hbs)

/-- An answer of the machine completes if the step it takes delivers with fewer nested steps and
settles. -/
theorem step {x y : Engine → Act α} (hzero : x .exhausted = throw .exhausted)
    (h : ∀ n, x (machine host (n + 1)) = y (machine host n))
    (hdelivers : ∀ n < N, (y (machine host n)).Delivers I p)
    (hsettles : ends → ∃ a, p a ∧ Settles host I y a) : Completes host I N ends p x := by
  refine ⟨fun n hn => ?_, fun hends => ?_⟩
  · cases n with
    | zero =>
        show (x .exhausted).Delivers I p
        rw [hzero]; exact Act.Delivers.exhausted
    | succ n => rw [h n]; exact hdelivers n hn
  · obtain ⟨a, ha, hy⟩ := hsettles hends
    exact ⟨a, ha, hy.step h⟩

/-- The same where the step itself completes. -/
theorem step_of {x y : Engine → Act α} (hzero : x .exhausted = throw .exhausted)
    (h : ∀ n, x (machine host (n + 1)) = y (machine host n)) (hy : Completes host I N ends p y) :
    Completes host I N ends p x :=
  step hzero h (fun n hn => hy.delivers n (Nat.le_of_lt hn)) hy.settles

/-- What ends in any case ends under any condition. -/
theorem weaken {x : Engine → Act α} (hx : Completes host I N True p x) :
    Completes host I N ends p x :=
  ⟨hx.delivers, fun _ => hx.settles trivial⟩

end Completes

end DualForm
