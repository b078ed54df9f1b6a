import DualForm.Machine
import Mathlib.Data.List.Forall2

/-!
# Outcomes of actions

What an action does to the store and what it returns, independently of the number of nested steps
the machine allows.

* `Act.final` — the store an action leaves behind, whether or not it succeeds.
* `Act.Keeps I x` — `x` leads from stores with `I` to stores with `I`, also when it fails.
* `Act.Concur I x y` — from stores with `I`, `x` and `y` do the same, and keep `I`.
* `Act.Logic W` — a way to speak about results that passes through sequences. There are two:
  `Act.Gives Q post x` — where `x` succeeds and `Q` holds afterwards, it held before, and the result
  satisfies `post`; `Act.Ensures I post x` — `x` keeps `I`, and from a store with `I` the result
  satisfies `post`.
* `Reaches host x s a t` — with enough nested steps, `x` leads from `s` to the result `a` and to
  `t`.
* `Settles host I x a`, `Exactly host I x a` — `x` reaches `a` from every store with `I`, and
  returns nothing else.
* `Follows host I R x y` — whatever `x` returns, `y` reaches something `R` relates it to.

Principal results: `Act.bind_eq_ok`, and one lemma for each of these predicates per way of
combining actions (`Act.Keeps.bind`, `Exactly.bind`, `Follows.bind` and their companions), so that
later proofs follow the shape of the action and never unfold the state.
-/

namespace DualForm

variable {α β γ δ : Type}

namespace Act

/-- The store after an action. -/
def final (x : Act α) (s : Store) : Store :=
  match x s with
  | .ok _ t => t
  | .error _ t => t

theorem final_ok {x : Act α} {s t : Store} {a : α} (h : x s = .ok a t) : x.final s = t := by
  unfold final; rw [h]

theorem final_error {x : Act α} {s t : Store} {e : Stop} (h : x s = .error e t) :
    x.final s = t := by
  unfold final; rw [h]

theorem bind_ok {x : Act α} {f : α → Act β} {s t : Store} {a : α} (h : x s = .ok a t) :
    (x >>= f) s = f a t := by
  show EStateM.bind x f s = _
  unfold EStateM.bind; rw [h]

theorem bind_error {x : Act α} {f : α → Act β} {s t : Store} {e : Stop}
    (h : x s = .error e t) : (x >>= f) s = .error e t := by
  show EStateM.bind x f s = _
  unfold EStateM.bind; rw [h]

theorem final_bind_ok {x : Act α} {f : α → Act β} {s t : Store} {a : α} (h : x s = .ok a t) :
    (x >>= f).final s = (f a).final t := by
  unfold final; rw [bind_ok h]

/-- A sequence succeeds exactly if both parts do, one after the other. -/
theorem bind_eq_ok {x : Act α} {f : α → Act β} {s u : Store} {b : β} :
    (x >>= f) s = .ok b u ↔ ∃ a t, x s = .ok a t ∧ f a t = .ok b u := by
  cases h : x s with
  | ok a t =>
      rw [bind_ok h]
      constructor
      · intro hb; exact ⟨a, t, rfl, hb⟩
      · rintro ⟨a', t', ha, hb⟩
        cases ha; exact hb
  | error e t =>
      rw [bind_error h]
      constructor
      · intro hb; cases hb
      · rintro ⟨a, t', ha, _⟩; cases ha

theorem pure_eq_ok {a b : α} {s t : Store} : (pure a : Act α) s = .ok b t ↔ a = b ∧ s = t := by
  show EStateM.Result.ok a s = .ok b t ↔ _
  constructor
  · intro h; cases h; exact ⟨rfl, rfl⟩
  · rintro ⟨rfl, rfl⟩; rfl

theorem get_run (s : Store) : (get : Act Store) s = .ok s s := rfl

theorem fail_run (e : Error) (s : Store) : (fail e : Act α) s = .error (.failed e) s := rfl

theorem lift_eq_ok {x : Except Error α} {a : α} {s t : Store} :
    lift x s = .ok a t ↔ x = .ok a ∧ s = t := by
  cases x with
  | error e =>
      constructor
      · intro h; cases h
      · rintro ⟨h, _⟩; cases h
  | ok b =>
      show (pure b : Act α) s = .ok a t ↔ _
      rw [pure_eq_ok]
      constructor
      · rintro ⟨rfl, rfl⟩; exact ⟨rfl, rfl⟩
      · rintro ⟨h, rfl⟩; cases h; exact ⟨rfl, rfl⟩

/-! ## Invariants of the store -/

/-- The invariant holds after the action if it holds before. -/
structure Keeps (I : Store → Prop) (x : Act α) : Prop where
  after : ∀ s, I s → I (x.final s)

namespace Keeps

variable {I : Store → Prop}

theorem pure (a : α) : Keeps I (Pure.pure a : Act α) := ⟨fun _ h => h⟩

theorem fail (e : Error) : Keeps I (Act.fail e : Act α) := ⟨fun _ h => h⟩

theorem exhausted : Keeps I (throw .exhausted : Act α) := ⟨fun _ h => h⟩

theorem lift (x : Except Error α) : Keeps I (Act.lift x) := by
  cases x with
  | ok a => exact pure a
  | error e => exact fail e

theorem ok {x : Act α} (hx : Keeps I x) {s t : Store} {a : α} (h : x s = .ok a t) (hs : I s) :
    I t := by
  have := hx.after s hs
  rwa [final_ok h] at this

theorem bind {x : Act α} {f : α → Act β} (hx : Keeps I x) (hf : ∀ a, Keeps I (f a)) :
    Keeps I (x >>= f) := by
  constructor
  intro s hs
  have hs' := hx.after s hs
  cases h : x s with
  | ok a t =>
      rw [final_ok h] at hs'
      rw [final_bind_ok h]; exact (hf a).after t hs'
  | error e t =>
      rw [final_error h] at hs'
      rw [final_error (bind_error h)]; exact hs'

end Keeps

/-- From a store with the invariant both actions do the same, and lead to a store with the invariant. -/
structure Concur (I : Store → Prop) (x y : Act α) : Prop where
  same : ∀ s, I s → x s = y s
  keeps : Keeps I x

namespace Concur

variable {I : Store → Prop}

theorem refl {x : Act α} (h : Keeps I x) : Concur I x x := ⟨fun _ _ => rfl, h⟩

theorem pure (a : α) : Concur I (Pure.pure a : Act α) (Pure.pure a) := refl (Keeps.pure a)

theorem fail (e : Error) : Concur I (Act.fail e : Act α) (Act.fail e) := refl (Keeps.fail e)

theorem exhausted : Concur I (throw .exhausted : Act α) (throw .exhausted) := refl Keeps.exhausted

theorem lift (x : Except Error α) : Concur I (Act.lift x) (Act.lift x) := refl (Keeps.lift x)

theorem bind {x y : Act α} {f g : α → Act β} (hx : Concur I x y)
    (hf : ∀ a, Concur I (f a) (g a)) : Concur I (x >>= f) (y >>= g) := by
  refine ⟨fun s hs => ?_, hx.keeps.bind fun a => (hf a).keeps⟩
  cases h : x s with
  | ok a t =>
      rw [bind_ok h, bind_ok ((hx.same s hs).symm.trans h)]
      exact (hf a).same t (hx.keeps.ok h hs)
  | error e t => rw [bind_error h, bind_error ((hx.same s hs).symm.trans h)]

/-- The same action up to what it asks for, on each element of a list. -/
theorem mapM_mem {f g : α → Act β} : ∀ l : List α, (∀ a ∈ l, Concur I (f a) (g a)) →
    Concur I (l.mapM f) (l.mapM g)
  | [], _ => by rw [List.mapM_nil, List.mapM_nil]; exact pure []
  | a :: l, h => by
      rw [List.mapM_cons, List.mapM_cons]
      refine (h a (List.mem_cons_self ..)).bind fun b => ?_
      exact (mapM_mem l fun a ha => h a (List.mem_cons_of_mem _ ha)).bind fun bs => pure (b :: bs)

end Concur

/-! ## Results -/

/-- A way to speak about the results of actions that passes through sequences. -/
structure Logic (W : ∀ {α : Type}, (α → Prop) → Act α → Prop) : Prop where
  pure : ∀ {α : Type} {p : α → Prop} {a : α}, p a → W p (Pure.pure a)
  /-- What the first action gives may be at hand only in the end, so the second one is asked for an
  implication. -/
  bind : ∀ {α β : Type} {p : α → Prop} {r : β → Prop} {x : Act α} {f : α → Act β}, W p x →
    (∀ a, W (fun b => p a → r b) (f a)) → W r (x >>= f)

theorem Logic.mapM_mem {W : ∀ {α : Type}, (α → Prop) → Act α → Prop} (hW : Logic W)
    {R : α → β → Prop} {f : α → Act β} :
    ∀ l : List α, (∀ a ∈ l, W (R a) (f a)) → W (List.Forall₂ R l) (l.mapM f)
  | [], _ => by rw [List.mapM_nil]; exact hW.pure .nil
  | a :: l, h => by
      rw [List.mapM_cons]
      refine hW.bind (h a (List.mem_cons_self ..)) fun b => ?_
      refine hW.bind (hW.mapM_mem l fun a ha => h a (List.mem_cons_of_mem _ ha)) fun bs => ?_
      exact hW.pure fun hbs hb => .cons hb hbs

/-! ## Results, known from the store in the end -/

/-- Where the action succeeds and `Q` holds afterwards, it held before, and the result satisfies
`post`. -/
structure Gives (Q : Store → Prop) (post : α → Prop) (x : Act α) : Prop where
  result : ∀ s a t, x s = .ok a t → Q t → Q s ∧ post a

namespace Gives

variable {Q : Store → Prop} {p r : α → Prop} {post : β → Prop}

theorem pure {a : α} (h : p a) : Gives Q p (Pure.pure a : Act α) := by
  constructor
  intro s b t hb hq
  obtain ⟨rfl, rfl⟩ := Act.pure_eq_ok.1 hb
  exact ⟨hq, h⟩

theorem fail (e : Error) : Gives Q p (Act.fail e : Act α) :=
  ⟨fun s _ _ h => by rw [Act.fail_run] at h; cases h⟩

theorem exhausted : Gives Q p (throw .exhausted : Act α) := ⟨fun _ _ _ h => by cases h⟩

/-- Nothing is asked and nothing is known. -/
theorem unknown {x : Act α} : Gives (fun _ => True) (fun _ => True) x :=
  ⟨fun _ _ _ _ _ => ⟨trivial, trivial⟩⟩

theorem lift {x : Except Error α} (h : ∀ a, x = .ok a → p a) : Gives Q p (Act.lift x) := by
  cases x with
  | ok a => exact pure (h a rfl)
  | error e => exact fail e

theorem imp {x : Act α} (hx : Gives Q p x) (h : ∀ a, p a → r a) : Gives Q r x :=
  ⟨fun s a t ha hq => ⟨(hx.result s a t ha hq).1, h a (hx.result s a t ha hq).2⟩⟩

/-- The result is known without regard to the store. -/
theorem strengthen {x : Act α} (hx : Gives Q p x) (hr : Gives (fun _ => True) r x) : Gives Q r x :=
  ⟨fun s a t ha hq => ⟨(hx.result s a t ha hq).1, (hr.result s a t ha trivial).2⟩⟩

theorem bind {x : Act α} {f : α → Act β} (hx : Gives Q p x)
    (hf : ∀ a, Gives Q (fun b => p a → post b) (f a)) : Gives Q post (x >>= f) := by
  constructor
  intro s b u hb hq
  obtain ⟨a, t, ha, hfa⟩ := Act.bind_eq_ok.1 hb
  obtain ⟨ht, hpost⟩ := (hf a).result t b u hfa hq
  obtain ⟨hs, hp⟩ := hx.result s a t ha ht
  exact ⟨hs, hpost hp⟩

theorem logic (Q : Store → Prop) : Logic fun p x => Gives Q p x := ⟨pure, bind⟩

end Gives

/-! ## Results, known from the store in the beginning -/

/-- The invariant holds after the action if it holds before, and then the result of a success
satisfies `post`. -/
structure Ensures (I : Store → Prop) (post : α → Prop) (x : Act α) : Prop where
  keeps : x.Keeps I
  result : ∀ s a t, I s → x s = .ok a t → post a

namespace Ensures

variable {I : Store → Prop} {p r : α → Prop} {post : β → Prop}

theorem pure {a : α} (h : p a) : Ensures I p (Pure.pure a : Act α) := by
  refine ⟨Keeps.pure a, fun s b t _ hb => ?_⟩
  obtain ⟨rfl, _⟩ := Act.pure_eq_ok.1 hb
  exact h

theorem fail (e : Error) : Ensures I p (Act.fail e : Act α) :=
  ⟨Keeps.fail e, fun s _ _ _ h => by rw [Act.fail_run] at h; cases h⟩

theorem exhausted : Ensures I p (throw .exhausted : Act α) :=
  ⟨Keeps.exhausted, fun _ _ _ _ h => by cases h⟩

theorem lift {x : Except Error α} (h : ∀ a, x = .ok a → p a) : Ensures I p (Act.lift x) := by
  cases x with
  | ok a => exact pure (h a rfl)
  | error e => exact fail e

theorem imp {x : Act α} (hx : Ensures I p x) (h : ∀ a, p a → r a) : Ensures I r x :=
  ⟨hx.keeps, fun s a t hs ha => h a (hx.result s a t hs ha)⟩

theorem bind {x : Act α} {f : α → Act β} (hx : Ensures I p x)
    (hf : ∀ a, p a → Ensures I post (f a)) : Ensures I post (x >>= f) := by
  refine ⟨⟨fun s hs => ?_⟩, fun s b u hs hb => ?_⟩
  · have hs' := hx.keeps.after s hs
    cases h : x s with
    | ok a t =>
        rw [Act.final_ok h] at hs'
        rw [Act.final_bind_ok h]
        exact (hf a (hx.result s a t hs h)).keeps.after t hs'
    | error e t =>
        rw [Act.final_error h] at hs'
        rw [Act.final_error (Act.bind_error h)]; exact hs'
  · obtain ⟨a, t, ha, hfa⟩ := Act.bind_eq_ok.1 hb
    exact (hf a (hx.result s a t hs ha)).result t b u (hx.keeps.ok ha hs) hfa

theorem logic (I : Store → Prop) : Logic fun p x => Ensures I p x where
  pure h := pure h
  bind hx hf := by
    refine ⟨hx.keeps.bind fun a => (hf a).keeps, fun s b u hs hb => ?_⟩
    obtain ⟨a, t, ha, hfa⟩ := Act.bind_eq_ok.1 hb
    exact (hf a).result t b u (hx.keeps.ok ha hs) hfa (hx.result s a t hs ha)

end Ensures

end Act

/-! ## Enough nested steps -/

/-- With enough nested steps, `x` leads from `s` to the result `a` and the store `t`. -/
def Reaches (host : Host) (x : Engine → Act α) (s : Store) (a : α) (t : Store) : Prop :=
  ∃ N, ∀ n, N ≤ n → x (machine host n) s = .ok a t

namespace Reaches

variable {host : Host}

theorem pure (a : α) (s : Store) : Reaches host (fun _ => Pure.pure a) s a s := ⟨0, fun _ _ => rfl⟩

theorem lift {x : Except Error α} {a : α} (h : x = .ok a) (s : Store) :
    Reaches host (fun _ => Act.lift x) s a s := by
  rw [h]; exact pure a s

theorem bind {x : Engine → Act α} {f : Engine → α → Act β} {a : α} {b : β} {s t u : Store}
    (hx : Reaches host x s a t) (hf : Reaches host (fun E => f E a) t b u) :
    Reaches host (fun E => x E >>= f E) s b u := by
  obtain ⟨N, hN⟩ := hx
  obtain ⟨M, hM⟩ := hf
  refine ⟨max N M, fun n hn => ?_⟩
  exact (Act.bind_ok (hN n (by omega))).trans (hM n (by omega))

/-- An answer of the machine is reached where one of its steps is. -/
theorem step {x y : Engine → Act α} {a : α} {s t : Store}
    (h : ∀ n, x (machine host (n + 1)) = y (machine host n)) (hy : Reaches host y s a t) :
    Reaches host x s a t := by
  obtain ⟨N, hN⟩ := hy
  refine ⟨N + 1, fun n hn => ?_⟩
  obtain ⟨m, rfl⟩ : ∃ m, n = m + 1 := ⟨n - 1, by omega⟩
  rw [h m]
  exact hN m (by omega)

end Reaches

/-- From every store with `I`, `x` reaches `a`, in a store with `I`. -/
def Settles (host : Host) (I : Store → Prop) (x : Engine → Act α) (a : α) : Prop :=
  ∀ s, I s → ∃ t, Reaches host x s a t ∧ I t

namespace Settles

variable {host : Host} {I : Store → Prop}

theorem pure (a : α) : Settles host I (fun _ => Pure.pure a) a :=
  fun s hs => ⟨s, Reaches.pure a s, hs⟩

theorem bind {x : Engine → Act α} {f : Engine → α → Act β} {a : α} {b : β}
    (hx : Settles host I x a) (hf : Settles host I (fun E => f E a) b) :
    Settles host I (fun E => x E >>= f E) b := by
  intro s hs
  obtain ⟨t, hxt, ht⟩ := hx s hs
  obtain ⟨u, hfu, hu⟩ := hf t ht
  exact ⟨u, hxt.bind hfu, hu⟩

theorem step {x y : Engine → Act α} {a : α}
    (h : ∀ n, x (machine host (n + 1)) = y (machine host n)) (hy : Settles host I y a) :
    Settles host I x a := by
  intro s hs
  obtain ⟨t, hyt, ht⟩ := hy s hs
  exact ⟨t, hyt.step h, ht⟩

end Settles

/-- `x` settles on `a`, and returns nothing else, however few nested steps are allowed. -/
structure Exactly (host : Host) (I : Store → Prop) (x : Engine → Act α) (a : α) : Prop where
  ensures : ∀ n, (x (machine host n)).Ensures I (· = a)
  settles : Settles host I x a

namespace Exactly

variable {host : Host} {I : Store → Prop}

theorem pure (a : α) : Exactly host I (fun _ => Pure.pure a) a :=
  ⟨fun _ => Act.Ensures.pure rfl, Settles.pure a⟩

theorem lift {x : Except Error α} {a : α} (h : x = .ok a) :
    Exactly host I (fun _ => Act.lift x) a := by
  rw [h]; exact pure a

theorem bind {x : Engine → Act α} {f : Engine → α → Act β} {a : α} {b : β}
    (hx : Exactly host I x a) (hf : Exactly host I (fun E => f E a) b) :
    Exactly host I (fun E => x E >>= f E) b := by
  refine ⟨fun n => (hx.ensures n).bind ?_, hx.settles.bind hf.settles⟩
  rintro _ rfl
  exact hf.ensures n

theorem congr {x y : Engine → Act α} {a : α} (h : ∀ E, x E = y E) (hy : Exactly host I y a) :
    Exactly host I x a := by
  obtain rfl : x = y := funext h
  exact hy

theorem mapM {f : Engine → α → Act β} {as : List α} {bs : List β}
    (h : List.Forall₂ (fun a b => Exactly host I (fun E => f E a) b) as bs) :
    Exactly host I (fun E => as.mapM (f E)) bs := by
  induction h with
  | nil => exact congr (fun _ => List.mapM_nil) (pure [])
  | cons hab _ ih => exact congr (fun _ => List.mapM_cons) (hab.bind (ih.bind (pure _)))

/-- An answer of the machine is exact if the step it takes is. -/
theorem step {x y : Engine → Act α} {a : α} (hzero : x .exhausted = throw .exhausted)
    (h : ∀ n, x (machine host (n + 1)) = y (machine host n)) (hy : Exactly host I y a) :
    Exactly host I x a := by
  refine ⟨fun n => ?_, hy.settles.step h⟩
  cases n with
  | zero =>
      show (x .exhausted).Ensures I _
      rw [hzero]; exact Act.Ensures.exhausted
  | succ n => rw [h n]; exact hy.ensures n

end Exactly

/-! ## Actions that follow one another -/

/-- Whatever `x` returns from a store with `I`, `y` reaches something related to it from every store
with `I`. -/
def Follows (host : Host) (I : Store → Prop) (R : α → β → Prop) (x : Act α) (y : Engine → Act β) :
    Prop :=
  x.Ensures I fun a => ∀ s, I s → ∃ b t, Reaches host y s b t ∧ I t ∧ R a b

namespace Follows

open Act (Ensures)

variable {host : Host} {I : Store → Prop} {R : α → β → Prop} {S : γ → δ → Prop}

theorem pure {a : α} {b : β} (h : R a b) : Follows host I R (Pure.pure a) fun _ => Pure.pure b :=
  Ensures.pure fun s hs => ⟨b, s, Reaches.pure b s, hs, h⟩

/-- Nothing has to follow a failure. -/
theorem fail {e : Error} {y : Engine → Act β} : Follows host I R (Act.fail e : Act α) y :=
  Ensures.fail e

theorem exhausted {y : Engine → Act β} : Follows host I R (throw .exhausted : Act α) y :=
  Ensures.exhausted

theorem lift {x : Except Error α} {y : Except Error β}
    (h : ∀ a, x = .ok a → ∃ b, y = .ok b ∧ R a b) :
    Follows host I R (Act.lift x) fun _ => Act.lift y := by
  refine Ensures.lift fun a ha s hs => ?_
  obtain ⟨b, hb, hab⟩ := h a ha
  exact ⟨b, s, Reaches.lift hb s, hs, hab⟩

theorem imp {R' : α → β → Prop} {x : Act α} {y : Engine → Act β} (hx : Follows host I R x y)
    (h : ∀ a b, R a b → R' a b) : Follows host I R' x y := by
  refine Ensures.imp hx fun a ha s hs => ?_
  obtain ⟨b, t, hb, ht, hab⟩ := ha s hs
  exact ⟨b, t, hb, ht, h a b hab⟩

theorem congr {x x' : Act α} {y y' : Engine → Act β} (hx : x = x') (hy : ∀ E, y E = y' E)
    (h : Follows host I R x' y') : Follows host I R x y := by
  obtain rfl : y = y' := funext hy
  rw [hx]; exact h

theorem bind {x : Act α} {y : Engine → Act β} {f : α → Act γ} {g : Engine → β → Act δ}
    (hx : Follows host I R x y) (hf : ∀ a b, R a b → Follows host I S (f a) (fun E => g E b)) :
    Follows host I S (x >>= f) (fun E => y E >>= g E) := by
  refine Ensures.bind hx fun a ha => ⟨⟨fun s hs => ?_⟩, fun s c t hs hc s' hs' => ?_⟩
  · obtain ⟨b, _, _, _, hab⟩ := ha s hs
    exact (hf a b hab).keeps.after s hs
  · obtain ⟨b, u, hb, hu, hab⟩ := ha s' hs'
    obtain ⟨d, w, hd, hw, hcd⟩ := (hf a b hab).result s c t hs hc u hu
    exact ⟨d, w, hb.bind hd, hw, hcd⟩

/-- An answer of the machine follows where one of its steps does. -/
theorem step {x : Act α} {y z : Engine → Act β}
    (h : ∀ n, z (machine host (n + 1)) = y (machine host n)) (hx : Follows host I R x y) :
    Follows host I R x z := by
  refine Ensures.imp hx fun a ha s hs => ?_
  obtain ⟨b, t, hb, ht, hab⟩ := ha s hs
  exact ⟨b, t, hb.step h, ht, hab⟩

end Follows

end DualForm
