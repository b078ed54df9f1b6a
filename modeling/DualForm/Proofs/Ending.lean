import DualForm.Proofs.Outcome

/-!
# How actions end

* `Lands F x s r` — on all engines of the family `F` but the first few, `x` ends from `s` with `r`, which is
  a result or an error together with the store it leaves.
* `Ends host x s r` — the same for the machine: with enough nested steps, `x` ends from `s` with `r`.
* `Coincide host I post x y` — from every store with `I`, `x` and `y` end alike: with the same result,
  which satisfies `post`, and in the same store, again with `I`, or with the same error in the same
  store.
* `Refuses host I x e` — from every store with `I`, `x` fails with `e`, and it returns nothing.
* `Concludes host I x o` — `x` has one outcome, a result (`Exactly`) or an error (`Refuses`).

Principal results: one lemma per way of combining actions (`Coincide.bind`, `Concludes.bind` and their
companions).
-/

namespace DualForm

variable {α β : Type} {host : Host} {I : Store → Prop}

/-- On all engines of the family but the first few, `x` ends from `s` with `r`. -/
def Lands (F : Nat → Engine) (x : Engine → Act α) (s : Store) (r : EStateM.Result Stop Store α) : Prop :=
  ∃ N, ∀ n, N ≤ n → x (F n) s = r

namespace Lands

variable {F : Nat → Engine} {x y : Engine → Act α} {f : Engine → α → Act β} {s t : Store} {a : α} {e : Stop}
  {r : EStateM.Result Stop Store α}

theorem pure (a : α) (s : Store) : Lands F (fun _ => Pure.pure a) s (.ok a s) := ⟨0, fun _ _ => rfl⟩

theorem bind_ok {r : EStateM.Result Stop Store β} (hx : Lands F x s (.ok a t))
    (hf : Lands F (fun E => f E a) t r) : Lands F (fun E => x E >>= f E) s r := by
  obtain ⟨N, hN⟩ := hx
  obtain ⟨M, hM⟩ := hf
  refine ⟨max N M, fun n hn => ?_⟩
  exact (Act.bind_ok (hN n (by omega))).trans (hM n (by omega))

theorem bind_error (hx : Lands F x s (.error e t)) :
    Lands F (fun E => x E >>= f E) s (.error e t) := by
  obtain ⟨N, hN⟩ := hx
  exact ⟨N, fun n hn => Act.bind_error (hN n hn)⟩

/-- An answer lands where the step it takes does. -/
theorem step (h : ∀ n, x (F (n + 1)) = y (F n)) (hy : Lands F y s r) : Lands F x s r := by
  obtain ⟨N, hN⟩ := hy
  refine ⟨N + 1, fun n hn => ?_⟩
  obtain ⟨m, rfl⟩ : ∃ m, n = m + 1 := ⟨n - 1, by omega⟩
  rw [h m]
  exact hN m (by omega)

/-- An action lands in one way only. -/
theorem unique {r' : EStateM.Result Stop Store α} (hr : Lands F x s r) (hr' : Lands F x s r') :
    r = r' := by
  obtain ⟨N, hN⟩ := hr
  obtain ⟨M, hM⟩ := hr'
  exact (hN (max N M) (Nat.le_max_left ..)).symm.trans (hM (max N M) (Nat.le_max_right ..))

end Lands

/-- With enough nested steps, `x` ends from `s` with `r`. -/
def Ends (host : Host) (x : Engine → Act α) (s : Store) (r : EStateM.Result Stop Store α) : Prop :=
  ∃ N, ∀ n, N ≤ n → x (machine host n) s = r

namespace Ends

variable {x y : Engine → Act α} {f : Engine → α → Act β} {s t : Store} {a : α} {e : Stop}
  {r : EStateM.Result Stop Store α}

theorem bind_ok {r : EStateM.Result Stop Store β} (hx : Ends host x s (.ok a t))
    (hf : Ends host (fun E => f E a) t r) : Ends host (fun E => x E >>= f E) s r := Lands.bind_ok hx hf

theorem bind_error (hx : Ends host x s (.error e t)) :
    Ends host (fun E => x E >>= f E) s (.error e t) := Lands.bind_error hx

/-- An answer of the machine ends like the step it takes. -/
theorem step (h : ∀ n, x (machine host (n + 1)) = y (machine host n)) (hy : Ends host y s r) :
    Ends host x s r := Lands.step h hy

/-- The step an answer of the machine takes ends like the answer. -/
theorem of_step (h : ∀ n, x (machine host (n + 1)) = y (machine host n)) (hx : Ends host x s r) :
    Ends host y s r := by
  obtain ⟨N, hN⟩ := hx
  exact ⟨N, fun n hn => by rw [← h n]; exact hN (n + 1) (by omega)⟩

/-- An action ends in one way only. -/
theorem unique {r' : EStateM.Result Stop Store α} (hr : Ends host x s r) (hr' : Ends host x s r') :
    r = r' := Lands.unique hr hr'

end Ends

/-- A result with `post` in a store with `I`, or an error. -/
def Finished (I : Store → Prop) (post : α → Prop) : EStateM.Result Stop Store α → Prop
  | .ok a t => post a ∧ I t
  | .error (.failed _) _ => True
  | .error .exhausted _ => False

/-- From every store with `I`, the actions end alike. -/
def Coincide (host : Host) (I : Store → Prop) (post : α → Prop) (x y : Engine → Act α) : Prop :=
  ∀ s, I s → ∃ r, Ends host x s r ∧ Ends host y s r ∧ Finished I post r

namespace Coincide

variable {p : α → Prop} {post : β → Prop} {x x' y y' : Engine → Act α}

theorem pure {a : α} (h : p a) : Coincide host I p (fun _ => Pure.pure a) fun _ => Pure.pure a :=
  fun s hs => ⟨.ok a s, ⟨0, fun _ _ => rfl⟩, ⟨0, fun _ _ => rfl⟩, h, hs⟩

theorem congr (hx : ∀ E, x E = x' E) (hy : ∀ E, y E = y' E) (h : Coincide host I p x' y') :
    Coincide host I p x y := by
  obtain rfl : x = x' := funext hx
  obtain rfl : y = y' := funext hy
  exact h

theorem bind {f g : Engine → α → Act β} (hxy : Coincide host I p x y)
    (hfg : ∀ a, p a → Coincide host I post (fun E => f E a) fun E => g E a) :
    Coincide host I post (fun E => x E >>= f E) fun E => y E >>= g E := by
  intro s hs
  obtain ⟨r, hx, hy, hr⟩ := hxy s hs
  match r, hr with
  | .ok a t, ⟨ha, ht⟩ =>
      obtain ⟨q, hf, hg, hq⟩ := hfg a ha t ht
      exact ⟨q, hx.bind_ok hf, hy.bind_ok hg, hq⟩
  | .error (.failed e) t, _ => exact ⟨.error (.failed e) t, hx.bind_error, hy.bind_error, trivial⟩

theorem step_left (h : ∀ n, x (machine host (n + 1)) = x' (machine host n))
    (hxy : Coincide host I p x' y) : Coincide host I p x y := by
  intro s hs
  obtain ⟨r, hx, hy, hr⟩ := hxy s hs
  exact ⟨r, hx.step h, hy, hr⟩

/-- What ends like an answer of the machine ends like the step it takes. -/
theorem of_step_right (h : ∀ n, y (machine host (n + 1)) = y' (machine host n))
    (hxy : Coincide host I p x y) : Coincide host I p x y' := by
  intro s hs
  obtain ⟨r, hx, hy, hr⟩ := hxy s hs
  exact ⟨r, hx, hy.of_step h, hr⟩

end Coincide

/-! ## One outcome -/

/-- From every store with `I`, `x` fails with this error, and it returns nothing, however few nested steps are
allowed. -/
structure Refuses (host : Host) (I : Store → Prop) (x : Engine → Act α) (e : Error) : Prop where
  ensures : ∀ n, (x (machine host n)).Ensures I fun _ => False
  fails : ∀ s, I s → ∃ t, Ends host x s (.error (.failed e) t)

/-- `x` has this outcome from every store with `I`, and no other. -/
def Concludes (host : Host) (I : Store → Prop) (x : Engine → Act α) : Except Error α → Prop
  | .ok a => Exactly host I x a
  | .error e => Refuses host I x e

section Outcomes

variable {x y : Engine → Act α} {f : Engine → α → Act β} {a : α} {e : Error}

theorem Refuses.fail (e : Error) : Refuses host I (fun _ => Act.fail e : Engine → Act α) e :=
  ⟨fun _ => Act.Ensures.fail e, fun s _ => ⟨s, 0, fun _ _ => rfl⟩⟩

/-- Nothing comes after a refusal. -/
theorem Refuses.bind (hx : Refuses host I x e) : Refuses host I (fun E => x E >>= f E) e := by
  refine ⟨fun n => (hx.ensures n).bind fun a h => h.elim, fun s hs => ?_⟩
  obtain ⟨t, ht⟩ := hx.fails s hs
  exact ⟨t, ht.bind_error⟩

theorem Concludes.congr {o : Except Error α} (h : ∀ E, x E = y E) (hy : Concludes host I y o) :
    Concludes host I x o := by
  obtain rfl : x = y := funext h
  exact hy

/-- After a settled action the rest concludes. -/
theorem Concludes.bind {o : Except Error β} (hx : Exactly host I x a) (hf : Concludes host I (fun E => f E a) o) :
    Concludes host I (fun E => x E >>= f E) o := by
  cases o with
  | ok b => exact hx.bind hf
  | error e =>
      refine ⟨fun n => (hx.ensures n).bind ?_, fun s hs => ?_⟩
      · rintro _ rfl
        exact hf.ensures n
      · obtain ⟨t, hxt, ht⟩ := hx.settles s hs
        obtain ⟨u, hu⟩ := hf.fails t ht
        exact ⟨u, Ends.bind_ok hxt hu⟩

end Outcomes

end DualForm
