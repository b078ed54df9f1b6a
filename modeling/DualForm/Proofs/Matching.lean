import DualForm.Proofs.Recurring

/-!
# Actions that match

Two actions that are run at different times, in different stores and with different numbers of nested
steps allowed.

* `Returns host I x a` — from some store with `I`, `x` returns `a`.
* `Matches host I R x y` — if `x` returns, then `y` does in every store with `I`, and whatever both return
  is related by `R`.

Principal results: one lemma per way of combining actions (`Matches.bind` and its companions);
`Matches.follows` — an action follows one that it matches.
-/

namespace DualForm

open Act (Keeps)

variable {α β γ δ : Type} {host : Host} {V : Vocabulary} {I : Store → Prop}

/-- Some run of the action, from a store with the invariant, returns this. -/
def Returns (host : Host) (I : Store → Prop) (x : Engine → Act α) (a : α) : Prop :=
  ∃ n s t, I s ∧ x (machine host n) s = .ok a t

/-- If `x` returns, so does `y` in every store with the invariant. Results are related, whichever runs they
come from. -/
structure Matches (host : Host) (I : Store → Prop) (R : α → β → Prop) (x : Engine → Act α)
    (y : Engine → Act β) : Prop where
  keeps : ∀ n, (x (machine host n)).Keeps I
  related : ∀ {a b}, Returns host I x a → Returns host I y b → R a b
  kept : ∀ {a n s b t}, Returns host I x a → I s → y (machine host n) s = .ok b t → I t
  reaches : ∀ {a}, Returns host I x a → ∀ s, I s → ∃ b t, Reaches host y s b t

namespace Returns

variable {x y : Engine → Act α} {a : α}

theorem of_run {n : Nat} {s t : Store} (hs : I s) (h : x (machine host n) s = .ok a t) :
    Returns host I x a := ⟨n, s, t, hs, h⟩

theorem of_reaches {s t : Store} (hs : I s) (h : Reaches host x s a t) : Returns host I x a := by
  obtain ⟨N, hN⟩ := h
  exact ⟨N, s, t, hs, hN N (Nat.le_refl _)⟩

theorem mono {J : Store → Prop} (hIJ : ∀ s, I s → J s) (h : Returns host I x a) : Returns host J x a := by
  obtain ⟨n, s, t, hs, ha⟩ := h
  exact ⟨n, s, t, hIJ s hs, ha⟩

theorem pure_iff {b : α} : Returns host I (fun _ => Pure.pure a) b → a = b := by
  rintro ⟨_, _, _, _, h⟩
  exact (Act.pure_eq_ok.1 h).1

/-- An answer of the machine comes from one of its steps. -/
theorem of_step (hzero : x .exhausted = throw .exhausted)
    (h : ∀ n, x (machine host (n + 1)) = y (machine host n)) (hx : Returns host I x a) :
    Returns host I y a := by
  obtain ⟨n, s, t, hs, ha⟩ := hx
  cases n with
  | zero =>
      change x .exhausted s = _ at ha
      rw [hzero] at ha
      cases ha
  | succ n => exact ⟨n, s, t, hs, (h n) ▸ ha⟩

end Returns

namespace Matches

variable {R R' : α → β → Prop} {S : γ → δ → Prop} {x x' : Engine → Act α} {y y' : Engine → Act β}

theorem pure {a : α} {b : β} (h : R a b) :
    Matches host I R (fun _ => Pure.pure a) fun _ => Pure.pure b where
  keeps _ := Keeps.pure a
  related ha hb := by
    obtain rfl := ha.pure_iff
    obtain rfl := hb.pure_iff
    exact h
  kept _ hs hb := (Act.pure_eq_ok.1 hb).2 ▸ hs
  reaches _ s _ := ⟨b, s, Reaches.pure b s⟩

theorem imp (hxy : Matches host I R x y) (h : ∀ a b, R a b → R' a b) : Matches host I R' x y :=
  ⟨hxy.keeps, fun ha hb => h _ _ (hxy.related ha hb), hxy.kept, hxy.reaches⟩

theorem congr (hx : ∀ E, x E = x' E) (hy : ∀ E, y E = y' E) (h : Matches host I R x' y') :
    Matches host I R x y := by
  obtain rfl : x = x' := funext hx
  obtain rfl : y = y' := funext hy
  exact h

theorem bind {f : Engine → α → Act γ} {g : Engine → β → Act δ} (hxy : Matches host I R x y)
    (hfg : ∀ a b, R a b → Matches host I S (fun E => f E a) fun E => g E b) :
    Matches host I S (fun E => x E >>= f E) fun E => y E >>= g E := by
  -- what `x` returns, `y` does as well, so that there is something for `f` to match
  have hmatch : ∀ {a}, Returns host I x a → ∃ b, Matches host I S (fun E => f E a) fun E => g E b := by
    intro a ha
    obtain ⟨_, s, _, hs, _⟩ := id ha
    obtain ⟨b, t, hb⟩ := hxy.reaches ha s hs
    exact ⟨b, hfg a b (hxy.related ha (.of_reaches hs hb))⟩
  have hsplit : ∀ {c}, Returns host I (fun E => x E >>= f E) c →
      ∃ a, Returns host I x a ∧ Returns host I (fun E => f E a) c := by
    rintro c ⟨n, s, u, hs, hc⟩
    obtain ⟨a, t, ha, hfa⟩ := Act.bind_eq_ok.1 hc
    exact ⟨a, .of_run hs ha, .of_run ((hxy.keeps n).ok ha hs) hfa⟩
  refine ⟨fun n => ⟨fun s hs => ?_⟩, ?_, ?_, ?_⟩
  · cases h : x (machine host n) s with
    | ok a t =>
        rw [Act.final_bind_ok h]
        obtain ⟨b, hb⟩ := hmatch (.of_run hs h)
        exact (hb.keeps n).after t ((hxy.keeps n).ok h hs)
    | error e t =>
        rw [Act.final_error (Act.bind_error h)]
        have hafter := (hxy.keeps n).after s hs
        rwa [Act.final_error h] at hafter
  · rintro c d hc ⟨m, s, u, hs, hd⟩
    obtain ⟨a, ha, hfa⟩ := hsplit hc
    obtain ⟨b, t, hb, hgb⟩ := Act.bind_eq_ok.1 hd
    have hab := hxy.related ha (.of_run hs hb)
    exact (hfg a b hab).related hfa (.of_run (hxy.kept ha hs hb) hgb)
  · intro c m s d u hc hs hd
    obtain ⟨a, ha, hfa⟩ := hsplit hc
    obtain ⟨b, t, hb, hgb⟩ := Act.bind_eq_ok.1 hd
    exact (hfg a b (hxy.related ha (.of_run hs hb))).kept hfa (hxy.kept ha hs hb) hgb
  · intro c hc s hs
    obtain ⟨a, ha, hfa⟩ := hsplit hc
    obtain ⟨b, t, hb⟩ := hxy.reaches ha s hs
    have hab := hxy.related ha (.of_reaches hs hb)
    have ht : I t := by
      obtain ⟨N, hN⟩ := id hb
      exact hxy.kept ha hs (hN N (Nat.le_refl _))
    obtain ⟨d, u, hd⟩ := (hfg a b hab).reaches hfa t ht
    exact ⟨d, u, hb.bind hd⟩

/-- An answer of the machine matches what one of its steps does. -/
theorem step_left (hzero : x .exhausted = throw .exhausted)
    (h : ∀ n, x (machine host (n + 1)) = x' (machine host n)) (hxy : Matches host I R x' y) :
    Matches host I R x y where
  keeps n := by
    cases n with
    | zero =>
        show (x .exhausted).Keeps I
        rw [hzero]
        exact Keeps.exhausted
    | succ n => rw [h n]; exact hxy.keeps n
  related ha hb := hxy.related (ha.of_step hzero h) hb
  kept ha := hxy.kept (ha.of_step hzero h)
  reaches ha := hxy.reaches (ha.of_step hzero h)

/-- An answer of the machine is matched where one of its steps is. -/
theorem step_right (hzero : y .exhausted = throw .exhausted)
    (h : ∀ n, y (machine host (n + 1)) = y' (machine host n)) (hxy : Matches host I R x y') :
    Matches host I R x y where
  keeps := hxy.keeps
  related ha hb := hxy.related ha (hb.of_step hzero h)
  kept {a n s b t} ha hs hb := by
    cases n with
    | zero =>
        change y .exhausted s = _ at hb
        rw [hzero] at hb
        cases hb
    | succ n => exact hxy.kept ha hs ((h n) ▸ hb)
  reaches ha s hs := by
    obtain ⟨b, t, hb⟩ := hxy.reaches ha s hs
    exact ⟨b, t, hb.step h⟩

/-- What `x` has returned stands for it. -/
theorem of_returned {a : α} (hxy : Matches host I R x y) (ha : Returns host I x a) :
    Matches host I R (fun _ => Pure.pure a) y where
  keeps _ := Keeps.pure a
  related ha' hb := ha'.pure_iff ▸ hxy.related ha hb
  kept _ := hxy.kept ha
  reaches _ := hxy.reaches ha

/-- What `y` has returned stands for it. -/
theorem to_returned {b : β} (hxy : Matches host I R x y) (hb : Returns host I y b) :
    Matches host I R x fun _ => Pure.pure b where
  keeps := hxy.keeps
  related ha hb' := hb'.pure_iff ▸ hxy.related ha hb
  kept _ hs hb' := (Act.pure_eq_ok.1 hb').2 ▸ hs
  reaches _ s _ := ⟨b, s, Reaches.pure b s⟩

/-- An action follows one that it matches. -/
theorem follows (hxy : Matches host I R x y) (n : Nat) : Follows host I R (x (machine host n)) y := by
  refine ⟨hxy.keeps n, fun s a t hs ha s' hs' => ?_⟩
  obtain ⟨b, t', hb⟩ := hxy.reaches (.of_run hs ha) s' hs'
  obtain ⟨N, hN⟩ := id hb
  exact ⟨b, t', hb, hxy.kept (.of_run hs ha) hs' (hN N (Nat.le_refl _)),
    hxy.related (.of_run hs ha) (.of_reaches hs' hb)⟩

/-- Actions match where what one returns is related to what the other one, which always returns, does. -/
theorem of_triples {S : α → Prop} {T : β → Prop}
    (hx : Triple host False I I (fun a s => S a ∧ I s) x) (hy : Triple host True I I (fun b s => T b ∧ I s) y)
    (h : ∀ a b, S a → T b → R a b) : Matches host I R x y where
  keeps := hx.keeps
  related := by
    rintro a b ⟨n, s, t, hs, ha⟩ ⟨m, s', t', hs', hb⟩
    exact h a b (hx.ok n s a t hs ha).1 (hy.ok m s' b t' hs' hb).1
  kept _ hs hb := (hy.ok _ _ _ _ hs hb).2
  reaches _ s hs := hy.reaches trivial s hs

/-- Actions on data match where one follows the other one, and that one itself. -/
theorem of_follows {x y : Engine → Act Value}
    (hxy : ∀ n, Follows host I (Shared V) (x (machine host n)) y)
    (hyy : ∀ n, Follows host I (Shared V) (y (machine host n)) y) : Matches host I (Shared V) x y where
  keeps n := (hxy n).keeps
  related := by
    rintro v w ⟨n, s, t, hs, hv⟩ ⟨m, s', t', hs', hw⟩
    obtain ⟨v', u, hreach, _, hdata, rfl⟩ := (hxy n).result s v t hs hv s' hs'
    obtain ⟨w', u', hreach', _, _, rfl⟩ := (hyy m).result s' w t' hs' hw s' hs'
    exact ⟨hdata, hreach.unique hreach'⟩
  kept _ hs hw := (hyy _).keeps.ok hw hs
  reaches := by
    rintro v ⟨n, s, t, hs, hv⟩ s' hs'
    obtain ⟨w, u, hreach, _, _⟩ := (hxy n).result s v t hs hv s' hs'
    exact ⟨w, u, hreach⟩

end Matches

end DualForm
