import DualForm.Proofs.Preservation

/-!
# Stores before and after

* `Triple host ends err P Q x` — run in a store with `P`, `x` returns in stores with `Q`, which may
  look at the result, and fails in stores with `err`. If `ends`, it returns with enough nested steps.

Principal results: one lemma per way of combining actions, so that what holds of the store can change
from one action to the next. Invariants that stay the same are a matter of `Act.Ensures`.
-/

namespace DualForm

variable {α β : Type}

/-- From stores with `P`, results come with `Q` and failures with `err`, and if `ends` a result comes
in the end. -/
structure Triple (host : Host) (ends : Prop) (err P : Store → Prop) (Q : α → Store → Prop)
    (x : Engine → Act α) : Prop where
  ok : ∀ n s a t, P s → x (machine host n) s = .ok a t → Q a t
  error : ∀ n s e t, P s → x (machine host n) s = .error e t → err t
  reaches : ends → ∀ s, P s → ∃ a t, Reaches host x s a t

/-- Only computing the value can fail. -/
theorem publishOnce_error {slot : Slot α} {x : Act α} {s t : Store} {e : Stop}
    (h : Act.publishOnce slot x s = .error e t) : slot.read s = none ∧ x s = .error e t := by
  unfold Act.publishOnce at h
  rw [Act.bind_ok (Act.get_run s)] at h
  cases hread : slot.read s with
  | some a => rw [hread] at h; cases h
  | none =>
      rw [hread] at h
      dsimp only at h
      refine ⟨rfl, ?_⟩
      cases hb : x s with
      | error e' v => rw [Act.bind_error hb] at h; exact h
      | ok b v =>
          rw [Act.bind_ok hb, Act.bind_ok (Act.get_run v)] at h
          cases hread' : slot.read v <;> rw [hread'] at h <;> cases h

namespace Triple

variable {host : Host} {ends : Prop} {err P P' : Store → Prop} {Q Q' : α → Store → Prop}
  {R : β → Store → Prop} {x y : Engine → Act α}

theorem pure {a : α} (h : ∀ s, P s → Q a s) : Triple host ends err P Q fun _ => Pure.pure a := by
  refine ⟨fun n s b t hs hb => ?_, fun n s e t _ he => ?_, fun _ s _ => ⟨a, s, Reaches.pure a s⟩⟩
  · obtain ⟨rfl, rfl⟩ := Act.pure_eq_ok.1 hb
    exact h s hs
  · cases he

theorem lift {z : Except Error α} {a : α} (hz : z = .ok a) (h : ∀ s, P s → Q a s) :
    Triple host ends err P Q fun _ => Act.lift z := by
  rw [hz]; exact pure h

/-- What need not end may fail. -/
theorem fail (hends : ¬ ends) (herr : ∀ s, P s → err s) (e : Error) :
    Triple host ends err P Q fun _ => Act.fail e := by
  refine ⟨fun n s a t _ h => ?_, fun n s e' t hs h => ?_, fun h => absurd h hends⟩
  · cases h
  · cases h; exact herr s hs

theorem imp (hx : Triple host ends err P Q x) (hP : ∀ s, P' s → P s)
    (hQ : ∀ a s, Q a s → Q' a s) : Triple host ends err P' Q' x :=
  ⟨fun n s a t hs ha => hQ a t (hx.ok n s a t (hP s hs) ha),
    fun n s e t hs he => hx.error n s e t (hP s hs) he, fun h s hs => hx.reaches h s (hP s hs)⟩

/-- What holds from each store with `P` alone holds from all of them. -/
theorem of_each (h : ∀ s, P s → Triple host ends err (· = s) Q x) : Triple host ends err P Q x :=
  ⟨fun n s a t hs => (h s hs).ok n s a t rfl, fun n s e t hs => (h s hs).error n s e t rfl,
    fun hends s hs => (h s hs).reaches hends s rfl⟩

theorem congr (h : ∀ E, x E = y E) (hy : Triple host ends err P Q y) :
    Triple host ends err P Q x := by
  obtain rfl : x = y := funext h
  exact hy

/-- What is reached satisfies the postcondition. -/
theorem arrives (hx : Triple host ends err P Q x) (hends : ends) {s : Store} (hs : P s) :
    ∃ a t, Reaches host x s a t ∧ Q a t := by
  obtain ⟨a, t, N, hN⟩ := hx.reaches hends s hs
  exact ⟨a, t, ⟨N, hN⟩, hx.ok N s a t hs (hN N (Nat.le_refl _))⟩

/-- A fact that does not depend on the store may be assumed once the action is run in some store. -/
theorem assuming {p : Prop} (hP : ∀ s, P s → p) (h : p → Triple host ends err P Q x) :
    Triple host ends err P Q x :=
  ⟨fun n s a t hs => (h (hP s hs)).ok n s a t hs, fun n s e t hs => (h (hP s hs)).error n s e t hs,
    fun hends s hs => (h (hP s hs)).reaches hends s hs⟩

/-- What is required, ensured and left by failures is kept. -/
theorem keeps {S : α → Prop} (hx : Triple host ends P P (fun a s => S a ∧ P s) x) (n : Nat) :
    (x (machine host n)).Keeps P := by
  refine ⟨fun s hs => ?_⟩
  cases h : x (machine host n) s with
  | ok a t =>
      rw [Act.final_ok h]
      exact (hx.ok n s a t hs h).2
  | error e t =>
      rw [Act.final_error h]
      exact hx.error n s e t hs h

theorem bind {f : Engine → α → Act β} (hx : Triple host ends err P Q x)
    (hf : ∀ a, Triple host ends err (Q a) R fun E => f E a) :
    Triple host ends err P R fun E => x E >>= f E := by
  refine ⟨fun n s b u hs hb => ?_, fun n s e u hs he => ?_, fun hends s hs => ?_⟩
  · obtain ⟨a, t, ha, hfa⟩ := Act.bind_eq_ok.1 hb
    exact (hf a).ok n t b u (hx.ok n s a t hs ha) hfa
  · cases h : x (machine host n) s with
    | ok a t =>
        rw [Act.bind_ok h] at he
        exact (hf a).error n t e u (hx.ok n s a t hs h) he
    | error e' t =>
        rw [Act.bind_error h] at he
        cases he
        exact hx.error n s _ _ hs h
  · obtain ⟨a, t, ha, hq⟩ := hx.arrives hends hs
    obtain ⟨b, u, hb⟩ := (hf a).reaches hends t hq
    exact ⟨b, u, ha.bind hb⟩

/-- An answer of the machine, from the step it takes. -/
theorem step (hzero : x .exhausted = throw .exhausted)
    (h : ∀ n, x (machine host (n + 1)) = y (machine host n)) (herr : ∀ s, P s → err s)
    (hy : Triple host ends err P Q y) : Triple host ends err P Q x := by
  refine ⟨fun n s a t hs ha => ?_, fun n s e t hs he => ?_, fun hends s hs => ?_⟩
  · cases n with
    | zero =>
        change x .exhausted s = _ at ha
        rw [hzero] at ha
        cases ha
    | succ n => exact hy.ok n s a t hs ((h n) ▸ ha)
  · cases n with
    | zero =>
        change x .exhausted s = _ at he
        rw [hzero] at he
        cases he
        exact herr s hs
    | succ n => exact hy.error n s e t hs ((h n) ▸ he)
  · obtain ⟨a, t, hreach⟩ := hy.reaches hends s hs
    exact ⟨a, t, hreach.step h⟩

/-- The results of an action on each element of a list, where `P` holds throughout. -/
theorem mapM_mem {f : Engine → α → Act β} {S : α → β → Prop} : ∀ as : List α,
    (∀ a ∈ as, Triple host ends err P (fun b s => S a b ∧ P s) fun E => f E a) →
      Triple host ends err P (fun bs s => List.Forall₂ S as bs ∧ P s) fun E => as.mapM (f E)
  | [], _ => congr (fun _ => List.mapM_nil) (pure fun _ hs => ⟨.nil, hs⟩)
  | a :: as, h => by
      refine congr (fun _ => List.mapM_cons) ?_
      refine (h a (List.mem_cons_self ..)).bind fun b => assuming (fun s hs => hs.1) fun hb => ?_
      refine ((mapM_mem as fun a ha => h a (List.mem_cons_of_mem _ ha)).imp (fun _ hs => hs.2)
        fun _ _ hs => hs).bind fun bs => ?_
      exact pure fun s hs => ⟨.cons hb hs.1, hs.2⟩

/-- What never fails and asks the engine for nothing. -/
theorem of_run {z : Act α} (h : ∀ s, P s → ∃ a t, z s = .ok a t ∧ Q a t) :
    Triple host ends err P Q fun _ => z := by
  refine ⟨fun n s a t hs ha => ?_, fun n s e t hs he => ?_, fun _ s hs => ?_⟩
  · obtain ⟨a', t', h', hq⟩ := h s hs
    rw [h'] at ha
    cases ha
    exact hq
  · obtain ⟨a', t', h', _⟩ := h s hs
    rw [h'] at he
    cases he
  · obtain ⟨a, t, h', _⟩ := h s hs
    exact ⟨a, t, 0, fun _ _ => h'⟩

/-- A value found is handed out. One that is computed is published, unless another one is found
then. -/
theorem publishOnce {slot : Slot α} {S : α → Store → Prop}
    (hfound : ∀ s a, P s → slot.read s = some a → S a s)
    (hx : Triple host ends err (fun s => P s ∧ slot.read s = none) Q x)
    (hlate : ∀ s a b, Q a s → slot.read s = some b → S b s)
    (hwrite : ∀ s a, Q a s → slot.read s = none → S a (slot.write a s)) :
    Triple host ends err P S fun E => Act.publishOnce slot (x E) := by
  refine ⟨fun n s a t hs ha => ?_, fun n s e t hs he => ?_, fun hends s hs => ?_⟩
  · rcases publishOnce_ok ha with ⟨hread, rfl⟩ | ⟨hread, b, v, hb, ⟨hread', rfl⟩ | ⟨hread', rfl, rfl⟩⟩
    · exact hfound _ _ hs hread
    · exact hlate _ _ _ (hx.ok n s b _ ⟨hs, hread⟩ hb) hread'
    · exact hwrite _ _ (hx.ok n s _ v ⟨hs, hread⟩ hb) hread'
  · obtain ⟨hread, he⟩ := publishOnce_error he
    exact hx.error n s e t ⟨hs, hread⟩ he
  · cases hread : slot.read s with
    | some a => exact ⟨a, s, 0, fun _ _ => publishOnce_found hread⟩
    | none =>
        obtain ⟨b, v, N, hN⟩ := hx.reaches hends s ⟨hs, hread⟩
        cases hread' : slot.read v with
        | some a => exact ⟨a, v, N, fun n hn => publishOnce_late hread (hN n hn) hread'⟩
        | none => exact ⟨b, _, N, fun n hn => publishOnce_first hread (hN n hn) hread'⟩

/-- Where the slot is empty all along, what is computed is published. -/
theorem publishFirst {slot : Slot α} {S : α → Store → Prop} (hnone : ∀ s, P s → slot.read s = none)
    (hx : Triple host ends err P Q x)
    (hwrite : ∀ s a, Q a s → slot.read s = none ∧ S a (slot.write a s)) :
    Triple host ends err P S fun E => Act.publishOnce slot (x E) := by
  refine publishOnce (fun s a hs ha => ?_) (hx.imp (fun s hs => hs.1) fun _ _ h => h)
    (fun s a b ha hb => ?_) fun s a ha _ => (hwrite s a ha).2
  · cases (hnone s hs).symm.trans ha
  · cases (hwrite s a ha).1.symm.trans hb

end Triple

end DualForm
