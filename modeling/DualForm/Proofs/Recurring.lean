import DualForm.Proofs.Dual.Simulation
import DualForm.Proofs.Triple

/-!
# Results that come again in every store

* `Beside s t` — from `s` to `t` nothing is published; identities may be given out.
* `Recurs host x a` — with every stable invariant, `x` settles on `a` and returns nothing else. So it
  does in every store, whatever is published there.

Principal results: `recurs_of_follows` — what an action returns recurs in actions that follow it,
whatever is published; `recurring_triple` — such actions keep every stable invariant.
-/

namespace DualForm

open Act (Ensures)

variable {α : Type} {host : Host} {V : Vocabulary} {ends : Prop} {I err P : Store → Prop}

/-- Nothing is published in between, and identities are given out at most. -/
structure Beside (s t : Store) : Prop where
  trees : t.trees = s.trees
  functions : t.functions = s.functions
  nextId : s.nextId ≤ t.nextId

theorem Stable.beside (hI : Stable I) {s t : Store} (h : Beside s t) (hs : I s) : I t :=
  hI s t hs h.trees h.functions h.nextId

/-- A new identity. -/
theorem beside_identity (s : Store) : Beside s { s with nextId := s.nextId + 1 } :=
  ⟨rfl, rfl, Nat.le_succ _⟩

theorem stable_true : Stable fun _ => True := fun _ _ _ _ _ _ => trivial

/-- An action reaches one result only. -/
theorem Reaches.unique {x : Engine → Act α} {s t u : Store} {a b : α} (ha : Reaches host x s a t)
    (hb : Reaches host x s b u) : a = b := by
  obtain ⟨N, hN⟩ := ha
  obtain ⟨M, hM⟩ := hb
  have hsame := (hN (max N M) (Nat.le_max_left ..)).symm.trans (hM (max N M) (Nat.le_max_right ..))
  cases hsame
  rfl

/-- With every stable invariant the action settles on the result, and returns nothing else. -/
def Recurs (host : Host) (x : Engine → Act α) (a : α) : Prop := ∀ I, Stable I → Exactly host I x a

namespace Recurs

variable {x y : Engine → Act α} {a b : α}

theorem pure (a : α) : Recurs host (fun _ => Pure.pure a) a := fun _ _ => Exactly.pure a

theorem congr (h : ∀ E, x E = y E) (hy : Recurs host y a) : Recurs host x a := fun I hI =>
  (hy I hI).congr h

/-- In every store the action reaches the result. -/
theorem reaches (h : Recurs host x a) (s : Store) : ∃ t, Reaches host x s a t := by
  obtain ⟨t, ht, _⟩ := (h _ stable_true).settles s trivial
  exact ⟨t, ht⟩

theorem unique (ha : Recurs host x a) (hb : Recurs host x b) : a = b := by
  obtain ⟨t, ht⟩ := ha.reaches .initial
  obtain ⟨u, hu⟩ := hb.reaches .initial
  exact ht.unique hu

/-- Actions whose results recur follow one another where the results are related. -/
theorem follows {R : α → α → Prop} (ha : Recurs host x a) (hb : Recurs host y b) (hI : Stable I)
    (hR : R a b) (n : Nat) : Follows host I R (x (machine host n)) y := by
  refine ((ha I hI).ensures n).imp ?_
  rintro _ rfl s hs
  obtain ⟨t, ht, hIt⟩ := (hb I hI).settles s hs
  exact ⟨b, t, ht, hIt, hR⟩

end Recurs

/-- **What an action returns recurs in an action that follows it,** where that one follows itself, whatever
has been published. -/
theorem recurs_of_follows {x y : Engine → Act Value}
    (hxy : ∀ I, Stable I → ∀ n, Follows host I (Shared V) (x (machine host n)) y)
    (hyy : ∀ I, Stable I → ∀ n, Follows host I (Shared V) (y (machine host n)) y) {n : Nat}
    {s t : Store} {v : Value} (h : x (machine host n) s = .ok v t) : V.data v ∧ Recurs host y v := by
  have hreach : ∀ s', ∃ t', Reaches host y s' v t' ∧ V.data v := by
    intro s'
    obtain ⟨w, t', hw, _, hv, rfl⟩ := (hxy _ stable_true n).result s v t trivial h s' trivial
    exact ⟨t', hw, hv⟩
  refine ⟨(hreach s).elim fun _ h => h.2, fun I hI => ⟨fun m => ?_, fun s' hs' => ?_⟩⟩
  · refine ⟨(hyy I hI m).keeps, fun s' w t' hs' hw => ?_⟩
    obtain ⟨t₁, hv, _⟩ := hreach s'
    obtain ⟨w', t₂, hw', _, _, rfl⟩ := (hyy I hI m).result s' w t' hs' hw s' hs'
    exact hw'.unique hv
  · obtain ⟨t', ⟨N, hN⟩, _⟩ := hreach s'
    exact ⟨t', ⟨N, hN⟩, (hyy I hI N).keeps.ok (hN N (Nat.le_refl _)) hs'⟩

/-- What recurs in an action recurs in one that follows it. -/
theorem Recurs.transfer {x y : Engine → Act Value} {v : Value} (hx : Recurs host x v)
    (hxy : ∀ I, Stable I → ∀ n, Follows host I (Shared V) (x (machine host n)) y)
    (hyy : ∀ I, Stable I → ∀ n, Follows host I (Shared V) (y (machine host n)) y) : Recurs host y v := by
  obtain ⟨t, N, hN⟩ := hx.reaches .initial
  exact (recurs_of_follows hxy hyy (hN N (Nat.le_refl _))).2

/-- An action that follows itself keeps every stable invariant, and what it returns recurs. -/
theorem recurring_triple {x : Engine → Act Value}
    (hx : ∀ I, Stable I → ∀ n, Follows host I (Shared V) (x (machine host n)) x) (hP : Stable P)
    (herr : ∀ s, P s → err s) (hends : ends → ∃ v, Recurs host x v) :
    Triple host ends err P (fun v s => (V.data v ∧ Recurs host x v) ∧ P s) x := by
  refine ⟨fun n s v t hs hv => ?_, fun n s e t hs he => ?_, fun h s _ => ?_⟩
  · exact ⟨recurs_of_follows hx hx hv, (hx P hP n).keeps.ok hv hs⟩
  · have hafter := (hx P hP n).keeps.after s hs
    rw [Act.final_error he] at hafter
    exact herr t hafter
  · obtain ⟨v, hv⟩ := hends h
    obtain ⟨t, ht⟩ := hv.reaches s
    exact ⟨v, t, ht⟩

end DualForm
