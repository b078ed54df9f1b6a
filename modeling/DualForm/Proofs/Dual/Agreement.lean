import DualForm.Proofs.Dual.Refinement
import DualForm.Proofs.Rewriting.Inert

/-!
# Duals whose forms agree

* `Agrees host I V d l` — `l` is the tree form of `d`, no pass has anything to do in it, and it
  follows the function form.
* `Reproducible host I V d` — the function form computes the same wherever it is asked for.

Principal results: `Assembled.agrees`, `Assembled.reproducible` — both hold of the duals of assembled
families.
-/

namespace DualForm

open Act (Ensures)

variable {host : Host} {I : Store → Prop} {V : Vocabulary} {D : Dual → Prop} {form : Dual → Lam} {d : Dual}

/-- The two forms of the dual agree: `l` is its tree form, no pass has anything to do in it, and what
the function form makes of data, the body of `l` makes of it as well. -/
structure Agrees (host : Host) (I : Store → Prop) (V : Vocabulary) (d : Dual) (l : Lam) : Prop where
  tree : Exactly host I (fun E => E.tree d) l
  single : ∃ p, l.params = [p]
  settled : l.tree.Settled
  function : ∀ n, Ensures I (fun f => ∀ k v p ρ, l.params = [p] → V.data v →
    Follows host I (Shared V) ((machine host k).call f [v]) fun E => evaluate E ((p, v) :: ρ) l.body)
    ((machine host n).function d)

/-- What one function form of the dual makes of data, another one makes of it as well. -/
def Reproducible (host : Host) (I : Store → Prop) (V : Vocabulary) (d : Dual) : Prop :=
  ∀ n, Follows host I (Tracks host I V) ((machine host n).function d) fun E => E.function d

/-! ## Assembled families -/

theorem Assembled.agrees (hV : V.Closed) (hhost : V.Respected host) {ds : List Dual} {s : Store}
    (h : Assembled host V form ds s) (hd : d ∈ ds) :
    Agrees host (Publishes (· ∈ ds) form s) V d (form d) := by
  have hfun : ∀ d ∈ ds, ∀ n, Ensures (Publishes (· ∈ ds) form s) (FunctionForm d)
      ((machine host n).function d) := fun d hd n =>
    function_ensures h.distinct (fun d hd => (h.formed d hd).plain.mono fun _ he => he.1) s n d hd
  refine ⟨h.tree hd, h.flat.single d hd, (Tree.inert_lambda.2 (h.flat.flat d hd).inert).settled, ?_⟩
  intro n
  refine (hfun d hd n).imp fun f hf k v p ρ hp hv => ?_
  exact (h.faithful d p hd hp).follows hV hhost (publishes_stable s) (fun d hd n => hfun d hd n)
    k f v _ hv hf settles_own

/-- A value computed in one of several ways is published in one of several ways. -/
theorem publishOnce_reaches {α : Type} {slot : Slot α} {x : Engine → Act α} {s v : Store} {a : α}
    (hx : Reaches host x s a v) :
    ∃ b t, Reaches host (fun E => Act.publishOnce slot (x E)) s b t := by
  obtain ⟨N, hN⟩ := hx
  cases hfound : slot.read s with
  | some b => exact ⟨b, s, 0, fun n _ => publishOnce_found hfound⟩
  | none =>
      cases hlate : slot.read v with
      | some b => exact ⟨b, v, N, fun n hn => publishOnce_late hfound (hN n hn) hlate⟩
      | none => exact ⟨a, slot.write a v, N, fun n hn => publishOnce_first hfound (hN n hn) hlate⟩

/-- Every dual of a family has a function form. -/
theorem function_reaches (hdistinct : Distinct D)
    (hD : ∀ d, D d → Formed host form (fun e => D e ∧ e.id < d.id) d) (s₀ : Store) (d : Dual) (hd : D d)
    {s : Store} (hs : Publishes D form s₀ s) :
    ∃ f t, Reaches host (fun E => E.function d) s f t ∧ Publishes D form s₀ t ∧ FunctionForm d f := by
  have hensures : ∀ n d, D d → ((machine host n).function d).Ensures (Publishes D form s₀)
      (FunctionForm d) :=
    function_ensures hdistinct (fun d hd => (hD d hd).plain.mono fun _ he => he.1) s₀
  induction hid : d.id using Nat.strongRecOn generalizing d s with
  | _ id ih =>
    subst hid
    have hinitial : ∃ f t, Reaches host (fun E => d.initialFunction host E) s f t := by
      have horigin := (hD d hd).plain
      unfold Dual.initialFunction
      generalize d.origin = o at horigin
      cases horigin with
      | lambda l => exact ⟨_, _, 0, fun _ _ => rfl⟩
      | composed houter hinner =>
          obtain ⟨f, t, hf, ht, _⟩ := ih _ hinner.2 _ hinner.1 hs rfl
          obtain ⟨g, u, hg, _, _⟩ := ih _ houter.2 _ houter.1 ht rfl
          refine ⟨_, _, hf.bind (f := fun E f => do Act.newFunc 1 (.chain f (← E.function _))) (hg.bind
            (f := fun _ g => Act.newFunc 1 (.chain f g)) ⟨0, fun _ _ => rfl⟩)⟩
    obtain ⟨f, v, hf⟩ := hinitial
    have hpublished : ∃ g t, Reaches host (fun E => d.forceFunction host E) s g t :=
      publishOnce_reaches hf
    obtain ⟨g, t, hg⟩ := hpublished
    have hstep : Reaches host (fun E => E.function d) s g t := hg.step fun n => machine_function d
    obtain ⟨N, hN⟩ := hstep
    have hrun := hN N (Nat.le_refl _)
    exact ⟨g, t, ⟨N, hN⟩, (hensures N d hd).keeps.ok hrun hs, (hensures N d hd).result s g t hs hrun⟩

/-- What it means for a subject to compute the same in every store. -/
def Subject.Reproduces (host : Host) (I : Store → Prop) (V : Vocabulary) : Subject → Prop
  | .tree b x t => ∀ n v, V.data v → Follows host I (Alike host I V b)
      (evaluate (machine host n) [(x, v)] t) fun E => evaluate E [(x, v)] t
  | .dual d => ∀ f g, FunctionForm d f → FunctionForm d g → Tracks host I V f g

/-- What can be rendered computes the same in every store. -/
theorem Renders.reproduces (hV : V.Closed) (hhost : V.Respected host) (hI : Stable I)
    (hfun : ∀ d, D d → ∀ n, Follows host I (fun f g => FunctionForm d f ∧ FunctionForm d g)
      ((machine host n).function d) fun E => E.function d) {r u : Expr} {S : Subject}
    (h : Renders V D r S u) : S.Reproduces host I V := by
  induction h with
  | @node r t u x parts hbasic ht hhead hu _ ih =>
      intro n v hv
      refine (basic_follows hV hhost hI (parts.map fun q => (q.1, q.2.1, q.2.1)) ?_ ?_ rfl ?_ ?_).imp
        fun _ _ => alike_false.2
      · rw [List.map_map]; exact hbasic
      · rw [List.map_map]; exact ht
      · rw [List.map_map]; exact ht
      · intro q hq
        obtain ⟨c, hc, rfl⟩ := List.mem_map.1 hq
        exact ih c hc n v hv
  | own r x =>
      intro n v hv
      refine Follows.congr (evaluate_own x v) (fun E => evaluate_own x v) (Follows.pure (.data hv))
  | foreign r u hz =>
      intro n v hv
      rw [evaluate_foreign hz]
      exact Follows.fail
  | @evaluation r a m u x d byMethod hd _ _ iha ihd =>
      intro n v hv
      have hcall : ∀ f g, FunctionForm d f ∧ FunctionForm d g → ∀ w w', Alike host I V false w w' →
          Follows host I (Alike host I V false) ((machine host n).call f [w]) fun E => E.call g [w'] := by
        rintro f g ⟨hf, hg⟩ w w' hw
        obtain ⟨hdata, rfl⟩ := alike_false.1 hw
        exact (ihd f g hf hg n w hdata).imp fun _ _ => alike_false.2
      cases byMethod with
      | false =>
          refine Follows.congr (evaluate_invoked d a) (fun E => evaluate_invoked d a) ?_
          refine (hfun d hd n).bind fun f g hfg => ?_
          exact (iha n v hv).bind fun w w' hw => hcall f g hfg w w' hw
      | true =>
          refine Follows.congr (evaluate_called d a) (fun E => evaluate_called d a) ?_
          refine (iha n v hv).bind fun w w' hw => ?_
          exact (hfun d hd n).bind fun f g hfg => hcall f g hfg w w' hw
  | @handed b y d r x byConversion hd _ ih =>
      intro n v hv
      refine Follows.congr (evaluate_handed d byConversion) (fun E => evaluate_handed d byConversion) ?_
      exact (hfun d hd n).bind fun f g hfg => Follows.pure (.func (ih f g hfg.1 hfg.2))
  | @lambda r t u p d ho _ ih =>
      intro f g hf hg n v hv
      obtain ⟨id, rfl⟩ := hf.of_lambda ho
      obtain ⟨id', rfl⟩ := hg.of_lambda ho
      cases n with
      | zero => exact Follows.exhausted
      | succ n => exact ((ih n v hv).imp fun _ _ => alike_false.1).step fun m => call_closure id' p t v m
  | @composed r m u d outer inner ho _ _ ihi iho =>
      intro f g hf hg n v hv
      obtain ⟨id, fi, fo, rfl, hfi, hfo⟩ := hf.of_composed ho
      obtain ⟨id', gi, go, rfl, hgi, hgo⟩ := hg.of_composed ho
      cases n with
      | zero => exact Follows.exhausted
      | succ n =>
          have hchain : Follows host I (Shared V)
              (do (machine host n).call fo [← (machine host n).call fi [v]])
              (fun E => do E.call go [← E.call gi [v]]) := by
            refine (ihi fi gi hfi hgi n v hv).bind fun w w' hw => ?_
            obtain ⟨hdata, rfl⟩ := hw
            exact iho fo go hfo hgo n w hdata
          exact hchain.step fun m => rfl

theorem Assembled.reproducible (hV : V.Closed) (hhost : V.Respected host) {ds : List Dual} {s : Store}
    (h : Assembled host V form ds s) (hd : d ∈ ds) :
    Reproducible host (Publishes (· ∈ ds) form s) V d := by
  have hfun : ∀ d ∈ ds, ∀ n, Follows host (Publishes (· ∈ ds) form s)
      (fun f g => FunctionForm d f ∧ FunctionForm d g) ((machine host n).function d)
      fun E => E.function d := by
    intro d hd n
    refine (function_ensures h.distinct (fun d hd => (h.formed d hd).plain.mono fun _ he => he.1) s n d
      hd).imp fun f hf s' hs' => ?_
    obtain ⟨g, t, hg, ht, hform⟩ := function_reaches h.distinct h.formed s d hd hs'
    exact ⟨g, t, hg, ht, hf, hform⟩
  obtain ⟨p, hp⟩ := h.flat.single d hd
  intro n
  refine (hfun d hd n).imp fun f g hfg => ?_
  exact (h.faithful d p hd hp).reproduces hV hhost (publishes_stable s) hfun f g hfg.1 hfg.2

end DualForm
