import DualForm.Proofs.Dual.Agreement
import DualForm.Proofs.Factory.Building
import DualForm.Proofs.Matching

/-!
# Duals bound to arguments that agree

Values that a factory cannot tell apart as arguments for its parameters are related by `R`.

* `Bindings.Agree host I R bs bs'` — the arguments of the same parameters are read as values that agree,
  whether they are values or are read through accessors.
* `Func.AgreeOn host I v f g` — applied to `v`, `g` returns what `f` does, unless that is a function.
* `Builders.Uniform host I R builders formals v` — built from values that agree, functions agree on `v`.
* `Accounts host I d` — under `I`, whatever has been published as the function of `d` was computed for it.
* `Standing host I ds` — the strongest such invariant for the duals `ds`.

Principal results: `built_matches` — building from arguments that agree; `FunctionForm.agree` — functions
built once and functions built anew on every call agree; `evaluate_form` — what evaluating a bound dual runs;
`evaluate_agree` — what the dual bound to the one returns, the dual bound to the other returns. `standing_accounts` — every stable invariant can be extended
to one that accounts for given duals.
-/

namespace DualForm

open Template (Place Stands)

variable {host : Host} {I : Store → Prop} {R : FormalParam → Value → Value → Prop} {builders : Builders}
  {bs bs' : Bindings} {d d' : Dual} {f g : Func} {v w : Value}

/-! ## Reading arguments -/

/-- The argument, read now. -/
def Argument.get (E : Engine) : Argument → Act Value
  | .value v => pure v
  | .deferred accessor => Deferred.get E accessor

theorem Argument.resolved_eq (E : Engine) (formal : FormalParam) (arg : Argument) :
    arg.resolved E formal = (do return ⟨formal, .value (← arg.get E)⟩) := by
  cases arg with
  | value v => simp [resolved, get]
  | deferred accessor => rfl

/-- The arguments are read as values that agree. -/
def Argument.Agree (host : Host) (I : Store → Prop) (R : FormalParam → Value → Value → Prop)
    (formal : FormalParam) (arg arg' : Argument) : Prop :=
  Matches host I (R formal) (fun E => arg.get E) fun E => arg'.get E

/-- The same parameters are bound to arguments that agree. -/
def Bindings.Agree (host : Host) (I : Store → Prop) (R : FormalParam → Value → Value → Prop)
    (bs bs' : Bindings) : Prop :=
  List.Forall₂ (fun x y => y.1 = x.1 ∧ Argument.Agree host I R x.1 x.2 y.2) bs bs'

/-- The same parameter with values that agree. -/
inductive Captured.Agree (R : FormalParam → Value → Value → Prop) : Captured → Captured → Prop
  | value {formal : FormalParam} {v w : Value} : R formal v w →
      Captured.Agree R ⟨formal, .value v⟩ ⟨formal, .value w⟩

theorem Captured.agree_formals {cs cs' : List Captured} (h : List.Forall₂ (Captured.Agree R) cs cs') :
    cs'.map Captured.formal = cs.map Captured.formal := by
  induction h with
  | nil => rfl
  | cons hc _ ih =>
      cases hc
      rw [List.map_cons, List.map_cons, ih]

theorem resolved_matches (h : Bindings.Agree host I R bs bs') :
    Matches host I
      (fun cs cs' => cs.map Captured.formal = bs.map Prod.fst ∧ List.Forall₂ (Captured.Agree R) cs cs')
      (fun E => bs.resolved E) fun E => bs'.resolved E := by
  unfold Bindings.resolved
  induction h with
  | nil =>
      exact Matches.congr (fun _ => List.mapM_nil) (fun _ => List.mapM_nil) (Matches.pure ⟨rfl, .nil⟩)
  | @cons x y bs bs' hxy _ ih =>
      obtain ⟨formal, arg⟩ := x
      obtain ⟨formal', arg'⟩ := y
      obtain ⟨rfl, hargs⟩ := hxy
      refine Matches.congr (fun _ => List.mapM_cons) (fun _ => List.mapM_cons) ?_
      have hhead : Matches host I (fun c c' => c.formal = formal' ∧ Captured.Agree R c c')
          (fun E => arg.resolved E formal') fun E => arg'.resolved E formal' := by
        refine Matches.congr (fun E => arg.resolved_eq E formal') (fun E => arg'.resolved_eq E formal') ?_
        exact hargs.bind fun v w hvw => Matches.pure ⟨rfl, .value hvw⟩
      refine hhead.bind fun c c' hc => ih.bind fun cs cs' hcs => Matches.pure ⟨?_, .cons hc.2 hcs.2⟩
      rw [List.map_cons, List.map_cons, hc.1, hcs.1]

/-! ## Building functions -/

/-- The same value, unless the first one is a function. -/
def SameResult (v w : Value) : Prop := (∀ f, v ≠ .func f) → w = v

/-- Applied to the value, the one function returns what the other one does. -/
def Func.AgreeOn (host : Host) (I : Store → Prop) (v : Value) (f g : Func) : Prop :=
  ∀ n, Follows host I SameResult ((machine host n).call f [v]) fun E => E.call g [v]

/-- Built from values that agree, the functions agree: arguments only matter up to `R`. -/
def Builders.Uniform (host : Host) (I : Store → Prop) (R : FormalParam → Value → Value → Prop)
    (builders : Builders) (formals : List FormalParam) (v : Value) : Prop :=
  ∀ cs cs', cs.map Captured.formal = formals → List.Forall₂ (Captured.Agree R) cs cs' →
    Matches host I (Func.AgreeOn host I v) (fun E => builders.buildFunction host E cs)
      fun E => builders.buildFunction host E cs'

/-- **Functions built from arguments that agree do so.** -/
theorem built_matches (hbuilders : builders.Uniform host I R (bs.map Prod.fst) v)
    (h : Bindings.Agree host I R bs bs') :
    Matches host I (Func.AgreeOn host I v) (fun E => bs.built host E builders)
      fun E => bs'.built host E builders :=
  (resolved_matches h).bind fun cs cs' hcs => hbuilders cs cs' hcs.1 hcs.2

/-- **Builders that read their arguments only through captured reads, over host code, do not tell apart the
same data and functions that compute the same.** -/
theorem uniform_of_template {V : Vocabulary} (hV : V.Closed) (hhost : V.Respected host) (hcall : V.Callable)
    {N : Expr → Prop} {build : BuilderId} {formals : List FormalParam} {template : Expr}
    (hbuild : Builds host build formals template)
    (htemplate : Term V N (Place (formals.map fun formal => formal.ty.isFunc)) false template)
    (hI : Stable I) (hv : V.data v) :
    Builders.Uniform host I (fun formal => Alike host I V formal.ty.isFunc) (.tree build) formals v := by
  intro cs cs' hcs hagree
  have hcs' : cs'.map Captured.formal = formals := (Captured.agree_formals hagree).trans hcs
  refine Matches.of_triples (buildFunction_triple hbuild hcs hI fun _ hs => hs)
    (buildFunction_triple hbuild hcs' hI fun _ hs => hs) ?_
  rintro f g ⟨id, q, t, rfl, ht⟩ ⟨id', q', u, rfl, hu⟩ n
  cases n with
  | zero => exact Follows.exhausted
  | succ n =>
      refine Follows.step (y := fun E => evaluate E [(q', v)] u) (call_closure id' q' u v) ?_
      refine Follows.congr (call_closure id q t v n) (fun _ => rfl) ?_
      refine (Term.follows hV hhost hcall hI htemplate ht hu ?_).imp
        fun _ _ h _ => (alike_false.1 h).2.symm
      intro b x t u hplace ht hu
      cases hplace with
      | own =>
          rw [ht.of_own, hu.of_own]
          exact Follows.congr (evaluate_own ..) (fun _ => evaluate_own ..) (Follows.pure (.data hv))
      | argument hb =>
          obtain ⟨c, i, hc, rfl⟩ := ht.of_argument
          obtain ⟨c', i', hc', rfl⟩ := hu.of_argument
          obtain ⟨c₀, hc₀, hcc⟩ := forall₂_getElem? hagree hc'
          obtain rfl := Option.some.inj (hc₀.symm.trans hc)
          rw [← hcs, List.map_map, List.getElem?_map, hc] at hb
          obtain rfl := Option.some.inj hb
          cases hcc with
          | value hvw =>
              exact Follows.congr (Captured.evaluate_read ..) (fun _ => Captured.evaluate_read ..)
                (Follows.pure hvw)

/-- The function form of bindings: built once, or built anew on every call. -/
inductive Bindings.FunctionForm (host : Host) (I : Store → Prop) (builders : Builders) (bs : Bindings) :
    Func → Prop
  | built {f : Func} : Returns host I (fun E => bs.built host E builders) f →
      FunctionForm host I builders bs f
  | rebuilt (id : Nat) : FunctionForm host I builders bs ⟨id, 1, .rebuilt builders bs⟩

theorem Bindings.function_form (h : Returns host I (fun E => bs.function host E builders) f) :
    bs.FunctionForm host I builders f := by
  obtain ⟨n, s, t, hs, hf⟩ := h
  unfold Bindings.function at hf
  split at hf
  · cases hf
    exact .rebuilt _
  · exact .built ⟨n, s, t, hs, hf⟩

theorem Bindings.FunctionForm.mono {J : Store → Prop} (hIJ : ∀ s, I s → J s)
    (h : bs.FunctionForm host I builders f) : bs.FunctionForm host J builders f := by
  cases h with
  | built hf => exact .built (hf.mono hIJ)
  | rebuilt id => exact .rebuilt id

/-- A function that is built anew on every call. -/
theorem call_rebuilt (id : Nat) (v : Value) (n : Nat) :
    (machine host (n + 1)).call ⟨id, 1, .rebuilt builders bs⟩ [v] = (do
      (machine host n).call (← bs.built host (machine host n) builders) [v]) := rfl

/-- **Function forms agree where what is built does.** It does not matter which of them are built once. -/
theorem Bindings.FunctionForm.agree
    (hbuilt : Matches host I (Func.AgreeOn host I v) (fun E => bs.built host E builders)
      fun E => bs'.built host E builders)
    (hf : bs.FunctionForm host I builders f) (hg : bs'.FunctionForm host I builders g) :
    Func.AgreeOn host I v f g := by
  intro n
  have hcall : ∀ {n} {x : Act Func} {y : Engine → Act Func}, Follows host I (Func.AgreeOn host I v) x y →
      Follows host I SameResult (x >>= fun f => (machine host n).call f [v])
        fun E => y E >>= fun g => E.call g [v] := fun hxy => hxy.bind fun f g hfg => hfg _
  cases hf with
  | built hf =>
      cases hg with
      | built hg => exact hbuilt.related hf hg n
      | rebuilt id =>
          refine Follows.step (y := fun E => do E.call (← bs'.built host E builders) [v])
            (fun m => call_rebuilt id v m) ?_
          exact Follows.congr (pure_bind ..).symm (fun _ => rfl) (hcall ((hbuilt.of_returned hf).follows n))
  | rebuilt id =>
      cases n with
      | zero => exact Follows.exhausted
      | succ n =>
          refine Follows.congr (call_rebuilt id v n) (fun _ => rfl) ?_
          cases hg with
          | built hg =>
              exact Follows.congr rfl (fun _ => (pure_bind ..).symm)
                (hcall ((hbuilt.to_returned hg).follows n))
          | rebuilt id' =>
              exact Follows.step (y := fun E => do E.call (← bs'.built host E builders) [v])
                (fun m => call_rebuilt id' v m) (hcall (hbuilt.follows n))

/-! ## Published functions -/

/-- Whatever is published as the function of the dual was computed for it, and may be published. -/
structure Accounts (host : Host) (I : Store → Prop) (d : Dual) : Prop where
  published : ∀ s f, I s → s.functions[d.id]? = some f →
    Returns host I (fun E => d.initialFunction host E) f
  publish : ∀ s f, I s → s.functions[d.id]? = none →
    Returns host I (fun E => d.initialFunction host E) f → I ((Slot.function d).write f s)

/-- The function of a bound dual. -/
theorem function_form_of_run (ho : d.origin = .bound builders bs) (hd : Accounts host I d) (hI : Stable I)
    (hkept : ∀ n s f t, I s → bs.built host (machine host n) builders s = .ok f t → I t) {n : Nat}
    {s t : Store} (hs : I s) (h : (machine host n).function d s = .ok f t) :
    bs.FunctionForm host I builders f ∧ I t := by
  have hinitial : ∀ E, d.initialFunction host E = bs.function host E builders := fun E => by
    unfold Dual.initialFunction
    rw [ho]
  have hform : ∀ {f}, Returns host I (fun E => d.initialFunction host E) f →
      bs.FunctionForm host I builders f := fun hf => Bindings.function_form (funext hinitial ▸ hf)
  have hcomputed : ∀ n s f t, I s → d.initialFunction host (machine host n) s = .ok f t → I t := by
    intro n s f t hs hf
    rw [hinitial] at hf
    unfold Bindings.function at hf
    split at hf
    · cases hf
      exact hI.beside (beside_identity s) hs
    · exact hkept n s f t hs hf
  cases n with
  | zero => cases h
  | succ n =>
      rcases publishOnce_ok h with ⟨hread, rfl⟩ | ⟨_, f', u, hf', ⟨hread, rfl⟩ | ⟨hread, rfl, rfl⟩⟩
      · exact ⟨hform (hd.published t f hs hread), hs⟩
      · have hu := hcomputed n s f' t hs hf'
        exact ⟨hform (hd.published t f hu hread), hu⟩
      · have hu := hcomputed n s f u hs hf'
        exact ⟨hform (.of_run hs hf'), hd.publish u f hu hread (.of_run hs hf')⟩

/-- The first evaluation of a dual computes its function. -/
theorem evaluate_first {n : Nat} {s t : Store} (v : Value) (hs : s.functions[d.id]? = none)
    (hf : d.initialFunction host (machine host n) s = .ok f t) (ht : t.functions[d.id]? = none) :
    d.evaluate (machine host (n + 1)) v s =
      (machine host (n + 1)).call f [v] ((Slot.function d).write f t) :=
  Act.bind_ok (publishOnce_first (v := t) hs hf ht)

/-- **What evaluating a bound dual runs:** its function form, and something has been built for it. -/
theorem evaluate_form (hI : Stable I) (ho : d.origin = .bound builders bs) (hd : Accounts host I d)
    (hkept : ∀ n s f t, I s → bs.built host (machine host n) builders s = .ok f t → I t)
    (hw : Returns host I (fun E => d.evaluate E v) w) :
    ∃ f n u t, bs.FunctionForm host I builders f ∧ I u ∧ (machine host n).call f [v] u = .ok w t ∧
      ∃ g, Returns host I (fun E => bs.built host E builders) g := by
  obtain ⟨n, s, t, hs, hrun⟩ := hw
  obtain ⟨f, u, hf, hcall⟩ := Act.bind_eq_ok.1 hrun
  obtain ⟨hform, hu⟩ := function_form_of_run ho hd hI hkept hs hf
  refine ⟨f, n, u, t, hform, hu, hcall, ?_⟩
  cases hform with
  | built hf => exact ⟨f, hf⟩
  | rebuilt id =>
      cases n with
      | zero => cases hcall
      | succ n =>
          rw [call_rebuilt] at hcall
          obtain ⟨g, u', hg, _⟩ := Act.bind_eq_ok.1 hcall
          exact ⟨g, .of_run hu hg⟩

/-- What a dual returns, a dual bound to arguments that agree returns, unless it is a function. The two may
be evaluated under different invariants, as long as the arguments agree under what these have in common. -/
theorem evaluate_agree_across {I' J : Store → Prop} (hIJ : ∀ s, I s → J s) (hIJ' : ∀ s, I' s → J s)
    (hI : Stable I) (hI' : Stable I') (ho : d.origin = .bound builders bs)
    (ho' : d'.origin = .bound builders bs') (hd : Accounts host I d) (hd' : Accounts host I' d')
    (hkept : ∀ n s f t, I s → bs.built host (machine host n) builders s = .ok f t → I t)
    (hkept' : ∀ g, Returns host J (fun E => bs.built host E builders) g → ∀ n s f t, I' s →
      bs'.built host (machine host n) builders s = .ok f t → I' t)
    (hbuilt : Matches host J (Func.AgreeOn host J v) (fun E => bs.built host E builders)
      fun E => bs'.built host E builders)
    (hw : Returns host I (fun E => d.evaluate E v) w) (hnone : ∀ f, w ≠ .func f) {s : Store} (hs : I' s) :
    ∃ t, Reaches host (fun E => d'.evaluate E v) s w t := by
  obtain ⟨f, n, u₀, t₀, hform, hu₀, hcall, g, hg⟩ := evaluate_form hI ho hd hkept hw
  replace hg := hg.mono hIJ
  have hinitial : ∃ f' u, Reaches host (fun E => d'.initialFunction host E) s f' u := by
    unfold Dual.initialFunction
    rw [ho']
    show ∃ f' u, Reaches host (fun E => bs'.function host E builders) s f' u
    unfold Bindings.function
    split
    · exact ⟨_, _, 0, fun _ _ => rfl⟩
    · exact hbuilt.reaches hg s (hIJ' s hs)
  obtain ⟨f₁, u₁, hf₁⟩ := hinitial
  obtain ⟨f', u, hforced⟩ : ∃ f' u, Reaches host (fun E => d'.forceFunction host E) s f' u :=
    publishOnce_reaches hf₁
  have hf' : Reaches host (fun E => E.function d') s f' u := Reaches.step (fun n => machine_function d') hforced
  obtain ⟨N, hN⟩ := id hf'
  obtain ⟨hform', hu⟩ := function_form_of_run ho' hd' hI' (hkept' g hg) hs (hN N (Nat.le_refl _))
  have hagree := (hform.mono hIJ).agree hbuilt (hform'.mono hIJ')
  obtain ⟨w', t, hw', _, hsame⟩ := (hagree n).result u₀ w t₀ (hIJ u₀ hu₀) hcall u (hIJ' u hu)
  obtain rfl := hsame hnone
  exact ⟨t, hf'.bind (f := fun E f => E.call f [v]) hw'⟩

/-- **What a dual returns, a dual bound to arguments that agree returns,** unless it is a function. -/
theorem evaluate_agree (hI : Stable I) (ho : d.origin = .bound builders bs)
    (ho' : d'.origin = .bound builders bs') (hd : Accounts host I d) (hd' : Accounts host I d')
    (hbuilders : builders.Uniform host I R (bs.map Prod.fst) v) (hbs : Bindings.Agree host I R bs bs')
    (hw : Returns host I (fun E => d.evaluate E v) w) (hnone : ∀ f, w ≠ .func f) {s : Store} (hs : I s) :
    ∃ t, Reaches host (fun E => d'.evaluate E v) s w t := by
  have hbuilt := built_matches hbuilders hbs
  exact evaluate_agree_across (fun _ h => h) (fun _ h => h) hI hI ho ho' hd hd'
    (fun n _ _ _ hs h => (hbuilt.keeps n).ok h hs) (fun _ hg _ _ _ _ hs h => hbuilt.kept hg hs h) hbuilt hw
    hnone hs

/-! ## Invariants that account for duals -/

/-- The function was computed for the dual, in a store in which all that had been published for duals in
`ds` was computed in this way. -/
inductive Computed (host : Host) (I : Store → Prop) (ds : List Dual) : Dual → Func → Prop
  | intro {d : Dual} {f : Func} {n : Nat} {s t : Store} : I s →
      (∀ e ∈ ds, ∀ g, s.functions[e.id]? = some g → Computed host I ds e g) →
      d.initialFunction host (machine host n) s = .ok f t → Computed host I ds d f

/-- The invariant, and whatever has been published of the duals was computed for them. -/
def Standing (host : Host) (I : Store → Prop) (ds : List Dual) (s : Store) : Prop :=
  I s ∧ ∀ e ∈ ds, ∀ g, s.functions[e.id]? = some g → Computed host I ds e g

variable {ds : List Dual}

theorem standing_stable (hI : Stable I) : Stable (Standing host I ds) := by
  intro s t hs htrees hfunctions hnext
  refine ⟨hI s t hs.1 htrees hfunctions hnext, fun e he g hg => hs.2 e he g ?_⟩
  rwa [hfunctions] at hg

/-- **An invariant can be extended to one that accounts for given duals,** if publishing their functions
keeps it. -/
theorem standing_accounts (hwrite : ∀ s f, I s → I ((Slot.function d).write f s)) (hd : d ∈ ds)
    (hdistinct : ∀ e ∈ ds, e.id = d.id → e = d) : Accounts host (Standing host I ds) d where
  published s f hs hf := by
    cases hs.2 d hd f hf with
    | intro hI hrest hrun => exact ⟨_, _, _, ⟨hI, hrest⟩, hrun⟩
  publish s f hs _ hf := by
    obtain ⟨n, s₀, t₀, hs₀, hrun⟩ := hf
    refine ⟨hwrite s f hs.1, fun e he g hg => ?_⟩
    rw [functions_write] at hg
    split at hg
    · rename_i hid
      obtain rfl := hdistinct e he hid.symm
      cases hg
      exact .intro hs₀.1 hs₀.2 hrun
    · exact hs.2 e he g hg

end DualForm
