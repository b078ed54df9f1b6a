import DualForm.Proofs.Factory.Agreement
import DualForm.Proofs.Factory.Together

/-!
# Trees that are the same but for their parameters

* `Matched Γ p q` — the innermost declarations of `p` on the left and of `q` on the right belong together.
* `Paired V N P Γ b t u` — `t` and `u` are the same tree of operations with `N` and of lambdas over one
  parameter each, but for the names of what they declare, and for subtrees related by `P`. The flag says
  whether they stand where a function is taken.
* `Tree.Standalone V b t` — a tree over host code that reads no parameter from outside.
* `Bound V Γ σ ρ` — parameters that belong together have the same data as values.
* `Parametric host V build formals flags` — what the builder makes does not depend on the arguments, but for
  the reads of them.

Principal results: `Paired.follows` — evaluating the one tree follows evaluating the other one;
`Paired.map_right` — subtrees may be replaced on one side; `Builds.parametric` — builders that fill a
template do not depend on the arguments.
-/

namespace DualForm

open Act (Ensures)
open Template (Place Stands)

variable {host : Host} {I : Store → Prop} {V : Vocabulary} {N : Expr → Prop} {P P' : Bool → Expr → Expr → Prop}
  {Γ : List (Param × Param)} {σ ρ : Scope} {E : Engine} {b : Bool} {p q r : Param} {t u : Expr} {v : Value}
  {build : BuilderId} {formals : List FormalParam} {flags : List Bool} {cs cs' : List Captured}

/-- The innermost pair that has the one parameter on the left or the other one on the right has both. -/
def Matched (Γ : List (Param × Param)) (p q : Param) : Prop :=
  Γ.find? (fun x => x.1 = p ∨ x.2 = q) = some (p, q)

/-- The same trees but for the parameters they declare, and for subtrees related by `P`. -/
inductive Paired (V : Vocabulary) (N : Expr → Prop) (P : Bool → Expr → Expr → Prop) :
    List (Param × Param) → Bool → Expr → Expr → Prop
  | param {Γ : List (Param × Param)} {p q : Param} : Matched Γ p q →
      Paired V N P Γ false (.param p) (.param q)
  | unbound {Γ : List (Param × Param)} {b : Bool} {p : Param} (q : Param) : (∀ x ∈ Γ, x.1 ≠ p) →
      Paired V N P Γ b (.param p) (.param q)
  | place {Γ : List (Param × Param)} {b : Bool} {t u : Expr} : P b t u → Paired V N P Γ b t u
  | node {Γ : List (Param × Param)} {t u : Expr} (parts : List (Bool × Expr × Expr)) :
      Ordinary V t (parts.map (·.1)) → N t → t.children = parts.map (·.2.1) → u.head = t.head →
      u.children = parts.map (·.2.2) → (∀ x ∈ parts, Paired V N P Γ x.1 x.2.1 x.2.2) →
      Paired V N P Γ false t u
  | lambda {Γ : List (Param × Param)} {p q : Param} {t u : Expr} : Paired V N P ((p, q) :: Γ) false t u →
      Paired V N P Γ true (.lambda [p] t) (.lambda [q] u)

/-- A node whose subtrees are listed in some other way. -/
theorem Paired.of_subtrees {α : Type} {N : Expr → Prop} {P : Bool → Expr → Expr → Prop}
    {Γ : List (Param × Param)} {t u : Expr} (subtrees : List α) (taken : α → Bool) (left right : α → Expr)
    (hordinary : Ordinary V t (subtrees.map taken)) (hN : N t) (ht : t.children = subtrees.map left)
    (hhead : u.head = t.head) (hu : u.children = subtrees.map right)
    (h : ∀ x ∈ subtrees, Paired V N P Γ (taken x) (left x) (right x)) : Paired V N P Γ false t u := by
  refine .node (subtrees.map fun x => (taken x, left x, right x)) ?_ hN ?_ hhead ?_ (List.forall_mem_map.2 h)
  · rw [List.map_map]; exact hordinary
  · rw [List.map_map]; exact ht
  · rw [List.map_map]; exact hu

/-- A tree over host code without references, and without parameters from outside. -/
def Tree.Standalone (V : Vocabulary) (b : Bool) (t : Expr) : Prop :=
  Paired V (fun u => u.refersToDual = false) (fun _ _ _ => False) [] b t t

/-- Trees without parameters and lambdas stand alone. -/
theorem Term.standalone (h : Term V (fun u => u.refersToDual = false) (fun _ _ => False) b t) :
    t.Standalone V b := by
  induction h with
  | param h => exact h.elim
  | node parts hordinary hN hchildren _ ih =>
      exact .of_subtrees parts Prod.fst Prod.snd Prod.snd hordinary hN hchildren rfl hchildren ih

/-! ## Scopes -/

/-- Parameters that belong together have the same data as values, and others have none on the left. -/
structure Bound (V : Vocabulary) (Γ : List (Param × Param)) (σ ρ : Scope) : Prop where
  matched : ∀ p q, Matched Γ p q → ∃ v, V.data v ∧ σ.lookup? p = some v ∧ ρ.lookup? q = some v
  unbound : ∀ p, (∀ x ∈ Γ, x.1 ≠ p) → σ.lookup? p = none

theorem lookup_cons : Scope.lookup? ((p, v) :: σ) r = if p = r then some v else σ.lookup? r := by
  unfold Scope.lookup?
  by_cases h : p = r <;> simp [h]

theorem Bound.nil (ρ : Scope) : Bound V [] [] ρ := ⟨(fun _ _ h => by cases h), fun _ _ => rfl⟩

/-- Two parameters declared together. -/
theorem Bound.cons (h : Bound V Γ σ ρ) (hv : V.data v) :
    Bound V ((p, q) :: Γ) ((p, v) :: σ) ((q, v) :: ρ) := by
  refine ⟨fun p' q' hmatched => ?_, fun p' hp' => ?_⟩
  · unfold Matched at hmatched
    rw [List.find?_cons] at hmatched
    split at hmatched
    · cases hmatched
      exact ⟨v, hv, lookup_cons.trans (if_pos rfl), lookup_cons.trans (if_pos rfl)⟩
    · rename_i hne
      simp only [decide_eq_false_iff_not, not_or] at hne
      obtain ⟨w, hw, hσ, hρ⟩ := h.matched p' q' hmatched
      exact ⟨w, hw, (lookup_cons.trans (if_neg hne.1)).trans hσ, (lookup_cons.trans (if_neg hne.2)).trans hρ⟩
  · rw [lookup_cons, if_neg (hp' (p, q) (List.mem_cons_self ..))]
    exact h.unbound p' fun x hx => hp' x (List.mem_cons_of_mem _ hx)

/-! ## Evaluation -/

/-- **Evaluating the one tree follows evaluating the other one,** if that holds of the subtrees in which they
differ. -/
theorem Paired.follows (hV : V.Closed) (hhost : V.Respected host) (hcall : V.Callable) (hI : Stable I)
    (h : Paired V N P Γ b t u)
    (hplace : ∀ b t u, P b t u → ∀ σ ρ n, Follows host I (Alike host I V b) (evaluate (machine host n) σ t)
      fun E => evaluate E ρ u) {σ ρ : Scope} (hbound : Bound V Γ σ ρ) (n : Nat) :
    Follows host I (Alike host I V b) (evaluate (machine host n) σ t) fun E => evaluate E ρ u := by
  induction h generalizing σ ρ n with
  | param hmatched =>
      obtain ⟨v, hv, hσ, hρ⟩ := hbound.matched _ _ hmatched
      exact Follows.congr (evaluate_bound hσ) (fun _ => evaluate_bound hρ) (Follows.pure (.data hv))
  | unbound q hp =>
      rw [evaluate_unbound (hbound.unbound _ hp)]
      exact Follows.fail
  | place hP => exact hplace _ _ _ hP σ ρ n
  | node parts hordinary _ ht hhead hu _ ih =>
      refine (ordinary_follows hV hhost hcall hI parts hordinary ht hhead hu fun x hx => ?_).imp
        fun _ _ => alike_false.2
      exact ih x hx hbound n
  | @lambda Γ p q t u _ ih =>
      -- the functions are called later, with other stores and other bounds on nested steps
      have htracks : ∀ id id', Tracks host I V ⟨id, 1, .closure ⟨[p], t⟩ σ⟩
          ⟨id', 1, .closure ⟨[q], u⟩ ρ⟩ := by
        intro id id' m v hv
        cases m with
        | zero => exact Follows.exhausted
        | succ m =>
            refine Follows.step (y := fun E => evaluate E ((q, v) :: ρ) u) (call_closure id' q u v) ?_
            refine Follows.congr (call_closure id p t v m) (fun _ => rfl) ?_
            exact (ih (hbound.cons hv) m).imp fun _ _ => alike_false.1
      refine (newFunc_ensures hI 1 (.closure ⟨[p], t⟩ σ)).bind ?_
      rintro f ⟨id, rfl⟩
      refine Ensures.pure fun s hs => ⟨.func ⟨s.nextId, 1, .closure ⟨[q], u⟩ ρ⟩, _, ⟨0, fun _ _ => rfl⟩,
        hI.beside (beside_identity s) hs, .func (htracks _ _)⟩

/-- A tree that stands alone gives alike results in every scope. -/
theorem Tree.Standalone.follows (hV : V.Closed) (hhost : V.Respected host) (hcall : V.Callable)
    (hI : Stable I) (h : t.Standalone V b) (ρ : Scope) (n : Nat) :
    Follows host I (Alike host I V b) (evaluate (machine host n) [] t) fun E => evaluate E ρ t :=
  Paired.follows hV hhost hcall hI h (fun _ _ _ h => h.elim) (.nil ρ) n

/-! ## Replacing subtrees -/

/-- Subtrees may be replaced on the right, where nodes that are the same on both sides stay. -/
theorem Paired.map_right {g : Expr → Expr} (h : Paired V N P Γ b t u) (hparam : ∀ r, g (.param r) = .param r)
    (hlambda : ∀ r c, g (.lambda [r] c) = .lambda [r] (g c))
    (hnode : ∀ t u, N t → u.head = t.head → (g u).head = u.head ∧ (g u).children = u.children.map g)
    (hplace : ∀ b t u, P b t u → P' b t (g u)) : Paired V N P' Γ b t (g u) := by
  induction h with
  | param hmatched => rw [hparam]; exact .param hmatched
  | unbound q hp => rw [hparam]; exact .unbound q hp
  | place hP => exact .place (hplace _ _ _ hP)
  | @node Γ t u parts hordinary hN ht hhead hu _ ih =>
      obtain ⟨hghead, hgchildren⟩ := hnode t u hN hhead
      rw [hu, List.map_map] at hgchildren
      exact .of_subtrees parts (·.1) (·.2.1) (g ∘ (·.2.2)) hordinary hN ht (hghead.trans hhead) hgchildren ih
  | lambda _ ih => rw [hlambda]; exact .lambda ih

/-- What holds of parameters, of lambdas and of nodes that are the same on both sides, and everywhere in the
subtrees that differ, holds everywhere. -/
theorem Paired.everywhere {prop : Expr → Prop} (h : Paired V N P Γ b t u) (hparam : ∀ r, prop (.param r))
    (hlambda : ∀ ps c, prop (.lambda ps c)) (hnode : ∀ t u : Expr, N t → u.head = t.head → prop u)
    (hplace : ∀ b t u, P b t u → u.Everywhere prop) : u.Everywhere prop := by
  induction h with
  | param | unbound => exact Tree.everywhere_leaf (hparam _) rfl
  | place hP => exact hplace _ _ _ hP
  | node parts _ hN _ hhead hu _ ih =>
      refine Tree.everywhere_iff.2 ⟨hnode _ _ hN hhead, fun c hc => ?_⟩
      rw [hu] at hc
      obtain ⟨x, hx, rfl⟩ := List.mem_map.1 hc
      exact ih x hx
  | lambda _ ih =>
      refine Tree.everywhere_single (hlambda _ _) rfl ?_
      exact ih

/-- A tree that stands alone has no references but parameters. -/
theorem Tree.Standalone.inert (h : t.Standalone V b) : t.Inert :=
  Paired.everywhere h (fun r _ => ⟨r, rfl⟩) (fun _ _ h => by cases h)
    (fun _ _ ht hu href => by rw [refersToDual_head hu, ht] at href; cases href) fun _ _ _ h => h.elim

/-! ## Builders -/

/-- Reads of the arguments at the same position, which is taken as a function if the flag there says so. -/
inductive SameRead (flags : List Bool) (cs cs' : List Captured) : Bool → Expr → Expr → Prop
  | intro {index : Nat} {b : Bool} {c c' : Captured} (id id' : Nat) : flags[index]? = some b →
      cs[index]? = some c → cs'[index]? = some c' → SameRead flags cs cs' b (c.read id) (c'.read id')

/-- The same lambdas but for what they declare and for reads of the arguments, if they take one parameter.
No other node of theirs reads a field like those in which closures keep the arguments. -/
def Lambda.Corresponds (V : Vocabulary) (formals : List FormalParam) (flags : List Bool)
    (cs cs' : List Captured) (l l' : Lam) : Prop :=
  ∀ p, l.params = [p] → ∃ q, l'.params = [q] ∧
    Paired V (Tree.Apart formals) (SameRead flags cs cs') [(p, q)] false l.body l'.body

/-- **What the builder makes does not depend on the arguments,** but for the reads of them: if it makes
something of some arguments, it makes the same of any others. -/
def Parametric (host : Host) (V : Vocabulary) (build : BuilderId) (formals : List FormalParam)
    (flags : List Bool) : Prop :=
  ∀ cs cs' : List Captured, cs.map Captured.formal = formals → cs'.map Captured.formal = formals →
    ∀ I, Stable I → Matches host I (Lambda.Corresponds V formals flags cs cs')
      (fun E => host.buildTree E build cs) fun E => host.buildTree E build cs'

/-- Two fillings of a template are the same but for the parameter and the reads. -/
theorem Term.paired {template : Expr} (h : Term V (Tree.Apart formals) (Place flags) b template) {q q' : Param}
    {t u : Expr} (ht : template.Filled (Stands q cs) t) (hu : template.Filled (Stands q' cs') u) :
    Paired V (Tree.Apart formals) (SameRead flags cs cs') [(q, q')] b t u := by
  induction h generalizing t u with
  | param hplace =>
      change Stands q cs _ t at ht
      change Stands q' cs' _ u at hu
      cases hplace with
      | own =>
          rw [ht.of_own, hu.of_own]
          exact .param (by simp [Matched])
      | argument hb =>
          obtain ⟨c, i, hc, rfl⟩ := ht.of_argument
          obtain ⟨c', i', hc', rfl⟩ := hu.of_argument
          exact .place (.intro i i' hb hc hc')
  | @node t₀ parts hordinary hN hchildren _ ih =>
      have hparam := (hordinary.shape rfl).1
      obtain ⟨hhead, hts⟩ := (Tree.filled_node hparam).1 ht
      obtain ⟨hhead', hus⟩ := (Tree.filled_node hparam).1 hu
      have hlength := hts.length_eq
      rw [hchildren] at hts hus
      obtain ⟨qs, hflags, htq, huq, hq⟩ := beside_parts hts hus
      refine .node qs ?_ (Tree.apart_head hhead hN) htq.symm (hhead'.trans hhead.symm) huq.symm fun x hx => ?_
      · rw [hflags]
        exact hordinary.of_head hhead hlength.symm
      · obtain ⟨c, hc, hct, hcu⟩ := hq x hx
        exact ih _ hc hct hcu

/-- **Builders that fill a template do not depend on the arguments.** -/
theorem Builds.parametric {template : Expr} (h : Builds host build formals template)
    (htemplate : Term V (Tree.Apart formals) (Place flags) false template) :
    Parametric host V build formals flags := by
  intro cs cs' hcs hcs' I hI
  refine Matches.of_triples (h.triple hcs hI (fun _ hs => hs) (fun _ _ => Nat.zero_le _))
    (h.triple hcs' hI (fun _ hs => hs) (fun _ _ => Nat.zero_le _)) ?_
  rintro _ _ ⟨q, t, rfl, _, ht⟩ ⟨q', u, rfl, _, hu⟩ p hp
  cases hp
  exact ⟨q', rfl, htemplate.paired ht hu⟩

end DualForm
