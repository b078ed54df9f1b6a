import DualForm.Proofs.Factory.Pairing
import DualForm.Proofs.Factory.Refinement
import Mathlib.Logic.Relation

/-!
# Duals bound to two accessors

* `DeferredCall host V k build f₁ f₂ b₁ b₂ a₁ a₂` — a factory with two parameters of different names, made
  with an expression builder that does not depend on its arguments, and two trees to read them from.
* `Evaluation` — what the function form does: it reads the accessors, builds, and evaluates what is built.
* `Dual.OnlyForms F T d s` — of the dual, only functions with `F` and trees with `T` have been published.
  `BuiltAnew` and `BoundInTurn` are those that a dual bound to two accessors may publish.

Principal results: `DeferredCall.follows` — what is built from the values of the accessors is followed by
what is built from the accessors, with both bound at once; `DeferredCall.tree_triple` — the tree form binds
them one after the other; `tree_refines_function_deferred` — so the two forms agree where that comes to the
same, and when it does.
-/

namespace DualForm

open Act (Ensures)

section Independence

variable {host : Host} {I : Store → Prop} {V : Vocabulary} {N : Expr → Prop} {ends : Prop} {err P : Store → Prop}
  {k : Factory} {build : BuilderId} {f₁ f₂ : FormalParam} {b b₁ b₂ : Bool} {a a₁ a₂ t u : Expr}
  {flags : List Bool} {cs : List Captured} {Γ : List (Param × Param)} {d : Dual} {v w : Value} {i₁ i₂ n : Nat}

/-! ## Accessors -/

/-- The accessor `() => a`. -/
def Deferred.accessor (id : Nat) (a : Expr) : Compiled := ⟨⟨id, 0, .closure ⟨[], a⟩ []⟩, some ⟨[], a⟩, none⟩

theorem Deferred.ofLambda_ok {s s' : Store} {c : Compiled} (h : Deferred.ofLambda ⟨[], a⟩ s = .ok c s') :
    c = Deferred.accessor s.nextId a := by
  cases h
  rfl

/-- A run that keeps the invariant returns what it returns. -/
theorem Returns.ensures {α : Type} {x : Engine → Act α} (h : (x (machine host n)).Keeps I) :
    (x (machine host n)).Ensures I (Returns host I x) :=
  ⟨h, fun _ _ _ hs ha => .of_run hs ha⟩

/-- What comes back from some store with the invariant comes back from some store. -/
theorem Returns.anywhere {α : Type} {x : Engine → Act α} {y : α} (h : Returns host I x y) :
    Returns host (fun _ => True) x y := h.mono fun _ _ => trivial

section Reading

variable (hV : V.Closed) (hhost : V.Respected host) (hcall : V.Callable) (hI : Stable I)
include hV hhost hcall hI

/-- Reading an accessor evaluates its tree. -/
theorem accessor_ensures (ha : a.Standalone V b) (id n : Nat) :
    ((machine host n).call (Deferred.accessor id a).func []).Ensures I
      (Returns host I fun E => evaluate E [] a) := by
  cases n with
  | zero => exact Ensures.exhausted
  | succ n =>
      exact Returns.ensures (x := fun E => evaluate E [] a) (ha.follows hV hhost hcall hI [] n).keeps

/-- What the accessor has returned, its tree returns in every scope. -/
theorem Tree.Standalone.alike (ha : a.Standalone V b) (hv : Returns host I (fun E => evaluate E [] a) v)
    (ρ : Scope) : Follows host I (Alike host I V b) (pure v) fun E => evaluate E ρ a := by
  obtain ⟨n, s, s', hs, hrun⟩ := hv
  exact Ensures.pure ((ha.follows hV hhost hcall hI ρ n).result s v s' hs hrun)

end Reading

/-! ## Reads and what is bound for them -/

/-- A read of an argument, and the tree for it. -/
inductive Supplied (flags : List Bool) (cs : List Captured) (as : List Expr) : Bool → Expr → Expr → Prop
  | intro {index : Nat} {b : Bool} {c : Captured} {a : Expr} (id : Nat) : flags[index]? = some b →
      cs[index]? = some c → as[index]? = some a → Supplied flags cs as b (c.read id) a

/-- Where reads of two arguments stand on the right, binding these supplies the trees for them. -/
theorem SameRead.bindTogether {cs' : List Captured} (hcs' : cs'.map Captured.formal = [f₁, f₂])
    (hne : f₁.name ≠ f₂.name) (h : SameRead flags cs cs' b t u) :
    Supplied flags cs [a₁, a₂] b t (Tree.bindTogether f₁ a₁ f₂ a₂ u) := by
  match cs', hcs' with
  | [c₁, c₂], hcs' =>
      cases hcs'
      cases h with
      | @intro index b c c' id id' hb hc hc' =>
          match index, hc' with
          | 0, hc' =>
              cases hc'
              rw [Tree.bindTogether_eq, if_pos (c₁.isCapture_read id')]
              exact .intro id hb hc rfl
          | 1, hc' =>
              cases hc'
              rw [Tree.bindTogether_eq, if_neg (by simp [c₂.isCapture_read_other id' hne.symm]),
                if_pos (c₂.isCapture_read id')]
              exact .intro id hb hc rfl

theorem Paired.bindTogether {cs' : List Captured} (hcs' : cs'.map Captured.formal = [f₁, f₂])
    (hne : f₁.name ≠ f₂.name) (h : Paired V (Tree.Apart [f₁, f₂]) (SameRead flags cs cs') Γ b t u) :
    Paired V (Tree.Apart [f₁, f₂]) (Supplied flags cs [a₁, a₂]) Γ b t (Tree.bindTogether f₁ a₁ f₂ a₂ u) := by
  refine h.map_right (fun _ => rfl) (fun _ _ => rfl) (fun t u ht hu => ?_)
    fun _ _ _ h => h.bindTogether hcs' hne
  have hapart := Tree.apart_head hu ht
  exact Tree.bindTogether_parts (Tree.isCapture_of_apart hapart (by simp))
    (Tree.isCapture_of_apart hapart (by simp))

/-- Fields like those of the arguments are read on literals only, in what is built. -/
theorem Paired.onLiterals {formals : List FormalParam} {cs' : List Captured} (hf : f₂ ∈ formals)
    (h : Paired V (Tree.Apart formals) (SameRead flags cs cs') Γ b t u) : u.OnLiterals f₂ := by
  refine h.everywhere (fun _ target m h => by cases h) (fun _ _ target m h => by cases h)
    (fun t u ht hu target m hm hnames => ?_) ?_
  · exact absurd hnames ((Tree.apart_head hu ht).2 target m hm f₂ hf)
  · rintro _ _ _ ⟨id, id', _, _, _⟩
    exact Captured.onLiterals_read _ _

/-- With trees without references for its reads, what is built has none. -/
theorem Paired.inert {formals : List FormalParam} {as : List Expr} (has : ∀ a ∈ as, a.Inert)
    (h : Paired V (Tree.Apart formals) (Supplied flags cs as) Γ b t u) : u.Inert := by
  refine h.everywhere (fun r _ => ⟨r, rfl⟩) (fun _ _ h => by cases h) (fun t u ht hu href => ?_) ?_
  · rw [refersToDual_head hu, ht.1] at href
    cases href
  · rintro _ _ _ ⟨id, _, _, ha⟩
    exact has _ (List.mem_of_getElem? ha)

theorem Tree.Inert.bindArgument {formal : FormalParam} (ht : t.Inert) (ha : a.Inert) :
    (Tree.bindArgument formal a t).Inert := by
  refine Tree.Everywhere.bindArgument (fun {t u} hu ht href => ?_) ha ht
  rw [refersToDual_head hu] at href
  obtain ⟨r, rfl⟩ := ht href
  cases u <;> cases hu
  exact ⟨r, rfl⟩

/-- What the builder makes of any arguments, it makes of these. -/
theorem Parametric.triple {formals : List FormalParam} (h : Parametric host V build formals flags)
    (hcs : cs.map Captured.formal = formals) (hP : Stable P) (herr : ∀ s, P s → err s)
    (hends : ends → ∃ cs₀ l₀, cs₀.map Captured.formal = formals ∧
      Returns host (fun _ => True) (fun E => host.buildTree E build cs₀) l₀) :
    Triple host ends err P
      (fun l s => Returns host (fun _ => True) (fun E => host.buildTree E build cs) l ∧ P s)
      fun E => host.buildTree E build cs := by
  have hkeeps := (h cs cs hcs hcs P hP).keeps
  refine ⟨fun n s l t hs hl => ⟨.of_run trivial hl, (hkeeps n).ok hl hs⟩, fun n s e t hs he => ?_,
    fun hends' s _ => ?_⟩
  · have hafter := (hkeeps n).after s hs
    rw [Act.final_error he] at hafter
    exact herr t hafter
  · obtain ⟨cs₀, l₀, hcs₀, hl₀⟩ := hends hends'
    exact (h cs₀ cs hcs₀ hcs _ stable_true).reaches hl₀ s trivial

/-! ## What has been published -/

/-- Of the dual, only functions with `F` and trees with `T` have been published. Nothing is under new
identities. -/
structure Dual.OnlyForms (F : Func → Prop) (T : Lam → Prop) (d : Dual) (s : Store) : Prop where
  fresh : Fresh s
  known : d.id < s.nextId
  function : ∀ f, s.functions[d.id]? = some f → F f
  tree : ∀ l, s.trees[d.id]? = some l → T l

namespace Dual.OnlyForms

variable {F : Func → Prop} {T : Lam → Prop} {s : Store}

theorem stable : Stable (d.OnlyForms F T) := by
  intro s t hs htrees hfunctions hnext
  refine ⟨⟨fun id hid => ?_, fun id hid => ?_⟩, Nat.lt_of_lt_of_le hs.known hnext, ?_, ?_⟩
  · rw [htrees]; exact hs.fresh.trees id (Nat.le_trans hnext hid)
  · rw [hfunctions]; exact hs.fresh.functions id (Nat.le_trans hnext hid)
  · rw [hfunctions]; exact hs.function
  · rw [htrees]; exact hs.tree

theorem writeFunction {f : Func} (h : d.OnlyForms F T s) (hf : F f) :
    d.OnlyForms F T ((Slot.function d).write f s) := by
  refine ⟨⟨h.fresh.trees, fun id hid => ?_⟩, h.known, fun g hg => ?_, h.tree⟩
  · rw [functions_write, if_neg (Nat.ne_of_lt (Nat.lt_of_lt_of_le h.known hid))]
    exact h.fresh.functions id hid
  · rw [functions_write, if_pos rfl] at hg
    cases hg
    exact hf

theorem writeTree {l : Lam} (h : d.OnlyForms F T s) (hl : T l) :
    d.OnlyForms F T ((Slot.tree d).write l s) := by
  refine ⟨⟨fun id hid => ?_, h.fresh.functions⟩, h.known, h.function, fun k hk => ?_⟩
  · rw [trees_write, if_neg (Nat.ne_of_lt (Nat.lt_of_lt_of_le h.known hid))]
    exact h.fresh.trees id hid
  · rw [trees_write, if_pos rfl] at hk
    cases hk
    exact hl

/-- Using the dual keeps this, if each use does. -/
theorem uses {t : Store} (hV : ∀ n v, V.data v → (d.evaluate (machine host n) v).Keeps (d.OnlyForms F T))
    (htree : ∀ n, ((machine host n).tree d).Keeps (d.OnlyForms F T))
    (hfunction : ∀ n, ((machine host n).function d).Keeps (d.OnlyForms F T)) (hs : d.OnlyForms F T s)
    (h : Relation.ReflTransGen (Uses host V [d]) s t) : d.OnlyForms F T t := by
  induction h with
  | refl => exact hs
  | @tail s' t _ hst ih =>
      cases hst with
      | tree n he =>
          obtain rfl := List.mem_singleton.1 he
          exact (htree n).after _ ih
      | function n he =>
          obtain rfl := List.mem_singleton.1 he
          exact (hfunction n).after _ ih
      | evaluate n he hv =>
          obtain rfl := List.mem_singleton.1 he
          exact (hV n _ hv).after _ ih
      | elsewhere htrees hfunctions hnext hfresh =>
          have hd := List.mem_singleton.2 (rfl : d = d)
          refine ⟨hfresh, Nat.lt_of_lt_of_le ih.known hnext, ?_, ?_⟩
          · rw [hfunctions d hd]; exact ih.function
          · rw [htrees d hd]; exact ih.tree

end Dual.OnlyForms

/-! ## The call -/

/-- A factory with two parameters of different names, made with an expression builder that does not depend on
its arguments, and trees without parameters to read these from. The flags say which of them are functions. -/
structure DeferredCall (host : Host) (V : Vocabulary) (k : Factory) (build : BuilderId) (f₁ f₂ : FormalParam)
    (b₁ b₂ : Bool) (a₁ a₂ : Expr) : Prop where
  unbound : k.bound = []
  builders : k.builders = .tree build
  formals : k.openParams = [f₁, f₂]
  distinct : f₁.name ≠ f₂.name
  parametric : Parametric host V build [f₁, f₂] [b₁, b₂]
  first : a₁.Standalone V b₁
  second : a₂.Standalone V b₂

/-- The parameters with the accessors bound to them. -/
def Bindings.deferred (f₁ f₂ : FormalParam) (i₁ i₂ : Nat) (a₁ a₂ : Expr) : Bindings :=
  [(f₁, .deferred (Deferred.accessor i₁ a₁)), (f₂, .deferred (Deferred.accessor i₂ a₂))]

/-- What the tree builder sees of them. -/
def Captured.accessors (f₁ f₂ : FormalParam) (i₁ i₂ : Nat) (a₁ a₂ : Expr) : List Captured :=
  [⟨f₁, .accessor (Deferred.accessor i₁ a₁).func⟩, ⟨f₂, .accessor (Deferred.accessor i₂ a₂).func⟩]

/-- What the function form does with `v`: it reads the accessors, builds a lambda from their values, and
evaluates its body. -/
inductive Evaluation (host : Host) (I : Store → Prop) (build : BuilderId) (f₁ f₂ : FormalParam) (a₁ a₂ : Expr)
    (v : Value) : Value → Prop
  | intro {v₁ v₂ w : Value} {q : Param} {u : Expr} : Returns host I (fun E => evaluate E [] a₁) v₁ →
      Returns host I (fun E => evaluate E [] a₂) v₂ →
      Returns host I (fun E => host.buildTree E build [⟨f₁, .value v₁⟩, ⟨f₂, .value v₂⟩]) ⟨[q], u⟩ →
      Returns host I (fun E => evaluate E [(q, v)] u) w → Evaluation host I build f₁ f₂ a₁ a₂ v w

/-- The trees that may be published: what is built from the accessors, with these bound one after the
other. -/
def BoundInTurn (host : Host) (build : BuilderId) (f₁ f₂ : FormalParam) (i₁ i₂ : Nat) (a₁ a₂ : Expr)
    (l : Lam) : Prop :=
  ∃ q u, Returns host (fun _ => True) (fun E => host.buildTree E build (Captured.accessors f₁ f₂ i₁ i₂ a₁ a₂))
    ⟨[q], u⟩ ∧ l = ⟨[q], Tree.bindArguments f₁ a₁ f₂ a₂ u⟩

/-- The functions that may be published: those that read the accessors and build anew on every call. -/
def BuiltAnew (build : BuilderId) (f₁ f₂ : FormalParam) (i₁ i₂ : Nat) (a₁ a₂ : Expr) (f : Func) : Prop :=
  ∃ id, f = ⟨id, 1, .rebuilt (.tree build) (Bindings.deferred f₁ f₂ i₁ i₂ a₁ a₂)⟩

/-- The function form builds anew on every call. -/
theorem function_builtAnew (ho : d.origin = .bound (.tree build) (Bindings.deferred f₁ f₂ i₁ i₂ a₁ a₂))
    {T : Lam → Prop} (n : Nat) :
    ((machine host n).function d).Ensures (d.OnlyForms (BuiltAnew build f₁ f₂ i₁ i₂ a₁ a₂) T)
      (BuiltAnew build f₁ f₂ i₁ i₂ a₁ a₂) := by
  cases n with
  | zero => exact Ensures.exhausted
  | succ n =>
      have hinitial : d.initialFunction host (machine host n) =
          Act.newFunc 1 (.rebuilt (.tree build) (Bindings.deferred f₁ f₂ i₁ i₂ a₁ a₂)) := by
        unfold Dual.initialFunction
        rw [ho]
        rfl
      rw [machine_function]
      unfold Dual.forceFunction
      rw [hinitial]
      exact publishOnce_ensures (newFunc_ensures Dual.OnlyForms.stable ..)
        (fun s f hs hf => hs.function f hf) fun s f _ hs hf => hs.writeFunction hf

namespace DeferredCall

section Evaluating

variable (hV : V.Closed) (hhost : V.Respected host) (hcall : V.Callable)
  (hc : DeferredCall host V k build f₁ f₂ b₁ b₂ a₁ a₂)
include hV hhost hcall hc

/-- **What is built from the values of the accessors is followed by what is built from the accessors,** with
both of them bound at once. -/
theorem follows (hI : Stable I) (hv : V.data v) {v₁ v₂ : Value} {q q' : Param} {u u' : Expr}
    (h₁ : Returns host I (fun E => evaluate E [] a₁) v₁) (h₂ : Returns host I (fun E => evaluate E [] a₂) v₂)
    (hu : Returns host I (fun E => host.buildTree E build [⟨f₁, .value v₁⟩, ⟨f₂, .value v₂⟩]) ⟨[q], u⟩)
    (hu' : Returns host I (fun E => host.buildTree E build (Captured.accessors f₁ f₂ i₁ i₂ a₁ a₂)) ⟨[q'], u'⟩)
    (n : Nat) : Follows host I (Shared V) (evaluate (machine host n) [(q, v)] u)
      fun E => evaluate E [(q', v)] (Tree.bindTogether f₁ a₁ f₂ a₂ u') := by
  obtain ⟨_, hq, hpaired⟩ := (hc.parametric _ _ rfl rfl I hI).related hu hu' q rfl
  cases hq
  have hsupplied : Paired V _ (Supplied _ _ [a₁, a₂]) _ false u (Tree.bindTogether f₁ a₁ f₂ a₂ u') :=
    hpaired.bindTogether rfl hc.distinct
  refine (hsupplied.follows hV hhost hcall hI ?_ ((Bound.nil []).cons hv) n).imp fun _ _ => alike_false.1
  intro b t w hread σ ρ m
  cases hread with
  | @intro index b c a id hb hread ha =>
      refine Follows.congr (Captured.evaluate_read ..) (fun _ => rfl) ?_
      match index, hb, hread, ha with
      | 0, hb, hread, ha =>
          cases hb; cases hread; cases ha
          exact hc.first.alike hV hhost hcall hI h₁ ρ
      | 1, hb, hread, ha =>
          cases hb; cases hread; cases ha
          exact hc.second.alike hV hhost hcall hI h₂ ρ

/-- The function form, called. -/
theorem call_ensures (hI : Stable I) (hv : V.data v) (i n : Nat) :
    ((machine host n).call ⟨i, 1, .rebuilt (.tree build) (Bindings.deferred f₁ f₂ i₁ i₂ a₁ a₂)⟩ [v]).Ensures I
      (Evaluation host I build f₁ f₂ a₁ a₂ v) := by
  cases n with
  | zero => exact Ensures.exhausted
  | succ n =>
      have hbuilt : ∀ E, Bindings.built host E (.tree build) (Bindings.deferred f₁ f₂ i₁ i₂ a₁ a₂) = (do
          let v₁ ← E.call (Deferred.accessor i₁ a₁).func []
          let v₂ ← E.call (Deferred.accessor i₂ a₂).func []
          let l ← host.buildTree E build [⟨f₁, .value v₁⟩, ⟨f₂, .value v₂⟩]
          compile l) := by
        intro E
        simp [Bindings.built, Bindings.resolved, Bindings.deferred, Argument.resolved, Deferred.get,
          Builders.buildFunction]
      rw [call_rebuilt, hbuilt]
      simp only [bind_assoc]
      refine (accessor_ensures hV hhost hcall hI hc.first i₁ n).bind fun v₁ h₁ => ?_
      refine (accessor_ensures hV hhost hcall hI hc.second i₂ n).bind fun v₂ h₂ => ?_
      have hmatches := hc.parametric [⟨f₁, .value v₁⟩, ⟨f₂, .value v₂⟩]
        (Captured.accessors f₁ f₂ i₁ i₂ a₁ a₂) rfl rfl I hI
      refine (Returns.ensures (x := fun E => host.buildTree E build _) (hmatches.keeps n)).bind fun l hl => ?_
      refine (newFunc_ensures hI l.arity (.closure l [])).bind ?_
      rintro _ ⟨id', rfl⟩
      cases n with
      | zero => exact Ensures.exhausted
      | succ n =>
          obtain ⟨ps, u⟩ := l
          by_cases hsingle : ∃ q, ps = [q]
          · obtain ⟨q, rfl⟩ := hsingle
            -- evaluating keeps the invariant since it is followed by what is built from the accessors
            obtain ⟨_, s, _, hs, _⟩ := id hl
            obtain ⟨⟨ps', u'⟩, s', hreach⟩ := hmatches.reaches hl s hs
            have hu' := Returns.of_reaches hs hreach
            obtain ⟨q', rfl, _⟩ := hmatches.related hl hu' q rfl
            refine (Returns.ensures (x := fun E => evaluate E [(q, v)] u) ?_).imp fun w hw =>
              .intro h₁ h₂ hl hw
            exact (hc.follows hV hhost hcall hI hv h₁ h₂ hl hu' n).keeps
          · have hlength : [v].length ≠ (Lambda.mk ps u).arity := by
              intro h
              exact hsingle (List.length_eq_one_iff.1 h.symm)
            show (Func.apply host _ _ [v]).Ensures I _
            unfold Func.apply
            rw [if_pos hlength]
            exact Ensures.fail _

/-- **What evaluating the dual returns** comes from its accessors, what is built from their values, and the
evaluation of that. -/
theorem evaluate_ensures (ho : d.origin = .bound (.tree build) (Bindings.deferred f₁ f₂ i₁ i₂ a₁ a₂))
    {T : Lam → Prop} (hv : V.data v) (n : Nat) :
    (d.evaluate (machine host n) v).Ensures (d.OnlyForms (BuiltAnew build f₁ f₂ i₁ i₂ a₁ a₂) T)
      (Evaluation host (d.OnlyForms (BuiltAnew build f₁ f₂ i₁ i₂ a₁ a₂) T) build f₁ f₂ a₁ a₂ v) := by
  refine (function_builtAnew ho n).bind ?_
  rintro _ ⟨i, rfl⟩
  exact hc.call_ensures hV hhost hcall Dual.OnlyForms.stable hv i n

end Evaluating

variable (hc : DeferredCall host V k build f₁ f₂ b₁ b₂ a₁ a₂)
include hc

/-- Reads of the second argument on other than literals cannot come about by binding the first one. -/
theorem onLiterals {q : Param} (hu : Returns host (fun _ => True)
      (fun E => host.buildTree E build (Captured.accessors f₁ f₂ i₁ i₂ a₁ a₂)) ⟨[q], u⟩) :
    u.OnLiterals f₂ := by
  obtain ⟨_, _, hself⟩ := (hc.parametric _ _ rfl rfl _ stable_true).related hu hu q rfl
  exact hself.onLiterals (by simp)

/-- No pass has anything to do in a tree that may be published. -/
theorem inert {q : Param} (hu : Returns host (fun _ => True)
      (fun E => host.buildTree E build (Captured.accessors f₁ f₂ i₁ i₂ a₁ a₂)) ⟨[q], u⟩) :
    (Tree.bindArguments f₁ a₁ f₂ a₂ u).Inert := by
  obtain ⟨_, _, hself⟩ := (hc.parametric _ _ rfl rfl _ stable_true).related hu hu q rfl
  rw [Tree.bindArguments_eq_bindTogether (hc.onLiterals hu)]
  refine Paired.inert (fun a ha => ?_) (hself.bindTogether rfl hc.distinct)
  simp only [List.mem_cons, List.not_mem_nil, or_false] at ha
  rcases ha with rfl | rfl
  · exact hc.first.inert.bindArgument hc.second.inert
  · exact hc.second.inert

/-- The accessors are bound one after the other in what is built. -/
theorem raw_triple (hP : Stable P) (herr : ∀ s, P s → err s) (hends : ends → ∃ cs q u,
      cs.map Captured.formal = [f₁, f₂] ∧
        Returns host (fun _ => True) (fun E => host.buildTree E build cs) ⟨[q], u⟩) :
    Triple host ends err P (fun l s => BoundInTurn host build f₁ f₂ i₁ i₂ a₁ a₂ l ∧ P s)
      fun E => Bindings.tree host E (.tree build) (Bindings.deferred f₁ f₂ i₁ i₂ a₁ a₂) := by
  have hraw : ∀ E, Bindings.tree host E (.tree build) (Bindings.deferred f₁ f₂ i₁ i₂ a₁ a₂) = (do
      let l ← host.buildTree E build (Captured.accessors f₁ f₂ i₁ i₂ a₁ a₂)
      let _ ← Act.lift (l.expectSingle "expression")
      return { l with body := Tree.bindArguments f₁ a₁ f₂ a₂ l.body }) := by
    intro E
    simp [Bindings.tree, Builders.buildTree, Bindings.deferred, Bindings.splice, Deferred.body, Compiled.tree,
      Deferred.accessor, Captured.accessors, Argument.captured, Tree.bindArguments]
  refine Triple.congr hraw ((hc.parametric.triple rfl hP herr fun h => ?_).bind fun l =>
    Triple.assuming (fun s hs => hs.1) fun hl => ?_)
  · obtain ⟨cs, q, u, hcs, hu⟩ := hends h
    exact ⟨cs, _, hcs, hu⟩
  obtain ⟨ps, u⟩ := l
  by_cases hsingle : ∃ q, ps = [q]
  · obtain ⟨q, rfl⟩ := hsingle
    refine (Triple.lift (Q := fun _ => P) (a := q) rfl fun s hs => hs.2).bind fun _ => ?_
    exact Triple.pure fun s hs => ⟨⟨q, u, hl, rfl⟩, hs⟩
  · have hnone : ¬ ends := by
      intro h
      obtain ⟨cs, q, u, hcs, hu⟩ := hends h
      obtain ⟨q', hq', _⟩ := (hc.parametric _ _ hcs rfl _ stable_true).related hu hl q rfl
      exact hsingle ⟨q', hq'⟩
    cases hparam : (Lambda.mk ps u).expectSingle "expression" with
    | ok q => exact absurd ⟨q, Lambda.expectSingle_ok.1 hparam⟩ hsingle
    | error e =>
        exact (Triple.fail (Q := fun _ _ => False) hnone (fun s hs => herr s hs.2) e).bind fun _ =>
          Triple.of_each fun _ h => h.elim

/-- **The tree form binds the accessors one after the other.** -/
theorem tree_triple (ho : d.origin = .bound (.tree build) (Bindings.deferred f₁ f₂ i₁ i₂ a₁ a₂))
    {F : Func → Prop} (hends : ends → ∃ cs q u, cs.map Captured.formal = [f₁, f₂] ∧
        Returns host (fun _ => True) (fun E => host.buildTree E build cs) ⟨[q], u⟩) :
    Triple host ends (d.OnlyForms F (BoundInTurn host build f₁ f₂ i₁ i₂ a₁ a₂))
      (d.OnlyForms F (BoundInTurn host build f₁ f₂ i₁ i₂ a₁ a₂))
      (fun l s => BoundInTurn host build f₁ f₂ i₁ i₂ a₁ a₂ l ∧
        d.OnlyForms F (BoundInTurn host build f₁ f₂ i₁ i₂ a₁ a₂) s) fun E => E.tree d := by
  refine Triple.step (y := fun E => d.forceTree host E) rfl (fun _ => rfl) (fun _ hs => hs)
    (Triple.publishOnce (Q := fun l s => BoundInTurn host build f₁ f₂ i₁ i₂ a₁ a₂ l ∧
      d.OnlyForms F (BoundInTurn host build f₁ f₂ i₁ i₂ a₁ a₂) s) ?_ ?_ ?_ ?_)
  · exact fun s l hs hl => ⟨hs.tree l hl, hs⟩
  · refine Triple.congr (y := fun E => do
      rewriteLambda E (← Bindings.tree host E (.tree build) (Bindings.deferred f₁ f₂ i₁ i₂ a₁ a₂)))
      (fun E => ?_) ?_
    · unfold Dual.initialTree
      rw [ho]
    refine ((hc.raw_triple Dual.OnlyForms.stable (fun _ hs => hs) hends).imp (fun s hs => hs.1)
      fun _ _ h => h).bind fun l => Triple.assuming (fun s hs => hs.1) ?_
    rintro ⟨q, u, hu, rfl⟩
    refine (rewriteLambda_inert_triple (hc.inert hu) fun s hs => hs).imp (fun s hs => hs.2) ?_
    rintro _ s ⟨rfl, hs⟩
    exact ⟨⟨q, u, hu, rfl⟩, hs⟩
  · exact fun s l l' hl hl' => ⟨hl.2.tree l' hl', hl.2⟩
  · exact fun s l hl _ => ⟨hl.1, hl.2.writeTree hl.1⟩

/-- What has been published of a dual that has just been made. -/
theorem made {s t : Store} {c₁ c₂ : Compiled} (h₁ : c₁ = Deferred.accessor i₁ a₁)
    (h₂ : c₂ = Deferred.accessor i₂ a₂) (hs : Fresh s)
    (hd : k.bindArguments [.deferred c₁, .deferred c₂] s = .ok (.dual d) t) {F : Func → Prop} {T : Lam → Prop} :
    d.origin = .bound (.tree build) (Bindings.deferred f₁ f₂ i₁ i₂ a₁ a₂) ∧ d.OnlyForms F T t := by
  subst h₁ h₂
  rw [bindArguments_all (congrArg List.length hc.formals).symm, hc.unbound, hc.formals] at hd
  cases hd
  refine ⟨by rw [hc.builders]; rfl, ⟨fun id hid => ?_, fun id hid => ?_⟩, Nat.lt_succ_self _, fun f hf => ?_,
    fun l hl => ?_⟩
  · exact hs.trees id (Nat.le_of_succ_le hid)
  · exact hs.functions id (Nat.le_of_succ_le hid)
  · cases (hs.functions s.nextId (Nat.le_refl _)).symm.trans hf
  · cases (hs.trees s.nextId (Nat.le_refl _)).symm.trans hl

end DeferredCall

/-- **Accessors bound one after the other.** Take a factory with two parameters of different names, made with
an expression builder whose lambdas depend on the arguments through the reads of them only, refer to no duals
and read no other closures like those of the arguments, and a dual that binds accessors over host code to
both. If evaluating the dual returns something, it has a tree form, whatever is done with it in between: what
the builder makes of the accessors, with these bound one after the other. That is both bound at once exactly
if the first argument is not read or nothing is bound in the first accessor, and if it is, the tree form
returns the same, compiled and called, in every store. -/
theorem tree_refines_function_deferred (hV : V.Closed) (hhost : V.Respected host) (hcall : V.Callable)
    (hc : DeferredCall host V k build f₁ f₂ b₁ b₂ a₁ a₂) {r₁ r₁' r₂ r₂' s₀ s₁ s s' t : Store}
    {c₁ c₂ : Compiled} (h₁ : Deferred.ofLambda ⟨[], a₁⟩ r₁ = .ok c₁ r₁')
    (h₂ : Deferred.ofLambda ⟨[], a₂⟩ r₂ = .ok c₂ r₂') (hs₀ : Fresh s₀)
    (hd : k.bindArguments [.deferred c₁, .deferred c₂] s₀ = .ok (.dual d) s₁)
    (hs : Relation.ReflTransGen (Uses host V [d]) s₁ s) (hs' : Relation.ReflTransGen (Uses host V [d]) s₁ s')
    (hv : V.data v) (hw : d.evaluate (machine host n) v s = .ok w t) :
    ∃ q u t', Returns host (fun _ => True)
        (fun E => host.buildTree E build [⟨f₁, .accessor c₁.func⟩, ⟨f₂, .accessor c₂.func⟩]) ⟨[q], u⟩ ∧
      Reaches host (fun E => E.tree d) s' ⟨[q], Tree.bindArguments f₁ a₁ f₂ a₂ u⟩ t' ∧
      (Tree.bindArguments f₁ a₁ f₂ a₂ u = Tree.bindTogether f₁ a₁ f₂ a₂ u ↔
        u.Uncaptured f₁ ∨ Tree.bindArgument f₂ a₂ a₁ = a₁) ∧
      (Tree.bindArguments f₁ a₁ f₂ a₂ u = Tree.bindTogether f₁ a₁ f₂ a₂ u → ∀ s₂, ∃ s₃,
        Reaches host (fun E => Lambda.compute E ⟨[q], Tree.bindArguments f₁ a₁ f₂ a₂ u⟩ v) s₂ w s₃) := by
  obtain ⟨ho, hmade⟩ := hc.made (Deferred.ofLambda_ok h₁) (Deferred.ofLambda_ok h₂) hs₀ hd
    (F := BuiltAnew build f₁ f₂ r₁.nextId r₂.nextId a₁ a₂)
    (T := BoundInTurn host build f₁ f₂ r₁.nextId r₂.nextId a₁ a₂)
  obtain rfl := Deferred.ofLambda_ok h₁
  obtain rfl := Deferred.ofLambda_ok h₂
  have hkept : ∀ {s}, Relation.ReflTransGen (Uses host V [d]) s₁ s → d.OnlyForms
      (BuiltAnew build f₁ f₂ r₁.nextId r₂.nextId a₁ a₂)
      (BoundInTurn host build f₁ f₂ r₁.nextId r₂.nextId a₁ a₂) s := fun huses =>
    hmade.uses (fun n v hv => (hc.evaluate_ensures hV hhost hcall ho hv n).keeps)
      (hc.tree_triple ho False.elim).keeps (fun n => (function_builtAnew ho n).keeps) huses
  cases (hc.evaluate_ensures hV hhost hcall ho hv n).result s w t (hkept hs) hw with
  | @intro v₁ v₂ _ q₀ u₀ hv₁ hv₂ hu₀ hw₀ =>
      obtain ⟨l, t', hreach, ⟨q, u, hu, rfl⟩, _⟩ := (hc.tree_triple ho fun _ : True =>
        ⟨_, q₀, u₀, rfl, hu₀.anywhere⟩).arrives trivial (hkept hs')
      refine ⟨q, u, t', hu, hreach, Tree.bindArguments_eq_iff (hc.onLiterals hu), fun heq => ?_⟩
      refine compute_of_reaches rfl fun s₂ => ?_
      obtain ⟨m, s₃, s₄, _, hrun⟩ := hw₀
      obtain ⟨w', t₂, hw', _, _, rfl⟩ := (hc.follows hV hhost hcall stable_true hv hv₁.anywhere hv₂.anywhere
        hu₀.anywhere hu m).result s₃ w s₄ trivial hrun s₂ trivial
      rw [heq]
      exact ⟨t₂, hw'⟩

end Independence

/-! ## Accessors that read what another closure captured -/

namespace Nested

/-- A parameter of another factory. -/
def j : FormalParam := ⟨"j", .int⟩

/-- `j + 5`, where another closure has captured `10` for `j`. -/
def offset : Expr :=
  .operation .add (Captured.read ⟨j, .value (.int 10)⟩ 0) (Tree.constant (.int 5))

/-- `100`. -/
def hundred : Expr := Tree.constant (.int 100)

/-- Scalars, and records of them, as data, and no host functions. -/
def vocabulary : Vocabulary where
  data v := v.isScalar = true ∨ ∃ id declaring fields, v = .record id declaring fields ∧
    ∀ x ∈ fields, x.2.isScalar = true
  host _ _ := False

theorem closed : vocabulary.Closed := by
  refine ⟨fun _ h => .inl h, fun id declaring fields name v h hv => .inl ?_⟩
  rcases h with h | ⟨_, _, _, h, hfields⟩
  · cases h
  · cases h
    unfold Datum.fieldOf? at hv
    obtain ⟨x, hx, rfl⟩ := Option.map_eq_some_iff.1 hv
    exact hfields x (List.mem_of_find?_eq_some hx)

theorem respected (host : Host) : vocabulary.Respected host := fun _ _ h => h.elim

theorem callable : vocabulary.Callable := by
  rintro f n (h | ⟨_, _, _, h, _⟩)
  · cases h
  · cases h

theorem term_constant (n : Int64) {R : Bool → Param → Prop} :
    Term vocabulary (fun u => u.refersToDual = false) R false (Tree.constant (.int n)) :=
  .node [] (.basic (.literal _ (.inl rfl))) rfl rfl (by simp)

theorem term_read {R : Bool → Param → Prop} (id : Nat) :
    Term vocabulary (fun u => u.refersToDual = false) R false (Captured.read ⟨j, .value (.int 10)⟩ id) := by
  refine .node [(false, _)] (.basic (.member _ .field)) rfl rfl fun x hx => ?_
  rw [List.mem_singleton.1 hx]
  refine .node [] (.basic (.literal _ (.inr ⟨_, _, _, rfl, fun x hx => ?_⟩))) rfl rfl (by simp)
  rw [List.mem_singleton.1 hx]
  rfl

theorem term_offset {R : Bool → Param → Prop} :
    Term vocabulary (fun u => u.refersToDual = false) R false offset :=
  Scaled.term_operation rfl (term_read 0) (term_constant 5)

theorem deferredCall : DeferredCall Scaled.registry.host vocabulary Scaled.factory 0 Scaled.k Scaled.m
    false false offset hundred where
  unbound := rfl
  builders := rfl
  formals := rfl
  distinct := by decide
  parametric := Scaled.builds.parametric <|
    Scaled.term_operation (Scaled.apart rfl fun _ _ h => by cases h) (.param .own) <|
      Scaled.term_operation (Scaled.apart rfl fun _ _ h => by cases h) (.param (.argument rfl))
        (.param (.argument rfl))
  first := term_offset.standalone
  second := (term_constant 100).standalone

/-- The dual that binds both. -/
def dual : Dual := ⟨3, .projection, .int, .int,
  .bound (.tree 0) (Bindings.deferred Scaled.k Scaled.m 1 2 offset hundred)⟩

/-- `1 + (10 + 5) * 100`. -/
theorem evaluate_one : ∃ t, dual.evaluate (machine Scaled.registry.host 4) (.int 1) (Scaled.store 4) =
    .ok (.int 1501) t :=
  ⟨_, (evaluate_first (.int 1) Std.HashMap.getElem?_empty rfl Std.HashMap.getElem?_empty).trans rfl⟩

end Nested

/-- The theorem at an accessor that reads what another closure has captured, under another name: nothing is
bound in it, and the two forms agree. -/
theorem tree_refines_function_nested : ∃ t l t' t'',
    Nested.dual.evaluate (machine Scaled.registry.host 4) (.int 1) (Scaled.store 4) = .ok (.int 1501) t ∧
      Reaches Scaled.registry.host (fun E => E.tree Nested.dual) (Scaled.store 4) l t' ∧
      Reaches Scaled.registry.host (fun E => Lambda.compute E l (.int 1)) t (.int 1501) t'' := by
  obtain ⟨t, ht⟩ := Nested.evaluate_one
  have hfirst : Deferred.ofLambda ⟨[], Nested.offset⟩ (Scaled.store 1) = .ok _ (Scaled.store 2) := rfl
  have hsecond : Deferred.ofLambda ⟨[], Nested.hundred⟩ (Scaled.store 2) = .ok _ (Scaled.store 3) := rfl
  obtain ⟨q, u, t', _, htree, hiff, hcompute⟩ := tree_refines_function_deferred Nested.closed
    (Nested.respected Scaled.registry.host) Nested.callable Nested.deferredCall hfirst hsecond
    (Scaled.fresh 3) rfl .refl .refl (.inl rfl) ht
  obtain ⟨t'', ht''⟩ := hcompute (hiff.2 (.inr rfl)) t
  exact ⟨t, _, t', t'', ht, htree, ht''⟩

end DualForm
