import DualForm.Host.Registry
import DualForm.Proofs.Factory.Binding
import DualForm.Proofs.Rewriting.Removal

/-!
# Duals that bind a factory in their tree

* `FactoryCall host V k build template p as b` — a factory made with an expression builder, and the trees
  over one parameter it is bound to and applied to.
* `FactoryCall.Computes` — in every store, the template with the arguments computes this value.
* `FactoryCall.Fits` — a lambda is the template with the arguments, over the parameter.
* `FactoryCall.Stage` — the tree of such a dual between two passes.
* `Recorded good p d l s` — what has been published of a dual of such a tree.

Principal results: `FactoryCall.evaluate_triple` — what evaluating the dual returns, the template with the
arguments computes; `FactoryCall.tree_recorded` — the tree form of the dual is the template with the
arguments; `tree_refines_function_bound` — so the tree form computes what the dual does.
-/

namespace DualForm

open Template (Place Stands)

section Refinement

variable {host : Host} {V : Vocabulary} {ends : Prop} {err P : Store → Prop} {k : Factory}
  {build : BuilderId} {template a b t u : Expr} {as : List Expr} {p q : Param} {d : Dual} {s : Store}
  {v w : Value} {ws : List Value} {wb : Value} {σ ρ : Scope}

/-- On data, the tree evaluates to nothing that is a function. -/
def Tree.NeverFunction (host : Host) (V : Vocabulary) (p : Param) (t : Expr) : Prop :=
  ∀ n v s w s', V.data v → evaluate (machine host n) [(p, v)] t s = .ok w s' → ∀ f, w ≠ .func f

/-- A factory made with an expression builder, the trees over one parameter to which its own
parameters are bound, and the tree on which the result is evaluated. -/
structure FactoryCall (host : Host) (V : Vocabulary) (k : Factory) (build : BuilderId) (template : Expr)
    (p : Param) (as : List Expr) (b : Expr) : Prop where
  unbound : k.bound = []
  builders : k.builders = .tree build
  builds : Builds host build k.openParams template
  template : Term V (Tree.Apart k.openParams) (Place (List.replicate k.openParams.length false)) false
    template
  plain : ∀ formal ∈ k.openParams, formal.ty.wrapper? = none
  distinct : (k.openParams.map FormalParam.name).Nodup
  length : k.openParams.length = as.length
  operands : ∀ a ∈ as, a.Over V k.openParams p
  argument : b.Over V k.openParams p
  values : ∀ a ∈ as, a.NeverFunction host V p

/-! ## Values at the places of a template -/

/-- The values that stand at the places: one for the parameter, and one for each argument. -/
inductive Template.Valued (wb : Value) (ws : List Value) : Param → Value → Prop
  | own : Valued wb ws Template.own wb
  | argument {index : Nat} {w : Value} : ws[index]? = some w →
      Valued wb ws (Template.argument index) w

theorem Template.Valued.unique {x : Param} (h : Template.Valued wb ws x v)
    (h' : Template.Valued wb ws x w) : v = w := by
  cases h with
  | own =>
      generalize hx : Template.own = x at h'
      cases h' with
      | own => rfl
      | argument => exact absurd hx (Template.own_ne_argument _)
  | @argument i _ hv =>
      generalize hx : Template.argument i = x at h'
      cases h' with
      | own => exact absurd hx.symm (Template.own_ne_argument _)
      | argument hw =>
          rw [Template.argument_inj hx, hw] at hv
          exact (Option.some.inj hv).symm

/-- What stands at a place recurs with its value. -/
def Template.Holds (host : Host) (V : Vocabulary) (wb : Value) (ws : List Value) (σ : Scope) (x : Param)
    (u : Expr) : Prop :=
  ∃ w, Template.Valued wb ws x w ∧ V.data w ∧ Recurs host (fun E => evaluate E σ u) w

/-- Two ways to fill a template with the same values follow one another. -/
theorem holds_follow (hV : V.Closed) (hhost : V.Respected host) (hcall : V.Callable) {N : Expr → Prop}
    {m : Nat} (htemplate : Term V N (Place (List.replicate m false)) false template)
    (ht : template.Filled (Template.Holds host V wb ws σ) t)
    (hu : template.Filled (Template.Holds host V wb ws ρ) u) {I : Store → Prop} (hI : Stable I) (n : Nat) :
    Follows host I (Shared V) (evaluate (machine host n) σ t) fun E => evaluate E ρ u := by
  refine (Term.follows hV hhost hcall hI htemplate ht hu ?_).imp fun _ _ => alike_false.1
  rintro c x t u hplace ⟨v, hv, hdata, htv⟩ ⟨w, hw, _, huw⟩
  obtain rfl := hv.unique hw
  obtain rfl : c = false := by
    cases hplace with
    | own => rfl
    | argument hc => exact List.eq_of_mem_replicate (List.mem_of_getElem? hc)
  exact htv.follows huw hI (.data hdata) n

/-- Reads of captured values hold them. -/
theorem Template.Stands.holds {formals : List FormalParam} {x : Param}
    (h : Stands q (Captured.ofValues (formals.zip ws)) x u) (hws : ∀ w ∈ ws, V.data w) (hwb : V.data wb) :
    Template.Holds host V wb ws [(q, wb)] x u := by
  cases h with
  | own => exact ⟨wb, .own, hwb, (Recurs.pure wb).congr fun E => evaluate_own q wb⟩
  | @argument index c id hc =>
      obtain ⟨⟨formal, w⟩, hx, rfl⟩ := Captured.ofValues_get hc
      have hw := (List.getElem?_zip_eq_some.1 hx).2
      refine ⟨w, .argument hw, hws w (List.mem_of_getElem? hw), ?_⟩
      exact (Recurs.pure w).congr fun E => Captured.evaluate_read _ id

/-- Arguments, and reads of their values, hold these. -/
theorem Spliced.holds {formals : List FormalParam} {x : Param} (h : Spliced host V formals as b x u)
    (has : List.Forall₂ (fun a w => V.data w ∧ Recurs host (fun E => evaluate E σ a) w) as ws)
    (hwb : V.data wb) (hb : Recurs host (fun E => evaluate E σ b) wb) :
    Template.Holds host V wb ws σ x u := by
  cases h with
  | own => exact ⟨wb, .own, hwb, hb⟩
  | deferred ha =>
      obtain ⟨w, hw, hdata, hrecurs⟩ := forall₂_getElem? has.flip ha
      exact ⟨w, .argument hw, hdata, hrecurs⟩
  | @value _ _ _ w id ha _ hdata hrecurs =>
      obtain ⟨w', hw, _, hrecurs'⟩ := forall₂_getElem? has.flip ha
      obtain rfl := (hrecurs σ).unique hrecurs'
      refine ⟨w, .argument hw, hdata, ?_⟩
      exact (Recurs.pure w).congr fun E => Captured.evaluate_read _ id

/-! ## What has been published -/

/-- Of the dual, its lambda may have been published, compiled, and trees with `good`. Nothing else is known
to be published, and nothing is under new identities. -/
structure Recorded (good : Lam → Prop) (p : Param) (d : Dual) (l : Lam) (s : Store) : Prop where
  fresh : Fresh s
  known : d.id < s.nextId
  param : p.id < s.nextId
  function : ∀ f, s.functions[d.id]? = some f → ∃ id, f = ⟨id, l.arity, .closure l []⟩
  tree : ∀ l', s.trees[d.id]? = some l' → good l'

/-- The same, and a later dual has no form yet. -/
structure Pending (good : Lam → Prop) (p : Param) (d : Dual) (l : Lam) (d' : Dual) (s : Store) : Prop where
  recorded : Recorded good p d l s
  later : d.id < d'.id
  known : d'.id < s.nextId
  trees : s.trees[d'.id]? = none
  functions : s.functions[d'.id]? = none

section Recorded

variable {good : Lam → Prop} {l : Lam} {d' : Dual}

theorem recorded_stable : Stable (Recorded good p d l) := by
  intro s t hs htrees hfunctions hnext
  refine ⟨⟨fun id hid => ?_, fun id hid => ?_⟩, Nat.lt_of_lt_of_le hs.known hnext,
    Nat.lt_of_lt_of_le hs.param hnext, ?_, ?_⟩
  · rw [htrees]; exact hs.fresh.trees id (Nat.le_trans hnext hid)
  · rw [hfunctions]; exact hs.fresh.functions id (Nat.le_trans hnext hid)
  · rw [hfunctions]; exact hs.function
  · rw [htrees]; exact hs.tree

theorem pending_stable : Stable (Pending good p d l d') := by
  intro s t hs htrees hfunctions hnext
  refine ⟨recorded_stable s t hs.recorded htrees hfunctions hnext, hs.later,
    Nat.lt_of_lt_of_le hs.known hnext, ?_, ?_⟩
  · rw [htrees]; exact hs.trees
  · rw [hfunctions]; exact hs.functions

theorem Recorded.writeFunction {e : Dual} {f : Func} (h : Recorded good p d l s) (he : e.id < s.nextId)
    (hf : e.id = d.id → ∃ id, f = ⟨id, l.arity, .closure l []⟩) :
    Recorded good p d l ((Slot.function e).write f s) := by
  refine ⟨⟨h.fresh.trees, fun id hid => ?_⟩, h.known, h.param, fun g hg => ?_, h.tree⟩
  · rw [functions_write, if_neg (Nat.ne_of_lt (Nat.lt_of_lt_of_le he hid))]
    exact h.fresh.functions id hid
  · rw [functions_write] at hg
    split at hg
    · rename_i hid
      cases hg
      exact hf hid
    · exact h.function g hg

theorem Recorded.writeTree {e : Dual} {l' : Lam} (h : Recorded good p d l s) (he : e.id < s.nextId)
    (hl : e.id = d.id → good l') : Recorded good p d l ((Slot.tree e).write l' s) := by
  refine ⟨⟨fun id hid => ?_, h.fresh.functions⟩, h.known, h.param, h.function, fun l'' hl'' => ?_⟩
  · rw [trees_write, if_neg (Nat.ne_of_lt (Nat.lt_of_lt_of_le he hid))]
    exact h.fresh.trees id hid
  · rw [trees_write] at hl''
    split at hl''
    · rename_i hid
      cases hl''
      exact hl hid
    · exact h.tree l'' hl''

/-- A dual that has just been made has no form yet. -/
theorem Realized.pending {bs : Bindings} (h : Realized k bs (Recorded good p d l) d' s) :
    Pending good p d l d' s := by
  obtain ⟨_, _, s₀, hs₀, hid, rfl⟩ := h
  have hnext : s₀.nextId ≤ d'.id + 1 := by omega
  refine ⟨recorded_stable s₀ _ hs₀ rfl rfl hnext, ?_, Nat.lt_succ_self _, ?_, ?_⟩
  · rw [← hid]; exact hs₀.known
  · exact hs₀.fresh.trees _ (Nat.le_of_eq hid)
  · exact hs₀.fresh.functions _ (Nat.le_of_eq hid)

theorem Pending.writeFunction (h : Pending good p d l d' s) (f : Func) :
    Recorded good p d l ((Slot.function d').write f s) :=
  h.recorded.writeFunction h.known fun hid => absurd hid (Nat.ne_of_gt h.later)

theorem Pending.writeTree (h : Pending good p d l d' s) (l' : Lam) :
    Recorded good p d l ((Slot.tree d').write l' s) :=
  h.recorded.writeTree h.known fun hid => absurd hid (Nat.ne_of_gt h.later)

/-- The function form of the dual is its lambda, compiled. -/
theorem function_recorded (ho : d.origin = .lambda l) (herr : ∀ s, Recorded good p d l s → err s) :
    Triple host ends err (Recorded good p d l)
      (fun f s => (∃ id, f = ⟨id, l.arity, .closure l []⟩) ∧ Recorded good p d l s)
      fun E => E.function d := by
  refine Triple.step (y := fun E => d.forceFunction host E) rfl (fun _ => rfl) herr
    (Triple.publishOnce (Q := fun f s => (∃ id, f = ⟨id, l.arity, .closure l []⟩) ∧
      Recorded good p d l s) ?_ ?_ ?_ ?_)
  · exact fun s f hs hf => ⟨hs.function f hf, hs⟩
  · refine Triple.congr (y := fun _ => compile l) (fun E => ?_)
      ((compile_triple recorded_stable l).imp (fun s hs => hs.1) fun _ _ h => h)
    unfold Dual.initialFunction
    rw [ho]
  · exact fun s f g hf hg => ⟨hf.2.function g hg, hf.2⟩
  · exact fun s f hf _ => ⟨hf.1, hf.2.writeFunction hf.2.known fun _ => hf.1⟩

end Recorded

/-- A call of a closure with one parameter. -/
theorem call_triple {Q : Value → Store → Prop} (id : Nat) (herr : ∀ s, P s → err s)
    (h : Triple host ends err P Q fun E => evaluate E ((q, v) :: ρ) u) :
    Triple host ends err P Q fun E => E.call ⟨id, 1, .closure ⟨[q], u⟩ ρ⟩ [v] :=
  Triple.step rfl (fun n => call_closure id q u v n) herr h

/-! ## The function form -/

/-- The value `w` is what the template with the arguments computes on `v`. -/
structure FactoryCall.Computes (host : Host) (V : Vocabulary) (k : Factory) (template : Expr) (p : Param)
    (as : List Expr) (b : Expr) (v w : Value) : Prop where
  arguments : ∀ a ∈ as, ∃ w', Recurs host (fun E => evaluate E [(p, v)] a) w'
  result : ∀ u, template.Filled (Spliced host V k.openParams as b) u →
    Recurs host (fun E => evaluate E [(p, v)] u) w

namespace FactoryCall

variable {good : Lam → Prop} {source result : Ty}

/-- What the template returns on the values of the arguments, it computes with the arguments. -/
theorem computes (hV : V.Closed) (hhost : V.Respected host) (hcall : V.Callable)
    (hc : FactoryCall host V k build template p as b)
    (hws : List.Forall₂ (fun a w => V.data w ∧ Recurs host (fun E => evaluate E [(p, v)] a) w) as ws)
    (hwb : V.data wb ∧ Recurs host (fun E => evaluate E [(p, v)] b) wb)
    (hu : template.Filled (Template.Holds host V wb ws σ) u)
    (hw : Recurs host (fun E => evaluate E σ u) w) : Computes host V k template p as b v w := by
  refine ⟨fun a ha => ?_, fun u' hu' => ?_⟩
  · obtain ⟨i, hi⟩ := List.mem_iff_getElem?.1 ha
    obtain ⟨w', _, _, hrecurs⟩ := forall₂_getElem? hws.flip hi
    exact ⟨w', hrecurs⟩
  · have hholds : template.Filled (Template.Holds host V wb ws [(p, v)]) u' := hu'.imp fun x u hx =>
      hx.holds hws hwb.1 hwb.2
    exact hw.transfer (fun I hI n => holds_follow hV hhost hcall hc.template hu hholds hI n)
      fun I hI n => holds_follow hV hhost hcall hc.template hholds hholds hI n

/-- **What evaluating the dual returns, the template with the arguments computes.** -/
theorem evaluate_triple (hV : V.Closed) (hhost : V.Respected host) (hcall : V.Callable)
    (hc : FactoryCall host V k build template p as b) (ht : Binding k as t) (hv : V.data v)
    (ho : d.origin = .lambda ⟨[p], Tree.evaluation k.kind source result true t b⟩) :
    Triple host False (Recorded good p d ⟨[p], Tree.evaluation k.kind source result true t b⟩)
      (Recorded good p d ⟨[p], Tree.evaluation k.kind source result true t b⟩)
      (fun w s => Computes host V k template p as b v w ∧
        Recorded good p d ⟨[p], Tree.evaluation k.kind source result true t b⟩ s)
      fun E => d.evaluate E v := by
  generalize hbody : Tree.evaluation k.kind source result true t b = body at ho ⊢
  have hdata : p.ty.wrapper? = none → V.data v := fun _ => hv
  have hrecurring : ∀ {P err : Store → Prop} {a : Expr}, a.Over V k.openParams p → Stable P →
      (∀ s, P s → err s) → Triple host False err P
        (fun w s => (V.data w ∧ Recurs host (fun E => evaluate E [(p, v)] a) w) ∧ P s)
        fun E => evaluate E [(p, v)] a := fun ha hP herr =>
    recurring_triple (fun I hI n => ha.follows hV hhost hcall hI hdata n) hP herr False.elim
  refine (function_recorded ho fun _ hs => hs).bind fun f => Triple.assuming (fun s hs => hs.1) ?_
  rintro ⟨id, rfl⟩
  refine call_triple id (fun s hs => hs.2) (Triple.imp ?_ (fun s hs => hs.2) fun _ _ h => h)
  refine Triple.congr (fun E => (congrArg _ hbody.symm).trans (evaluate_evaluation_called ..)) ?_
  refine (evaluate_binding_triple hc.unbound ht recorded_stable (S := fun a w =>
    (V.data w ∧ Recurs host (fun E => evaluate E [(p, v)] a) w) ∧ ∀ f, w ≠ .func f) fun a ha => ?_).bind
    fun bound => Triple.assuming (p := ∃ ws d', bound = .dual d' ∧ d'.kind = k.kind ∧
      d'.origin = .bound (.tree build) (Bindings.ofValues (k.openParams.zip ws)) ∧
      List.Forall₂ (fun a w => V.data w ∧ Recurs host (fun E => evaluate E [(p, v)] a) w) as ws) ?_ ?_
  · refine (hrecurring (hc.operands a ha) recorded_stable fun _ hs => hs).imp (fun _ hs => hs) ?_
    rintro w s ⟨hw, hs⟩
    obtain ⟨t', N, hN⟩ := hw.2.reaches .initial
    exact ⟨⟨hw, hc.values a ha N v _ w t' hv (hN N (Nat.le_refl _))⟩, hs⟩
  · rintro s ⟨ws, d', rfl, hws, hkind, horigin, _⟩
    refine ⟨ws, d', rfl, hkind, ?_, hws.imp fun _ _ h => h.1⟩
    have hvalues : ∀ x ∈ k.openParams.zip ws, ∀ f, x.2 ≠ .func f := fun x hx =>
      forall_right hws (fun _ _ _ h => h.2) x.2 (List.of_mem_zip hx).2
    rw [horigin, hc.builders, Bindings.ofRuntime_values hvalues]
  rintro ⟨ws, d', rfl, hkind, horigin, hws⟩
  refine Triple.imp (P := Pending good p d ⟨[p], body⟩ d') ?_ ?_ fun _ _ h => h
  · refine (hrecurring hc.argument pending_stable fun _ hs => hs.recorded).bind fun wb =>
      Triple.assuming (fun s hs => hs.1) fun hwb => ?_
    refine (Triple.lift (Q := fun e s => e = d' ∧ Pending good p d ⟨[p], body⟩ d' s)
      (hkind ▸ expect_dual d') fun s hs => ⟨rfl, hs.2⟩).bind fun e => Triple.assuming (fun s hs => hs.1) ?_
    rintro rfl
    refine ((function_triple hc.builds ?_ horigin pending_stable (fun s hs => hs.recorded)
      (fun s hs => hs.functions) fun s f hs => hs.writeFunction f).imp (fun s hs => hs.2)
        fun _ _ h => h).bind fun f => Triple.assuming (fun s hs => hs.1) ?_
    · exact List.map_fst_zip (Nat.le_of_eq (hc.length.trans hws.length_eq))
    rintro ⟨id', q, u₀, rfl, hu₀⟩
    have hholds : template.Filled (Template.Holds host V wb ws [(q, wb)]) u₀ := hu₀.imp fun x u hx =>
      hx.holds (forall_right hws fun _ _ _ h => h.1) hwb.1
    refine call_triple id' (fun s hs => hs.2) ?_
    refine (recurring_triple (fun I hI n => holds_follow hV hhost hcall hc.template hholds hholds hI n)
      recorded_stable (fun _ hs => hs) False.elim).imp (fun s hs => hs.2) fun w s hw => ⟨?_, hw.2⟩
    exact hc.computes hV hhost hcall hws hwb hholds hw.1.2
  · rintro s ⟨_, _, hd, _, hs⟩
    cases hd
    exact hs.pending

/-! ## The tree form -/

/-- The lambda is the template with the arguments, over the parameter. -/
def Fits (host : Host) (V : Vocabulary) (k : Factory) (template : Expr) (p : Param) (as : List Expr)
    (b : Expr) (l : Lam) : Prop :=
  ∃ u, l = ⟨[p], u⟩ ∧ template.Filled (Spliced host V k.openParams as b) u

variable {l : Lam} {pass : DualPass}

/-- The template with the arguments refers to no dual. -/
theorem filled_unreferenced (hc : FactoryCall host V k build template p as b)
    (hu : template.Filled (Spliced host V k.openParams as b) u) :
    u.Everywhere fun w => w.refersToDual = false :=
  Spliced.everywhere hc.template hc.plain hu (fun _ hw _ => hw) hc.argument.unreferenced
    fun a ha => (hc.operands a ha).unreferenced

/-- No pass has anything to do in the template with the arguments. -/
theorem filled_settled (hc : FactoryCall host V k build template p as b)
    (hu : template.Filled (Spliced host V k.openParams as b) u) : u.Settled :=
  Tree.settled_of_unreferenced (Tree.anyNode_eq_false.2 (hc.filled_unreferenced hu))

/-- Such a lambda refers to no dual. -/
theorem Fits.unreferenced (hc : FactoryCall host V k build template p as b)
    (h : Fits host V k template p as b l) : l.tree.referencesDuals = false := by
  obtain ⟨u, rfl, hu⟩ := h
  refine Tree.anyNode_eq_false.2 (Tree.everywhere_iff.2 ⟨rfl, fun c hc' => ?_⟩)
  rw [List.mem_singleton.1 hc']
  exact hc.filled_unreferenced hu

/-- Such a lambda reads no parameter but its own. -/
theorem Fits.closed (hc : FactoryCall host V k build template p as b)
    (h : Fits host V k template p as b l) : l.tree.freeParams = [] := by
  obtain ⟨u, rfl, hu⟩ := h
  have hreads : u.Everywhere fun w => ∀ r, w = .param r → r = p :=
    Spliced.everywhere hc.template hc.plain hu (fun w _ hw r hr => absurd hr (hw r)) hc.argument.reads
      fun a ha => (hc.operands a ha).reads
  exact Tree.freeParams_lambda (hreads.imp fun w hw r hr => List.mem_singleton.2 (hw r hr))

/-- The body on its way through the passes: the evaluation of a dual bound to what is known of the
arguments, and the template with the arguments once that dual is inlined. -/
inductive Stage (host : Host) (V : Vocabulary) (k : Factory) (build : BuilderId) (template : Expr) (p : Param)
    (as : List Expr) (b : Expr) (source result : Ty) (good : Lam → Prop) (d : Dual) (l : Lam) :
    Bool → Expr → Store → Prop
  | bound {d' : Dual} {args : List Argument} {s : Store} : d'.kind = k.kind →
      d'.origin = .bound (.tree build) (k.openParams.zip args) → List.Forall₂ (Binds host V) as args →
      Pending good p d l d' s → Stage host V k build template p as b source result good d l false
        (Tree.evaluation k.kind source result true d'.literal b) s
  | inlined {u : Expr} {s : Store} : template.Filled (Spliced host V k.openParams as b) u →
      Recorded good p d l s → Stage host V k build template p as b source result good d l true u s

/-- The bound dual, spliced. -/
theorem spliced_triple (hc : FactoryCall host V k build template p as b) {d' : Dual} {args : List Argument}
    (horigin : d'.origin = .bound (.tree build) (k.openParams.zip args))
    (hargs : List.Forall₂ (Binds host V) as args) (herr : ∀ s, Recorded good p d l s → err s) :
    Triple host ends err (Pending good p d l d')
      (fun u s => template.Filled (Spliced host V k.openParams as b) u ∧ Recorded good p d l s)
      fun E => spliced E d' b := by
  refine (tree_triple hc.builds hc.template hc.distinct hc.length hc.operands hargs pending_stable
    (fun s hs => herr s hs.recorded) (fun s hs => hs.recorded.param) hc.plain horigin (fun s hs => hs.trees)
    fun s l' hs => hs.writeTree l').bind fun l' => Triple.assuming (fun s hs => hs.1) ?_
  rintro ⟨q, u, rfl, hq, hu⟩
  refine (Triple.lift (Q := fun u' s => u' = Tree.substitute q b u ∧ Recorded good p d l s)
    (Lambda.applied_ok.2 ⟨q, rfl, rfl⟩) fun s hs => ⟨rfl, hs.2⟩).bind fun u' =>
      Triple.assuming (fun s hs => hs.1) ?_
  rintro rfl
  have hnodes : template.Everywhere fun w => (∃ r, w = .param r) ∨
      (∀ r, w ≠ .param r) ∧ ∀ ps b, w ≠ .lambda ps b :=
    hc.template.everywhere.imp fun w hw => hw.imp (fun ⟨_, r, h, _⟩ => ⟨r, h⟩) And.right
  have hfilled : template.Filled (Spliced host V k.openParams as b) (Tree.substitute q b u) := by
    refine (hu.substitute hnodes).imp ?_
    rintro x w ⟨w₀, hw₀, rfl⟩
    exact hw₀.substitute hc.operands hq b
  refine (rewrite_settled_triple (hc.filled_settled hfilled) fun s hs => herr s hs.2).imp (fun _ hs => hs) fun w s hw => ?_
  rw [hw.1]
  exact ⟨hfilled, hw.2.2⟩

/-- A pass that is not for the bound dual leaves its evaluation as it is. -/
theorem run_bound_other (hb : b.Settled) {d' : Dual} (hkind : d'.kind = k.kind)
    (h : pass ≠ .inlining k.kind) {E : Engine} :
    pass.run E (Tree.evaluation k.kind source result true d'.literal b) =
      pure (Tree.evaluation k.kind source result true d'.literal b) := by
  rw [run_evaluation_aside source result h, run_literal_other (hkind ▸ h), hb.run]
  rfl

/-- The pass for it splices it. -/
theorem run_bound_same {d' : Dual} (hkind : d'.kind = k.kind) {E : Engine} :
    (DualPass.inlining k.kind).run E (Tree.evaluation k.kind source result true d'.literal b) =
      spliced E d' b := by
  obtain ⟨n, hn⟩ := run_evaluation_for (E := E) source result k.kind true d'.literal b
  rw [hn, ← hkind]
  exact evaluationRule_literal d' b n

/-- **Each pass leads from one stage to the next one.** -/
theorem stage_triple (hc : FactoryCall host V k build template p as b)
    (herr : ∀ s, Recorded good p d l s → err s) (done : Bool) (u : Expr) (pass : DualPass) :
    Triple host ends err (Stage host V k build template p as b source result good d l done u)
      (Stage host V k build template p as b source result good d l
        (done || decide (pass = .inlining k.kind))) fun E => pass.run E u := by
  refine Triple.of_each fun s hs => ?_
  cases hs with
  | @bound d' args _ hkind horigin hargs hs =>
      by_cases hpass : pass = .inlining k.kind
      · subst hpass
        refine Triple.congr (fun E => run_bound_same hkind) ?_
        refine (hc.spliced_triple horigin hargs herr).imp (fun s' hs' => hs' ▸ hs) fun u' s' hu' => ?_
        rw [decide_eq_true rfl]
        exact .inlined hu'.1 hu'.2
      · refine Triple.congr (fun E => run_bound_other hc.argument.settled hkind hpass) (Triple.pure ?_)
        rintro _ rfl
        rw [decide_eq_false hpass]
        exact .bound hkind horigin hargs hs
  | inlined hu hs =>
      refine Triple.congr (fun E => (hc.filled_settled hu).run) (Triple.pure ?_)
      rintro _ rfl
      exact .inlined hu hs

/-- The pass that binds factories makes the evaluation of a bound dual. -/
theorem bound_triple (hV : V.Closed) (hhost : V.Respected host) (hcall : V.Callable)
    (hc : FactoryCall host V k build template p as b) (ht : Binding k as t)
    (herr : ∀ s, Recorded good p d l s → err s)
    (hends : ends → ∀ a ∈ as, a.folds = true → ∃ w, Recurs host (fun E => evaluate E [(p, .null)] a) w) :
    Triple host ends err (Recorded good p d l)
      (Stage host V k build template p as b source result good d l false)
      fun E => DualPass.factories.run E (Tree.evaluation k.kind source result true t b) := by
  refine Triple.congr (fun E => run_evaluation_aside source result (fun h => by cases h) true t b) ?_
  refine (resolve_binding_triple hc.unbound ht recorded_stable fun a ha => resolvedArgument_triple hV hhost
    hcall (hc.operands a ha) recorded_stable herr fun h => hends h a ha).bind fun u => ?_
  refine Triple.congr (fun E => by rw [hc.argument.settled.run, pure_bind]) (Triple.pure ?_)
  rintro s ⟨args, d', rfl, hargs, hrealized⟩
  exact .bound hrealized.1 (hc.builders ▸ hrealized.2.1) hargs hrealized.pending

/-- **The tree form of the dual is the template with the arguments.** -/
theorem tree_recorded (hV : V.Closed) (hhost : V.Respected host) (hcall : V.Callable)
    (hc : FactoryCall host V k build template p as b) (ht : Binding k as t)
    (hl : l = ⟨[p], Tree.evaluation k.kind source result true t b⟩) (ho : d.origin = .lambda l)
    (hends : ends → ∀ a ∈ as, a.folds = true → ∃ w, Recurs host (fun E => evaluate E [(p, .null)] a) w) :
    Triple host ends (Recorded (Fits host V k template p as b) p d l)
      (Recorded (Fits host V k template p as b) p d l)
      (fun l' s => Fits host V k template p as b l' ∧ Recorded (Fits host V k template p as b) p d l s)
      fun E => E.tree d := by
  have hstage : ∀ {done : Bool} {u : Expr} {s : Store}, Stage host V k build template p as b source result
      (Fits host V k template p as b) d l done u s → Recorded (Fits host V k template p as b) p d l s := by
    rintro _ _ _ (⟨_, _, _, hs⟩ | ⟨_, hs⟩)
    · exact hs.recorded
    · exact hs
  have hpasses : Triple host ends (Recorded (Fits host V k template p as b) p d l)
      (Recorded (Fits host V k template p as b) p d l)
      (fun l' s => ∃ u, l' = ⟨[p], u⟩ ∧ Stage host V k build template p as b source result
        (Fits host V k template p as b) d l true u s)
      fun E => rewriteLambda E ⟨[p], Tree.evaluation k.kind source result true t b⟩ := by
    refine rewriteLambda_triple (fun _ hs => hs) (fun _ _ => hstage) (fun _ _ => hstage) (fun _ _ => hstage)
      (hc.bound_triple hV hhost hcall ht (fun _ hs => hs) hends)
      (fun u => hc.stage_triple (fun _ hs => hs) false u .combinators)
      (fun u => hc.stage_triple (fun _ hs => hs) _ u (.inlining .specification)) fun u => ?_
    refine (hc.stage_triple (fun _ hs => hs) _ u (.inlining .projection)).imp (fun _ hs => hs) ?_
    intro u' s hs
    have hdone : ∀ kind : DualKind, ((false || decide (DualPass.combinators = .inlining kind) ||
        decide (DualPass.inlining .specification = .inlining kind)) ||
        decide (DualPass.inlining .projection = .inlining kind)) = true := by
      intro kind
      cases kind <;> rfl
    rwa [hdone] at hs
  refine Triple.step (y := fun E => d.forceTree host E) rfl (fun _ => rfl) (fun _ hs => hs)
    (Triple.publishOnce (Q := fun l' s => Fits host V k template p as b l' ∧
      Recorded (Fits host V k template p as b) p d l s) ?_ ?_ ?_ ?_)
  · exact fun s l' hs hl' => ⟨hs.tree l' hl', hs⟩
  · refine Triple.congr (fun E => ?_) (hpasses.imp (fun s hs => hs.1) ?_)
    · unfold Dual.initialTree
      rw [ho, hl]
    · rintro _ s ⟨u, rfl, hs⟩
      refine ⟨⟨u, rfl, ?_⟩, hstage hs⟩
      cases hs with
      | inlined hu _ => exact hu
  · exact fun s l' l'' hl' hl'' => ⟨hl'.2.tree l'' hl'', hl'.2⟩
  · exact fun s l' hl' _ => ⟨hl'.1, hl'.2.writeTree hl'.2.known fun _ => hl'.1⟩

end FactoryCall

/-! ## The two forms -/

/-- The dual is made of a lambda over a parameter made before, and used, evaluated and left alone since. -/
def MadeAlone (host : Host) (V : Vocabulary) (kind : DualKind) (p : Param) (body : Expr) (d : Dual) (s : Store) :
    Prop :=
  History (fun ds s x => ds = [] ∧ p.id < s.nextId ∧ x = Dual.ofLambda kind ⟨[p], body⟩) (Uses host V) [d] s

/-- What has been published of such a dual, whatever has been done with it, if asking for its tree form and
evaluating it keep to that. -/
theorem MadeAlone.recorded {good : Lam → Prop} {kind : DualKind} {body : Expr}
    (h : MadeAlone host V kind p body d s)
    (htree : ∀ e : Dual, e.origin = .lambda ⟨[p], body⟩ → ∀ n,
      ((machine host n).tree e).Keeps (Recorded good p e ⟨[p], body⟩))
    (hevaluate : ∀ e : Dual, e.origin = .lambda ⟨[p], body⟩ → ∀ n v, V.data v →
      (e.evaluate (machine host n) v).Keeps (Recorded good p e ⟨[p], body⟩)) :
    d.origin = .lambda ⟨[p], body⟩ ∧ Recorded good p d ⟨[p], body⟩ s := by
  unfold MadeAlone at h
  generalize hds : [d] = ds at h
  have hall : Fresh s ∧ ∀ d ∈ ds, ds = [d] ∧ d.origin = .lambda ⟨[p], body⟩ ∧
      Recorded good p d ⟨[p], body⟩ s := by
    clear hds
    induction h with
    | start hs => exact ⟨hs, fun d hd => by cases hd⟩
    | @make ds s s' x d _ hx hd ih =>
        obtain ⟨rfl, hp, rfl⟩ := hx
        have hmakes := ofLambda_makes (P := (· = .lambda ⟨[p], body⟩)) rfl kind
        obtain ⟨ho, hid, rfl⟩ := hmakes.made s d s' hd
        obtain ⟨hfresh, htrees, hfunctions⟩ := hmakes.fresh hd ih.1
        refine ⟨hfresh, fun e he => ?_⟩
        rw [List.mem_singleton.1 he]
        refine ⟨rfl, ho, hfresh, Nat.lt_succ_self _, Nat.lt_succ_of_lt (Nat.lt_of_lt_of_le hp hid), ?_, ?_⟩
        · intro f hf
          cases hfunctions.symm.trans hf
        · intro l hl
          cases htrees.symm.trans hl
    | @between ds s s' _ huses ih =>
        have hkept : ∀ e ∈ ds, Recorded good p e ⟨[p], body⟩ s' →
            Fresh s' ∧ ∀ d ∈ ds, ds = [d] ∧ d.origin = .lambda ⟨[p], body⟩ ∧
              Recorded good p d ⟨[p], body⟩ s' := by
          intro e he hs'
          obtain ⟨rfl, ho, _⟩ := ih.2 e he
          refine ⟨hs'.fresh, fun d hd => ?_⟩
          rw [List.mem_singleton.1 hd]
          exact ⟨rfl, ho, hs'⟩
        cases huses with
        | @tree n e he =>
            obtain ⟨_, ho, hs⟩ := ih.2 e he
            exact hkept e he ((htree e ho n).after s hs)
        | @function n e he =>
            obtain ⟨_, ho, hs⟩ := ih.2 e he
            have hfunction : Triple host False _ (Recorded good p e _) _ _ :=
              function_recorded ho fun _ hs => hs
            exact hkept e he ((hfunction.keeps n).after s hs)
        | @evaluate n e v he hv =>
            obtain ⟨_, ho, hs⟩ := ih.2 e he
            exact hkept e he ((hevaluate e ho n v hv).after s hs)
        | elsewhere htrees hfunctions hnext hfresh =>
            refine ⟨hfresh, fun e he => ?_⟩
            obtain ⟨hds, ho, hs⟩ := ih.2 e he
            refine ⟨hds, ho, hfresh, Nat.lt_of_lt_of_le hs.known hnext, Nat.lt_of_lt_of_le hs.param hnext, ?_, ?_⟩
            · rw [hfunctions e he]
              exact hs.function
            · rw [htrees e he]
              exact hs.tree
  exact (hall.2 d (hds ▸ List.mem_singleton.2 rfl)).2

/-- What has been published of a dual that binds a factory in its tree. -/
theorem FactoryCall.madeAlone_recorded (hV : V.Closed) (hhost : V.Respected host) (hcall : V.Callable)
    (hc : FactoryCall host V k build template p as b) (ht : Binding k as t) {kind : DualKind}
    {source result : Ty}
    (h : MadeAlone host V kind p (Tree.evaluation k.kind source result true t b) d s) :
    d.origin = .lambda ⟨[p], Tree.evaluation k.kind source result true t b⟩ ∧
      Recorded (Fits host V k template p as b) p d
        ⟨[p], Tree.evaluation k.kind source result true t b⟩ s :=
  h.recorded (fun _ ho => (hc.tree_recorded hV hhost hcall ht rfl ho False.elim).keeps) fun _ ho n _ hv =>
    (hc.evaluate_triple hV hhost hcall ht hv ho).keeps n

/-- A compiled lambda computes what its body does. -/
theorem compute_of_reaches {l : Lam} (hl : l = ⟨[p], u⟩)
    (hu : ∀ s, ∃ s', Reaches host (fun E => evaluate E [(p, v)] u) s w s') (s : Store) :
    ∃ s', Reaches host (fun E => Lambda.compute E l v) s w s' := by
  subst hl
  obtain ⟨s', hs'⟩ := hu { s with nextId := s.nextId + 1 }
  have hcompile : Reaches host (fun _ => compile ⟨[p], u⟩) s ⟨s.nextId, 1, .closure ⟨[p], u⟩ []⟩
      { s with nextId := s.nextId + 1 } := ⟨0, fun _ _ => rfl⟩
  exact ⟨s', hcompile.bind (f := fun E f => E.call f [v]) (hs'.step fun n => call_closure _ p u v n)⟩

theorem compute_reaches {l : Lam} (hl : l = ⟨[p], u⟩) (hu : Recurs host (fun E => evaluate E [(p, v)] u) w)
    (s : Store) : ∃ s', Reaches host (fun E => Lambda.compute E l v) s w s' :=
  compute_of_reaches hl hu.reaches s

/-- **Binding a factory in a tree computes what binding it at run time does.** Take a factory made with an
expression builder that makes a template whatever the arguments are, and a dual whose lambda binds its one
or two parameters to trees over the parameter of the lambda, whether they fold or not, at once or one
after the other, and evaluates the result. If evaluating the dual returns something, then, whatever is done
with the dual before, it has a tree form without free parameters and without references to duals, and that
returns the same, compiled and called, in every store. -/
theorem tree_refines_function_bound (hV : V.Closed) (hhost : V.Respected host) (hcall : V.Callable)
    (hc : FactoryCall host V k build template p as b) (ht : Binding k as t) {kind : DualKind}
    {source result : Ty} {s' s₁ : Store} {n : Nat}
    (h : MadeAlone host V kind p (.call t (Dual.evaluateMethod k.kind source result) [b]) d s)
    (h' : MadeAlone host V kind p (.call t (Dual.evaluateMethod k.kind source result) [b]) d s')
    (hv : V.data v) (hw : d.evaluate (machine host n) v s = .ok w s₁) :
    ∃ l t', Reaches host (fun E => E.tree d) s' l t' ∧ l.tree.freeParams = [] ∧
      l.tree.referencesDuals = false ∧
      ∀ s₂, ∃ s₃, Reaches host (fun E => Lambda.compute E l v) s₂ w s₃ := by
  obtain ⟨ho, hs⟩ := hc.madeAlone_recorded hV hhost hcall ht h
  obtain ⟨_, hs'⟩ := hc.madeAlone_recorded hV hhost hcall ht h'
  obtain ⟨hcomputes, _⟩ := (hc.evaluate_triple hV hhost hcall ht hv ho).ok n s w s₁ hs hw
  have hfolding : ∀ a ∈ as, a.folds = true → ∃ w, Recurs host (fun E => evaluate E [(p, .null)] a) w := by
    intro a ha hfolds
    obtain ⟨w', hw'⟩ := hcomputes.arguments a ha
    exact ⟨w', hw'.congr fun E => evaluate_of_folds hfolds⟩
  obtain ⟨l, t', hreach, hfits, _⟩ :=
    (hc.tree_recorded hV hhost hcall ht rfl ho fun _ : True => hfolding).arrives trivial hs'
  refine ⟨l, t', hreach, FactoryCall.Fits.closed hc hfits, FactoryCall.Fits.unreferenced hc hfits, ?_⟩
  obtain ⟨u, hl, hu⟩ := hfits
  exact compute_reaches hl (hcomputes.result u hu)

end Refinement

/-! ## A factory bound to a value and to a tree -/

namespace Scaled

/-- The parameters of the factory. -/
def k : FormalParam := ⟨"k", .int⟩
def m : FormalParam := ⟨"m", .int⟩

/-- Makes `x => x + k * m`. -/
def recipe : ExprRecipe :=
  .lambda [.fresh "x" "x" .int]
    (.operation .add (.scoped "x") (.operation .mul (.captured 0) (.captured 1)))

/-- The builder, registered. -/
def registry : Registry := ⟨#[.recipe recipe], #[], #[]⟩

/-- What it makes, with places for the parameter and for the arguments. -/
def template : Expr :=
  .operation .add (.param Template.own)
    (.operation .mul (.param (Template.argument 0)) (.param (Template.argument 1)))

/-- The factory. -/
def factory : Factory := ⟨0, .projection, .tree 0, [], k, some m, .int, .int⟩

/-- The parameter of the lambda that binds it. -/
def p : Param := ⟨1, "p", .int⟩

/-- `p * 2`. -/
def twice : Expr := .operation .mul (.param p) (Tree.constant (.int 2))

/-- `factory.bind_first(5).bind(p * 2)`. -/
def binding : Expr :=
  .call (factory.bindFirstExpr (Tree.constant (.int 5))) (factory.rest m).bindMethod [twice]

/-- The dual of `p => factory.bind_first(5).bind(p * 2).evaluate(p)`. -/
def dual : Dual := ⟨2, .projection, .int, .int,
  .lambda ⟨[p], .call binding (Dual.evaluateMethod .projection .int .int) [.param p]⟩⟩

/-- Scalars as data, and no host functions. -/
def vocabulary : Vocabulary where
  data v := v.isScalar = true
  host _ _ := False

theorem closed : vocabulary.Closed := ⟨fun _ h => h, fun _ _ _ _ _ h => by cases h⟩

theorem respected (host : Host) : vocabulary.Respected host := fun _ _ h => h.elim

theorem callable : vocabulary.Callable := fun _ _ h => by cases h

/-- Scalars are no functions. -/
theorem neverFunction {host : Host} {t : Expr} (h : t.Over vocabulary factory.openParams p) :
    t.NeverFunction host vocabulary p := by
  rintro n v s w s' hv hw f rfl
  have hfollows := h.follows closed (respected host) callable stable_true (v := v) (fun _ => hv) n
  obtain ⟨_, _, _, _, hdata, _⟩ := hfollows.result s _ s' trivial hw s trivial
  cases hdata

theorem build_run (E : Engine) (c c' : Captured) (s : Store) :
    registry.host.buildTree E 0 [c, c'] s =
      .ok ⟨[⟨s.nextId, "x", .int⟩], .operation .add (.param ⟨s.nextId, "x", .int⟩)
        (.operation .mul (c.read (s.nextId + 1)) (c'.read (s.nextId + 2)))⟩
        { s with nextId := s.nextId + 3 } := rfl

theorem filled {q : Param} {c c' : Captured} (i j : Nat) :
    template.Filled (Stands q [c, c'])
      (.operation .add (.param q) (.operation .mul (c.read i) (c'.read j))) :=
  (Tree.filled_node fun r h => by cases h).2 ⟨rfl, .cons .own (.cons
    ((Tree.filled_node fun r h => by cases h).2 ⟨rfl, .cons (.argument i rfl) (.cons (.argument j rfl) .nil)⟩)
    .nil)⟩

theorem builds : Builds registry.host 0 factory.openParams template := by
  refine ⟨fun cs s hcs => ?_⟩
  obtain ⟨c, c', rfl⟩ := List.length_eq_two.1 ((List.length_map _).symm.trans (congrArg List.length hcs))
  refine Triple.congr (fun E => funext fun s => build_run E c c' s) (Triple.of_run ?_)
  rintro _ rfl
  exact ⟨_, _, rfl, ⟨_, _, rfl, Nat.le_refl _, filled _ _⟩, rfl, rfl, Nat.le_add_right _ _⟩

theorem term_operation {V : Vocabulary} {N : Expr → Prop} {R : Bool → Param → Prop} {op : BinaryOp}
    {a b : Expr} (hN : N (.operation op a b)) (ha : Term V N R false a) (hb : Term V N R false b) :
    Term V N R false (.operation op a b) := by
  refine .node [(false, a), (false, b)] (.basic (.binary ..)) hN rfl fun q hq => ?_
  simp only [List.mem_cons, List.not_mem_nil, or_false] at hq
  rcases hq with rfl | rfl
  · exact ha
  · exact hb

theorem apart {t : Expr} (h : t.refersToDual = false) (hm : ∀ target m, t ≠ .member target m) :
    t.Apart factory.openParams := ⟨h, fun target m ht => absurd ht (hm target m)⟩

theorem over_constant (n : Int64) : (Tree.constant (.int n)).Over vocabulary factory.openParams p :=
  .node [] (.basic (.literal _ rfl)) (apart rfl fun _ _ h => by cases h) rfl (by simp)

theorem over_param : Tree.Over vocabulary factory.openParams p (.param p) := .param ⟨rfl, rfl, rfl⟩

theorem over_twice : twice.Over vocabulary factory.openParams p :=
  term_operation (apart rfl fun _ _ h => by cases h) over_param (over_constant 2)

theorem operands : ∀ a ∈ [Tree.constant (.int 5), twice], a.Over vocabulary factory.openParams p := by
  simp only [List.forall_mem_cons, List.not_mem_nil, false_implies, implies_true, and_true]
  exact ⟨over_constant 5, over_twice⟩

theorem factoryCall : FactoryCall registry.host vocabulary factory 0 template p
    [Tree.constant (.int 5), twice] (.param p) where
  unbound := rfl
  builders := rfl
  builds := builds
  template := term_operation (apart rfl fun _ _ h => by cases h) (.param .own) <|
    term_operation (apart rfl fun _ _ h => by cases h) (.param (.argument rfl)) (.param (.argument rfl))
  plain formal hformal := by
    simp only [Factory.openParams, factory, Option.toList_some, List.mem_cons, List.not_mem_nil,
      or_false] at hformal
    rcases hformal with rfl | rfl <;> rfl
  distinct := by decide
  length := rfl
  operands := operands
  argument := over_param
  values a ha := neverFunction (operands a ha)

/-- The dual it makes when `p` is `3`. -/
def bound (id : Nat) : Dual := ⟨id, .projection, .int, .int,
  .bound (.tree 0) [(k, .value (.int 5)), (m, .value (.int 6))]⟩

/-- The store before the dual is made. -/
def store (id : Nat) : Store := { Store.initial with nextId := id }

theorem fresh (id : Nat) : Fresh (store id) :=
  ⟨fun _ _ => Std.HashMap.getElem?_empty, fun _ _ => Std.HashMap.getElem?_empty⟩

theorem madeAlone : MadeAlone registry.host vocabulary .projection p
    (.call binding (Dual.evaluateMethod .projection .int .int) [.param p]) dual (store 3) :=
  .make (.start (fresh 2)) ⟨rfl, Nat.lt_succ_self 1, rfl⟩ rfl

/-- The factory is bound to `5` and to twice the parameter: `3 + 5 * 6`. -/
theorem evaluate_three : ∃ s, dual.evaluate (machine registry.host 6) (.int 3) (store 3) =
    .ok (.int 33) s := by
  have hdual : (machine registry.host 6).function dual (store 3) = .ok _ _ :=
    function_first rfl Std.HashMap.getElem?_empty 5
  generalize hs₁ : (Slot.function dual).write _ _ = s₁ at hdual
  have hnext : s₁.nextId = 4 := by rw [← hs₁]; rfl
  have hbinding : evaluate (machine registry.host 5) [(p, .int 3)] binding s₁ =
      .ok (.dual (bound (s₁.nextId + 1))) { s₁ with nextId := s₁.nextId + 2 } := rfl
  rw [hnext] at hbinding
  have hnone : s₁.functions[5]? = none := by
    rw [← hs₁, functions_write, if_neg (by decide)]
    exact Std.HashMap.getElem?_empty
  have hbound : (machine registry.host 5).function (bound 5) { s₁ with nextId := 6 } = .ok _ _ :=
    publishOnce_first hnone rfl hnone
  generalize (Slot.function (bound 5)).write _ _ = s₂ at hbound
  refine ⟨s₂, (Act.bind_ok hdual).trans ?_⟩
  show evaluate (machine registry.host 5) [(p, .int 3)]
    (Tree.evaluation .projection .int .int true binding (.param p)) s₁ = _
  rw [evaluate_evaluation_called, evaluate_own]
  exact (Act.bind_ok hbinding).trans ((Act.bind_ok hbound).trans rfl)

end Scaled

/-- The theorem at a factory with two parameters, bound to a constant first and then to a tree over the
parameter. -/
theorem tree_refines_function_bound_mixed : ∃ s l t t',
    Scaled.dual.evaluate (machine Scaled.registry.host 6) (.int 3) (Scaled.store 3) = .ok (.int 33) s ∧
      Reaches Scaled.registry.host (fun E => E.tree Scaled.dual) (Scaled.store 3) l t ∧
      Reaches Scaled.registry.host (fun E => Lambda.compute E l (.int 3)) s (.int 33) t' := by
  obtain ⟨s, hs⟩ := Scaled.evaluate_three
  obtain ⟨l, t, hl, _, _, hcompute⟩ := tree_refines_function_bound Scaled.closed
    (Scaled.respected Scaled.registry.host) Scaled.callable Scaled.factoryCall (.first rfl)
    Scaled.madeAlone Scaled.madeAlone (v := .int 3) rfl hs
  obtain ⟨t', ht'⟩ := hcompute s
  exact ⟨s, l, t, t', hs, hl, ht'⟩

end DualForm
