import DualForm.Proofs.Dual.History
import DualForm.Proofs.Dual.Simulation

/-!
# The forms of a family of duals

* `Publishes D form s₀ s` — the forms published of the duals with `D` are theirs, and nothing else
  has been published since `s₀`.
* `Formed host form D d` — the tree form of `d` follows from those of the duals with `D`.
* `Dual.evaluateTree` — the tree form, compiled and called.

Principal results: `function_ensures` — the function forms of a family are what evaluation
expects; `tree_exactly` — every dual has a tree form, whatever has been published before;
`evaluate_follows` — evaluating that form follows evaluating the dual.
-/

namespace DualForm

open Act (Ensures)

variable {host : Host} {D : Dual → Prop} {form : Dual → Lam} {I : Store → Prop} {V : Vocabulary}

/-- The tree form, compiled and called. -/
def Dual.evaluateTree (E : Engine) (d : Dual) (v : Value) : Act Value := do
  E.call (← compile (← E.tree d)) [v]

/-! ## Publishing -/

/-- A form that settles is published. -/
theorem publishOnce_settles {α : Type} {slot : Slot α} {x : Engine → Act α} {a : α}
    (hx : Settles host I x a) (hread : ∀ s b, I s → slot.read s = some b → b = a)
    (hwrite : ∀ s, slot.read s = none → I s → I (slot.write a s)) :
    Settles host I (fun E => Act.publishOnce slot (x E)) a := by
  intro s hs
  cases hfound : slot.read s with
  | some b =>
      obtain rfl := hread s b hs hfound
      exact ⟨s, ⟨0, fun n _ => publishOnce_found hfound⟩, hs⟩
  | none =>
      obtain ⟨v, ⟨N, hN⟩, hv⟩ := hx s hs
      cases hlate : slot.read v with
      | some b =>
          obtain rfl := hread v b hv hlate
          exact ⟨v, ⟨N, fun n hn => publishOnce_late hfound (hN n hn) hlate⟩, hv⟩
      | none =>
          exact ⟨slot.write a v, ⟨N, fun n hn => publishOnce_first hfound (hN n hn) hlate⟩,
            hwrite v hlate hv⟩

/-- A form that is computed exactly is published exactly. -/
theorem publishOnce_exactly {α : Type} {slot : Slot α} {x : Engine → Act α} {a : α}
    (hx : Exactly host I x a) (hread : ∀ s b, I s → slot.read s = some b → b = a)
    (hwrite : ∀ s, slot.read s = none → I s → I (slot.write a s)) :
    Exactly host I (fun E => Act.publishOnce slot (x E)) a := by
  refine ⟨fun n => publishOnce_ensures (hx.ensures n) hread ?_,
    publishOnce_settles hx.settles hread hwrite⟩
  rintro s _ hnone hs rfl
  exact hwrite s hnone hs

/-! ## What is published of a family -/

/-- The forms published of the duals with `D` are theirs, and nothing else has been published since
`s₀`. -/
structure Publishes (D : Dual → Prop) (form : Dual → Lam) (s₀ s : Store) : Prop where
  trees : ∀ d l, D d → s.trees[d.id]? = some l → l = form d
  functions : ∀ d f, D d → s.functions[d.id]? = some f → FunctionForm d f
  otherTrees : ∀ id, (∀ d, D d → d.id ≠ id) → s.trees[id]? = s₀.trees[id]?
  otherFunctions : ∀ id, (∀ d, D d → d.id ≠ id) → s.functions[id]? = s₀.functions[id]?
  nextId : s₀.nextId ≤ s.nextId

theorem publishes_stable (s₀ : Store) : Stable (Publishes D form s₀) := by
  intro s t hs htrees hfunctions hnext
  refine ⟨?_, ?_, ?_, ?_, Nat.le_trans hs.nextId hnext⟩
  · rw [htrees]; exact hs.trees
  · rw [hfunctions]; exact hs.functions
  · rw [htrees]; exact hs.otherTrees
  · rw [hfunctions]; exact hs.otherFunctions

/-- Duals with one identity are the same. -/
def Distinct (D : Dual → Prop) : Prop := ∀ d e, D d → D e → d.id = e.id → d = e

theorem Publishes.writeTree (hD : Distinct D) {s₀ s : Store} (hs : Publishes D form s₀ s) {d : Dual}
    (hd : D d) : Publishes D form s₀ ((Slot.tree d).write (form d) s) := by
  refine ⟨fun e l he hl => ?_, hs.functions, fun id hid => ?_, hs.otherFunctions, hs.nextId⟩
  · rw [trees_write] at hl
    split at hl
    · rename_i hid
      cases hl
      rw [hD d e hd he hid]
    · exact hs.trees e l he hl
  · rw [trees_write, if_neg (hid d hd)]
    exact hs.otherTrees id hid

theorem Publishes.writeFunction (hD : Distinct D) {s₀ s : Store} (hs : Publishes D form s₀ s)
    {d : Dual} {f : Func} (hd : D d) (hf : FunctionForm d f) :
    Publishes D form s₀ ((Slot.function d).write f s) := by
  refine ⟨hs.trees, fun e g he hg => ?_, hs.otherTrees, fun id hid => ?_, hs.nextId⟩
  · rw [functions_write] at hg
    split at hg
    · rename_i hid
      cases hg
      rwa [← hD d e hd he hid]
    · exact hs.functions e g he hg
  · rw [functions_write, if_neg (hid d hd)]
    exact hs.otherFunctions id hid

/-! ## The function forms of a family -/

theorem newFunc_ensures (hI : Stable I) (arity : Nat) (code : Code) :
    Ensures I (fun f => ∃ id, f = ⟨id, arity, code⟩) (Act.newFunc arity code) :=
  ⟨⟨fun s hs => hI s _ hs rfl rfl (Nat.le_succ _)⟩, fun s f t _ hf => by cases hf; exact ⟨_, rfl⟩⟩

/-- Made from a lambda, or of duals with `D` by composition. -/
inductive Origin.Plain (D : Dual → Prop) : Origin → Prop
  | lambda (l : Lam) : Origin.Plain D (.lambda l)
  | composed {outer inner : Dual} : D outer → D inner → Origin.Plain D (.composed outer inner)

theorem Origin.Plain.mono {D' : Dual → Prop} {o : Origin} (h : o.Plain D) (hD : ∀ d, D d → D' d) :
    o.Plain D' := by
  cases h with
  | lambda l => exact .lambda l
  | composed houter hinner => exact .composed (hD _ houter) (hD _ hinner)

/-- **The function forms of a family are what evaluation expects.** -/
theorem function_ensures (hdistinct : Distinct D) (hD : ∀ d, D d → d.origin.Plain D) (s₀ : Store) :
    ∀ n d, D d → Ensures (Publishes D form s₀) (FunctionForm d) ((machine host n).function d)
  | 0, _, _ => Ensures.exhausted
  | n + 1, d, hd => by
      have ih := function_ensures hdistinct hD s₀ n
      rw [machine_function]
      refine publishOnce_ensures ?_ (fun s f hs hf => hs.functions d f hd hf)
        fun s f _ hs hf => hs.writeFunction hdistinct hd hf
      have horigin := hD d hd
      unfold Dual.initialFunction
      generalize ho : d.origin = o at horigin
      cases horigin with
      | lambda l =>
          refine (newFunc_ensures (publishes_stable s₀) l.arity (.closure l [])).imp ?_
          rintro _ ⟨id, rfl⟩
          exact .lambda id ho
      | composed houter hinner =>
          refine (ih _ hinner).bind fun f hf => (ih _ houter).bind fun g hg => ?_
          refine (newFunc_ensures (publishes_stable s₀) 1 (.chain f g)).imp ?_
          rintro _ ⟨id, rfl⟩
          exact .composed id ho hf hg

/-- The first function form of a dual made of a lambda is a closure. -/
theorem function_first {s : Store} {d : Dual} {l : Lam} (ho : d.origin = .lambda l)
    (hs : s.functions[d.id]? = none) (n : Nat) :
    (machine host (n + 1)).function d s = .ok ⟨s.nextId, l.arity, .closure l []⟩
      ((Slot.function d).write ⟨s.nextId, l.arity, .closure l []⟩
        { s with nextId := s.nextId + 1 }) := by
  refine publishOnce_first (v := { s with nextId := s.nextId + 1 }) hs ?_ hs
  unfold Dual.initialFunction
  rw [ho]
  rfl

/-! ## The tree forms of a family -/

/-- The tree form of `d` follows from those of the duals with `D`. -/
inductive Formed (host : Host) (form : Dual → Lam) (D : Dual → Prop) : Dual → Prop
  | lambda {d : Dual} {l : Lam} : d.origin = .lambda l →
      (∀ I, (∀ e, D e → Exactly host I (fun E => E.tree e) (form e)) →
        Exactly host I (fun E => rewriteLambda E l) (form d)) → Formed host form D d
  | composed {d outer inner : Dual} : d.origin = .composed outer inner → D outer → D inner →
      Lambda.composed (form outer) (form inner) = .ok (form d) → Formed host form D d

theorem Formed.mono {form' : Dual → Lam} {D' : Dual → Prop} {d : Dual} (h : Formed host form D d)
    (hD : ∀ e, D e → D' e) (hform : ∀ e, D e → form' e = form e) (hd : form' d = form d) :
    Formed host form' D' d := by
  cases h with
  | lambda ho hrun =>
      refine .lambda ho fun I hI => ?_
      rw [hd]
      refine hrun I fun e he => ?_
      rw [← hform e he]
      exact hI e (hD e he)
  | composed ho houter hinner hl =>
      refine .composed ho (hD _ houter) (hD _ hinner) ?_
      rw [hform _ houter, hform _ hinner, hd]
      exact hl

theorem Formed.plain {d : Dual} (h : Formed host form D d) : d.origin.Plain D := by
  cases h with
  | lambda ho => rw [ho]; exact .lambda _
  | composed ho houter hinner => rw [ho]; exact .composed houter hinner

/-- **Every dual of a family has its tree form,** whatever has been published before. The
induction is on the order in which they were made. -/
theorem tree_exactly (hdistinct : Distinct D)
    (hD : ∀ d, D d → Formed host form (fun e => D e ∧ e.id < d.id) d) (s₀ : Store) (d : Dual) (hd : D d) :
    Exactly host (Publishes D form s₀) (fun E => E.tree d) (form d) := by
  induction hid : d.id using Nat.strongRecOn generalizing d with
  | _ id ih =>
    subst hid
    have holder : ∀ e, D e ∧ e.id < d.id →
        Exactly host (Publishes D form s₀) (fun E => E.tree e) (form e) := fun e he =>
      ih e.id he.2 e he.1 rfl
    refine Exactly.step (y := fun E => d.forceTree host E) rfl (fun n => machine_tree d) ?_
    refine publishOnce_exactly ?_ (fun s l hs hl => hs.trees d l hd hl)
      fun s _ hs => hs.writeTree hdistinct hd
    cases hD d hd with
    | lambda ho hrun =>
        refine Exactly.congr (fun E => ?_) (hrun _ holder)
        unfold Dual.initialTree
        rw [ho]
    | @composed outer inner ho houter hinner hl =>
        have hcompose := (holder _ houter).bind (f := fun E f => do
          Act.lift (Lambda.composed f (← E.tree inner)))
          ((holder _ hinner).bind (f := fun _ g => Act.lift (Lambda.composed _ g)) (Exactly.lift hl))
        refine Exactly.congr (fun E => ?_) hcompose
        unfold Dual.initialTree
        rw [ho]

/-! ## Evaluating the tree form -/

/-- A compiled lambda evaluates its body. -/
theorem compiled_follows (hI : Stable I) {l : Lam} {p : Param} (hl : l.params = [p]) {v : Value}
    {α : Type} {R : α → Value → Prop} {x : Act α}
    (h : Follows host I R x fun E => evaluate E [(p, v)] l.body) :
    Follows host I R x (fun E => do E.call (← compile l) [v]) := by
  refine Ensures.imp h fun a ha s hs => ?_
  obtain ⟨b, t, hb, ht, hab⟩ := ha { s with nextId := s.nextId + 1 } (hI s _ hs rfl rfl (Nat.le_succ _))
  refine ⟨b, t, ?_, ht, hab⟩
  obtain ⟨params, body⟩ := l
  cases hl
  have hcompile : Reaches host (fun _ => compile ⟨[p], body⟩) s
      ⟨s.nextId, 1, .closure ⟨[p], body⟩ []⟩ { s with nextId := s.nextId + 1 } := ⟨0, fun _ _ => rfl⟩
  refine hcompile.bind (f := fun E f => E.call f [v]) (hb.step fun n => ?_)
  exact call_closure _ p body v n

/-- **Evaluating the tree form follows evaluating the dual.** -/
theorem evaluate_follows (hV : V.Closed) (hhost : V.Respected host) (hdistinct : Distinct D)
    (hD : ∀ d, D d → Formed host form (fun e => D e ∧ e.id < d.id) d)
    (hforms : FlatForms form D) (hfaithful : Faithful V D form) (s₀ : Store) {d : Dual} (hd : D d)
    {v : Value} (hv : V.data v) (n : Nat) :
    Follows host (Publishes D form s₀) (Shared V) (d.evaluate (machine host n) v)
      fun E => d.evaluateTree E v := by
  have hfun : ∀ n d, D d → Ensures (Publishes D form s₀) (FunctionForm d) ((machine host n).function d) :=
    function_ensures hdistinct (fun d hd => (hD d hd).plain.mono fun _ he => he.1) s₀
  obtain ⟨p, hp⟩ := hforms.single d hd
  have hbody : Follows host (Publishes D form s₀) (Shared V) (d.evaluate (machine host n) v)
      (fun E => do E.call (← compile (form d)) [v]) := by
    refine compiled_follows (publishes_stable s₀) hp ?_
    refine (hfun n d hd).bind fun f hf => ?_
    exact (hfaithful d p hd hp).follows hV hhost (publishes_stable s₀) (fun d hd n => hfun n d hd)
      n f v [(p, v)] hv hf settles_own
  refine Ensures.imp hbody fun w hw s hs => ?_
  obtain ⟨t, htree, ht⟩ := (tree_exactly hdistinct hD s₀ d hd).settles s hs
  obtain ⟨b, u, hb, hu, hwb⟩ := hw t ht
  exact ⟨b, u, htree.bind (f := fun E l => do E.call (← compile l) [v]) hb, hu, hwb⟩

end DualForm
