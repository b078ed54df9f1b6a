import DualForm.Factory.Realization
import DualForm.Proofs.Factory.Template

/-!
# Reads of captured arguments

* `FormalParam.names m` — `m` is the field in which a closure keeps the argument of the parameter.
* `Tree.Apart formals u` — the top node refers to no dual and reads no such field.
* `Captured.read c id` — the read a closure makes of `c` on the container with this identity.

Principal results: `Tree.bindArgument_apart` — such a tree has no argument to bind;
`bindArgument_read` — a read is replaced if it is one of the parameter bound;
`Filled.bindArgument`, `Filled.substitute` — both work on what is filled in.
-/

namespace DualForm

variable {formal : FormalParam} {formals : List FormalParam} {a t u : Expr} {q : Param}

/-- The field of a closure container that has the name and the type of the parameter. -/
def FormalParam.names (formal : FormalParam) (m : Member Getter) : Prop :=
  m.name = formal.name ∧ m.ty = formal.ty ∧ m.declaring.synthesized = true

namespace Tree

/-- The top node refers to no dual and reads no field in which a closure keeps one of the arguments. -/
def Apart (formals : List FormalParam) (u : Expr) : Prop :=
  u.refersToDual = false ∧ ∀ target m, u = .member target m → ∀ formal ∈ formals, ¬ formal.names m

theorem apart_head (h : u.head = t.head) (ht : t.Apart formals) : u.Apart formals := by
  refine ⟨by rw [refersToDual_head h]; exact ht.1, ?_⟩
  rintro target m rfl
  cases t with
  | member target' m' =>
      obtain ⟨_, rfl⟩ := Node.member.inj h
      exact ht.2 _ _ rfl
  | _ => cases h

theorem isCaptureOf_of_not_names {target : Expr} {m : Member Getter} (h : ¬ formal.names m) :
    isCaptureOf formal target m = false := by
  by_contra hc
  simp only [isCaptureOf, Bool.not_eq_false, Bool.and_eq_true, decide_eq_true_eq] at hc
  exact h ⟨hc.1.1.1, hc.1.1.2, hc.2⟩

theorem bindArgumentAll_eq_map (formal : FormalParam) (a : Expr) (ts : List Expr) :
    bindArgumentAll formal a ts = ts.map (bindArgument formal a) := by
  induction ts with
  | nil => rfl
  | cons t ts ih => simp [bindArgumentAll, ih]

/-- Binding an argument goes on below every node but a read of it. -/
theorem bindArgument_node (h : ∀ target m, t = .member target m → ¬ formal.names m) :
    (bindArgument formal a t).node = t.node.map (bindArgument formal a) := by
  cases t with
  | member target m =>
      simp [bindArgument, isCaptureOf_of_not_names (h target m rfl), node, Node.map]
  | staticCall | call | invoke => simp [bindArgument, node, Node.map, bindArgumentAll_eq_map]
  | _ => rfl

theorem bindArgument_parts (h : ∀ target m, t = .member target m → ¬ formal.names m) :
    (bindArgument formal a t).head = t.head ∧
      (bindArgument formal a t).children = t.children.map (bindArgument formal a) := by
  unfold head children
  rw [bindArgument_node h, Node.map_map, Node.children_map]
  exact ⟨rfl, rfl⟩

/-- **A tree without reads of the argument has nothing to bind.** -/
theorem bindArgument_apart
    (h : t.Everywhere fun u => ∀ target m, u = .member target m → ¬ formal.names m) :
    bindArgument formal a t = t := by
  induction t using childwise with
  | step t ih =>
      obtain ⟨hhead, hchildren⟩ := bindArgument_parts (a := a) h.here
      refine eq_of_head_children hhead (hchildren.trans ?_)
      exact (List.map_congr_left fun c hc => ih c hc (h.child hc)).trans (List.map_id _)

/-- A tree without lambdas that does not read the parameter has nothing to replace. -/
theorem substitute_unread (h : t.Unread q) (hlambda : t.Lambdaless) : substitute q a t = t := by
  induction t using childwise with
  | step t ih =>
      by_cases hparam : ∃ r, t = .param r
      · obtain ⟨r, rfl⟩ := hparam
        exact if_neg fun hr => h.here (by rw [hr])
      · have hnode : ∀ r, t ≠ .param r := fun r hr => hparam ⟨r, hr⟩
        refine eq_of_head_children (substitute_head hnode hlambda.here)
          ((substitute_children hnode).trans ?_)
        exact (List.map_congr_left fun c hc => ih c hc (h.child hc) (hlambda.child hc)).trans
          (List.map_id _)

/-! ## Trees filled in -/

variable {fill : Param → Expr → Prop}

/-- Binding an argument binds it in what is filled in. -/
theorem Filled.bindArgument (h : Filled fill t u)
    (hnodes : t.Everywhere fun w => (∃ r, w = .param r) ∨ w.Apart formals) (hformal : formal ∈ formals) :
    Filled (fun x w => ∃ w₀, fill x w₀ ∧ w = Tree.bindArgument formal a w₀) t
      (Tree.bindArgument formal a u) := by
  refine h.map (hnodes.imp fun w hw => hw.imp_right fun hw v hv => ?_) fun x w hw => ⟨w, hw, rfl⟩
  exact bindArgument_parts fun target m hm => (apart_head hv hw).2 target m hm formal hformal

/-- Substitution works on what is filled in. -/
theorem Filled.substitute (h : Filled fill t u)
    (hnodes : t.Everywhere fun w => (∃ r, w = .param r) ∨
      (∀ r, w ≠ .param r) ∧ ∀ ps b, w ≠ .lambda ps b) :
    Filled (fun x w => ∃ w₀, fill x w₀ ∧ w = Tree.substitute q a w₀) t (Tree.substitute q a u) := by
  refine h.map (hnodes.imp fun w hw => hw.imp_right fun hw v hv => ?_) fun x w hw => ⟨w, hw, rfl⟩
  have hparam : ∀ r, v ≠ .param r := by
    rintro r rfl
    cases w <;> first | exact hw.1 _ rfl | cases hv
  have hlambda : ∀ ps b, v ≠ .lambda ps b := by
    rintro ps b rfl
    cases w <;> first | exact hw.2 _ _ rfl | cases hv
  exact ⟨substitute_head hparam hlambda, substitute_children hparam⟩

end Tree

/-! ## Reads of one argument -/

namespace Captured

/-- The read a closure makes of the argument on the container with this identity. -/
def read (c : Captured) (id : Nat) : Expr :=
  .member (.literal (.record id (container c.formal) [(c.formal.name, c.stored)])
    (container c.formal).ty) (field c.formal)

variable {E : Engine} {σ : Scope} (c : Captured) (id : Nat)

theorem read_field : (field c.formal).read E (some (.record id (container c.formal)
    [(c.formal.name, c.stored)])) = pure c.stored := by
  simp [Member.read, field, Datum.fieldOf?]

theorem evaluate_read : evaluate E σ (c.read id) = pure c.stored := c.read_field (E := E) id

theorem bindArgument_read : Tree.bindArgument c.formal a (c.read id) = a := by
  simp [read, Tree.bindArgument, Tree.isCaptureOf, field, Tree.isLiteral, container,
    DeclaringType.closure]

theorem bindArgument_read_other (h : c.formal.name ≠ formal.name) :
    Tree.bindArgument formal a (c.read id) = c.read id := by
  simp [read, Tree.bindArgument, Tree.isCaptureOf, field, h]

theorem read_everywhere {p : Expr → Prop}
    (hliteral : ∀ v ty, ty.wrapper? = none → p (.literal v ty))
    (hmember : ∀ target m, m.ty = c.formal.ty → m.declaring.wrapper? = none →
      p (.member target m)) : (c.read id).Everywhere p := by
  refine Tree.everywhere_iff.2 ⟨hmember _ _ rfl rfl, fun d hd => ?_⟩
  rw [List.mem_singleton.1 hd]
  exact Tree.everywhere_iff.2 ⟨hliteral _ _ rfl, fun e he => by cases he⟩

end Captured

end DualForm
