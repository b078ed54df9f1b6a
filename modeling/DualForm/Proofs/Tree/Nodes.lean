import DualForm.Tree.Traversal

/-!
# Trees node by node

* `Tree.nodewise`, `Tree.childwise`, `Tree.binderwise` — induction over trees, by the form of the top
  node, without regard to it, and by what it does with parameters.
* `Tree.fold_eq` — a fold is one step at the top node over the folds of the direct subtrees.
* `Tree.Everywhere p` — every node of a tree satisfies `p`.
* `Tree.head` — the top node without its subtrees; `Tree.fill` — a top node over other subtrees.

Principal results: `Tree.everywhere_iff`, `Tree.anyNode_eq_false` — the search with an explicit
stack finds nothing exactly if the predicate fails at every node; `Tree.freeParams_lambda` — a lambda
whose body reads only its parameters has no free ones.
-/

namespace DualForm

namespace Node

variable {ν γ ι α β δ : Type}

theorem map_map (f : α → β) (g : β → δ) (n : Node ν γ ι α) : (n.map f).map g = n.map (g ∘ f) := by
  cases n <;> simp [map]

theorem map_id (n : Node ν γ ι α) : n.map id = n := by
  cases n <;> simp [map]

theorem map_congr {f g : α → β} {n : Node ν γ ι α} (h : ∀ a ∈ n.children, f a = g a) :
    n.map f = n.map g := by
  cases n <;> simp_all [map, children]

theorem children_map (f : α → β) (n : Node ν γ ι α) : (n.map f).children = n.children.map f := by
  cases n <;> simp [map, children]

end Node

namespace Tree

variable {ν γ ι α : Type}

/-! ## Induction -/

/-- Induction over trees. -/
theorem nodewise {motive : Tree ν γ ι → Prop}
    (literal : ∀ v ty, motive (.literal v ty))
    (param : ∀ p, motive (.param p))
    (staticMember : ∀ m, motive (.staticMember m))
    (member : ∀ target m, motive target → motive (.member target m))
    (staticCall : ∀ m args, (∀ a ∈ args, motive a) → motive (.staticCall m args))
    (call : ∀ target m args, motive target → (∀ a ∈ args, motive a) → motive (.call target m args))
    (binary : ∀ op lhs rhs via, motive lhs → motive rhs → motive (.binary op lhs rhs via))
    (unary : ∀ op operand via ty, motive operand → motive (.unary op operand via ty))
    (lambda : ∀ params body, motive body → motive (.lambda params body))
    (invoke : ∀ callee args, motive callee → (∀ a ∈ args, motive a) → motive (.invoke callee args))
    (conditional : ∀ test ifTrue ifFalse, motive test → motive ifTrue → motive ifFalse →
      motive (.conditional test ifTrue ifFalse))
    (t : Tree ν γ ι) : motive t :=
  @Tree.rec ν γ ι motive (fun ts => ∀ a ∈ ts, motive a) literal param staticMember member staticCall
    call binary unary lambda invoke conditional
    (fun a ha => by cases ha)
    (fun t ts ht hts a ha => by
      rcases List.mem_cons.1 ha with rfl | ha
      · exact ht
      · exact hts a ha)
    t

/-- Induction over trees, with the hypothesis for the direct subtrees. -/
theorem childwise {motive : Tree ν γ ι → Prop}
    (step : ∀ t, (∀ c ∈ t.children, motive c) → motive t) (t : Tree ν γ ι) : motive t := by
  induction t using nodewise with
  | literal | param | staticMember => exact step _ fun c hc => by cases hc
  | member target m ih | unary op operand via ty ih | lambda params body ih =>
      exact step _ (List.forall_mem_singleton.2 ih)
  | staticCall m args ih => exact step _ fun c hc => ih c hc
  | call target m args iht ih =>
      exact step _ (List.forall_mem_cons.2 ⟨iht, ih⟩)
  | invoke callee args ihc ih =>
      exact step _ (List.forall_mem_cons.2 ⟨ihc, ih⟩)
  | binary op lhs rhs via ihl ihr =>
      exact step _ (List.forall_mem_cons.2 ⟨ihl, List.forall_mem_singleton.2 ihr⟩)
  | conditional test ifTrue ifFalse iht ihp ihn =>
      exact step _ (List.forall_mem_cons.2
        ⟨iht, List.forall_mem_cons.2 ⟨ihp, List.forall_mem_singleton.2 ihn⟩⟩)

/-- Induction over trees, by whether the top node reads a parameter, declares parameters, or neither. -/
theorem binderwise {motive : Tree ν γ ι → Prop} (param : ∀ r, motive (.param r))
    (lambda : ∀ ps b, motive b → motive (.lambda ps b))
    (other : ∀ t, (∀ r, t ≠ .param r) → (∀ ps b, t ≠ .lambda ps b) →
      (∀ c ∈ t.children, motive c) → motive t) (t : Tree ν γ ι) : motive t := by
  induction t using childwise with
  | step t ih =>
      cases t with
      | param r => exact param r
      | lambda ps b => exact lambda ps b (ih b (List.mem_singleton.2 rfl))
      | _ => exact other _ (fun r h => by cases h) (fun ps b h => by cases h) ih

/-! ## Folds -/

theorem foldAll_eq_map (f : Node ν γ ι (Tree ν γ ι × α) → α) (ts : List (Tree ν γ ι)) :
    foldAll f ts = ts.map fun t => (t, fold f t) := by
  induction ts with
  | nil => rfl
  | cons t ts ih => simp [foldAll, ih]

/-- One step of a fold. -/
theorem fold_eq (f : Node ν γ ι (Tree ν γ ι × α) → α) (t : Tree ν γ ι) :
    fold f t = f (t.node.map fun u => (u, fold f u)) := by
  cases t <;> simp [fold, node, Node.map, foldAll_eq_map]

/-! ## Properties of every node -/

/-- Every node satisfies the predicate. -/
def Everywhere (p : Tree ν γ ι → Prop) (t : Tree ν γ ι) : Prop :=
  t.fold fun n => p (n.map Prod.fst).tree ∧ ∀ c ∈ n.children, c.2

variable {p q : Tree ν γ ι → Prop}

theorem everywhere_iff {t : Tree ν γ ι} :
    t.Everywhere p ↔ p t ∧ ∀ c ∈ t.children, c.Everywhere p := by
  unfold Everywhere
  rw [fold_eq]
  simp only [Node.map_map, Node.children_map, List.mem_map, forall_exists_index, and_imp,
    forall_apply_eq_imp_iff₂]
  have : (Prod.fst ∘ fun u => (u, fold (fun n => p (n.map Prod.fst).tree ∧ ∀ c ∈ n.children, c.2) u))
      = (id : Tree ν γ ι → Tree ν γ ι) := rfl
  rw [this, Node.map_id, tree_node]
  rfl

theorem Everywhere.here {t : Tree ν γ ι} (h : t.Everywhere p) : p t := (everywhere_iff.1 h).1

theorem Everywhere.child {t c : Tree ν γ ι} (h : t.Everywhere p) (hc : c ∈ t.children) :
    c.Everywhere p := (everywhere_iff.1 h).2 c hc

/-- A tree without subtrees. -/
theorem everywhere_leaf {t : Tree ν γ ι} (h : p t) (ht : t.children = []) : t.Everywhere p :=
  everywhere_iff.2 ⟨h, fun c hc => by rw [ht] at hc; cases hc⟩

/-- A tree with one subtree. -/
theorem everywhere_single {t c : Tree ν γ ι} (h : p t) (ht : t.children = [c]) (hc : c.Everywhere p) :
    t.Everywhere p :=
  everywhere_iff.2 ⟨h, ht ▸ List.forall_mem_singleton.2 hc⟩

/-- A tree with two subtrees. -/
theorem everywhere_pair {t a b : Tree ν γ ι} (h : p t) (ht : t.children = [a, b]) (ha : a.Everywhere p)
    (hb : b.Everywhere p) : t.Everywhere p :=
  everywhere_iff.2 ⟨h, ht ▸ List.forall_mem_cons.2 ⟨ha, List.forall_mem_singleton.2 hb⟩⟩

theorem Everywhere.imp {t : Tree ν γ ι} (h : t.Everywhere p) (hpq : ∀ u, p u → q u) :
    t.Everywhere q := by
  induction t using childwise with
  | step t ih => exact everywhere_iff.2 ⟨hpq t h.here, fun c hc => ih c hc (h.child hc)⟩

theorem Everywhere.and {t : Tree ν γ ι} (hp : t.Everywhere p) (hq : t.Everywhere q) :
    t.Everywhere fun u => p u ∧ q u := by
  induction t using childwise with
  | step t ih =>
      refine everywhere_iff.2 ⟨⟨hp.here, hq.here⟩, fun c hc => ih c hc (hp.child hc) (hq.child hc)⟩

/-- The top node alone. -/
def head (t : Tree ν γ ι) : Node ν γ ι Unit := t.node.map fun _ => ()

/-- A tree is its top node and its subtrees. -/
theorem eq_of_head_children {t u : Tree ν γ ι} (hh : t.head = u.head)
    (hc : t.children = u.children) : t = u := by
  cases t <;> cases u <;>
    first | contradiction | simp_all [head, children, node, Node.map, Node.children]

section Fill

variable [Inhabited (Tree ν γ ι)]

/-- A top node with other direct subtrees, if there are as many. -/
def fill : Node ν γ ι Unit → List (Tree ν γ ι) → Tree ν γ ι
  | .literal value ty, _ => .literal value ty
  | .param p, _ => .param p
  | .staticMember m, _ => .staticMember m
  | .member _ m, [target] => .member target m
  | .staticCall m _, args => .staticCall m args
  | .call _ m _, target :: args => .call target m args
  | .binary op _ _ via, [lhs, rhs] => .binary op lhs rhs via
  | .unary op _ via ty, [operand] => .unary op operand via ty
  | .lambda params _, [body] => .lambda params body
  | .invoke _ _, callee :: args => .invoke callee args
  | .conditional .., [test, ifTrue, ifFalse] => .conditional test ifTrue ifFalse
  | _, _ => default

theorem fill_children (t : Tree ν γ ι) : fill t.head t.children = t := by cases t <;> rfl

theorem map_unit {β : Type} : ∀ {as : List α} {bs : List β}, bs.length = as.length →
    bs.map (fun _ => ()) = as.map fun _ => ()
  | [], [], _ => rfl
  | _ :: _, _ :: _, h => by
      rw [List.map_cons, List.map_cons, map_unit (Nat.succ.inj h)]
  | [], _ :: _, h => by cases h
  | _ :: _, [], h => by cases h

theorem fill_spec {t : Tree ν γ ι} {cs : List (Tree ν γ ι)} (h : cs.length = t.children.length) :
    (fill t.head cs).head = t.head ∧ (fill t.head cs).children = cs := by
  cases t with
  | literal | param | staticMember => exact ⟨rfl, (List.eq_nil_of_length_eq_zero h).symm⟩
  | member | unary | lambda =>
      obtain ⟨c, rfl⟩ := List.length_eq_one_iff.1 h
      exact ⟨rfl, rfl⟩
  | binary =>
      match cs, h with
      | [a, b], _ => exact ⟨rfl, rfl⟩
  | conditional =>
      match cs, h with
      | [a, b, c], _ => exact ⟨rfl, rfl⟩
  | staticCall m args => exact ⟨congrArg (Node.staticCall m) (map_unit h), rfl⟩
  | call target m args =>
      cases cs with
      | nil => cases h
      | cons c cs => exact ⟨congrArg (Node.call () m) (map_unit (Nat.succ.inj h)), rfl⟩
  | invoke callee args =>
      cases cs with
      | nil => cases h
      | cons c cs => exact ⟨congrArg (Node.invoke ()) (map_unit (Nat.succ.inj h)), rfl⟩

end Fill

/-! ## Search -/

/-- The search finds nothing exactly if no node satisfies the predicate. -/
theorem walk_search (p : Tree ν γ ι → Bool) (stack : List (Tree ν γ ι)) :
    walk (fun u found => if p u then (.stop, true) else (.descend, found)) stack false = false ↔
      ∀ t ∈ stack, t.Everywhere fun u => p u = false := by
  induction h : sizeAll stack using Nat.strongRecOn generalizing stack with
  | _ k ih =>
    cases stack with
    | nil => simp [walk]
    | cons t rest =>
      unfold walk
      by_cases hp : p t
      · have hne : ¬ t.Everywhere fun u => p u = false := fun he => by
          have := he.here; simp [hp] at this
        simp [hp, hne]
      · have hsize : sizeAll (t.children ++ rest) < k := by
          rw [← h]; simp only [sizeAll_append, sizeAll, size_eq_children]; omega
        simp only [hp, Bool.false_eq_true, if_false]
        rw [ih _ hsize _ rfl]
        simp only [List.mem_append, List.mem_cons, forall_eq_or_imp]
        rw [everywhere_iff (t := t)]
        simp only [hp, true_and]
        constructor
        · intro hall; exact ⟨fun c hc => hall c (.inl hc), fun c hc => hall c (.inr hc)⟩
        · rintro ⟨h₁, h₂⟩ c (hc | hc)
          · exact h₁ c hc
          · exact h₂ c hc

theorem anyNode_eq_false {p : Tree ν γ ι → Bool} {t : Tree ν γ ι} :
    t.anyNode p = false ↔ t.Everywhere fun u => p u = false := by
  unfold anyNode
  rw [walk_search]
  simp

/-! ## Free parameters -/

/-- The free parameters of a node that neither reads nor declares parameters. -/
theorem freeParamsAt_other {t : Tree ν γ ι} (hparam : ∀ r, t ≠ .param r) (hlambda : ∀ ps b, t ≠ .lambda ps b)
    (bound found : List Param) : fold freeParamsAt t bound found =
      t.children.foldl (fun found c => fold freeParamsAt c bound found) found := by
  rw [fold_eq]
  cases t with
  | param r => exact absurd rfl (hparam r)
  | lambda ps b => exact absurd rfl (hlambda ps b)
  | _ => simp [freeParamsAt, node, Node.map, children, Node.children, List.foldl_map]

/-- Where only bound parameters are read, no free parameters are added. -/
theorem freeParams_bound {t : Tree ν γ ι} {bound : List Param} (found : List Param)
    (h : t.Everywhere fun u => ∀ r, u = .param r → r ∈ bound) :
    fold freeParamsAt t bound found = found := by
  induction t using binderwise generalizing bound with
  | param r =>
      show (if r ∈ bound ∨ r ∈ found then found else found ++ [r]) = found
      rw [if_pos (.inl (h.here r rfl))]
  | lambda ps b ih =>
      refine ih ((h.child (List.mem_singleton.2 rfl)).imp fun u hu r hr => ?_)
      exact List.mem_append_right ps (hu r hr)
  | other t hparam hlambda ih =>
      rw [freeParamsAt_other hparam hlambda]
      refine List.foldlRecOn (motive := (· = found)) t.children _ rfl ?_
      rintro _ rfl c hc
      exact ih c hc (h.child hc)

/-- A lambda whose body reads only its parameters has no free parameters. -/
theorem freeParams_lambda {ps : List Param} {b : Tree ν γ ι}
    (h : b.Everywhere fun u => ∀ r, u = .param r → r ∈ ps) : freeParams (.lambda ps b) = [] := by
  show fold freeParamsAt b (ps ++ []) [] = []
  rw [List.append_nil]
  exact freeParams_bound [] h

end Tree

end DualForm
