import DualForm.Proofs.Rewriting.References

/-!
# Trees over host code that evaluate duals, and what the passes make of them

* `Dual.evaluation`, `Dual.handed` — a dual evaluated, and a dual handed on as a function.
* `Vocabulary` — the values literals may hold and the host functions members and methods may call,
  these with the positions at which they take functions.
* `Basic V t fs` — `t` is an operation over host code; `fs` says which operands it takes as
  functions.
* `Body V C F b t` — trees of such operations, parameters, evaluations and handed duals.
* `Lambda.Hygienic l a` — putting `a` in the place of the parameter of `l` respects declarations.
* `Inlined V form D F κ b t u` — `u` is `t` with the duals of the kinds `κ` replaced by their tree
  forms.
* `Tree.Flat` — no node refers to a dual or applies a function.

Principal results: `Inlined.run` — each pass extends the kinds that are replaced;
`rewriteLambda_inlined` — the pipeline replaces all of them; `Inlined.flat`.
-/

namespace DualForm

open Act (Ensures)

/-! ## Trees over host code -/

/-- A dual evaluated, by its method or through its evaluator. -/
def Dual.evaluation (d : Dual) (byMethod : Bool) (arg : Expr) : Expr :=
  if byMethod then d.called arg else d.invoked arg

/-- A dual handed on as a function, converted or read from its evaluator. -/
def Dual.handed (d : Dual) (byConversion : Bool) : Expr :=
  if byConversion then d.converted else d.functionRead

/-- What trees over host code are made of. -/
structure Vocabulary where
  /-- Values of literals and static members. -/
  data : Value → Prop
  /-- Functions behind members and methods, with the positions at which they take functions. -/
  host : Func → List Bool → Prop

variable {V : Vocabulary}

/-- Getters of the host. -/
inductive HostGetter (V : Vocabulary) : Getter → Prop
  | field : HostGetter V .field
  | property {f : Func} : V.host f [false] → HostGetter V (.property f)
  | fixed {v : Value} : V.data v → HostGetter V (.fixed v)
  | computed {f : Func} : V.host f [] → HostGetter V (.computed f)

/-- Invokers of the host, with the argument positions at which they take functions. -/
inductive HostInvoker (V : Vocabulary) : Invoker → List Bool → Prop
  | function {f : Func} {fs : List Bool} : V.host f fs → HostInvoker V (.function f) fs
  | method {f : Func} {fs : List Bool} : V.host f (false :: fs) → HostInvoker V (.method f) fs

/-- Literals, member reads, method calls, built-in operators and conditionals, with the operands
taken as functions. -/
inductive Basic (V : Vocabulary) : Expr → List Bool → Prop
  | literal {v : Value} (ty : Ty) : V.data v → Basic V (.literal v ty) []
  | staticMember {m : Member Getter} : HostGetter V m.getter → Basic V (.staticMember m) []
  | member {m : Member Getter} (target : Expr) : HostGetter V m.getter →
      Basic V (.member target m) [false]
  | staticCall {m : Method Invoker} {fs : List Bool} (args : List Expr) :
      HostInvoker V m.invoker fs → Basic V (.staticCall m args) fs
  | call {m : Method Invoker} {fs : List Bool} (target : Expr) (args : List Expr) :
      HostInvoker V m.invoker fs → Basic V (.call target m args) (false :: fs)
  | binary (op : BinaryOp) (lhs rhs : Expr) : Basic V (.binary op lhs rhs none) [false, false]
  | unary (op : UnaryOp) (operand : Expr) (ty : Ty) : Basic V (.unary op operand none ty) [false]
  | conditional (test ifTrue ifFalse : Expr) :
      Basic V (.conditional test ifTrue ifFalse) [false, false, false]

/-- Trees of such operations without references of their own, of parameters, of evaluations of duals
with `C`, and of duals with `F` handed on as functions. The last stand where functions are taken. -/
inductive Body (V : Vocabulary) (C : Dual → Expr → Prop) (F : Dual → Prop) : Bool → Expr → Prop
  | node {t : Expr} (parts : List (Bool × Expr)) : Basic V t (parts.map Prod.fst) →
      t.refersToDual = false → t.children = parts.map Prod.snd →
      (∀ q ∈ parts, Body V C F q.1 q.2) → Body V C F false t
  | param {p : Param} : p.ty.wrapper? = none → Body V C F false (.param p)
  | evaluation {d : Dual} {a : Expr} (byMethod : Bool) : C d a → Body V C F false a →
      Body V C F false (d.evaluation byMethod a)
  | handed {d : Dual} (byConversion : Bool) : F d → Body V C F true (d.handed byConversion)

/-- Putting `a` in the place of the parameter respects declarations: `a` is a parameter itself, or
the parameter is not read below a lambda that declares it again. -/
def Lambda.Hygienic (l : Lam) (a : Expr) : Prop :=
  (∃ q, a = .param q) ∨ ∀ p, l.params = [p] → l.body.Unshadowed p

/-- The tree with the duals of the kinds `κ` replaced by their tree forms. -/
inductive Inlined (V : Vocabulary) (form : Dual → Lam) (D F : Dual → Prop) (κ : DualKind → Prop) :
    Bool → Expr → Expr → Prop
  | node {t u : Expr} (parts : List (Bool × Expr × Expr)) : Basic V t (parts.map (·.1)) →
      t.refersToDual = false → t.children = parts.map (·.2.1) → u.head = t.head →
      u.children = parts.map (·.2.2) → (∀ q ∈ parts, Inlined V form D F κ q.1 q.2.1 q.2.2) →
      Inlined V form D F κ false t u
  | param {p : Param} : p.ty.wrapper? = none → Inlined V form D F κ false (.param p) (.param p)
  | kept {d : Dual} {a a' : Expr} (byMethod : Bool) : ¬ κ d.kind → D d → (form d).Hygienic a →
      Inlined V form D F κ false a a' →
      Inlined V form D F κ false (d.evaluation byMethod a) (d.evaluation byMethod a')
  | replaced {d : Dual} {a a' : Expr} {p : Param} (renames byMethod : Bool) : κ d.kind → D d →
      (form d).params = [p] → (renames = true → ∃ q, a' = .param q) →
      Inlined V form D F κ false a a' →
      Inlined V form D F κ false (d.evaluation byMethod a) (Tree.inserted renames p a' (form d).body)
  | handedKept {d : Dual} (byConversion : Bool) : ¬ κ d.kind → D d → F d →
      Inlined V form D F κ true (d.handed byConversion) (d.handed byConversion)
  | handed {d : Dual} (byConversion : Bool) : κ d.kind → D d → F d →
      Inlined V form D F κ true (d.handed byConversion) (form d).tree

variable {form : Dual → Lam} {D F : Dual → Prop} {κ : DualKind → Prop}

/-- An operation whose operands are listed in some other way. -/
theorem Inlined.of_operands {α : Type} {t u : Expr} (operands : List α) (taken : α → Bool)
    (given inlined : α → Expr) (hbasic : Basic V t (operands.map taken)) (hrefers : t.refersToDual = false)
    (ht : t.children = operands.map given) (hhead : u.head = t.head) (hu : u.children = operands.map inlined)
    (h : ∀ q ∈ operands, Inlined V form D F κ (taken q) (given q) (inlined q)) :
    Inlined V form D F κ false t u := by
  refine .node (operands.map fun q => (taken q, given q, inlined q)) ?_ hrefers ?_ hhead ?_
    (List.forall_mem_map.2 h)
  · rw [List.map_map]; exact hbasic
  · rw [List.map_map]; exact ht
  · rw [List.map_map]; exact hu

theorem Body.imp {C C' : Dual → Expr → Prop} {b : Bool} {t : Expr} (h : Body V C F b t)
    (hC : ∀ d a, C d a → C' d a) : Body V C' F b t := by
  induction h with
  | node parts hbasic hrefers hchildren _ ih => exact .node parts hbasic hrefers hchildren ih
  | param hp => exact .param hp
  | evaluation byMethod hd _ ih => exact .evaluation byMethod (hC _ _ hd) ih
  | handed byConversion hd => exact .handed byConversion hd

theorem Body.inlined {C : Dual → Expr → Prop} {b : Bool} {t : Expr} (h : Body V C F b t)
    (hC : ∀ d a, C d a → D d ∧ (form d).Hygienic a) (hF : ∀ d, F d → D d) :
    Inlined V form D F (fun _ => False) b t t := by
  induction h with
  | node parts hbasic hrefers hchildren _ ih =>
      exact .of_operands parts Prod.fst Prod.snd Prod.snd hbasic hrefers hchildren rfl hchildren ih
  | param hp => exact .param hp
  | evaluation byMethod hd _ ih => exact .kept byMethod (fun h => h) (hC _ _ hd).1 (hC _ _ hd).2 ih
  | handed byConversion hd => exact .handedKept byConversion (fun h => h) (hF _ hd) hd

/-- An operation is no parameter, no lambda and no application. -/
theorem Basic.shape {t u : Expr} {fs : List Bool} (h : Basic V t fs) (hu : u.head = t.head) :
    (∀ r, u ≠ .param r) ∧ (∀ ps b, u ≠ .lambda ps b) ∧ ∀ c as, u ≠ .invoke c as := by
  refine ⟨?_, ?_, ?_⟩
  · rintro r rfl
    cases h <;> cases hu
  · rintro ps b rfl
    cases h <;> cases hu
  · rintro c as rfl
    cases h <;> cases hu

/-- A parameter stays what it is. -/
theorem Inlined.of_param {q : Param} {u : Expr} (h : Inlined V form D F κ false (.param q) u) :
    u = .param q := by
  generalize ht : (Tree.param q : Expr) = t at h
  cases h with
  | node parts hbasic => exact absurd ht.symm ((hbasic.shape rfl).1 q)
  | param => cases ht; rfl
  | kept byMethod => cases byMethod <;> cases ht
  | replaced _ byMethod => cases byMethod <;> cases ht

/-- A hygienic substitution is one that respects declarations. -/
theorem Lambda.Hygienic.inserted {l : Lam} {p : Param} {a : Expr} (h : l.Hygienic a)
    (hp : l.params = [p]) : ∃ renames, (renames = true → ∃ q, a = .param q) ∧
      Tree.substitute p a l.body = Tree.inserted renames p a l.body := by
  by_cases ha : ∃ q, a = .param q
  · exact ⟨true, fun _ => ha, (Tree.inserted_renaming _).symm⟩
  · refine ⟨false, (fun h => by cases h), ?_⟩
    exact (Tree.substitute_eq_inserted_iff fun q hq => ha ⟨q, hq⟩).2 (h.resolve_left ha p hp)

/-- Passes keep arguments that are parameters. -/
theorem Lambda.Hygienic.argument {l : Lam} {a a' : Expr} (h : l.Hygienic a)
    (ha : Inlined V form D F κ false a a') : l.Hygienic a' := by
  rcases h with ⟨q, rfl⟩ | h
  · exact .inl ⟨q, ha.of_param⟩
  · exact .inr h

theorem Inlined.congr {κ' : DualKind → Prop} {b : Bool} {t u : Expr} (h : Inlined V form D F κ b t u)
    (hκ : ∀ kind, κ kind ↔ κ' kind) : Inlined V form D F κ' b t u := by
  obtain rfl : κ = κ' := funext fun kind => propext (hκ kind)
  exact h

/-! ## Flat trees -/

/-- No node refers to a dual or applies a function. -/
def Tree.Flat (t : Expr) : Prop :=
  t.Everywhere fun u => u.refersToDual = false ∧ ∀ c as, u ≠ .invoke c as

theorem refersToDual_eq (t : Expr) :
    t.refersToDual = ((t.head.map fun _ => (default : Expr)).tree).refersToDual := by
  cases t <;> rfl

theorem refersToDual_head {t u : Expr} (h : t.head = u.head) : t.refersToDual = u.refersToDual := by
  rw [refersToDual_eq t, refersToDual_eq u, h]

theorem flat_shallow :
    Tree.Shallow fun u : Expr => u.refersToDual = false ∧ ∀ c as, u ≠ .invoke c as where
  head := by
    rintro t u h ⟨hrefers, hinvoke⟩
    refine ⟨refersToDual_head h ▸ hrefers, ?_⟩
    rintro c as rfl
    cases t <;> first | cases h | exact hinvoke _ _ rfl
  lambda ps b _ := ⟨rfl, fun c as h => by cases h⟩

theorem flat_lambda {ps : List Param} {b : Expr} (h : b.Flat) : (Tree.lambda ps b).Flat :=
  Tree.everywhere_single ⟨rfl, fun c as h => by cases h⟩ rfl h

/-- The tree forms have one parameter and flat bodies. -/
structure FlatForms (form : Dual → Lam) (D : Dual → Prop) : Prop where
  single : ∀ d, D d → ∃ p, (form d).params = [p]
  flat : ∀ d, D d → (form d).body.Flat

/-- **Where all kinds are replaced, nothing refers to a dual.** -/
theorem Inlined.flat {b : Bool} {t u : Expr} (hforms : FlatForms form D) (hκ : ∀ kind, κ kind)
    (h : Inlined V form D F κ b t u) : u.Flat := by
  induction h with
  | @node t u parts hbasic hrefers _ hhead hchildren _ ih =>
      refine Tree.everywhere_iff.2 ⟨⟨?_, (hbasic.shape hhead).2.2⟩, fun c hc => ?_⟩
      · rw [refersToDual_head hhead]; exact hrefers
      · rw [hchildren] at hc
        obtain ⟨q, hq, rfl⟩ := List.mem_map.1 hc
        exact ih q hq
  | param hp =>
      refine Tree.everywhere_leaf ⟨?_, fun c as h => by cases h⟩ rfl
      simp [Tree.refersToDual, hp]
  | kept _ hkept => exact absurd (hκ _) hkept
  | replaced _ _ _ hd _ _ _ ih =>
      exact Tree.Everywhere.inserted _ flat_shallow ih (hforms.flat _ hd)
  | handedKept _ hkept => exact absurd (hκ _) hkept
  | handed _ _ hd _ => exact flat_lambda (hforms.flat _ hd)

/-! ## One pass -/

section Pass

variable {host : Host} {I : Store → Prop} {pass : DualPass} {d : Dual}

theorem rebuild_node (t : Expr) (f : Expr → Act Expr) :
    Visited.rebuild (t.node.map fun c => (c, f c)) = (do
      return Tree.fill t.head (← t.children.mapM f)) := by
  cases t <;>
    simp [Visited.rebuild, Node.traverse, Node.map, Tree.node, Tree.children, Node.children,
      Tree.head, Tree.fill, Node.tree, List.mapM_map, Function.comp_def]

/-- A pass rewrites the direct subtrees of a node it rebuilds and puts the node back on them. -/
theorem run_eq_fill {E : Engine} {t : Expr} (hrefers : t.refersToDual = false)
    (hcallee : ∀ receiver m arg, t = .invoke (.member receiver m) [arg] →
      m.declaring.wrapper? = none) :
    pass.run E t = (do return Tree.fill t.head (← t.children.mapM fun c => pass.run E c)) :=
  (run_plain hrefers hcallee).trans (rebuild_node t _)

/-- A pass that rewrites the direct subtrees and puts the node back on them. -/
theorem filled_exactly {t u : Expr} (hrun : ∀ E : Engine, pass.run E t = (do
      return Tree.fill t.head (← t.children.mapM fun c => pass.run E c)))
    (hhead : u.head = t.head)
    (h : List.Forall₂ (fun c c' => Exactly host I (fun E => pass.run E c) c') t.children u.children) :
    Exactly host I (fun E => pass.run E t) u := by
  refine Exactly.congr hrun ?_
  have hfill : Tree.fill t.head u.children = u := by rw [← hhead, Tree.fill_children]
  have hmap := (Exactly.mapM (f := fun E c => pass.run E c) h).bind
    (f := fun _ cs => pure (Tree.fill t.head cs)) (Exactly.pure _)
  rwa [hfill] at hmap

/-- A pass over a node it rebuilds, from what it does to the direct subtrees. -/
theorem run_rebuilt {t u : Expr} (hrefers : t.refersToDual = false)
    (hcallee : ∀ receiver m arg, t = .invoke (.member receiver m) [arg] →
      m.declaring.wrapper? = none) (hhead : u.head = t.head)
    (h : List.Forall₂ (fun c c' => Exactly host I (fun E => pass.run E c) c') t.children u.children) :
    Exactly host I (fun E => pass.run E t) u :=
  filled_exactly (fun _ => run_eq_fill hrefers hcallee) hhead h

/-- The same for a node that is no application. -/
theorem run_node {t u : Expr} (hrefers : t.refersToDual = false) (hinvoke : ∀ c as, t ≠ .invoke c as)
    (hhead : u.head = t.head)
    (h : List.Forall₂ (fun c c' => Exactly host I (fun E => pass.run E c) c') t.children u.children) :
    Exactly host I (fun E => pass.run E t) u :=
  run_rebuilt hrefers (fun _ _ _ ht => absurd ht (hinvoke _ _)) hhead h

/-- A pass over an operation, from what it does to the operands. -/
theorem run_operation {α : Type} {t u w : Expr} {fs : List Bool} {operands : List α} {given rewritten : α → Expr}
    (hbasic : Basic V t fs) (hrefers : t.refersToDual = false) (hhead : u.head = t.head)
    (hu : u.children = operands.map given) (hw : w.head = u.head) (hchildren : w.children = operands.map rewritten)
    (h : ∀ q ∈ operands, Exactly host I (fun E => pass.run E (given q)) (rewritten q)) :
    Exactly host I (fun E => pass.run E u) w := by
  refine run_node ?_ (hbasic.shape hhead).2.2 hw ?_
  · rw [refersToDual_head hhead]; exact hrefers
  · rw [hchildren, hu, List.forall₂_map_left_iff, List.forall₂_map_right_iff]
    exact List.forall₂_same.2 h

/-- A pass leaves a flat tree as it is. -/
theorem run_flat {t : Expr} (ht : t.Flat) : Exactly host I (fun E => pass.run E t) t := by
  induction t using Tree.childwise with
  | step t ih =>
      refine run_node ht.here.1 ht.here.2 rfl ?_
      exact List.forall₂_same.2 fun c hc => ih c hc (ht.child hc)

/-- **A pass over a flat tree with a replaced parameter rewrites the replacement.** -/
theorem run_inserted {renames : Bool} {p : Param} {a m t : Expr} (ht : t.Flat)
    (hrenames : renames = true → m = a) (ha : Exactly host I (fun E => pass.run E a) m) :
    Exactly host I (fun E => pass.run E (Tree.inserted renames p a t)) (Tree.inserted renames p m t) := by
  induction t using Tree.binderwise with
  | param r =>
      rw [Tree.inserted_param, Tree.inserted_param]
      split
      · exact ha
      · exact run_flat ht
  | lambda ps b ih =>
      have hb := ht.child (List.mem_singleton.2 rfl)
      rw [Tree.inserted_lambda, Tree.inserted_lambda]
      cases renames with
      | true =>
          obtain rfl := hrenames rfl
          exact run_node rfl (fun c as h => by cases h) rfl (.cons (ih hb) .nil)
      | false =>
          refine run_node rfl (fun c as h => by cases h) rfl (.cons ?_ .nil)
          split
          · exact run_flat hb
          · exact ih hb
  | other t hparam hlambda ih =>
      have hhead : ∀ u, (Tree.inserted renames p u t).head = t.head := fun u =>
        Tree.inserted_head renames hparam hlambda
      obtain ⟨hrefers, hinvoke⟩ := flat_shallow.head (hhead a).symm ht.here
      refine run_node hrefers hinvoke ((hhead m).trans (hhead a).symm) ?_
      rw [Tree.inserted_children renames hparam hlambda,
        Tree.inserted_children renames hparam hlambda, List.forall₂_map_left_iff,
        List.forall₂_map_right_iff]
      exact List.forall₂_same.2 fun c hc => ih c hc (ht.child hc)

/-- What the engine rewrites is what a pass makes of it. -/
theorem rewrite_exactly {t u : Expr} (h : Exactly host I (fun E => pass.run E t) u) :
    Exactly host I (fun E => E.rewrite pass t) u :=
  Exactly.step rfl (fun _ => machine_rewrite pass t) h

theorem spliced_exactly {renames : Bool} {l : Lam} {p : Param} {a m : Expr}
    (htree : Exactly host I (fun E => E.tree d) l) (hp : l.params = [p]) (hflat : l.body.Flat)
    (hsubstitute : Tree.substitute p a l.body = Tree.inserted renames p a l.body)
    (hrenames : renames = true → m = a)
    (ha : Exactly host I (fun E => (DualPass.inlining d.kind).run E a) m) :
    Exactly host I (fun E => spliced E d a) (Tree.inserted renames p m l.body) := by
  refine htree.bind (f := fun E l => do E.rewrite _ (← Act.lift (l.applied a))) ?_
  refine (Exactly.lift (Lambda.applied_ok.2 ⟨p, hp, rfl⟩)).bind (f := fun E b => E.rewrite _ b) ?_
  rw [hsubstitute]
  exact rewrite_exactly (run_inserted hflat hrenames ha)

theorem unfolded_exactly {l : Lam} (htree : Exactly host I (fun E => E.tree d) l)
    (hflat : l.body.Flat) : Exactly host I (fun E => unfolded E d) l.tree := by
  refine htree.bind (f := fun E l => E.rewrite _ l.tree) ?_
  exact rewrite_exactly (run_flat (flat_lambda hflat))

theorem run_evaluation_same {E : Engine} (byMethod : Bool) (a : Expr) :
    (DualPass.inlining d.kind).run E (d.evaluation byMethod a) = spliced E d a := by
  cases byMethod with
  | false => exact run_invoked_same d a
  | true => exact run_called_same d a

theorem run_evaluation_other {E : Engine} (h : pass ≠ .inlining d.kind) (byMethod : Bool) (a : Expr) :
    pass.run E (d.evaluation byMethod a) = (do return d.evaluation byMethod (← pass.run E a)) := by
  cases byMethod with
  | false => exact run_invoked_other h a
  | true => exact run_called_other h a

theorem run_handed_same {E : Engine} (byConversion : Bool) :
    (DualPass.inlining d.kind).run E (d.handed byConversion) = unfolded E d := by
  cases byConversion with
  | false => exact run_functionRead_same d
  | true => exact run_converted_same d

theorem run_handed_other {E : Engine} (h : pass ≠ .inlining d.kind) (byConversion : Bool) :
    pass.run E (d.handed byConversion) = pure (d.handed byConversion) := by
  cases byConversion with
  | false => exact run_functionRead_other h
  | true => exact run_converted_other h

/-- A replaced parameter in a tree that is only a parameter. -/
theorem inserted_of_param {renames : Bool} {p : Param} {a m t : Expr}
    (h : ∃ q, Tree.inserted renames p a t = .param q) (ha : (∃ q, a = .param q) → m = a) :
    Tree.inserted renames p m t = Tree.inserted renames p a t := by
  obtain ⟨q, h⟩ := h
  cases t using Tree.binderwise with
  | param r =>
      rw [Tree.inserted_param] at h ⊢
      rw [Tree.inserted_param]
      by_cases hr : r = p
      · rw [if_pos hr] at h ⊢
        rw [if_pos hr]
        exact ha ⟨q, h⟩
      · rw [if_neg hr, if_neg hr]
  | lambda ps b =>
      rw [Tree.inserted_lambda] at h
      split at h <;> cases h
  | other t hparam hlambda =>
      have hhead := Tree.inserted_head (q := p) (a := a) renames hparam hlambda
      rw [h] at hhead
      cases t <;> first | exact absurd rfl (hparam _) | cases hhead

/-- The kinds replaced after a pass. -/
def DualPass.extends (pass : DualPass) (κ : DualKind → Prop) (kind : DualKind) : Prop :=
  κ kind ∨ pass = .inlining kind

/-- **A pass replaces the duals it is for.** What it makes of a tree does not depend on the store,
as long as the duals of the family have their tree forms there, and it keeps parameters. -/
theorem Inlined.run {b : Bool} {t u : Expr} (hforms : FlatForms form D)
    (h : Inlined V form D F κ b t u) (host : Host) (pass : DualPass) :
    ∃ u', Inlined V form D F (pass.extends κ) b t u' ∧ ((∃ q, u = .param q) → u' = u) ∧
      ∀ I, (∀ d, D d → Exactly host I (fun E => E.tree d) (form d)) →
        Exactly host I (fun E => pass.run E u) u' := by
  induction h with
  | @node t u parts hbasic hrefers ht hhead hu _ ih =>
      choose! g hg using ih
      have hlength : (parts.map g).length = u.children.length := by simp [hu]
      obtain ⟨hghead, hgchildren⟩ := Tree.fill_spec hlength
      refine ⟨Tree.fill u.head (parts.map g), ?_, ?_, fun I hI => ?_⟩
      · exact .of_operands parts (·.1) (·.2.1) g hbasic hrefers ht (hghead.trans hhead) hgchildren
          fun q hq => (hg q hq).1
      · rintro ⟨q, hq⟩
        exact absurd hq ((hbasic.shape hhead).1 q)
      · exact run_operation hbasic hrefers hhead hu hghead hgchildren fun q hq => (hg q hq).2.2 I hI
  | @param p hp =>
      refine ⟨.param p, .param hp, fun _ => rfl, fun I _ =>
        run_node ?_ (fun c as h => by cases h) rfl .nil⟩
      simp [Tree.refersToDual, hp]
  | @kept d a a' byMethod hkept hd hyg ha ih =>
      obtain ⟨m, hm, hstays, hrun⟩ := ih
      have hne : ¬ ∃ q, d.evaluation byMethod a' = .param q := by
        rintro ⟨q, h⟩
        cases byMethod <;> cases h
      -- Only the pass for the kind of the dual splices; the others rewrite the argument where it stands.
      by_cases hpass : pass = .inlining d.kind
      · obtain ⟨p, hp⟩ := hforms.single d hd
        obtain ⟨renames, hrenames, hsubstitute⟩ := (hyg.argument ha).inserted hp
        refine ⟨_, .replaced renames byMethod (.inr hpass) hd hp (fun h => ?_) hm,
          fun hparam => absurd hparam hne, fun I hI => ?_⟩
        · rw [hstays (hrenames h)]; exact hrenames h
        · subst hpass
          refine Exactly.congr (fun E => run_evaluation_same byMethod a') ?_
          exact spliced_exactly (hI d hd) hp (hforms.flat d hd) hsubstitute
            (fun h => hstays (hrenames h)) (hrun I hI)
      · refine ⟨_, .kept byMethod (by rintro (h | h); exacts [hkept h, hpass h]) hd hyg hm,
          fun hparam => absurd hparam hne, fun I hI => ?_⟩
        refine Exactly.congr (fun E => run_evaluation_other hpass byMethod a') ?_
        exact (hrun I hI).bind (f := fun _ u => pure (d.evaluation byMethod u)) (Exactly.pure _)
  | @replaced d a a' p renames byMethod hκ hd hp hrenames ha ih =>
      obtain ⟨m, hm, hstays, hrun⟩ := ih
      refine ⟨_, .replaced renames byMethod (.inl hκ) hd hp (fun h => ?_) hm,
        fun hparam => inserted_of_param hparam hstays, fun I hI => ?_⟩
      · rw [hstays (hrenames h)]; exact hrenames h
      · exact run_inserted (hforms.flat d hd) (fun h => hstays (hrenames h)) (hrun I hI)
  | @handedKept d byConversion hkept hd hF =>
      have hne : ¬ ∃ q, d.handed byConversion = .param q := by
        rintro ⟨q, h⟩
        cases byConversion <;> cases h
      by_cases hpass : pass = .inlining d.kind
      · refine ⟨_, .handed byConversion (.inr hpass) hd hF, fun hparam => absurd hparam hne,
          fun I hI => ?_⟩
        subst hpass
        refine Exactly.congr (fun E => run_handed_same byConversion) ?_
        exact unfolded_exactly (hI d hd) (hforms.flat d hd)
      · refine ⟨_, .handedKept byConversion (by rintro (h | h); exacts [hkept h, hpass h]) hd hF,
          fun _ => rfl, fun I hI => ?_⟩
        exact Exactly.congr (fun E => run_handed_other hpass byConversion) (Exactly.pure _)
  | @handed d byConversion hκ hd hF =>
      exact ⟨_, .handed byConversion (.inl hκ) hd hF, fun _ => rfl,
        fun I hI => run_flat (flat_lambda (hforms.flat d hd))⟩

/-- The pipeline over a lambda is its passes over the body. -/
theorem rewriteLambda_exactly {I : Store → Prop} {x : Param} {t u₁ u₂ u₃ u₄ : Expr}
    (h₁ : Exactly host I (fun E => DualPass.factories.run E t) u₁)
    (h₂ : Exactly host I (fun E => DualPass.combinators.run E u₁) u₂)
    (h₃ : Exactly host I (fun E => (DualPass.inlining .specification).run E u₂) u₃)
    (h₄ : Exactly host I (fun E => (DualPass.inlining .projection).run E u₃) u₄) :
    Exactly host I (fun E => rewriteLambda E ⟨[x], t⟩) ⟨[x], u₄⟩ := by
  have hlambda : ∀ {pass : DualPass} {v w : Expr}, Exactly host I (fun E => pass.run E v) w →
      Exactly host I (fun E => E.rewrite pass (.lambda [x] v)) (.lambda [x] w) := fun h =>
    rewrite_exactly (run_node rfl (fun c as h => by cases h) rfl (.cons h .nil))
  have hpasses : Exactly host I (fun E => runPasses E DualPass.all (.lambda [x] t))
      (.lambda [x] u₄) :=
    (hlambda h₁).bind <| (hlambda h₂).bind <| (hlambda h₃).bind <| (hlambda h₄).bind <|
      Exactly.pure _
  exact hpasses.bind (Exactly.lift rfl)

/-- **The pipeline over a lambda replaces all duals its body evaluates or hands on.** -/
theorem rewriteLambda_inlined {C : Dual → Expr → Prop} {x : Param} {t : Expr} (hforms : FlatForms form D)
    (ht : Body V C F false t) (hC : ∀ d a, C d a → D d ∧ (form d).Hygienic a) (hF : ∀ d, F d → D d)
    (host : Host) :
    ∃ u, Inlined V form D F (fun _ => True) false t u ∧
      ∀ I, (∀ d, D d → Exactly host I (fun E => E.tree d) (form d)) →
        Exactly host I (fun E => rewriteLambda E ⟨[x], t⟩) ⟨[x], u⟩ := by
  obtain ⟨u₁, h₁, _, hrun₁⟩ := (ht.inlined hC hF).run hforms host .factories
  obtain ⟨u₂, h₂, _, hrun₂⟩ := h₁.run hforms host .combinators
  obtain ⟨u₃, h₃, _, hrun₃⟩ := h₂.run hforms host (.inlining .specification)
  obtain ⟨u₄, h₄, _, hrun₄⟩ := h₃.run hforms host (.inlining .projection)
  refine ⟨u₄, h₄.congr fun kind => ?_, fun I hI => ?_⟩
  · refine ⟨fun _ => trivial, fun _ => ?_⟩
    cases kind with
    | projection => exact .inr rfl
    | specification => exact .inl (.inr rfl)
  exact rewriteLambda_exactly (hrun₁ I hI) (hrun₂ I hI) (hrun₃ I hI) (hrun₄ I hI)

end Pass

end DualForm
