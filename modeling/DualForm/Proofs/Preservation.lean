import DualForm.Proofs.Outcome
import DualForm.Proofs.Steps

/-!
# What the machine never undoes

* `Growing I`, `Lasting I` — `I` survives a new identity, and also the first publication of a form.
* `Engine.Keeps I E`, `Host.Keeps I host` — every answer of `E`, and all code of `host` run on such
  an engine, keeps `I`.
* `Engine.Concur I E E'`, `Host.Concur I host E E'` — where `I` holds, the answers of both engines
  are the same, and so is all code of `host` run on either; all of them keep `I`.

Everything a step does is a sequence of answers of the engine, code of the host, new identities and
publications. So there is one lemma for each function of the machine: on engines that concur it does
the same, and keeps `I`.

Principal result: `machine_keeps` — on a host that keeps it, nothing the machine does ever takes away an
`I` that lasts. In particular published forms stay published: `lasting_tree`, `lasting_function`.
-/

namespace DualForm

variable {I : Store → Prop} {E E' : Engine} {α : Type}

/-- The invariant survives new identities. -/
def Growing (I : Store → Prop) : Prop := ∀ s : Store, I s → I { s with nextId := s.nextId + 1 }

/-- The invariant survives new identities and first publications. -/
structure Lasting (I : Store → Prop) : Prop where
  identity : Growing I
  tree : ∀ (s : Store) (d : Dual) (l : Lam), s.trees[d.id]? = none → I s →
    I ((Slot.tree d).write l s)
  function : ∀ (s : Store) (d : Dual) (f : Func), s.functions[d.id]? = none → I s →
    I ((Slot.function d).write f s)

/-- The tree form of the dual with this identity has been published. -/
def TreePublished (id : Nat) (l : Lam) (s : Store) : Prop := s.trees[id]? = some l

/-- The function form of the dual with this identity has been published. -/
def FunctionPublished (id : Nat) (f : Func) (s : Store) : Prop := s.functions[id]? = some f

/-- Every answer of the engine keeps the invariant. -/
structure Engine.Keeps (I : Store → Prop) (E : Engine) : Prop where
  call : ∀ f args, (E.call f args).Keeps I
  tree : ∀ d, (E.tree d).Keeps I
  function : ∀ d, (E.function d).Keeps I
  rewrite : ∀ pass t, (E.rewrite pass t).Keeps I

/-- Host code keeps the invariant on every engine that does. -/
structure Host.Keeps (I : Store → Prop) (host : Host) : Prop where
  run : ∀ E, Engine.Keeps I E → ∀ self name held args, (host.run E self name held args).Keeps I
  buildTree : ∀ E, Engine.Keeps I E → ∀ id args, (host.buildTree E id args).Keeps I
  buildFunction : ∀ E, Engine.Keeps I E → ∀ id args, (host.buildFunction E id args).Keeps I
  decompile : ∀ E, Engine.Keeps I E → ∀ id f, (host.decompile E id f).Keeps I

/-- Where the invariant holds, the engines give the same answers, which keep it. -/
structure Engine.Concur (I : Store → Prop) (E E' : Engine) : Prop where
  call : ∀ f args, Act.Concur I (E.call f args) (E'.call f args)
  tree : ∀ d, Act.Concur I (E.tree d) (E'.tree d)
  function : ∀ d, Act.Concur I (E.function d) (E'.function d)
  rewrite : ∀ pass t, Act.Concur I (E.rewrite pass t) (E'.rewrite pass t)

/-- Where the invariant holds, host code does the same on both engines, and keeps it. -/
structure Host.Concur (I : Store → Prop) (host : Host) (E E' : Engine) : Prop where
  run : ∀ self name held args,
    Act.Concur I (host.run E self name held args) (host.run E' self name held args)
  buildTree : ∀ id args, Act.Concur I (host.buildTree E id args) (host.buildTree E' id args)
  buildFunction : ∀ id args,
    Act.Concur I (host.buildFunction E id args) (host.buildFunction E' id args)
  decompile : ∀ id f, Act.Concur I (host.decompile E id f) (host.decompile E' id f)

open Act (Keeps Concur)

theorem Engine.Keeps.concur (hE : E.Keeps I) : E.Concur I E :=
  ⟨fun f args => .refl (hE.call f args), fun d => .refl (hE.tree d), fun d => .refl (hE.function d),
    fun pass t => .refl (hE.rewrite pass t)⟩

theorem Engine.Concur.keeps (hE : E.Concur I E') : E.Keeps I :=
  ⟨fun f args => (hE.call f args).keeps, fun d => (hE.tree d).keeps, fun d => (hE.function d).keeps,
    fun pass t => (hE.rewrite pass t).keeps⟩

theorem Host.Keeps.concur {host : Host} (hh : host.Keeps I) (hE : E.Keeps I) : host.Concur I E E :=
  ⟨fun self name held args => .refl (hh.run E hE self name held args),
    fun id args => .refl (hh.buildTree E hE id args),
    fun id args => .refl (hh.buildFunction E hE id args), fun id f => .refl (hh.decompile E hE id f)⟩

/-! ## New identities and publications -/

theorem freshId_concur (hI : Growing I) : Concur I Act.freshId Act.freshId :=
  .refl ⟨fun s hs => hI s hs⟩

theorem newFunc_concur (hI : Growing I) (arity : Nat) (code : Code) :
    Concur I (Act.newFunc arity code) (Act.newFunc arity code) :=
  (freshId_concur hI).bind fun id => Concur.pure (Func.mk id arity code)

/-- What is returned was published before, was published meanwhile, or is published now. -/
theorem publishOnce_ok {slot : Slot α} {x : Act α} {s t : Store} {a : α}
    (h : Act.publishOnce slot x s = .ok a t) :
    (slot.read s = some a ∧ t = s) ∨ (slot.read s = none ∧ ∃ b v, x s = .ok b v ∧
      ((slot.read v = some a ∧ t = v) ∨ (slot.read v = none ∧ a = b ∧ t = slot.write a v))) := by
  unfold Act.publishOnce at h
  rw [Act.bind_ok (Act.get_run s)] at h
  cases hread : slot.read s with
  | some first =>
      rw [hread] at h
      obtain ⟨rfl, rfl⟩ := Act.pure_eq_ok.1 h
      exact .inl ⟨rfl, rfl⟩
  | none =>
      rw [hread] at h
      obtain ⟨b, v, hb, h⟩ := Act.bind_eq_ok.1 h
      rw [Act.bind_ok (Act.get_run v)] at h
      refine .inr ⟨rfl, b, v, hb, ?_⟩
      cases hlater : slot.read v with
      | some first =>
          rw [hlater] at h
          obtain ⟨rfl, rfl⟩ := Act.pure_eq_ok.1 h
          exact .inl ⟨rfl, rfl⟩
      | none =>
          rw [hlater] at h
          obtain ⟨_, w, hw, h⟩ := Act.bind_eq_ok.1 h
          obtain ⟨rfl, rfl⟩ := Act.pure_eq_ok.1 h
          cases hw
          exact .inr ⟨rfl, rfl, rfl⟩

theorem trees_write (d : Dual) (l : Lam) (s : Store) (id : Nat) :
    ((Slot.tree d).write l s).trees[id]? = if d.id = id then some l else s.trees[id]? := by
  show (s.trees.insert d.id l)[id]? = _
  rw [Std.HashMap.getElem?_insert]
  simp

theorem functions_write (d : Dual) (f : Func) (s : Store) (id : Nat) :
    ((Slot.function d).write f s).functions[id]? =
      if d.id = id then some f else s.functions[id]? := by
  show (s.functions.insert d.id f)[id]? = _
  rw [Std.HashMap.getElem?_insert]
  simp

/-- A published value is returned. -/
theorem publishOnce_found {slot : Slot α} {x : Act α} {s : Store} {a : α}
    (h : slot.read s = some a) : Act.publishOnce slot x s = .ok a s := by
  unfold Act.publishOnce
  rw [Act.bind_ok (Act.get_run s), h]
  rfl

/-- A value found meanwhile is returned. -/
theorem publishOnce_late {slot : Slot α} {x : Act α} {s v : Store} {a b : α}
    (hs : slot.read s = none) (hx : x s = .ok a v) (hv : slot.read v = some b) :
    Act.publishOnce slot x s = .ok b v := by
  unfold Act.publishOnce
  rw [Act.bind_ok (Act.get_run s), hs]
  dsimp only
  rw [Act.bind_ok hx, Act.bind_ok (Act.get_run v), hv]
  rfl

/-- The first value is published. -/
theorem publishOnce_first {slot : Slot α} {x : Act α} {s v : Store} {a : α}
    (hs : slot.read s = none) (hx : x s = .ok a v) (hv : slot.read v = none) :
    Act.publishOnce slot x s = .ok a (slot.write a v) := by
  unfold Act.publishOnce
  rw [Act.bind_ok (Act.get_run s), hs]
  dsimp only
  rw [Act.bind_ok hx, Act.bind_ok (Act.get_run v), hv]
  rfl

/-- Where computing the value fails, nothing is published. -/
theorem publishOnce_failed {slot : Slot α} {x : Act α} {s v : Store} {e : Stop}
    (hs : slot.read s = none) (hx : x s = .error e v) : Act.publishOnce slot x s = .error e v := by
  unfold Act.publishOnce
  rw [Act.bind_ok (Act.get_run s), hs]
  dsimp only
  exact Act.bind_error hx

/-- The last step of a publication: somebody else may have been first. -/
theorem publishLate_ensures {slot : Slot α} {post : α → Prop} {a : α} (ha : post a)
    (hread : ∀ s b, I s → slot.read s = some b → post b)
    (hwrite : ∀ s, slot.read s = none → I s → I (slot.write a s)) :
    Act.Ensures I post (do
      match slot.read (← get) with
      | some first => return first
      | none =>
          modify (slot.write a)
          return a) := by
  refine ⟨⟨fun s hs => ?_⟩, fun s b t hs hb => ?_⟩
  · rw [Act.final_bind_ok (Act.get_run s)]
    split
    · exact hs
    · rename_i hempty
      exact hwrite s hempty hs
  · rw [Act.bind_ok (Act.get_run s)] at hb
    cases hfirst : slot.read s with
    | some first =>
        rw [hfirst] at hb
        obtain ⟨rfl, _⟩ := Act.pure_eq_ok.1 hb
        exact hread s _ hs hfirst
    | none =>
        rw [hfirst] at hb
        obtain ⟨_, _, _, hb⟩ := Act.bind_eq_ok.1 hb
        obtain ⟨rfl, _⟩ := Act.pure_eq_ok.1 hb
        exact ha

/-- A value is published into an empty place only, and what is published is what is returned. -/
theorem publishOnce_ensures {slot : Slot α} {post : α → Prop} {x : Act α} (hx : x.Ensures I post)
    (hread : ∀ s a, I s → slot.read s = some a → post a)
    (hwrite : ∀ s a, slot.read s = none → I s → post a → I (slot.write a s)) :
    (Act.publishOnce slot x).Ensures I post := by
  have hrest := hx.bind fun a ha =>
    publishLate_ensures ha hread fun s hempty hs => hwrite s a hempty hs ha
  unfold Act.publishOnce
  refine ⟨⟨fun s hs => ?_⟩, fun s b t hs hb => ?_⟩
  · rw [Act.final_bind_ok (Act.get_run s)]
    split
    · exact hs
    · exact hrest.keeps.after s hs
  · rw [Act.bind_ok (Act.get_run s)] at hb
    cases hfound : slot.read s with
    | some a =>
        rw [hfound] at hb
        obtain ⟨rfl, _⟩ := Act.pure_eq_ok.1 hb
        exact hread s _ hs hfound
    | none =>
        rw [hfound] at hb
        exact hrest.result s b t hs hb

/-- A form is published into an empty place only. -/
theorem publishOnce_keeps {slot : Slot α} {x : Act α}
    (hwrite : ∀ s a, slot.read s = none → I s → I (slot.write a s)) (hx : x.Keeps I) :
    (Act.publishOnce slot x).Keeps I := by
  have h : Act.Ensures I (fun _ => True) (Act.publishOnce slot x) :=
    publishOnce_ensures ⟨hx, fun _ _ _ _ _ => trivial⟩ (fun _ _ _ _ => trivial)
      fun s a hempty hs _ => hwrite s a hempty hs
  exact h.keeps

/-- The same form, computed on engines that concur. -/
theorem publishOnce_concur {slot : Slot α} {x y : Act α}
    (hwrite : ∀ s a, slot.read s = none → I s → I (slot.write a s)) (h : Concur I x y) :
    Concur I (Act.publishOnce slot x) (Act.publishOnce slot y) := by
  refine ⟨fun s hs => ?_, publishOnce_keeps hwrite h.keeps⟩
  have hlate : ∀ a, Act.Ensures I (fun _ => True) _ := fun a =>
    publishLate_ensures trivial (fun _ _ _ _ => trivial) fun s hempty hs => hwrite s a hempty hs
  unfold Act.publishOnce
  rw [Act.bind_ok (Act.get_run s), Act.bind_ok (Act.get_run s)]
  cases slot.read s with
  | some a => rfl
  | none => exact (h.bind fun a => .refl (hlate a).keeps).same s hs

/-- How a form is computed does not matter any more once it is published. -/
theorem publishOnce_unaffected {slot : Slot α} (hfound : ∀ s, I s → ∃ a, slot.read s = some a)
    (x y : Act α) : Concur I (Act.publishOnce slot x) (Act.publishOnce slot y) := by
  refine ⟨fun s hs => ?_, ⟨fun s hs => ?_⟩⟩
  · obtain ⟨a, ha⟩ := hfound s hs
    rw [publishOnce_found ha, publishOnce_found ha]
  · obtain ⟨a, ha⟩ := hfound s hs
    rw [Act.final_ok (publishOnce_found ha)]
    exact hs

/-! ## Making duals and binding factories -/

theorem create_concur (hI : Growing I) (kind : DualKind) (source result : Ty) (origin : Origin) :
    Concur I (Dual.create kind source result origin) (Dual.create kind source result origin) :=
  (freshId_concur hI).bind fun id => Concur.pure (Dual.mk id kind source result origin)

theorem conjunction_concur (hI : Growing I) (d e : Dual) :
    Concur I (Dual.conjunction d e) (Dual.conjunction d e) :=
  (Concur.lift _).bind fun _ => create_concur hI ..

theorem disjunction_concur (hI : Growing I) (d e : Dual) :
    Concur I (Dual.disjunction d e) (Dual.disjunction d e) :=
  (Concur.lift _).bind fun _ => create_concur hI ..

theorem negation_concur (hI : Growing I) (d : Dual) :
    Concur I (Dual.negation d) (Dual.negation d) :=
  create_concur hI ..

theorem realize_concur (hI : Growing I) (k : Factory) (bs : List (FormalParam × Argument)) :
    Concur I (k.realize bs) (k.realize bs) :=
  (create_concur hI ..).bind fun d => Concur.pure (Datum.dual d)

theorem bindArguments_concur (hI : Growing I) (k : Factory) (args : List Argument) :
    Concur I (k.bindArguments args) (k.bindArguments args) := by
  unfold Factory.bindArguments
  split
  · exact realize_concur hI ..
  · exact (freshId_concur hI).bind fun id => Concur.pure _
  · exact realize_concur hI ..
  · exact Concur.fail _

/-! ## Evaluation -/

theorem evaluate_dual_concur (hE : E.Concur I E') (d : Dual) (v : Value) :
    Concur I (d.evaluate E v) (d.evaluate E' v) :=
  (hE.function d).bind fun f => hE.call f [v]

theorem read_concur (hE : E.Concur I E') (m : Member Getter) (target : Option Value) :
    Concur I (m.read E target) (m.read E' target) := by
  unfold Member.read
  split
  · exact Concur.fail _
  · exact Concur.fail _
  · split
    · split
      · exact Concur.pure _
      · exact Concur.fail _
    · exact Concur.fail _
    · exact Concur.fail _
    · exact hE.call ..
    · exact Concur.fail _
    · exact Concur.pure _
    · exact hE.call ..
    · exact (Concur.lift _).bind fun d => (hE.function d).bind fun f => Concur.pure (Datum.func f)
    · exact Concur.fail _

theorem onTarget_concur {run run' : Value → Act Value} (h : ∀ v, Concur I (run v) (run' v))
    (m : Method Invoker) (target : Option Value) :
    Concur I (m.onTarget target run) (m.onTarget target run') := by
  unfold Method.onTarget
  split
  · exact h _
  · exact Concur.fail _

theorem invoke_concur (hI : Growing I) (hE : E.Concur I E') (m : Method Invoker)
    (target : Option Value) (args : List Value) :
    Concur I (m.invoke E target args) (m.invoke E' target args) := by
  unfold Method.invoke
  split
  · exact Concur.fail _
  · split
    · exact hE.call ..
    · exact onTarget_concur (fun v => hE.call ..) m target
    · exact onTarget_concur (fun v => (Concur.lift _).bind fun d => evaluate_dual_concur hE d _)
        m target
    · exact (Concur.lift _).bind fun d => (hE.function d).bind fun f => Concur.pure (Datum.func f)
    · exact (Concur.lift _).bind fun d => (Concur.lift _).bind fun e =>
        (conjunction_concur hI d e).bind fun c => Concur.pure (Datum.dual c)
    · exact (Concur.lift _).bind fun d => (Concur.lift _).bind fun e =>
        (disjunction_concur hI d e).bind fun c => Concur.pure (Datum.dual c)
    · exact (Concur.lift _).bind fun d =>
        (negation_concur hI d).bind fun c => Concur.pure (Datum.dual c)
    · refine onTarget_concur (fun v => ?_) m target
      split
      · exact bindArguments_concur hI ..
      · exact Concur.fail _
    · exact Concur.fail _

theorem evaluateAll_concur {scope : Scope} : ∀ ts : List Expr,
    (∀ t ∈ ts, Concur I (evaluate E scope t) (evaluate E' scope t)) →
    Concur I (evaluateAll E scope ts) (evaluateAll E' scope ts)
  | [], _ => by unfold evaluateAll; exact Concur.pure []
  | t :: ts, h => by
      unfold evaluateAll
      refine (h t (List.mem_cons_self ..)).bind fun v => ?_
      exact (evaluateAll_concur ts fun u hu => h u (List.mem_cons_of_mem _ hu)).bind fun vs =>
        Concur.pure (v :: vs)

theorem evaluate_concur (hI : Growing I) (hE : E.Concur I E') (scope : Scope) (t : Expr) :
    Concur I (evaluate E scope t) (evaluate E' scope t) := by
  induction t using Tree.nodewise with
  | literal v ty => unfold evaluate; exact Concur.pure v
  | param p =>
      unfold evaluate
      split
      · exact Concur.pure _
      · exact Concur.fail _
  | staticMember m => unfold evaluate; exact read_concur hE ..
  | member target m ih => unfold evaluate; exact ih.bind fun v => read_concur hE ..
  | staticCall m args ih =>
      unfold evaluate; exact (evaluateAll_concur args ih).bind fun vs => invoke_concur hI hE ..
  | call target m args iht ih =>
      unfold evaluate
      exact iht.bind fun v => (evaluateAll_concur args ih).bind fun vs => invoke_concur hI hE ..
  | binary op lhs rhs via ihl ihr =>
      cases via with
      | some m =>
          rw [evaluate_via, evaluate_via]
          exact ihl.bind fun l => ihr.bind fun r => invoke_concur hI hE ..
      | none =>
          by_cases hand : op = .andAlso
          · rw [hand, evaluate_andAlso, evaluate_andAlso]
            refine ihl.bind fun l => (Concur.lift _).bind fun b => ?_
            split
            · exact ihr.bind fun r => (Concur.lift _).bind fun c => Concur.pure _
            · exact Concur.pure _
          by_cases hor : op = .orElse
          · rw [hor, evaluate_orElse, evaluate_orElse]
            refine ihl.bind fun l => (Concur.lift _).bind fun b => ?_
            split
            · exact Concur.pure _
            · exact ihr.bind fun r => (Concur.lift _).bind fun c => Concur.pure _
          · rw [evaluate_strict hand hor, evaluate_strict hand hor]
            exact ihl.bind fun l => ihr.bind fun r => Concur.lift _
  | unary op operand via ty ih =>
      unfold evaluate
      refine ih.bind fun v => ?_
      split
      · exact invoke_concur hI hE ..
      · exact Concur.lift _
  | lambda params body ih =>
      unfold evaluate; exact (newFunc_concur hI ..).bind fun f => Concur.pure (Datum.func f)
  | invoke callee args ihc ih =>
      unfold evaluate
      refine ihc.bind fun v => (evaluateAll_concur args ih).bind fun vs => ?_
      split
      · exact hE.call ..
      · exact Concur.fail _
  | conditional test ifTrue ifFalse iht ihp ihn =>
      unfold evaluate
      refine iht.bind fun v => (Concur.lift _).bind fun b => ?_
      split
      · exact ihp
      · exact ihn

/-! ## Rewriting -/

theorem tryEvaluate_concur (hE : E.Concur I E') (t : Expr) :
    Concur I (tryEvaluate E t) (tryEvaluate E' t) := by
  induction t using Tree.nodewise with
  | literal v ty => unfold tryEvaluate; exact Concur.pure _
  | staticMember m =>
      unfold tryEvaluate; exact (read_concur hE ..).bind fun v => Concur.pure _
  | member target m ih =>
      unfold tryEvaluate
      refine ih.bind fun v => ?_
      split
      · exact (read_concur hE ..).bind fun w => Concur.pure _
      · exact Concur.pure _
  | param | staticCall | call | binary | unary | lambda | invoke | conditional =>
      unfold tryEvaluate; exact Concur.pure _

theorem foldDual_concur (hE : E.Concur I E') (kind : DualKind) (t : Expr) :
    Concur I (foldDual E kind t) (foldDual E' kind t) := by
  unfold foldDual
  refine (tryEvaluate_concur hE t).bind fun v => ?_
  split
  · exact Concur.pure _
  · split
    · exact Concur.fail _
    · exact (Concur.lift _).bind fun d => (hE.tree d).bind fun l => Concur.pure _

theorem evaluateNotNull_concur (hE : E.Concur I E') (t : Expr) :
    Concur I (evaluateNotNull E t) (evaluateNotNull E' t) := by
  unfold evaluateNotNull evaluateNow
  refine Concur.bind ?_ fun v => ?_
  · refine (tryEvaluate_concur hE t).bind fun v => ?_
    split
    · exact Concur.pure _
    · exact Concur.fail _
  · split
    · exact Concur.fail _
    · exact Concur.pure _

section Rules

/-- A node visited with a way to rewrite its subtrees. -/
def Visited.over (m : ExprNode Expr) (f : Expr → Act Expr) : Visited := m.map fun u => (u, f u)

theorem Visited.given_over (m : ExprNode Expr) (f : Expr → Act Expr) :
    (Visited.over m f).given = m.tree := by
  have h := Visited.given_node m.tree f
  rwa [Tree.node_tree] at h

variable {m : ExprNode Expr} {f g : Expr → Act Expr}

theorem rewriteArgs_concur {args : List Expr} (h : ∀ u ∈ args, Concur I (f u) (g u)) :
    Concur I ((args.map fun u => (u, f u)).mapM Prod.snd)
      ((args.map fun u => (u, g u)).mapM Prod.snd) := by
  rw [List.mapM_map, List.mapM_map]
  exact Concur.mapM_mem args h

/-- Rebuilding a node is rewriting its subtrees. -/
theorem rebuild_concur (h : ∀ u ∈ m.children, Concur I (f u) (g u)) :
    Concur I (Visited.over m f).rebuild (Visited.over m g).rebuild := by
  unfold Visited.rebuild
  refine Concur.bind ?_ fun m => Concur.pure m.tree
  cases m with
  | literal | param | staticMember => exact Concur.pure _
  | member target m => exact (h target (by simp [Node.children])).bind fun _ => Concur.pure _
  | staticCall m args => exact (rewriteArgs_concur h).bind fun _ => Concur.pure _
  | call target m args =>
      refine (h target (by simp [Node.children])).bind fun _ => ?_
      exact (rewriteArgs_concur fun a ha => h a (by simp [Node.children, ha])).bind fun _ =>
        Concur.pure _
  | binary op lhs rhs via =>
      exact (h lhs (by simp [Node.children])).bind fun _ =>
        (h rhs (by simp [Node.children])).bind fun _ => Concur.pure _
  | unary op operand via ty =>
      exact (h operand (by simp [Node.children])).bind fun _ => Concur.pure _
  | lambda params body =>
      exact (h body (by simp [Node.children])).bind fun _ => Concur.pure _
  | invoke callee args =>
      refine (h callee (by simp [Node.children])).bind fun _ => ?_
      exact (rewriteArgs_concur fun a ha => h a (by simp [Node.children, ha])).bind fun _ =>
        Concur.pure _
  | conditional test ifTrue ifFalse =>
      exact (h test (by simp [Node.children])).bind fun _ =>
        (h ifTrue (by simp [Node.children])).bind fun _ =>
          (h ifFalse (by simp [Node.children])).bind fun _ => Concur.pure _

theorem bindingArgument_concur (hI : Growing I) (hE : E.Concur I E') (t : Expr) :
    Concur I (bindingArgument E t) (bindingArgument E' t) := by
  have hcompiled : ∀ l, Concur I (Compiled.ofLambda l) (Compiled.ofLambda l) := fun l =>
    (newFunc_concur hI ..).bind fun f => Concur.pure _
  unfold bindingArgument
  refine (tryEvaluate_concur hE t).bind fun w => ?_
  split
  · exact Concur.pure _
  · split
    · refine Concur.bind ?_ fun c => Concur.pure _
      unfold Deferred.ofLambda
      split
      · exact hcompiled _
      · exact Concur.fail _
    · exact (hcompiled _).bind fun c => Concur.pure _

theorem factoryRule_concur (hI : Growing I) (hE : E.Concur I E')
    (h : ∀ u ∈ m.children, Concur I (f u) (g u)) :
    Concur I (factoryRule E (Visited.over m f)) (factoryRule E' (Visited.over m g)) := by
  have hrebuild := rebuild_concur h
  cases m with
  | staticCall m args =>
      have hgiven : (Visited.over (.staticCall m args) f).given =
          (Visited.over (.staticCall m args) g).given := by
        rw [Visited.given_over, Visited.given_over]
      show Concur I (if isBinding m then
          Act.fail ((Visited.over (.staticCall m args) f).given.unexpected _) else _)
        (if isBinding m then
          Act.fail ((Visited.over (.staticCall m args) g).given.unexpected _) else _)
      rw [hgiven]
      split
      · exact Concur.fail _
      · exact hrebuild
  | call target m args =>
      show Concur I (ite ..) (ite ..)
      split
      · exact hrebuild
      · refine (h target (by simp [Node.children])).bind fun receiver => ?_
        refine (evaluateNotNull_concur hE receiver).bind fun v => ?_
        split
        · exact Concur.fail _
        · refine Concur.bind ?_ fun bs =>
            (bindArguments_concur hI ..).bind fun bound => Concur.pure _
          rw [List.mapM_map, List.mapM_map]
          refine Concur.mapM_mem args fun a ha => ?_
          exact (h a (by simp [Node.children, ha])).bind fun t => bindingArgument_concur hI hE t
  | literal | param | staticMember | member | binary | unary | lambda | invoke | conditional =>
      exact hrebuild

theorem predicateOperand_concur (hE : E.Concur I E') {u : Expr} (h : Concur I (f u) (g u)) :
    Concur I (predicateOperand E (u, f u)) (predicateOperand E' (u, g u)) := by
  unfold predicateOperand
  refine (foldDual_concur hE ..).bind fun l => ?_
  split
  · exact Concur.pure _
  · refine h.bind fun t => ?_
    split
    · exact Concur.pure _
    · refine (foldDual_concur hE ..).bind fun l => ?_
      split
      · exact Concur.pure _
      · exact Concur.fail _

theorem combinatorRule_concur (hE : E.Concur I E')
    (h : ∀ u ∈ m.children, Concur I (f u) (g u)) :
    Concur I (combinatorRule E (Visited.over m f)) (combinatorRule E' (Visited.over m g)) := by
  have hrebuild := rebuild_concur h
  cases m with
  | binary op lhs rhs via =>
      have hl := predicateOperand_concur hE (h lhs (by simp [Node.children]))
      have hr := predicateOperand_concur hE (h rhs (by simp [Node.children]))
      show Concur I (ite ..) (ite ..)
      split
      · exact hl.bind fun l => hr.bind fun r => (Concur.lift _).bind fun c => hE.rewrite ..
      · split
        · exact hl.bind fun l => hr.bind fun r => (Concur.lift _).bind fun c => hE.rewrite ..
        · exact hrebuild
  | unary op operand via ty =>
      have ho := predicateOperand_concur hE (h operand (by simp [Node.children]))
      show Concur I (ite ..) (ite ..)
      split
      · exact ho.bind fun l => (Concur.lift _).bind fun c => hE.rewrite ..
      · exact hrebuild
  | literal | param | staticMember | member | staticCall | call | lambda | invoke | conditional =>
      exact hrebuild

theorem receiverLambda_concur (hE : E.Concur I E') (kind : DualKind) (t : Expr) :
    Concur I (receiverLambda E kind t) (receiverLambda E' kind t) := by
  unfold receiverLambda
  split
  · exact Concur.pure _
  · exact foldDual_concur hE ..

theorem isReceiver_concur (hE : E.Concur I E') (t : Expr) :
    Concur I (isReceiver E t) (isReceiver E' t) := by
  unfold isReceiver
  split
  · exact Concur.pure _
  · exact (tryEvaluate_concur hE _).bind fun v => Concur.pure _

theorem inlineCall_concur (hE : E.Concur I E') (kind : DualKind) (receiver arg : Expr) :
    Concur I (inlineCall E kind receiver arg) (inlineCall E' kind receiver arg) := by
  unfold inlineCall
  refine (receiverLambda_concur hE ..).bind fun l => ?_
  split
  · exact Concur.pure _
  · exact (Concur.lift _).bind fun body => (hE.rewrite ..).bind fun t => Concur.pure _

theorem spliceDual_concur (hE : E.Concur I E') (kind : DualKind)
    (h : ∀ u ∈ m.children, Concur I (f u) (g u)) :
    Concur I (spliceDual E kind (Visited.over m f)) (spliceDual E' kind (Visited.over m g)) := by
  unfold spliceDual
  rw [Visited.given_over, Visited.given_over]
  refine (foldDual_concur hE ..).bind fun l => ?_
  split
  · exact hE.rewrite ..
  · exact rebuild_concur h

theorem evaluationRule_concur (hE : E.Concur I E') (kind : DualKind) (receiver arg : Expr)
    (h : ∀ u ∈ m.children, Concur I (f u) (g u)) :
    Concur I (evaluationRule E kind receiver arg (Visited.over m f))
      (evaluationRule E' kind receiver arg (Visited.over m g)) := by
  unfold evaluationRule
  refine (inlineCall_concur hE ..).bind fun t => ?_
  split
  · exact Concur.pure _
  · exact rebuild_concur h

theorem inliningRule_concur (hE : E.Concur I E') (kind : DualKind)
    (h : ∀ u ∈ m.children, Concur I (f u) (g u)) :
    Concur I (inliningRule E kind (Visited.over m f)) (inliningRule E' kind (Visited.over m g)) := by
  have hrebuild := rebuild_concur h
  have hsplice : ∀ b : Bool, Concur I
      (if b then spliceDual E kind (Visited.over m f) else (Visited.over m f).rebuild)
      (if b then spliceDual E' kind (Visited.over m g) else (Visited.over m g).rebuild) := by
    intro b
    cases b with
    | true => exact spliceDual_concur hE kind h
    | false => exact hrebuild
  cases m with
  | invoke callee args =>
      cases callee with
      | member receiver m =>
          rcases args with _ | ⟨arg, _ | ⟨arg', args⟩⟩
          · exact hrebuild
          · show Concur I (ite ..) (ite ..)
            split
            · exact evaluationRule_concur hE kind receiver arg h
            · exact hrebuild
          · exact hrebuild
      | literal | param | staticMember | staticCall | call | binary | unary | lambda | invoke
      | conditional => exact hrebuild
  | call receiver m args =>
      rcases args with _ | ⟨arg, _ | ⟨arg', args⟩⟩
      · exact hrebuild
      · show Concur I (ite ..) (ite ..)
        split
        · exact evaluationRule_concur hE kind receiver arg h
        · exact hrebuild
      · exact hrebuild
  | member receiver m =>
      show Concur I (ite ..) (ite ..)
      split
      · refine (isReceiver_concur hE receiver).bind fun b => ?_
        cases b with
        | true => exact h receiver (by simp [Node.children])
        | false => exact hsplice _
      · exact hsplice _
  | staticMember m => exact hsplice _
  | literal v ty => exact hsplice _
  | unary op operand via ty =>
      cases op with
      | not | negate => exact hrebuild
      | convert =>
          cases via with
          | none => exact hrebuild
          | some m =>
              show Concur I (ite ..) (ite ..)
              split
              · exact h operand (by simp [Node.children])
              · exact hrebuild
  | param | staticCall | binary | lambda | conditional => exact hrebuild

end Rules

theorem pass_concur (hI : Growing I) (hE : E.Concur I E') (pass : DualPass) (t : Expr) :
    Concur I (pass.run E t) (pass.run E' t) := by
  induction t using Tree.childwise with
  | step t ih =>
      rw [DualPass.run_eq, DualPass.run_eq]
      cases pass with
      | factories => exact factoryRule_concur hI hE ih
      | combinators => exact combinatorRule_concur hE ih
      | inlining kind => exact inliningRule_concur hE kind ih

theorem runPasses_concur (hE : E.Concur I E') : ∀ (passes : List DualPass) (t : Expr),
    Concur I (runPasses E passes t) (runPasses E' passes t)
  | [], t => Concur.pure t
  | pass :: passes, t => (hE.rewrite pass t).bind fun u => runPasses_concur hE passes u

theorem rewriteLambda_concur (hE : E.Concur I E') (l : Lam) :
    Concur I (rewriteLambda E l) (rewriteLambda E' l) :=
  (runPasses_concur hE DualPass.all l.tree).bind fun _ => Concur.lift _

/-! ## The forms of duals -/

variable {host : Host}

theorem compiled_tree_concur (hh : host.Concur I E E') (c : Compiled) :
    Concur I (c.tree host E) (c.tree host E') := by
  unfold Compiled.tree
  split
  · exact Concur.pure _
  · exact hh.decompile ..
  · exact Concur.fail _

theorem resolved_concur (hE : E.Concur I E') (bs : Bindings) :
    Concur I (bs.resolved E) (bs.resolved E') :=
  Concur.mapM_mem bs fun b _ => by
    obtain ⟨formal, arg⟩ := b
    cases arg with
    | value v => exact Concur.pure _
    | deferred accessor => exact (hE.call accessor.func []).bind fun v => Concur.pure _

theorem buildFunction_concur (hI : Growing I) (hh : host.Concur I E E') (b : Builders)
    (args : List Captured) : Concur I (b.buildFunction host E args) (b.buildFunction host E' args) := by
  unfold Builders.buildFunction
  split
  · exact (hh.buildTree ..).bind fun l => newFunc_concur hI ..
  · exact hh.buildFunction ..
  · exact hh.buildFunction ..

theorem built_concur (hI : Growing I) (hh : host.Concur I E E') (hE : E.Concur I E') (b : Builders)
    (bs : Bindings) : Concur I (bs.built host E b) (bs.built host E' b) :=
  (resolved_concur hE bs).bind fun args => buildFunction_concur hI hh b args

theorem bindings_function_concur (hI : Growing I) (hh : host.Concur I E E') (hE : E.Concur I E')
    (b : Builders) (bs : Bindings) : Concur I (bs.function host E b) (bs.function host E' b) := by
  unfold Bindings.function
  split
  · exact newFunc_concur hI ..
  · exact built_concur hI hh hE b bs

theorem bindings_tree_concur (hh : host.Concur I E E') (b : Builders) (bs : Bindings) :
    Concur I (bs.tree host E b) (bs.tree host E' b) := by
  have hsplice : ∀ (bs : Bindings) (body : Expr),
      Concur I (bs.foldlM (Bindings.splice host E) body) (bs.foldlM (Bindings.splice host E') body) := by
    intro bs
    induction bs with
    | nil => intro body; exact Concur.pure body
    | cons x bs ih =>
        intro body
        obtain ⟨formal, arg⟩ := x
        refine Concur.bind ?_ fun u => ih u
        cases arg with
        | value v => exact Concur.pure _
        | deferred accessor =>
            exact ((compiled_tree_concur hh accessor).bind fun l => Concur.pure _).bind fun u =>
              Concur.pure _
  refine Concur.bind ?_ fun l => (hsplice bs l.body).bind fun body => Concur.pure _
  have hcheck : ∀ l : Lam, Concur I
      (do let _ ← Act.lift (l.expectSingle "expression"); return l)
      (do let _ ← Act.lift (l.expectSingle "expression"); return l) := fun l =>
    (Concur.lift _).bind fun p => Concur.pure l
  unfold Builders.buildTree
  cases b with
  | tree build => exact (hh.buildTree ..).bind hcheck
  | both func build => exact (hh.buildTree ..).bind hcheck
  | function func decompiler =>
      exact (hh.buildFunction ..).bind fun f => (hh.decompile ..).bind hcheck

theorem initialTree_concur (hh : host.Concur I E E') (hE : E.Concur I E') (d : Dual) :
    Concur I (d.initialTree host E) (d.initialTree host E') := by
  unfold Dual.initialTree
  split
  · exact rewriteLambda_concur hE _
  · exact (compiled_tree_concur hh _).bind fun l => rewriteLambda_concur hE l
  · exact (bindings_tree_concur hh ..).bind fun l => rewriteLambda_concur hE l
  · refine (hh.buildTree ..).bind fun l => ?_
    split
    · exact rewriteLambda_concur hE l
    · exact Concur.pure l
  · exact (hE.tree _).bind fun f => (hE.tree _).bind fun g => Concur.lift _
  · exact (hE.tree _).bind fun f => (compiled_tree_concur hh _).bind fun g => Concur.lift _
  · exact (hE.tree _).bind fun f => (compiled_tree_concur hh _).bind fun g => Concur.lift _
  · exact (hE.tree _).bind fun f => (hE.tree _).bind fun g => Concur.lift _
  · exact (hE.tree _).bind fun f => (hE.tree _).bind fun g => Concur.lift _
  · exact (hE.tree _).bind fun f => Concur.lift _

theorem initialFunction_concur (hI : Growing I) (hh : host.Concur I E E') (hE : E.Concur I E')
    (d : Dual) : Concur I (d.initialFunction host E) (d.initialFunction host E') := by
  unfold Dual.initialFunction
  split
  · exact newFunc_concur hI ..
  · exact Concur.pure _
  · exact bindings_function_concur hI hh hE ..
  · exact hh.buildFunction ..
  · exact (hE.function _).bind fun f => (hE.function _).bind fun g => newFunc_concur hI ..
  · exact (hE.function _).bind fun f => newFunc_concur hI ..
  · exact (hE.function _).bind fun f => newFunc_concur hI ..
  · exact (hE.function _).bind fun f => (hE.function _).bind fun g => newFunc_concur hI ..
  · exact (hE.function _).bind fun f => (hE.function _).bind fun g => newFunc_concur hI ..
  · exact (hE.function _).bind fun f => newFunc_concur hI ..

/-! ## Calls -/

theorem holds_concur (hE : E.Concur I E') (f : Func) (context : String) (v : Value) :
    Concur I (f.holds E context v) (f.holds E' context v) :=
  (hE.call f [v]).bind fun _ => Concur.lift _

theorem apply_concur (hI : Growing I) (hh : host.Concur I E E') (hE : E.Concur I E') (f : Func)
    (args : List Value) : Concur I (f.apply host E args) (f.apply host E' args) := by
  unfold Func.apply
  split
  · exact Concur.fail _
  · unfold Code.run
    split
    · exact evaluate_concur hI hE ..
    · exact hh.run ..
    · exact (hE.call ..).bind fun v => hE.call ..
    · refine (holds_concur hE ..).bind fun b => ?_
      split
      · exact (holds_concur hE ..).bind fun c => Concur.pure _
      · exact Concur.pure _
    · refine (holds_concur hE ..).bind fun b => ?_
      split
      · exact Concur.pure _
      · exact (holds_concur hE ..).bind fun c => Concur.pure _
    · exact (holds_concur hE ..).bind fun b => Concur.pure _
    · exact (built_concur hI hh hE ..).bind fun g => hE.call ..
    · exact Concur.fail _

/-- **What lasts on the host lasts on the machine.** -/
theorem machine_keeps (hI : Lasting I) (hh : host.Keeps I) : ∀ n, (machine host n).Keeps I
  | 0 => ⟨fun _ _ => Keeps.exhausted, fun _ => Keeps.exhausted, fun _ => Keeps.exhausted,
      fun _ _ => Keeps.exhausted⟩
  | n + 1 => by
      have hE := (machine_keeps hI hh n).concur
      have hhost := hh.concur hE.keeps
      exact ⟨fun f args => (apply_concur hI.identity hhost hE f args).keeps,
        fun d => publishOnce_keeps (fun s l h hs => hI.tree s d l h hs)
          (initialTree_concur hhost hE d).keeps,
        fun d => publishOnce_keeps (fun s f h hs => hI.function s d f h hs)
          (initialFunction_concur hI.identity hhost hE d).keeps,
        fun pass t => (pass_concur hI.identity hE pass t).keeps⟩

/-- A published tree form stays published. -/
theorem lasting_tree (id : Nat) (l : Lam) : Lasting (TreePublished id l) where
  identity _ hs := hs
  tree s d k hempty hs := by
    unfold TreePublished at hs ⊢
    have hne : d.id ≠ id := fun h => by rw [h, hs] at hempty; cases hempty
    rw [trees_write, if_neg hne, hs]
  function _ _ _ _ hs := hs

/-- A published function form stays published. -/
theorem lasting_function (id : Nat) (f : Func) : Lasting (FunctionPublished id f) where
  identity _ hs := hs
  tree _ _ _ _ hs := hs
  function s d k hempty hs := by
    unfold FunctionPublished at hs ⊢
    have hne : d.id ≠ id := fun h => by rw [h, hs] at hempty; cases hempty
    rw [functions_write, if_neg hne, hs]

end DualForm
