import DualForm.Proofs.Dual.Rendering
import DualForm.Proofs.Preservation

/-!
# Evaluating what renders a dual

* `Vocabulary.Closed` — operators and field reads lead from data to data.
* `Stable I` — `I` looks at published forms only, and allows new identities.
* `Shared V v w`, `Tracks`, `Alike` — the same data; functions of which one follows the other on
  data; either of these, by what is expected.
* `Respects host V h fs` — the host function `h` depends on its arguments alone: where those are
  alike, one call follows the other.
* `FunctionForm d f` — `f` is the function form of `d`.

Principal results: `basic_follows` — operations over operands that follow one another do so;
`Renders.follows` — what renders a tree, or the application of a dual, follows its evaluation.
-/

namespace DualForm

open Act (Ensures)

/-- A value without parts and without identity. -/
def Datum.isScalar : Value → Bool
  | .null | .bool _ | .int _ | .float _ | .str _ => true
  | _ => false

/-- Operators and field reads lead from data to data. -/
structure Vocabulary.Closed (V : Vocabulary) : Prop where
  scalar : ∀ v : Value, v.isScalar = true → V.data v
  field : ∀ id declaring fields name v, V.data (.record id declaring fields) →
    Datum.fieldOf? fields name = some v → V.data v

/-- The invariant looks at published forms only, and allows new identities. -/
def Stable (I : Store → Prop) : Prop :=
  ∀ s t : Store, I s → t.trees = s.trees → t.functions = s.functions → s.nextId ≤ t.nextId → I t

variable {host : Host} {I : Store → Prop} {V : Vocabulary} {n : Nat}

/-- The same data. -/
def Shared (V : Vocabulary) (v w : Value) : Prop := V.data v ∧ v = w

/-- On data, `g` follows `f`. -/
def Tracks (host : Host) (I : Store → Prop) (V : Vocabulary) (f g : Func) : Prop :=
  ∀ n v, V.data v → Follows host I (Shared V) ((machine host n).call f [v]) fun E => E.call g [v]

/-- The same data, or functions of which one follows the other where functions are expected. -/
inductive Alike (host : Host) (I : Store → Prop) (V : Vocabulary) : Bool → Value → Value → Prop
  | data {v : Value} : V.data v → Alike host I V false v v
  | func {f g : Func} : Tracks host I V f g → Alike host I V true (.func f) (.func g)

/-- Lists of values that are alike. -/
inductive AllAlike (host : Host) (I : Store → Prop) (V : Vocabulary) :
    List Bool → List Value → List Value → Prop
  | nil : AllAlike host I V [] [] []
  | cons {b : Bool} {fs : List Bool} {v w : Value} {vs ws : List Value} : Alike host I V b v w →
      AllAlike host I V fs vs ws → AllAlike host I V (b :: fs) (v :: vs) (w :: ws)

/-- The host function depends on its arguments alone, of which those marked are functions. It does
not see the store, and of the functions it is handed only what they make of data. -/
def Respects (host : Host) (V : Vocabulary) (h : Func) (fs : List Bool) : Prop :=
  ∀ I, Stable I → ∀ n args args', AllAlike host I V fs args args' →
    Follows host I (Shared V) ((machine host n).call h args) fun E => E.call h args'

/-- All host functions of the vocabulary depend on their arguments alone. -/
def Vocabulary.Respected (host : Host) (V : Vocabulary) : Prop :=
  ∀ h fs, V.host h fs → Respects host V h fs

theorem alike_false {v w : Value} : Alike host I V false v w ↔ Shared V v w := by
  constructor
  · intro h
    cases h with
    | data hv => exact ⟨hv, rfl⟩
  · rintro ⟨hv, rfl⟩
    exact .data hv

theorem AllAlike.length {fs : List Bool} {vs ws : List Value} (h : AllAlike host I V fs vs ws) :
    vs.length = ws.length := by
  induction h with
  | nil => rfl
  | cons _ _ ih => simp [ih]

/-! ## Operators -/

theorem binaryResult_scalar {op : BinaryOp} {v w c : Value} (h : Value.binaryResult? op v w = some c) :
    c.isScalar = true := by
  have hbool : ∀ a b, Value.booleanOperation op a b = some c → c.isScalar = true := by
    intro a b h
    cases op <;> cases h <;> rfl
  have hint : ∀ a b, Value.integerOperation op a b = some c → c.isScalar = true := by
    intro a b h
    unfold Value.integerOperation at h
    split at h <;> first | (cases h; rfl) | (split at h <;> cases h; rfl) | cases h
  have hfloat : ∀ a b, Value.floatOperation op a b = some c → c.isScalar = true := by
    intro a b h
    cases op <;> cases h <;> rfl
  have hstr : ∀ a b, Value.stringOperation op a b = some c → c.isScalar = true := by
    intro a b h
    cases op <;> cases h <;> rfl
  unfold Value.binaryResult? at h
  split at h
  · cases h; rfl
  split at h
  · cases h; rfl
  split at h
  · exact hbool _ _ h
  · exact hint _ _ h
  · exact hstr _ _ h
  · split at h <;> cases h; rfl
  · split at h <;> cases h; rfl
  · split at h
    · exact hfloat _ _ h
    · cases h

theorem applyBinary_data (hV : V.Closed) {op : BinaryOp} {v w c : Value}
    (h : Value.applyBinary op v w = .ok c) : V.data c := by
  unfold Value.applyBinary at h
  split at h
  · rename_i hc
    cases h
    exact hV.scalar _ (binaryResult_scalar hc)
  · cases h

theorem applyUnary_data (hV : V.Closed) {op : UnaryOp} {v c : Value} {ty : Ty} (hv : V.data v)
    (h : Value.applyUnary op v ty = .ok c) : V.data c := by
  unfold Value.applyUnary at h
  split at h
  · cases h; exact hV.scalar _ rfl
  · cases h; exact hV.scalar _ rfl
  · cases h; exact hV.scalar _ rfl
  · unfold Value.convertValue at h
    split at h
    · cases h; exact hV.scalar _ rfl
    · cases h; exact hV.scalar _ rfl
    · cases h; exact hV.scalar _ rfl
    · split at h <;> cases h
      exact hv
  · cases h

/-! ## Operations over operands that follow one another -/

section Operations

/-- Reading a member of data. -/
theorem read_follows (hV : V.Closed) (hhost : V.Respected host) (hI : Stable I) {m : Member Getter}
    (hm : HostGetter V m.getter) {target : Option Value} (ht : ∀ v, target = some v → V.data v) :
    Follows host I (Shared V) (m.read (machine host n) target) fun E => m.read E target := by
  obtain ⟨⟨declaring, name, ty, kind, isStatic⟩, getter⟩ := m
  cases isStatic with
  | true =>
      cases target with
      | some v => exact Follows.fail
      | none =>
          cases hm with
          | field => exact Follows.fail
          | property => exact Follows.fail
          | fixed hv => exact Follows.pure ⟨hv, rfl⟩
          | computed hf => exact hhost _ _ hf I hI n _ _ .nil
  | false =>
      cases target with
      | none => exact Follows.fail
      | some v =>
          cases hm with
          | property hf => exact hhost _ _ hf I hI n _ _ (.cons (.data (ht v rfl)) .nil)
          | fixed hv => exact Follows.pure ⟨hv, rfl⟩
          | computed hf => exact hhost _ _ hf I hI n _ _ .nil
          | field =>
              cases v with
              | record id container fields =>
                  unfold Member.read
                  dsimp only
                  cases hfield : Datum.fieldOf? fields name with
                  | none => exact Follows.fail
                  | some w => exact Follows.pure ⟨hV.field _ _ _ _ _ (ht _ rfl) hfield, rfl⟩
              | _ => exact Follows.fail

/-- Running a method on data, and on functions where it takes functions. -/
theorem invoke_follows (hhost : V.Respected host) (hI : Stable I) {m : Method Invoker}
    {fs : List Bool} (hm : HostInvoker V m.invoker fs) {target : Option Value}
    (ht : ∀ v, target = some v → V.data v)
    {args args' : List Value} (hargs : AllAlike host I V fs args args') :
    Follows host I (Shared V) (m.invoke (machine host n) target args) fun E =>
      m.invoke E target args' := by
  obtain ⟨signature, invoker⟩ := m
  have hlength := hargs.length
  unfold Method.invoke
  rw [← hlength]
  by_cases harity : args.length ≠ signature.params.length
  · simp only [if_pos harity]
    exact Follows.fail
  · simp only [if_neg harity]
    cases hm with
    | function hf => exact hhost _ _ hf I hI n _ _ hargs
    | method hf =>
        cases target with
        | none => exact Follows.fail
        | some v => exact hhost _ _ hf I hI n _ _ (.cons (.data (ht v rfl)) hargs)

variable {σ ρ : Scope}

/-- Evaluating lists of operands. -/
theorem evaluateAll_follows (parts : List (Bool × Expr × Expr))
    (h : ∀ q ∈ parts, Follows host I (Alike host I V q.1) (evaluate (machine host n) σ q.2.1)
      fun E => evaluate E ρ q.2.2) :
    Follows host I (AllAlike host I V (parts.map (·.1)))
      (evaluateAll (machine host n) σ (parts.map (·.2.1)))
      fun E => evaluateAll E ρ (parts.map (·.2.2)) := by
  induction parts with
  | nil => exact Follows.pure .nil
  | cons q parts ih =>
      refine (h q (List.mem_cons_self ..)).bind (g := fun E w => do
        return w :: (← evaluateAll E ρ (parts.map (·.2.2)))) fun v w hvw => ?_
      refine (ih fun c hc => h c (List.mem_cons_of_mem _ hc)).bind (g := fun _ ws =>
        pure (w :: ws)) fun vs ws hvs => ?_
      exact Follows.pure (.cons hvw hvs)

theorem expectBool_follows {R : Value → Value → Prop} (context : String) {v : Value}
    {x : Bool → Act Value} {y : Engine → Bool → Act Value}
    (h : ∀ b, Follows host I R (x b) fun E => y E b) :
    Follows host I R (Act.lift (Value.expectBool context v) >>= x)
      fun E => Act.lift (Value.expectBool context v) >>= y E := by
  refine (Follows.lift (R := fun a b => a = b) fun b hb => ⟨b, hb, rfl⟩).bind (g := y) ?_
  rintro b _ rfl
  exact h b

/-- Built-in binary operators. The short-circuiting ones leave out the same operand on both sides.
-/
theorem binary_follows (hV : V.Closed) (op : BinaryOp) {lhs rhs lhs' rhs' : Expr}
    (hl : Follows host I (Alike host I V false) (evaluate (machine host n) σ lhs)
      fun E => evaluate E ρ lhs')
    (hr : Follows host I (Alike host I V false) (evaluate (machine host n) σ rhs)
      fun E => evaluate E ρ rhs') :
    Follows host I (Shared V) (evaluate (machine host n) σ (.binary op lhs rhs none))
      fun E => evaluate E ρ (.binary op lhs' rhs' none) := by
  have hlast : ∀ context, Follows host I (Shared V)
      (do return Datum.bool (← Act.lift (Value.expectBool context (← evaluate (machine host n) σ rhs))))
      fun E => do
        return Datum.bool (← Act.lift (Value.expectBool context (← evaluate E ρ rhs'))) := by
    intro context
    refine hr.bind (g := fun E w => do
      return Datum.bool (← Act.lift (Value.expectBool context w))) fun v w hvw => ?_
    obtain ⟨_, rfl⟩ := alike_false.1 hvw
    exact expectBool_follows context fun b => Follows.pure ⟨hV.scalar _ rfl, rfl⟩
  by_cases hand : op = .andAlso
  · subst hand
    refine Follows.congr (evaluate_andAlso lhs rhs) (fun E => evaluate_andAlso lhs' rhs') ?_
    refine hl.bind (g := fun E w => do
      if ← Act.lift (Value.expectBool "&&" w) then
        return Datum.bool (← Act.lift (Value.expectBool "&&" (← evaluate E ρ rhs')))
      else return Datum.bool false) fun v w hvw => ?_
    obtain ⟨_, rfl⟩ := alike_false.1 hvw
    refine expectBool_follows "&&" fun b => ?_
    cases b with
    | true => exact hlast "&&"
    | false => exact Follows.pure ⟨hV.scalar _ rfl, rfl⟩
  by_cases hor : op = .orElse
  · subst hor
    refine Follows.congr (evaluate_orElse lhs rhs) (fun E => evaluate_orElse lhs' rhs') ?_
    refine hl.bind (g := fun E w => do
      if ← Act.lift (Value.expectBool "||" w) then return Datum.bool true
      else return Datum.bool (← Act.lift (Value.expectBool "||" (← evaluate E ρ rhs')))) fun v w hvw => ?_
    obtain ⟨_, rfl⟩ := alike_false.1 hvw
    refine expectBool_follows "||" fun b => ?_
    cases b with
    | true => exact Follows.pure ⟨hV.scalar _ rfl, rfl⟩
    | false => exact hlast "||"
  · refine Follows.congr (evaluate_strict hand hor lhs rhs)
      (fun E => evaluate_strict hand hor lhs' rhs') ?_
    refine hl.bind (g := fun E w => do
      Act.lift (Value.applyBinary op w (← evaluate E ρ rhs'))) fun v w hvw => ?_
    obtain ⟨_, rfl⟩ := alike_false.1 hvw
    refine hr.bind (g := fun _ w => Act.lift (Value.applyBinary op v w)) fun a b hab => ?_
    obtain ⟨_, rfl⟩ := alike_false.1 hab
    exact Follows.lift fun c hc => ⟨c, hc, applyBinary_data hV hc, rfl⟩

/-- **Operations over operands that follow one another do so.** -/
theorem basic_follows (hV : V.Closed) (hhost : V.Respected host) (hI : Stable I) {t u : Expr}
    (parts : List (Bool × Expr × Expr)) (hbasic : Basic V t (parts.map (·.1)))
    (ht : t.children = parts.map (·.2.1)) (hhead : u.head = t.head)
    (hu : u.children = parts.map (·.2.2))
    (h : ∀ q ∈ parts, Follows host I (Alike host I V q.1) (evaluate (machine host n) σ q.2.1)
      fun E => evaluate E ρ q.2.2) :
    Follows host I (Shared V) (evaluate (machine host n) σ t) fun E => evaluate E ρ u := by
  obtain rfl : u = Tree.fill t.head (parts.map (·.2.2)) := by
    rw [← hhead, ← hu, Tree.fill_children]
  clear hhead hu
  generalize hfs : parts.map (·.1) = fs at hbasic
  cases hbasic with
  | literal ty hv => exact Follows.pure ⟨hv, rfl⟩
  | staticMember hm => exact read_follows hV hhost hI hm fun v hv => by cases hv
  | member target hm =>
      match parts, hfs, ht with
      | [(b, c, c')], hfs, ht =>
          cases hfs; cases ht
          refine (h _ (List.mem_singleton.2 rfl)).bind (g := fun E w => Member.read E _ (some w))
            fun v w hvw => ?_
          obtain ⟨hv, rfl⟩ := alike_false.1 hvw
          exact read_follows hV hhost hI hm fun a ha => by cases ha; exact hv
  | staticCall args hm =>
      change args = _ at ht
      subst ht hfs
      refine (evaluateAll_follows parts h).bind (g := fun E ws => Method.invoke E _ none ws)
        fun vs ws hvs => ?_
      exact invoke_follows hhost hI hm (fun v hv => by cases hv) hvs
  | call target args hm =>
      match parts, hfs, ht with
      | (b, c, c') :: parts, hfs, ht =>
          cases hfs; cases ht
          refine (h _ (List.mem_cons_self ..)).bind (g := fun E w => do
            Method.invoke E _ (some w) (← evaluateAll E ρ (parts.map (·.2.2)))) fun v w hvw => ?_
          obtain ⟨hv, rfl⟩ := alike_false.1 hvw
          refine (evaluateAll_follows parts fun q hq => h q (List.mem_cons_of_mem _ hq)).bind
            (g := fun E ws => Method.invoke E _ (some v) ws) fun vs ws hvs => ?_
          exact invoke_follows hhost hI hm (fun a ha => by cases ha; exact hv) hvs
  | unary op operand ty =>
      match parts, hfs, ht with
      | [(b, c, c')], hfs, ht =>
          cases hfs; cases ht
          refine (h _ (List.mem_singleton.2 rfl)).bind
            (g := fun _ w => Act.lift (Value.applyUnary op w ty)) fun v w hvw => ?_
          obtain ⟨hv, rfl⟩ := alike_false.1 hvw
          exact Follows.lift fun a ha => ⟨a, ha, applyUnary_data hV hv ha, rfl⟩
  | conditional test ifTrue ifFalse =>
      match parts, hfs, ht with
      | [(_, a, c), (_, a₁, c₁), (_, a₂, c₂)], hfs, ht =>
          cases hfs; cases ht
          refine (h (false, a, c) (by simp)).bind (g := fun E w => do
            if ← Act.lift (Value.expectBool "?:" w) then evaluate E ρ c₁ else evaluate E ρ c₂)
            fun v w hvw => ?_
          obtain ⟨_, rfl⟩ := alike_false.1 hvw
          refine expectBool_follows "?:" fun b => ?_
          cases b with
          | true => exact (h (false, a₁, c₁) (by simp)).imp fun _ _ => alike_false.1
          | false => exact (h (false, a₂, c₂) (by simp)).imp fun _ _ => alike_false.1
  | binary op lhs rhs =>
      match parts, hfs, ht with
      | [(_, a, c), (_, a₁, c₁)], hfs, ht =>
          cases hfs; cases ht
          exact binary_follows hV op (h (false, a, c) (by simp)) (h (false, a₁, c₁) (by simp))

end Operations

/-! ## Duals in trees -/

variable {E : Engine} {σ ρ : Scope} {d : Dual}

/-- The function form of a dual made of lambdas and compositions. -/
inductive FunctionForm : Dual → Func → Prop
  | lambda {d : Dual} {l : Lam} (id : Nat) : d.origin = .lambda l →
      FunctionForm d ⟨id, l.arity, .closure l []⟩
  | composed {d outer inner : Dual} {f g : Func} (id : Nat) : d.origin = .composed outer inner →
      FunctionForm inner f → FunctionForm outer g → FunctionForm d ⟨id, 1, .chain f g⟩

namespace FunctionForm

variable {f : Func}

theorem of_lambda {l : Lam} (h : FunctionForm d f) (ho : d.origin = .lambda l) :
    ∃ id, f = ⟨id, l.arity, .closure l []⟩ := by
  cases h with
  | lambda id ho' =>
      cases ho.symm.trans ho'
      exact ⟨id, rfl⟩
  | composed _ ho' => cases ho.symm.trans ho'

theorem of_composed {outer inner : Dual} (h : FunctionForm d f) (ho : d.origin = .composed outer inner) :
    ∃ id g g', f = ⟨id, 1, .chain g g'⟩ ∧ FunctionForm inner g ∧ FunctionForm outer g' := by
  cases h with
  | lambda _ ho' => cases ho.symm.trans ho'
  | composed id ho' hg hg' =>
      cases ho.symm.trans ho'
      exact ⟨id, _, _, rfl, hg, hg'⟩

end FunctionForm

theorem evaluate_functionRead (d : Dual) :
    evaluate E σ d.functionRead = do return .func (← E.function d) := by
  show (do return .func (← E.function (← Act.lift (Dual.expect d.kind (.dual d)))) : Act Value) = _
  rw [expect_dual]
  rfl

theorem evaluate_handed (d : Dual) (byConversion : Bool) :
    evaluate E σ (d.handed byConversion) = do return .func (← E.function d) := by
  cases byConversion with
  | false => exact evaluate_functionRead d
  | true =>
      show (do return .func (← E.function (← Act.lift (Dual.expect d.kind (.dual d)))) : Act Value) = _
      rw [expect_dual]
      rfl

theorem evaluate_invoked (d : Dual) (a : Expr) :
    evaluate E σ (d.invoked a) = (do
      let f ← E.function d
      let v ← evaluate E σ a
      E.call f [v]) := by
  unfold Dual.invoked
  rw [evaluate_invoke, evaluate_functionRead]
  simp [evaluateAll]

theorem evaluate_called (d : Dual) (a : Expr) :
    evaluate E σ (d.called a) = (do
      let v ← evaluate E σ a
      d.evaluate E v) := by
  have hinvoke : ∀ v, (Dual.evaluateMethod d.kind d.source d.result).invoke E (some (.dual d)) [v] =
      d.evaluate E v := by
    intro v
    show (do (← Act.lift (Dual.expect d.kind (.dual d))).evaluate E v) = _
    rw [expect_dual]
    rfl
  show (do
    let v ← pure (Datum.dual d)
    (Dual.evaluateMethod d.kind d.source d.result).invoke E (some v) (← evaluateAll E σ [a])) = _
  simp [evaluateAll, hinvoke]

/-- What a function of data settles on may be put in its place. -/
theorem Follows.shared {α : Type} {x : Act Value} {y : Engine → Act Value} {f : Value → Act α}
    {post : α → Prop} (hx : Follows host I (Alike host I V false) x y)
    (hf : ∀ v, V.data v → Settles host I y v → Ensures I post (f v)) : Ensures I post (x >>= f) := by
  refine Ensures.bind hx fun v hv => ?_
  have hpost : ∀ s, I s → Ensures I post (f v) := by
    intro s hs
    obtain ⟨w, t, _, _, hw⟩ := hv s hs
    refine hf v (alike_false.1 hw).1 fun s' hs' => ?_
    obtain ⟨w', t', hreach, ht', hw'⟩ := hv s' hs'
    obtain ⟨_, rfl⟩ := alike_false.1 hw'
    exact ⟨t', hreach, ht'⟩
  exact ⟨⟨fun s hs => (hpost s hs).keeps.after s hs⟩, fun s a t hs => (hpost s hs).result s a t hs⟩

/-- What it means for a tree that renders a subject to behave like it. -/
def Subject.FollowedBy (host : Host) (I : Store → Prop) (V : Vocabulary) (r u : Expr) : Subject → Prop
  | .tree b x t => ∀ n v ρ, V.data v → Settles host I (fun E => evaluate E ρ r) v →
      Follows host I (Alike host I V b) (evaluate (machine host n) [(x, v)] t) fun E => evaluate E ρ u
  | .dual d => ∀ n f v ρ, V.data v → FunctionForm d f → Settles host I (fun E => evaluate E ρ r) v →
      Follows host I (Shared V) ((machine host n).call f [v]) fun E => evaluate E ρ u

/-- A read of the parameter bound last. -/
theorem evaluate_own (x : Param) (v : Value) : evaluate E ((x, v) :: ρ) (.param x) = pure v := by
  unfold evaluate Scope.lookup?
  simp

theorem evaluate_foreign {x z : Param} (h : z ≠ x) (v : Value) :
    evaluate E [(x, v)] (.param z) = Act.fail (.unboundParameter z.name) := by
  have hx : x ≠ z := fun hx => h hx.symm
  unfold evaluate Scope.lookup?
  simp [hx]

/-- One call of a closure with one parameter. -/
theorem call_closure (id : Nat) (p : Param) (t : Expr) (v : Value) (n : Nat) :
    (machine host (n + 1)).call ⟨id, 1, .closure ⟨[p], t⟩ ρ⟩ [v] =
      evaluate (machine host n) ((p, v) :: ρ) t := rfl

theorem settles_own {x : Param} {v : Value} :
    Settles host I (fun E => evaluate E ((x, v) :: ρ) (.param x)) v := fun s hs =>
  ⟨s, ⟨0, fun n _ => by show evaluate _ _ _ s = _; rw [evaluate_own]; rfl⟩, hs⟩

/-- **What renders a subject follows its evaluation.** The induction is on the rendering: it
unfolds the duals that are evaluated, so that calls of their function forms are cases of the same
statement. -/
theorem Renders.follows {D : Dual → Prop} (hV : V.Closed) (hhost : V.Respected host) (hI : Stable I)
    (hfun : ∀ d, D d → ∀ n, Ensures I (FunctionForm d) ((machine host n).function d)) {r u : Expr}
    {S : Subject} (h : Renders V D r S u) : S.FollowedBy host I V r u := by
  induction h with
  | @node r t u x parts hbasic ht hhead hu _ ih =>
      intro n v ρ hv hr
      refine (basic_follows hV hhost hI parts hbasic ht hhead hu fun q hq => ?_).imp
        fun _ _ => alike_false.2
      exact ih q hq n v ρ hv hr
  | own r x =>
      intro n v ρ hv hr
      rw [evaluate_own]
      refine Ensures.pure fun s hs => ?_
      obtain ⟨t, ht, hIt⟩ := hr s hs
      exact ⟨v, t, ht, hIt, .data hv⟩
  | foreign r u hz =>
      intro n v ρ hv hr
      rw [evaluate_foreign hz]
      exact Follows.fail
  | @evaluation r a m u x d byMethod hd _ _ iha ihd =>
      intro n v ρ hv hr
      have hcall : ∀ f w, FunctionForm d f → V.data w → Settles host I (fun E => evaluate E ρ m) w →
          Follows host I (Alike host I V false) ((machine host n).call f [w])
            fun E => evaluate E ρ u := fun f w hf hw hm =>
        (ihd n f w ρ hw hf hm).imp fun _ _ => alike_false.2
      cases byMethod with
      | false =>
          show Follows _ _ _ (evaluate _ _ (d.invoked a)) _
          rw [evaluate_invoked]
          refine (hfun d hd n).bind fun f hf => ?_
          exact (iha n v ρ hv hr).shared fun w hw hm => hcall f w hf hw hm
      | true =>
          show Follows _ _ _ (evaluate _ _ (d.called a)) _
          rw [evaluate_called]
          refine (iha n v ρ hv hr).shared fun w hw hm => ?_
          exact (hfun d hd n).bind fun f hf => hcall f w hf hw hm
  | @handed b y d r x byConversion hd _ ih =>
      intro n v ρ hv hr
      rw [evaluate_handed]
      refine (hfun d hd n).bind fun f hf => Ensures.pure fun s hs => ?_
      refine ⟨.func ⟨s.nextId, 1, .closure ⟨[y], b⟩ ρ⟩, { s with nextId := s.nextId + 1 },
        ⟨0, fun _ _ => rfl⟩, hI s _ hs rfl rfl (Nat.le_succ _), .func fun k w hw => ?_⟩
      -- The closure is called later, and its body then reads the parameter it binds.
      exact (ih k f w ((y, w) :: ρ) hw hf settles_own).step fun m => call_closure _ y b w m
  | @lambda r t u p d ho _ ih =>
      intro n f v ρ hv hf hr
      obtain ⟨id, rfl⟩ := hf.of_lambda ho
      cases n with
      | zero => exact Follows.exhausted
      | succ n => exact (ih n v ρ hv hr).imp fun _ _ => alike_false.1
  | @composed r m u d outer inner ho _ _ ihi iho =>
      intro n f v ρ hv hf hr
      obtain ⟨id, g, g', rfl, hg, hg'⟩ := hf.of_composed ho
      cases n with
      | zero => exact Follows.exhausted
      | succ n =>
          show Follows _ _ _ (do (machine host n).call g' [← (machine host n).call g [v]]) _
          refine ((ihi n g v ρ hv hg hr).imp fun _ _ => alike_false.2).shared fun w hw hm => ?_
          exact iho n g' w ρ hw hg' hm

end DualForm
