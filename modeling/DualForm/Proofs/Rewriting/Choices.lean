import DualForm.Proofs.Rewriting.Inert

/-!
# Trees that choose duals at run time

* `Role` — what the value of a tree is used as.
* `Choosing V D broken ρ t` — trees over host code that evaluate duals received as parameters, and
  convert to functions duals chosen by conditions. If `broken` holds they may also evaluate chosen
  duals and convert received ones.
* `Resolved V form D κ broken ρ t u` — `u` is `t` with the literal duals of the kinds `κ` replaced by
  their tree forms and the conversions through these kinds dropped.

Principal results: `Resolved.run` — each pass extends the kinds that are replaced;
`rewriteLambda_resolved` — the pipeline replaces all of them.
-/

namespace DualForm

open Act (Ensures)

/-- What the value of a tree is used as. -/
inductive Role where
  | value
  /-- Applied, or taken by host code as a function. -/
  | function
  /-- A dual of this kind, evaluated or converted. -/
  | dual (kind : DualKind)

/-- The role of an operand, by whether it is taken as a function. -/
def Role.operand : Bool → Role
  | false => .value
  | true => .function

/-- Trees over host code whose references are evaluations and conversions of parameters and of
literal duals chosen by conditions. Evaluations of chosen duals and conversions of parameters are
among them only if `broken` holds. -/
inductive Choosing (V : Vocabulary) (D : Dual → Prop) (broken : Prop) : Role → Expr → Prop
  | node {t : Expr} (parts : List (Bool × Expr)) : Basic V t (parts.map Prod.fst) →
      t.refersToDual = false → t.children = parts.map Prod.snd →
      (∀ q ∈ parts, Choosing V D broken (.operand q.1) q.2) → Choosing V D broken .value t
  | param {p : Param} : p.ty.wrapper? = none → Choosing V D broken .value (.param p)
  | invoke {f : Expr} {args : List Expr} (handed : Bool) : (handed = true → args.length = 1) →
      Choosing V D broken (.operand handed) f →
      (∀ a ∈ args, Choosing V D broken .value a) → Choosing V D broken .value (.invoke f args)
  | evaluated {a : Expr} (kind : DualKind) (source result : Ty) (byMethod : Bool) (p : Param) :
      Choosing V D broken .value a →
      Choosing V D broken .value (Tree.evaluation kind source result byMethod (.param p) a)
  | evaluatedChoice {test x y a : Expr} (kind : DualKind) (source result : Ty) (byMethod : Bool) :
      broken → Choosing V D broken (.dual kind) (.conditional test x y) →
      Choosing V D broken .value a → Choosing V D broken .value
        (Tree.evaluation kind source result byMethod (.conditional test x y) a)
  | converted {r : Expr} (kind : DualKind) (source result ty : Ty) :
      Choosing V D broken (.dual kind) r →
      Choosing V D broken .function (Tree.conversion kind source result ty r)
  | convertedParam (kind : DualKind) (source result ty : Ty) (p : Param) : broken →
      Choosing V D broken .function (Tree.conversion kind source result ty (.param p))
  | known {d : Dual} : D d → Choosing V D broken (.dual d.kind) d.literal
  | conditional {ρ : Role} {test x y : Expr} : Choosing V D broken .value test → Choosing V D broken ρ x →
      Choosing V D broken ρ y → Choosing V D broken ρ (.conditional test x y)

/-- The tree with the literal duals of the kinds `κ` replaced by their tree forms, and the
conversions through these kinds dropped. -/
inductive Resolved (V : Vocabulary) (form : Dual → Lam) (D : Dual → Prop) (κ : DualKind → Prop)
    (broken : Prop) : Role → Expr → Expr → Prop
  | node {t u : Expr} (parts : List (Bool × Expr × Expr)) : Basic V t (parts.map (·.1)) →
      t.refersToDual = false → t.children = parts.map (·.2.1) → u.head = t.head →
      u.children = parts.map (·.2.2) →
      (∀ q ∈ parts, Resolved V form D κ broken (.operand q.1) q.2.1 q.2.2) →
      Resolved V form D κ broken .value t u
  | param {p : Param} : p.ty.wrapper? = none → Resolved V form D κ broken .value (.param p) (.param p)
  | invoke {f f' : Expr} (handed : Bool) (args : List (Expr × Expr)) :
      (handed = true → args.length = 1) →
      Resolved V form D κ broken (.operand handed) f f' →
      (∀ a ∈ args, Resolved V form D κ broken .value a.1 a.2) → Resolved V form D κ broken .value
        (.invoke f (args.map Prod.fst)) (.invoke f' (args.map Prod.snd))
  | evaluated {a a' : Expr} (kind : DualKind) (source result : Ty) (byMethod : Bool) (p : Param) :
      Resolved V form D κ broken .value a a' → Resolved V form D κ broken .value
        (Tree.evaluation kind source result byMethod (.param p) a)
        (Tree.evaluation kind source result byMethod (.param p) a')
  | evaluatedChoice {test x y r a a' : Expr} (kind : DualKind) (source result : Ty) (byMethod : Bool) :
      broken → Resolved V form D κ broken (.dual kind) (.conditional test x y) r →
      Resolved V form D κ broken .value a a' → Resolved V form D κ broken .value
        (Tree.evaluation kind source result byMethod (.conditional test x y) a)
        (Tree.evaluation kind source result byMethod r a')
  | conversionKept {r r' : Expr} (kind : DualKind) (source result ty : Ty) : ¬ κ kind →
      Resolved V form D κ broken (.dual kind) r r' → Resolved V form D κ broken .function
        (Tree.conversion kind source result ty r) (Tree.conversion kind source result ty r')
  | conversionDropped {r r' : Expr} (kind : DualKind) (source result ty : Ty) : κ kind →
      Resolved V form D κ broken (.dual kind) r r' →
      Resolved V form D κ broken .function (Tree.conversion kind source result ty r) r'
  | paramKept (kind : DualKind) (source result ty : Ty) (p : Param) : broken → ¬ κ kind →
      Resolved V form D κ broken .function (Tree.conversion kind source result ty (.param p))
        (Tree.conversion kind source result ty (.param p))
  | paramDropped (kind : DualKind) (source result ty : Ty) (p : Param) : broken → κ kind →
      Resolved V form D κ broken .function (Tree.conversion kind source result ty (.param p)) (.param p)
  | kept {d : Dual} : ¬ κ d.kind → D d → Resolved V form D κ broken (.dual d.kind) d.literal d.literal
  | replaced {d : Dual} : κ d.kind → D d →
      Resolved V form D κ broken (.dual d.kind) d.literal (form d).tree
  | conditional {ρ : Role} {test test' x x' y y' : Expr} : Resolved V form D κ broken .value test test' →
      Resolved V form D κ broken ρ x x' → Resolved V form D κ broken ρ y y' →
      Resolved V form D κ broken ρ (.conditional test x y) (.conditional test' x' y')

variable {V : Vocabulary} {D : Dual → Prop} {form : Dual → Lam} {κ : DualKind → Prop} {broken : Prop}
  {ρ : Role} {t u : Expr}

/-- An operation whose operands are listed in some other way. -/
theorem Resolved.of_operands {α : Type} (operands : List α) (taken : α → Bool) (given resolved : α → Expr)
    (hbasic : Basic V t (operands.map taken)) (hrefers : t.refersToDual = false)
    (ht : t.children = operands.map given) (hhead : u.head = t.head) (hu : u.children = operands.map resolved)
    (h : ∀ q ∈ operands, Resolved V form D κ broken (.operand (taken q)) (given q) (resolved q)) :
    Resolved V form D κ broken .value t u := by
  refine .node (operands.map fun q => (taken q, given q, resolved q)) ?_ hrefers ?_ hhead ?_
    (List.forall_mem_map.2 h)
  · rw [List.map_map]; exact hbasic
  · rw [List.map_map]; exact ht
  · rw [List.map_map]; exact hu

theorem Choosing.resolved (h : Choosing V D broken ρ t) :
    Resolved V form D (fun _ => False) broken ρ t t := by
  induction h with
  | node parts hbasic hrefers hchildren _ ih =>
      exact .of_operands parts Prod.fst Prod.snd Prod.snd hbasic hrefers hchildren rfl hchildren ih
  | param hp => exact .param hp
  | @invoke f args handed hone _ _ ihf ih =>
      have h := Resolved.invoke handed (args.map fun a => (a, a)) (by simpa using hone) ihf fun a ha => by
        obtain ⟨b, hb, rfl⟩ := List.mem_map.1 ha
        exact ih b hb
      simpa [List.map_map, Function.comp_def] using h
  | evaluated kind source result byMethod p _ ih => exact .evaluated kind source result byMethod p ih
  | evaluatedChoice kind source result byMethod hb _ _ ihr iha =>
      exact .evaluatedChoice kind source result byMethod hb ihr iha
  | converted kind source result ty _ ih => exact .conversionKept kind source result ty (fun h => h) ih
  | convertedParam kind source result ty p hb => exact .paramKept kind source result ty p hb fun h => h
  | known hd => exact .kept (fun h => h) hd
  | conditional _ _ _ iht ihx ihy => exact .conditional iht ihx ihy

theorem Resolved.congr {κ' : DualKind → Prop} (h : Resolved V form D κ broken ρ t u)
    (hκ : ∀ kind, κ kind ↔ κ' kind) : Resolved V form D κ' broken ρ t u := by
  obtain rfl : κ = κ' := funext fun kind => propext (hκ kind)
  exact h

/-- What is used reads no evaluator. -/
theorem Resolved.member_plain (h : Resolved V form D κ broken ρ t u) {receiver : Expr}
    {m : Member Getter} (hu : u = .member receiver m) : m.declaring.wrapper? = none := by
  induction h with
  | @node t u parts hbasic hrefers _ hhead =>
      subst hu
      have href : (Tree.member receiver m).refersToDual = false := by
        rw [refersToDual_head hhead]; exact hrefers
      simpa using (Bool.or_eq_false_iff.1 href).2
  | evaluated _ _ _ byMethod => cases byMethod <;> cases hu
  | evaluatedChoice _ _ _ byMethod => cases byMethod <;> cases hu
  | conversionDropped _ _ _ _ _ _ ih => exact ih hu
  | _ => cases hu

/-- A chosen dual stays behind its condition. -/
theorem Resolved.choice {kind : DualKind} {test x y r : Expr}
    (h : Resolved V form D κ broken (.dual kind) (.conditional test x y) r) : r.isKnown = false := by
  cases h
  rfl

/-- An evaluation of a chosen dual stays one. -/
theorem Resolved.of_evaluatedChoice {kind : DualKind} {source result : Ty} {byMethod : Bool}
    {test x y a u : Expr} (h : Resolved V form D κ broken .value
      (Tree.evaluation kind source result byMethod (.conditional test x y) a) u) :
    ∃ kind source result r a', u = Tree.evaluation kind source result byMethod r a' ∧
      Resolved V form D κ broken (.dual kind) (.conditional test x y) r := by
  have hread : ∀ {ρ f'}, ¬ Resolved V form D κ broken ρ
      (.member (.conditional test x y) (Dual.evaluator kind source result)) f' := by
    intro ρ f' hf
    generalize ht : Tree.member _ _ = t at hf
    cases hf with
    | node _ _ hrefers =>
        subst ht
        simp [Tree.refersToDual, Dual.evaluator, DeclaringType.ofTy, DeclaringType.wrapper?,
          ofDual_wrapper] at hrefers
    | evaluated _ _ _ byMethod => cases byMethod <;> cases ht
    | evaluatedChoice _ _ _ byMethod => cases byMethod <;> cases ht
    | _ => cases ht
  generalize ht : Tree.evaluation kind source result byMethod _ a = t at h
  cases byMethod with
  | false =>
      cases h with
      | node _ hbasic => subst ht; cases hbasic
      | invoke _ _ _ hf _ =>
          rw [← (Tree.invoke.inj ht).1] at hf
          exact (hread hf).elim
      | evaluated _ _ _ byMethod =>
          cases byMethod with
          | true => cases ht
          | false => cases (Tree.member.inj (Tree.invoke.inj ht).1).1
      | evaluatedChoice kind source result byMethod _ hr _ =>
          cases byMethod with
          | true => cases ht
          | false =>
              rw [← (Tree.member.inj (Tree.invoke.inj ht).1).1] at hr
              exact ⟨kind, source, result, _, _, rfl, hr⟩
      | _ => cases ht
  | true =>
      cases h with
      | node _ _ hrefers =>
          subst ht
          simp [Tree.refersToDual, Tree.evaluation, Dual.evaluateMethod, DeclaringType.ofTy,
            DeclaringType.wrapper?, ofDual_wrapper] at hrefers
      | evaluated _ _ _ byMethod =>
          cases byMethod with
          | false => cases ht
          | true => cases (Tree.call.inj ht).1
      | evaluatedChoice kind source result byMethod _ hr _ =>
          cases byMethod with
          | false => cases ht
          | true =>
              rw [← (Tree.call.inj ht).1] at hr
              exact ⟨kind, source, result, _, _, rfl, hr⟩
      | _ => cases ht

/-- The converted parameter, applied, is the parameter applied once conversions are dropped. -/
theorem Resolved.of_applied_param {kind : DualKind} {source result ty : Ty} {p : Param}
    {args : List Expr} {u : Expr} (h : Resolved V form D (fun _ => True) broken .value
      (.invoke (Tree.conversion kind source result ty (.param p)) args) u) :
    ∃ args', u = .invoke (.param p) args' := by
  have hcallee : ∀ {ρ f f'}, f = Tree.conversion kind source result ty (.param p) →
      Resolved V form D (fun _ => True) broken ρ f f' → f' = .param p := by
    intro ρ f f' hf hr
    cases hr with
    | node _ hbasic => subst hf; cases hbasic
    | evaluated _ _ _ byMethod => cases byMethod <;> cases hf
    | evaluatedChoice _ _ _ byMethod => cases byMethod <;> cases hf
    | conversionKept _ _ _ _ hkept => exact absurd trivial hkept
    | conversionDropped _ _ _ _ _ hr =>
        rw [(Tree.unary.inj hf).2.1] at hr
        cases hr
    | paramKept _ _ _ _ _ _ hkept => exact absurd trivial hkept
    | paramDropped => exact (Tree.unary.inj hf).2.1
    | _ => cases hf
  generalize ht : Tree.invoke _ args = t at h
  cases h with
  | node _ hbasic _ _ _ _ _ => subst ht; cases hbasic
  | invoke _ _ _ hf _ =>
      cases ht
      exact ⟨_, by rw [hcallee rfl hf]⟩
  | evaluated _ _ _ byMethod => cases byMethod <;> cases ht
  | evaluatedChoice _ _ _ byMethod => cases byMethod <;> cases ht
  | _ => cases ht

section Pass

variable {host : Host} {I : Store → Prop} {pass : DualPass}

/-- A pass over an application, from what it does to the function and the arguments. -/
theorem run_invoke {f f' : Expr} {args : List (Expr × Expr)}
    (hplain : ∀ receiver m, f = .member receiver m → m.declaring.wrapper? = none)
    (hf : Exactly host I (fun E => pass.run E f) f')
    (hargs : ∀ a ∈ args, Exactly host I (fun E => pass.run E a.1) a.2) :
    Exactly host I (fun E => pass.run E (.invoke f (args.map Prod.fst)))
      (.invoke f' (args.map Prod.snd)) := by
  refine run_rebuilt rfl (fun receiver m as h => ?_) ?_ (.cons hf ?_)
  · exact hplain receiver m (Tree.invoke.inj h).1
  · show Node.invoke () _ = Node.invoke () _
    rw [List.map_map, List.map_map]
    rfl
  · rw [List.forall₂_map_left_iff, List.forall₂_map_right_iff]
    exact List.forall₂_same.2 hargs

/-- **A pass resolves the duals it is for.** What it makes of a tree does not depend on the store, as
long as the duals have their tree forms there. -/
theorem Resolved.run (hforms : ∀ d, D d → (form d).tree.Settled)
    (h : Resolved V form D κ broken ρ t u) (host : Host) (pass : DualPass) :
    ∃ u', Resolved V form D (pass.extends κ) broken ρ t u' ∧
      ∀ I, (∀ d, D d → Exactly host I (fun E => E.tree d) (form d)) →
        Exactly host I (fun E => pass.run E u) u' := by
  induction h with
  | @node t u parts hbasic hrefers ht hhead hu _ ih =>
      choose! g hg using ih
      have hlength : (parts.map g).length = u.children.length := by simp [hu]
      obtain ⟨hghead, hgchildren⟩ := Tree.fill_spec hlength
      refine ⟨Tree.fill u.head (parts.map g), ?_, fun I hI => ?_⟩
      · exact .of_operands parts (·.1) (·.2.1) g hbasic hrefers ht (hghead.trans hhead) hgchildren
          fun q hq => (hg q hq).1
      · exact run_operation hbasic hrefers hhead hu hghead hgchildren fun q hq => (hg q hq).2 I hI
  | @param p hp =>
      refine ⟨.param p, .param hp, fun I _ => run_node ?_ (fun c as h => by cases h) rfl .nil⟩
      simp [Tree.refersToDual, hp]
  | @invoke f f' handed args hone hf _ ihf ih =>
      obtain ⟨f'', hf'', hrun⟩ := ihf
      choose! g hg using ih
      have hresolved := Resolved.invoke handed (args.map fun a => (a.1, g a)) (by simpa using hone)
        hf'' fun a ha => by
        obtain ⟨b, hb, rfl⟩ := List.mem_map.1 ha
        exact (hg b hb).1
      have hargs : ∀ I, (∀ d, D d → Exactly host I (fun E => E.tree d) (form d)) →
          ∀ a ∈ args.map fun a => (a.2, g a), Exactly host I (fun E => pass.run E a.1) a.2 := by
        intro I hI a ha
        obtain ⟨b, hb, rfl⟩ := List.mem_map.1 ha
        exact (hg b hb).2 I hI
      have hruns := fun I (hI : ∀ d, D d → Exactly host I (fun E => E.tree d) (form d)) =>
        run_invoke (fun _ _ => hf.member_plain) (hrun I hI) (hargs I hI)
      simp only [List.map_map, Function.comp_def] at hresolved hruns ⊢
      exact ⟨_, hresolved, hruns⟩
  | @evaluated a a' kind source result byMethod p _ ih =>
      obtain ⟨a'', ha, hrun⟩ := ih
      refine ⟨_, .evaluated kind source result byMethod p ha, fun I hI => ?_⟩
      refine Exactly.congr (fun E => run_evaluation_unknown source result rfl byMethod a') ?_
      exact (Tree.settled_param p).exactly.bind ((hrun I hI).bind (Exactly.pure _))
  | @evaluatedChoice test x y r a a' kind source result byMethod hb hr _ ihr iha =>
      obtain ⟨r', hr', hrunr⟩ := ihr
      obtain ⟨a'', ha, hrun⟩ := iha
      refine ⟨_, .evaluatedChoice kind source result byMethod hb hr' ha, fun I hI => ?_⟩
      refine Exactly.congr (fun E => run_evaluation_unknown source result hr.choice byMethod a') ?_
      exact (hrunr I hI).bind ((hrun I hI).bind (Exactly.pure _))
  | @conversionKept r r' kind source result ty hkept _ ih =>
      obtain ⟨r'', hr, hrun⟩ := ih
      -- The pass for its kind drops the conversion, the others keep it.
      by_cases hpass : pass = .inlining kind
      · refine ⟨_, .conversionDropped kind source result ty (.inr hpass) hr, fun I hI => ?_⟩
        subst hpass
        exact Exactly.congr (fun E => run_conversion_same source result ty) (hrun I hI)
      · refine ⟨_, .conversionKept kind source result ty
          (by rintro (h | h); exacts [hkept h, hpass h]) hr, fun I hI => ?_⟩
        refine Exactly.congr (fun E => run_conversion_other source result hpass ty) ?_
        exact (hrun I hI).bind (Exactly.pure _)
  | @conversionDropped r r' kind source result ty hκ _ ih =>
      obtain ⟨r'', hr, hrun⟩ := ih
      exact ⟨_, .conversionDropped kind source result ty (.inl hκ) hr, hrun⟩
  | paramKept kind source result ty p hb hkept =>
      by_cases hpass : pass = .inlining kind
      · refine ⟨_, .paramDropped kind source result ty p hb (.inr hpass), fun I _ => ?_⟩
        subst hpass
        exact Exactly.congr (fun E => run_conversion_same source result ty) (Tree.settled_param p).exactly
      · refine ⟨_, .paramKept kind source result ty p hb
          (by rintro (h | h); exacts [hkept h, hpass h]), fun I _ => ?_⟩
        refine Exactly.congr (fun E => run_conversion_other source result hpass ty) ?_
        exact (Tree.settled_param p).exactly.bind (Exactly.pure _)
  | paramDropped kind source result ty p hb hκ =>
      exact ⟨_, .paramDropped kind source result ty p hb (.inl hκ), fun I _ =>
        (Tree.settled_param p).exactly⟩
  | @kept d hkept hd =>
      by_cases hpass : pass = .inlining d.kind
      · refine ⟨_, .replaced (.inr hpass) hd, fun I hI => ?_⟩
        subst hpass
        refine Exactly.congr (fun E => run_literal_same d) ?_
        refine (hI d hd).bind (f := fun E l => E.rewrite _ l.tree) ?_
        exact rewrite_exactly (hforms d hd).exactly
      · refine ⟨_, .kept (by rintro (h | h); exacts [hkept h, hpass h]) hd, fun I hI => ?_⟩
        exact Exactly.congr (fun E => run_literal_other hpass) (Exactly.pure _)
  | @replaced d hκ hd => exact ⟨_, .replaced (.inl hκ) hd, fun I _ => (hforms d hd).exactly⟩
  | @conditional ρ test test' x x' y y' _ _ _ iht ihx ihy =>
      obtain ⟨test'', ht, hrunt⟩ := iht
      obtain ⟨x'', hx, hrunx⟩ := ihx
      obtain ⟨y'', hy, hruny⟩ := ihy
      refine ⟨_, .conditional ht hx hy, fun I hI => ?_⟩
      exact run_node rfl (fun c as h => by cases h) rfl
        (.cons (hrunt I hI) (.cons (hrunx I hI) (.cons (hruny I hI) .nil)))

/-- **The pipeline over a lambda resolves all duals its body evaluates or converts.** -/
theorem rewriteLambda_resolved (hforms : ∀ d, D d → (form d).tree.Settled) {x : Param}
    (ht : Choosing V D broken .value t) (host : Host) :
    ∃ u, Resolved V form D (fun _ => True) broken .value t u ∧
      ∀ I, (∀ d, D d → Exactly host I (fun E => E.tree d) (form d)) →
        Exactly host I (fun E => rewriteLambda E ⟨[x], t⟩) ⟨[x], u⟩ := by
  obtain ⟨u₁, h₁, hrun₁⟩ := ht.resolved.run hforms host .factories
  obtain ⟨u₂, h₂, hrun₂⟩ := h₁.run hforms host .combinators
  obtain ⟨u₃, h₃, hrun₃⟩ := h₂.run hforms host (.inlining .specification)
  obtain ⟨u₄, h₄, hrun₄⟩ := h₃.run hforms host (.inlining .projection)
  refine ⟨u₄, h₄.congr fun kind => ⟨fun _ => trivial, fun _ => ?_⟩, fun I hI =>
    rewriteLambda_exactly (hrun₁ I hI) (hrun₂ I hI) (hrun₃ I hI) (hrun₄ I hI)⟩
  cases kind with
  | projection => exact .inr rfl
  | specification => exact .inl (.inr rfl)

end Pass

end DualForm
