import DualForm.Proofs.Dual.Choices

/-!
# Trees with places to fill

* `Ordinary V t fs` — `t` is an operation over host code, possibly one through a method, or the
  application of a function; `fs` says which operands are taken as functions.
* `Term V N R b t` — trees of such operations with `N`, over parameters with `R`. The flag says
  whether the tree stands where a function is taken.
* `Tree.Filled fill t u` — `u` is `t` with every parameter `x` replaced by some tree with `fill x`.

Principal results: `ordinary_follows` — such operations over operands that follow one another do so;
`Term.follows` — one filling of a tree follows another one if the trees filled in do.
-/

namespace DualForm

open Act (Ensures)

variable {host : Host} {I : Store → Prop} {V : Vocabulary} {n : Nat} {σ ρ : Scope}

/-! ## Operations -/

/-- Operations over host code, those through methods, and applications. A function that is handed over
is applied to one argument. -/
inductive Ordinary (V : Vocabulary) : Expr → List Bool → Prop
  | basic {t : Expr} {fs : List Bool} : Basic V t fs → Ordinary V t fs
  | binaryVia {m : Method Invoker} {f g : Bool} (op : BinaryOp) (lhs rhs : Expr) :
      HostInvoker V m.invoker [f, g] → Ordinary V (.binary op lhs rhs (some m)) [f, g]
  | unaryVia {m : Method Invoker} {f : Bool} (op : UnaryOp) (operand : Expr) (ty : Ty) :
      HostInvoker V m.invoker [f] → Ordinary V (.unary op operand (some m) ty) [f]
  | invoke (handed : Bool) (callee : Expr) (args : List Expr) : (handed = true → args.length = 1) →
      Ordinary V (.invoke callee args) (handed :: List.replicate args.length false)

theorem Ordinary.shape {t u : Expr} {fs : List Bool} (h : Ordinary V t fs) (hu : u.head = t.head) :
    (∀ r, u ≠ .param r) ∧ ∀ ps b, u ≠ .lambda ps b := by
  cases h with
  | basic hbasic => exact ⟨(hbasic.shape hu).1, (hbasic.shape hu).2.1⟩
  | _ =>
      refine ⟨?_, ?_⟩
      · rintro r rfl
        cases hu
      · rintro ps b rfl
        cases hu

theorem AllAlike.flags_length {fs : List Bool} {vs ws : List Value} (h : AllAlike host I V fs vs ws) :
    vs.length = fs.length := by
  induction h with
  | nil => rfl
  | cons _ _ ih => simp [ih]

/-- **Operations over operands that follow one another do so.** -/
theorem ordinary_follows (hV : V.Closed) (hhost : V.Respected host) (hcall : V.Callable) (hI : Stable I)
    {t u : Expr} (parts : List (Bool × Expr × Expr)) (hordinary : Ordinary V t (parts.map (·.1)))
    (ht : t.children = parts.map (·.2.1)) (hhead : u.head = t.head)
    (hu : u.children = parts.map (·.2.2))
    (h : ∀ q ∈ parts, Follows host I (Alike host I V q.1) (evaluate (machine host n) σ q.2.1)
      fun E => evaluate E ρ q.2.2) :
    Follows host I (Shared V) (evaluate (machine host n) σ t) fun E => evaluate E ρ u := by
  obtain hbasic | hother : Basic V t (parts.map (·.1)) ∨ ¬ Basic V t (parts.map (·.1)) :=
    Classical.em _
  · exact basic_follows hV hhost hI parts hbasic ht hhead hu h
  obtain rfl : u = Tree.fill t.head (parts.map (·.2.2)) := by
    rw [← hhead, ← hu, Tree.fill_children]
  clear hhead hu
  generalize hfs : parts.map (·.1) = fs at hordinary hother
  cases hordinary with
  | basic hbasic => exact absurd hbasic hother
  | @binaryVia m f g op lhs rhs hm =>
      match parts, hfs, ht with
      | [(b, a, c), (b₁, a₁, c₁)], hfs, ht =>
          cases hfs; cases ht
          refine Follows.congr (evaluate_via op a a₁ m) (fun E => evaluate_via op c c₁ m) ?_
          refine (h (b, a, c) (by simp)).bind (g := fun E w => do
            m.invoke E none [w, ← evaluate E ρ c₁]) fun v w hvw => ?_
          refine (h (b₁, a₁, c₁) (by simp)).bind (g := fun E w' => m.invoke E none [w, w'])
            fun v' w' hvw' => ?_
          exact invoke_follows hhost hI hm (fun _ h => by cases h) (.cons hvw (.cons hvw' .nil))
  | @unaryVia m f op operand ty hm =>
      match parts, hfs, ht with
      | [(b, a, c)], hfs, ht =>
          cases hfs; cases ht
          refine (h (b, a, c) (by simp)).bind (g := fun E w => m.invoke E none [w]) fun v w hvw => ?_
          exact invoke_follows hhost hI hm (fun _ h => by cases h) (.cons hvw .nil)
  | invoke handed callee args hone =>
      match parts, hfs, ht with
      | (_, a, c) :: parts, hfs, ht =>
          obtain ⟨rfl, hflags⟩ := List.cons.inj hfs
          obtain ⟨rfl, hargs⟩ := List.cons.inj ht
          change args = parts.map (·.2.1) at hargs
          refine Follows.congr (evaluate_invoke ..) (fun E => evaluate_invoke ..) ?_
          refine (h (_, _, c) (List.mem_cons_self ..)).bind fun v w hvw => ?_
          have hall := evaluateAll_follows parts fun q hq => h q (List.mem_cons_of_mem _ hq)
          rw [← hargs] at hall
          refine hall.bind fun vs ws hvs => ?_
          cases hvw with
          | @data v hv =>
              have hlength : vs.length = args.length := by
                rw [hvs.flags_length, hflags, List.length_replicate]
              rw [hflags, ← hlength] at hvs
              cases v with
              | func f => exact hhost f _ (hcall f _ hv) I hI n vs ws hvs
              | _ => exact Follows.fail
          | func hfg =>
              rw [hflags, hone rfl] at hvs
              cases hvs with
              | cons hvw hnil =>
                  cases hnil
                  obtain ⟨hdata, rfl⟩ := alike_false.1 hvw
                  exact hfg n _ hdata

/-! ## Filling -/

theorem forall₂_of_mem {α β : Type} {P Q : α → β → Prop} {as : List α} {bs : List β}
    (h : List.Forall₂ P as bs) (hQ : ∀ a b, a ∈ as → P a b → Q a b) : List.Forall₂ Q as bs := by
  induction h with
  | nil => exact .nil
  | cons hab _ ih =>
      exact .cons (hQ _ _ (List.mem_cons_self ..) hab) (ih fun a b ha => hQ a b (List.mem_cons_of_mem _ ha))

theorem forall₂_getElem? {α β : Type} {R : α → β → Prop} {as : List α} {bs : List β}
    (h : List.Forall₂ R as bs) {i : Nat} {b : β} (hb : bs[i]? = some b) :
    ∃ a, as[i]? = some a ∧ R a b := by
  obtain ⟨hi, rfl⟩ := List.getElem?_eq_some_iff.1 hb
  have hi' : i < as.length := h.length_eq ▸ hi
  exact ⟨as[i], List.getElem?_eq_getElem hi', (List.forall₂_iff_get.1 h).2 i hi' hi⟩

namespace Tree

variable {fill fill' : Param → Expr → Prop} {t u : Expr}

theorem everywhere_of_forall {p : Expr → Prop} (h : ∀ u, p u) (t : Expr) : t.Everywhere p := by
  induction t using childwise with
  | step t ih => exact everywhere_iff.2 ⟨h t, ih⟩

/-- The tree with every parameter replaced by a tree that is a filling of it. -/
def Filled (fill : Param → Expr → Prop) (t : Expr) : Expr → Prop :=
  t.fold fun
    | .param x => fill x
    | n => fun u => u.head = n.map (fun _ => ()) ∧ List.Forall₂ (fun c v => c.2 v) n.children u.children

theorem filled_node (ht : ∀ r, t ≠ .param r) :
    Filled fill t u ↔ u.head = t.head ∧ List.Forall₂ (Filled fill) t.children u.children := by
  have hunfold : Filled fill t u ↔ u.head = (t.node.map fun c => (c, Filled fill c)).map (fun _ => ()) ∧
      List.Forall₂ (fun c v => c.2 v) (t.node.map fun c => (c, Filled fill c)).children u.children := by
    unfold Filled
    rw [fold_eq]
    cases t <;> first | exact absurd rfl (ht _) | exact Iff.rfl
  rw [hunfold, Node.map_map, Node.children_map, List.forall₂_map_left_iff]
  rfl

/-- Replacing subtrees node by node replaces what is filled in. -/
theorem Filled.map {g : Expr → Expr} (h : Filled fill t u)
    (hnodes : t.Everywhere fun w => (∃ r, w = .param r) ∨
      ∀ v : Expr, v.head = w.head → (g v).head = v.head ∧ (g v).children = v.children.map g)
    (hfill : ∀ x w, fill x w → fill' x (g w)) : Filled fill' t (g u) := by
  induction t using childwise generalizing u with
  | step t ih =>
      by_cases ht : ∃ r, t = .param r
      · obtain ⟨r, rfl⟩ := ht
        exact hfill r u h
      · have hnode : ∀ r, t ≠ .param r := fun r hr => ht ⟨r, hr⟩
        obtain ⟨hhead, hchildren⟩ := (filled_node hnode).1 h
        obtain ⟨hghead, hgchildren⟩ := hnodes.here.resolve_left ht u hhead
        refine (filled_node hnode).2 ⟨hghead.trans hhead, ?_⟩
        rw [hgchildren, List.forall₂_map_right_iff]
        exact forall₂_of_mem hchildren fun c v hc hv => ih c hc hv (hnodes.child hc)

theorem Filled.imp (h : Filled fill t u) (hfill : ∀ x w, fill x w → fill' x w) : Filled fill' t u :=
  h.map (g := id) (everywhere_of_forall (fun _ => .inr fun _ _ => ⟨rfl, (List.map_id _).symm⟩) t) hfill

/-- What holds of the nodes of a tree, whatever is below them, and everywhere in what is filled in
holds everywhere. -/
theorem Filled.everywhere {p : Expr → Prop} (h : Filled fill t u)
    (hnodes : t.Everywhere fun w => (∃ r, w = .param r) ∨ ∀ v : Expr, v.head = w.head → p v)
    (hfill : ∀ x w, fill x w → w.Everywhere p) : u.Everywhere p := by
  induction t using childwise generalizing u with
  | step t ih =>
      by_cases ht : ∃ r, t = .param r
      · obtain ⟨r, rfl⟩ := ht
        exact hfill r u h
      · obtain ⟨hhead, hchildren⟩ := (filled_node fun r hr => ht ⟨r, hr⟩).1 h
        refine everywhere_iff.2 ⟨hnodes.here.resolve_left ht u hhead, ?_⟩
        exact forall_right hchildren fun c v hc hv => ih c hc hv (hnodes.child hc)

end Tree

/-! ## Trees over host code -/

/-- Trees of operations with `N` over parameters with `R`. -/
inductive Term (V : Vocabulary) (N : Expr → Prop) (R : Bool → Param → Prop) : Bool → Expr → Prop
  | param {b : Bool} {p : Param} : R b p → Term V N R b (.param p)
  | node {t : Expr} (parts : List (Bool × Expr)) : Ordinary V t (parts.map Prod.fst) → N t →
      t.children = parts.map Prod.snd → (∀ q ∈ parts, Term V N R q.1 q.2) → Term V N R false t

variable {N : Expr → Prop} {R : Bool → Param → Prop} {b : Bool} {t u : Expr}

theorem Term.everywhere (h : Term V N R b t) : t.Everywhere fun u =>
    (∃ b p, u = .param p ∧ R b p) ∨ (N u ∧ (∀ r, u ≠ .param r) ∧ ∀ ps c, u ≠ .lambda ps c) := by
  induction h with
  | param hp => exact Tree.everywhere_leaf (.inl ⟨_, _, rfl, hp⟩) rfl
  | node parts hordinary hN hchildren _ ih =>
      refine Tree.everywhere_iff.2 ⟨.inr ⟨hN, hordinary.shape rfl⟩, fun c hc => ?_⟩
      rw [hchildren] at hc
      obtain ⟨q, hq, rfl⟩ := List.mem_map.1 hc
      exact ih q hq

theorem Basic.of_head {fs : List Bool} (h : Basic V t fs) (hu : u.head = t.head) : Basic V u fs := by
  cases h with
  | literal ty hv => cases u <;> cases hu; exact .literal ty hv
  | staticMember hm => cases u <;> cases hu; exact .staticMember hm
  | member target hm => cases u <;> cases hu; exact .member _ hm
  | staticCall args hm =>
      cases u with
      | staticCall m args' =>
          obtain ⟨rfl, _⟩ := Node.staticCall.inj hu
          exact .staticCall _ hm
      | _ => cases hu
  | call target args hm =>
      cases u with
      | call target' m args' =>
          obtain ⟨_, rfl, _⟩ := Node.call.inj hu
          exact .call _ _ hm
      | _ => cases hu
  | binary op lhs rhs => cases u <;> cases hu; exact .binary ..
  | unary op operand ty => cases u <;> cases hu; exact .unary ..
  | conditional test ifTrue ifFalse => cases u <;> cases hu; exact .conditional ..

theorem Ordinary.of_head {fs : List Bool} (h : Ordinary V t fs) (hu : u.head = t.head)
    (hchildren : u.children.length = t.children.length) : Ordinary V u fs := by
  cases h with
  | basic hbasic => exact .basic (hbasic.of_head hu)
  | binaryVia op lhs rhs hm => cases u <;> cases hu; exact .binaryVia _ _ _ hm
  | unaryVia op operand ty hm => cases u <;> cases hu; exact .unaryVia _ _ _ hm
  | invoke handed callee args hone =>
      cases u with
      | invoke callee' args' =>
          have hargs : args.length = args'.length := (Nat.succ.inj hchildren).symm
          rw [hargs] at hone ⊢
          exact .invoke handed callee' args' hone
      | _ => cases hu

/-- Two lists related to a third one, side by side. -/
theorem beside_parts {α β γ δ : Type} {P : β → γ → Prop} {Q : β → δ → Prop} :
    ∀ {parts : List (α × β)} {cs : List γ} {ds : List δ}, List.Forall₂ P (parts.map Prod.snd) cs →
      List.Forall₂ Q (parts.map Prod.snd) ds → ∃ qs : List (α × γ × δ),
        qs.map (·.1) = parts.map Prod.fst ∧ qs.map (·.2.1) = cs ∧ qs.map (·.2.2) = ds ∧
          ∀ q ∈ qs, ∃ c, (q.1, c) ∈ parts ∧ P c q.2.1 ∧ Q c q.2.2
  | [], _, _, .nil, .nil => ⟨[], rfl, rfl, rfl, fun q hq => by cases hq⟩
  | (a, b) :: parts, c :: cs, d :: ds, .cons hc hcs, .cons hd hds => by
      obtain ⟨qs, h₁, h₂, h₃, h⟩ := beside_parts hcs hds
      refine ⟨(a, c, d) :: qs, by simp [h₁], by simp [h₂], by simp [h₃], fun q hq => ?_⟩
      rcases List.mem_cons.1 hq with rfl | hq
      · exact ⟨b, List.mem_cons_self .., hc, hd⟩
      · obtain ⟨e, he, hrest⟩ := h q hq
        exact ⟨e, List.mem_cons_of_mem _ he, hrest⟩

/-- **One filling of a tree follows another one** if the trees filled in do. -/
theorem Term.follows (hV : V.Closed) (hhost : V.Respected host) (hcall : V.Callable) (hI : Stable I)
    (h : Term V N R b t) {f g : Param → Expr → Prop} {u w : Expr} (hu : t.Filled f u)
    (hw : t.Filled g w)
    (hholes : ∀ b x u w, R b x → f x u → g x w → Follows host I (Alike host I V b)
      (evaluate (machine host n) σ u) fun E => evaluate E ρ w) :
    Follows host I (Alike host I V b) (evaluate (machine host n) σ u) fun E => evaluate E ρ w := by
  induction h generalizing u w with
  | param hp => exact hholes _ _ _ _ hp hu hw
  | @node t parts hordinary _ hchildren _ ih =>
      have hparam := (hordinary.shape rfl).1
      obtain ⟨hhead, hus⟩ := (Tree.filled_node hparam).1 hu
      obtain ⟨hhead', hws⟩ := (Tree.filled_node hparam).1 hw
      have hlength := hus.length_eq
      rw [hchildren] at hus hws
      obtain ⟨qs, hflags, huq, hwq, hq⟩ := beside_parts hus hws
      refine (ordinary_follows hV hhost hcall hI qs ?_ huq.symm (hhead'.trans hhead.symm) hwq.symm
        fun q hmem => ?_).imp fun _ _ => alike_false.2
      · rw [hflags]
        exact hordinary.of_head hhead hlength.symm
      · obtain ⟨c, hc, hcu, hcw⟩ := hq q hmem
        exact ih _ hc hcu hcw

end DualForm
