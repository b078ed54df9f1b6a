import DualForm.Proofs.Rewriting.Inlined

/-!
# Trees that render duals

* `Subject` — what a tree can render: another tree over a parameter of its own, as a value or as a
  function, or the application of a dual.
* `Renders V D r S u` — where the parameter, or the argument of the dual, is rendered by `r`, the
  tree `u` renders `S`: every evaluation of a dual is unfolded down to operations over host code.

Rendering does not look at the machine, the store or the passes. Reads of other parameters may be
rendered by anything, since they have no value where the subject is evaluated.

Principal results: `Renders.inserted` — substitution that respects declarations keeps renderings;
`Inlined.renders` — what the passes make of a tree renders it.
-/

namespace DualForm

/-- What a tree can render. -/
inductive Subject where
  /-- A tree over its parameter, standing where a function is taken or where a value is. -/
  | tree (handed : Bool) (x : Param) (t : Expr)
  /-- A dual, applied. -/
  | dual (d : Dual)

variable {V : Vocabulary} {D : Dual → Prop}

/-- The tree renders the subject, with `r` in the place of its parameter or argument. -/
inductive Renders (V : Vocabulary) (D : Dual → Prop) : Expr → Subject → Expr → Prop
  | node {r t u : Expr} {x : Param} (parts : List (Bool × Expr × Expr)) :
      Basic V t (parts.map (·.1)) → t.children = parts.map (·.2.1) → u.head = t.head →
      u.children = parts.map (·.2.2) → (∀ q ∈ parts, Renders V D r (.tree q.1 x q.2.1) q.2.2) →
      Renders V D r (.tree false x t) u
  | own (r : Expr) (x : Param) : Renders V D r (.tree false x (.param x)) r
  | foreign {x z : Param} (r u : Expr) : z ≠ x → Renders V D r (.tree false x (.param z)) u
  | evaluation {r a m u : Expr} {x : Param} {d : Dual} (byMethod : Bool) : D d →
      Renders V D r (.tree false x a) m → Renders V D m (.dual d) u →
      Renders V D r (.tree false x (d.evaluation byMethod a)) u
  | handed {b : Expr} {y : Param} {d : Dual} (r : Expr) (x : Param) (byConversion : Bool) : D d →
      Renders V D (.param y) (.dual d) b →
      Renders V D r (.tree true x (d.handed byConversion)) (.lambda [y] b)
  | lambda {r t u : Expr} {p : Param} {d : Dual} : d.origin = .lambda ⟨[p], t⟩ →
      Renders V D r (.tree false p t) u → Renders V D r (.dual d) u
  | composed {r m u : Expr} {d outer inner : Dual} : d.origin = .composed outer inner →
      Renders V D r (.dual inner) m → Renders V D m (.dual outer) u → Renders V D r (.dual d) u

namespace Renders

theorem mono {D' : Dual → Prop} {r u : Expr} {S : Subject} (h : Renders V D r S u)
    (hD : ∀ d, D d → D' d) : Renders V D' r S u := by
  induction h with
  | node parts hbasic ht hhead hu _ ih => exact .node parts hbasic ht hhead hu ih
  | own r x => exact .own r x
  | foreign r u hz => exact .foreign r u hz
  | evaluation byMethod hd _ _ iha ihd => exact .evaluation byMethod (hD _ hd) iha ihd
  | handed r x byConversion hd _ ih => exact .handed r x byConversion (hD _ hd) ih
  | lambda ho _ ih => exact .lambda ho ih
  | composed ho _ _ ihi iho => exact .composed ho ihi iho

/-- **Substitution that respects declarations keeps renderings.** Lambdas close over their
parameter, so that one that declares `z` again may be left alone, or declare the parameter put in
the place of `z`. -/
theorem inserted {renames : Bool} {r u : Expr} {S : Subject} (h : Renders V D r S u) (z : Param)
    (m : Expr) (hm : renames = true → ∃ q, m = .param q) :
    Renders V D (Tree.inserted renames z m r) S (Tree.inserted renames z m u) := by
  induction h with
  | @node r t u x parts hbasic ht hhead hu _ ih =>
      obtain ⟨hparam, hlambda, _⟩ := hbasic.shape hhead
      refine .node (parts.map fun q => (q.1, q.2.1, Tree.inserted renames z m q.2.2)) ?_ ?_ ?_ ?_ ?_
      · rw [List.map_map]; exact hbasic
      · rw [List.map_map]; exact ht
      · rw [Tree.inserted_head renames hparam hlambda]; exact hhead
      · rw [Tree.inserted_children renames hparam hlambda, hu, List.map_map, List.map_map]; rfl
      · intro q hq
        obtain ⟨c, hc, rfl⟩ := List.mem_map.1 hq
        exact ih c hc
  | own r x => exact .own _ _
  | foreign r u hz => exact .foreign _ _ hz
  | evaluation byMethod hd _ _ iha ihd => exact .evaluation byMethod hd iha ihd
  | @handed b y d r x byConversion hd hb ih =>
      rw [Tree.inserted_param] at ih
      cases renames with
      | true =>
          obtain ⟨q, rfl⟩ := hm rfl
          refine .handed (y := if y = z then q else y) _ _ byConversion hd ?_
          split
          · rwa [if_pos ‹_›] at ih
          · rwa [if_neg ‹_›] at ih
      | false =>
          refine .handed (y := y) _ _ byConversion hd ?_
          by_cases hy : y = z
          · rw [if_pos (by rw [hy]; exact List.mem_singleton.2 rfl)]
            exact hb
          · rw [if_neg fun h => hy (List.mem_singleton.1 h).symm]
            rwa [if_neg hy] at ih
  | lambda ho _ ih => exact .lambda ho ih
  | composed ho _ _ ihi iho => exact .composed ho ihi iho

/-- The parameter replaced by a tree that renders it. -/
theorem replaced {renames : Bool} {u m : Expr} {S : Subject} {p : Param}
    (h : Renders V D (.param p) S u) (hm : renames = true → ∃ q, m = .param q) :
    Renders V D m S (Tree.inserted renames p m u) := by
  have hinserted := h.inserted p m hm
  rwa [Tree.inserted_param, if_pos rfl] at hinserted

end Renders

/-! ## What the passes render -/

/-- The tree forms of the duals with `D` render them. -/
def Faithful (V : Vocabulary) (D : Dual → Prop) (form : Dual → Lam) : Prop :=
  ∀ d p, D d → (form d).params = [p] → Renders V D (.param p) (.dual d) (form d).body

variable {form : Dual → Lam} {F : Dual → Prop}

/-- **What the passes make of a tree renders it.** -/
theorem Inlined.renders {b : Bool} {t u : Expr} (hforms : FlatForms form D) (hform : Faithful V D form)
    (h : Inlined V form D F (fun _ => True) b t u) (x : Param) :
    Renders V D (.param x) (.tree b x t) u := by
  induction h with
  | node parts hbasic _ ht hhead hu _ ih => exact .node parts hbasic ht hhead hu ih
  | @param p _ =>
      by_cases hp : p = x
      · subst hp; exact .own _ _
      · exact .foreign _ _ hp
  | kept _ hkept => exact absurd trivial hkept
  | @replaced d a a' p renames byMethod _ hd hp hrenames _ ih =>
      exact .evaluation byMethod hd ih ((hform d p hd hp).replaced hrenames)
  | handedKept _ hkept => exact absurd trivial hkept
  | @handed d byConversion _ hd _ =>
      obtain ⟨p, hp⟩ := hforms.single d hd
      have htree : (form d).tree = .lambda [p] (form d).body := by
        show Tree.lambda (form d).params (form d).body = _
        rw [hp]
      rw [htree]
      exact .handed _ _ byConversion hd (hform d p hd hp)

end DualForm
