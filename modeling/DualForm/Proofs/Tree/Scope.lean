import DualForm.Proofs.Tree.Substitution

/-!
# Scopes

* `Tree.declared` — the parameters a node declares.
* `Tree.Scoped bound t` — every parameter read in `t` is in `bound`, or declared by a lambda around
  the read.

Principal results: `Tree.freeParams_subset_iff` — the parameters collected by the traversal are in a scope exactly
if the tree is scoped by it; `Tree.Scoped.substitute` — a replacement moved below any number of lambdas stays in
scope, also where the lambdas declare the replacement instead.
-/

namespace DualForm

namespace Tree

variable {ν γ ι : Type} {bound bound' found : List Param} {p : Param} {a t : Tree ν γ ι}

/-- The parameters declared by the top node. -/
def declared : Tree ν γ ι → List Param
  | .lambda ps _ => ps
  | _ => []

theorem declared_other (hlambda : ∀ ps b, t ≠ .lambda ps b) : t.declared = [] := by
  cases t with
  | lambda ps b => exact absurd rfl (hlambda ps b)
  | _ => rfl

/-- Whether one node is in scope, from what the subtrees ask of theirs. -/
def scopedAt : Node ν γ ι (Tree ν γ ι × (List Param → Prop)) → List Param → Prop
  | .param r, bound => r ∈ bound
  | .lambda ps (_, inBody), bound => inBody (ps ++ bound)
  | n, bound => ∀ c ∈ n.children, c.2 bound

/-- Reads are of `bound` parameters, or of those declared around them. -/
def Scoped (bound : List Param) (t : Tree ν γ ι) : Prop := fold scopedAt t bound

theorem scoped_param {r : Param} : Scoped bound (.param r : Tree ν γ ι) ↔ r ∈ bound := Iff.rfl

theorem scoped_lambda {ps : List Param} {b : Tree ν γ ι} :
    Scoped bound (.lambda ps b) ↔ Scoped (ps ++ bound) b := Iff.rfl

theorem scoped_other (hparam : ∀ r, t ≠ .param r) (hlambda : ∀ ps b, t ≠ .lambda ps b) :
    Scoped bound t ↔ ∀ c ∈ t.children, Scoped bound c := by
  unfold Scoped
  rw [fold_eq]
  cases t with
  | param r => exact absurd rfl (hparam r)
  | lambda ps b => exact absurd rfl (hlambda ps b)
  | _ => simp [scopedAt, node, Node.map, children, Node.children]

/-- A scope, from the top node and the direct subtrees. -/
theorem scoped_iff : Scoped bound t ↔
    (∀ r, t = .param r → r ∈ bound) ∧ ∀ c ∈ t.children, Scoped (t.declared ++ bound) c := by
  by_cases hparam : ∃ r, t = .param r
  · obtain ⟨r, rfl⟩ := hparam
    exact ⟨fun h => ⟨fun q hq => by cases hq; exact h, fun c hc => by cases hc⟩, fun h => h.1 r rfl⟩
  have hparam' : ∀ r, t ≠ .param r := fun r h => hparam ⟨r, h⟩
  rw [and_iff_right fun r h => absurd h (hparam' r)]
  by_cases hlambda : ∃ ps b, t = .lambda ps b
  · obtain ⟨ps, b, rfl⟩ := hlambda
    have hbody : Scoped bound (.lambda ps b) ↔ Scoped ((Tree.lambda ps b).declared ++ bound) b := .rfl
    exact hbody.trans List.forall_mem_singleton.symm
  have hlambda' : ∀ ps b, t ≠ .lambda ps b := fun ps b h => hlambda ⟨ps, b, h⟩
  rw [scoped_other hparam' hlambda', declared_other hlambda', List.nil_append]

theorem Scoped.mono (h : Scoped bound t) (hsub : bound ⊆ bound') : Scoped bound' t := by
  induction t using binderwise generalizing bound bound' with
  | param r => exact hsub h
  | lambda ps b ih => exact ih (scoped_lambda.1 h) (List.append_subset.2
      ⟨List.subset_append_left .., fun r hr => List.mem_append_right _ (hsub hr)⟩)
  | other t hparam hlambda ih =>
      rw [scoped_other hparam hlambda] at h ⊢
      exact fun c hc => ih c hc (h c hc) hsub

theorem Scoped.child {c : Tree ν γ ι} (h : Scoped bound t) (hc : c ∈ t.children) :
    Scoped (t.declared ++ bound) c := (scoped_iff.1 h).2 c hc

/-- What is scoped by nothing may stand anywhere. -/
theorem Scoped.anywhere (h : Scoped [] t) : Scoped bound t := h.mono (List.nil_subset _)

theorem declared_head {u : Tree ν γ ι} (h : u.head = t.head) : u.declared = t.declared := by
  cases t <;> cases u <;> first | rfl | cases h
  rfl

/-! ## The traversal that collects free parameters -/

/-- What is found in a scope was found before, or is in the scope and not bound. -/
theorem freeParams_found {free : List Param} (h : Scoped (bound ++ free) t) :
    fold freeParamsAt t bound found ⊆ found ++ free := by
  induction t using binderwise generalizing bound found with
  | param r =>
      show (if r ∈ bound ∨ r ∈ found then found else found ++ [r]) ⊆ found ++ free
      split
      · exact List.subset_append_left ..
      · rename_i hr
        have hfree : r ∈ free := (List.mem_append.1 h).resolve_left fun hb => hr (.inl hb)
        exact List.append_subset.2 ⟨List.subset_append_left .., List.subset_append_of_subset_right _
          (List.cons_subset.2 ⟨hfree, List.nil_subset _⟩)⟩
  | lambda ps b ih =>
      have hbody : Scoped ((ps ++ bound) ++ free) b := by
        rw [List.append_assoc]
        exact scoped_lambda.1 h
      exact ih hbody
  | other t hparam hlambda ih =>
      rw [freeParamsAt_other hparam hlambda]
      refine List.foldlRecOn (motive := (· ⊆ found ++ free)) t.children _ (List.subset_append_left ..) ?_
      intro before hbefore c hc
      have hchild := (scoped_other hparam hlambda).1 h c hc
      exact fun r hr => (List.mem_append.1 (ih c hc hchild hr)).elim (@hbefore r) (List.mem_append_right _)

/-- What has been found stays found, and what is read is bound or found in the end. -/
theorem scoped_freeParams (t : Tree ν γ ι) (bound found : List Param) :
    found ⊆ fold freeParamsAt t bound found ∧ Scoped (bound ++ fold freeParamsAt t bound found) t := by
  induction t using binderwise generalizing bound found with
  | param r =>
      show found ⊆ (if r ∈ bound ∨ r ∈ found then found else found ++ [r]) ∧
        r ∈ bound ++ (if r ∈ bound ∨ r ∈ found then found else found ++ [r])
      split
      · rename_i h
        exact ⟨List.Subset.refl _, List.mem_append.2 h⟩
      · exact ⟨List.subset_append_left .., by simp⟩
  | lambda ps b ih =>
      obtain ⟨hfound, hscoped⟩ := ih (ps ++ bound) found
      refine ⟨hfound, ?_⟩
      rw [scoped_lambda, ← List.append_assoc]
      exact hscoped
  | other t hparam hlambda ih =>
      rw [freeParamsAt_other hparam hlambda, scoped_other hparam hlambda]
      have hall : ∀ (cs : List (Tree ν γ ι)) (found : List Param), (∀ c ∈ cs, c ∈ t.children) →
          found ⊆ cs.foldl (fun found c => fold freeParamsAt c bound found) found ∧
          ∀ c ∈ cs, Scoped
            (bound ++ cs.foldl (fun found c => fold freeParamsAt c bound found) found) c := by
        intro cs
        induction cs with
        | nil => exact fun found _ => ⟨List.Subset.refl _, fun c hc => by cases hc⟩
        | cons c cs ihcs =>
            intro found hcs
            obtain ⟨hfirst, hscoped⟩ := ih c (hcs c (List.mem_cons_self ..)) bound found
            obtain ⟨hrest, hall⟩ := ihcs (fold freeParamsAt c bound found)
              fun u hu => hcs u (List.mem_cons_of_mem _ hu)
            refine ⟨fun r hr => hrest (hfirst hr), fun u hu => ?_⟩
            rcases List.mem_cons.1 hu with rfl | hu
            · exact hscoped.mono (List.append_subset.2 ⟨List.subset_append_left ..,
                fun r hr => List.mem_append_right _ (hrest hr)⟩)
            · exact hall u hu
      exact hall t.children found fun c hc => hc

/-- **A traversal finds nothing but parameters of a scope exactly in the trees scoped by it.** -/
theorem freeParams_subset_iff : t.freeParams ⊆ bound ↔ Scoped bound t := by
  constructor
  · intro h
    exact (scoped_freeParams t [] []).2.mono h
  · intro h
    show fold freeParamsAt t [] [] ⊆ [] ++ bound
    exact freeParams_found h

/-- The traversal finds no free parameter exactly in trees scoped by nothing. -/
theorem freeParams_eq_nil_iff : t.freeParams = [] ↔ Scoped [] t := by
  rw [← freeParams_subset_iff, List.subset_nil]

/-! ## Substitution -/

theorem mem_redeclare {r : Param} {ps : List Param} (hr : r ∈ ps) (hp : r ≠ p) :
    r ∈ redeclare p a ps := by
  unfold redeclare
  split
  · exact List.mem_map.2 ⟨r, hr, if_neg hp⟩
  · exact hr

/-- **A substitution leaves no read without a declaration.** Reads of the parameter are those of the
replacement afterwards, and a lambda that declares the replacement instead still declares all others. -/
theorem Scoped.substitute (ht : Scoped bound t) (ha : Scoped bound' a)
    (hsub : ∀ r ∈ bound, r ≠ p → r ∈ bound') : Scoped bound' (substitute p a t) := by
  induction t using binderwise generalizing bound bound' with
  | param r =>
      unfold Tree.substitute
      split
      · exact ha
      · exact hsub r ht (by assumption)
  | lambda ps b ih =>
      rw [substitute_lambda, scoped_lambda]
      refine ih (scoped_lambda.1 ht) (ha.mono (List.subset_append_right ..)) fun r hr hp => ?_
      rcases List.mem_append.1 hr with hr | hr
      · exact List.mem_append_left _ (mem_redeclare hr hp)
      · exact List.mem_append_right _ (hsub r hr hp)
  | other t hparam hlambda ih =>
      rw [scoped_iff]
      refine ⟨fun r hr => ?_, fun c hc => ?_⟩
      · exact absurd hr ((substitute_other hparam hlambda).1 r)
      · rw [substitute_children hparam] at hc
        obtain ⟨u, hu, rfl⟩ := List.mem_map.1 hc
        have := ih u hu ((scoped_other hparam hlambda).1 ht u hu) ha hsub
        exact this.mono (List.subset_append_right ..)

end Tree

end DualForm
