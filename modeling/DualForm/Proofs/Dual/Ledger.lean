import DualForm.Proofs.Dual.Predicate

/-!
# What combinations of predicates publish

* `Silent s t` — from `s` to `t` identities are given out and forms are published, and nothing else
  happens.
* `Ledger` — which duals have been made as which combinations, and their lambdas, by identity.
  `Ledger.Holds` — these duals have published no other forms than those.
* `Ledger.Records Γ c d l` — `Γ` says that `d` has been made as `c`, of predicates, with the lambda
  `l`.
* `Ready ds s` — the predicates `ds` exist in `s`, with the forms of their lambdas or none.

Principal results: `Ledger.Open.make` — every combination of predicates over one source can be made,
and is recorded; `Ledger.Records.tree`, `Ledger.Records.function` — both forms of what is recorded can
be had without running host code.
-/

namespace DualForm

variable {host : Host}

/-- Identities are given out and forms are published, and nothing else happens. -/
structure Silent (s t : Store) : Prop where
  values : t.values = s.values
  cells : t.cells = s.cells
  attempts : t.attempts = s.attempts
  log : t.log = s.log

theorem Silent.refl (s : Store) : Silent s s := ⟨rfl, rfl, rfl, rfl⟩

/-- Which duals have been made as which combinations, and their lambdas, by identity. -/
abbrev Ledger := Nat → Option (Combination × Lam)

namespace Ledger

variable {Γ Γ' : Ledger} {c : Combination} {d : Dual} {l : Lam} {s s₀ : Store}

/-- The duals in the ledger have published no other forms than theirs. -/
structure Holds (Γ : Ledger) (s : Store) : Prop where
  tree : ∀ {id c l k}, Γ id = some (c, l) → s.trees[id]? = some k → k = l
  function : ∀ {id c l f}, Γ id = some (c, l) → s.functions[id]? = some f → c.Performs f

/-- The ledger holds, and since `s₀` no host code has run. -/
def Since (Γ : Ledger) (s₀ s : Store) : Prop := Γ.Holds s ∧ Silent s₀ s

/-- What a dual in the ledger may publish. -/
theorem allotted (h : Γ d.id = some (c, l)) (s₀ : Store) : d.Allotted (Γ.Since s₀) l := by
  refine ⟨fun s k hs hk => hs.1.tree h hk, fun s hs _ => ⟨⟨fun {id c' l' k} hid hk => ?_, ?_⟩, ?_⟩⟩
  · rw [trees_write] at hk
    split at hk
    · rename_i heq
      rw [heq, hid] at h
      cases h
      cases hk
      rfl
    · exact hs.1.tree hid hk
  · exact hs.1.function
  · exact ⟨hs.2.values, hs.2.cells, hs.2.attempts, hs.2.log⟩

theorem Since.writeFunction {f : Func} (hs : Γ.Since s₀ s) (h : Γ d.id = some (c, l))
    (hf : c.Performs f) : Γ.Since s₀ ((Slot.function d).write f s) := by
  refine ⟨⟨hs.1.tree, fun {id c' l' g} hid hg => ?_⟩, ?_⟩
  · rw [functions_write] at hg
    split at hg
    · rename_i heq
      rw [heq, hid] at h
      cases h
      cases hg
      exact hf
    · exact hs.1.function hid hg
  · exact ⟨hs.2.values, hs.2.cells, hs.2.attempts, hs.2.log⟩

theorem Since.identity (hs : Γ.Since s₀ s) : Γ.Since s₀ { s with nextId := s.nextId + 1 } :=
  ⟨⟨hs.1.tree, hs.1.function⟩, ⟨hs.2.values, hs.2.cells, hs.2.attempts, hs.2.log⟩⟩

/-! ## Recorded combinations -/

/-- The ledger says that `d` has been made as `c`, of predicates, with the lambda `l`. -/
inductive Records (Γ : Ledger) : Combination → Dual → Lam → Prop
  | leaf {d : Dual} : d.Predicate → Γ d.id = some (.leaf d, d.raw) → Records Γ (.leaf d) d d.raw
  | joined {k : Connective} {c₁ c₂ : Combination} {l r d : Dual} {f g m : Lam} {s t : Store} :
      Records Γ c₁ l f → Records Γ c₂ r g → k.join l r s = .ok d t →
      Lambda.combined k.op f g = .ok m → Γ d.id = some (.joined k c₁ c₂, m) →
      Records Γ (.joined k c₁ c₂) d m
  | negated {c : Combination} {e d : Dual} {f m : Lam} {s t : Store} : Records Γ c e f →
      Dual.negation e s = .ok d t → Lambda.negation f = .ok m → Γ d.id = some (.negated c, m) →
      Records Γ (.negated c) d m

theorem Records.mono (h : Γ.Records c d l) (hsub : ∀ id e, Γ id = some e → Γ' id = some e) :
    Γ'.Records c d l := by
  induction h with
  | leaf hd he => exact .leaf hd (hsub _ _ he)
  | joined _ _ hjoin hm he ihl ihr => exact .joined ihl ihr hjoin hm (hsub _ _ he)
  | negated _ hmake hm he ih => exact .negated ih hmake hm (hsub _ _ he)

/-- A predicate in the ledger. -/
def Leaf (Γ : Ledger) (d : Dual) : Prop := d.Predicate ∧ Γ d.id = some (.leaf d, d.raw)

/-- Predicates hand out the lambdas they were made from. -/
theorem forms (Γ : Ledger) (host : Host) (s₀ : Store) : Forms host (Γ.Since s₀) Dual.raw Γ.Leaf := by
  refine ⟨fun d hd N => (allotted hd.2 s₀).tree ?_, fun d hd => hd.1.origin.2.2,
    fun d hd => hd.1.unreferenced⟩
  have hinitial : ∀ E : Engine, d.initialTree host E = rewriteLambda E d.raw := by
    intro E
    unfold Dual.initialTree
    rw [hd.1.origin.2.1]
  exact Completes.congr hinitial
    (rewriteLambda_settled (Tree.settled_of_unreferenced hd.1.unreferenced))

theorem Records.has (h : Γ.Records c d l) (s₀ : Store) :
    Combination.Has Dual.raw Γ.Leaf (Γ.Since s₀) c d l := by
  induction h with
  | leaf hd he => exact .leaf ⟨hd, he⟩ hd.origin.1
  | joined _ _ hjoin hm he ihl ihr => exact .joined ihl ihr hjoin hm (allotted he s₀)
  | negated _ hmake hm he ih => exact .negated ih hmake hm (allotted he s₀)

theorem Records.own (h : Γ.Records c d l) : ∃ p, l.Own p :=
  (h.has .initial).own fun _ he => he.1

/-- **The tree form of a recorded combination** is its lambda, and no host code runs to make it. -/
theorem Records.tree (h : Γ.Records c d l) (hs : Γ.Holds s) :
    ∃ t, Reaches host (fun E => E.tree d) s l t ∧ Γ.Since s t := by
  have htree : Completes host (Γ.Since s) 0 True (· = l) fun E => E.tree d :=
    (h.has s).tree (Γ.forms host s)
  obtain ⟨_, rfl, hsettles⟩ := htree.settles trivial
  exact hsettles s ⟨hs, .refl s⟩

/-! ## Function forms -/

/-- A function form of `c`, silently. -/
abbrev Performed (Γ : Ledger) (s₀ : Store) (c : Combination) (f : Func) (s : Store) : Prop :=
  c.Performs f ∧ Γ.Since s₀ s

theorem newFunc_triple {arity : Nat} {code : Code} (h : ∀ id, c.Performs ⟨id, arity, code⟩) :
    Triple host True (fun _ => True) (Γ.Since s₀) (Γ.Performed s₀ c)
      fun _ => Act.newFunc arity code :=
  Triple.of_run fun _ hs => ⟨_, _, rfl, h _, hs.identity⟩

/-- A function form that is computed is published and handed out. -/
theorem function_triple (he : Γ d.id = some (c, l))
    (hx : Triple host True (fun _ => True) (Γ.Since s₀) (Γ.Performed s₀ c)
      fun E => d.initialFunction host E) :
    Triple host True (fun _ => True) (Γ.Since s₀) (Γ.Performed s₀ c) fun E => E.function d := by
  refine Triple.step (y := fun E => d.forceFunction host E) rfl (fun _ => machine_function d)
    (fun _ _ => trivial) ?_
  refine Triple.publishOnce (fun s f hs hf => ⟨hs.1.function he hf, hs⟩)
    (hx.imp (fun _ hs => hs.1) fun _ _ h => h) (fun s f g hs hg => ⟨hs.2.1.function he hg, hs.2⟩)
    fun s f hs _ => ⟨hs.1, hs.2.writeFunction he hs.1⟩

theorem Records.function_triple (h : Γ.Records c d l) (s₀ : Store) :
    Triple host True (fun _ => True) (Γ.Since s₀) (Γ.Performed s₀ c) fun E => E.function d := by
  induction h with
  | @leaf d hd he =>
      refine Ledger.function_triple he (Triple.congr (fun E => ?_)
        (newFunc_triple fun id => .leaf id hd.origin.2.1))
      unfold Dual.initialFunction
      rw [hd.origin.2.1]
      rfl
  | @joined k c₁ c₂ l r d f g m s t _ _ hjoin _ he ihl ihr =>
      obtain ⟨_, rfl, _⟩ := Connective.join_ok hjoin
      have hinitial : ∀ E : Engine,
          Dual.initialFunction host E ⟨s.nextId, .specification, l.source, .bool, k.origin l r⟩ = (do
            let f ← E.function l
            let g ← E.function r
            Act.newFunc 1 (k.code f g)) := by
        intro E
        cases k <;> rfl
      refine Ledger.function_triple he (Triple.congr hinitial (ihl.bind fun f => ?_))
      refine Triple.assuming (fun _ hs => hs.1) fun hf => ?_
      refine Triple.bind (ihr.imp (fun _ hs => hs.2) fun _ _ h => h) fun g => ?_
      refine Triple.assuming (fun _ hs => hs.1) fun hg => ?_
      exact (newFunc_triple fun id => .joined id hf hg).imp (fun _ hs => hs.2) fun _ _ h => h
  | negated _ hmake _ he ih =>
      cases hmake
      refine Ledger.function_triple he (Triple.congr (fun _ => rfl) (ih.bind fun f => ?_))
      refine Triple.assuming (fun _ hs => hs.1) fun hf => ?_
      exact (newFunc_triple fun id => .negated id hf).imp (fun _ hs => hs.2) fun _ _ h => h

/-- A function form handed out is published. -/
theorem function_published {E : Engine} {f : Func} {t : Store}
    (h : d.forceFunction host E s = .ok f t) : t.functions[d.id]? = some f := by
  rcases publishOnce_ok h with ⟨hread, rfl⟩ | ⟨_, b, v, _, ⟨hread, rfl⟩ | ⟨_, rfl, rfl⟩⟩
  · exact hread
  · exact hread
  · exact (functions_write ..).trans (if_pos rfl)

/-- **The function form of a recorded combination** can be had, and no host code runs to make it. -/
theorem Records.function (h : Γ.Records c d l) (hs : Γ.Holds s) :
    ∃ f t, Reaches host (fun E => E.function d) s f t ∧ t.functions[d.id]? = some f ∧
      c.Performs f ∧ Γ.Since s t := by
  have hfunction : Triple host True (fun _ => True) (Γ.Since s) (Γ.Performed s c) fun E => E.function d :=
    h.function_triple s
  obtain ⟨f, t, hreach, hf, ht⟩ := hfunction.arrives trivial ⟨hs, .refl s⟩
  obtain ⟨N, hN⟩ := id hreach
  exact ⟨f, t, hreach, function_published (hN (N + 1) (Nat.le_succ N)), hf, ht⟩

/-! ## Making combinations -/

/-- The ledger holds, and knows nothing of identities that have not been given out. -/
structure Open (Γ : Ledger) (s : Store) : Prop where
  holds : Γ.Holds s
  fresh : Fresh s
  unused : ∀ id, s.nextId ≤ id → Γ id = none

/-- The ledger with one more entry. -/
def add (Γ : Ledger) (id : Nat) (e : Combination × Lam) : Ledger := fun j =>
  if j = id then some e else Γ j

theorem Open.extends (h : Γ.Open s) (e : Combination × Lam) (id : Nat) (e' : Combination × Lam)
    (hid : Γ id = some e') : Γ.add s.nextId e id = some e' := by
  unfold add
  split
  · rename_i heq
    rw [heq, h.unused _ (Nat.le_refl _)] at hid
    cases hid
  · exact hid

/-- A dual made now may be entered. -/
theorem Open.add (h : Γ.Open s) (e : Combination × Lam) :
    (Γ.add s.nextId e).Open { s with nextId := s.nextId + 1 } := by
  have hnone : ∀ {id e'}, Γ.add s.nextId e id = some e' → id = s.nextId ∨ Γ id = some e' := by
    intro id e' hid
    unfold Ledger.add at hid
    split at hid
    · exact .inl (by assumption)
    · exact .inr hid
  refine ⟨⟨fun {id c l k} hid hk => ?_, fun {id c l f} hid hf => ?_⟩, ⟨fun id hid => ?_, fun id hid => ?_⟩,
    fun id hid => ?_⟩
  · rcases hnone hid with rfl | hid
    · exact absurd hk (by rw [show ({ s with nextId := s.nextId + 1 } : Store).trees = s.trees from rfl,
        h.fresh.trees _ (Nat.le_refl _)]; simp)
    · exact h.holds.tree hid hk
  · rcases hnone hid with rfl | hid
    · exact absurd hf (by rw [show ({ s with nextId := s.nextId + 1 } : Store).functions = s.functions
        from rfl, h.fresh.functions _ (Nat.le_refl _)]; simp)
    · exact h.holds.function hid hf
  · exact h.fresh.trees id (Nat.le_of_succ_le hid)
  · exact h.fresh.functions id (Nat.le_of_succ_le hid)
  · have hne : id ≠ s.nextId := Nat.ne_of_gt hid
    unfold Ledger.add
    rw [if_neg hne]
    exact h.unused id (Nat.le_of_succ_le hid)

/-- **Every combination of predicates over one source can be made,** and is recorded then. -/
theorem Open.make (c : Combination) {source : Ty} (h : Γ.Open s)
    (hleaves : ∀ e ∈ c.leaves, Γ.Leaf e ∧ e.source = source) :
    ∃ d t Γ' l, c.make s = .ok d t ∧ Ledger.Open Γ' t ∧ Γ'.Records c d l ∧ d.source = source ∧
      ∀ id e, Γ id = some e → Γ' id = some e := by
  induction c generalizing Γ s with
  | leaf d =>
      obtain ⟨hd, hsource⟩ := hleaves d (List.mem_singleton.2 rfl)
      exact ⟨d, s, Γ, d.raw, rfl, h, .leaf hd.1 hd.2, hsource, fun _ _ h => h⟩
  | joined k c₁ c₂ ih₁ ih₂ =>
      obtain ⟨l, s₁, Γ₁, f, hl, hΓ₁, hf, hlsource, hsub₁⟩ :=
        ih₁ h fun e he => hleaves e (List.mem_append_left _ he)
      obtain ⟨r, s₂, Γ₂, g, hr, hΓ₂, hg, hrsource, hsub₂⟩ := ih₂ hΓ₁ fun e he =>
        have he := hleaves e (List.mem_append_right _ he)
        ⟨⟨he.1.1, hsub₁ _ _ he.1.2⟩, he.2⟩
      obtain ⟨p, hp⟩ := hf.own
      obtain ⟨q, hq⟩ := hg.own
      have hm : Lambda.combined k.op f g = _ := Lambda.combined_ok.2 ⟨p, hp.single, q, hq.single, rfl⟩
      have hjoin := Connective.join_run (hlsource.trans hrsource.symm) k s₂
      have hsub := hΓ₂.extends (.joined k c₁ c₂,
        ⟨[p], .operation k.op f.body (Tree.substitute q (.param p) g.body)⟩)
      refine ⟨_, _, _, _, ?_, hΓ₂.add _, .joined ((hf.mono hsub₂).mono hsub) (hg.mono hsub) hjoin hm
        (if_pos rfl), hlsource, fun id e he => hsub _ _ (hsub₂ _ _ (hsub₁ _ _ he))⟩
      unfold Combination.make
      rw [Act.bind_ok hl, Act.bind_ok hr, hjoin]
  | negated c ih =>
      obtain ⟨e, s₁, Γ₁, f, he, hΓ₁, hf, hsource, hsub₁⟩ := ih h hleaves
      obtain ⟨p, hp⟩ := hf.own
      have hm := Lambda.negation_ok.2 ⟨p, hp.single, rfl⟩
      have hsub := hΓ₁.extends (.negated c, ⟨[p], f.body.complement⟩)
      refine ⟨_, _, _, _, ?_, hΓ₁.add _, .negated (hf.mono hsub) (s := s₁) rfl hm (if_pos rfl), hsource,
        fun id e he => hsub _ _ (hsub₁ _ _ he)⟩
      unfold Combination.make
      rw [Act.bind_ok he]
      rfl

end Ledger

/-- The predicates exist, and have published the forms of their lambdas or none. -/
structure Ready (ds : List Dual) (s : Store) : Prop where
  fresh : Fresh s
  known : ∀ d ∈ ds, d.id < s.nextId
  distinct : ∀ d ∈ ds, ∀ e ∈ ds, d.id = e.id → d = e
  tree : ∀ d ∈ ds, ∀ k, s.trees[d.id]? = some k → k = d.raw
  function : ∀ d ∈ ds, ∀ f, s.functions[d.id]? = some f → (Combination.leaf d).Performs f

/-- The ledger of predicates. -/
def Ledger.ofLeaves (ds : List Dual) : Ledger := fun id =>
  (ds.find? (·.id = id)).map fun d => (.leaf d, d.raw)

theorem Ledger.ofLeaves_eq {ds : List Dual} {id : Nat} {e : Combination × Lam}
    (h : Ledger.ofLeaves ds id = some e) : ∃ d ∈ ds, d.id = id ∧ e = (.leaf d, d.raw) := by
  obtain ⟨d, hd, rfl⟩ := Option.map_eq_some_iff.1 h
  exact ⟨d, List.mem_of_find?_eq_some hd, by simpa using List.find?_some hd, rfl⟩

namespace Ready

variable {ds : List Dual} {s : Store}

theorem entry (h : Ready ds s) {d : Dual} (hd : d ∈ ds) :
    Ledger.ofLeaves ds d.id = some (.leaf d, d.raw) := by
  unfold Ledger.ofLeaves
  cases hfind : ds.find? (·.id = d.id) with
  | none =>
      have := List.find?_eq_none.1 hfind d hd
      simp at this
  | some e =>
      have hid : e.id = d.id := by simpa using List.find?_some hfind
      rw [h.distinct e (List.mem_of_find?_eq_some hfind) d hd hid]
      rfl

theorem open_ledger (h : Ready ds s) : (Ledger.ofLeaves ds).Open s := by
  refine ⟨⟨fun {id c l k} hid hk => ?_, fun {id c l f} hid hf => ?_⟩, h.fresh, fun id hid => ?_⟩
  · obtain ⟨d, hd, rfl, he⟩ := Ledger.ofLeaves_eq hid
    cases he
    exact h.tree d hd k hk
  · obtain ⟨d, hd, rfl, he⟩ := Ledger.ofLeaves_eq hid
    cases he
    exact h.function d hd f hf
  · cases hentry : Ledger.ofLeaves ds id with
    | none => rfl
    | some e =>
        obtain ⟨d, hd, rfl, _⟩ := Ledger.ofLeaves_eq hentry
        exact absurd (h.known d hd) (Nat.not_lt.2 hid)

end Ready

end DualForm
