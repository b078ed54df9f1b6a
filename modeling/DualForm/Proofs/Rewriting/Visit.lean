import DualForm.Proofs.Preservation

/-!
# What visiting a node gives

* `Host.KeepsTrees host` — host code takes no published tree form away.
* `Published p s` — every tree form published in `s` satisfies `p`.
* `Engine.Shows p E` — `E` takes no published form away, and hands out forms with `p` wherever all
  published forms have `p` in the end.
* `Tree.folds` — the trees that fold: literals, static members, and reads of members of such trees.

Principal results: `machine_shows`; `foldDual_of_not_folds` and `foldDual_gives` — what the dual
behind a tree is; `rebuild_results` — a rebuilt node has the head of the node given, over results
of the rewritten subtrees.
-/

namespace DualForm

open Act (Gives)

variable {α : Type} {p : Lam → Prop} {Q : Store → Prop} {E : Engine} {host : Host}

/-! ## Published forms -/

/-- Host code takes no published tree form away. -/
def Host.KeepsTrees (host : Host) : Prop :=
  ∀ id l, host.Keeps (TreePublished id l)

/-- Every published tree form satisfies the predicate. -/
def Published (p : Lam → Prop) (s : Store) : Prop :=
  ∀ id l, TreePublished id l s → p l

/-- Published forms stay, and all forms handed out satisfy the predicate if the published ones do.
-/
structure Engine.Shows (p : Lam → Prop) (E : Engine) : Prop where
  keeps : ∀ id l, E.Keeps (TreePublished id l)
  tree : ∀ d, Gives (Published p) p (E.tree d)

/-- An action that takes no published form away started in a store where the forms published in
the end have `p`. -/
theorem gives_of_keeps {x : Act α} (h : ∀ id l, x.Keeps (TreePublished id l)) :
    Gives (Published p) (fun _ => True) x := by
  constructor
  intro s a t ha ht
  exact ⟨fun id l hl => ht id l ((h id l).ok ha hl), trivial⟩

/-- A form handed out is published. -/
theorem forceTree_published {d : Dual} {s t : Store} {l : Lam}
    (h : d.forceTree host E s = .ok l t) : t.trees[d.id]? = some l := by
  rcases publishOnce_ok h with ⟨hread, rfl⟩ | ⟨_, b, v, _, ⟨hread, rfl⟩ | ⟨_, rfl, rfl⟩⟩
  · exact hread
  · exact hread
  · exact (trees_write ..).trans (if_pos rfl)

theorem machine_shows (hh : host.KeepsTrees) : ∀ n, (machine host n).Shows p
  | 0 => ⟨fun id l => machine_keeps (lasting_tree id l) (hh id l) 0, fun _ => Gives.exhausted⟩
  | n + 1 => by
      have hkeeps : ∀ id l, (machine host (n + 1)).Keeps (TreePublished id l) :=
        fun id l => machine_keeps (lasting_tree id l) (hh id l) (n + 1)
      refine ⟨hkeeps, fun d => ⟨fun s l t h ht => ?_⟩⟩
      have hback := (gives_of_keeps fun id k => (hkeeps id k).tree d).result s l t h ht
      exact ⟨hback.1, ht d.id l (forceTree_published h)⟩

/-! ## Folding -/

/-- A literal or a static member, or a read of a member of such a tree. -/
def Tree.folds : Expr → Bool
  | .literal .. | .staticMember _ => true
  | .member target _ => folds target
  | _ => false

theorem tryEvaluate_of_not_folds {t : Expr} (ht : t.folds = false) :
    tryEvaluate E t = pure none := by
  induction t using Tree.nodewise with
  | literal | staticMember => cases ht
  | member target m ih =>
      unfold tryEvaluate
      rw [ih ht]
      rfl
  | param | staticCall | call | binary | unary | lambda | invoke | conditional => rfl

/-- What folds has a value, unless a getter fails. -/
theorem tryEvaluate_of_folds {t : Expr} (ht : t.folds = true) :
    Gives (fun _ => True) (fun o => o.isSome) (tryEvaluate E t) := by
  induction t using Tree.nodewise with
  | literal v ty => exact Gives.pure rfl
  | staticMember m => exact Gives.unknown.bind fun v => Gives.pure fun _ => rfl
  | member target m ih =>
      unfold tryEvaluate
      refine (ih ht).bind fun o => ?_
      split
      · exact Gives.unknown.bind fun w => Gives.pure fun _ _ => rfl
      · exact Gives.pure fun h => by cases h
  | param | staticCall | call | binary | unary | lambda | invoke | conditional => cases ht

theorem expect_dual (d : Dual) : Dual.expect d.kind (.dual d) = .ok d := by
  simp [Dual.expect, Value.dual?]

theorem expect_ok {kind : DualKind} {v : Value} {d : Dual} (h : Dual.expect kind v = .ok d) :
    v = .dual d ∧ d.kind = kind := by
  unfold Dual.expect Value.dual? at h
  cases v with
  | dual e =>
      dsimp only at h
      split at h
      · rename_i e' he
        split at he
        · rename_i hkind
          cases he; cases h
          exact ⟨rfl, hkind⟩
        · cases he
      · cases h
  | _ => cases h

theorem foldDual_of_not_folds {t : Expr} (ht : t.folds = false) (kind : DualKind) :
    foldDual E kind t = pure none := by
  unfold foldDual
  rw [tryEvaluate_of_not_folds ht]
  rfl

theorem foldDual_of_folds {t : Expr} (ht : t.folds = true) (kind : DualKind) :
    Gives (fun _ => True) (fun o => o.isSome) (foldDual E kind t) := by
  unfold foldDual
  refine (tryEvaluate_of_folds ht).bind fun o => ?_
  split
  · exact Gives.pure fun h => by cases h
  · split
    · exact Gives.fail _
    · exact Gives.unknown.bind fun d => Gives.unknown.bind fun l => Gives.pure fun _ _ _ => rfl

/-- The form of a dual a tree folds to. -/
theorem foldDual_gives (hE : E.Shows p) (kind : DualKind) (t : Expr) :
    Gives (Published p) (fun o => ∀ l, o = some l → p l) (foldDual E kind t) := by
  unfold foldDual
  have hvalue : ∀ id l, (tryEvaluate E t).Keeps (TreePublished id l) := fun id l =>
    (tryEvaluate_concur (hE.keeps id l).concur t).keeps
  refine (gives_of_keeps hvalue).bind fun v => ?_
  split
  · exact Gives.pure fun _ l h => by cases h
  · split
    · exact Gives.fail _
    · refine (Gives.lift fun _ _ => trivial).bind fun d => (hE.tree d).bind fun l => ?_
      exact Gives.pure fun hl _ _ k h => by cases h; exact hl

/-! ## Rebuilding -/

theorem Visited.given_children (n : Visited) : n.given.children = n.children.map Prod.fst := by
  unfold Visited.given Tree.children
  rw [Tree.node_tree, Node.children_map]

theorem Visited.given_child {n : Visited} {c : Expr × Act Expr} (hc : c ∈ n.children) :
    c.1 ∈ n.given.children := by
  rw [Visited.given_children]
  exact List.mem_map_of_mem hc

theorem forall_right {β γ : Type} {R : β → γ → Prop} {post : γ → Prop} {as : List β} {bs : List γ}
    (h : List.Forall₂ R as bs) (hp : ∀ a b, a ∈ as → R a b → post b) : ∀ b ∈ bs, post b := by
  induction h with
  | nil => intro b hb; cases hb
  | @cons a b as bs hab _ ih =>
      intro c hc
      rcases List.mem_cons.1 hc with rfl | hc
      · exact hp a c (List.mem_cons_self ..) hab
      · exact ih (fun a b ha => hp a b (List.mem_cons_of_mem _ ha)) c hc

theorem erased_args {R : Expr × Act Expr → Expr → Prop} {args : List (Expr × Act Expr)}
    {ts : List Expr} (h : List.Forall₂ R args ts) :
    ts.map (fun _ => ()) = (args.map Prod.fst).map fun _ => () := by
  induction h with
  | nil => rfl
  | cons _ _ ih => simpa using ih

/-- **A rebuilt node has the head of the node given, over results of the rewritten subtrees.** -/
theorem rebuild_results {W : ∀ {α : Type}, (α → Prop) → Act α → Prop} (hW : Act.Logic W)
    {R : Expr × Act Expr → Expr → Prop} {n : Visited} (h : ∀ c ∈ n.children, W (R c) c.2) :
    W (fun t => t.head = n.given.head ∧ List.Forall₂ R n.children t.children) n.rebuild := by
  unfold Visited.rebuild
  refine hW.bind (p := fun m => m.tree.head = n.given.head ∧
    List.Forall₂ R n.children m.tree.children) ?_ fun m => hW.pure id
  cases n with
  | literal | param | staticMember => exact hW.pure ⟨rfl, .nil⟩
  | member target m =>
      refine hW.bind (h target (by simp [Node.children])) fun t => ?_
      exact hW.pure fun ht => ⟨rfl, .cons ht .nil⟩
  | unary op operand via ty =>
      refine hW.bind (h operand (by simp [Node.children])) fun t => ?_
      exact hW.pure fun ht => ⟨rfl, .cons ht .nil⟩
  | lambda params body =>
      refine hW.bind (h body (by simp [Node.children])) fun t => ?_
      exact hW.pure fun ht => ⟨rfl, .cons ht .nil⟩
  | binary op lhs rhs via =>
      refine hW.bind (h lhs (by simp [Node.children])) fun l => ?_
      refine hW.bind (h rhs (by simp [Node.children])) fun r => ?_
      exact hW.pure fun hr hl => ⟨rfl, .cons hl (.cons hr .nil)⟩
  | conditional test ifTrue ifFalse =>
      refine hW.bind (h test (by simp [Node.children])) fun a => ?_
      refine hW.bind (h ifTrue (by simp [Node.children])) fun b => ?_
      refine hW.bind (h ifFalse (by simp [Node.children])) fun c => ?_
      exact hW.pure fun hc hb ha => ⟨rfl, .cons ha (.cons hb (.cons hc .nil))⟩
  | staticCall m args =>
      refine hW.bind (hW.mapM_mem args fun a ha => h a ha) fun ts => ?_
      exact hW.pure fun hts => ⟨congrArg (Node.staticCall m) (erased_args hts), hts⟩
  | call target m args =>
      refine hW.bind (h target (by simp [Node.children])) fun t => ?_
      refine hW.bind (hW.mapM_mem args fun a ha => h a (by simp [Node.children, ha])) fun ts => ?_
      exact hW.pure fun hts ht => ⟨congrArg (Node.call () m) (erased_args hts), .cons ht hts⟩
  | invoke callee args =>
      refine hW.bind (h callee (by simp [Node.children])) fun t => ?_
      refine hW.bind (hW.mapM_mem args fun a ha => h a (by simp [Node.children, ha])) fun ts => ?_
      exact hW.pure fun hts ht => ⟨congrArg (Node.invoke ()) (erased_args hts), .cons ht hts⟩

end DualForm
