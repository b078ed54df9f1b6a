import DualForm.Proofs.Tree.Nodes
import DualForm.Tree.Substitution

/-!
# Substitution node by node

* `Tree.substitute_node`, `Tree.substitute_children` — substitution works on the direct subtrees,
  except at reads of parameters; lambdas may declare another parameter.
* `Tree.inserted` — substitution with a choice of what happens at lambdas: they declare another
  parameter, as in `Tree.substitute`, or those that declare the parameter again are left alone.
* `Tree.Shallow p` — `p` looks at the top node only, and makes no difference between lambdas.
* `Tree.Unshadowed q t` — `q` is not read below a lambda in `t` that declares `q` again.
* `Tree.Undeclared q t` — no lambda in `t` declares `q`.

Principal results: `Tree.Everywhere.inserted` — such a predicate holds everywhere in the result if
it does in the tree and in the replacement; `Tree.substitute_eq_inserted_iff` — substitution
respects the declarations of lambdas exactly in trees where the parameter is unshadowed.
-/

namespace DualForm

namespace Tree

variable {ν γ ι : Type} {p : Tree ν γ ι → Prop} {q : Param} {a : Tree ν γ ι}

theorem substituteAll_eq_map (q : Param) (a : Tree ν γ ι) (ts : List (Tree ν γ ι)) :
    substituteAll q a ts = ts.map (substitute q a) := by
  induction ts with
  | nil => rfl
  | cons t ts ih => simp [substituteAll, ih]

theorem substitute_lambda (ps : List Param) (b : Tree ν γ ι) :
    substitute q a (.lambda ps b) = .lambda (redeclare q a ps) (substitute q a b) := rfl

theorem substitute_node {t : Tree ν γ ι} (hp : ∀ r, t ≠ .param r) (hl : ∀ ps b, t ≠ .lambda ps b) :
    (substitute q a t).node = t.node.map (substitute q a) := by
  cases t with
  | param r => exact absurd rfl (hp r)
  | lambda ps b => exact absurd rfl (hl ps b)
  | literal | staticMember | member | binary | unary | conditional => rfl
  | staticCall | call | invoke => simp [substitute, node, Node.map, substituteAll_eq_map]

theorem substitute_children {t : Tree ν γ ι} (hp : ∀ r, t ≠ .param r) :
    (substitute q a t).children = t.children.map (substitute q a) := by
  by_cases hl : ∃ ps b, t = .lambda ps b
  · obtain ⟨ps, b, rfl⟩ := hl
    rfl
  · unfold children
    rw [substitute_node hp fun ps b h => hl ⟨ps, b, h⟩, Node.children_map]

theorem substitute_head {t : Tree ν γ ι} (hp : ∀ r, t ≠ .param r) (hl : ∀ ps b, t ≠ .lambda ps b) :
    (substitute q a t).head = t.head := by
  unfold head
  rw [substitute_node hp hl, Node.map_map, Function.comp_def]

/-- What is neither a read nor a lambda stays neither. -/
theorem substitute_other {t : Tree ν γ ι} (hp : ∀ r, t ≠ .param r) (hl : ∀ ps b, t ≠ .lambda ps b) :
    (∀ r, substitute q a t ≠ .param r) ∧ ∀ ps b, substitute q a t ≠ .lambda ps b := by
  cases t with
  | param r => exact absurd rfl (hp r)
  | lambda ps b => exact absurd rfl (hl ps b)
  | _ => exact ⟨nofun, nofun⟩

/-! ## Lambdas that declare the parameter again -/

/-- The tree with the reads of `q` replaced. Either lambdas that declare `q` declare the
replacement, if it is a parameter, or they are left alone. -/
def inserted (renames : Bool) (q : Param) (a : Tree ν γ ι) : Tree ν γ ι → Tree ν γ ι :=
  fold fun
    | .param r => if r = q then a else .param r
    | .lambda ps (b, b') =>
        if renames then .lambda (redeclare q a ps) b' else .lambda ps (if q ∈ ps then b else b')
    | n => (n.map Prod.snd).tree

variable (renames : Bool)

theorem inserted_param (r : Param) :
    inserted renames q a (.param r) = if r = q then a else .param r := rfl

theorem inserted_lambda (ps : List Param) (b : Tree ν γ ι) :
    inserted renames q a (.lambda ps b) =
      if renames then .lambda (redeclare q a ps) (inserted renames q a b)
      else .lambda ps (if q ∈ ps then b else inserted renames q a b) := rfl

theorem inserted_node {t : Tree ν γ ι} (hp : ∀ r, t ≠ .param r) (hl : ∀ ps b, t ≠ .lambda ps b) :
    (inserted renames q a t).node = t.node.map (inserted renames q a) := by
  unfold inserted
  rw [fold_eq]
  cases t with
  | param r => exact absurd rfl (hp r)
  | lambda ps b => exact absurd rfl (hl ps b)
  | literal | staticMember | member | binary | unary | conditional => rfl
  | staticCall | call | invoke => simp [node, Node.map, Node.tree]

theorem inserted_children {t : Tree ν γ ι} (hp : ∀ r, t ≠ .param r) (hl : ∀ ps b, t ≠ .lambda ps b) :
    (inserted renames q a t).children = t.children.map (inserted renames q a) := by
  unfold children
  rw [inserted_node renames hp hl, Node.children_map]

theorem inserted_head {t : Tree ν γ ι} (hp : ∀ r, t ≠ .param r) (hl : ∀ ps b, t ≠ .lambda ps b) :
    (inserted renames q a t).head = t.head := by
  unfold head
  rw [inserted_node renames hp hl, Node.map_map, Function.comp_def]

/-- Substitution lets lambdas declare the replacement. -/
theorem inserted_renaming (t : Tree ν γ ι) : inserted true q a t = substitute q a t := by
  induction t using binderwise with
  | param r => rfl
  | lambda ps b ih => rw [substitute_lambda, inserted_lambda, if_pos rfl, ih]
  | other t hparam hlambda ih =>
      rw [← tree_node (substitute q a t), ← tree_node (inserted true q a t),
        substitute_node hparam hlambda, inserted_node true hparam hlambda, Node.map_congr ih]

/-! ## Predicates on the top node -/

/-- The predicate looks at the top node only, and makes no difference between lambdas. -/
structure Shallow (p : Tree ν γ ι → Prop) : Prop where
  head : ∀ {t u : Tree ν γ ι}, t.head = u.head → p t → p u
  lambda : ∀ {ps b} ps' b', p (.lambda ps b) → p (.lambda ps' b')

theorem Everywhere.inserted {t : Tree ν γ ι} (hs : Shallow p) (ha : a.Everywhere p)
    (ht : t.Everywhere p) : (inserted renames q a t).Everywhere p := by
  induction t using binderwise with
  | param r =>
      rw [inserted_param]
      split
      · exact ha
      · exact ht
  | lambda ps b ih =>
      have hb := ht.child (List.mem_singleton.2 rfl)
      rw [inserted_lambda]
      split
      · exact everywhere_single (hs.lambda _ _ ht.here) rfl (ih hb)
      · refine everywhere_single (hs.lambda _ _ ht.here) rfl ?_
        split
        · exact hb
        · exact ih hb
  | other t hparam hlambda ih =>
      have hhead := inserted_head renames (q := q) (a := a) hparam hlambda
      refine everywhere_iff.2 ⟨hs.head hhead.symm ht.here, fun c hc => ?_⟩
      rw [inserted_children renames hparam hlambda] at hc
      obtain ⟨u, hu, rfl⟩ := List.mem_map.1 hc
      exact ih u hu (ht.child hu)

theorem Everywhere.substitute {t : Tree ν γ ι} (hs : Shallow p) (ha : a.Everywhere p)
    (ht : t.Everywhere p) : (substitute q a t).Everywhere p := by
  rw [← inserted_renaming]
  exact Everywhere.inserted true hs ha ht

/-! ## Substitution that respects declarations -/

/-- The parameter is not read. -/
def Unread (q : Param) (t : Tree ν γ ι) : Prop := t.Everywhere fun u => u ≠ .param q

/-- The parameter is not read below a lambda that declares it again. -/
def Unshadowed (q : Param) (t : Tree ν γ ι) : Prop :=
  t.Everywhere fun u => ∀ ps b, u = .lambda ps b → q ∈ ps → b.Unread q

theorem redeclare_of_not_param (ha : ∀ r, a ≠ .param r) (ps : List Param) :
    redeclare q a ps = ps := by
  unfold redeclare
  split
  · rename_i r
    exact absurd rfl (ha r)
  · rfl

/-- No lambda declares the parameter. -/
def Undeclared (q : Param) (t : Tree ν γ ι) : Prop :=
  t.Everywhere fun u => ∀ ps b, u = .lambda ps b → q ∉ ps

theorem Undeclared.unshadowed {t : Tree ν γ ι} (h : t.Undeclared q) : t.Unshadowed q :=
  h.imp fun _ hu ps b hb hq => absurd hq (hu ps b hb)

theorem redeclare_of_not_mem {ps : List Param} (h : q ∉ ps) : redeclare q a ps = ps := by
  unfold redeclare
  split
  · refine (List.map_congr_left fun r hr => if_neg ?_).trans (List.map_id ps)
    rintro rfl
    exact h hr
  · rfl

/-- Where no lambda declares the parameter, lambdas declare afterwards what they and those of the
replacement declared before. -/
theorem Undeclared.inserted {r : Param} {t : Tree ν γ ι} (hq : t.Undeclared q) (ht : t.Undeclared r)
    (ha : a.Undeclared r) : (inserted renames q a t).Undeclared r := by
  induction t using binderwise with
  | param s =>
      rw [inserted_param]
      split
      · exact ha
      · exact ht
  | lambda ps b ih =>
      have hmem : b ∈ (Tree.lambda ps b).children := List.mem_singleton.2 rfl
      have hib := ih (hq.child hmem) (ht.child hmem)
      have hps : q ∉ ps := hq.here ps b rfl
      have hlambda : Tree.inserted renames q a (.lambda ps b) =
          .lambda ps (Tree.inserted renames q a b) := by
        rw [inserted_lambda, redeclare_of_not_mem hps, if_neg hps, ite_self]
      rw [hlambda]
      refine everywhere_single ?_ rfl hib
      rintro ps' b' hb'
      cases hb'
      exact ht.here ps b rfl
  | other t hparam hlambda ih =>
      refine everywhere_iff.2 ⟨?_, fun c hc => ?_⟩
      · intro ps b hb
        have hhead := inserted_head renames (q := q) (a := a) hparam hlambda
        rw [hb] at hhead
        cases t <;> first | exact absurd rfl (hlambda _ _) | cases hhead
      · rw [inserted_children renames hparam hlambda] at hc
        obtain ⟨u, hu, rfl⟩ := List.mem_map.1 hc
        exact ih u hu (hq.child hu) (ht.child hu)

/-- Two ways to replace subtrees agree on a node exactly if they agree on its direct subtrees. -/
theorem node_map_eq_iff {f g : Tree ν γ ι → Tree ν γ ι} {t u v : Tree ν γ ι}
    (hu : u.node = t.node.map f) (hv : v.node = t.node.map g) :
    u = v ↔ ∀ c ∈ t.children, f c = g c := by
  constructor
  · intro h
    have hchildren : t.children.map f = t.children.map g := by
      have := congrArg children h
      unfold children at this
      rwa [hu, hv, Node.children_map, Node.children_map] at this
    exact List.map_inj_left.1 hchildren
  · intro h
    rw [← tree_node u, ← tree_node v, hu, hv, Node.map_congr h]

/-- A replacement other than a parameter leaves exactly the trees as they are that do not read the
parameter. -/
theorem substitute_eq_self_iff (ha : ∀ r, a ≠ .param r) {t : Tree ν γ ι} :
    substitute q a t = t ↔ t.Unread q := by
  unfold Unread
  induction t using binderwise with
  | param r =>
      rw [everywhere_iff]
      unfold substitute
      by_cases hr : r = q
      · subst hr
        rw [if_pos rfl]
        exact ⟨fun h => absurd h (ha r), fun h => absurd rfl h.1⟩
      · rw [if_neg hr]
        exact ⟨fun _ => ⟨fun h => hr (by cases h; rfl), fun c hc => by cases hc⟩, fun _ => rfl⟩
  | lambda ps b ih =>
      rw [everywhere_iff, substitute_lambda, redeclare_of_not_param ha]
      simp [children, node, Node.children, ih]
  | other t hparam hlambda ih =>
      have hchildren : substitute q a t = t ↔ ∀ c ∈ t.children, substitute q a c = c := by
        refine node_map_eq_iff (substitute_node hparam hlambda) (g := id) ?_
        rw [Node.map_id]
      rw [everywhere_iff, hchildren, and_iff_right (hparam q)]
      exact forall₂_congr ih

theorem Unread.unshadowed {t : Tree ν γ ι} (h : t.Unread q) : t.Unshadowed q := by
  induction t using childwise with
  | step t ih =>
      refine everywhere_iff.2 ⟨?_, fun c hc => ih c hc (h.child hc)⟩
      rintro ps b rfl _
      exact h.child (List.mem_singleton.2 rfl)

/-- **Substitution respects declarations** for a replacement other than a parameter exactly if the
parameter is unshadowed. -/
theorem substitute_eq_inserted_iff (ha : ∀ r, a ≠ .param r) {t : Tree ν γ ι} :
    substitute q a t = inserted false q a t ↔ t.Unshadowed q := by
  unfold Unshadowed
  induction t using binderwise with
  | param r =>
      rw [everywhere_iff]
      refine ⟨fun _ => ⟨fun ps b hb => ?_, fun c hc => ?_⟩, fun _ => rfl⟩
      · cases hb
      · cases hc
  | lambda ps b ih =>
      have hsplit : (substitute q a (.lambda ps b) = inserted false q a (.lambda ps b)) ↔
          substitute q a b = if q ∈ ps then b else inserted false q a b := by
        rw [substitute_lambda, redeclare_of_not_param ha, inserted_lambda,
          if_neg Bool.false_ne_true]
        simp
      rw [everywhere_iff, hsplit]
      by_cases hq : q ∈ ps
      · rw [if_pos hq, substitute_eq_self_iff ha]
        constructor
        · intro h
          refine ⟨fun ps' b' hb' _ => ?_, List.forall_mem_singleton.2 h.unshadowed⟩
          cases hb'
          exact h
        · intro h
          exact h.1 ps b rfl hq
      · rw [if_neg hq, ih]
        constructor
        · intro h
          refine ⟨fun ps' b' hb' hq' => ?_, List.forall_mem_singleton.2 h⟩
          cases hb'
          exact absurd hq' hq
        · intro h
          exact h.2 b (List.mem_singleton.2 rfl)
  | other t hparam hlambda ih =>
      rw [everywhere_iff, and_iff_right (fun ps b hb => absurd hb (hlambda ps b)),
        node_map_eq_iff (substitute_node hparam hlambda) (inserted_node false hparam hlambda)]
      exact forall₂_congr ih

end Tree

end DualForm
