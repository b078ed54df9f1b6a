import DualForm.Proofs.Tree.Nodes

/-!
# The order of a traversal

* `Visits` — what a traversal has done: the nodes it has visited, whether it was stopped, and the state.
* `Tree.explore visit t` — the recursive traversal: the node first, then its subtrees left to right, none of
  them on `skip`, and nothing more on `stop`.
* `Tree.recorded visit` — a visitor that also keeps the nodes it is called on.
* `Tree.nodes t` — all nodes of a tree in pre-order; `Tree.count p t` — how many of them satisfy `p`.

The traversal with an explicit stack visits, from any stack, what the recursive traversals of the trees on it
visit one after the other (`walk_stack`): the subtrees of a node take its place at the head of the stack.

Principal results: `explore_nodes_sublist` — each node is visited at most once and in pre-order;
`walk_preorder` — the two traversals call the visitor on the same nodes and end in the same state, and
searches and counts are the recursive ones.
-/

namespace DualForm

variable {ν γ ι σ : Type}

/-- What a traversal has done. -/
structure Visits (ν γ ι σ : Type) where
  /-- The nodes visited, in order. -/
  nodes : List (Tree ν γ ι)
  stopped : Bool
  state : σ

namespace Visits

/-- More is visited, unless the traversal was stopped. -/
def andThen (v : Visits ν γ ι σ) (rest : σ → Visits ν γ ι σ) : Visits ν γ ι σ :=
  if v.stopped then v
  else ⟨v.nodes ++ (rest v.state).nodes, (rest v.state).stopped, (rest v.state).state⟩

/-- Traversals one after the other. -/
def each : List (σ → Visits ν γ ι σ) → σ → Visits ν γ ι σ
  | [], s => ⟨[], false, s⟩
  | f :: fs, s => (f s).andThen (each fs)

theorem andThen_assoc (v : Visits ν γ ι σ) (f g : σ → Visits ν γ ι σ) :
    (v.andThen f).andThen g = v.andThen fun s => (f s).andThen g := by
  unfold andThen
  by_cases hstop : v.stopped
  · simp [hstop]
  · by_cases hnext : (f v.state).stopped <;> simp [hstop, hnext]

theorem each_append (fs gs : List (σ → Visits ν γ ι σ)) (s : σ) :
    each (fs ++ gs) s = (each fs s).andThen (each gs) := by
  induction fs generalizing s with
  | nil => simp [each, andThen]
  | cons f fs ih =>
      show (f s).andThen (each (fs ++ gs)) = ((f s).andThen (each fs)).andThen (each gs)
      rw [andThen_assoc, funext ih]

@[simp] theorem each_single (f : σ → Visits ν γ ι σ) (s : σ) : each [f] s = f s := by
  show (f s).andThen (each []) = f s
  obtain ⟨nodes, stopped, state⟩ := f s
  cases stopped <;> simp [andThen, each]

/-- A node comes before what is visited below it. -/
def under (t : Tree ν γ ι) (below : Visits ν γ ι σ) : Visits ν γ ι σ := { below with nodes := t :: below.nodes }

theorem under_andThen (t : Tree ν γ ι) (v : Visits ν γ ι σ) (rest : σ → Visits ν γ ι σ) :
    (v.under t).andThen rest = (v.andThen rest).under t := by
  unfold andThen under
  by_cases hstop : v.stopped <;> simp [hstop]

/-- What has been visited, kept after what was seen before. -/
def keep (v : Visits ν γ ι σ) (seen : List (Tree ν γ ι)) : Visits ν γ ι (σ × List (Tree ν γ ι)) :=
  ⟨v.nodes, v.stopped, v.state, seen ++ v.nodes⟩

theorem keep_andThen {v : Visits ν γ ι σ} {seen : List (Tree ν γ ι)} {rest : σ → Visits ν γ ι σ}
    {rest' : σ × List (Tree ν γ ι) → Visits ν γ ι (σ × List (Tree ν γ ι))}
    (h : ∀ s seen, rest' (s, seen) = (rest s).keep seen) :
    (v.keep seen).andThen rest' = (v.andThen rest).keep seen := by
  unfold andThen
  by_cases hstop : v.stopped
  · simp [keep, hstop]
  · simp [keep, hstop, h]

section Each

variable {cs : List (Tree ν γ ι)} {f : Tree ν γ ι → σ → Visits ν γ ι σ}

/-- If each traversal keeps what it has visited, all of them do. -/
theorem each_keep {f' : Tree ν γ ι → σ × List (Tree ν γ ι) → Visits ν γ ι (σ × List (Tree ν γ ι))}
    (h : ∀ c ∈ cs, ∀ s seen, f' c (s, seen) = (f c s).keep seen) (s : σ) (seen : List (Tree ν γ ι)) :
    each (cs.map f') (s, seen) = (each (cs.map f) s).keep seen := by
  induction cs generalizing s seen with
  | nil => simp [each, keep]
  | cons c cs ih =>
      show (f' c (s, seen)).andThen _ = _
      rw [h c (List.mem_cons_self ..), keep_andThen fun s seen =>
        ih (fun u hu => h u (List.mem_cons_of_mem _ hu)) s seen]
      rfl

/-- If each traversal visits part of a list, all of them visit part of these lists. -/
theorem each_sublist {g : Tree ν γ ι → List (Tree ν γ ι)}
    (h : ∀ c ∈ cs, ∀ s, (f c s).nodes.Sublist (g c)) (s : σ) :
    (each (cs.map f) s).nodes.Sublist (cs.flatMap g) := by
  induction cs generalizing s with
  | nil => exact .slnil
  | cons c cs ih =>
      have hfirst := h c (List.mem_cons_self ..) s
      have hrest := ih fun u hu => h u (List.mem_cons_of_mem _ hu)
      rw [List.flatMap_cons]
      show ((f c s).andThen _).nodes.Sublist _
      unfold andThen
      split
      · exact hfirst.trans (List.sublist_append_left ..)
      · exact hfirst.append (hrest _)

/-- If each traversal visits all of a list and counts, all of them visit these lists and add up. -/
theorem each_counting {f : Tree ν γ ι → Nat → Visits ν γ ι Nat} {g : Tree ν γ ι → List (Tree ν γ ι)}
    {k : Tree ν γ ι → Nat} (h : ∀ c ∈ cs, ∀ n, f c n = ⟨g c, false, n + k c⟩) (n : Nat) :
    each (cs.map f) n = ⟨cs.flatMap g, false, n + (cs.map k).foldr (· + ·) 0⟩ := by
  induction cs generalizing n with
  | nil => rfl
  | cons c cs ih =>
      show (f c n).andThen _ = _
      rw [h c (List.mem_cons_self ..)]
      simp [andThen, ih fun u hu => h u (List.mem_cons_of_mem _ hu), Nat.add_assoc]

end Each

end Visits

namespace Tree

/-- What a fold sees at a node: the tree itself. -/
theorem given_node {α : Type} (f : Tree ν γ ι → α) (t : Tree ν γ ι) :
    ((t.node.map fun u => (u, f u)).map Prod.fst).tree = t := by
  rw [Node.map_map]
  show (t.node.map id).tree = t
  rw [Node.map_id, tree_node]

/-- What a fold sees at a node: the results of the direct subtrees. -/
theorem children_results {α : Type} (f : Tree ν γ ι → α) (t : Tree ν γ ι) :
    (t.node.map fun u => (u, f u)).children.map Prod.snd = t.children.map f := by
  rw [Node.children_map, List.map_map]
  rfl

/-! ## The recursive traversal -/

/-- The node first, then its subtrees left to right. -/
def explore (visit : Tree ν γ ι → σ → WalkControl × σ) : Tree ν γ ι → σ → Visits ν γ ι σ :=
  fold fun n s =>
    let t := (n.map Prod.fst).tree
    match visit t s with
    | (.descend, s) => (Visits.each (n.children.map Prod.snd) s).under t
    | (.skip, s) => ⟨[t], false, s⟩
    | (.stop, s) => ⟨[t], true, s⟩

variable (visit : Tree ν γ ι → σ → WalkControl × σ)

theorem explore_eq (t : Tree ν γ ι) (s : σ) :
    explore visit t s =
      match visit t s with
      | (.descend, s) => (Visits.each (t.children.map (explore visit)) s).under t
      | (.skip, s) => ⟨[t], false, s⟩
      | (.stop, s) => ⟨[t], true, s⟩ := by
  unfold explore
  rw [fold_eq, given_node, children_results]

/-- **From any stack, the trees on it are traversed one after the other.** -/
theorem walk_stack (stack : List (Tree ν γ ι)) (s : σ) :
    walk visit stack s = (Visits.each (stack.map (explore visit)) s).state := by
  induction hsize : sizeAll stack using Nat.strongRecOn generalizing stack s with
  | _ n ih =>
      cases stack with
      | nil =>
          unfold walk
          rfl
      | cons t rest =>
          subst hsize
          have hrest : sizeAll rest < sizeAll (t :: rest) := by
            simp only [sizeAll, size_eq_children]; omega
          have hbelow : sizeAll (t.children ++ rest) < sizeAll (t :: rest) := by
            simp only [sizeAll_append, sizeAll, size_eq_children]; omega
          unfold walk
          show _ = ((explore visit t s).andThen (Visits.each (rest.map (explore visit)))).state
          rw [explore_eq]
          rcases visit t s with ⟨answer, s'⟩
          cases answer with
          | descend =>
              dsimp only
              rw [ih _ hbelow _ _ rfl, List.map_append, Visits.each_append, Visits.under_andThen]
              rfl
          | skip =>
              dsimp only
              rw [ih _ hrest _ _ rfl]
              rfl
          | stop => rfl

/-! ## The nodes visited -/

/-- A visitor that also keeps the nodes it is called on. -/
def recorded : Tree ν γ ι → σ × List (Tree ν γ ι) → WalkControl × (σ × List (Tree ν γ ι)) :=
  fun t s => ((visit t s.1).1, (visit t s.1).2, s.2 ++ [t])

/-- **What is visited is what a recorder has kept in the end.** -/
theorem explore_recorded (t : Tree ν γ ι) (s : σ) (seen : List (Tree ν γ ι)) :
    explore (recorded visit) t (s, seen) = (explore visit t s).keep seen := by
  induction t using childwise generalizing s seen with
  | step t ih =>
      have hstep : recorded visit t (s, seen) = ((visit t s).1, (visit t s).2, seen ++ [t]) := rfl
      rw [explore_eq, explore_eq, hstep]
      rcases visit t s with ⟨answer, s'⟩
      cases answer with
      | descend =>
          dsimp only
          rw [Visits.each_keep ih]
          simp [Visits.keep, Visits.under]
      | skip | stop => rfl

/-- All nodes of a tree in pre-order. -/
def nodes : Tree ν γ ι → List (Tree ν γ ι) :=
  fold fun n => (n.map Prod.fst).tree :: (n.children.map Prod.snd).flatten

theorem nodes_eq (t : Tree ν γ ι) : t.nodes = t :: t.children.flatMap nodes := by
  unfold nodes
  rw [fold_eq, given_node, children_results, List.flatMap_def]

/-- **Each node is visited at most once, and in pre-order.** -/
theorem explore_nodes_sublist (t : Tree ν γ ι) (s : σ) : (explore visit t s).nodes.Sublist t.nodes := by
  induction t using childwise generalizing s with
  | step t ih =>
      rw [explore_eq, nodes_eq]
      rcases visit t s with ⟨answer, s'⟩
      cases answer with
      | descend => exact (Visits.each_sublist ih s').cons_cons t
      | skip | stop => exact (List.nil_sublist _).cons_cons t

theorem everywhere_iff_nodes {p : Tree ν γ ι → Prop} {t : Tree ν γ ι} :
    t.Everywhere p ↔ ∀ u ∈ t.nodes, p u := by
  induction t using childwise with
  | step t ih =>
      rw [everywhere_iff, nodes_eq, List.forall_mem_cons, List.forall_mem_flatMap]
      exact and_congr_right fun _ => forall₂_congr fun c hc => ih c hc

/-! ## Counts -/

/-- How many nodes satisfy the predicate. -/
def count (p : Tree ν γ ι → Bool) : Tree ν γ ι → Nat :=
  fold fun n => (if p (n.map Prod.fst).tree then 1 else 0) + (n.children.map Prod.snd).foldr (· + ·) 0

theorem count_eq (p : Tree ν γ ι → Bool) (t : Tree ν γ ι) :
    t.count p = (if p t then 1 else 0) + (t.children.map (count p)).foldr (· + ·) 0 := by
  unfold count
  rw [fold_eq, given_node, children_results]

/-- A visitor that counts nodes sees all of them. -/
theorem explore_counting (p : Tree ν γ ι → Bool) (t : Tree ν γ ι) (n : Nat) :
    explore (fun u n => (.descend, if p u then n + 1 else n)) t n = ⟨t.nodes, false, n + t.count p⟩ := by
  induction t using childwise generalizing n with
  | step t ih =>
      rw [explore_eq, nodes_eq, count_eq]
      dsimp only
      rw [Visits.each_counting ih]
      split <;> simp [Visits.under, Nat.add_assoc]

theorem walk_counting (p : Tree ν γ ι → Bool) (t : Tree ν γ ι) :
    walk (fun u n => (.descend, if p u then n + 1 else n)) [t] 0 = t.count p := by
  rw [walk_stack, List.map_singleton, Visits.each_single, explore_counting]
  exact Nat.zero_add _

theorem sizeAll_eq_foldr : ∀ ts : List (Tree ν γ ι), sizeAll ts = (ts.map size).foldr (· + ·) 0
  | [] => rfl
  | t :: ts => congrArg (t.size + ·) (sizeAll_eq_foldr ts)

theorem count_all (t : Tree ν γ ι) : t.count (fun _ => true) = t.size := by
  induction t using childwise with
  | step t ih =>
      rw [count_eq, size_eq_children, List.map_congr_left ih, sizeAll_eq_foldr, if_pos rfl, Nat.add_comm]

/-! ## The traversal with a stack -/

/-- **The traversal with a stack is the recursive one.** A visitor is called on the same nodes in the same
order and ends in the same state; a search finds something exactly if some node satisfies the predicate; and
nodes and reads of a parameter are counted as by recursion. -/
theorem walk_preorder (t : Tree ν γ ι) :
    (∀ {σ : Type} (visit : Tree ν γ ι → σ → WalkControl × σ) (s : σ),
      walk visit [t] s = (explore visit t s).state ∧
      walk (recorded visit) [t] (s, []) = ((explore visit t s).state, (explore visit t s).nodes) ∧
      (explore visit t s).nodes.Sublist t.nodes) ∧
    (∀ p : Tree ν γ ι → Bool, t.anyNode p = true ↔ ∃ u ∈ t.nodes, p u = true) ∧
    t.nodeCount = t.size ∧ ∀ p, t.countParam p = t.count (reads p) := by
  refine ⟨fun visit s => ⟨?_, ?_, explore_nodes_sublist visit t s⟩, fun p => ?_, ?_,
    fun p => walk_counting (reads p) t⟩
  · rw [walk_stack, List.map_singleton, Visits.each_single]
  · rw [walk_stack, List.map_singleton, Visits.each_single, explore_recorded]
    rfl
  · have hnone : t.anyNode p = false ↔ ∀ u ∈ t.nodes, p u = false :=
      anyNode_eq_false.trans everywhere_iff_nodes
    rw [← Bool.not_eq_false, hnone]
    simp
  · rw [← count_all, ← walk_counting]
    rfl

end Tree

end DualForm
