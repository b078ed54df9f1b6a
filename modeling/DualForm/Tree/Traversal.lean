import DualForm.Tree.Basic

/-!
# Traversal of trees

* `Tree.size` — number of nodes.
* `Tree.walk` — pre-order traversal with an explicit stack of trees still to visit. A visitor with
  state answers at each node whether to descend, to skip the subtrees, or to stop.
* `Tree.nodeCount`, `Tree.anyNode`, `Tree.countParam` — searches and counts made by such walks.
* `Tree.freeParams` — the parameters read in a tree and not declared around the read, in the order
  of their first use.
-/

namespace DualForm

/-- Answer of a visitor. -/
inductive WalkControl where
  /-- Visit the subtrees of this node. -/
  | descend
  /-- Leave the subtrees of this node out. -/
  | skip
  /-- End the traversal. -/
  | stop
deriving DecidableEq, Repr, Inhabited

namespace Tree

variable {ν γ ι σ : Type}

mutual

/-- Number of nodes. -/
def size : Tree ν γ ι → Nat
  | .literal .. | .param _ | .staticMember _ => 1
  | .member target _ => size target + 1
  | .staticCall _ args => sizeAll args + 1
  | .call target _ args => size target + sizeAll args + 1
  | .binary _ lhs rhs _ => size lhs + size rhs + 1
  | .unary _ operand _ _ => size operand + 1
  | .lambda _ body => size body + 1
  | .invoke callee args => size callee + sizeAll args + 1
  | .conditional test ifTrue ifFalse => size test + size ifTrue + size ifFalse + 1

/-- Number of nodes of a list of trees. -/
def sizeAll : List (Tree ν γ ι) → Nat
  | [] => 0
  | t :: ts => size t + sizeAll ts

end

theorem sizeAll_append (ts us : List (Tree ν γ ι)) :
    sizeAll (ts ++ us) = sizeAll ts + sizeAll us := by
  induction ts with
  | nil => simp [sizeAll]
  | cons t ts ih => simp [sizeAll, ih, Nat.add_assoc]

/-- A tree is its top node and its subtrees. -/
theorem size_eq_children (t : Tree ν γ ι) : t.size = sizeAll t.children + 1 := by
  cases t <;> simp [size, children, node, Node.children, sizeAll, Nat.add_assoc]

/-- Visits the trees of a stack in pre-order, the head first. -/
def walk (visit : Tree ν γ ι → σ → WalkControl × σ) : List (Tree ν γ ι) → σ → σ
  | [], s => s
  | t :: rest, s =>
      match visit t s with
      | (.descend, s) => walk visit (t.children ++ rest) s
      | (.skip, s) => walk visit rest s
      | (.stop, s) => s
termination_by stack => sizeAll stack
decreasing_by
  · simp only [sizeAll_append, sizeAll, size_eq_children]; omega
  · simp only [sizeAll, size_eq_children]; omega

/-- Number of nodes met by a walk. -/
def nodeCount (t : Tree ν γ ι) : Nat := walk (fun _ n => (.descend, n + 1)) [t] 0

/-- Whether some node satisfies the predicate. -/
def anyNode (p : Tree ν γ ι → Bool) (t : Tree ν γ ι) : Bool :=
  walk (fun u found => if p u then (.stop, true) else (.descend, found)) [t] false

/-- Whether the tree is a read of the parameter. -/
def reads (p : Param) : Tree ν γ ι → Bool
  | .param q => q = p
  | _ => false

/-- Number of reads of a parameter. -/
def countParam (p : Param) (t : Tree ν γ ι) : Nat :=
  walk (fun u n => (.descend, if u.reads p then n + 1 else n)) [t] 0

/-- Adds the free parameters of one node to those found so far. -/
def freeParamsAt : Node ν γ ι (Tree ν γ ι × (List Param → List Param → List Param)) →
    List Param → List Param → List Param
  | .param p, bound, found => if p ∈ bound ∨ p ∈ found then found else found ++ [p]
  | .lambda params (_, inBody), bound, found => inBody (params ++ bound) found
  | n, bound, found => n.children.foldl (fun found child => child.2 bound found) found

/-- Parameters read in a tree but not declared by a lambda around the read, in first-use order. -/
def freeParams (t : Tree ν γ ι) : List Param := fold freeParamsAt t [] []

end Tree

end DualForm
