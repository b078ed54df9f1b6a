import DualForm.Proofs.Factory.Capture
import DualForm.Proofs.Tree.Substitution

/-!
# Two arguments bound at once

Accessors are bound one after the other, so that what the first one puts in is searched for reads of the
second parameter as well.

* `Tree.isCapture formal t` — the top node is a closure read of the parameter.
* `Tree.Uncaptured formal t` — there is no closure read of the parameter in `t`.
* `Tree.OnLiterals formal t` — fields with the name and the type of the parameter are read on literals only.
* `Tree.bindTogether` — the closure reads of two parameters replaced at once; what is put in is not visited.

Principal results: `bindArguments_eq_bindTogether` — one after the other is both at once, with the second
argument bound in the first one; `bindArguments_eq_iff` — so the two are the same exactly if the first
parameter is not read, or nothing is bound in the first argument.
-/

namespace DualForm

namespace Tree

variable {formal formal₁ formal₂ : FormalParam} {a a₁ a₂ b₁ t u : Expr} {p : Expr → Prop}

/-- The top node is a closure read of the parameter. -/
def isCapture (formal : FormalParam) : Expr → Bool
  | .member target m => isCaptureOf formal target m
  | _ => false

/-- There is no closure read of the parameter. -/
def Uncaptured (formal : FormalParam) (t : Expr) : Prop :=
  t.Everywhere fun u => u.isCapture formal = false

/-- Fields with the name and the type of the parameter are read on literals only. -/
def OnLiterals (formal : FormalParam) (t : Expr) : Prop :=
  t.Everywhere fun u => ∀ target m, u = .member target m → formal.names m → target.isLiteral = true

theorem isCapture_member {target : Expr} {m : Member Getter} (h : isCapture formal (.member target m) = true) :
    formal.names m ∧ target.isLiteral = true := by
  simp only [isCapture, isCaptureOf, Bool.and_eq_true, decide_eq_true_eq] at h
  exact ⟨⟨h.1.1.1, h.1.1.2, h.2⟩, h.1.2⟩

theorem isCapture_of_apart {formals : List FormalParam} (h : t.Apart formals) (hformal : formal ∈ formals) :
    t.isCapture formal = false := by
  cases t with
  | member target m => exact isCaptureOf_of_not_names (h.2 target m rfl formal hformal)
  | _ => rfl

/-- One step of binding an argument. -/
theorem bindArgument_eq (t : Expr) : bindArgument formal a t =
    if t.isCapture formal then a else (t.node.map (bindArgument formal a)).tree := by
  cases t with
  | staticCall | call | invoke =>
      simp [bindArgument, isCapture, node, Node.map, Node.tree, bindArgumentAll_eq_map]
  | _ => rfl

/-- What holds everywhere in a tree and in the argument, and depends on top nodes only, holds everywhere
after binding. -/
theorem Everywhere.bindArgument (hhead : ∀ {t u : Expr}, u.head = t.head → p t → p u) (ha : a.Everywhere p)
    (ht : t.Everywhere p) : (bindArgument formal a t).Everywhere p := by
  induction t using childwise with
  | step t ih =>
      rw [bindArgument_eq]
      split
      · exact ha
      have hnode : ((t.node.map (Tree.bindArgument formal a)).tree).node =
          t.node.map (Tree.bindArgument formal a) := node_tree _
      refine everywhere_iff.2 ⟨hhead ?_ ht.here, fun c hc => ?_⟩
      · unfold head
        rw [hnode, Node.map_map, Function.comp_def]
      · unfold children at hc
        rw [hnode, Node.children_map] at hc
        obtain ⟨d, hd, rfl⟩ := List.mem_map.1 hc
        exact ih d hd (ht.child hd)

/-! ## Both at once -/

/-- The tree with every closure read of the two parameters replaced. -/
def bindTogether (formal₁ : FormalParam) (a₁ : Expr) (formal₂ : FormalParam) (a₂ : Expr) (t : Expr) : Expr :=
  t.fold fun n =>
    if (n.map Prod.fst).tree.isCapture formal₁ then a₁
    else if (n.map Prod.fst).tree.isCapture formal₂ then a₂
    else (n.map Prod.snd).tree

/-- One step of it. -/
theorem bindTogether_eq (t : Expr) : bindTogether formal₁ a₁ formal₂ a₂ t =
    if t.isCapture formal₁ then a₁ else if t.isCapture formal₂ then a₂
    else (t.node.map (bindTogether formal₁ a₁ formal₂ a₂)).tree := by
  have hfst : (t.node.map fun u => (u, bindTogether formal₁ a₁ formal₂ a₂ u)).map Prod.fst = t.node := by
    rw [Node.map_map]
    exact Node.map_id _
  unfold bindTogether at hfst ⊢
  rw [fold_eq, hfst, tree_node, Node.map_map]
  rfl

theorem bindTogether_parts (h₁ : t.isCapture formal₁ = false) (h₂ : t.isCapture formal₂ = false) :
    (bindTogether formal₁ a₁ formal₂ a₂ t).head = t.head ∧
      (bindTogether formal₁ a₁ formal₂ a₂ t).children = t.children.map (bindTogether formal₁ a₁ formal₂ a₂) := by
  rw [bindTogether_eq, h₁, h₂, if_neg Bool.false_ne_true, if_neg Bool.false_ne_true]
  unfold head children
  rw [node_tree, Node.map_map, Node.children_map]
  exact ⟨rfl, rfl⟩

/-- Binding the first argument makes no read of the second parameter, and takes none away. -/
theorem isCapture_bindArgument (h : t.isCapture formal₁ = false)
    (hliterals : ∀ target m, t = .member target m → formal₂.names m → target.isLiteral = true) :
    isCapture formal₂ (t.node.map (bindArgument formal₁ a)).tree = t.isCapture formal₂ := by
  cases t with
  | member target m =>
      by_cases hm : formal₂.names m
      · obtain hliteral := hliterals target m rfl hm
        cases target with
        | literal v ty => rfl
        | _ => cases hliteral
      · exact (isCaptureOf_of_not_names hm).trans (isCaptureOf_of_not_names hm).symm
  | _ => rfl

/-- **One after the other is both at once,** with the second argument bound in the first one. -/
theorem bindArguments_eq_bindTogether (h : t.OnLiterals formal₂) :
    bindArguments formal₁ a₁ formal₂ a₂ t =
      bindTogether formal₁ (bindArgument formal₂ a₂ a₁) formal₂ a₂ t := by
  unfold bindArguments
  induction t using childwise with
  | step t ih =>
      rw [bindTogether_eq, bindArgument_eq t]
      by_cases h₁ : t.isCapture formal₁
      · rw [if_pos h₁, if_pos h₁]
      rw [if_neg h₁, if_neg h₁, bindArgument_eq,
        isCapture_bindArgument (by simpa using h₁) h.here, node_tree, Node.map_map]
      split
      · rfl
      · exact congrArg Node.tree (Node.map_congr fun c hc => ih c hc (h.child hc))

/-- Different trees put in for a parameter make a difference exactly if it is read. -/
theorem bindTogether_eq_iff (hne : a₁ ≠ b₁) : bindTogether formal₁ a₁ formal₂ a₂ t =
    bindTogether formal₁ b₁ formal₂ a₂ t ↔ t.Uncaptured formal₁ := by
  unfold Uncaptured
  induction t using childwise with
  | step t ih =>
      rw [everywhere_iff, bindTogether_eq, bindTogether_eq]
      by_cases h₁ : t.isCapture formal₁
      · rw [if_pos h₁, if_pos h₁, h₁]
        simp [hne]
      rw [if_neg h₁, if_neg h₁, and_iff_right (by simpa using h₁)]
      by_cases h₂ : t.isCapture formal₂
      · -- below a read there is a literal only
        rw [if_pos h₂, if_pos h₂]
        refine ⟨fun _ c hc => ?_, fun _ => rfl⟩
        cases t with
        | member target m =>
            rw [List.mem_singleton.1 hc]
            have hliteral := (isCapture_member h₂).2
            cases target with
            | literal v ty => exact everywhere_iff.2 ⟨rfl, fun d hd => by cases hd⟩
            | _ => cases hliteral
        | _ => cases h₂
      · rw [if_neg h₂, if_neg h₂, node_map_eq_iff (node_tree _) (node_tree _)]
        exact forall₂_congr ih

/-- **One after the other is both at once exactly if the first parameter is not read, or nothing is bound
in the first argument.** -/
theorem bindArguments_eq_iff (h : t.OnLiterals formal₂) : bindArguments formal₁ a₁ formal₂ a₂ t =
    bindTogether formal₁ a₁ formal₂ a₂ t ↔ t.Uncaptured formal₁ ∨ bindArgument formal₂ a₂ a₁ = a₁ := by
  rw [bindArguments_eq_bindTogether h]
  by_cases heq : bindArgument formal₂ a₂ a₁ = a₁
  · simp [heq]
  · rw [bindTogether_eq_iff heq, or_iff_left heq]

end Tree

namespace Captured

variable {formal : FormalParam} (c : Captured) (id : Nat)

theorem isCapture_read : (c.read id).isCapture c.formal = true := by
  simp [read, Tree.isCapture, Tree.isCaptureOf, field, Tree.isLiteral, container, DeclaringType.closure]

theorem isCapture_read_other (h : c.formal.name ≠ formal.name) : (c.read id).isCapture formal = false := by
  simp [read, Tree.isCapture, Tree.isCaptureOf, field, h]

theorem onLiterals_read : (c.read id).OnLiterals formal := by
  refine Tree.everywhere_iff.2 ⟨fun target m h _ => ?_, fun d hd => ?_⟩
  · cases h
    rfl
  · rw [List.mem_singleton.1 hd]
    exact Tree.everywhere_iff.2 ⟨(fun target m h => by cases h), fun e he => by cases he⟩

end Captured

/-- A first argument that is itself such a read, captured elsewhere under the name of the second one, is
replaced as well. -/
example (a₂ : Expr) : Tree.bindArguments ⟨"a", .int⟩ (Captured.read ⟨⟨"b", .int⟩, .value (.int 10)⟩ 0)
    ⟨"b", .int⟩ a₂ (Captured.read ⟨⟨"a", .int⟩, .value .null⟩ 1) = a₂ := rfl

end DualForm
