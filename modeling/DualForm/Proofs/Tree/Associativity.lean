import DualForm.Proofs.Composition
import DualForm.Proofs.Tree.Scope

/-!
# Composition is associative

Composing lambdas replaces the parameter of the outer one by the body of the inner one. Two compositions are
two substitutions, and these may be made in either order: into the outer body first, or first into the body
that is inserted there.

The inner parameter must not be met in the outer body itself, neither as a read nor declared by a lambda. A
read of it there would be replaced in the one order only, and a lambda that declares it would declare the
replacement instead. Nothing is asked of the body that is inserted, as both orders rewrite it in the same way.

Principal results: `Scoped.substitute_comm` — the two substitutions in either order; `composed_assoc` — the
two ways to compose three lambdas, and composing them from the inside, make the same lambda.
-/

namespace DualForm

namespace Tree

variable {ν γ ι : Type} {bound : List Param} {x y : Param} {g h t : Tree ν γ ι}

/-- **Substitutions made one after the other,** where no lambda declares either parameter and the second one
is not read, unless it is the first one. -/
theorem Scoped.substitute_comm (ht : Scoped bound t) (hx : t.Undeclared x) (hy : t.Undeclared y)
    (hbound : y ∈ bound → y = x) :
    Tree.substitute y h (Tree.substitute x g t) = Tree.substitute x (Tree.substitute y h g) t := by
  induction t using binderwise generalizing bound with
  | param r =>
      have hr : r ∈ bound := ht
      by_cases hrx : r = x
      · subst hrx
        simp only [Tree.substitute, if_true]
      · have hry : r ≠ y := by
          rintro rfl
          exact hrx (hbound hr)
        simp only [Tree.substitute, if_neg hrx, if_neg hry]
  | lambda ps b ih =>
      have hmem : b ∈ (Tree.lambda ps b).children := List.mem_singleton.2 rfl
      have hxps : x ∉ ps := hx.here ps b rfl
      have hyps : y ∉ ps := hy.here ps b rfl
      have hbody := ih (scoped_lambda.1 ht) (hx.child hmem) (hy.child hmem) fun hmem =>
        hbound ((List.mem_append.1 hmem).resolve_left hyps)
      rw [substitute_lambda, substitute_lambda, substitute_lambda, redeclare_of_not_mem hxps,
        redeclare_of_not_mem hyps, redeclare_of_not_mem hxps, hbody]
  | other t hparam hlambda ih =>
      obtain ⟨hparam', hlambda'⟩ := substitute_other (q := x) (a := g) hparam hlambda
      have hnode : (Tree.substitute y h (Tree.substitute x g t)).node =
          t.node.map (Tree.substitute y h ∘ Tree.substitute x g) := by
        rw [substitute_node hparam' hlambda', substitute_node hparam hlambda, Node.map_map]
      rw [node_map_eq_iff hnode (substitute_node hparam hlambda)]
      intro c hc
      exact ih c hc ((scoped_other hparam hlambda).1 ht c hc) (hx.child hc) (hy.child hc) hbound

end Tree

namespace Lambda

/-- **Composition is associative.** Parameters may be shared between the lambdas, as when one of them is
composed with itself. -/
theorem composed_assoc {f g h : Lam} {x y z : Param} (hf : f.params = [x]) (hg : g.params = [y])
    (hh : h.params = [z]) (hclosed : f.tree.freeParams = []) (hx : f.body.Undeclared x)
    (hy : f.body.Undeclared y) :
    ∃ l, (composed f g >>= fun fg => composed fg h) = .ok l ∧
      (composed g h >>= fun gh => composed f gh) = .ok l ∧
      (continued g f >>= fun gf => continued h gf) = .ok l := by
  have hscoped : Tree.Scoped [x] f.body := by
    have htree : Tree.Scoped [] (.lambda f.params f.body) := Tree.freeParams_eq_nil_iff.1 hclosed
    rwa [hf] at htree
  have hcomm : Tree.substitute y h.body (Tree.substitute x g.body f.body) =
      Tree.substitute x (Tree.substitute y h.body g.body) f.body :=
    hscoped.substitute_comm hx hy List.mem_singleton.1
  have hfg : composed f g = .ok ⟨[y], Tree.substitute x g.body f.body⟩ :=
    composed_ok.2 ⟨x, hf, y, hg, rfl⟩
  have hgh : composed g h = .ok ⟨[z], Tree.substitute y h.body g.body⟩ :=
    composed_ok.2 ⟨y, hg, z, hh, rfl⟩
  have houter : composed ⟨[y], Tree.substitute x g.body f.body⟩ h =
      .ok ⟨[z], Tree.substitute x (Tree.substitute y h.body g.body) f.body⟩ :=
    composed_ok.2 ⟨y, rfl, z, hh, by rw [hcomm]⟩
  refine ⟨⟨[z], Tree.substitute x (Tree.substitute y h.body g.body) f.body⟩, ?_, ?_, ?_⟩
  · rw [hfg]
    exact houter
  · rw [hgh]
    exact composed_ok.2 ⟨x, hf, z, rfl, rfl⟩
  · rw [continued_ok.2 hfg]
    exact continued_ok.2 houter

namespace Thrice

def x : Param := ⟨0, "x", .int⟩

def y : Param := ⟨1, "y", .int⟩

/-- `x => x + 1` -/
def successor : Lam := ⟨[x], .operation .add (.param x) (.literal (.int 1) .int)⟩

/-- `x => y => x + y` -/
def adder : Lam := ⟨[x], .lambda [y] (.operation .add (.param x) (.param y))⟩

theorem adder_undeclared : adder.body.Undeclared x := by
  refine Tree.everywhere_single (fun ps b hb => ?_) rfl <|
    Tree.everywhere_pair nofun rfl (Tree.everywhere_leaf nofun rfl) (Tree.everywhere_leaf nofun rfl)
  cases hb
  decide

end Thrice

/-- `x => y => x + y` after `x => x + 1` after `x => x + 1`, all with one parameter. -/
theorem composed_assoc_shared :
    ∃ l, (composed Thrice.adder Thrice.successor >>= fun fg => composed fg Thrice.successor) = .ok l ∧
      (composed Thrice.successor Thrice.successor >>= fun gh => composed Thrice.adder gh) = .ok l ∧
      (continued Thrice.successor Thrice.adder >>= fun gf => continued Thrice.successor gf) = .ok l :=
  composed_assoc rfl rfl rfl rfl Thrice.adder_undeclared Thrice.adder_undeclared

end Lambda

end DualForm
