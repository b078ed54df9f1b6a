import DualForm.Proofs.Tree.Scope
import DualForm.Tree.Comparison
import DualForm.Value.Basic
import Mathlib.Data.List.Zip

/-!
# Equality up to renaming of lambda parameters

* `Nameless κ` — trees without parameter names: a read of a declared parameter is the position of the
  innermost declaration, free parameters are kept, lambdas keep the types of their parameters, members
  and methods what they declare, literals a key in `κ`.
* `Tree.nameless key t` — the nameless form of a tree.
* `Value.key`, `Value.Floatless` — values without floats are equal exactly if their keys are.
* `Tree.DeclaresApart declared t` — no lambda declares a parameter twice, or one that is declared around it.

Principal results: `nameless_eq_iff` — trees without floats have the same nameless form exactly if each
compares equal to the other, and one direction is enough where the second tree declares its parameters
apart from each other and from the free ones of the first; `compare_capturing` — without this, a free
parameter of the first tree matches a declared one of the second.
-/

namespace DualForm

variable {ν γ ι κ : Type}

/-! ## Nameless trees -/

/-- What a read refers to. -/
inductive Referent where
  /-- A declared parameter: how many declarations lie between. -/
  | bound (position : Nat)
  | free (p : Param)
deriving DecidableEq

/-- What a read of `p` refers to below these declarations, the latest one first. -/
def Referent.of (declared : List Param) (p : Param) : Referent :=
  match declared.idxOf? p with
  | some i => .bound i
  | none => .free p

/-- Trees without parameter names. -/
inductive Nameless (κ : Type) where
  | literal (key : κ) (ty : Ty)
  | param (r : Referent)
  | staticMember (m : MemberSignature)
  | member (target : Nameless κ) (m : MemberSignature)
  | staticCall (m : MethodSignature) (args : List (Nameless κ))
  | call (target : Nameless κ) (m : MethodSignature) (args : List (Nameless κ))
  | binary (op : BinaryOp) (lhs rhs : Nameless κ) (via : Option MethodSignature)
  | unary (op : UnaryOp) (operand : Nameless κ) (via : Option MethodSignature) (ty : Ty)
  | lambda (params : List Ty) (body : Nameless κ)
  | invoke (callee : Nameless κ) (args : List (Nameless κ))
  | conditional (test ifTrue ifFalse : Nameless κ)

/-- The declaration counted by a position is the one whose value evaluation reads. -/
theorem lookup?_eq (scope : Scope) (p : Param) :
    scope.lookup? p = (scope.map Prod.fst).idxOf? p >>= fun i => scope[i]?.map Prod.snd := by
  unfold Scope.lookup?
  induction scope with
  | nil => rfl
  | cons x scope ih =>
      rw [List.find?_cons, List.map_cons, List.idxOf?_cons]
      by_cases hx : x.1 = p
      · simp [hx]
      · simp only [hx, decide_false, ih, beq_iff_eq, if_false]
        cases (scope.map Prod.fst).idxOf? p <;> simp

namespace Tree

variable (key : ν → κ)

mutual

/-- The nameless form below declarations, the latest one first. -/
def namelessUnder (declared : List Param) : Tree ν γ ι → Nameless κ
  | .literal v ty => .literal (key v) ty
  | .param p => .param (.of declared p)
  | .staticMember m => .staticMember m.toMemberSignature
  | .member target m => .member (namelessUnder declared target) m.toMemberSignature
  | .staticCall m args => .staticCall m.toMethodSignature (namelessAllUnder declared args)
  | .call target m args =>
      .call (namelessUnder declared target) m.toMethodSignature (namelessAllUnder declared args)
  | .binary op lhs rhs via =>
      .binary op (namelessUnder declared lhs) (namelessUnder declared rhs)
        (via.map Method.toMethodSignature)
  | .unary op operand via ty =>
      .unary op (namelessUnder declared operand) (via.map Method.toMethodSignature) ty
  | .lambda params body =>
      .lambda (params.map Param.ty) (namelessUnder (params.reverse ++ declared) body)
  | .invoke callee args => .invoke (namelessUnder declared callee) (namelessAllUnder declared args)
  | .conditional test ifTrue ifFalse =>
      .conditional (namelessUnder declared test) (namelessUnder declared ifTrue)
        (namelessUnder declared ifFalse)

/-- The nameless forms of a list of trees. -/
def namelessAllUnder (declared : List Param) : List (Tree ν γ ι) → List (Nameless κ)
  | [] => []
  | t :: ts => namelessUnder declared t :: namelessAllUnder declared ts

end

/-- The nameless form of a tree. -/
def nameless (t : Tree ν γ ι) : Nameless κ := t.namelessUnder key []

end Tree

/-! ## Renamings -/

namespace Renaming

/-- The declarations on the left. -/
def left (r : Renaming) : List Param := r.map Prod.fst

/-- The declarations on the right. -/
def right (r : Renaming) : List Param := r.map Prod.snd

/-- The renaming read from right to left. -/
def flip (r : Renaming) : Renaming := r.map Prod.swap

variable (r : Renaming) {ps qs : List Param} {p q : Param}

theorem declare_left (h : ps.length = qs.length) : (r.declare ps qs).left = ps.reverse ++ r.left := by
  simp [declare, left, List.map_fst_zip (Nat.le_of_eq h)]

theorem declare_right (h : ps.length = qs.length) :
    (r.declare ps qs).right = qs.reverse ++ r.right := by
  simp [declare, right, List.map_snd_zip (Nat.le_of_eq h.symm)]

theorem flip_declare : (r.declare ps qs).flip = r.flip.declare qs ps := by
  simp [declare, flip, List.zip_swap]

theorem relates_cons (x : Param × Param) :
    relates (x :: r) p q = if x.1 = p then decide (x.2 = q) else relates r p q := by
  unfold relates
  by_cases hx : x.1 = p <;> simp [hx]

/-- Reads match in both directions exactly if they are of the same declaration, or of the same free
parameter. -/
theorem relates_iff : r.relates p q = true ∧ r.flip.relates q p = true ↔
    Referent.of r.left p = Referent.of r.right q := by
  have hpositions : r.relates p q = true ∧ r.flip.relates q p = true ↔
      r.left.idxOf? p = r.right.idxOf? q ∧ (r.left.idxOf? p = none → p = q) := by
    induction r with
    | nil => simp [relates, left, right, flip, eq_comm]
    | cons x r ih =>
        rw [show flip (x :: r) = x.swap :: flip r from rfl, relates_cons, relates_cons]
        simp only [left, right, List.map_cons, List.idxOf?_cons, Prod.fst_swap, Prod.snd_swap] at ih ⊢
        by_cases hp : x.1 = p
        · by_cases hq : x.2 = q
          · simp [hp, hq]
          · cases (r.map Prod.snd).idxOf? q <;> simp [hp, hq]
        by_cases hq : x.2 = q
        · cases (r.map Prod.fst).idxOf? p <;> simp [hp, hq]
        simp only [hp, hq, if_false, beq_iff_eq, ih]
        cases (r.map Prod.fst).idxOf? p <;> cases (r.map Prod.snd).idxOf? q <;> simp
  rw [hpositions]
  unfold Referent.of
  cases r.left.idxOf? p <;> cases r.right.idxOf? q <;> simp

end Renaming

/-! ## Comparison and nameless forms -/

namespace Tree

variable [BEq ν] {key : ν → κ} {p : ν → Prop} {r : Renaming} {a b : Tree ν γ ι}
  {as bs : List (Tree ν γ ι)}

/-- Every literal has a value with `p`. -/
def Literals (p : ν → Prop) (t : Tree ν γ ι) : Prop :=
  t.Everywhere fun u => ∀ v ty, u = .literal v ty → p v

/-- Both directions of the comparison. -/
def AgreeUnder (r : Renaming) (a b : Tree ν γ ι) : Prop :=
  compareUnder r a b = true ∧ compareUnder r.flip b a = true

theorem same_iff (m n : Member γ) : m.same n = true ∧ n.same m = true ↔
    m.toMemberSignature = n.toMemberSignature := by
  simp only [Member.same, decide_eq_true_eq]
  exact ⟨And.left, fun h => ⟨h, h.symm⟩⟩

theorem method_same_iff (m n : Method ι) : m.same n = true ∧ n.same m = true ↔
    m.toMethodSignature = n.toMethodSignature := by
  simp only [Method.same, decide_eq_true_eq]
  exact ⟨And.left, fun h => ⟨h, h.symm⟩⟩

theorem sameOption_iff (m n : Option (Method ι)) :
    Method.sameOption m n = true ∧ Method.sameOption n m = true ↔
      m.map Method.toMethodSignature = n.map Method.toMethodSignature := by
  cases m <;> cases n <;> simp [Method.sameOption, method_same_iff]

theorem agreeAllUnder_iff (key : ν → κ) (r : Renaming) : ∀ (as bs : List (Tree ν γ ι)),
    (∀ a ∈ as, ∀ b ∈ bs, AgreeUnder r a b ↔ a.namelessUnder key r.left = b.namelessUnder key r.right) →
    ((compareAllUnder r as bs = true ∧ compareAllUnder r.flip bs as = true) ↔
      namelessAllUnder key r.left as = namelessAllUnder key r.right bs)
  | [], [], _ => by simp [compareAllUnder, namelessAllUnder]
  | [], _ :: _, _ | _ :: _, [], _ => by simp [compareAllUnder, namelessAllUnder]
  | a :: as, b :: bs, h => by
      have hhead := h a (List.mem_cons_self ..) b (List.mem_cons_self ..)
      have htail := agreeAllUnder_iff key r as bs fun c hc d hd =>
        h c (List.mem_cons_of_mem _ hc) d (List.mem_cons_of_mem _ hd)
      simp only [compareAllUnder, namelessAllUnder, Bool.and_eq_true, List.cons.injEq, ← hhead, ← htail,
        AgreeUnder]
      tauto

/-- **Trees compare equal in both directions exactly if their nameless forms are the same.** -/
theorem agreeUnder_iff (hkey : ∀ v w, p v → p w → ((v == w) = true ↔ key v = key w))
    (ha : a.Literals p) (hb : b.Literals p) :
    AgreeUnder r a b ↔ a.namelessUnder key r.left = b.namelessUnder key r.right := by
  induction a using Tree.nodewise generalizing b r with
  | literal v ty =>
      cases b with
      | literal w ty' =>
          have hv := ha.here v ty rfl
          have hw := hb.here w ty' rfl
          simp [AgreeUnder, compareUnder, namelessUnder, hkey v w hv hw, hkey w v hw hv]
          tauto
      | _ => simp [AgreeUnder, compareUnder, namelessUnder]
  | param q =>
      cases b with
      | param q' => simp [AgreeUnder, compareUnder, namelessUnder, Renaming.relates_iff]
      | _ => simp [AgreeUnder, compareUnder, namelessUnder]
  | staticMember m =>
      cases b with
      | staticMember n => simp [AgreeUnder, compareUnder, namelessUnder, same_iff]
      | _ => simp [AgreeUnder, compareUnder, namelessUnder]
  | member target m ih =>
      cases b with
      | member target' n =>
          have htarget := ih (r := r) (ha.child (List.mem_singleton.2 rfl))
            (hb.child (List.mem_singleton.2 rfl))
          simp only [AgreeUnder, compareUnder, namelessUnder, Bool.and_eq_true, Nameless.member.injEq, ← same_iff,
            ← htarget]
          tauto
      | _ => simp [AgreeUnder, compareUnder, namelessUnder]
  | staticCall m args ih =>
      cases b with
      | staticCall n args' =>
          have hargs := agreeAllUnder_iff key r args args' fun c hc d hd =>
            ih c hc (ha.child hc) (hb.child hd)
          simp only [AgreeUnder, compareUnder, namelessUnder, Bool.and_eq_true, Nameless.staticCall.injEq,
            ← method_same_iff, ← hargs]
          tauto
      | _ => simp [AgreeUnder, compareUnder, namelessUnder]
  | call target m args iht ih =>
      cases b with
      | call target' n args' =>
          have htarget := iht (r := r) (ha.child (List.mem_cons_self ..)) (hb.child (List.mem_cons_self ..))
          have hargs := agreeAllUnder_iff key r args args' fun c hc d hd =>
            ih c hc (ha.child (List.mem_cons_of_mem _ hc)) (hb.child (List.mem_cons_of_mem _ hd))
          simp only [AgreeUnder, compareUnder, namelessUnder, Bool.and_eq_true, Nameless.call.injEq,
            ← method_same_iff, ← hargs, ← htarget]
          tauto
      | _ => simp [AgreeUnder, compareUnder, namelessUnder]
  | binary op lhs rhs via ihl ihr =>
      cases b with
      | binary op' lhs' rhs' via' =>
          have hlhs := ihl (r := r) (ha.child (List.mem_cons_self ..)) (hb.child (List.mem_cons_self ..))
          have hrhs := ihr (r := r) (ha.child (List.mem_cons_of_mem _ (List.mem_singleton.2 rfl)))
            (hb.child (List.mem_cons_of_mem _ (List.mem_singleton.2 rfl)))
          simp only [AgreeUnder, compareUnder, namelessUnder, Bool.and_eq_true, Nameless.binary.injEq,
            ← sameOption_iff, ← hlhs, ← hrhs, decide_eq_true_eq, eq_comm (a := op')]
          tauto
      | _ => simp [AgreeUnder, compareUnder, namelessUnder]
  | unary op operand via ty ih =>
      cases b with
      | unary op' operand' via' ty' =>
          have hoperand := ih (r := r) (ha.child (List.mem_singleton.2 rfl))
            (hb.child (List.mem_singleton.2 rfl))
          simp only [AgreeUnder, compareUnder, namelessUnder, Bool.and_eq_true, Nameless.unary.injEq,
            ← sameOption_iff, ← hoperand, decide_eq_true_eq, eq_comm (a := op'), eq_comm (a := ty')]
          tauto
      | _ => simp [AgreeUnder, compareUnder, namelessUnder]
  | lambda ps body ih =>
      cases b with
      | lambda qs body' =>
          simp only [AgreeUnder, compareUnder, namelessUnder, Bool.and_eq_true, Nameless.lambda.injEq,
            decide_eq_true_eq, eq_comm (a := qs.map Param.ty)]
          rw [← and_and_left]
          refine and_congr_right fun htypes => ?_
          have hlength : ps.length = qs.length := by simpa using congrArg List.length htypes
          -- The parameters declared here go in front on both sides, so the hypothesis is used at the longer renaming.
          have hbody := ih (r := r.declare ps qs) (ha.child (List.mem_singleton.2 rfl))
            (hb.child (List.mem_singleton.2 rfl))
          rwa [AgreeUnder, r.flip_declare, r.declare_left hlength, r.declare_right hlength] at hbody
      | _ => simp [AgreeUnder, compareUnder, namelessUnder]
  | invoke callee args ihc ih =>
      cases b with
      | invoke callee' args' =>
          have hcallee := ihc (r := r) (ha.child (List.mem_cons_self ..)) (hb.child (List.mem_cons_self ..))
          have hargs := agreeAllUnder_iff key r args args' fun c hc d hd =>
            ih c hc (ha.child (List.mem_cons_of_mem _ hc)) (hb.child (List.mem_cons_of_mem _ hd))
          simp only [AgreeUnder, compareUnder, namelessUnder, Bool.and_eq_true, Nameless.invoke.injEq, ← hargs,
            ← hcallee]
          tauto
      | _ => simp [AgreeUnder, compareUnder, namelessUnder]
  | conditional test ifTrue ifFalse iht ihp ihn =>
      cases b with
      | conditional test' ifTrue' ifFalse' =>
          have htest := iht (r := r) (b := test') (ha.child (by simp [children, node, Node.children]))
            (hb.child (by simp [children, node, Node.children]))
          have htrue := ihp (r := r) (b := ifTrue') (ha.child (by simp [children, node, Node.children]))
            (hb.child (by simp [children, node, Node.children]))
          have hfalse := ihn (r := r) (b := ifFalse') (ha.child (by simp [children, node, Node.children]))
            (hb.child (by simp [children, node, Node.children]))
          simp only [AgreeUnder, compareUnder, namelessUnder, Bool.and_eq_true, Nameless.conditional.injEq,
            ← htest, ← htrue, ← hfalse]
          tauto
      | _ => simp [AgreeUnder, compareUnder, namelessUnder]

/-! ## One direction -/

/-- Whether one node declares its parameters apart, and the subtrees below them. -/
def declaresApartAt (n : Node ν γ ι (Tree ν γ ι × (List Param → Prop))) (declared : List Param) : Prop :=
  let inner := (n.map Prod.fst).tree.declared.reverse ++ declared
  inner.Nodup ∧ ∀ c ∈ n.children, c.2 inner

/-- No lambda declares a parameter twice, or one that is declared around it. -/
def DeclaresApart (declared : List Param) (t : Tree ν γ ι) : Prop := fold declaresApartAt t declared

omit [BEq ν] in
theorem declaresApart_iff {declared : List Param} {t : Tree ν γ ι} :
    t.DeclaresApart declared ↔ (t.declared.reverse ++ declared).Nodup ∧
      ∀ c ∈ t.children, c.DeclaresApart (t.declared.reverse ++ declared) := by
  unfold DeclaresApart
  rw [fold_eq]
  simp only [declaresApartAt, Node.map_map, Node.children_map, List.mem_map, forall_exists_index, and_imp,
    forall_apply_eq_imp_iff₂]
  have hfirst : (Prod.fst ∘ fun u => (u, fold declaresApartAt u)) = (id : Tree ν γ ι → Tree ν γ ι) := rfl
  rw [hfirst, Node.map_id, tree_node]
  rfl

end Tree

namespace Renaming

variable {r : Renaming} {p q : Param}

theorem relates_cases (h : r.relates p q = true) : q ∈ r.right ∨ (p ∉ r.left ∧ p = q) := by
  induction r with
  | nil => exact .inr ⟨List.not_mem_nil, by simpa [relates] using h⟩
  | cons x r ih =>
      rw [relates_cons] at h
      simp only [right, left, List.map_cons, List.mem_cons, not_or]
      by_cases hx : x.1 = p
      · rw [if_pos hx, decide_eq_true_eq] at h
        exact .inl (.inl h.symm)
      · rw [if_neg hx] at h
        rcases ih h with hq | ⟨hp, hpq⟩
        · exact .inl (.inr hq)
        · exact .inr ⟨⟨fun he => hx he.symm, hp⟩, hpq⟩

/-- A match in one direction is one in the other, if the declarations on the right are distinct and
none of them is the parameter read, unless that is declared. -/
theorem relates_flip (hright : r.right.Nodup) (hfree : p ∈ r.left ∨ p ∉ r.right)
    (h : r.relates p q = true) : r.flip.relates q p = true := by
  induction r with
  | nil => simpa [relates, flip, eq_comm] using h
  | cons x r ih =>
      simp only [right, left, List.map_cons, List.nodup_cons, List.mem_cons, not_or] at hright hfree
      rw [relates_cons] at h
      rw [show flip (x :: r) = x.swap :: flip r from rfl, relates_cons, Prod.fst_swap, Prod.snd_swap]
      by_cases hx : x.1 = p
      · rw [if_pos hx, decide_eq_true_eq] at h
        rw [if_pos h, decide_eq_true hx]
      · rw [if_neg hx] at h
        have hq : x.2 ≠ q := by
          rintro rfl
          rcases relates_cases h with hmem | ⟨hp, rfl⟩
          · exact hright.1 hmem
          · rcases hfree with (hpx | hmem) | ⟨hne, _⟩
            · exact hx hpx.symm
            · exact hp hmem
            · exact hne rfl
        rw [if_neg hq]
        refine ih hright.2 ?_ h
        rcases hfree with (hpx | hmem) | ⟨_, hmem⟩
        · exact absurd hpx.symm hx
        · exact .inl hmem
        · exact .inr hmem

end Renaming

namespace Tree

variable [BEq ν] {key : ν → κ} {p : ν → Prop} {r : Renaming} {a b : Tree ν γ ι}
  {as bs : List (Tree ν γ ι)} {free : List Param}

omit [BEq ν] in
theorem sameOption_symm {m n : Option (Method ι)} (h : Method.sameOption m n = true) :
    Method.sameOption n m = true := by
  cases m with
  | none => cases n with
    | none => rfl
    | some n => cases h
  | some m => cases n with
    | none => cases h
    | some n =>
        simp only [Method.sameOption, Method.same, decide_eq_true_eq] at h ⊢
        exact h.symm

theorem compareAllUnder_flip : ∀ {as bs : List (Tree ν γ ι)},
    (∀ a ∈ as, ∀ b ∈ bs, compareUnder r a b = true → compareUnder r.flip b a = true) →
    compareAllUnder r as bs = true → compareAllUnder r.flip bs as = true
  | [], [], _, _ => by simp [compareAllUnder]
  | [], _ :: _, _, h | _ :: _, [], _, h => by simp [compareAllUnder] at h
  | a :: as, b :: bs, hflip, h => by
      simp only [compareAllUnder, Bool.and_eq_true] at h ⊢
      exact ⟨hflip a (List.mem_cons_self ..) b (List.mem_cons_self ..) h.1,
        compareAllUnder_flip (fun c hc d hd =>
          hflip c (List.mem_cons_of_mem _ hc) d (List.mem_cons_of_mem _ hd)) h.2⟩

/-- What the two directions of the comparison need to agree: the parameters declared on the right are
apart, also from the free ones of the left tree. -/
structure Separated (r : Renaming) (free : List Param) (a b : Tree ν γ ι) : Prop where
  reads : a.Scoped (r.left ++ free)
  apart : b.DeclaresApart r.right
  distinct : r.right.Nodup
  undeclared : ∀ q ∈ free, q ∉ r.right ∧ b.Undeclared q

omit [BEq ν] in
theorem Separated.child (h : Separated r free a b) (hlength : a.declared.length = b.declared.length)
    {c d : Tree ν γ ι} (hc : c ∈ a.children) (hd : d ∈ b.children) :
    Separated (r.declare a.declared b.declared) free c d := by
  have hapart := declaresApart_iff.1 h.apart
  refine ⟨?_, ?_, ?_, fun q hq => ⟨?_, (h.undeclared q hq).2.child hd⟩⟩
  · rw [r.declare_left hlength]
    refine (h.reads.child hc).mono fun q hq => ?_
    simpa [or_assoc] using hq
  · rw [r.declare_right hlength]
    exact hapart.2 d hd
  · rw [r.declare_right hlength]
    exact hapart.1
  · rw [r.declare_right hlength, List.mem_append, List.mem_reverse, not_or]
    refine ⟨?_, (h.undeclared q hq).1⟩
    cases b with
    | lambda qs body => exact (h.undeclared q hq).2.here qs body rfl
    | _ => exact List.not_mem_nil

/-- **Where parameters are separated, one direction of the comparison is enough.** -/
theorem compareUnder_flip (hsymm : ∀ v w, p v → p w → (v == w) = true → (w == v) = true)
    (ha : a.Literals p) (hb : b.Literals p) (hsep : Separated r free a b)
    (h : compareUnder r a b = true) : compareUnder r.flip b a = true := by
  induction a using Tree.nodewise generalizing b r with
  | literal v ty =>
      cases b with
      | literal w ty' =>
          simp only [compareUnder, Bool.and_eq_true, decide_eq_true_eq] at h ⊢
          exact ⟨hsymm v w (ha.here v ty rfl) (hb.here w ty' rfl) h.1, h.2.symm⟩
      | _ => simp [compareUnder] at h
  | param q =>
      cases b with
      | param q' =>
          refine Renaming.relates_flip hsep.distinct ?_ h
          -- A parameter that is not declared on the left is free there, and so declared nowhere on the right.
          exact (List.mem_append.1 (scoped_param.1 hsep.reads)).imp_right fun hq =>
            (hsep.undeclared q hq).1
      | _ => simp [compareUnder] at h
  | staticMember m =>
      cases b with
      | staticMember n =>
          simp only [compareUnder, Member.same, decide_eq_true_eq] at h ⊢
          exact h.symm
      | _ => simp [compareUnder] at h
  | member target m ih =>
      cases b with
      | member target' n =>
          simp only [compareUnder, Member.same, Bool.and_eq_true, decide_eq_true_eq] at h ⊢
          have hc : target ∈ (member target m).children := List.mem_singleton.2 rfl
          have hd : target' ∈ (member target' n).children := List.mem_singleton.2 rfl
          exact ⟨h.1.symm, ih (ha.child hc) (hb.child hd) (hsep.child rfl hc hd) h.2⟩
      | _ => simp [compareUnder] at h
  | staticCall m args ih =>
      cases b with
      | staticCall n args' =>
          simp only [compareUnder, Method.same, Bool.and_eq_true, decide_eq_true_eq] at h ⊢
          exact ⟨h.1.symm, compareAllUnder_flip (fun c hc d hd hcd =>
            ih c hc (ha.child hc) (hb.child hd) (hsep.child rfl hc hd) hcd) h.2⟩
      | _ => simp [compareUnder] at h
  | call target m args iht ih =>
      cases b with
      | call target' n args' =>
          simp only [compareUnder, Method.same, Bool.and_eq_true, decide_eq_true_eq] at h ⊢
          have hc : target ∈ (call target m args).children := List.mem_cons_self ..
          have hd : target' ∈ (call target' n args').children := List.mem_cons_self ..
          refine ⟨⟨h.1.1.symm, iht (ha.child hc) (hb.child hd) (hsep.child rfl hc hd) h.1.2⟩,
            compareAllUnder_flip (fun c hargs d hargs' hcd => ?_) h.2⟩
          have hc : c ∈ (call target m args).children := List.mem_cons_of_mem _ hargs
          have hd : d ∈ (call target' n args').children := List.mem_cons_of_mem _ hargs'
          exact ih c hargs (ha.child hc) (hb.child hd) (hsep.child rfl hc hd) hcd
      | _ => simp [compareUnder] at h
  | binary op lhs rhs via ihl ihr =>
      cases b with
      | binary op' lhs' rhs' via' =>
          simp only [compareUnder, Bool.and_eq_true, decide_eq_true_eq] at h ⊢
          obtain ⟨⟨⟨hop, hvia⟩, hl⟩, hr⟩ := h
          have hlhs : lhs ∈ (binary op lhs rhs via).children := List.mem_cons_self ..
          have hlhs' : lhs' ∈ (binary op' lhs' rhs' via').children := List.mem_cons_self ..
          have hrhs : rhs ∈ (binary op lhs rhs via).children :=
            List.mem_cons_of_mem _ (List.mem_singleton.2 rfl)
          have hrhs' : rhs' ∈ (binary op' lhs' rhs' via').children :=
            List.mem_cons_of_mem _ (List.mem_singleton.2 rfl)
          exact ⟨⟨⟨hop.symm, sameOption_symm hvia⟩,
            ihl (ha.child hlhs) (hb.child hlhs') (hsep.child rfl hlhs hlhs') hl⟩,
            ihr (ha.child hrhs) (hb.child hrhs') (hsep.child rfl hrhs hrhs') hr⟩
      | _ => simp [compareUnder] at h
  | unary op operand via ty ih =>
      cases b with
      | unary op' operand' via' ty' =>
          simp only [compareUnder, Bool.and_eq_true, decide_eq_true_eq] at h ⊢
          obtain ⟨⟨⟨hop, hvia⟩, hty⟩, hoperand⟩ := h
          have hc : operand ∈ (unary op operand via ty).children := List.mem_singleton.2 rfl
          have hd : operand' ∈ (unary op' operand' via' ty').children := List.mem_singleton.2 rfl
          exact ⟨⟨⟨hop.symm, sameOption_symm hvia⟩, hty.symm⟩,
            ih (ha.child hc) (hb.child hd) (hsep.child rfl hc hd) hoperand⟩
      | _ => simp [compareUnder] at h
  | lambda ps body ih =>
      cases b with
      | lambda qs body' =>
          simp only [compareUnder, Bool.and_eq_true, decide_eq_true_eq] at h ⊢
          have hlength : ps.length = qs.length := by simpa using congrArg List.length h.1
          have hc : body ∈ (lambda ps body).children := List.mem_singleton.2 rfl
          have hd : body' ∈ (lambda qs body').children := List.mem_singleton.2 rfl
          refine ⟨h.1.symm, ?_⟩
          rw [← r.flip_declare]
          exact ih (ha.child hc) (hb.child hd) (hsep.child hlength hc hd) h.2
      | _ => simp [compareUnder] at h
  | invoke callee args ihc ih =>
      cases b with
      | invoke callee' args' =>
          simp only [compareUnder, Bool.and_eq_true] at h ⊢
          have hc : callee ∈ (invoke callee args).children := List.mem_cons_self ..
          have hd : callee' ∈ (invoke callee' args').children := List.mem_cons_self ..
          refine ⟨ihc (ha.child hc) (hb.child hd) (hsep.child rfl hc hd) h.1,
            compareAllUnder_flip (fun c hargs d hargs' hcd => ?_) h.2⟩
          have hc : c ∈ (invoke callee args).children := List.mem_cons_of_mem _ hargs
          have hd : d ∈ (invoke callee' args').children := List.mem_cons_of_mem _ hargs'
          exact ih c hargs (ha.child hc) (hb.child hd) (hsep.child rfl hc hd) hcd
      | _ => simp [compareUnder] at h
  | conditional test ifTrue ifFalse iht ihp ihn =>
      cases b with
      | conditional test' ifTrue' ifFalse' =>
          simp only [compareUnder, Bool.and_eq_true] at h ⊢
          have hchild : ∀ {c d e : Tree ν γ ι},
              c ∈ (conditional c d e).children ∧ d ∈ (conditional c d e).children ∧
                e ∈ (conditional c d e).children := by simp [children, node, Node.children]
          have hc := hchild (c := test) (d := ifTrue) (e := ifFalse)
          have hd := hchild (c := test') (d := ifTrue') (e := ifFalse')
          exact ⟨⟨iht (ha.child hc.1) (hb.child hd.1) (hsep.child rfl hc.1 hd.1) h.1.1,
            ihp (ha.child hc.2.1) (hb.child hd.2.1) (hsep.child rfl hc.2.1 hd.2.1) h.1.2⟩,
            ihn (ha.child hc.2.2) (hb.child hd.2.2) (hsep.child rfl hc.2.2 hd.2.2) h.2⟩
      | _ => simp [compareUnder] at h

end Tree

/-! ## Values -/

namespace Value

mutual

/-- The value holds no float. Fields of records do not count, as records are compared by identity. -/
def Floatless : Value → Prop
  | .float _ => False
  | .list vs => AllFloatless vs
  | _ => True

/-- The same for each value of a list. -/
def AllFloatless : List Value → Prop
  | [] => True
  | v :: vs => Floatless v ∧ AllFloatless vs

end

mutual

/-- What values are compared by: themselves, or their identity. -/
def key : Value → Datum Nat Nat Nat
  | .null => .null
  | .bool b => .bool b
  | .int n => .int n
  | .float x => .float x
  | .str s => .str s
  | .list vs => .list (keys vs)
  | .record id _ _ => .record id default []
  | .func f => .func f.id
  | .dual d => .dual d.id
  | .factory k => .factory k.id

/-- The keys of a list of values. -/
def keys : List Value → List (Datum Nat Nat Nat)
  | [] => []
  | v :: vs => key v :: keys vs

end

mutual

/-- Values without floats are equal exactly if their keys are. -/
theorem same_iff_key : ∀ {v w : Value}, Floatless v → Floatless w → (same v w = true ↔ key v = key w)
  | .float _, _, hv, _ => hv.elim
  | .list vs, w, hv, hw => by
      cases w with
      | list ws => simpa [same, key] using sameAll_iff_keys vs ws hv hw
      | float => exact hw.elim
      | _ => simp [same, key]
  | .null, w, _, hw | .bool _, w, _, hw | .int _, w, _, hw | .str _, w, _, hw | .record .., w, _, hw
  | .func _, w, _, hw | .dual _, w, _, hw | .factory _, w, _, hw => by
      cases w with
      | float => exact hw.elim
      | _ => simp [same, key]

theorem sameAll_iff_keys : ∀ (vs ws : List Value), AllFloatless vs → AllFloatless ws →
    (sameAll vs ws = true ↔ keys vs = keys ws)
  | [], [], _, _ => by simp [sameAll, keys]
  | [], _ :: _, _, _ | _ :: _, [], _, _ => by simp [sameAll, keys]
  | v :: vs, w :: ws, hv, hw => by
      simp [sameAll, keys, same_iff_key hv.1 hw.1, sameAll_iff_keys vs ws hv.2 hw.2]

end

end Value

/-! ## Equality up to renaming -/

/-- **Comparison and equality up to renaming.** Trees whose literals hold no floats have the same nameless
form exactly if each compares equal to the other. One direction of the comparison is enough where the lambdas
of the second tree declare no parameter twice, none that is declared around them, and none that the first
tree reads free. -/
theorem nameless_eq_iff {a b : Expr} (ha : a.Literals Value.Floatless) (hb : b.Literals Value.Floatless) :
    (a.nameless Value.key = b.nameless Value.key ↔ a.compare b = true ∧ b.compare a = true) ∧
    (b.DeclaresApart [] → (∀ q ∈ a.freeParams, b.Undeclared q) →
      (a.nameless Value.key = b.nameless Value.key ↔ a.compare b = true)) := by
  have hkey : ∀ v w : Value, v.Floatless → w.Floatless → ((v == w) = true ↔ v.key = w.key) :=
    fun v w => Value.same_iff_key
  have hboth : a.nameless Value.key = b.nameless Value.key ↔ a.compare b = true ∧ b.compare a = true :=
    (Tree.agreeUnder_iff (r := []) hkey ha hb).symm
  refine ⟨hboth, fun hapart hfree => hboth.trans ⟨And.left, fun h => ⟨h, ?_⟩⟩⟩
  have hseparated : Tree.Separated [] a.freeParams a b :=
    ⟨(Tree.scoped_freeParams a [] []).2, hapart, List.nodup_nil, fun q hq => ⟨List.not_mem_nil, hfree q hq⟩⟩
  refine Tree.compareUnder_flip (r := []) (fun v w hv hw h => ?_) ha hb hseparated h
  exact (hkey w v hw hv).2 ((hkey v w hv hw).1 h).symm

namespace Renamed

def x : Param := ⟨0, "x", .int⟩

def y : Param := ⟨1, "y", .int⟩

def z : Param := ⟨2, "z", .int⟩

/-- `p => p + z`. -/
def plusFree (p : Param) : Expr := .lambda [p] (.operation .add (.param p) (.param z))

/-- The nodes of `p => p + z`. -/
theorem everywhere {q : Expr → Prop} {p : Param} (hlambda : q (plusFree p))
    (hsum : q (.operation .add (.param p) (.param z))) (hread : ∀ r, q (.param r)) :
    (plusFree p).Everywhere q := by
  have hleaf : ∀ r, (Tree.param r : Expr).Everywhere q := fun r =>
    Tree.everywhere_leaf (hread r) rfl
  refine Tree.everywhere_single hlambda rfl ?_
  refine Tree.everywhere_pair hsum rfl ?_ ?_
  · exact hleaf p
  · exact hleaf z

theorem literals (p : Param) : (plusFree p).Literals Value.Floatless :=
  everywhere (fun v ty h => by cases h) (fun v ty h => by cases h) fun r v ty h => by cases h

theorem undeclared : (plusFree y).Undeclared z := by
  refine everywhere (fun ps b h => ?_) (fun ps b h => by cases h) fun r ps b h => by cases h
  cases h
  decide

theorem apart : (plusFree y).DeclaresApart [] := by
  have hleaf : ∀ q, (Tree.param q : Expr).DeclaresApart [y] := fun q =>
    Tree.declaresApart_iff.2 ⟨show [y].Nodup by decide, fun c hc => by cases hc⟩
  refine Tree.declaresApart_iff.2 ⟨(by decide), fun c hc => ?_⟩
  rw [List.mem_singleton.1 hc]
  refine Tree.declaresApart_iff.2 ⟨(by decide), fun c hc => ?_⟩
  rcases List.mem_cons.1 hc with rfl | hc
  · exact hleaf y
  · rw [List.mem_singleton.1 hc]
    exact hleaf z

end Renamed

/-- `x => x + z` and `y => y + z` are equal up to renaming, and one direction of the comparison finds it;
`x => x + z` and `z => z + z` are not, as the second one does not compare equal to the first. -/
theorem nameless_eq_iff_sum :
    (Renamed.plusFree Renamed.x).nameless Value.key = (Renamed.plusFree Renamed.y).nameless Value.key ∧
    (Renamed.plusFree Renamed.x).compare (Renamed.plusFree Renamed.z) = true ∧
    (Renamed.plusFree Renamed.x).nameless Value.key ≠ (Renamed.plusFree Renamed.z).nameless Value.key := by
  have hfree : ∀ q ∈ (Renamed.plusFree Renamed.x).freeParams, (Renamed.plusFree Renamed.y).Undeclared q := by
    rw [show (Renamed.plusFree Renamed.x).freeParams = [Renamed.z] from rfl]
    rintro q hq
    rw [List.mem_singleton.1 hq]
    exact Renamed.undeclared
  refine ⟨((nameless_eq_iff (Renamed.literals _) (Renamed.literals _)).2 Renamed.apart hfree).2 rfl, rfl,
    fun h => ?_⟩
  have hback := ((nameless_eq_iff (Renamed.literals _) (Renamed.literals _)).1.1 h).2
  exact absurd hback (by decide)

/-- A free parameter of the first tree matches one that the second declares: `x => y` compares equal to
`y => y`, and not the other way round. -/
theorem compare_capturing {x y : Param} (hne : x ≠ y) (hty : x.ty = y.ty) :
    Tree.compare (.lambda [x] (.param y) : Expr) (.lambda [y] (.param y)) = true ∧
      Tree.compare (.lambda [y] (.param y) : Expr) (.lambda [x] (.param y)) = false := by
  simp [Tree.compare, Tree.compareUnder, Renaming.declare, Renaming.relates, hne, hty]

end DualForm
