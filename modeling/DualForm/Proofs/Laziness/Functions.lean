import DualForm.Proofs.Dual.History
import DualForm.Proofs.Ending
import DualForm.Proofs.Preservation

/-!
# Requests for function forms never fail

* `machineAsking host ask` — the machine that answers requests for tree forms by `ask`.
* `Origin.Made`, `Origin.parts`, `Origin.code` — origins whose function form is made of those of other
  duals, these duals, and what it does.
* `Pedigree D`, `FunctionForms D s` — the duals with `D` are made of each other, each of older ones; what is
  published of them in `s` are their function forms.
* `Grown D s t` — `t` is a later store than `s`; `Idle s t` — one in which no form has been published since.
* `Sure F x s a t` — on the engines of `F`, `x` leads from `s` to the result `a` and to `t`, or
  exhausts its steps.

Principal result: `function_sure` — a request for the function form of a dual with a pedigree returns one,
whatever has been published before, and leaves tree forms alone.
-/

namespace DualForm

variable {host : Host} {ask : Engine → Dual → Act Lam} {E : Engine} {D D' : Dual → Prop} {s t u : Store}
  {d e : Dual} {f g : Func}

/-! ## Ways to answer requests for tree forms -/

/-- The engine that allows `n` nested steps and answers requests for tree forms by `ask`. -/
def machineAsking (host : Host) (ask : Engine → Dual → Act Lam) : Nat → Engine
  | 0 => .exhausted
  | n + 1 =>
      { call := fun f args s => f.apply host (machineAsking host ask n) args s
        tree := fun d s => ask (machineAsking host ask n) d s
        function := fun d s => d.forceFunction host (machineAsking host ask n) s
        rewrite := fun pass t s => pass.run (machineAsking host ask n) t s }

theorem machineAsking_forceTree :
    ∀ n, machineAsking host (fun E d => d.forceTree host E) n = machine host n
  | 0 => rfl
  | n + 1 => by
      unfold machineAsking
      rw [machineAsking_forceTree n]
      rfl

/-! ## Function forms made of others -/

namespace Origin

/-- The function form is a new function. -/
def Made : Origin → Prop
  | .compiled _ | .bound .. | .hosted .. => False
  | _ => True

/-- The duals whose function forms are asked for, in this order. -/
def parts : Origin → List Dual
  | .composed outer inner => [inner, outer]
  | .precomposed outer _ => [outer]
  | .postcomposed inner _ => [inner]
  | .conjunction lhs rhs | .disjunction lhs rhs => [lhs, rhs]
  | .negation predicate => [predicate]
  | _ => []

/-- What the function form does, given the function forms of the parts. -/
def code : Origin → List Func → Code
  | .lambda l, _ => .closure l []
  | .composed .., [f, g] => .chain f g
  | .precomposed _ c, [g] => .chain c.func g
  | .postcomposed _ c, [f] => .chain f c.func
  | .conjunction .., [f, g] => .conjunction f g
  | .disjunction .., [f, g] => .disjunction f g
  | .negation _, [f] => .negation f
  | _, _ => .host "" []

/-- Number of arguments of the function form. -/
def arity : Origin → Nat
  | .lambda l => l.arity
  | _ => 1

end Origin

/-- The function forms of the parts, then a new function. -/
theorem initialFunction_made (h : d.origin.Made) : d.initialFunction host E = (do
    let fs ← d.origin.parts.mapM E.function
    Act.newFunc d.origin.arity (d.origin.code fs)) := by
  unfold Dual.initialFunction
  cases ho : d.origin with
  | compiled c => rw [ho] at h; exact h.elim
  | bound => rw [ho] at h; exact h.elim
  | hosted => rw [ho] at h; exact h.elim
  | lambda | composed | precomposed | postcomposed | conjunction | disjunction | negation =>
      simp [Origin.parts, Origin.code, Origin.arity, compile]

/-- In this store the function may be the form of the dual. -/
inductive Dual.FormIn (s : Store) (d : Dual) : Func → Prop
  | compiled {c : Compiled} : d.origin = .compiled c → d.FormIn s c.func
  | made {f : Func} {fs : List Func} : d.origin.Made → f.id < s.nextId → f.arity = d.origin.arity →
      List.Forall₂ (fun p g => s.functions[p.id]? = some g) d.origin.parts fs →
      f.code = d.origin.code fs → d.FormIn s f

/-- The duals with `D` are made of each other, each of older ones, or of functions. -/
structure Pedigree (D : Dual → Prop) : Prop where
  part : ∀ {d p : Dual}, D d → p ∈ d.origin.parts → D p ∧ p.id < d.id
  unique : ∀ {d e : Dual}, D d → D e → d.id = e.id → d = e
  kind : ∀ {d : Dual}, D d → d.origin.Made ∨ ∃ c, d.origin = .compiled c

/-- What is published of the duals with `D` are their function forms, and those that have been made
have identities of their own. -/
structure FunctionForms (D : Dual → Prop) (s : Store) : Prop where
  fresh : Fresh s
  older : ∀ {d : Dual}, D d → d.id < s.nextId
  form : ∀ {d : Dual} {f : Func}, D d → s.functions[d.id]? = some f → d.FormIn s f
  apart : ∀ {d e : Dual} {f g : Func}, D d → D e → d.origin.Made → e.origin.Made → s.functions[d.id]? = some f →
    s.functions[e.id]? = some g → f.id = g.id → d = e

/-- A later store: published function forms are still there, and the function forms made meanwhile for
duals with `D` are new. -/
structure Grown (D : Dual → Prop) (s t : Store) : Prop where
  nextId : s.nextId ≤ t.nextId
  functions : ∀ {id : Nat} {f : Func}, s.functions[id]? = some f → t.functions[id]? = some f
  made : ∀ {d : Dual} {f : Func}, D d → d.origin.Made → t.functions[d.id]? = some f →
    s.functions[d.id]? = some f ∨ s.nextId ≤ f.id

/-- No form has been published meanwhile. -/
structure Idle (s t : Store) : Prop where
  trees : t.trees = s.trees
  functions : t.functions = s.functions
  nextId : s.nextId ≤ t.nextId

theorem Idle.refl (s : Store) : Idle s s := ⟨rfl, rfl, Nat.le_refl _⟩

theorem Idle.identity (s : Store) : Idle s { s with nextId := s.nextId + 1 } := ⟨rfl, rfl, Nat.le_succ _⟩

theorem Dual.FormIn.later (h : d.FormIn s f) (hid : s.nextId ≤ t.nextId)
    (hfunctions : ∀ {id : Nat} {g : Func}, s.functions[id]? = some g → t.functions[id]? = some g) :
    d.FormIn t f := by
  cases h with
  | compiled ho => exact .compiled ho
  | made ho hlt harity hparts hcode =>
      exact .made ho (Nat.lt_of_lt_of_le hlt hid) harity (hparts.imp fun _ _ h => hfunctions h) hcode

namespace Grown

theorem refl (s : Store) : Grown D s s := ⟨Nat.le_refl _, id, fun _ _ h => .inl h⟩

theorem trans (hst : Grown D s t) (htu : Grown D' t u) (h : ∀ d, D d → D' d) : Grown D s u where
  nextId := Nat.le_trans hst.nextId htu.nextId
  functions hf := htu.functions (hst.functions hf)
  made hd ho hf := by
    rcases htu.made (h _ hd) ho hf with ht | hid
    · exact hst.made hd ho ht
    · exact .inr (Nat.le_trans hst.nextId hid)

theorem mono (h : Grown D' s t) (hD : ∀ d, D d → D' d) : Grown D s t :=
  ⟨h.nextId, h.functions, fun hd => h.made (hD _ hd)⟩

theorem idle (h : Idle s t) : Grown D s t where
  nextId := h.nextId
  functions hf := by rw [h.functions]; exact hf
  made _ _ hf := by rw [h.functions] at hf; exact .inl hf

end Grown

namespace FunctionForms

theorem mono (h : FunctionForms D' s) (hD : ∀ d, D d → D' d) : FunctionForms D s :=
  ⟨h.fresh, fun hd => h.older (hD _ hd), fun hd => h.form (hD _ hd),
    fun hd he => h.apart (hD _ hd) (hD _ he)⟩

theorem idle (h : FunctionForms D s) (ht : Idle s t) : FunctionForms D t where
  fresh := by
    refine ⟨fun id hid => ?_, fun id hid => ?_⟩
    · rw [ht.trees]
      exact h.fresh.trees id (Nat.le_trans ht.nextId hid)
    · rw [ht.functions]
      exact h.fresh.functions id (Nat.le_trans ht.nextId hid)
  older hd := Nat.lt_of_lt_of_le (h.older hd) ht.nextId
  form hd hf := by
    rw [ht.functions] at hf
    exact (h.form hd hf).later ht.nextId fun hg => by rw [ht.functions]; exact hg
  apart hd he hmd hme hf hg := by
    rw [ht.functions] at hf hg
    exact h.apart hd he hmd hme hf hg

/-- Tree forms of older duals do not matter here. -/
theorem writeTree (h : FunctionForms D s) (hd : D d) (l : Lam) : FunctionForms D ((Slot.tree d).write l s) where
  fresh := by
    refine ⟨fun id hid => ?_, h.fresh.functions⟩
    have hne : d.id ≠ id := Nat.ne_of_lt (Nat.lt_of_lt_of_le (h.older hd) hid)
    rw [trees_write, if_neg hne]
    exact h.fresh.trees id hid
  older := h.older
  form he hf := (h.form he hf).later (Nat.le_refl _) id
  apart := h.apart

/-- A function form is published; if it has been made, its identity is that of no other one. -/
theorem writeFunction (hD : Pedigree D) (h : FunctionForms D s) (hd : D d) (hempty : s.functions[d.id]? = none)
    (hf : d.FormIn s f) (hnew : d.origin.Made → ∀ e g, D e → e.origin.Made →
      s.functions[e.id]? = some g → g.id ≠ f.id) : FunctionForms D ((Slot.function d).write f s) := by
  have hread : ∀ {e g}, D e → ((Slot.function d).write f s).functions[e.id]? = some g →
      (e = d ∧ g = f) ∨ s.functions[e.id]? = some g := by
    intro e g he hg
    rw [functions_write] at hg
    split at hg
    · rename_i hid
      cases hg
      exact .inl ⟨(hD.unique hd he hid).symm, rfl⟩
    · exact .inr hg
  have hlater : ∀ {id : Nat} {g : Func}, s.functions[id]? = some g →
      ((Slot.function d).write f s).functions[id]? = some g := by
    intro id g hg
    have hne : d.id ≠ id := fun hid => by rw [hid, hg] at hempty; cases hempty
    rw [functions_write, if_neg hne]
    exact hg
  refine ⟨⟨h.fresh.trees, fun id hid => ?_⟩, h.older, fun he hg => ?_, ?_⟩
  · have hne : d.id ≠ id := Nat.ne_of_lt (Nat.lt_of_lt_of_le (h.older hd) hid)
    rw [functions_write, if_neg hne]
    exact h.fresh.functions id hid
  · rcases hread he hg with ⟨rfl, rfl⟩ | hg
    · exact hf.later (Nat.le_refl _) hlater
    · exact (h.form he hg).later (Nat.le_refl _) hlater
  · intro a b fa fb ha hb hma hmb hfa hfb hid
    rcases hread ha hfa with ⟨rfl, rfl⟩ | hoa
    · rcases hread hb hfb with ⟨rfl, _⟩ | hob
      · rfl
      · exact absurd hid.symm (hnew hma b fb hb hmb hob)
    · rcases hread hb hfb with ⟨rfl, rfl⟩ | hob
      · exact absurd hid (hnew hmb a fa ha hma hoa)
      · exact h.apart ha hb hma hmb hoa hob hid

/-- Identities of function forms that have been made have been given out. -/
theorem made_older (h : FunctionForms D s) (hd : D d) (ho : d.origin.Made) (hf : s.functions[d.id]? = some f) :
    f.id < s.nextId := by
  cases h.form hd hf with
  | compiled hc => rw [hc] at ho; exact ho.elim
  | made _ hlt => exact hlt

end FunctionForms

/-! ## Requests for function forms -/

section Requests

variable {α β : Type} {F : Nat → Engine} {x : Engine → Act α} {k : Engine → α → Act β} {a : α} {b : β}

/-- On the engines of the family, the action leads to this result and store or exhausts its steps; it does
so on few of them. -/
structure Sure (F : Nat → Engine) (x : Engine → Act α) (s : Store) (a : α) (t : Store) : Prop where
  only : ∀ n, x (F n) s = .ok a t ∨ ∃ v, x (F n) s = .error .exhausted v
  lands : Lands F x s (.ok a t)

namespace Sure

theorem pure (a : α) (s : Store) : Sure F (fun _ => Pure.pure a) s a s := ⟨fun _ => .inl rfl, .pure a s⟩

theorem newFunc (arity : Nat) (code : Code) (s : Store) :
    Sure F (fun _ => Act.newFunc arity code) s ⟨s.nextId, arity, code⟩ { s with nextId := s.nextId + 1 } :=
  ⟨fun _ => .inl rfl, 0, fun _ _ => rfl⟩

theorem bind (hx : Sure F x s a t) (hk : Sure F (fun E => k E a) t b u) :
    Sure F (fun E => x E >>= k E) s b u := by
  refine ⟨fun n => ?_, hx.lands.bind_ok hk.lands⟩
  rcases hx.only n with h | ⟨v, h⟩
  · rw [Act.bind_ok h]
    exact hk.only n
  · exact .inr ⟨v, Act.bind_error h⟩

/-- The value found meanwhile, or else the one computed, is published. -/
theorem publishOnce {slot : Slot α} (hs : slot.read s = none) (hx : Sure F x s a t) :
    (∀ b, slot.read t = some b → Sure F (fun E => Act.publishOnce slot (x E)) s b t) ∧
    (slot.read t = none → Sure F (fun E => Act.publishOnce slot (x E)) s a (slot.write a t)) := by
  obtain ⟨N, hN⟩ := hx.lands
  refine ⟨fun b hb => ⟨fun n => ?_, N, fun n hn => publishOnce_late hs (hN n hn) hb⟩,
    fun ht => ⟨fun n => ?_, N, fun n hn => publishOnce_first hs (hN n hn) ht⟩⟩
  · rcases hx.only n with h | ⟨v, h⟩
    · exact .inl (publishOnce_late hs h hb)
    · exact .inr ⟨v, publishOnce_failed hs h⟩
  · rcases hx.only n with h | ⟨v, h⟩
    · exact .inl (publishOnce_first hs h ht)
    · exact .inr ⟨v, publishOnce_failed hs h⟩

end Sure

/-- The function form is published in `t`, and nothing else has happened since `s` but publications of
function forms of duals with `D`. -/
structure Obtained (D : Dual → Prop) (s t : Store) : Prop where
  forms : FunctionForms D t
  grown : Grown D s t
  trees : t.trees = s.trees

/-- Requests for the function forms of several duals, if there is an answer to each of them. -/
theorem parts_sure {ps : List Dual} (h : ∀ p ∈ ps, ∀ s, FunctionForms D s → ∃ f t,
      Sure F (fun E => E.function p) s f t ∧ Obtained D s t ∧ t.functions[p.id]? = some f) :
    ∀ s, FunctionForms D s → ∃ fs t, Sure F (fun E => ps.mapM E.function) s fs t ∧ Obtained D s t ∧
      List.Forall₂ (fun p g => t.functions[p.id]? = some g) ps fs := by
  induction ps with
  | nil => exact fun s hs => ⟨[], s, by simpa using Sure.pure [] s, ⟨hs, .refl s, rfl⟩, .nil⟩
  | cons p ps ih =>
      intro s hs
      obtain ⟨f, t, hf, ht, hpub⟩ := h p (List.mem_cons_self ..) s hs
      obtain ⟨fs, u, hfs, hu, hpubs⟩ := ih (fun q hq => h q (List.mem_cons_of_mem _ hq)) t ht.forms
      refine ⟨f :: fs, u, ?_, ⟨hu.forms, ht.grown.trans hu.grown fun _ h => h, hu.trees.trans ht.trees⟩,
        .cons (hu.grown.functions hpub) hpubs⟩
      simp only [List.mapM_cons]
      exact hf.bind (hfs.bind (Sure.pure (f :: fs) u))

/-- **A request for the function form of a dual with a pedigree returns one,** whatever has been published
before. -/
theorem function_sure (hD : Pedigree D) : ∀ (d : Dual) (s : Store), D d → FunctionForms D s → ∃ f t,
    Sure (machineAsking host ask) (fun E => E.function d) s f t ∧ Obtained D s t ∧
      t.functions[d.id]? = some f := by
  intro d
  induction hid : d.id using Nat.strongRecOn generalizing d with
  | _ id ih =>
  subst hid
  intro s hd hs
  have hstep : ∀ {f t}, Sure (machineAsking host ask) (fun E => d.forceFunction host E) s f t →
      Sure (machineAsking host ask) (fun E => E.function d) s f t := fun {f t} h => by
    refine ⟨fun n => ?_, h.lands.step fun n => rfl⟩
    cases n with
    | zero => exact .inr ⟨s, rfl⟩
    | succ n => exact h.only n
  cases hfound : s.functions[d.id]? with
  | some f =>
      have hforced : Sure (machineAsking host ask) (fun E => d.forceFunction host E) s f s :=
        ⟨fun n => .inl (publishOnce_found hfound), 0, fun n _ => publishOnce_found hfound⟩
      exact ⟨f, s, hstep hforced, ⟨hs, .refl s, rfl⟩, hfound⟩
  | none =>
      have hunread : (Slot.function d).read s = none := hfound
      -- what is published now, if nothing has been published meanwhile
      have hwrite : ∀ {f : Func} {t : Store}, Obtained D s t → d.FormIn t f → t.functions[d.id]? = none →
          (d.origin.Made → s.nextId ≤ f.id ∧ ∀ e g, D e → e.origin.Made → t.functions[e.id]? = some g →
            g.id ≠ f.id) → Obtained D s ((Slot.function d).write f t) ∧
          ((Slot.function d).write f t).functions[d.id]? = some f := by
        intro f t ht hf hempty hnew
        have hself : ((Slot.function d).write f t).functions[d.id]? = some f := by
          rw [functions_write, if_pos rfl]
        refine ⟨⟨ht.forms.writeFunction hD hd hempty hf fun ho => (hnew ho).2, ⟨ht.grown.nextId, ?_, ?_⟩,
          ht.trees⟩, hself⟩
        · intro id g hg
          have hg := ht.grown.functions hg
          have hne : d.id ≠ id := fun h => by rw [h, hg] at hempty; cases hempty
          rw [functions_write, if_neg hne]
          exact hg
        · intro e g he ho hg
          rw [functions_write] at hg
          split at hg
          · rename_i hid
            obtain rfl := hD.unique hd he hid
            cases hg
            exact .inr (hnew ho).1
          · exact ht.grown.made he ho hg
      rcases hD.kind hd with ho | ⟨c, hc⟩
      · obtain ⟨fs, t, hfs, ht, hpubs⟩ := parts_sure (fun p hp s hs => by
          obtain ⟨hDp, hlt⟩ := hD.part hd hp
          exact ih p.id hlt p rfl s hDp hs) s hs
        have hinit : Sure (machineAsking host ask) (fun E => d.initialFunction host E) s
            ⟨t.nextId, d.origin.arity, d.origin.code fs⟩ { t with nextId := t.nextId + 1 } := by
          simp only [initialFunction_made ho]
          exact hfs.bind (Sure.newFunc ..)
        have hbump : Obtained D s { t with nextId := t.nextId + 1 } :=
          ⟨ht.forms.idle (.identity t), ht.grown.trans (.idle (.identity t)) fun _ h => h, ht.trees⟩
        obtain ⟨hlate, hfirst⟩ := hinit.publishOnce hunread
        cases hagain : t.functions[d.id]? with
        | some first => exact ⟨first, _, hstep (hlate first hagain), hbump, hagain⟩
        | none =>
            obtain ⟨hobtained, hself⟩ := hwrite (f := ⟨t.nextId, d.origin.arity, d.origin.code fs⟩) hbump
              (.made ho (Nat.lt_succ_self _) rfl hpubs rfl) hagain fun _ =>
                ⟨ht.grown.nextId, fun e g he hoe hg => Nat.ne_of_lt (ht.forms.made_older he hoe hg)⟩
            exact ⟨_, _, hstep (hfirst hagain), hobtained, hself⟩
      · have hinit : Sure (machineAsking host ask) (fun E => d.initialFunction host E) s c.func s := by
          unfold Dual.initialFunction
          rw [hc]
          exact Sure.pure c.func s
        obtain ⟨_, hfirst⟩ := hinit.publishOnce hunread
        obtain ⟨hobtained, hself⟩ := hwrite ⟨hs, .refl s, rfl⟩ (.compiled hc) hfound fun ho => by
          rw [hc] at ho; exact ho.elim
        exact ⟨_, _, hstep (hfirst hfound), hobtained, hself⟩

end Requests

end DualForm
