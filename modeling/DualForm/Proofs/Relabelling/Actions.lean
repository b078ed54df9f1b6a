import DualForm.Proofs.Preservation
import DualForm.Proofs.Relabelling.Trees

/-!
# Actions and the numbers of identities

* `Relabelling` — other numbers for identities, kept apart, and how far the next new number is shifted.
* `Store.Relabelled R s t` — `t` is `s` with other numbers.
* `Act.Equivariant R r x y` — started in stores that differ in their numbers, `x` and `y` end in such stores: both
  fail for the same reason, or the result of `y` is the result of `x` with other numbers, as `r` gives them. New
  identities are numbered in order, so this is asked for where the numbers given out are shifted as a whole.
* `Engine.Respects R E`, `Host.Respects R host` — the answers of an engine, and the code of a host, do not depend
  on numbers.

Principal results: one lemma for each way to combine actions, and for the actions that give out and publish
(`freshId_equivariant`, `publishOnce_equivariant`).
-/

namespace DualForm

variable {α β γ δ : Type}

/-- Other numbers for identities. -/
structure Relabelling where
  map : Nat → Nat
  injective : Function.Injective map
  /-- How far apart the next new identities are. -/
  offset : Nat

/-- From the first number up to the second one the numbers are shifted as a whole. -/
def Relabelling.Shifts (R : Relabelling) (m n : Nat) : Prop := ∀ i, m ≤ i → i < n → R.map i = i + R.offset

theorem Relabelling.Shifts.part {R : Relabelling} {m n m' n' : Nat} (h : R.Shifts m n) (hm : m ≤ m') (hn : n' ≤ n) :
    R.Shifts m' n' := fun i hi hi' => h i (Nat.le_trans hm hi) (Nat.lt_of_lt_of_le hi' hn)

/-- Everything made before the number `n` was given out keeps its number. -/
def Relabelling.Fixes (R : Relabelling) (n : Nat) : Prop := ∀ i, i < n → R.map i = i

theorem Relabelling.Fixes.mono {R : Relabelling} {m n : Nat} (h : R.Fixes n) (hmn : m ≤ n) : R.Fixes m :=
  fun i hi => h i (Nat.lt_of_lt_of_le hi hmn)

/-- Nothing in it was made when the number `n` was still to be given out. -/
def Older (n : Nat) (relabel : (Nat → Nat) → α → α) (a : α) : Prop :=
  ∀ R : Relabelling, R.Fixes n → relabel R.map a = a

/-- The second store is the first one with other numbers. -/
structure Store.Relabelled (R : Relabelling) (s t : Store) : Prop where
  nextId : t.nextId = s.nextId + R.offset
  trees : ∀ id, t.trees[R.map id]? = s.trees[id]?.map (Lambda.relabel R.map)
  functions : ∀ id, t.functions[R.map id]? = s.functions[id]?.map (Func.relabel R.map)
  values : ∀ id, t.values[R.map id]? = s.values[id]?.map (Value.relabel R.map)
  cells : ∀ name : String, t.cells[name]? = s.cells[name]?.map (Value.relabel R.map)
  attempts : ∀ id, t.attempts[R.map id]? = s.attempts[id]?
  log : t.log = s.log

/-- Nothing in the store has a number that is still to be given out. -/
def Store.Known (s : Store) : Prop :=
  ∀ R : Relabelling, R.Fixes s.nextId → s.Relabelled R { s with nextId := s.nextId + R.offset }

namespace Act

/-- The outcomes are the same up to numbers: the same stop, or a result with other numbers. -/
inductive Corresponds (R : Relabelling) (r : α → β) :
    EStateM.Result Stop Store α → EStateM.Result Stop Store β → Prop
  | ok {a : α} {s t : Store} : s.Relabelled R t → Corresponds R r (.ok a s) (.ok (r a) t)
  | error {e : Stop} {s t : Store} : s.Relabelled R t → Corresponds R r (.error e s) (.error e t)

theorem Corresponds.of_ok {R : Relabelling} {r : α → β} {a : α} {s : Store} {z : EStateM.Result Stop Store β}
    (h : Corresponds R r (.ok a s) z) : ∃ t, z = .ok (r a) t ∧ s.Relabelled R t := by
  cases h with
  | ok hst => exact ⟨_, rfl, hst⟩

theorem Corresponds.of_error {R : Relabelling} {r : α → β} {e : Stop} {s : Store}
    {z : EStateM.Result Stop Store β} (h : Corresponds R r (.error e s) z) :
    ∃ t, z = .error e t ∧ s.Relabelled R t := by
  cases h with
  | error hst => exact ⟨_, rfl, hst⟩

/-- The second action does what the first one does, with other numbers. -/
structure Equivariant (R : Relabelling) (r : α → β) (x : Act α) (y : Act β) : Prop where
  /-- No number is given out twice. -/
  grows : ∀ m, x.Keeps fun s => m ≤ s.nextId
  corresponds : ∀ s t, s.Relabelled R t → R.Shifts s.nextId (x.final s).nextId → Corresponds R r (x s) (y t)

namespace Equivariant

variable {R : Relabelling} {r : α → β} {q : γ → δ} {x : Act α} {y : Act β}

theorem le_final (h : Equivariant R r x y) (s : Store) : s.nextId ≤ (x.final s).nextId :=
  (h.grows s.nextId).after s (Nat.le_refl _)

theorem pure {a : α} {b : β} (h : b = r a) : Equivariant R r (Pure.pure a) (Pure.pure b) := by
  subst h
  exact ⟨fun _ => Keeps.pure a, fun _ _ hst _ => .ok hst⟩

theorem fail {e e' : Error} (h : e' = e) : Equivariant R r (Act.fail e) (Act.fail e') := by
  subst h
  exact ⟨fun _ => Keeps.fail e', fun _ _ hst _ => .error hst⟩

theorem exhausted : Equivariant R r (throw .exhausted) (throw .exhausted) :=
  ⟨fun _ => Keeps.exhausted, fun _ _ hst _ => .error hst⟩

theorem lift {a : Except Error α} {b : Except Error β} (h : b = a.map r) :
    Equivariant R r (Act.lift a) (Act.lift b) := by
  subst h
  cases a with
  | error e => exact fail rfl
  | ok a => exact pure rfl

/-- One after the other. -/
theorem bind {f : α → Act γ} {g : β → Act δ} (hx : Equivariant R r x y)
    (hf : ∀ a, Equivariant R q (f a) (g (r a))) : Equivariant R q (x >>= f) (y >>= g) := by
  refine ⟨fun m => (hx.grows m).bind fun a => (hf a).grows m, fun s t hst hshift => ?_⟩
  have hend : (x.final s).nextId ≤ ((x >>= f).final s).nextId := by
    cases h : x s with
    | error e u => exact Nat.le_of_eq (by rw [final_error h, final_error (bind_error h)])
    | ok a u => rw [final_ok h, final_bind_ok h]; exact (hf a).le_final u
  have hfirst := hx.corresponds s t hst (hshift.part (Nat.le_refl _) hend)
  cases h : x s with
  | error e u =>
      obtain ⟨v, h', huv⟩ := (h ▸ hfirst).of_error
      rw [bind_error h, bind_error h']
      exact .error huv
  | ok a u =>
      obtain ⟨v, h', huv⟩ := (h ▸ hfirst).of_ok
      rw [bind_ok h, bind_ok h']
      refine (hf a).corresponds u v huv (hshift.part ?_ ?_)
      · rw [← final_ok h]; exact hx.le_final s
      · exact Nat.le_of_eq (by rw [final_bind_ok h])

/-- One after the other over a list. -/
theorem mapM {f : α → Act γ} {g : β → Act δ} : ∀ l : List α, (∀ a ∈ l, Equivariant R q (f a) (g (r a))) →
    Equivariant R (List.map q) (l.mapM f) ((l.map r).mapM g)
  | [], _ => by rw [List.map_nil, List.mapM_nil, List.mapM_nil]; exact pure rfl
  | a :: l, h => by
      rw [List.map_cons, List.mapM_cons, List.mapM_cons]
      refine (h a (List.mem_cons_self ..)).bind fun b => ?_
      exact (mapM l fun a ha => h a (List.mem_cons_of_mem _ ha)).bind fun bs => pure rfl

end Equivariant

end Act

/-! ## Engines and hosts -/

/-- An argument of a builder with other numbers. -/
def CapturedSource.relabel (ρ : Nat → Nat) : CapturedSource → CapturedSource
  | .value v => .value (Value.relabel ρ v)
  | .accessor f => .accessor (f.relabel ρ)

/-- An argument of a builder with other numbers. -/
def Captured.relabel (ρ : Nat → Nat) (c : Captured) : Captured := { c with source := c.source.relabel ρ }

/-- The answers of the engine do not depend on numbers. -/
structure Engine.Respects (R : Relabelling) (E : Engine) : Prop where
  call : ∀ f args, Act.Equivariant R (Value.relabel R.map) (E.call f args)
    (E.call (f.relabel R.map) (args.map (Value.relabel R.map)))
  tree : ∀ d, Act.Equivariant R (Lambda.relabel R.map) (E.tree d) (E.tree (d.relabel R.map))
  function : ∀ d, Act.Equivariant R (Func.relabel R.map) (E.function d) (E.function (d.relabel R.map))
  rewrite : ∀ pass t, Act.Equivariant R (Tree.relabel R.map) (E.rewrite pass t)
    (E.rewrite pass (t.relabel R.map))

/-- The code of the host does not depend on numbers, on any engine whose answers do not. -/
structure Host.Respects (R : Relabelling) (host : Host) : Prop where
  run : ∀ E, Engine.Respects R E → ∀ self name held args, Act.Equivariant R (Value.relabel R.map)
    (host.run E self name held args)
    (host.run E (R.map self) name (held.map (Value.relabel R.map)) (args.map (Value.relabel R.map)))
  buildTree : ∀ E, Engine.Respects R E → ∀ id args, Act.Equivariant R (Lambda.relabel R.map)
    (host.buildTree E id args) (host.buildTree E id (args.map (Captured.relabel R.map)))
  buildFunction : ∀ E, Engine.Respects R E → ∀ id args, Act.Equivariant R (Func.relabel R.map)
    (host.buildFunction E id args) (host.buildFunction E id (args.map (Captured.relabel R.map)))
  decompile : ∀ E, Engine.Respects R E → ∀ id f, Act.Equivariant R (Lambda.relabel R.map)
    (host.decompile E id f) (host.decompile E id (f.relabel R.map))

/-- The code of the host knows nothing made after the number `n` was given out. -/
def Host.Older (n : Nat) (host : Host) : Prop := ∀ R : Relabelling, R.Fixes n → host.Respects R

/-! ## New identities and publications -/

open Act (Equivariant)

variable {R : Relabelling}

theorem freshId_equivariant : Equivariant R R.map Act.freshId Act.freshId := by
  refine ⟨fun m => ⟨fun s hs => Nat.le_succ_of_le hs⟩, fun s t hst hshift => ?_⟩
  have hnext : t.nextId = R.map s.nextId := by
    rw [hst.nextId, hshift s.nextId (Nat.le_refl _) (Nat.lt_succ_self _)]
  have hrun : Act.freshId t = .ok (R.map s.nextId) { t with nextId := t.nextId + 1 } := by
    rw [← hnext]
    rfl
  rw [hrun]
  refine .ok { hst with nextId := ?_ }
  show t.nextId + 1 = s.nextId + 1 + R.offset
  rw [hst.nextId]
  omega

theorem newFunc_equivariant (arity : Nat) (code : Code) : Equivariant R (Func.relabel R.map)
    (Act.newFunc arity code) (Act.newFunc arity (code.relabel R.map)) :=
  freshId_equivariant.bind fun _ => .pure rfl

theorem newRecord_equivariant (declaring : DeclaringType) (fields : List (String × Value)) :
    Equivariant R (Value.relabel R.map) (Act.newRecord declaring fields)
      (Act.newRecord declaring (Value.relabelFields R.map fields)) :=
  freshId_equivariant.bind fun _ => .pure rfl

/-- Places of two stores that hold the same up to numbers, and are written alike. -/
structure Slot.Relabelled (R : Relabelling) (r : α → β) (slot : Slot α) (slot' : Slot β) : Prop where
  read : ∀ s t, s.Relabelled R t → slot'.read t = (slot.read s).map r
  write : ∀ a s t, s.Relabelled R t → (slot.write a s).Relabelled R (slot'.write (r a) t)
  nextId : ∀ a s, (slot.write a s).nextId = s.nextId

/-- Publishing gives out no numbers. -/
theorem publishOnce_nextId {slot : Slot α} {x : Act α} {s : Store} (hs : slot.read s = none)
    (hwrite : ∀ a u, (slot.write a u).nextId = u.nextId) :
    ((Act.publishOnce slot x).final s).nextId = (x.final s).nextId := by
  cases hx : x s with
  | error e u => rw [Act.final_error hx, Act.final_error (publishOnce_failed hs hx)]
  | ok a u =>
      rw [Act.final_ok hx]
      cases hu : slot.read u with
      | some b => rw [Act.final_ok (publishOnce_late hs hx hu)]
      | none => rw [Act.final_ok (publishOnce_first hs hx hu), hwrite]

theorem publishOnce_equivariant {r : α → β} {slot : Slot α} {slot' : Slot β} {x : Act α} {y : Act β}
    (hslot : slot.Relabelled R r slot') (h : Equivariant R r x y) :
    Equivariant R r (Act.publishOnce slot x) (Act.publishOnce slot' y) := by
  refine ⟨fun m => publishOnce_keeps (fun s a _ hs => by rw [hslot.nextId]; exact hs) (h.grows m),
    fun s t hst hshift => ?_⟩
  have hread := hslot.read s t hst
  cases hs : slot.read s with
  | some a =>
      rw [hs] at hread
      rw [publishOnce_found hs, publishOnce_found hread]
      exact .ok hst
  | none =>
      rw [hs] at hread
      have hcorresponds := h.corresponds s t hst (publishOnce_nextId hs hslot.nextId ▸ hshift)
      cases hx : x s with
      | error e u =>
          obtain ⟨v, hy, huv⟩ := (hx ▸ hcorresponds).of_error
          rw [publishOnce_failed hs hx, publishOnce_failed hread hy]
          exact .error huv
      | ok a u =>
          obtain ⟨v, hy, huv⟩ := (hx ▸ hcorresponds).of_ok
          have hlate := hslot.read u v huv
          -- Somebody else may have published first, and then did so on both sides.
          cases hu : slot.read u with
          | some b =>
              rw [hu] at hlate
              rw [publishOnce_late hs hx hu, publishOnce_late hread hy hlate]
              exact .ok huv
          | none =>
              rw [hu] at hlate
              rw [publishOnce_first hs hx hu, publishOnce_first hread hy hlate]
              exact .ok (hslot.write a u v huv)

theorem tree_relabelled (d : Dual) :
    Slot.Relabelled R (Lambda.relabel R.map) (.tree d) (.tree (d.relabel R.map)) where
  read s t hst := by
    show t.trees[(d.relabel R.map).id]? = _
    rw [Dual.relabel_id, hst.trees]
    rfl
  write l s t hst := { hst with
    trees := fun id => by
      rw [trees_write, trees_write, Dual.relabel_id, hst.trees]
      by_cases h : d.id = id
      · simp [h]
      · rw [if_neg h, if_neg fun hr => h (R.injective hr)] }
  nextId _ _ := rfl

theorem function_relabelled (d : Dual) :
    Slot.Relabelled R (Func.relabel R.map) (.function d) (.function (d.relabel R.map)) where
  read s t hst := by
    show t.functions[(d.relabel R.map).id]? = _
    rw [Dual.relabel_id, hst.functions]
    rfl
  write f s t hst := { hst with
    functions := fun id => by
      rw [functions_write, functions_write, Dual.relabel_id, hst.functions]
      by_cases h : d.id = id
      · simp [h]
      · rw [if_neg h, if_neg fun hr => h (R.injective hr)] }
  nextId _ _ := rfl

/-! ## What an action leaves behind -/

/-- No other numbers. -/
def Relabelling.identity : Relabelling := ⟨id, Function.injective_id, 0⟩

/-- What an action returns and leaves behind was made before the next number is given out, if it depends on nothing
made later than it is started. -/
theorem Store.Known.run {f : (Nat → Nat) → α → α} {x : Act α} {s : Store} (hs : s.Known)
    (hx : ∀ R : Relabelling, R.Fixes s.nextId → Equivariant R (f R.map) x x) :
    (x.final s).Known ∧ ∀ a u, x s = .ok a u → Older u.nextId f a := by
  have hgrows : s.nextId ≤ (x.final s).nextId := (hx .identity fun _ _ => rfl).le_final s
  -- Numbers that have not been given out in the end can be replaced on both sides.
  have hself : ∀ R : Relabelling, R.Fixes (x.final s).nextId →
      Act.Corresponds { R with offset := 0 } (f R.map) (x s) (x s) := fun R hR =>
    (hx { R with offset := 0 } (hR.mono hgrows)).corresponds s s (hs { R with offset := 0 } (hR.mono hgrows))
      fun i _ hi => hR i hi
  cases h : x s with
  | ok a u =>
      rw [Act.final_ok h, h] at hself
      rw [Act.final_ok h]
      refine ⟨fun R hR => ?_, ?_⟩
      · obtain ⟨v, hv, huv⟩ := (hself R hR).of_ok
        obtain ⟨-, rfl⟩ := EStateM.Result.ok.inj hv
        exact { huv with nextId := rfl }
      · rintro _ _ ⟨⟩ R hR
        obtain ⟨v, hv, -⟩ := (hself R hR).of_ok
        exact (EStateM.Result.ok.inj hv).1.symm
  | error e u =>
      rw [Act.final_error h, h] at hself
      rw [Act.final_error h]
      refine ⟨fun R hR => ?_, fun a u hu => by cases hu⟩
      obtain ⟨v, hv, huv⟩ := (hself R hR).of_error
      obtain ⟨-, rfl⟩ := EStateM.Result.error.inj hv
      exact { huv with nextId := rfl }

end DualForm
