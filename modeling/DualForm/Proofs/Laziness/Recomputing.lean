import DualForm.Proofs.Laziness.Machines

/-!
# Published trees are what would be computed now

* `Act.peek x` — the result of `x`, in the store before it.
* `recomputing host` — the machine that computes tree forms anew for every request, and publishes none.
* `Yields host l d s` — with enough nested steps, it answers the request for the tree form of `d` in `s` by `l`.
* `Current host G a W` — the tree forms published on this side are those it would answer by now.

Principal results: `Yields.across` and `Yields.later` — what it answers does not depend on what has been
published; `machine_mirrors`, `recomputing_mirrors` — where published tree forms are current, the
machine and the recomputing one mirror each other, and they stay current.
-/

namespace DualForm

variable {α : Type} {G : Ground} {V W : World} {host : Host} {E : Engine} {d e : Dual} {l : Lam} {s t : Store}
  {a : Side} {n : Nat}

/-! ## Computing tree forms anew -/

/-- The result of an action, in the store before it. -/
def Act.peek (x : Act α) : Act α := fun s =>
  match x s with
  | .ok a _ => .ok a s
  | .error e _ => .error e s

theorem peek_ok {x : Act α} {r : α} (h : x s = .ok r t) : Act.peek x s = .ok r s := by
  unfold Act.peek
  rw [h]

theorem peek_error {x : Act α} {e : Stop} (h : x s = .error e t) : Act.peek x s = .error e s := by
  unfold Act.peek
  rw [h]

theorem peek_store {x : Act α} {r : α} (h : Act.peek x s = .ok r t) : t = s := by
  unfold Act.peek at h
  cases hx : x s with
  | ok b u =>
      rw [hx] at h
      cases h
      rfl
  | error e u =>
      rw [hx] at h
      cases h

/-- The machine that computes tree forms anew for every request. -/
def recomputing (host : Host) : Nat → Engine := machineAsking host fun E d => Act.peek (d.initialTree host E)

/-- Any world. -/
def Always (_ : World) : Prop := True

theorem peek_mirrors {F : Nat → Engine} {p : α → Prop} {x : Act α} {y : Engine → Act α}
    (h : Mirrors G Always F (Same p) W x y) :
    Mirrors G Always F (Same p) W (Act.peek x) fun E => Act.peek (y E) := by
  intro hW hX
  have hx := h hW hX
  cases hleft : x W.left with
  | error e t =>
      rw [peek_error hleft]
      rw [hleft] at hx
      cases e with
      | exhausted => trivial
      | failed e =>
          obtain ⟨V, _, _, _, _, N, hN⟩ := hx
          exact ⟨W, le_refl W, hW, hX, rfl, N, fun n hn => peek_error (hN n hn)⟩
  | ok r t =>
      rw [peek_ok hleft]
      rw [hleft] at hx
      obtain ⟨V, b, _, _, _, _, ⟨N, hN⟩, hab⟩ := hx
      exact ⟨W, b, le_refl W, hW, hX, rfl, ⟨N, fun n hn => peek_ok (hN n hn)⟩, hab⟩

theorem recomputing_alike (hhost : host.Uniform G.routines) :
    ∀ n, (recomputing host n).Mirrors G Always (recomputing host) :=
  machineAsking_mirrors hhost (fun _ _ _ _ _ _ _ => trivial)
    fun _ hE _ _ _ hde => peek_mirrors (initialTree_mirrors hE hde)

/-- With enough nested steps, the recomputing machine answers the request for this tree form like this. -/
def Yields (host : Host) (l : Lam) (d : Dual) (s : Store) : Prop :=
  Lands (recomputing host) (fun E => Act.peek (d.initialTree host E)) s (.ok l s)

theorem Yields.of_peek
    (h : Lands (recomputing host) (fun E => Act.peek (d.initialTree host E)) s (.ok l t)) :
    Yields host l d s := by
  obtain ⟨N, hN⟩ := h
  obtain rfl := peek_store (hN N (Nat.le_refl N))
  exact ⟨N, hN⟩

theorem Yields.of_initialTree
    (h : Lands (recomputing host) (fun E => d.initialTree host E) s (.ok l t)) :
    Yields host l d s := by
  obtain ⟨N, hN⟩ := h
  exact ⟨N, fun n hn => peek_ok (hN n hn)⟩

theorem Yields.unique {k : Lam} (h : Yields host l d s) (hk : Yields host k d s) : l = k := by
  have heq := Lands.unique h hk
  cases heq
  rfl

/-- What the recomputing machine answers with some nested steps it answers with enough of them, and on any
side. -/
theorem recomputed (hhost : host.Uniform G.routines) (hW : W.Sound G) (hde : W.duals d e) (a b : Side)
    (n : Nat) : Answered G Always (recomputing host) (SameLambda G) (W.seen a b)
      (fun E => Act.peek ((b.of d e).initialTree host E))
      (Act.peek ((a.of d e).initialTree host (recomputing host n)) (W.store a)) := by
  have hseen : (W.seen a b).duals (a.of d e) (b.of d e) := ⟨d, e, hde, rfl, rfl⟩
  exact peek_mirrors (initialTree_mirrors (recomputing_alike hhost n) hseen) (hW.seen a b) trivial

theorem recomputed_tree (hhost : host.Uniform G.routines) (hW : W.Sound G) (hde : W.duals d e) (a b : Side)
    (h : Act.peek ((a.of d e).initialTree host (recomputing host n)) (W.store a) = .ok l t) :
    l.body.Given G ∧ Yields host l (b.of d e) (W.store b) := by
  have hanswer := recomputed hhost hW hde a b n
  rw [h] at hanswer
  obtain ⟨V, k, _, _, _, _, hlands, rfl, hgiven⟩ := hanswer
  exact ⟨hgiven, .of_peek hlands⟩

theorem recomputed_error (hhost : host.Uniform G.routines) (hW : W.Sound G) (hde : W.duals d e) (a b : Side)
    {z : Error} (h : Act.peek ((a.of d e).initialTree host (recomputing host n)) (W.store a) =
      .error (.failed z) t) : ¬ Yields host l (b.of d e) (W.store b) := by
  intro hl
  have hanswer := recomputed hhost hW hde a b n
  rw [h] at hanswer
  obtain ⟨V, _, _, _, _, hlands⟩ := hanswer
  have heq := Lands.unique hlands hl
  cases heq

/-- **The recomputing machine answers alike on both sides.** -/
theorem Yields.across (hhost : host.Uniform G.routines) (hW : W.Sound G) (hde : W.duals d e) (a b : Side)
    (h : Yields host l (a.of d e) (W.store a)) : Yields host l (b.of d e) (W.store b) := by
  obtain ⟨N, hN⟩ := h
  exact (recomputed_tree hhost hW hde a b (hN N (Nat.le_refl N))).2

/-- A store beside a later one. -/
theorem World.Sound.beside (hV : V.Sound G) (hW : W.Sound G) (h : V ≤ W) (a : Side) :
    ∃ U : World, U.Sound G ∧ U.left = V.store a ∧ U.right = W.store a ∧
      ∀ {d e}, V.duals d e → U.duals (a.of d e) (a.of d e) := by
  have hsame : ∀ b : Side, b.of a a = a := fun b => by cases b <;> rfl
  have hknown : (V.seen a a).known .right = V.known a := by rw [World.seen_known, hsame]
  have hforms : FunctionForms ((V.seen a a).known .right) (W.store a) := by
    rw [hknown]
    exact (hW.forms a).mono (h.known a)
  have hgrown : Grown ((V.seen a a).known .right) ((V.seen a a).store .right) (W.store a) := by
    rw [hknown]
    exact h.grown a
  exact ⟨_, ((hV.seen a a).move hforms hgrown).1, rfl, rfl, fun hde => ⟨_, _, hde, rfl, rfl⟩⟩

/-- **And it answers alike whatever has been published meanwhile.** -/
theorem Yields.later (hhost : host.Uniform G.routines) (hV : V.Sound G) (hW : W.Sound G) (h : V ≤ W)
    (hde : V.duals d e) (a : Side) :
    Yields host l (a.of d e) (V.store a) ↔ Yields host l (a.of d e) (W.store a) := by
  obtain ⟨U, hU, hleft, hright, hduals⟩ := hV.beside hW h a
  have hforth := Yields.across (l := l) hhost hU (hduals hde) .left .right
  have hback := Yields.across (l := l) hhost hU (hduals hde) .right .left
  unfold World.store at hforth hback
  dsimp only [Side.of] at hforth hback
  rw [hleft, hright] at hforth hback
  exact ⟨hforth, hback⟩

/-! ## Published tree forms -/

/-- The tree forms published on this side are those the recomputing machine answers by now. -/
def Current (host : Host) (G : Ground) (a : Side) (W : World) : Prop :=
  ∀ {d e l}, W.duals d e → (W.store a).trees[(a.of d e).id]? = some l →
    l.body.Given G ∧ Yields host l (a.of d e) (W.store a)

namespace Current

theorem durable (hhost : host.Uniform G.routines) (a : Side) : Durable G (Current host G a) := by
  intro V W hV hW h hquiet hX d e l hde hl
  rw [hquiet.trees a] at hl
  rcases hquiet.duals hde with hde | hnew
  · obtain ⟨hgiven, hyields⟩ := hX hde hl
    exact ⟨hgiven, (Yields.later hhost hV hW h hde a).1 hyields⟩
  · rw [hnew a] at hl
    cases hl

/-- One run returns to an earlier store. -/
theorem rewind (h : V ≤ W) (hX : Current host G a W) : Current host G a (V.move a (W.store a)) := by
  intro d e l hde hl
  rw [World.move_duals] at hde
  rw [World.move_self] at hl ⊢
  exact hX (h.duals hde) hl

/-- **A tree form is published** that the recomputing machine answers by now. -/
theorem publish (hhost : host.Uniform G.routines) (hW : W.Sound G) (hX : Current host G a W)
    (hde : W.duals d e) (hgiven : l.body.Given G) (hl : Yields host l (a.of d e) (W.store a)) :
    let V := W.move a ((Slot.tree (a.of d e)).write l (W.store a))
    W ≤ V ∧ V.Sound G ∧ Current host G a V := by
  have hforms := (hW.forms a).writeTree (World.known_of a hde) l
  obtain ⟨hV, hle⟩ := hW.move hforms ⟨Nat.le_refl _, id, fun _ _ => .inl⟩
  refine ⟨hle, hV, fun {d' e' k} hde' hk => ?_⟩
  rw [World.move_duals] at hde'
  rw [World.move_self, trees_write] at hk
  split at hk
  · rename_i hid
    have hsame := (hW.pedigree a).unique (World.known_of a hde) (World.known_of a hde') hid
    cases hk
    rw [← hsame]
    exact ⟨hgiven, (Yields.later hhost hW hV hle hde a).1 hl⟩
  · obtain ⟨hgiven, hyields⟩ := hX hde' hk
    exact ⟨hgiven, (Yields.later hhost hW hV hle hde' a).1 hyields⟩

end Current

/-! ## The machine beside the recomputing one -/

/-- A tree form requested from the machine, and computed by the recomputing one. -/
theorem forceTree_mirrors (hhost : host.Uniform G.routines)
    (hE : E.Mirrors G (Current host G .left) (recomputing host)) (hde : W.duals d e) :
    Mirrors G (Current host G .left) (recomputing host) (SameLambda G) W (d.forceTree host E)
      fun E => Act.peek (e.initialTree host E) := by
  intro hW hX
  unfold Dual.forceTree
  cases hfound : (Slot.tree d).read W.left with
  | some l =>
      rw [publishOnce_found hfound]
      obtain ⟨hgiven, hyields⟩ := hX hde hfound
      exact ⟨W, l, le_refl W, hW, hX, rfl, hyields.across hhost hW hde .left .right, rfl, hgiven⟩
  | none =>
      have hinit : Answered G (Current host G .left) (recomputing host) (SameLambda G) W
          (fun E => e.initialTree host E) (d.initialTree host E W.left) :=
        initialTree_mirrors hE hde hW hX
      cases hleft : d.initialTree host E W.left with
      | error z t =>
          rw [publishOnce_failed hfound hleft]
          rw [hleft] at hinit
          cases z with
          | exhausted => trivial
          | failed z =>
              obtain ⟨V, hle, hV, hXV, rfl, N, hN⟩ := hinit
              obtain ⟨hU, hleU⟩ := hW.rewind hV hle .left
              exact ⟨_, hleU, hU, hXV.rewind hle, rfl, N, fun n hn => peek_error (hN n hn)⟩
      | ok l t =>
          rw [hleft] at hinit
          obtain ⟨V, _, hle, hV, hXV, rfl, hlands, rfl, hgiven⟩ := hinit
          obtain ⟨hU, hleU⟩ := hW.rewind hV hle .left
          have hXU : Current host G .left (W.move .left V.left) := hXV.rewind hle
          have hyields : Yields host l e W.right := .of_initialTree hlands
          cases hagain : (Slot.tree d).read V.left with
          | some first =>
              rw [publishOnce_late hfound hleft hagain]
              obtain ⟨hfirst, hyields⟩ := hXU hde hagain
              exact ⟨_, first, hleU, hU, hXU, rfl, hyields.across hhost hU hde .left .right, rfl, hfirst⟩
          | none =>
              rw [publishOnce_first hfound hleft hagain]
              have hnow : Yields host l d V.left := Yields.across hhost hU hde .right .left hyields
              obtain ⟨hle', hU', hXU'⟩ := Current.publish hhost hU hXU hde hgiven hnow
              exact ⟨_, l, hleU.trans hle', hU', hXU', rfl, hyields, rfl, hgiven⟩

/-- **The recomputing machine mirrors the machine,** and published tree forms stay current. -/
theorem machine_mirrors (hhost : host.Uniform G.routines) (n : Nat) :
    (machine host n).Mirrors G (Current host G .left) (recomputing host) := by
  rw [← machineAsking_forceTree]
  exact machineAsking_mirrors hhost (Current.durable hhost .left)
    (fun _ hE _ _ _ hde => forceTree_mirrors hhost hE hde) n

/-- A tree form computed by the recomputing machine, and requested from the machine. -/
theorem peek_mirrors_forceTree {F : Nat → Engine} (hhost : host.Uniform G.routines)
    (hE : (recomputing host n).Mirrors G (Current host G .right) F) (hde : W.duals d e) :
    Mirrors G (Current host G .right) F (SameLambda G) W
      (Act.peek (d.initialTree host (recomputing host n))) fun E => e.forceTree host E := by
  intro hW hX
  have hinit : Answered G (Current host G .right) F (SameLambda G) W (fun E => e.initialTree host E)
      (d.initialTree host (recomputing host n) W.left) := initialTree_mirrors hE hde hW hX
  cases hleft : d.initialTree host (recomputing host n) W.left with
  | error z t =>
      have hpeek := peek_error hleft
      rw [hpeek]
      rw [hleft] at hinit
      cases z with
      | exhausted => trivial
      | failed z =>
          cases hfound : (Slot.tree e).read W.right with
          | some k => exact absurd (hX hde hfound).2 (recomputed_error hhost hW hde .left .right hpeek)
          | none =>
              obtain ⟨V, hle, hV, hXV, _, N, hN⟩ := hinit
              obtain ⟨hU, hleU⟩ := hW.rewind hV hle .right
              exact ⟨_, hleU, hU, hXV.rewind hle, rfl, N, fun m hm => publishOnce_failed hfound (hN m hm)⟩
  | ok l t =>
      have hpeek := peek_ok hleft
      rw [hpeek]
      rw [hleft] at hinit
      obtain ⟨hgiven, hyields⟩ := recomputed_tree hhost hW hde .left .right hpeek
      cases hfound : (Slot.tree e).read W.right with
      | some k =>
          obtain rfl := hyields.unique (hX hde hfound).2
          exact ⟨W, l, le_refl W, hW, hX, rfl, ⟨0, fun _ _ => publishOnce_found hfound⟩, rfl, hgiven⟩
      | none =>
          obtain ⟨V, _, hle, hV, hXV, _, ⟨N, hN⟩, rfl, _⟩ := hinit
          obtain ⟨hU, hleU⟩ := hW.rewind hV hle .right
          have hXU : Current host G .right (W.move .right V.right) := hXV.rewind hle
          have hnow : Yields host l e V.right := (Yields.later hhost hW hV hle hde .right).1 hyields
          cases hagain : (Slot.tree e).read V.right with
          | some first =>
              obtain rfl := hnow.unique (hXU hde hagain).2
              exact ⟨_, l, hleU, hU, hXU, rfl, ⟨N, fun m hm => publishOnce_late hfound (hN m hm) hagain⟩, rfl,
                hgiven⟩
          | none =>
              obtain ⟨hle', hU', hXU'⟩ := Current.publish hhost hU hXU hde hgiven hnow
              exact ⟨_, l, hleU.trans hle', hU', hXU', rfl,
                ⟨N, fun m hm => publishOnce_first hfound (hN m hm) hagain⟩, rfl, hgiven⟩

/-- **The machine mirrors the recomputing one,** and published tree forms stay current. -/
theorem recomputing_mirrors (hhost : host.Uniform G.routines) (n : Nat) :
    (recomputing host n).Mirrors G (Current host G .right) (machine host) := by
  have hmachine : machine host = machineAsking host fun E d => d.forceTree host E :=
    (funext machineAsking_forceTree).symm
  rw [hmachine]
  exact machineAsking_mirrors hhost (Current.durable hhost .right)
    (fun _ hE _ _ _ hde => peek_mirrors_forceTree hhost hE hde) n

end DualForm
