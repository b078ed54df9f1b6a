import DualForm.Proofs.Application.Machines
import DualForm.Proofs.Dual.Publication

/-!
# The same evaluation again

* `together K t` — the regime of two runs that publish function forms together: the objects with `K` stand for
  themselves, and both runs are later than the store `t`.
* `again C t L` — the regime in which a run that ends in the store `t` is repeated from a later store `L`: the
  old objects stand for themselves, their function forms are found, and everything else is made anew.

Principal results: `machine_together`, `machine_again` — the answers of the machine echo in these regimes;
`evaluate_again` — what has been evaluated once to a value made of old objects is evaluated to that value
again, from every later store, and publishes nothing for objects that are there already.
-/

namespace DualForm

open Act (Keeps)
open Value (Coupled AllCoupled)

variable {host : Host} {C : Contract} {U : View → Prop} {S : Regime} {E : Engine} {K : Object → Prop}
  {s t t₀ t₁ L : Store} {σ ρ : Scope} {v w : Value}

theorem exhausted_echoes {α β : Type} {R : Pairing → α → β → Prop} {W : Tandem} {x : Engine → Act α}
    {y : Engine → Act β} (h : x E = throw .exhausted) : Echoes host C U S R E W x y := by
  intro _ _
  rw [h]
  trivial

/-- Two runs that publish function forms together. -/
def together (K : Object → Prop) (t : Store) : Regime where
  inv W := W.InStep ∧ (∀ x, K x → W.pairs x x) ∧ t.Extends W.left ∧ t.Extends W.right
  beyond _ := False
  strict := True

theorem together_durable (hU : U View.plain) : (together K t).Durable C U where
  quiet := by
    rintro V W hV - hle hquiet ⟨hstep, hK, hl, hr⟩
    refine .inr ⟨?_, fun x hx => hle.pairs x x (hK x hx), hl.trans hle.left, hr.trans hle.right⟩
    intro d e g hde hg
    rw [hquiet.right] at hg
    rw [hquiet.left]
    rcases hquiet.new hde with hde | ⟨-, hnew⟩
    · exact hstep hde hg
    · have hempty : V.right.functions[e.id]? = none := hV.unspent.2 _ hnew
      rw [hempty] at hg
      cases hg
  lasting := ⟨fun _ => id, fun _ _ _ _ => id, fun _ _ _ _ => id⟩
  formal := ⟨fun _ _ => id, fun _ _ => id, fun _ _ => id⟩
  plain := hU

/-- **The answers of the machine echo,** and forms are published together. -/
theorem machine_together (hhost : host.Impartial C) (hU : U View.plain)
    (hread : ∀ n, (machine host n).Echoes host C U (together K t) →
      Readable host C U (together K t) (machine host n)) :
    ∀ n, (machine host n).Echoes host C U (together K t)
  | 0 => ⟨machine_keeps (together_durable (C := C) hU).lasting
        (hhost.keeps _ (together_durable (C := C) hU).lasting (together_durable (C := C) hU).formal) 0,
      fun _ _ => exhausted_echoes rfl, fun _ => exhausted_echoes rfl⟩
  | n + 1 => by
      have hS : (together K t).Durable C U := together_durable hU
      have hE := machine_together hhost hU hread n
      refine ⟨machine_keeps hS.lasting (hhost.keeps _ hS.lasting hS.formal) _,
        fun hf hvs => (apply_echoes hhost hS hE (hread n hE) hf hvs).step (fun _ => rfl) fun _ => rfl,
        fun hde => (forceFunction_echoes hhost hS hE hde ?_ ?_).step (fun _ => rfl) fun _ => rfl⟩
      · intro V g hle _ hSV hg
        exact hSV.1 (hle.pairs _ _ hde) hg
      · rintro V f g hle hV ⟨hstep, hK, hl, hr⟩ hfg hd he
        obtain ⟨-, hle'⟩ := hV.publish (hle.pairs _ _ hde) hfg hd he
        refine .inr ⟨fun hde' hk => hV.publish_step (hle.pairs _ _ hde) hde' (fun _ => hstep hde') hk, hK,
          hl.trans hle'.left, hr.trans hle'.right⟩

/-- Where no tree stands for another one. -/
theorem machine_beside (hhost : host.Impartial C) (K : Object → Prop) (t : Store) (n : Nat) :
    (machine host n).Echoes host C Untouched (together K t) :=
  machine_together hhost .plain (fun _ _ => readable_untouched) n

/-- A store beside itself. -/
theorem together_self (K : Object → Prop) (s : Store) : (together K s).inv ⟨s, s, .diagonal K⟩ :=
  ⟨fun {d e g} hde hg => by cases hde.2; exact ⟨g, hg⟩, fun _ hx => ⟨hx, rfl⟩, .refl s, .refl s⟩

/-! ## Repeated runs -/

/-- The run on the right repeats the one on the left from the store `L`: the objects with `K` stand for
themselves, other objects are made anew, and function forms are published for those only. -/
structure Replays (C : Contract) (L : Store) (K : Object → Prop) (W : Tandem) : Prop where
  resides : Resides C K W.left
  old : ∀ x, K x → W.pairs x x
  anew : ∀ {x y}, W.pairs x y → (K x ∧ y = x) ∨ L.nextId ≤ y.id
  step : ∀ {d e g}, W.pairs (.dual d) (.dual e) → L.nextId ≤ e.id → W.right.functions[e.id]? = some g →
    ∃ f, W.left.functions[d.id]? = some f
  right : L.Extends W.right
  same : ∀ i < L.nextId, W.right.functions[i]? = L.functions[i]?

namespace Replays

variable {W : Tandem}

/-- What is made anew on the right is none of the old objects on the left. -/
theorem apart (h : Replays C L K W) (hW : W.Sound C Untouched) (hid : W.left.nextId ≤ L.nextId)
    {x y z : Object} (hxy : W.pairs x y) (hy : L.nextId ≤ y.id) (hz : K z) : x.identity ≠ z.identity := by
  intro hxz
  obtain ⟨rfl, rfl⟩ := hW.apart hxy (h.old z hz) (.inl hxz)
  have hlt : y.id < W.left.nextId := (hW.older hxy).1
  omega

/-- New objects that are paired on both sides are made anew. -/
theorem quiet (h : Replays C L K W) {V : Tandem} (hW : W.Sound C Untouched) (hV : V.Sound C Untouched)
    (hle : W.Later V) (hquiet : W.Quiet V) : Replays C L K V where
  resides := h.resides.later hle.left hV.unspent.1 fun d _ => by rw [hquiet.left]
  old x hx := hle.pairs x x (h.old x hx)
  anew {x y} hxy := by
    rcases hquiet.new hxy with hxy | ⟨-, hnew⟩
    · exact h.anew hxy
    · exact .inr (Nat.le_trans h.right.nextId hnew)
  step {d e g} hde he hg := by
    rw [hquiet.right] at hg
    rw [hquiet.left]
    rcases hquiet.new hde with hde | ⟨-, hnew⟩
    · exact h.step hde he hg
    · have hempty : W.right.functions[e.id]? = none := hW.unspent.2 _ hnew
      rw [hempty] at hg
      cases hg
  right := h.right.trans hle.right
  same i hi := by rw [hquiet.right, h.same i hi]

/-- **A form computed on the left for an old object is there on the right already,** and what it is made of is
old from then on. -/
theorem jump (h : Replays C L K W) (hW : W.Sound C Untouched) {K' : Object → Prop} (hK : Resides C K' s)
    (hsub : ∀ x, K x → K' x) (hnew : ∀ x, K' x → K x ∨ W.left.nextId ≤ x.id) (hs : W.left.Extends s)
    (hframe : ∀ i < W.left.nextId, (∀ d, K (.dual d) → d.id ≠ i) → s.functions[i]? = W.left.functions[i]?)
    (hL : s.Extends L) :
    let V := Tandem.mk s W.right fun x y => W.pairs x y ∨ (K' x ∧ y = x)
    V.Sound C Untouched ∧ W.Later V ∧ Replays C L K' V := by
  have hid : W.left.nextId ≤ L.nextId := Nat.le_trans hs.nextId hL.nextId
  have holder : ∀ {x}, K' x → x.id < L.nextId := fun hx => Nat.lt_of_lt_of_le (hK.older hx) hL.nextId
  -- An object of the form is paired with itself or not at all yet: what is made anew on the right comes later.
  have hapart : ∀ {x y z}, W.pairs x y → K' z → x.identity = z.identity ∨ y.identity = z.identity →
      x = z ∧ y = z := by
    intro x y z hxy hz hidentity
    rcases h.anew hxy with ⟨hx, rfl⟩ | hy
    · obtain rfl := hK.apart (hsub y hx) hz (hidentity.elim id id)
      exact ⟨rfl, rfl⟩
    · rcases hidentity with hxz | hyz
      · rcases hnew z hz with hz | hz
        · exact absurd hxz (h.apart hW hid hxy hy hz)
        · have hlt := (hW.older hxy).1
          rw [Object.id_eq hxz] at hlt
          omega
      · have hlt := holder hz
        rw [Object.id_eq hyz] at hy
        omega
  have hfound : ∀ {d f}, K' (.dual d) → s.functions[d.id]? = some f →
      ∃ g, W.right.functions[d.id]? = some g ∧
        (W.pairs (.func f) (.func g) ∨ (K' (.func f) ∧ Object.func g = .func f)) :=
    fun hd hf => ⟨_, h.right.functions (hL.functions hf), .inr ⟨hK.form hd hf, rfl⟩⟩
  refine ⟨⟨?_, ?_, ?_, ?_, hK.unspent, hW.unspent.2⟩, ⟨fun _ _ => .inl, ?_, hs, .refl _, ?_⟩,
    ⟨hK, fun _ hx => .inr ⟨hx, rfl⟩, ?_, ?_, h.right, h.same⟩⟩
  · rintro x y (hxy | ⟨hx, rfl⟩)
    · exact (hW.content hxy).mono (fun _ _ => .inl) fun _ => id
    · exact (Tandem.Sound.content hK ⟨hx, rfl⟩).mono (fun _ _ hzw => .inr ⟨hzw.1, hzw.2.symm⟩) fun _ => id
  · rintro x y x' y' (hxy | ⟨hx, rfl⟩) (hxy' | ⟨hx', rfl⟩) hidentity
    · exact hW.apart hxy hxy' hidentity
    · exact hapart hxy hx' hidentity
    · obtain ⟨rfl, rfl⟩ := hapart hxy' hx (hidentity.imp Eq.symm Eq.symm)
      exact ⟨rfl, rfl⟩
    · obtain rfl := hK.apart hx hx' (hidentity.elim id id)
      exact ⟨rfl, rfl⟩
  · rintro x y (hxy | ⟨hx, rfl⟩)
    · obtain ⟨hlt, hlt'⟩ := hW.older hxy
      exact ⟨Nat.lt_of_lt_of_le hlt hs.nextId, hlt'⟩
    · exact ⟨hK.older hx, Nat.lt_of_lt_of_le (holder hx) h.right.nextId⟩
  · rintro d e f (hde | ⟨hd, hde⟩) hf
    · rcases h.anew hde with ⟨hd, hde⟩ | he
      · cases hde
        exact hfound (hsub _ hd) hf
      · have hsame := hframe d.id (hW.older hde).1 fun d' hd' hid' =>
          h.apart hW hid hde he hd' (congrArg Identity.dual hid'.symm)
        obtain ⟨g, hg, hfg⟩ := hW.forms hde (hsame.symm.trans hf)
        exact ⟨g, hg, .inl hfg⟩
    · cases hde
      exact hfound hd hf
  · rintro x y (hxy | ⟨hx, rfl⟩)
    · exact .inl hxy
    · exact (hnew y hx).imp_left (h.old y)
  · exact fun hi hknown => hframe _ hi fun d hd => hknown d d (h.old _ hd)
  · rintro x y (hxy | ⟨hx, rfl⟩)
    · exact (h.anew hxy).imp_left fun hx => ⟨hsub x hx.1, hx.2⟩
    · exact .inl ⟨hx, rfl⟩
  · rintro d e g (hde | ⟨hd, hde⟩) he hg
    · obtain ⟨f, hf⟩ := h.step hde he hg
      exact ⟨f, hs.functions hf⟩
    · cases hde
      have hlt := holder hd
      exact absurd he (Nat.not_le_of_lt hlt)

/-- A form published for an object made anew. -/
theorem publish (h : Replays C L K W) (hW : W.Sound C Untouched) (hid : W.left.nextId ≤ L.nextId) {d e : Dual}
    {f g : Func} (hde : W.pairs (.dual d) (.dual e)) (hnew : L.nextId ≤ e.id)
    (hd : W.left.functions[d.id]? = none) (he : W.right.functions[e.id]? = none) :
    Replays C L K (W.publish d e f g) where
  resides := by
    refine h.resides.later (.write f hd) (hW.unspent.1.write f (hW.older hde).1) fun d' hd' => ?_
    have hne : d.id ≠ d'.id := fun hid' => h.apart hW hid hde hnew hd' (congrArg Identity.dual hid')
    show ((Slot.function d).write f W.left).functions[d'.id]? = _
    rw [functions_write, if_neg hne]
  old := h.old
  anew := h.anew
  step hde' he' hk := hW.publish_step hde hde' (fun _ => h.step hde' he') hk
  right := h.right.trans (.write g he)
  same i hi := by
    show ((Slot.function e).write g W.right).functions[i]? = _
    rw [functions_write, if_neg (by omega), h.same i hi]

end Replays

/-- A run that ends in the store `t`, repeated from the store `L`. -/
def again (C : Contract) (t L : Store) : Regime where
  inv W := ∃ K, Replays C L K W
  beyond s := ¬ s.Extends t
  strict := False

theorem again_durable : (again C t L).Durable C Untouched where
  quiet := by
    rintro V W hV hW hle hquiet ⟨K, h⟩
    exact .inr ⟨K, h.quiet hV hW hle hquiet⟩
  lasting := by
    refine ⟨fun s hs hext => hs ⟨Nat.le_of_succ_le hext.nextId, hext.functions⟩, fun s d l _ hs hext => hs ?_,
      fun s d f hempty hs hext => hs ((Store.Extends.write f hempty).trans hext)⟩
    exact ⟨hext.nextId, hext.functions⟩
  formal := by
    refine ⟨fun s cells hs hext => hs ?_, fun s attempts hs hext => hs ?_, fun s log hs hext => hs ?_⟩
    all_goals exact ⟨hext.nextId, hext.functions⟩
  plain := .plain

/-- A function form that is published is found. -/
theorem function_found {d : Dual} {f : Func} (hf : s.functions[d.id]? = some f) (n : Nat) :
    (machine host (n + 1)).function d s = .ok f s := @publishOnce_found _ (.function d) _ _ _ hf

theorem ends_found {d : Dual} {f : Func} (hf : s.functions[d.id]? = some f) :
    Ends host (fun E => E.function d) s (.ok f s) := by
  refine ⟨1, fun n hn => ?_⟩
  obtain ⟨m, rfl⟩ : ∃ m, n = m + 1 := ⟨n - 1, by omega⟩
  exact function_found hf m

/-- A request for the function form of an old object. -/
theorem old_echoes (hhost : host.Impartial C) (ht : t.Extends L) {W : Tandem} (h : Replays C L K W) (n : Nat)
    {d : Dual} (hd : K (.dual d)) :
    Echoes host C Untouched (again C t L) FuncPaired (machine host (n + 1)) W (fun E => E.function d)
      fun E => E.function d := by
  intro hW _
  show Echoed host C Untouched (again C t L) FuncPaired W (fun E => E.function d) (fun E => E.function d)
    ((machine host (n + 1)).function d W.left)
  have hpair : W.pairs (.dual d) (.dual d) := h.old _ hd
  cases hleft : W.left.functions[d.id]? with
  | some f =>
      obtain ⟨g, hg, hfg⟩ := hW.forms hpair hleft
      rw [function_found hleft]
      exact .inr ⟨ends_found hleft, W, g, .refl W, hW, ⟨K, h⟩, rfl, ends_found hg, hfg⟩
  | none =>
      -- the request is followed beside itself, which says what the form is made of
      have hself := (machine_beside hhost K W.left (n + 1)).function (W := ⟨W.left, W.left, .diagonal K⟩)
        ⟨hd, rfl⟩ h.resides (together_self K W.left)
      dsimp only at hself
      cases hrun : (machine host (n + 1)).function d W.left with
      | error e s =>
          cases e with
          | exhausted => trivial
          | failed e => exact False.elim
      | ok f s =>
          by_cases hs : s.Extends t
          · rw [hrun] at hself
            rcases hself with hbeyond | ⟨hends, V, b, hle, hV, -, rfl, -, hfb⟩
            · exact hbeyond.elim
            · have hpub : V.left.functions[d.id]? = some f := @Form.ask_published _ _ _ _ _ .function _ hrun
              obtain ⟨hX, hle', hX'⟩ := h.jump hW (Resides.of_left hV)
                (fun x hx => ⟨x, hle.pairs x x ⟨hx, rfl⟩⟩)
                (fun x hx => by
                  obtain ⟨y, hxy⟩ := hx
                  exact (hle.new hxy).imp_left fun hxy => hxy.1)
                hle.left
                (fun i hi hknown => hle.frame hi fun a c hac => hknown a hac.1) (hs.trans ht)
              exact .inr ⟨hends, _, f, hle', hX, ⟨_, hX'⟩, rfl,
                ends_found (h.right.functions ((hs.trans ht).functions hpub)), .inr ⟨⟨.func b, hfb⟩, rfl⟩⟩
          · exact .inl hs

/-- **The answers of the machine echo** where a run is repeated. -/
theorem machine_again (hhost : host.Impartial C) (ht : t.Extends L) :
    ∀ n, (machine host n).Echoes host C Untouched (again C t L)
  | 0 => ⟨machine_keeps (again_durable (C := C)).lasting
        (hhost.keeps _ (again_durable (C := C)).lasting (again_durable (C := C)).formal) 0,
      fun _ _ => exhausted_echoes rfl, fun _ => exhausted_echoes rfl⟩
  | n + 1 => by
      have hS : (again C t L).Durable C Untouched := again_durable
      have hE := machine_again hhost ht n
      refine ⟨machine_keeps hS.lasting (hhost.keeps _ hS.lasting hS.formal) _,
        fun hf hvs => (apply_echoes hhost hS hE readable_untouched hf hvs).step (fun _ => rfl) fun _ => rfl,
        fun {W d e} hde hW hSW => ?_⟩
      obtain ⟨K, h⟩ := id hSW
      rcases h.anew hde with ⟨hd, hde'⟩ | hnew
      · cases hde'
        exact old_echoes hhost ht h n hd hW hSW
      · refine (forceFunction_echoes hhost hS hE hde ?_ ?_).step (fun _ => rfl) (fun _ => rfl) hW hSW
        · rintro V g hle - ⟨K', h'⟩ hg
          exact h'.step (hle.pairs _ _ hde) hnew hg
        · rintro V f g hle hV ⟨K', h'⟩ hfg hd he
          by_cases hext : V.left.Extends t
          · have hid : V.left.nextId ≤ L.nextId := Nat.le_trans hext.nextId ht.nextId
            exact .inr ⟨K', h'.publish hV hid (hle.pairs _ _ hde) hnew hd he⟩
          · exact .inl fun hlater => hext ((Store.Extends.write f hd).trans hlater)

/-- The stores that extend a given one are never left. -/
theorem lasting_extends (s : Store) : Lasting s.Extends where
  identity _ ht := ht.trans ⟨Nat.le_succ _, id⟩
  tree _ _ _ _ ht := ht.trans ⟨Nat.le_refl _, id⟩
  function _ _ f hempty ht := ht.trans (.write f hempty)

theorem formal_extends (s : Store) : Formal s.Extends :=
  ⟨fun _ _ ht => ⟨ht.nextId, ht.functions⟩, fun _ _ ht => ⟨ht.nextId, ht.functions⟩,
    fun _ _ ht => ⟨ht.nextId, ht.functions⟩⟩

theorem evaluate_extends (hhost : host.Impartial C) {n : Nat} {t : Expr}
    (h : evaluate (machine host n) σ t s = .ok v L) : s.Extends L := by
  have hE := machine_keeps (lasting_extends s) (hhost.keeps _ (lasting_extends s) (formal_extends s)) n
  exact (evaluate_concur (lasting_extends s).identity hE.concur σ t).keeps.ok h (.refl s)

/-- **What has been evaluated once to a value made of old objects is evaluated to that value again,** from
every later store, and nothing is published for objects that are there already. -/
theorem evaluate_again (hhost : host.Impartial C) (hK : Resides C K t₀) {Γ : Correspondence} {r : Expr}
    {n : Nat} (hr : Tree.Coupled (.diagonal K) .plain Γ r r) (hscope : Scope.Coupled (.diagonal K) Γ σ ρ)
    (hv : Coupled (.diagonal K) v v) (hrun : evaluate (machine host n) σ r t₀ = .ok v t₁)
    (hL : t₁.Extends L) (hunspent : L.Unspent) :
    ∃ L', Ends host (fun E => evaluate E ρ r) L (.ok v L') ∧ L.Extends L' ∧ L'.Unspent ∧
      ∀ i < L.nextId, L'.functions[i]? = L.functions[i]? := by
  have hext : t₀.Extends L := (evaluate_extends hhost hrun).trans hL
  have holder : ∀ {x}, K x → x.id < L.nextId := fun hx => Nat.lt_of_lt_of_le (hK.older hx) hext.nextId
  have hW : (Tandem.mk t₀ L (.diagonal K)).Sound C Untouched :=
    Tandem.Sound.withStores hK (.refl _) hext hK.unspent hunspent fun _ _ _ => rfl
  have hinv : (again C t₁ L).inv ⟨t₀, L, .diagonal K⟩ := by
    refine ⟨K, hK, fun x hx => ⟨hx, rfl⟩, fun hxy => .inl ⟨hxy.1, hxy.2.symm⟩, fun hde he => ?_, .refl L,
      fun _ _ => rfl⟩
    cases hde.2
    exact absurd he (Nat.not_le_of_lt (holder hde.1))
  have hecho := evaluate_echoes again_durable (machine_again hhost hL n) .plain trivial trivial False.elim
    (fun _ _ => id) hscope hr hW hinv
  dsimp only at hecho
  rw [hrun] at hecho
  rcases hecho with hbeyond | ⟨-, V, w, hle, hV, ⟨K', h⟩, -, hends, hvw⟩
  · exact absurd (Store.Extends.refl t₁) hbeyond
  · obtain rfl : w = v := hvw.eq (Q := .diagonal K)
      (fun x y hxy hxx => hV.alone (hle.pairs x x hxx) hxy) hv
    exact ⟨V.right, hends, h.right, hV.unspent.2, h.same⟩

end DualForm
