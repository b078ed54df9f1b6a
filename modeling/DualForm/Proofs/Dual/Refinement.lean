import DualForm.Host.Registry
import DualForm.Proofs.Dual.Forms

/-!
# Tree forms compute what duals compute

* `Assembles V N C F P x` — `x` makes a dual from a lambda over host code that takes a parameter
  with `N`, evaluates duals as `C` allows and hands on those with `F`, or composes two duals as
  `P` allows.
* `Uses host V ds s t` — between two of them the duals are used, or something else happens.
* `Shapes`, `NewForm`, `Assembled` — what the tree form of the next dual is made of, what holds of
  it, and of a family so made.
* `Stateless host f` — the host function `f` depends on its arguments alone.
* `Tree.Lambdaless` — no node of the tree is a lambda.

Principal results: `Assembles.newForm`, `Assembled.make`, `Assembled.uses` — families stay
assembled; `tree_refines_function` — in families of duals over stateless host code, every dual has
a tree form, and whatever evaluating the dual returns, evaluating the tree form returns as well.
-/

namespace DualForm

open Act (Ensures)

variable {host : Host} {V : Vocabulary} {D F : Dual → Prop} {form : Dual → Lam} {ds : List Dual}
  {s t : Store}

/-! ## Families -/

/-- The ways to make a dual of a lambda over host code, or of other duals by composition. -/
inductive Assembles (V : Vocabulary) (N : Param → Prop) (C : Dual → Expr → Prop) (F : Dual → Prop)
    (P : Dual → Dual → Prop) : Act Dual → Prop
  | ofLambda (kind : DualKind) (x : Param) {t : Expr} : N x → Body V C F false t →
      Assembles V N C F P (Dual.ofLambda kind ⟨[x], t⟩)
  | compose {outer inner : Dual} : P outer inner → Assembles V N C F P (outer.compose inner)

theorem Assembles.imp {N N' : Param → Prop} {C C' : Dual → Expr → Prop} {P P' : Dual → Dual → Prop}
    {x : Act Dual} (h : Assembles V N C F P x) (hN : ∀ p, N p → N' p) (hC : ∀ d a, C d a → C' d a)
    (hP : ∀ o i, P o i → P' o i) : Assembles V N' C' F P' x := by
  cases h with
  | ofLambda kind x hx ht => exact .ofLambda kind x (hN x hx) (ht.imp hC)
  | compose hcompose => exact .compose (hP _ _ hcompose)

/-- What happens between two of them: a form is asked for or a dual is evaluated, whatever comes
of it, or something that concerns none of these duals. -/
inductive Uses (host : Host) (V : Vocabulary) (ds : List Dual) : Store → Store → Prop
  | tree {s : Store} (n : Nat) {d : Dual} : d ∈ ds → Uses host V ds s (((machine host n).tree d).final s)
  | function {s : Store} (n : Nat) {d : Dual} : d ∈ ds →
      Uses host V ds s (((machine host n).function d).final s)
  | evaluate {s : Store} (n : Nat) {d : Dual} {v : Value} : d ∈ ds → V.data v →
      Uses host V ds s ((d.evaluate (machine host n) v).final s)
  | elsewhere {s t : Store} : (∀ d ∈ ds, t.trees[d.id]? = s.trees[d.id]?) →
      (∀ d ∈ ds, t.functions[d.id]? = s.functions[d.id]?) → s.nextId ≤ t.nextId → Fresh t →
      Uses host V ds s t

/-! ## The tree form of the next dual -/

/-- No node is a lambda. -/
def Tree.Lambdaless (t : Expr) : Prop := t.Everywhere fun u => ∀ ps b, u ≠ .lambda ps b

theorem lambdaless_shallow : Tree.Shallow fun u : Expr => ∀ ps b, u ≠ .lambda ps b where
  head := by
    rintro t u h ht ps b rfl
    cases t <;> first | exact absurd rfl (ht _ _) | cases h
  lambda _ _ h := absurd rfl (h _ _)

theorem Tree.Lambdaless.unshadowed {t : Expr} (h : t.Lambdaless) (p : Param) : t.Unshadowed p :=
  h.imp fun _ hu ps b hb => absurd hb (hu ps b)

theorem Tree.Lambdaless.hygienic {l : Lam} (h : l.body.Lambdaless) (a : Expr) : l.Hygienic a :=
  .inr fun p _ => h.unshadowed p

theorem Inlined.lambdaless {b : Bool} {t u : Expr} (hform : ∀ d, D d → (form d).body.Lambdaless)
    (hF : ∀ d, ¬ F d) (h : Inlined V form D F (fun _ => True) b t u) : u.Lambdaless := by
  induction h with
  | node parts hbasic _ _ hhead hchildren _ ih =>
      refine Tree.everywhere_iff.2 ⟨(hbasic.shape hhead).2.1, fun c hc => ?_⟩
      rw [hchildren] at hc
      obtain ⟨q, hq, rfl⟩ := List.mem_map.1 hc
      exact ih q hq
  | param =>
      refine Tree.everywhere_leaf (fun ps b h => ?_) rfl
      cases h
  | kept _ hkept => exact absurd trivial hkept
  | replaced _ _ _ hd _ _ _ ih => exact Tree.Everywhere.inserted _ lambdaless_shallow ih (hform _ hd)
  | handedKept _ _ _ hhanded => exact absurd hhanded (hF _)
  | handed _ _ _ hhanded => exact absurd hhanded (hF _)

/-- What the tree form `l` of a dual of origin `o` is made of. -/
inductive Shapes (V : Vocabulary) (form : Dual → Lam) (D : Dual → Prop) (N : Param → Prop)
    (F : Dual → Prop) (P : Dual → Dual → Prop) : Origin → Lam → Prop
  | lambda {x : Param} {t u : Expr} : N x → Inlined V form D F (fun _ => True) false t u →
      Shapes V form D N F P (.lambda ⟨[x], t⟩) ⟨[x], u⟩
  | composed {outer inner : Dual} {p q : Param} : P outer inner → D outer → D inner →
      (form outer).params = [p] → (form inner).params = [q] →
      Shapes V form D N F P (.composed outer inner)
        ⟨[q], Tree.substitute p (form inner).body (form outer).body⟩

variable {N : Param → Prop} {P : Dual → Dual → Prop}

theorem Shapes.lambdaless {o : Origin} {l : Lam} (h : Shapes V form D N F P o l)
    (hform : ∀ d, D d → (form d).body.Lambdaless) (hF : ∀ d, ¬ F d) : l.body.Lambdaless := by
  cases h with
  | lambda _ hu => exact hu.lambdaless hform hF
  | composed _ houter hinner =>
      exact Tree.Everywhere.substitute lambdaless_shallow (hform _ hinner) (hform _ houter)

/-- What holds of the tree form `l` of a dual of origin `o` made of duals with `D`. -/
structure NewForm (host : Host) (V : Vocabulary) (form : Dual → Lam) (D : Dual → Prop) (o : Origin)
    (l : Lam) : Prop where
  formed : ∀ d form', d.origin = o → form' d = l → (∀ e, D e → form' e = form e) →
    Formed host form' D d
  single : ∃ p, l.params = [p]
  flat : l.body.Flat
  faithful : ∀ d p, d.origin = o → l.params = [p] → Renders V D (.param p) (.dual d) l.body

/-- **The next dual has a tree form that renders it.** -/
theorem Assembles.newForm {C : Dual → Expr → Prop} {x : Act Dual} (hx : Assembles V N C F P x)
    (hflat : FlatForms form D) (hfaithful : Faithful V D form)
    (hC : ∀ d a, C d a → D d ∧ (form d).Hygienic a) (hF : ∀ d, F d → D d)
    (hP : ∀ o i, P o i → D o ∧ D i ∧ (form o).Hygienic (form i).body) (host : Host) :
    ∃ o l, Makes (· = o) x ∧ NewForm host V form D o l ∧ Shapes V form D N F P o l := by
  cases hx with
  | @ofLambda kind x t hx ht =>
      obtain ⟨u, hu, hrun⟩ := rewriteLambda_inlined (x := x) hflat ht hC hF host
      refine ⟨.lambda ⟨[x], t⟩, ⟨[x], u⟩, ofLambda_makes (P := (· = _)) rfl kind, ⟨?_, ⟨x, rfl⟩, ?_, ?_⟩,
        .lambda hx hu⟩
      · intro d form' ho hl hform
        refine .lambda ho fun I hI => ?_
        rw [hl]
        refine hrun I fun e he => ?_
        rw [← hform e he]
        exact hI e he
      · exact hu.flat hflat fun _ => trivial
      · intro d p ho hp
        cases hp
        exact .lambda ho (hu.renders hflat hfaithful x)
  | @compose outer inner hcompose =>
      obtain ⟨houter, hinner, hyg⟩ := hP outer inner hcompose
      obtain ⟨p, hp⟩ := hflat.single outer houter
      obtain ⟨q, hq⟩ := hflat.single inner hinner
      refine ⟨.composed outer inner, ⟨[q], Tree.substitute p (form inner).body (form outer).body⟩,
        compose_makes (P := (· = _)) rfl, ⟨?_, ⟨q, rfl⟩, ?_, ?_⟩, .composed hcompose houter hinner hp hq⟩
      · intro d form' ho hl hform
        refine .composed ho houter hinner ?_
        rw [hform _ houter, hform _ hinner, hl]
        exact Lambda.composed_ok.2 ⟨p, hp, q, hq, rfl⟩
      · exact Tree.Everywhere.substitute flat_shallow (hflat.flat _ hinner) (hflat.flat _ houter)
      · intro d r ho hr
        cases hr
        refine .composed ho (hfaithful inner q hinner hq) ?_
        obtain ⟨renames, hrenames, hsubstitute⟩ := hyg.inserted hp
        rw [hsubstitute]
        exact (hfaithful outer p houter hp).replaced hrenames

/-! ## Families stay assembled -/

/-- The tree forms with that of one more dual. -/
def extend (form : Dual → Lam) (d : Dual) (l : Lam) (e : Dual) : Lam :=
  if e.id = d.id then l else form e

theorem extend_self {d : Dual} {l : Lam} : extend form d l d = l := if_pos rfl

theorem extend_older {d e : Dual} {l : Lam} (h : e.id < d.id) : extend form d l e = form e :=
  if_neg (Nat.ne_of_lt h)

/-- The duals have tree forms that render them, and what is published of them are their forms. -/
structure Assembled (host : Host) (V : Vocabulary) (form : Dual → Lam) (ds : List Dual) (s : Store) :
    Prop where
  formed : ∀ d ∈ ds, Formed host form (fun e => e ∈ ds ∧ e.id < d.id) d
  flat : FlatForms form (· ∈ ds)
  faithful : Faithful V (· ∈ ds) form
  distinct : Distinct (· ∈ ds)
  known : ∀ d ∈ ds, d.id < s.nextId
  published : Publishes (· ∈ ds) form s s
  fresh : Fresh s

namespace Assembled

theorem start (form : Dual → Lam) (hs : Fresh s) : Assembled host V form [] s where
  formed := by simp
  flat := ⟨by simp, by simp⟩
  faithful := by
    intro d p hd
    cases hd
  distinct := by
    intro d e hd
    cases hd
  known := by simp
  published := ⟨by simp, by simp, fun _ _ => rfl, fun _ _ => rfl, Nat.le_refl _⟩
  fresh := hs

/-- The next dual comes after all others. -/
theorem older (h : Assembled host V form ds s) {o : Origin} {x : Act Dual} (hx : Makes (· = o) x)
    {d : Dual} (hd : x s = .ok d t) : ∀ e ∈ ds, e.id < d.id := fun e he =>
  Nat.lt_of_lt_of_le (h.known e he) (hx.made s d t hd).2.1

/-- A family with one more dual. -/
theorem make (h : Assembled host V form ds s) {o : Origin} {l : Lam}
    (hnew : NewForm host V form (· ∈ ds) o l) {x : Act Dual} (hx : Makes (· = o) x) {d : Dual}
    (hd : x s = .ok d t) : Assembled host V (extend form d l) (d :: ds) t := by
  obtain ⟨hfresh, hnotree, hnofunction⟩ := hx.fresh hd h.fresh
  have holder := h.older hx hd
  obtain ⟨ho, hid, rfl⟩ := hx.made s d t hd
  -- The older duals keep their forms, as the new one comes after them.
  have hform : ∀ e ∈ ds, extend form d l e = form e := fun e he => extend_older (holder e he)
  have hself : extend form d l d = l := extend_self
  refine ⟨fun e he => ?_, ⟨fun e he => ?_, fun e he => ?_⟩, fun e p he hp => ?_, ?_, fun e he => ?_, ?_,
    hfresh⟩
  · rcases List.mem_cons.1 he with rfl | he
    · refine (hnew.formed e (extend form e l) ho hself hform).mono (fun c hc => ?_) (fun _ _ => rfl) rfl
      exact ⟨List.mem_cons_of_mem _ hc, holder c hc⟩
    · refine (h.formed e he).mono (fun c hc => ?_) (fun c hc => hform c hc.1) (hform e he)
      exact ⟨List.mem_cons_of_mem _ hc.1, hc.2⟩
  · rcases List.mem_cons.1 he with rfl | he
    · rw [hself]; exact hnew.single
    · rw [hform e he]; exact h.flat.single e he
  · rcases List.mem_cons.1 he with rfl | he
    · rw [hself]; exact hnew.flat
    · rw [hform e he]; exact h.flat.flat e he
  · have hmono : ∀ {r S u}, Renders V (· ∈ ds) r S u → Renders V (· ∈ d :: ds) r S u := fun hr =>
      hr.mono fun _ hc => List.mem_cons_of_mem _ hc
    rcases List.mem_cons.1 he with rfl | he
    · rw [hself] at hp ⊢
      exact hmono (hnew.faithful e p ho hp)
    · rw [hform e he] at hp ⊢
      exact hmono (h.faithful e p he hp)
  · intro a b ha hb hab
    rcases List.mem_cons.1 ha with rfl | ha'
    · rcases List.mem_cons.1 hb with rfl | hb'
      · rfl
      · exact absurd hab.symm (Nat.ne_of_lt (holder b hb'))
    · rcases List.mem_cons.1 hb with rfl | hb'
      · exact absurd hab (Nat.ne_of_lt (holder a ha'))
      · exact h.distinct a b ha' hb' hab
  · rcases List.mem_cons.1 he with rfl | he
    · exact Nat.lt_succ_self _
    · exact Nat.lt_succ_of_lt (holder e he)
  · refine ⟨fun e k he hk => ?_, fun e f he hf => ?_, fun _ _ => rfl, fun _ _ => rfl, Nat.le_refl _⟩
    · rcases List.mem_cons.1 he with rfl | he
      · rw [hnotree] at hk; cases hk
      · rw [hform e he]; exact h.published.trees e k he hk
    · rcases List.mem_cons.1 he with rfl | he
      · rw [hnofunction] at hf; cases hf
      · exact h.published.functions e f he hf

/-- Publishing forms of the family changes nothing else. -/
theorem publish (h : Assembled host V form ds s) (ht : Publishes (· ∈ ds) form s t) :
    Assembled host V form ds t := by
  have hother : ∀ id, t.nextId ≤ id → ∀ d ∈ ds, d.id ≠ id := fun id hid d hd =>
    Nat.ne_of_lt (Nat.lt_of_lt_of_le (h.known d hd) (Nat.le_trans ht.nextId hid))
  refine ⟨h.formed, h.flat, h.faithful, h.distinct, fun d hd => ?_, ?_, ?_⟩
  · exact Nat.lt_of_lt_of_le (h.known d hd) ht.nextId
  · exact ⟨ht.trees, ht.functions, fun _ _ => rfl, fun _ _ => rfl, Nat.le_refl _⟩
  · refine ⟨fun id hid => ?_, fun id hid => ?_⟩
    · rw [ht.otherTrees id (hother id hid)]
      exact h.fresh.trees id (Nat.le_trans ht.nextId hid)
    · rw [ht.otherFunctions id (hother id hid)]
      exact h.fresh.functions id (Nat.le_trans ht.nextId hid)

theorem tree (h : Assembled host V form ds s) {d : Dual} (hd : d ∈ ds) :
    Exactly host (Publishes (· ∈ ds) form s) (fun E => E.tree d) (form d) :=
  tree_exactly h.distinct h.formed s d hd

theorem evaluate (hV : V.Closed) (hhost : V.Respected host) (h : Assembled host V form ds s) {d : Dual}
    (hd : d ∈ ds) {v : Value} (hv : V.data v) (n : Nat) :
    Follows host (Publishes (· ∈ ds) form s) (Shared V) (d.evaluate (machine host n) v)
      fun E => d.evaluateTree E v :=
  evaluate_follows hV hhost h.distinct h.formed h.flat h.faithful s hd hv n

/-- Using the duals keeps the family. -/
theorem uses (hV : V.Closed) (hhost : V.Respected host) (h : Assembled host V form ds s)
    (hst : Uses host V ds s t) : Assembled host V form ds t := by
  cases hst with
  | tree n hd => exact h.publish (((h.tree hd).ensures n).keeps.after s h.published)
  | function n hd =>
      have hplain : ∀ d ∈ ds, d.origin.Plain (· ∈ ds) := fun d hd =>
        (h.formed d hd).plain.mono fun _ he => he.1
      exact h.publish ((function_ensures h.distinct hplain s n _ hd).keeps.after s h.published)
  | evaluate n hd hv => exact h.publish ((h.evaluate hV hhost hd hv n).keeps.after s h.published)
  | elsewhere htrees hfunctions hnext hfresh =>
      refine ⟨h.formed, h.flat, h.faithful, h.distinct, fun d hd => ?_, ?_, hfresh⟩
      · exact Nat.lt_of_lt_of_le (h.known d hd) hnext
      · refine ⟨fun d l hd hl => ?_, fun d f hd hf => ?_, fun _ _ => rfl, fun _ _ => rfl, Nat.le_refl _⟩
        · rw [htrees d hd] at hl
          exact h.published.trees d l hd hl
        · rw [hfunctions d hd] at hf
          exact h.published.functions d f hd hf

/-- **What assembled duals compute, their tree forms compute.** -/
theorem refines (hV : V.Closed) (hhost : V.Respected host) (h : Assembled host V form ds s) {d : Dual}
    (hd : d ∈ ds) : (∃ l t, Reaches host (fun E => E.tree d) s l t) ∧
      ∀ n v w t, V.data v → d.evaluate (machine host n) v s = .ok w t →
        ∃ u, Reaches host (fun E => d.evaluateTree E v) t w u := by
  constructor
  · obtain ⟨t, ht, _⟩ := (h.tree hd).settles s h.published
    exact ⟨form d, t, ht⟩
  · intro n v w t hv hw
    have hfollows := h.evaluate hV hhost hd hv n
    obtain ⟨_, u, hu, _, _, rfl⟩ := hfollows.result s w t h.published hw t
      (hfollows.keeps.ok hw h.published)
    exact ⟨u, hu⟩

end Assembled

/-! ## Stateless host code -/

/-- The host function depends on its arguments alone: what it returns once it returns in every
store, given enough nested steps, and it publishes nothing. -/
structure Stateless (host : Host) (f : Func) : Prop where
  keeps : ∀ n args s t, ((machine host n).call f args).final s = t →
    t.trees = s.trees ∧ t.functions = s.functions ∧ s.nextId ≤ t.nextId
  recurs : ∀ n args s w t, (machine host n).call f args s = .ok w t →
    ∀ s', ∃ t', Reaches host (fun E => E.call f args) s' w t'

/-- All values as data, and stateless host functions that take no functions. -/
def Vocabulary.stateless (host : Host) : Vocabulary where
  data _ := True
  host f fs := Stateless host f ∧ ∀ b ∈ fs, b = false

theorem stateless_closed (host : Host) : (Vocabulary.stateless host).Closed :=
  ⟨fun _ _ => trivial, fun _ _ _ _ _ _ _ => trivial⟩

theorem allAlike_values {I : Store → Prop} {fs : List Bool} {vs ws : List Value}
    (h : AllAlike host I V fs vs ws) (hfs : ∀ b ∈ fs, b = false) : vs = ws := by
  induction h with
  | nil => rfl
  | @cons b fs v w vs ws hvw _ ih =>
      obtain rfl := hfs b (List.mem_cons_self ..)
      obtain ⟨_, rfl⟩ := alike_false.1 hvw
      rw [ih fun b hb => hfs b (List.mem_cons_of_mem _ hb)]

theorem stateless_respected (host : Host) : (Vocabulary.stateless host).Respected host := by
  rintro f fs ⟨hf, hfs⟩ I hI n args args' hargs
  obtain rfl := allAlike_values hargs hfs
  refine ⟨⟨fun s hs => ?_⟩, fun s w t _ hw s' hs' => ?_⟩
  · obtain ⟨htrees, hfunctions, hnext⟩ := hf.keeps n args s _ rfl
    exact hI s _ hs htrees hfunctions hnext
  · obtain ⟨t', N, hN⟩ := hf.recurs n args s w t hw s'
    obtain ⟨htrees, hfunctions, hnext⟩ := hf.keeps N args s' t' (Act.final_ok (hN N (Nat.le_refl _)))
    exact ⟨w, t', ⟨N, hN⟩, hI s' t' hs' htrees hfunctions hnext, trivial, rfl⟩

/-! ## Duals over stateless host code -/

/-- Lambdas over stateless host code that evaluate earlier duals, and compositions of earlier
duals. -/
def Simply (host : Host) (ds : List Dual) : Act Dual → Prop :=
  Assembles (.stateless host) (fun _ => True) (fun d _ => d ∈ ds) (fun _ => False) fun o i =>
    o ∈ ds ∧ i ∈ ds

theorem history_assembled
    (h : History (fun ds _ => Simply host ds) (Uses host (.stateless host)) ds s) :
    ∃ form, Assembled host (.stateless host) form ds s ∧ ∀ d ∈ ds, (form d).body.Lambdaless := by
  induction h with
  | start hs => exact ⟨fun _ => default, .start _ hs, by simp⟩
  | @make ds s t x d _ hx hd ih =>
      obtain ⟨form, h, hlambdaless⟩ := ih
      obtain ⟨o, l, hmakes, hnew, hshapes⟩ := hx.newForm h.flat h.faithful
        (fun d a hd => ⟨hd, (hlambdaless d hd).hygienic a⟩) (fun _ h => h.elim)
        (fun o i hoi => ⟨hoi.1, hoi.2, (hlambdaless o hoi.1).hygienic _⟩) host
      refine ⟨extend form d l, h.make hnew hmakes hd, fun e he => ?_⟩
      rcases List.mem_cons.1 he with rfl | he
      · rw [extend_self]
        exact hshapes.lambdaless hlambdaless fun _ h => h
      · rw [extend_older (h.older hmakes hd e he)]
        exact hlambdaless e he
  | between _ hst ih =>
      obtain ⟨form, h, hlambdaless⟩ := ih
      exact ⟨form, h.uses (stateless_closed host) (stateless_respected host) hst, hlambdaless⟩

/-- **Tree forms refine duals.** In every family of duals made of lambdas over stateless host
code, which may evaluate earlier duals at any depth, and of compositions, and whatever is done
with the duals in the meantime: every dual has a tree form, and whatever evaluating the dual
returns, the tree form, compiled and called, returns as well. -/
theorem tree_refines_function
    (h : History (fun ds _ => Simply host ds) (Uses host (.stateless host)) ds s) {d : Dual}
    (hd : d ∈ ds) : (∃ l t, Reaches host (fun E => E.tree d) s l t) ∧
      ∀ n v w t, d.evaluate (machine host n) v s = .ok w t →
        ∃ u, Reaches host (fun E => d.evaluateTree E v) t w u := by
  obtain ⟨form, hassembled, _⟩ := history_assembled h
  obtain ⟨htree, hevaluate⟩ := hassembled.refines (stateless_closed host) (stateless_respected host) hd
  exact ⟨htree, fun n v w t => hevaluate n v w t trivial⟩

/-! ## A dual that evaluates another one twice -/

/-- A host function on numbers is stateless. -/
theorem increment_stateless (r : Registry) (id : Nat) : Stateless r.host ⟨id, 1, .host "inc" []⟩ := by
  have hcall : ∀ n args, args.length = 1 → ∃ x : Except Error Value,
      (machine r.host (n + 1)).call ⟨id, 1, .host "inc" []⟩ args = Act.lift x := by
    intro n args hargs
    match args, hargs with
    | [v], _ => exact ⟨Routine.increment v, rfl⟩
  have hfail : ∀ n args, args.length ≠ 1 → (machine r.host (n + 1)).call ⟨id, 1, .host "inc" []⟩ args =
      Act.fail (.arityMismatch 1 args.length) := fun n args hargs => if_pos hargs
  constructor
  · rintro n args s t rfl
    cases n with
    | zero => exact ⟨rfl, rfl, Nat.le_refl _⟩
    | succ n =>
        by_cases hargs : args.length = 1
        · obtain ⟨x, hx⟩ := hcall n args hargs
          rw [hx]
          cases x <;> exact ⟨rfl, rfl, Nat.le_refl _⟩
        · rw [hfail n args hargs]
          exact ⟨rfl, rfl, Nat.le_refl _⟩
  · intro n args s w t h s'
    cases n with
    | zero => cases h
    | succ n =>
        by_cases hargs : args.length = 1
        · match args, hargs with
          | [v], _ =>
              change Act.lift (Routine.increment v) s = .ok w t at h
              have hv := (Act.lift_eq_ok.1 h).1
              refine ⟨s', (Reaches.lift hv s').step fun m => ?_⟩
              rfl
        · rw [hfail n args hargs] at h
          cases h

namespace Twice

/-- Parameters of the lambdas. -/
def x : Param := ⟨0, "x", .int⟩
def y : Param := ⟨1, "y", .int⟩

/-- `Host::inc`. -/
def successor : Method Invoker :=
  { declaring := .nominal "Host", name := "inc", params := [.int], result := .int, isStatic := true
    invoker := .function ⟨0, 1, .host "inc" []⟩ }

/-- The dual of `x => Host::inc(x)`. -/
def inner : Dual := ⟨0, .projection, .int, .int, .lambda ⟨[x], .staticCall successor [.param x]⟩⟩

/-- The dual of `y => inner(inner(y))`. -/
def outer : Dual := ⟨1, .projection, .int, .int, .lambda ⟨[y], inner.invoked (inner.called (.param y))⟩⟩

/-- The store after both have been made. -/
def store : Store := { Store.initial with nextId := 2 }

theorem body_inner (r : Registry) : Body (.stateless r.host) (fun d _ => d ∈ ([] : List Dual))
    (fun _ => False) false (.staticCall successor [.param x]) := by
  refine .node [(false, .param x)] ?_ rfl rfl ?_
  · exact .staticCall _ (.function ⟨increment_stateless r 0, by simp⟩)
  · rintro q hq
    rw [List.mem_singleton.1 hq]
    exact .param rfl

theorem history (r : Registry) :
    History (fun ds _ => Simply r.host ds) (Uses r.host (.stateless r.host)) [outer, inner] store := by
  have hinner : History (fun ds _ => Simply r.host ds) (Uses r.host (.stateless r.host)) [inner]
      { Store.initial with nextId := 1 } :=
    .make (.start fresh_initial) (.ofLambda .projection x trivial (body_inner r)) rfl
  have houter : Simply r.host [inner]
      (Dual.ofLambda .projection ⟨[y], inner.invoked (inner.called (.param y))⟩) := by
    refine .ofLambda .projection y trivial ?_
    exact .evaluation false (List.mem_singleton.2 rfl)
      (.evaluation true (List.mem_singleton.2 rfl) (.param rfl))
  exact .make hinner houter rfl

theorem evaluate_three (r : Registry) :
    ∃ t, outer.evaluate (machine r.host 5) (.int 3) store = .ok (.int 5) t := by
  have hcall : ∀ id (k : Int64) s, (machine r.host 4).call
      ⟨id, 1, .closure ⟨[x], .staticCall successor [.param x]⟩ []⟩ [.int k] s = .ok (.int (k + 1)) s :=
    fun _ _ _ => rfl
  have houter : (machine r.host 5).function outer store = .ok _ _ :=
    function_first rfl Std.HashMap.getElem?_empty 4
  generalize hs₁ : (Slot.function outer).write _ _ = s₁ at houter
  have hnone : s₁.functions[0]? = none := by
    rw [← hs₁, functions_write, if_neg (by decide)]
    exact Std.HashMap.getElem?_empty
  have hinner : (machine r.host 4).function inner s₁ = .ok _ _ := function_first rfl hnone 3
  generalize hs₂ : (Slot.function inner).write _ _ = s₂ at hinner
  have hfound : (machine r.host 4).function inner s₂ =
      .ok ⟨s₁.nextId, 1, .closure ⟨[x], .staticCall successor [.param x]⟩ []⟩ s₂ := by
    refine publishOnce_found ?_
    rw [← hs₂]
    exact (functions_write ..).trans (if_pos rfl)
  refine ⟨s₂, (Act.bind_ok houter).trans ?_⟩
  show evaluate (machine r.host 4) [(y, .int 3)] (inner.invoked (inner.called (.param y))) s₁ = _
  rw [evaluate_invoked, evaluate_called, evaluate_own]
  refine (Act.bind_ok hinner).trans ((Act.bind_ok ?_).trans (hcall s₁.nextId 4 s₂))
  exact (Act.bind_ok hfound).trans (hcall s₁.nextId 3 s₂)

end Twice

/-- The tree form of the dual that evaluates another one twice computes what the dual does. -/
theorem tree_refines_function_twice : ∃ t u,
    Twice.outer.evaluate (machine Registry.empty.host 5) (.int 3) Twice.store = .ok (.int 5) t ∧
      Reaches Registry.empty.host (fun E => Twice.outer.evaluateTree E (.int 3)) t (.int 5) u := by
  obtain ⟨t, ht⟩ := Twice.evaluate_three Registry.empty
  obtain ⟨u, hu⟩ :=
    (tree_refines_function (Twice.history Registry.empty) (List.mem_cons_self ..)).2 _ _ _ _ ht
  exact ⟨t, u, ht, hu⟩

end DualForm
