import DualForm.Host.Registry
import DualForm.Proofs.Dual.History
import DualForm.Proofs.Dual.References
import DualForm.Proofs.Rewriting.Clear
import DualForm.Proofs.Rewriting.Scope

/-!
# No parameter escapes from a tree form

* `Origin.Of D ok o` — a dual of this origin is made of duals with `D` and of lambdas with `ok`.
* `Arises D ok x` — `x` is one of the ways to make a dual of such duals and lambdas.
* `Demands host D n s t` — between two stores, tree forms of duals with `D` are asked for, or
  something else happens.
* `Lambda.Supplied S l` — a closed lambda with one parameter over the stock `S`.
* `Stock.Sustains S host D` — the duals with `D` are made of each other and of supplied lambdas, and
  reading members of the stock leads to no other duals.

Principal results: `machine_within` — the machine keeps the tree forms of such a family closed;
`tree_closed` — so each of them has one parameter and no free ones; `tree_not_closed` — which is not so
where a member is read of a value it meets only when one lambda has been put into another.
-/

namespace DualForm

open Act (Ensures Keeps)

variable {host : Host} {S : Stock} {D : Dual → Prop} {ok : Lam → Prop} {E : Engine}
  {I : Store → Prop}

/-- Made of duals with `D` and of lambdas with `ok`. -/
def Origin.Of (D : Dual → Prop) (ok : Lam → Prop) : Origin → Prop
  | .lambda l => ok l
  | .compiled c => ∃ l, c.expression = some l ∧ ok l
  | .composed outer inner => D outer ∧ D inner
  | .precomposed outer c => D outer ∧ ∃ l, c.expression = some l ∧ ok l
  | .postcomposed inner c => D inner ∧ ∃ l, c.expression = some l ∧ ok l
  | .conjunction lhs rhs | .disjunction lhs rhs => D lhs ∧ D rhs
  | .negation predicate => D predicate
  | .bound .. | .hosted .. => False

/-- The ways to make a dual of duals with `D` and of lambdas with `ok`. -/
inductive Arises (D : Dual → Prop) (ok : Lam → Prop) : Act Dual → Prop
  | ofLambda (kind : DualKind) {l : Lam} : ok l → Arises D ok (Dual.ofLambda kind l)
  | ofCompiled (kind : DualKind) (source result : Ty) {c : Compiled} {l : Lam} :
      c.expression = some l → ok l → Arises D ok (Dual.ofCompiled kind source result c)
  | applyTo {outer : Dual} {l : Lam} : D outer → ok l → Arises D ok (outer.applyTo l)
  | applyToFunc {outer : Dual} (source : Ty) {c : Compiled} {l : Lam} : D outer →
      c.expression = some l → ok l → Arises D ok (outer.applyToFunc source c)
  | continueWith {inner : Dual} {l : Lam} : D inner → ok l → Arises D ok (inner.continueWith l)
  | continueWithFunc {inner : Dual} (result : Ty) {c : Compiled} {l : Lam} : D inner →
      c.expression = some l → ok l → Arises D ok (inner.continueWithFunc result c)
  | compose {outer inner : Dual} : D outer → D inner → Arises D ok (outer.compose inner)
  | conjunction {lhs rhs : Dual} : D lhs → D rhs → Arises D ok (Dual.conjunction lhs rhs)
  | disjunction {lhs rhs : Dual} : D lhs → D rhs → Arises D ok (Dual.disjunction lhs rhs)
  | negation {predicate : Dual} : D predicate → Arises D ok (Dual.negation predicate)

theorem Arises.makes {x : Act Dual} (h : Arises D ok x) : Makes (Origin.Of D ok) x := by
  cases h with
  | ofLambda kind hl => exact ofLambda_makes hl kind
  | ofCompiled kind source result hc hl => exact ofCompiled_makes ⟨_, hc, hl⟩ ..
  | applyTo ho hl => exact applyTo_makes fun _ => ⟨ho, _, rfl, hl⟩
  | applyToFunc source ho hc hl => exact applyToFunc_makes ⟨ho, _, hc, hl⟩ _
  | continueWith hi hl => exact continueWith_makes fun _ => ⟨hi, _, rfl, hl⟩
  | continueWithFunc result hi hc hl => exact continueWithFunc_makes ⟨hi, _, hc, hl⟩ _
  | compose ho hi => exact compose_makes ⟨ho, hi⟩
  | conjunction hl hr => exact conjunction_makes ⟨hl, hr⟩
  | disjunction hl hr => exact disjunction_makes ⟨hl, hr⟩
  | negation hp => exact negation_makes hp

/-! ## Families over a stock -/

/-- Between two stores, tree forms of duals with `D` are asked for, with at most `n` nested steps, and
other things happen that leave these tree forms alone. -/
inductive Demands (host : Host) (D : Dual → Prop) (n : Nat) (s : Store) : Store → Prop
  | refl : Demands host D n s s
  | tree {t : Store} {d : Dual} {k : Nat} : Demands host D n s t → D d → k ≤ n →
      Demands host D n s (((machine host k).tree d).final t)
  | elsewhere {t u : Store} : Demands host D n s t → (∀ d, D d → u.trees[d.id]? = t.trees[d.id]?) →
      Demands host D n s u

/-- A closed lambda with one parameter over the stock. -/
structure Lambda.Supplied (S : Stock) (l : Lam) : Prop where
  single : ∃ p, l.params = [p]
  closed : l.tree.freeParams = []
  stocked : l.tree.Everywhere S.holds

/-- The duals with `D` are made of each other and of supplied lambdas. Reading members of the stock, of
values of the stock, gives values of the stock, and leaves the tree forms of these duals alone, apart
from asking for them. All duals of the stock have `D`. -/
structure Stock.Sustains (S : Stock) (host : Host) (D : Dual → Prop) : Prop where
  made : ∀ d, D d → ∃ x s t, Arises D (Lambda.Supplied S) x ∧ x s = .ok d t
  dual : ∀ d, S.value (.dual d) → D d
  read : ∀ m, S.member m → ∀ n target, (∀ v, target = some v → S.value v) → ∀ s,
    Demands host D n s ((m.read (machine host n) target).final s) ∧
      ∀ w t, m.read (machine host n) target s = .ok w t → S.value w

theorem Lambda.Supplied.within {l : Lam} (h : l.Supplied S) : l.Within S [] :=
  ⟨h.single, Tree.freeParams_eq_nil_iff.1 h.closed, h.stocked⟩

/-- The published tree forms of the duals with `D` are closed lambdas over the stock. -/
def Sealed (D : Dual → Prop) (S : Stock) (s : Store) : Prop :=
  ∀ d l, D d → s.trees[d.id]? = some l → l.Within S []

theorem Demands.sealed {n : Nat} {s t : Store} (h : Demands host D n s t)
    (htree : ∀ k ≤ n, ∀ d, D d → ((machine host k).tree d).Keeps (Sealed D S)) (hs : Sealed D S s) :
    Sealed D S t := by
  induction h with
  | refl => exact hs
  | tree _ hd hk ih => exact (htree _ hk _ hd).after _ ih
  | elsewhere _ hsame ih => exact fun d l hd hl => ih d l hd (by rw [← hsame d hd]; exact hl)

/-- What a dual of closed lambdas has as its tree form is closed. -/
theorem initialTree_within {d : Dual} (hd : d.origin.Of D (Lambda.Supplied S))
    (htree : ∀ e, D e → Ensures I (Lambda.Within S []) (E.tree e))
    (hrewrite : ∀ pass bound u, Within S bound u → Ensures I (Rewritten S bound u) (E.rewrite pass u)) :
    Ensures I (Lambda.Within S []) (d.initialTree host E) := by
  unfold Dual.initialTree
  generalize d.origin = o at hd ⊢
  cases o with
  | lambda l => exact rewriteLambda_within hd.within hrewrite
  | compiled c =>
      obtain ⟨l, hc, hl⟩ := hd
      dsimp only
      rw [compiled_tree_supplied hc]
      exact rewriteLambda_within hl.within hrewrite
  | composed outer inner =>
      exact (htree _ hd.1).bind fun f hf => (htree _ hd.2).bind fun g hg =>
        Ensures.lift fun l hl => hf.composed hg hl
  | precomposed outer c =>
      obtain ⟨ho, k, hc, hk⟩ := hd
      dsimp only
      rw [compiled_tree_supplied hc]
      exact (htree _ ho).bind fun f hf => Ensures.lift fun l hl => hf.composed hk.within hl
  | postcomposed inner c =>
      obtain ⟨hi, k, hc, hk⟩ := hd
      dsimp only
      rw [compiled_tree_supplied hc]
      exact (htree _ hi).bind fun f hf => Ensures.lift fun l hl =>
        hk.within.composed hf (Lambda.continued_ok.1 hl)
  | conjunction lhs rhs =>
      exact (htree _ hd.1).bind fun f hf => (htree _ hd.2).bind fun g hg =>
        Ensures.lift fun l hl => hf.combined hg hl
  | disjunction lhs rhs =>
      exact (htree _ hd.1).bind fun f hf => (htree _ hd.2).bind fun g hg =>
        Ensures.lift fun l hl => hf.combined hg hl
  | negation predicate => exact (htree _ hd).bind fun f hf => Ensures.lift fun l hl => hf.negation hl
  | bound builders bindings => exact hd.elim
  | hosted build func rewritten => exact hd.elim

/-- **The machine keeps the tree forms of the family closed.** The induction is on the nested steps
allowed; reading members may ask for tree forms as well, with fewer of them. -/
theorem machine_within (h : S.Sustains host D) (n : Nat) : ∀ k ≤ n,
    (∀ d, D d → Ensures (Sealed D S) (Lambda.Within S []) ((machine host k).tree d)) ∧
      ∀ pass bound t, Within S bound t →
        Ensures (Sealed D S) (Rewritten S bound t) ((machine host k).rewrite pass t) := by
  induction n with
  | zero =>
      intro k hk
      obtain rfl := Nat.le_zero.1 hk
      exact ⟨fun _ _ => Ensures.exhausted, fun _ _ _ _ => Ensures.exhausted⟩
  | succ n ih =>
      intro k hk
      rcases Nat.lt_or_eq_of_le hk with hk | rfl
      · exact ih k (Nat.lt_succ_iff.1 hk)
      obtain ⟨htree, hrewrite⟩ := ih n (Nat.le_refl n)
      have hsupplies : S.Supplies (machine host n) (Sealed D S) := by
        refine ⟨fun m hm target htarget => ⟨⟨fun s hs => ?_⟩, fun s w t _ hw => ?_⟩,
          fun d hd => htree d (h.dual d hd)⟩
        · exact (h.read m hm n target htarget s).1.sealed (fun k hk d hd => ((ih k hk).1 d hd).keeps) hs
        · exact (h.read m hm n target htarget s).2 w t hw
      constructor
      · intro d hd
        obtain ⟨x, s, t, hx, hmade⟩ := h.made d hd
        have horigin := (hx.makes.made s d t hmade).1
        refine publishOnce_ensures (initialTree_within horigin htree hrewrite) ?_ ?_
        · intro s l hs hl
          exact hs d l hd hl
        · intro s l _ hs hl e m he hm
          rw [trees_write] at hm
          split at hm
          · cases hm; exact hl
          · exact hs e m he hm
      · intro pass bound t ht
        exact run_within hsupplies (fun bound u hu => (hrewrite pass bound u hu).imp fun _ hv => hv.within)
          ht

/-- **No parameter escapes.** Take duals made of each other and of closed lambdas with one parameter,
which bind no factories, such that reading the members in these lambdas leads to duals of the family
only, also where it takes rewriting to bring a member and a value together. Beginning where none of
their tree forms has been asked for, whatever is asked for and happens otherwise, the tree form of each
of them has one parameter and no free ones. -/
theorem tree_closed (h : S.Sustains host D) {m : Nat} {s₀ s : Store}
    (h₀ : ∀ d, D d → s₀.trees[d.id]? = none) (hs : Demands host D m s₀ s) {d : Dual} (hd : D d)
    {n : Nat} {l : Lam} {t : Store} (hl : (machine host n).tree d s = .ok l t) :
    (∃ p, l.params = [p]) ∧ l.tree.freeParams = [] := by
  have hstart : Sealed D S s₀ := fun e k he hk => by rw [h₀ e he] at hk; cases hk
  have hsealed := hs.sealed (fun k hk e he => ((machine_within h m k hk).1 e he).keeps) hstart
  have hwithin := ((machine_within h n n (Nat.le_refl n)).1 d hd).result s l t hsealed hl
  exact ⟨hwithin.single, Tree.freeParams_eq_nil_iff.2 hwithin.within.inScope⟩

/-! ## A member read of a value that comes in by rewriting -/

/-- A dual that a receiver folds to, evaluated on an argument. -/
theorem evaluationRule_run {d : Dual} {receiver arg a u : Expr} {l : Lam} {s t v : Store} {n : Visited}
    (hreceiver : receiverLambda E d.kind receiver = foldDual E d.kind receiver)
    (hfolds : tryEvaluate E receiver s = .ok (some (.dual d)) s) (htree : E.tree d s = .ok l t)
    (ha : l.applied arg = .ok a) (hu : E.rewrite (.inlining d.kind) a t = .ok u v) :
    evaluationRule E d.kind receiver arg n s = .ok u v := by
  have hfold : foldDual E d.kind receiver s = .ok (some l) t := by
    refine (Act.bind_ok hfolds).trans ?_
    dsimp only
    rw [if_neg (by simp [Datum.isNull]), expect_dual]
    exact Act.bind_ok htree
  have hinline : inlineCall E d.kind receiver arg s = .ok (some u) v := by
    unfold inlineCall
    rw [hreceiver]
    refine (Act.bind_ok hfold).trans ?_
    dsimp only
    rw [ha]
    exact Act.bind_ok hu
  exact Act.bind_ok hinline

namespace Handed

def x : Param := ⟨0, "x", .int⟩
def y : Param := ⟨1, "y", .int⟩
def z : Param := ⟨2, "z", .int⟩
def w : Param := ⟨3, "w", .int⟩

/-- The dual of `z => b`. -/
def held (b : Expr) : Dual := ⟨0, .projection, .int, .int, .lambda ⟨[z], b⟩⟩

/-- A property of integers that gives this dual. -/
def property (b : Expr) : Member Getter :=
  { declaring := .ofTy .int, name := "q", ty := .projection .int .int, kind := .property
    isStatic := false, getter := .property ⟨10, 1, .host "const" [.dual (held b)]⟩ }

/-- `x => x.q(3)` -/
def inner (b : Expr) : Lam :=
  ⟨[x], .call (.member (.param x) (property b)) (Dual.evaluateMethod .projection .int .int)
    [Tree.constant (.int 3)]⟩

def first (b : Expr) : Dual := ⟨1, .projection, .int, .int, .lambda (inner b)⟩

/-- `y => first(5)` -/
def outer (b : Expr) : Lam := ⟨[y], (first b).called (Tree.constant (.int 5))⟩

def second (b : Expr) : Dual := ⟨2, .projection, .int, .int, .lambda (outer b)⟩

def store (n : Nat) : Store := { Store.initial with nextId := n }

/-- `b` with 3 in the place of `z`. -/
def result (b : Expr) : Expr := Tree.substitute z (Tree.constant (.int 3)) b

variable {b : Expr}

/-- A pipeline in which only the last pass changes anything. -/
theorem rewriteLambda_last {l k : Lam} {s t : Store}
    (hleft : ∀ pass, pass ≠ .inlining .projection → E.rewrite pass l.tree s = .ok l.tree s)
    (hlast : E.rewrite (.inlining .projection) l.tree s = .ok k.tree t) :
    rewriteLambda E l s = .ok k t := by
  have hpasses : rewriteDefault E l.tree s = .ok k.tree t := by
    refine (Act.bind_ok (hleft .factories (by decide))).trans ?_
    refine (Act.bind_ok (hleft .combinators (by decide))).trans ?_
    refine (Act.bind_ok (hleft (.inlining .specification) (by decide))).trans ?_
    exact Act.bind_ok hlast
  exact (Act.bind_ok hpasses).trans rfl

theorem held_run (hb : ∀ pass n s, (machine host (n + 1)).rewrite pass (.lambda [z] b) s =
      .ok (.lambda [z] b) s) (n : Nat) {s : Store} (hs : s.trees[0]? = none) :
    (machine host (n + 2)).tree (held b) s = .ok ⟨[z], b⟩ ((Slot.tree (held b)).write ⟨[z], b⟩ s) :=
  publishOnce_first hs (rewriteLambda_last (fun pass _ => hb pass n s) (hb _ n s)) hs

theorem first_run (n : Nat) {s : Store} (hs : s.trees[1]? = none) :
    (machine host (n + 2)).tree (first b) s = .ok (inner b) ((Slot.tree (first b)).write (inner b) s) := by
  have hleft : ∀ pass, (machine host (n + 1)).rewrite pass (inner b).tree s = .ok (inner b).tree s := by
    intro pass
    cases pass with
    | factories => rfl
    | combinators => rfl
    | inlining kind => cases kind <;> rfl
  exact publishOnce_first hs (rewriteLambda_last (fun pass _ => hleft pass) (hleft _)) hs

/-- Inlining `first` brings 5 and the property together, and the dual it holds is inlined as well. -/
theorem second_run (hb : ∀ pass n s, (machine Registry.empty.host (n + 1)).rewrite pass (.lambda [z] b) s =
      .ok (.lambda [z] b) s)
    (hresult : ∀ n s, (machine Registry.empty.host (n + 1)).rewrite (.inlining .projection) (result b) s =
      .ok (result b) s)
    {s : Store} (hs : ∀ id : Nat, s.trees[id]? = none) :
    ∃ t, (machine Registry.empty.host 6).tree (second b) s = .ok ⟨[y], result b⟩ t := by
  let s₁ := (Slot.tree (first b)).write (inner b) s
  let s₂ := (Slot.tree (held b)).write ⟨[z], b⟩ s₁
  have hs₁ : s₁.trees[0]? = none :=
    (trees_write ..).trans ((if_neg (show (1 : Nat) ≠ 0 by decide)).trans (hs 0))
  have hs₁' : s₁.trees[2]? = none :=
    (trees_write ..).trans ((if_neg (show (1 : Nat) ≠ 2 by decide)).trans (hs 2))
  have hs₂ : s₂.trees[2]? = none :=
    (trees_write ..).trans ((if_neg (show (0 : Nat) ≠ 2 by decide)).trans hs₁')
  have happlied : (machine Registry.empty.host 4).rewrite (.inlining .projection)
      (.call (.member (Tree.constant (.int 5)) (property b))
        (Dual.evaluateMethod .projection .int .int) [Tree.constant (.int 3)]) s₁ =
      .ok (result b) s₂ :=
    evaluationRule_run (d := held b) rfl rfl (held_run hb 1 hs₁) rfl (hresult 2 s₂)
  have hbody : evaluationRule (machine Registry.empty.host 4) .projection (first b).literal
      (Tree.constant (.int 5)) ((outer b).body.node.map fun u =>
        (u, (DualPass.inlining .projection).run (machine Registry.empty.host 4) u)) s =
      .ok (result b) s₂ :=
    evaluationRule_run (d := first b) rfl rfl (first_run 2 (hs 1)) rfl happlied
  have hlast : (machine Registry.empty.host 5).rewrite (.inlining .projection) (outer b).tree s =
      .ok (Tree.lambda [y] (result b)) s₂ :=
    Act.bind_ok (f := fun m : ExprNode Expr => pure m.tree)
      (Act.bind_ok (f := fun u => pure (Node.lambda [y] u : ExprNode Expr)) hbody)
  have hleft : ∀ pass, pass ≠ .inlining .projection →
      (machine Registry.empty.host 5).rewrite pass (outer b).tree s = .ok (outer b).tree s := by
    intro pass hpass
    cases pass with
    | factories => rfl
    | combinators => rfl
    | inlining kind => cases kind <;> first | rfl | exact absurd rfl hpass
  exact ⟨_, publishOnce_first (hs 2) (rewriteLambda_last hleft hlast) hs₂⟩

/-- The nodes of `x => x.q(3)`. -/
theorem inner_everywhere {p : Expr → Prop} (hlambda : p (inner b).tree) (hcall : p (inner b).body)
    (hread : p (.member (.param x) (property b))) (hx : p (.param x))
    (harg : p (Tree.constant (.int 3))) : (inner b).tree.Everywhere p := by
  refine Tree.everywhere_single hlambda rfl ?_
  refine Tree.everywhere_pair hcall rfl ?_ ?_
  · refine Tree.everywhere_single hread rfl ?_
    exact Tree.everywhere_leaf hx rfl
  · exact Tree.everywhere_leaf harg rfl

/-- The nodes of `y => first(5)`. -/
theorem outer_everywhere {p : Expr → Prop} (hlambda : p (outer b).tree) (hcall : p (outer b).body)
    (hfirst : p (first b).literal) (harg : p (Tree.constant (.int 5))) :
    (outer b).tree.Everywhere p := by
  refine Tree.everywhere_single hlambda rfl ?_
  refine Tree.everywhere_pair hcall rfl ?_ ?_
  · exact Tree.everywhere_leaf hfirst rfl
  · exact Tree.everywhere_leaf harg rfl

/-- `z + 1` -/
def successor : Expr := .operation .add (.param z) (Tree.constant (.int 1))

/-- The dual of `z => z + 1` and the two that lead to it. -/
def family : List Dual := [held successor, first successor, second successor]

/-- All values but other duals, and the property. -/
def stock : Stock where
  value v := ∀ d, v = .dual d → d ∈ family
  member m := m = property successor

theorem sustains : stock.Sustains Registry.empty.host (· ∈ family) where
  made d hd := by
    have hint : ∀ n, stock.holds (Tree.constant (.int n)) := fun n d h => by cases h
    have harises : ∀ {l : Lam}, l.Supplied stock →
        Arises (· ∈ family) (Lambda.Supplied stock) (Dual.ofLambda .projection l) :=
      fun hl => .ofLambda .projection hl
    simp only [family, List.mem_cons, List.not_mem_nil, or_false] at hd
    rcases hd with rfl | rfl | rfl
    · refine ⟨_, store 0, store 1, harises (l := ⟨[z], successor⟩) ⟨⟨z, rfl⟩, rfl, ?_⟩, rfl⟩
      refine Tree.everywhere_single trivial rfl ?_
      refine Tree.everywhere_pair trivial rfl ?_ ?_
      · exact Tree.everywhere_leaf trivial rfl
      · exact Tree.everywhere_leaf (hint 1) rfl
    · exact ⟨_, store 1, store 2, harises (l := inner successor)
        ⟨⟨x, rfl⟩, rfl, inner_everywhere trivial rfl rfl trivial (hint 3)⟩, rfl⟩
    · refine ⟨_, store 2, store 3, harises (l := outer successor)
        ⟨⟨y, rfl⟩, rfl, outer_everywhere trivial rfl (fun d hd => ?_) (hint 5)⟩, rfl⟩
      cases hd
      simp [family]
  dual d hd := hd d rfl
  read m hm n target _ s := by
    obtain rfl : m = property successor := hm
    cases target with
    | none => exact ⟨.refl, fun w t hw => by cases hw⟩
    | some v =>
        cases n with
        | zero => exact ⟨.refl, fun w t hw => by cases hw⟩
        | succ n =>
            refine ⟨.refl, fun w t hw d hd => ?_⟩
            subst hd
            cases hw
            simp [family]

end Handed

/-- The tree form `y => 3 + 1` of the last dual is closed. -/
theorem tree_closed_handed : ∃ l t, (machine Registry.empty.host 6).tree
    (Handed.second Handed.successor) (Handed.store 3) = .ok l t ∧ (∃ p, l.params = [p]) ∧
      l.tree.freeParams = [] := by
  have hempty : ∀ id : Nat, (Handed.store 3).trees[id]? = none := fun id => by
    simp [Handed.store, Store.initial]
  obtain ⟨t, ht⟩ := Handed.second_run (b := Handed.successor)
    (fun pass n s => by
      cases pass with
      | factories => rfl
      | combinators => rfl
      | inlining kind => cases kind <;> rfl)
    (fun n s => rfl) hempty
  exact ⟨_, t, ht, tree_closed Handed.sustains (fun d _ => hempty d.id) (.refl (n := 0))
    (by simp [Handed.family]) ht⟩

/-! ## Members read of values that come in by rewriting -/

/-- A closed lambda with one parameter that binds no factories, where all duals that literals and members
read of them or of static members give have `D`. -/
structure Lambda.Enclosed (host : Host) (D : Dual → Prop) (l : Lam) : Prop where
  single : ∃ p, l.params = [p]
  closed : l.tree.freeParams = []
  unbound : l.tree.Clear .factories
  duals : l.tree.Everywhere fun u => ∀ n s d t,
    tryEvaluate (machine host n) u s = .ok (some (.dual d)) t → D d

namespace Handed

/-- The duals that lead to `z => w`. -/
def leading : List Dual := [first (.param w), second (.param w)]

/-- What does not fold has no value. -/
theorem leading_of_unfolded {u : Expr} (hu : u.folds = false) (n : Nat) (s : Store) (d : Dual) (t : Store) :
    tryEvaluate (machine Registry.empty.host n) u s = .ok (some (.dual d)) t → d ∈ leading := by
  rw [tryEvaluate_of_not_folds hu]
  intro h
  cases h

theorem leading_of_integer (i : Int64) (n : Nat) (s : Store) (d : Dual) (t : Store) :
    tryEvaluate (machine Registry.empty.host n) (Tree.constant (.int i)) s = .ok (some (.dual d)) t →
      d ∈ leading := fun h => by cases h

theorem inner_enclosed : (inner (.param w)).Enclosed Registry.empty.host (· ∈ leading) where
  single := ⟨x, rfl⟩
  closed := rfl
  unbound := inner_everywhere rfl rfl rfl rfl rfl
  duals := inner_everywhere (leading_of_unfolded rfl) (leading_of_unfolded rfl) (leading_of_unfolded rfl)
    (leading_of_unfolded rfl) (leading_of_integer 3)

theorem outer_enclosed : (outer (.param w)).Enclosed Registry.empty.host (· ∈ leading) where
  single := ⟨y, rfl⟩
  closed := rfl
  unbound := outer_everywhere rfl rfl rfl rfl
  duals := by
    refine outer_everywhere (leading_of_unfolded rfl) (leading_of_unfolded rfl) (fun n s d t h => ?_)
      (leading_of_integer 5)
    cases h
    simp [leading]

end Handed

/-- **It is not enough to look at the lambdas one by one.** Two duals are made of lambdas that are closed
and contain no duals but these; still the tree form of the second reads a parameter that nothing
declares. It comes from a dual that a property gives, and the property is read of a parameter until 5 is
put in its place. -/
theorem tree_not_closed :
    (∀ d ∈ Handed.leading, ∃ x s t, Arises (· ∈ Handed.leading)
      (Lambda.Enclosed Registry.empty.host (· ∈ Handed.leading)) x ∧ x s = .ok d t) ∧
    ∃ l t, (machine Registry.empty.host 6).tree (Handed.second (.param Handed.w)) (Handed.store 3) =
      .ok l t ∧ l.tree.freeParams = [Handed.w] := by
  constructor
  · intro d hd
    simp only [Handed.leading, List.mem_cons, List.not_mem_nil, or_false] at hd
    rcases hd with rfl | rfl
    · exact ⟨_, Handed.store 1, Handed.store 2, .ofLambda .projection Handed.inner_enclosed, rfl⟩
    · exact ⟨_, Handed.store 2, Handed.store 3, .ofLambda .projection Handed.outer_enclosed, rfl⟩
  · obtain ⟨t, ht⟩ := Handed.second_run (b := .param Handed.w) (s := Handed.store 3)
      (fun pass n s => by
        cases pass with
        | factories => rfl
        | combinators => rfl
        | inlining kind => cases kind <;> rfl)
      (fun n s => rfl) (fun id => by simp [Handed.store, Store.initial])
    exact ⟨_, t, ht, rfl⟩

end DualForm
