import DualForm.Host.Registry
import DualForm.Proofs.Dual.Ledger

/-!
# Specifications combined as duals and in trees

Principal results: `rewriteDefault_written` — operators in trees and combinators on duals build the
same lambda; `combination_coincides` — a combination of predicates ends alike in both forms, with the
same result or the same error, and host code does the same in between.
-/

namespace DualForm

variable {host : Host} {I : Store → Prop} {form : Dual → Lam} {D : Dual → Prop}

namespace Joined

def x : Param := ⟨0, "x", .int⟩
def y : Param := ⟨1, "y", .int⟩

/-- A property of integers that is always true, and writes its name to the log when it is read. -/
def traced (name : String) : Member Getter :=
  { declaring := .ofTy .int, name, ty := .bool, kind := .property, isStatic := false
    getter := .property ⟨10, 1, .host "trace" [.str name, .func ⟨11, 1, .host "const" [.bool true]⟩]⟩ }

/-- `x => x.p` -/
def first : Dual := ⟨0, .specification, .int, .bool, .lambda ⟨[x], .member (.param x) (traced "p")⟩⟩

/-- `y => y.q` -/
def second : Dual := ⟨1, .specification, .int, .bool, .lambda ⟨[y], .member (.param y) (traced "q")⟩⟩

/-- `(first & !second) | first` -/
def combination : Combination :=
  .joined .disjunction (.joined .conjunction (.leaf first) (.negated (.leaf second))) (.leaf first)

/-- `x => x.p && !x.q || x.p` -/
def lambda : Lam :=
  ⟨[x], .operation .orElse
    (.operation .andAlso (.member (.param x) (traced "p"))
      (Tree.complement (.member (.param x) (traced "q"))))
    (.member (.param x) (traced "p"))⟩

/-- `(int → bool)((first & !(int → bool)second) | (int → bool)first)` -/
def tree : Expr :=
  let method := Specification.disjunctionMethod .int
  .unary .convert
    (.binary .or
      (.binary .and first.literal
        (.unary .not second.converted (some (Specification.negationMethod .int)) (.specification .int))
        (some (Specification.conjunctionMethod .int)))
      first.converted (some method))
    (some (Dual.toFunctionMethod .specification .int .bool)) (.func [.int] .bool)

def store : Store := { Store.initial with nextId := 2 }

theorem predicate_of {p : Param} {name : String} {id : Nat} (hp : p.ty = .int) :
    (⟨id, .specification, .int, .bool, .lambda ⟨[p], .member (.param p) (traced name)⟩⟩ :
      Dual).Predicate where
  made := ⟨⟨[p], .member (.param p) (traced name)⟩, { Store.initial with nextId := id }, _, by
    unfold Dual.ofLambda Lambda.expectSingle
    rw [← hp]
    rfl⟩
  closed := Tree.freeParams_eq_nil_iff.2 (Tree.scoped_iff.2 ⟨fun r h => (by cases h), fun c hc => by
    rw [List.mem_singleton.1 hc]
    refine Tree.scoped_iff.2 ⟨fun r h => (by cases h), fun c hc => ?_⟩
    rw [List.mem_singleton.1 hc]
    exact Tree.scoped_param.2 (by simp [Lambda.tree, Tree.declared, Dual.raw])⟩)
  lambdaless := by
    refine Tree.everywhere_single (fun ps b h => (by cases h)) rfl ?_
    exact Tree.everywhere_leaf (fun ps b h => (by cases h)) rfl
  unreferenced := by
    refine Tree.anyNode_eq_false.2 (Tree.everywhere_single rfl rfl (Tree.everywhere_single rfl rfl ?_))
    refine Tree.everywhere_leaf ?_ rfl
    simp [Tree.refersToDual, hp, Ty.wrapper?]

theorem leaves : ∀ e ∈ combination.leaves, e.Predicate ∧ e.source = .int := by
  intro e he
  simp only [combination, Combination.leaves, List.cons_append, List.nil_append, List.mem_cons,
    List.not_mem_nil, or_false] at he
  rcases he with rfl | rfl | rfl <;> exact ⟨predicate_of rfl, rfl⟩

theorem ready : Ready combination.leaves store where
  fresh := ⟨fun id _ => by simp [store, Store.initial], fun id _ => by simp [store, Store.initial]⟩
  known := by decide
  distinct := by
    intro d hd e he hid
    simp only [combination, Combination.leaves, List.cons_append, List.nil_append, List.mem_cons,
      List.not_mem_nil, or_false] at hd he
    rcases hd with rfl | rfl | rfl <;> rcases he with rfl | rfl | rfl <;>
      first | rfl | exact absurd hid (by decide)
  tree := fun d _ k hk => by simp [store, Store.initial] at hk
  function := fun d _ f hf => by simp [store, Store.initial] at hf

theorem written : combination.Written tree := by
  refine .converted (.joined (.inr ⟨.inl rfl, rfl, rfl⟩) (.joined (.inl ⟨.inl rfl, rfl, rfl⟩)
    (.of_dual rfl) (.negated rfl (.converted (.of_dual rfl)))) (.converted (.of_dual rfl)))

/-- The lambda of whatever is made as this combination. -/
theorem lambda_of_records {Γ : Ledger} {d : Dual} {l : Lam} (h : Γ.Records combination d l) :
    l = lambda := by
  cases h with
  | joined hleft hright _ hm _ =>
      cases hright
      cases hleft with
      | joined hfirst hnot _ hm' _ =>
          cases hfirst
          cases hnot with
          | negated hsecond _ hm'' _ =>
              cases hsecond
              cases hm''
              cases hm'
              cases hm
              rfl

/-- What a read of such a property writes to the log. -/
def line (name : String) : String := name ++ "(" ++ ", ".intercalate (Value.texts [.int 3]) ++ ")"

/-- A predicate that reads such a property holds, after the read has been written down. -/
theorem call_traced {p : Param} {name : String} (id : Nat) (s : Store) :
    Ends Registry.empty.host
      (fun E => E.call ⟨id, 1, .closure ⟨[p], .member (.param p) (traced name)⟩ []⟩ [.int 3]) s
      (.ok (.bool true) { s with log := s.log.push (line name) }) := by
  refine Ends.step (y := fun E => evaluate E [(p, .int 3)] (.member (.param p) (traced name)))
    (fun n => call_closure id p _ (.int 3) n) ⟨2, ?_⟩
  intro n hn
  obtain ⟨m, rfl⟩ : ∃ m, n = m + 2 := ⟨n - 2, by omega⟩
  calc
    evaluate (machine Registry.empty.host (m + 2)) [(p, .int 3)] (.member (.param p) (traced name)) s
    _ = (evaluate (machine Registry.empty.host (m + 2)) [(p, .int 3)] (.param p) >>= fun v =>
          (traced name).read (machine Registry.empty.host (m + 2)) (some v)) s := rfl
    _ = (traced name).read (machine Registry.empty.host (m + 2)) (some (.int 3)) s := by
      rw [evaluate_own, pure_bind]
    _ = .ok (.bool true) { s with log := s.log.push (line name) } := rfl

theorem decides : ∀ e ∈ combination.leaves, ∀ f, Combination.Performs (.leaf e) f →
    Decides Registry.empty.host (fun _ => True) fun E => E.call f [.int 3] := by
  intro e he f hf
  simp only [combination, Combination.leaves, List.cons_append, List.nil_append, List.mem_cons,
    List.not_mem_nil, or_false] at he
  rcases he with rfl | rfl | rfl <;> cases hf with
  | leaf id ho =>
      cases ho
      exact fun s _ => ⟨_, call_traced id s, call_traced id s, ⟨true, rfl⟩, trivial⟩

end Joined

/-- **Operators in trees and combinators on duals build the same lambda.** Take a tree of operators
over literals of specifications, with conversions around any part of it, and the dual made of the same
specifications in the same shape. From every store in which the duals made on the way have published
nothing but their lambdas, as often as they are asked for and in whatever order, the dual hands out its
lambda and the pipeline rewrites the tree to it, identities of parameters included. -/
theorem rewriteDefault_written (hforms : Forms host I form D) {c : Combination} {d : Dual} {l : Lam}
    {e : Expr} (hd : c.Has form D I d l) (he : c.Written e) :
    (∀ N, Completes host I N True (· = l) fun E => E.tree d) ∧
      ∀ N, Completes host I N True (· = l.tree) fun E => rewriteDefault E e :=
  ⟨fun _ => hd.tree hforms, fun _ => rewriteDefault_denotes hforms (he.denotes hd)⟩

/-- `(first & !second) | first`, with conversions, becomes `x => x.p && !x.q || x.p`. -/
theorem rewriteDefault_written_joined : ∃ d t u u', Joined.combination.make Joined.store = .ok d t ∧
    Reaches Registry.empty.host (fun E => E.tree d) t Joined.lambda u ∧
    Reaches Registry.empty.host (fun E => rewriteDefault E Joined.tree) t Joined.lambda.tree u' := by
  obtain ⟨d, t, Γ, l, hmake, hΓ, hrecords, _⟩ := Joined.ready.open_ledger.make Joined.combination
    fun e he => ⟨⟨(Joined.leaves e he).1, Joined.ready.entry he⟩, (Joined.leaves e he).2⟩
  obtain rfl := Joined.lambda_of_records hrecords
  obtain ⟨htree, hrewrite⟩ :=
    rewriteDefault_written (Γ.forms Registry.empty.host t) (hrecords.has t) Joined.written
  have ht : Γ.Since t t := ⟨hΓ.holds, .refl t⟩
  obtain ⟨_, rfl, hsettles⟩ := (htree 0).settles trivial
  obtain ⟨_, rfl, hsettles'⟩ := (hrewrite 0).settles trivial
  obtain ⟨u, hu, _⟩ := hsettles t ht
  obtain ⟨u', hu', _⟩ := hsettles' t ht
  exact ⟨d, t, u, u', hmake, hu, hu'⟩

/-! ## Running both forms -/

/-- Evaluating a dual whose function form is published is calling it. -/
theorem evaluate_ends {d : Dual} {f : Func} {v : Value} {s : Store}
    {r : EStateM.Result Stop Store Value} (hf : s.functions[d.id]? = some f)
    (hr : Ends host (fun E => E.call f [v]) s r) : Ends host (fun E => d.evaluate E v) s r := by
  have hfunction : Ends host (fun E => E.function d) s (.ok f s) :=
    Ends.step (y := fun E => d.forceFunction host E) (fun _ => machine_function d)
      ⟨0, fun _ _ => publishOnce_found hf⟩
  exact hfunction.bind_ok hr

/-- **Combinations of predicates agree exactly in both forms.** Predicates over one source can be
combined in any way, and both forms of the result can be had without running host code. On every input
on which the predicates end with booleans or errors, evaluating the combination and calling its compiled
tree form end alike from every store: with the same boolean or the same error, and in the same store.
This is so for every host, also for one that writes down every routine it runs, so that host code runs
in the same order and equally often. -/
theorem combination_coincides (host : Host) {c : Combination} {source : Ty} {s : Store}
    (hleaves : ∀ e ∈ c.leaves, e.Predicate ∧ e.source = source) (hs : Ready c.leaves s) :
    ∃ (d : Dual) (t : Store) (Γ : Ledger) (l : Lam), c.make s = .ok d t ∧ Γ.Records c d l ∧ Γ.Holds t ∧
      (∀ u, Γ.Holds u →
        (∃ f u', Reaches host (fun E => E.function d) u f u' ∧ u'.functions[d.id]? = some f ∧
          c.Performs f ∧ Γ.Since u u') ∧
        ∃ u', Reaches host (fun E => E.tree d) u l u' ∧ Γ.Since u u') ∧
      ∀ (v : Value) (I : Store → Prop),
        (∀ e ∈ c.leaves, ∀ f, Combination.Performs (.leaf e) f →
          Decides host I fun E => E.call f [v]) →
        ∀ u f id, I u → c.Performs f → u.functions[d.id]? = some f →
          ∃ r, Ends host (fun E => d.evaluate E v) u r ∧
            Ends host (fun E => E.call ⟨id, l.arity, .closure l []⟩ [v]) u r ∧
            Finished I IsBool r := by
  obtain ⟨d, t, Γ, l, hmake, hΓ, hrecords, _⟩ := hs.open_ledger.make c
    fun e he => ⟨⟨(hleaves e he).1, hs.entry he⟩, (hleaves e he).2⟩
  refine ⟨d, t, Γ, l, hmake, hrecords, hΓ.holds, fun u hu => ⟨hrecords.function hu, hrecords.tree hu⟩, ?_⟩
  intro v I hdecides u f id hu hf hpublished
  obtain ⟨p, hp⟩ := hrecords.own
  have hbody := (hrecords.has .initial).coincide (fun e he => he.1) hdecides hf hp.single
  obtain ⟨r, hcall, hevaluate, hr⟩ := hbody u hu
  refine ⟨r, evaluate_ends hpublished hcall, ?_, hr⟩
  obtain ⟨ps, b⟩ := l
  obtain rfl : ps = [p] := hp.single
  exact hevaluate.step fun n => call_closure id p b v n

/-- `(first & !second) | first` holds in both forms, after `p`, `q` and `p` again have been read. -/
theorem combination_coincides_traced : ∃ d t l s u, Joined.combination.make Joined.store = .ok d t ∧
    Ends Registry.empty.host (fun E => d.evaluate E (.int 3)) s (.ok (.bool true) u) ∧
    Ends Registry.empty.host (fun E => E.call ⟨0, l.arity, .closure l []⟩ [.int 3]) s
      (.ok (.bool true) u) ∧
    u.log = ((s.log.push (Joined.line "p")).push (Joined.line "q")).push (Joined.line "p") := by
  obtain ⟨d, t, Γ, l, hmake, hrecords, hholds, hforms, hends⟩ :=
    combination_coincides Registry.empty.host Joined.leaves Joined.ready
  obtain ⟨⟨f, s, _, hpublished, hf, _⟩, _⟩ := hforms t hholds
  obtain ⟨r, hevaluate, hcall, _⟩ := hends (.int 3) (fun _ => True) Joined.decides s f 0 trivial hf
    hpublished
  obtain rfl := Joined.lambda_of_records hrecords
  have hr : Ends Registry.empty.host
      (fun E => E.call ⟨0, Joined.lambda.arity, .closure Joined.lambda []⟩ [.int 3]) s (.ok (.bool true)
        { s with log := ((s.log.push (Joined.line "p")).push (Joined.line "q")).push (Joined.line "p") }) := by
    refine Ends.step (y := fun E => evaluate E [(Joined.x, .int 3)] Joined.lambda.body)
      (fun n => call_closure 0 Joined.x _ (.int 3) n) ⟨2, ?_⟩
    intro n hn
    obtain ⟨m, rfl⟩ : ∃ m, n = m + 2 := ⟨n - 2, by omega⟩
    rfl
  obtain rfl := hcall.unique hr
  exact ⟨d, t, _, s, _, hmake, hevaluate, hcall, rfl⟩

end DualForm
