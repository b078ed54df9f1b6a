import DualForm.Proofs.Laziness.Recomputing

/-!
# Families of duals

* `Making G x` — `x` makes a dual of given objects: of a lambda, of a function with its tree, of other duals
  by a combination, or of another dual with a lambda, a function or a dual before or after it.
* `Built G s` — the functions and duals in `G` have been made one after the other, up to the store `s`, each of
  earlier ones; no form of them has been asked for meanwhile.
* `World.twin G s` — the world of a run beside itself; `Unforced G s` — it is sound, and no form of the
  given duals has been published.

Principal result: `Built.unforced` — a family that has just been made is unforced.
-/

namespace DualForm

variable {G H : Ground} {W : World} {s t : Store} {f : Func} {d e : Dual} {l : Lam}

/-! ## More given objects -/

/-- What is given in the first ground is given in the second. -/
structure Ground.Sub (G H : Ground) : Prop where
  funcs : ∀ {f}, G.funcs f → H.funcs f
  duals : ∀ {d}, G.duals d → H.duals d
  routines : ∀ {name}, G.routines name → H.routines name

section Within

variable {p p' : Func → Prop} {q q' : Dual → Prop}

mutual

theorem Value.Within.mono (hp : ∀ f, p f → p' f) (hq : ∀ d, q d → q' d) :
    ∀ {v : Value}, Value.Within p q v → Value.Within p' q' v
  | .null, _ | .bool _, _ | .int _, _ | .float _, _ | .str _, _ => trivial
  | .list _, h => Value.AllWithin.mono hp hq h
  | .record .., h => Value.FieldsWithin.mono hp hq h
  | .func _, h => hp _ h
  | .dual _, h => hq _ h
  | .factory _, h => h

theorem Value.AllWithin.mono (hp : ∀ f, p f → p' f) (hq : ∀ d, q d → q' d) :
    ∀ {vs : List Value}, Value.AllWithin p q vs → Value.AllWithin p' q' vs
  | [], _ => trivial
  | _ :: _, h => ⟨Value.Within.mono hp hq h.1, Value.AllWithin.mono hp hq h.2⟩

theorem Value.FieldsWithin.mono (hp : ∀ f, p f → p' f) (hq : ∀ d, q d → q' d) :
    ∀ {fs : List (String × Value)}, Value.FieldsWithin p q fs → Value.FieldsWithin p' q' fs
  | [], _ => trivial
  | _ :: _, h => ⟨Value.Within.mono hp hq h.1, Value.FieldsWithin.mono hp hq h.2⟩

end

end Within

namespace Ground.Sub

theorem value (h : G.Sub H) {v : Value} (hv : Value.Given G v) : Value.Given H v :=
  Value.Within.mono (fun _ => h.funcs) (fun _ => h.duals) hv

theorem invoker (h : G.Sub H) {i : Invoker} (hi : i.Given G) : i.Given H := by
  cases i with
  | function f | method f => exact h.funcs hi
  | _ => trivial

theorem getter (h : G.Sub H) {g : Getter} (hg : g.Given G) : g.Given H := by
  cases g with
  | property f | computed f => exact h.funcs hg
  | fixed v => exact h.value hg
  | _ => trivial

theorem node (h : G.Sub H) (t : Expr) (ht : Tree.GivenNode G t) : Tree.GivenNode H t := by
  cases t with
  | literal v ty => exact h.value ht
  | staticMember m | member _ m => exact h.getter ht
  | staticCall m _ | call _ m _ => exact h.invoker ht
  | binary _ _ _ via | unary _ _ via _ => exact fun m hm => h.invoker (ht m hm)
  | _ => trivial

theorem tree (h : G.Sub H) {t : Expr} (ht : t.Given G) : t.Given H := ht.imp h.node

variable {F : Func → Func → Prop} {D : Dual → Dual → Prop}

theorem code (h : G.Sub H) {c c' : Code} (hc : CodeRelated G F D c c') : CodeRelated H F D c c' := by
  cases hc with
  | closure hl hσ => exact .closure (h.tree hl) hσ
  | host hname hvs => exact .host (h.routines hname) hvs
  | chain hf hg => exact .chain hf hg
  | conjunction hf hg => exact .conjunction hf hg
  | disjunction hf hg => exact .disjunction hf hg
  | negation hf => exact .negation hf

theorem compiled (h : G.Sub H) {c c' : Compiled} (hc : CompiledRelated G F c c') :
    CompiledRelated H F c c' := by
  obtain ⟨l, hl, hl', hgiven⟩ := hc.tree
  exact ⟨hc.func, l, hl, hl', h.tree hgiven⟩

theorem origin (h : G.Sub H) {o o' : Origin} (ho : OriginRelated G F D o o') :
    OriginRelated H F D o o' := by
  cases ho with
  | lambda hl => exact .lambda (h.tree hl)
  | compiled hc => exact .compiled (h.compiled hc)
  | composed hd he => exact .composed hd he
  | precomposed hd hc => exact .precomposed hd (h.compiled hc)
  | postcomposed hd hc => exact .postcomposed hd (h.compiled hc)
  | conjunction hd he => exact .conjunction hd he
  | disjunction hd he => exact .disjunction hd he
  | negation hd => exact .negation hd

/-- A sound world is sound over more given objects, if they stand for themselves in it. -/
theorem sound (h : G.Sub H) (hW : W.Sound G) (hfuncs : ∀ {f}, H.funcs f → W.funcs f f)
    (hduals : ∀ {d}, H.duals d → W.duals d d) : W.Sound H where
  given_func := hfuncs
  given_dual := hduals
  pedigree := hW.pedigree
  forms := hW.forms
  func hfg := ⟨(hW.func hfg).1, h.code (hW.func hfg).2⟩
  older := hW.older
  apart := hW.apart
  func_same := hW.func_same
  dual hde := ⟨(hW.dual hde).kind, (hW.dual hde).source, (hW.dual hde).result, h.origin (hW.dual hde).origin⟩
  dual_same := hW.dual_same

end Ground.Sub

/-! ## Making families -/

/-- The function that stands before or after another dual, or is one form of the dual. -/
def Origin.funcs : Origin → List Func
  | .compiled c | .precomposed _ c | .postcomposed _ c => [c.func]
  | _ => []

namespace Ground

/-- Nothing has been given; host functions run routines with `p`. -/
def bare (p : String → Prop) : Ground := ⟨fun _ => False, fun _ => False, p⟩

/-- One more function. -/
def withFunc (G : Ground) (f : Func) : Ground := { G with funcs := fun g => G.funcs g ∨ g = f }

/-- One more dual, and the function that stands before or after another one in it. -/
def withDual (G : Ground) (d : Dual) : Ground :=
  { G with funcs := fun f => G.funcs f ∨ f ∈ d.origin.funcs, duals := fun e => G.duals e ∨ e = d }

theorem sub_withFunc (G : Ground) (f : Func) : G.Sub (G.withFunc f) := ⟨.inl, id, id⟩

theorem sub_withDual (G : Ground) (d : Dual) : G.Sub (G.withDual d) := ⟨.inl, .inl, id⟩

/-- The function in a dual may have been added before. -/
theorem withFunc_withDual {f : Func} (h : f ∈ d.origin.funcs) : (G.withFunc f).withDual d = G.withDual d := by
  have hfuncs : (fun g => (G.funcs g ∨ g = f) ∨ g ∈ d.origin.funcs) =
      fun g => G.funcs g ∨ g ∈ d.origin.funcs := by
    funext g
    refine propext ⟨?_, fun hg => hg.imp .inl id⟩
    rintro ((hg | rfl) | hg)
    · exact .inl hg
    · exact .inr h
    · exact .inr hg
  unfold withDual withFunc
  dsimp only
  rw [hfuncs]

end Ground

/-- A function with its tree, both given. -/
def Compiled.Given (G : Ground) (c : Compiled) : Prop :=
  G.funcs c.func ∧ ∃ l, c.expression = some l ∧ l.body.Given G

/-- The ways to make a dual of given objects. -/
inductive Making (G : Ground) : Act Dual → Prop
  | ofLambda {l : Lam} (kind : DualKind) : l.body.Given G → Making G (Dual.ofLambda kind l)
  | ofCompiled {c : Compiled} (kind : DualKind) (source result : Ty) : c.Given G →
      Making G (Dual.ofCompiled kind source result c)
  | conjunction {d e : Dual} : G.duals d → G.duals e → Making G (Dual.conjunction d e)
  | disjunction {d e : Dual} : G.duals d → G.duals e → Making G (Dual.disjunction d e)
  | negation {d : Dual} : G.duals d → Making G (Dual.negation d)
  | compose {outer inner : Dual} : G.duals outer → G.duals inner → Making G (outer.compose inner)
  | applyTo {outer : Dual} {l : Lam} : G.duals outer → l.body.Given G → Making G (outer.applyTo l)
  | applyToFunc {outer : Dual} {c : Compiled} (source : Ty) : G.duals outer → c.Given G →
      Making G (outer.applyToFunc source c)
  | continueWith {inner : Dual} {l : Lam} : G.duals inner → l.body.Given G →
      Making G (inner.continueWith l)
  | continueWithFunc {inner : Dual} {c : Compiled} (result : Ty) : G.duals inner → c.Given G →
      Making G (inner.continueWithFunc result c)

/-- The functions and duals in the ground have been made one after the other, up to this store: functions by
compiling lambdas or as host functions, duals in the ways above. Other things may have been made between. -/
inductive Built : Ground → Store → Prop
  | start (p : String → Prop) {s : Store} : Fresh s → Built (.bare p) s
  | lambda {G : Ground} {s t : Store} {l : Lam} {f : Func} : Built G s → l.body.Given G →
      compile l s = .ok f t → Built (G.withFunc f) t
  | host {G : Ground} {s t : Store} {f : Func} {name : String} {held : List Value} (arity : Nat) :
      Built G s → G.routines name → Value.AllWithin G.funcs G.duals held →
      Act.newFunc arity (.host name held) s = .ok f t → Built (G.withFunc f) t
  | dual {G : Ground} {s t : Store} {d : Dual} {x : Act Dual} : Built G s → Making G x →
      x s = .ok d t → Built (G.withDual d) t
  | between {G : Ground} {s t : Store} : Built G s → Idle s t → Built G t

/-! ## A run beside itself -/

/-- The world of a run beside itself. -/
def World.twin (G : Ground) (s : Store) : World where
  left := s
  right := s
  funcs f g := G.funcs f ∧ f = g
  duals d e := G.duals d ∧ d = e

/-- The run beside itself is sound, and no form of the given duals has been published. -/
structure Unforced (G : Ground) (s : Store) : Prop where
  sound : (World.twin G s).Sound G
  trees : ∀ {d}, G.duals d → s.trees[d.id]? = none
  functions : ∀ {d}, G.duals d → s.functions[d.id]? = none

namespace Unforced

theorem known {a : Side} (hd : G.duals d) : (World.twin G s).known a d := by
  have h := World.known_of (W := World.twin G s) a ⟨hd, rfl⟩
  cases a <;> exact h

theorem fresh (h : Unforced G s) : Fresh s := (h.sound.forms .left).fresh

theorem start (p : String → Prop) (hs : Fresh s) : Unforced (.bare p) s := by
  have hknown : ∀ {a : Side} {d}, ¬ (World.twin (.bare p) s).known a d := by
    rintro a d ⟨_, _, ⟨hd, _⟩, _⟩
    exact hd
  have hforms : FunctionForms (fun _ => False) s :=
    ⟨hs, fun h => h.elim, fun h => h.elim, fun h => h.elim⟩
  refine ⟨⟨fun h => h.elim, fun h => h.elim, fun a => ?_, fun a => ?_, fun h => h.1.elim, fun h => h.1.elim,
    fun h => h.1.elim, fun h => h.1.elim, fun h => h.1.elim, fun h => h.1.elim⟩, fun h => h.elim, fun h => h.elim⟩
  · exact ⟨fun h => absurd h hknown, fun h => absurd h hknown, fun h => absurd h hknown⟩
  · cases a <;> exact hforms.mono fun d hd => absurd hd hknown

theorem idle (h : Unforced G s) (hst : Idle s t) : Unforced G t := by
  obtain ⟨hsound, _, _⟩ := h.sound.idle (s := t) (t := t) hst hst
  refine ⟨hsound, fun hd => ?_, fun hd => ?_⟩
  · rw [hst.trees]
    exact h.trees hd
  · rw [hst.functions]
    exact h.functions hd

/-- A function has been made. -/
theorem addFunc (h : Unforced G s) (arity : Nat) {c : Code}
    (hc : CodeRelated G (World.twin G s).function (World.twin G s).duals c c) :
    Unforced (G.withFunc ⟨s.nextId, arity, c⟩) { s with nextId := s.nextId + 1 } := by
  obtain ⟨hsound, _, _⟩ := h.sound.addFunc arity hc
  have hworld : (World.twin G s).addFunc arity c c =
      World.twin (G.withFunc ⟨s.nextId, arity, c⟩) { s with nextId := s.nextId + 1 } := by
    have hfuncs : (fun f g => (G.funcs f ∧ f = g) ∨ (f = ⟨s.nextId, arity, c⟩ ∧ g = ⟨s.nextId, arity, c⟩)) =
        fun f g => (G.funcs f ∨ f = ⟨s.nextId, arity, c⟩) ∧ f = g := by
      funext f g
      refine propext ⟨?_, ?_⟩
      · rintro (⟨hf, rfl⟩ | ⟨rfl, rfl⟩)
        · exact ⟨.inl hf, rfl⟩
        · exact ⟨.inr rfl, rfl⟩
      · rintro ⟨hf | rfl, rfl⟩
        · exact .inl ⟨hf, rfl⟩
        · exact .inr ⟨rfl, rfl⟩
    unfold World.twin World.addFunc World.withFunc World.identities World.withStores Ground.withFunc
    dsimp only
    rw [hfuncs]
  rw [hworld] at hsound
  exact ⟨(G.sub_withFunc _).sound hsound (fun hf => ⟨hf, rfl⟩) fun hd => ⟨hd, rfl⟩, h.trees, h.functions⟩

/-- A dual has been made. -/
theorem addDual (h : Unforced G s) (kind : DualKind) (source result : Ty) {o : Origin}
    (ho : OriginRelated G (World.twin G s).funcs (World.twin G s).duals o o)
    (hfuncs : ∀ f ∈ o.funcs, G.funcs f) :
    Unforced (G.withDual ⟨s.nextId, kind, source, result, o⟩) { s with nextId := s.nextId + 1 } := by
  obtain ⟨hsound, _, _⟩ := h.sound.addDual kind source result ho
  have hworld : (World.twin G s).addDual kind source result o o =
      World.twin (G.withDual ⟨s.nextId, kind, source, result, o⟩) { s with nextId := s.nextId + 1 } := by
    have hf : (fun f g => G.funcs f ∧ f = g) = fun f g => (G.funcs f ∨ f ∈ o.funcs) ∧ f = g := by
      funext f g
      rw [or_iff_left_of_imp (hfuncs f)]
    have hd : (fun d e => (G.duals d ∧ d = e) ∨
        (d = ⟨s.nextId, kind, source, result, o⟩ ∧ e = ⟨s.nextId, kind, source, result, o⟩)) =
        fun d e => (G.duals d ∨ d = ⟨s.nextId, kind, source, result, o⟩) ∧ d = e := by
      funext d e
      refine propext ⟨?_, ?_⟩
      · rintro (⟨hd, rfl⟩ | ⟨rfl, rfl⟩)
        · exact ⟨.inl hd, rfl⟩
        · exact ⟨.inr rfl, rfl⟩
      · rintro ⟨hd | rfl, rfl⟩
        · exact .inl ⟨hd, rfl⟩
        · exact .inr ⟨rfl, rfl⟩
    unfold World.twin World.addDual World.withDual World.identities World.withStores Ground.withDual
    dsimp only
    rw [hf, hd]
  rw [hworld] at hsound
  refine ⟨(G.sub_withDual _).sound hsound (fun hf => ⟨hf, rfl⟩) fun hd => ⟨hd, rfl⟩, ?_, ?_⟩
  · rintro d (hd | rfl)
    · exact h.trees hd
    · exact h.fresh.trees _ (Nat.le_refl _)
  · rintro d (hd | rfl)
    · exact h.functions hd
    · exact h.fresh.functions _ (Nat.le_refl _)

theorem create (h : Unforced G s) {kind : DualKind} {source result : Ty} {o : Origin}
    (ho : OriginRelated G (World.twin G s).funcs (World.twin G s).duals o o)
    (hfuncs : ∀ f ∈ o.funcs, G.funcs f) (hd : Dual.create kind source result o s = .ok d t) :
    Unforced (G.withDual d) t := by
  cases hd
  exact h.addDual kind source result ho hfuncs

/-- A function with its tree stands for itself. -/
theorem compiled {c : Compiled} (hc : c.Given G) : CompiledRelated G (World.twin G s).funcs c c := by
  obtain ⟨hf, l, hl, hgiven⟩ := hc
  exact ⟨⟨hf, rfl⟩, l, hl, hl, hgiven⟩

theorem funcs_compiled {c : Compiled} (hc : c.Given G) : ∀ f ∈ [c.func], G.funcs f := fun f hf => by
  rw [List.mem_singleton.1 hf]
  exact hc.1

/-- A lambda is compiled, and the function stands before or after another dual. -/
theorem compiledFirst (h : Unforced G s) (hl : l.body.Given G) {kind : DualKind} {source result : Ty}
    {o : Compiled → Origin} (ho : ∀ {H s c}, G.Sub H → c.Given H →
      OriginRelated H (World.twin H s).funcs (World.twin H s).duals (o c) (o c))
    (hfuncs : ∀ c, (o c).funcs = [c.func])
    (hd : (do Dual.create kind source result (o (← Compiled.ofLambda l))) s = .ok d t) :
    Unforced (G.withDual d) t := by
  have hf : G.Sub (G.withFunc ⟨s.nextId, l.arity, .closure l []⟩) := G.sub_withFunc _
  have hc : Compiled.Given (G.withFunc ⟨s.nextId, l.arity, .closure l []⟩)
      ⟨⟨s.nextId, l.arity, .closure l []⟩, some l, none⟩ := ⟨.inr rfl, l, rfl, hf.tree hl⟩
  cases hd
  have hadded : Unforced ((G.withFunc ⟨s.nextId, l.arity, .closure l []⟩).withDual
      ⟨s.nextId + 1, kind, source, result, o ⟨⟨s.nextId, l.arity, .closure l []⟩, some l, none⟩⟩)
      { s with nextId := s.nextId + 1 + 1 } :=
    (h.addFunc l.arity (.closure hl .nil)).addDual kind source result (ho hf hc)
      (by rw [hfuncs]; exact funcs_compiled hc)
  rwa [Ground.withFunc_withDual (by rw [hfuncs]; exact List.mem_singleton.2 rfl)] at hadded

/-- The check before has succeeded. -/
theorem of_check {α : Type} {check : Except Error α} {x : α → Act Dual}
    (h : (Act.lift check >>= x) s = .ok d t) : ∃ a, x a s = .ok d t := by
  obtain ⟨a, u, ha, hd⟩ := Act.bind_eq_ok.1 h
  obtain ⟨_, rfl⟩ := Act.lift_eq_ok.1 ha
  exact ⟨a, hd⟩

/-- **A dual is made of given objects.** -/
theorem making (h : Unforced G s) {x : Act Dual} (hx : Making G x) (hd : x s = .ok d t) :
    Unforced (G.withDual d) t := by
  cases hx with
  | ofLambda kind hl =>
      obtain ⟨_, hd⟩ := of_check hd
      dsimp only at hd
      split at hd
      · cases hd
      · exact h.create (.lambda hl) (fun f hf => by cases hf) hd
  | ofCompiled kind source result hc =>
      obtain ⟨_, hd⟩ := of_check hd
      exact h.create (.compiled (compiled hc)) (funcs_compiled hc) hd
  | conjunction hlhs hrhs =>
      obtain ⟨_, hd⟩ := of_check hd
      exact h.create (.conjunction ⟨hlhs, rfl⟩ ⟨hrhs, rfl⟩) (fun f hf => by cases hf) hd
  | disjunction hlhs hrhs =>
      obtain ⟨_, hd⟩ := of_check hd
      exact h.create (.disjunction ⟨hlhs, rfl⟩ ⟨hrhs, rfl⟩) (fun f hf => by cases hf) hd
  | negation hpredicate => exact h.create (.negation ⟨hpredicate, rfl⟩) (fun f hf => by cases hf) hd
  | compose houter hinner =>
      unfold Dual.compose at hd
      split at hd
      · cases hd
      · exact h.create (.composed ⟨houter, rfl⟩ ⟨hinner, rfl⟩) (fun f hf => by cases hf) hd
  | applyTo houter hl =>
      obtain ⟨_, hd⟩ := of_check hd
      exact h.compiledFirst hl (fun hsub hc => .precomposed ⟨hsub.duals houter, rfl⟩ (compiled hc))
        (fun _ => rfl) hd
  | applyToFunc source houter hc =>
      obtain ⟨_, hd⟩ := of_check hd
      exact h.create (.precomposed ⟨houter, rfl⟩ (compiled hc)) (funcs_compiled hc) hd
  | continueWith hinner hl =>
      obtain ⟨_, hd⟩ := of_check hd
      exact h.compiledFirst hl (fun hsub hc => .postcomposed ⟨hsub.duals hinner, rfl⟩ (compiled hc))
        (fun _ => rfl) hd
  | continueWithFunc result hinner hc =>
      obtain ⟨_, hd⟩ := of_check hd
      exact h.create (.postcomposed ⟨hinner, rfl⟩ (compiled hc)) (funcs_compiled hc) hd

end Unforced

/-- **A family that has just been made is unforced.** -/
theorem Built.unforced (h : Built G s) : Unforced G s := by
  induction h with
  | start p hs => exact .start p hs
  | lambda _ hl hf ih =>
      cases hf
      exact ih.addFunc _ (.closure hl .nil)
  | host arity _ hname hheld hf ih =>
      cases hf
      exact ih.addFunc arity (.host hname
        (Value.AllWithin.related (fun f hf => .inl ⟨hf, rfl⟩) (fun d hd => ⟨hd, rfl⟩) hheld))
  | dual _ hx hd ih => exact ih.making hx hd
  | between _ hst ih => exact ih.idle hst

end DualForm
