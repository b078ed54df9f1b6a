import DualForm.Proofs.Laziness.Families
import Mathlib.Logic.Relation

/-!
# Laziness is transparent

* `Call`, `Answer` — the calls for forms of duals, their evaluation and the rewriting of trees, and what they
  return.
* `Owned G handed v` — `v` is made of given values and of those handed out, or is found in them.
* `Course host G s handed t` — calls over a family lead from `s` to `t`, one after the other, and have handed
  out the values in `handed`. Calls may fail.
* `Value.Alike G v w` — the same value, up to the identities of functions and of duals that are not given.

Principal result: `Course.transparent` — after any two courses from the store in which a family has been made,
the same call ends in the same way.
-/

namespace DualForm

variable {G : Ground} {V W : World} {host : Host} {E : Engine} {X : World → Prop} {F : Nat → Engine}
  {s t u : Store} {d e : Dual} {v w : Value} {vs ws handed handed' : List Value}

/-! ## Calls -/

/-- The calls over a family. -/
inductive Call where
  | expression (d : Dual)
  | function (d : Dual)
  | evaluate (d : Dual) (v : Value)
  | isSatisfiedBy (d : Dual) (v : Value)
  | rewrite (pass : Pass) (t : Expr)
  | rewriteLambda (pass : Pass) (l : Lam)

/-- What they return. -/
inductive Answer where
  | lambda (l : Lam)
  | func (f : Func)
  | value (v : Value)
  | tree (t : Expr)

/-- The values handed out. -/
def Answer.values : Answer → List Value
  | .func f => [.func f]
  | .value v => [v]
  | .lambda _ | .tree _ => []

namespace Call

/-- The call. -/
def run (E : Engine) : Call → Act Answer
  | .expression d => return .lambda (← E.tree d)
  | .function d => return .func (← E.function d)
  | .evaluate d v => return .value (← d.evaluate E v)
  | .isSatisfiedBy d v => return .value (.bool (← d.isSatisfiedBy E v))
  | .rewrite pass t => return .tree (← pass.run E t)
  | .rewriteLambda pass l => return .lambda (← pass.runLambda E l)

/-- The duals asked for and the arguments are among these values, and the trees hold given objects only. -/
def Within (G : Ground) (own : Value → Prop) : Call → Prop
  | .expression d | .function d => own (.dual d)
  | .evaluate d v | .isSatisfiedBy d v => own (.dual d) ∧ own v
  | .rewrite pass t => pass.Given G ∧ t.Given G
  | .rewriteLambda pass l => pass.Given G ∧ l.body.Given G

end Call

/-- Given values, those handed out, and what is made of them or found in them. -/
inductive Owned (G : Ground) (handed : List Value) : Value → Prop
  | given {v : Value} : Value.Given G v → Owned G handed v
  | handed {v : Value} : v ∈ handed → Owned G handed v
  | list {vs : List Value} : (∀ v ∈ vs, Owned G handed v) → Owned G handed (.list vs)
  | item {v : Value} {vs : List Value} : Owned G handed (.list vs) → v ∈ vs → Owned G handed v
  | record (id : Nat) (declaring : DeclaringType) {fields : List (String × Value)} :
      (∀ x ∈ fields, Owned G handed x.2) → Owned G handed (.record id declaring fields)
  | field {id : Nat} {declaring : DeclaringType} {fields : List (String × Value)} {x : String × Value} :
      Owned G handed (.record id declaring fields) → x ∈ fields → Owned G handed x.2

/-- Calls lead from one store to another and hand out these values. Between them anything may happen but that
forms are published. -/
inductive Course (host : Host) (G : Ground) (s : Store) : List Value → Store → Prop
  | start : Course host G s [] s
  | answered {handed : List Value} {t u : Store} {c : Call} {a : Answer} (n : Nat) :
      Course host G s handed t → c.Within G (Owned G handed) → c.run (machine host n) t = .ok a u →
      Course host G s (a.values ++ handed) u
  | failed {handed : List Value} {t u : Store} {c : Call} {e : Error} (n : Nat) :
      Course host G s handed t → c.Within G (Owned G handed) →
      c.run (machine host n) t = .error (.failed e) u → Course host G s handed u
  | between {handed : List Value} {t u : Store} : Course host G s handed t → Idle t u →
      Course host G s handed u

/-! ## Values that are alike -/

/-- Functions with the same number of arguments. -/
def SameArity (f g : Func) : Prop := f.arity = g.arity

/-- The pairs have been made in the same way, of duals that are paired, and given duals are paired with
themselves only. -/
structure Matching (G : Ground) (P : Dual → Dual → Prop) : Prop where
  made : ∀ {d e}, P d e → DualRelated G SameArity P d e
  given : ∀ {d e}, P d e → G.duals d → d = e

/-- The same value, up to the identities of functions and of duals that are not given. -/
def Value.Alike (G : Ground) (v w : Value) : Prop := ∃ P, Matching G P ∧ Related SameArity P v w

/-- Alike values that hold no function and no dual but given ones are the same. -/
theorem Value.Alike.eq (h : Value.Alike G v w) (hv : Value.Within (fun _ => False) G.duals v) : v = w := by
  obtain ⟨P, hP, hvw⟩ := h
  exact hvw.eq_of_within (fun _ _ hf => hf.elim) (fun _ _ hd hde => hP.given hde hd) hv

/-- The same trees; functions with the same number of arguments; values that are alike, and the same if
they hold neither functions nor duals that are not given. -/
inductive Answer.Alike (G : Ground) : Answer → Answer → Prop
  | lambda (l : Lam) : Answer.Alike G (.lambda l) (.lambda l)
  | func {f g : Func} : f.arity = g.arity → Answer.Alike G (.func f) (.func g)
  | value {v w : Value} : Value.Alike G v w → (Value.Within (fun _ => False) G.duals v → v = w) →
      Answer.Alike G (.value v) (.value w)
  | tree (t : Expr) : Answer.Alike G (.tree t) (.tree t)

section Composition

variable {F F' : Func → Func → Prop} {D D' : Dual → Dual → Prop}

open Relation (Comp)

mutual

theorem Related.comp : ∀ {v w x : Value}, Related F D v w → Related F' D' w x →
    Related (Comp F F') (Comp D D') v x
  | _, _, _, .scalar hv, .scalar _ => .scalar hv
  | _, _, _, .list hvs, .list hws => .list (hvs.comp hws)
  | _, _, _, .record id declaring hfs, .record _ _ hgs => .record id declaring (hfs.comp hgs)
  | _, _, _, .func hf, .func hg => .func ⟨_, hf, hg⟩
  | _, _, _, .dual hd, .dual he => .dual ⟨_, hd, he⟩
  | _, _, _, .scalar hv, .list _ | _, _, _, .scalar hv, .record .. | _, _, _, .scalar hv, .func _
  | _, _, _, .scalar hv, .dual _ | _, _, _, .list _, .scalar hv | _, _, _, .record .., .scalar hv
  | _, _, _, .func _, .scalar hv | _, _, _, .dual _, .scalar hv => by cases hv

theorem RelatedAll.comp : ∀ {vs ws xs : List Value}, RelatedAll F D vs ws → RelatedAll F' D' ws xs →
    RelatedAll (Comp F F') (Comp D D') vs xs
  | _, _, _, .nil, .nil => .nil
  | _, _, _, .cons hv hvs, .cons hw hws => .cons (hv.comp hw) (hvs.comp hws)

theorem RelatedFields.comp : ∀ {fs gs hs : List (String × Value)}, RelatedFields F D fs gs →
    RelatedFields F' D' gs hs → RelatedFields (Comp F F') (Comp D D') fs hs
  | _, _, _, .nil, .nil => .nil
  | _, _, _, .cons name hv hfs, .cons _ hw hgs => .cons name (hv.comp hw) (hfs.comp hgs)

end

theorem CompiledRelated.comp {c c' c'' : Compiled} (h : CompiledRelated G F c c')
    (h' : CompiledRelated G F' c' c'') : CompiledRelated G (Comp F F') c c'' := by
  obtain ⟨l, hl, hl', hgiven⟩ := h.tree
  obtain ⟨k, hk, hk', _⟩ := h'.tree
  rw [hl'] at hk
  cases hk
  exact ⟨⟨_, h.func, h'.func⟩, l, hl, hk', hgiven⟩

theorem OriginRelated.comp {o o' o'' : Origin} (h : OriginRelated G F D o o')
    (h' : OriginRelated G F' D' o' o'') : OriginRelated G (Comp F F') (Comp D D') o o'' := by
  cases h with
  | lambda hl =>
      cases h'
      exact .lambda hl
  | compiled hc =>
      cases h' with
      | compiled hc' => exact .compiled (hc.comp hc')
  | composed hd he =>
      cases h' with
      | composed hd' he' => exact .composed ⟨_, hd, hd'⟩ ⟨_, he, he'⟩
  | precomposed hd hc =>
      cases h' with
      | precomposed hd' hc' => exact .precomposed ⟨_, hd, hd'⟩ (hc.comp hc')
  | postcomposed hd hc =>
      cases h' with
      | postcomposed hd' hc' => exact .postcomposed ⟨_, hd, hd'⟩ (hc.comp hc')
  | conjunction hd he =>
      cases h' with
      | conjunction hd' he' => exact .conjunction ⟨_, hd, hd'⟩ ⟨_, he, he'⟩
  | disjunction hd he =>
      cases h' with
      | disjunction hd' he' => exact .disjunction ⟨_, hd, hd'⟩ ⟨_, he, he'⟩
  | negation hd =>
      cases h' with
      | negation hd' => exact .negation ⟨_, hd, hd'⟩

end Composition

theorem SameArity.of_comp {f g : Func} (h : Relation.Comp SameArity SameArity f g) : SameArity f g := by
  obtain ⟨_, hf, hg⟩ := h
  exact hf.trans hg

theorem Matching.comp {P Q : Dual → Dual → Prop} (hP : Matching G P) (hQ : Matching G Q) :
    Matching G (Relation.Comp P Q) where
  made := by
    rintro d e ⟨c, hdc, hce⟩
    have h := hP.made hdc
    have h' := hQ.made hce
    exact ⟨h.kind.trans h'.kind, h.source.trans h'.source, h.result.trans h'.result,
      (h.origin.comp h'.origin).mono (fun _ _ => SameArity.of_comp) fun _ _ => id⟩
  given := by
    rintro d e ⟨c, hdc, hce⟩ hd
    have hdc := hP.given hdc hd
    rw [← hdc] at hce
    exact hQ.given hce hd

theorem Value.Alike.trans {x : Value} (h : Value.Alike G v w) (h' : Value.Alike G w x) :
    Value.Alike G v x := by
  obtain ⟨P, hP, hvw⟩ := h
  obtain ⟨Q, hQ, hwx⟩ := h'
  exact ⟨_, hP.comp hQ, (hvw.comp hwx).mono (fun _ _ => SameArity.of_comp) fun _ _ => id⟩

theorem Answer.Alike.trans {a b c : Answer} (h : Answer.Alike G a b) (h' : Answer.Alike G b c) :
    Answer.Alike G a c := by
  cases h with
  | lambda l => exact h'
  | tree t => exact h'
  | func hf =>
      cases h' with
      | func hg => exact .func (hf.trans hg)
  | value hv _ =>
      cases h' with
      | value hw _ => exact .value (hv.trans hw) (hv.trans hw).eq

/-- The duals of a sound world that stand for each other match. -/
theorem World.Sound.matching (h : W.Sound G) : Matching G W.duals where
  made hde := by
    have hrelated := h.dual hde
    exact ⟨hrelated.kind, hrelated.source, hrelated.result,
      hrelated.origin.mono (fun _ _ hfg => (h.func hfg).1) fun _ _ => id⟩
  given hde hd := (h.dual_eq (h.given_dual hd) hde).1 rfl

/-- Values that stand for each other are alike. -/
theorem World.Sound.alike (h : W.Sound G) (hv : W.value v w) : Value.Alike G v w :=
  ⟨W.duals, h.matching, hv.mono (fun _ _ hfg => (h.function_related hfg).1) fun _ _ => id⟩

/-! ## Calls that stand for each other -/

/-- The same call on duals and values that stand for each other. -/
inductive CallRelated (G : Ground) (W : World) : Call → Call → Prop
  | expression {d e : Dual} : W.duals d e → CallRelated G W (.expression d) (.expression e)
  | function {d e : Dual} : W.duals d e → CallRelated G W (.function d) (.function e)
  | evaluate {d e : Dual} {v w : Value} : W.duals d e → W.value v w →
      CallRelated G W (.evaluate d v) (.evaluate e w)
  | isSatisfiedBy {d e : Dual} {v w : Value} : W.duals d e → W.value v w →
      CallRelated G W (.isSatisfiedBy d v) (.isSatisfiedBy e w)
  | rewrite {pass : Pass} {t : Expr} : pass.Given G → t.Given G →
      CallRelated G W (.rewrite pass t) (.rewrite pass t)
  | rewriteLambda {pass : Pass} {l : Lam} : pass.Given G → l.body.Given G →
      CallRelated G W (.rewriteLambda pass l) (.rewriteLambda pass l)

/-- Answers that stand for each other. -/
inductive AnswerRelated (W : World) : Answer → Answer → Prop
  | lambda (l : Lam) : AnswerRelated W (.lambda l) (.lambda l)
  | func {f g : Func} : W.function f g → AnswerRelated W (.func f) (.func g)
  | value {v w : Value} : W.value v w → AnswerRelated W (.value v) (.value w)
  | tree (t : Expr) : AnswerRelated W (.tree t) (.tree t)

theorem AnswerRelated.alike {a b : Answer} (h : AnswerRelated W a b) (hW : W.Sound G) :
    Answer.Alike G a b := by
  cases h with
  | lambda l => exact .lambda l
  | tree t => exact .tree t
  | func hf => exact .func (hW.function_related hf).1
  | value hv => exact .value (hW.alike hv) (hW.alike hv).eq

theorem AnswerRelated.values {a b : Answer} (h : AnswerRelated W a b) :
    ∀ v ∈ a.values, ∃ w, W.value v w := by
  intro v hv
  cases h with
  | lambda | tree => cases hv
  | func hf =>
      rw [List.mem_singleton.1 hv]
      exact ⟨_, .func hf⟩
  | value hw =>
      rw [List.mem_singleton.1 hv]
      exact ⟨_, hw⟩

theorem call_mirrors (hE : E.Mirrors G X F) {c c' : Call} (h : CallRelated G W c c') :
    Mirrors G X F AnswerRelated W (c.run E) fun E => c'.run E := by
  cases h with
  | expression hd =>
      refine (hE.tree hd).bindSame fun V _ l _ => ?_
      exact .pure (.lambda l)
  | function hd => exact (hE.function hd).bind fun _ _ _ _ hf => .pure (.func hf)
  | evaluate hd hv => exact (evaluate_dual_mirrors hE hd hv).bind fun _ _ _ _ hw => .pure (.value hw)
  | isSatisfiedBy hd hv =>
      refine Mirrors.bind (R := fun _ => Eq) ?_ fun V _ b c hbc => ?_
      · exact (evaluate_dual_mirrors hE hd hv).bind fun _ _ _ _ hw => bool_mirrors _ hw
      · rw [hbc]
        exact .pure (.value (.scalar rfl))
  | rewrite hpass ht =>
      refine (pass_run_mirrors hE hpass ht).bindSame fun V _ u _ => ?_
      exact .pure (.tree u)
  | @rewriteLambda pass l hpass hl =>
      have ht : l.tree.Given G := Tree.Given.lambda_iff.2 hl
      refine Mirrors.bindSame (p := fun _ => True) ?_ fun V _ k _ => ?_
      · exact (pass_run_mirrors hE hpass ht).bindSame fun V _ u _ => .liftSame fun _ _ => trivial
      · exact .pure (.lambda k)

theorem RelatedAll.exists {R : Func → Func → Prop} {D : Dual → Dual → Prop} :
    ∀ {vs : List Value}, (∀ v ∈ vs, ∃ w, Related R D v w) → ∃ ws, RelatedAll R D vs ws
  | [], _ => ⟨[], .nil⟩
  | v :: vs, h => by
      obtain ⟨w, hw⟩ := h v (List.mem_cons_self ..)
      obtain ⟨ws, hws⟩ := RelatedAll.exists fun x hx => h x (List.mem_cons_of_mem _ hx)
      exact ⟨w :: ws, .cons hw hws⟩

theorem RelatedAll.of_mem {R : Func → Func → Prop} {D : Dual → Dual → Prop} :
    ∀ {vs ws : List Value}, RelatedAll R D vs ws → ∀ v ∈ vs, ∃ w, Related R D v w
  | _, _, .cons hv hvs, x, hx => by
      rcases List.mem_cons.1 hx with rfl | hx
      · exact ⟨_, hv⟩
      · exact hvs.of_mem x hx

theorem RelatedFields.exists {R : Func → Func → Prop} {D : Dual → Dual → Prop} :
    ∀ {fs : List (String × Value)}, (∀ x ∈ fs, ∃ w, Related R D x.2 w) → ∃ gs, RelatedFields R D fs gs
  | [], _ => ⟨[], .nil⟩
  | (name, v) :: fs, h => by
      obtain ⟨w, hw⟩ := h (name, v) (List.mem_cons_self ..)
      obtain ⟨gs, hgs⟩ := RelatedFields.exists fun x hx => h x (List.mem_cons_of_mem _ hx)
      exact ⟨(name, w) :: gs, .cons name hw hgs⟩

theorem RelatedFields.of_mem {R : Func → Func → Prop} {D : Dual → Dual → Prop} :
    ∀ {fs gs : List (String × Value)}, RelatedFields R D fs gs → ∀ x ∈ fs, ∃ w, Related R D x.2 w
  | _, _, .cons _ hv hfs, x, hx => by
      rcases List.mem_cons.1 hx with rfl | hx
      · exact ⟨_, hv⟩
      · exact hfs.of_mem x hx

/-- Owned values have counterparts if those handed out do. -/
theorem Owned.related (hW : W.Sound G) (hhanded : ∀ v ∈ handed, ∃ w, W.value v w)
    (h : Owned G handed v) : ∃ w, W.value v w := by
  induction h with
  | given hv => exact ⟨_, hW.given_value hv⟩
  | handed hv => exact hhanded _ hv
  | list _ ih =>
      obtain ⟨ws, hws⟩ := RelatedAll.exists ih
      exact ⟨_, .list hws⟩
  | record id declaring _ ih =>
      obtain ⟨gs, hgs⟩ := RelatedFields.exists ih
      exact ⟨_, .record id declaring hgs⟩
  | item _ hv ih =>
      obtain ⟨w, hw⟩ := ih
      cases hw with
      | list hvs => exact hvs.of_mem _ hv
      | scalar hs => cases hs
  | field _ hx ih =>
      obtain ⟨w, hw⟩ := ih
      cases hw with
      | record _ _ hfs => exact hfs.of_mem _ hx
      | scalar hs => cases hs

/-- A call on owned values has a counterpart. -/
theorem Call.Within.related {own : Value → Prop} (hown : ∀ v, own v → ∃ w, W.value v w) {c : Call}
    (hc : c.Within G own) : ∃ c', CallRelated G W c c' := by
  have hdual : ∀ {d}, own (.dual d) → ∃ e, W.duals d e := fun {d} hd => by
    obtain ⟨w, hw⟩ := hown _ hd
    cases hw with
    | dual hde => exact ⟨_, hde⟩
    | scalar hs => cases hs
  cases c with
  | expression d =>
      obtain ⟨e, hde⟩ := hdual hc
      exact ⟨_, .expression hde⟩
  | function d =>
      obtain ⟨e, hde⟩ := hdual hc
      exact ⟨_, .function hde⟩
  | evaluate d v =>
      obtain ⟨e, hde⟩ := hdual hc.1
      obtain ⟨w, hvw⟩ := hown v hc.2
      exact ⟨_, .evaluate hde hvw⟩
  | isSatisfiedBy d v =>
      obtain ⟨e, hde⟩ := hdual hc.1
      obtain ⟨w, hvw⟩ := hown v hc.2
      exact ⟨_, .isSatisfiedBy hde hvw⟩
  | rewrite pass t => exact ⟨_, .rewrite hc.1 hc.2⟩
  | rewriteLambda pass l => exact ⟨_, .rewriteLambda hc.1 hc.2⟩

/-- A call on given values stands for itself. -/
theorem Call.Within.self (hW : W.Sound G) {c : Call} (hc : c.Within G (Value.Given G)) :
    CallRelated G W c c := by
  cases c with
  | expression d => exact .expression (hW.given_dual hc)
  | function d => exact .function (hW.given_dual hc)
  | evaluate d v => exact .evaluate (hW.given_dual hc.1) (hW.given_value hc.2)
  | isSatisfiedBy d v => exact .isSatisfiedBy (hW.given_dual hc.1) (hW.given_value hc.2)
  | rewrite pass t => exact .rewrite hc.1 hc.2
  | rewriteLambda pass l => exact .rewriteLambda hc.1 hc.2

/-! ## Courses -/

/-- Beside a run of the recomputing machine from the store of the family, the tree forms published up to `t`
are current, and values handed out have counterparts. -/
structure Paralleled (host : Host) (G : Ground) (s : Store) (handed : List Value) (W : World) : Prop where
  later : World.twin G s ≤ W
  sound : W.Sound G
  current : Current host G .left W
  handed : ∀ v ∈ handed, ∃ w, W.value v w

theorem Unforced.paralleled (h : Unforced G s) : Paralleled host G s [] (World.twin G s) where
  later := le_refl _
  sound := h.sound
  current := by
    intro d e l hde hl
    have hnone : s.trees[d.id]? = none := h.trees hde.1
    rw [show ((World.twin G s).store .left).trees[(Side.left.of d e).id]? = none from hnone] at hl
    cases hl
  handed _ hv := by cases hv

theorem Paralleled.later_values (hW : ∀ v ∈ handed, ∃ w, V.value v w) (h : V ≤ W) :
    ∀ v ∈ handed, ∃ w, W.value v w := fun v hv => by
  obtain ⟨w, hvw⟩ := hW v hv
  exact ⟨w, h.value hvw⟩

/-- **A course runs beside the recomputing machine.** -/
theorem Course.paralleled (hhost : host.Uniform G.routines) (hG : Unforced G s)
    (h : Course host G s handed t) : ∃ W, W.left = t ∧ Paralleled host G s handed W := by
  induction h with
  | start => exact ⟨_, rfl, hG.paralleled⟩
  | answered n _ hc ha ih =>
      obtain ⟨W, rfl, hlater, hW, hX, hhanded⟩ := ih
      obtain ⟨c', hcc⟩ := hc.related fun v hv => hv.related hW hhanded
      have hanswer := call_mirrors (machine_mirrors hhost n) hcc hW hX
      rw [ha] at hanswer
      obtain ⟨V, b, hle, hV, hXV, hleft, _, hab⟩ := hanswer
      refine ⟨V, hleft, hlater.trans hle, hV, hXV, fun v hv => ?_⟩
      rcases List.mem_append.1 hv with hv | hv
      · exact hab.values v hv
      · exact Paralleled.later_values hhanded hle v hv
  | failed n _ hc ha ih =>
      obtain ⟨W, rfl, hlater, hW, hX, hhanded⟩ := ih
      obtain ⟨c', hcc⟩ := hc.related fun v hv => hv.related hW hhanded
      have hanswer := call_mirrors (machine_mirrors hhost n) hcc hW hX
      rw [ha] at hanswer
      obtain ⟨V, hle, hV, hXV, hleft, _⟩ := hanswer
      exact ⟨V, hleft, hlater.trans hle, hV, hXV, Paralleled.later_values hhanded hle⟩
  | between _ hidle ih =>
      obtain ⟨W, rfl, hlater, hW, hX, hhanded⟩ := ih
      obtain ⟨hV, hle, hquiet⟩ := hW.idle hidle (.refl W.right)
      exact ⟨_, rfl, hlater.trans hle, hV, Current.durable hhost .left _ _ hW hV hle hquiet hX,
        Paralleled.later_values hhanded hle⟩

/-- After a course, published tree forms are current beside the store of the family. -/
theorem Course.current (hhost : host.Uniform G.routines) (hG : Unforced G s)
    (h : Course host G s handed t) : ((World.twin G s).move .left t).Sound G ∧
      Current host G .left ((World.twin G s).move .left t) := by
  obtain ⟨W, rfl, hlater, hW, hX, _⟩ := h.paralleled hhost hG
  exact ⟨(hG.sound.rewind hW hlater .left).1, hX.rewind hlater⟩

/-- **Laziness is transparent.** After any two courses over a family, the same call on given values ends in
the same way: with the same error, or with answers that are alike. -/
theorem Course.transparent (hhost : host.Uniform G.routines) (hG : Built G s)
    (h : Course host G s handed t) (h' : Course host G s handed' u) {c : Call}
    (hc : c.Within G (Value.Given G)) :
    (∀ n a t', c.run (machine host n) t = .ok a t' →
      ∃ b u', Ends host (fun E => c.run E) u (.ok b u') ∧ Answer.Alike G a b) ∧
    ∀ n e t', c.run (machine host n) t = .error (.failed e) t' →
      ∃ u', Ends host (fun E => c.run E) u (.error (.failed e) u') := by
  obtain ⟨hW, hX⟩ := h.current hhost hG.unforced
  obtain ⟨hV, hY⟩ := h'.current hhost hG.unforced
  have hseen := hV.seen .right .left
  have hcurrent : Current host G .right (((World.twin G s).move .left u).seen .right .left) := by
    rintro _ _ l ⟨d, e, hde, rfl, rfl⟩ hl
    exact hY hde hl
  -- the recomputing machine does in the store of the family what the machine does after the first course,
  -- and the machine does after the second course what the recomputing one does there
  have hforth := fun n => call_mirrors (machine_mirrors hhost n) (hc.self hW) hW hX
  have hback := fun n => call_mirrors (recomputing_mirrors hhost n) (hc.self hseen) hseen hcurrent
  refine ⟨fun n a t' ha => ?_, fun n e t' he => ?_⟩
  · have hanswer : Answered _ _ _ _ _ _ (c.run (machine host n) t) := hforth n
    rw [ha] at hanswer
    obtain ⟨V₁, b, _, hV₁, _, _, ⟨N, hN⟩, hab⟩ := hanswer
    have hrecomputed : c.run (recomputing host N) s = .ok b V₁.right := hN N (Nat.le_refl N)
    have hanswer : Answered _ _ _ _ _ _ (c.run (recomputing host N) s) := hback N
    rw [hrecomputed] at hanswer
    obtain ⟨V₂, b', _, hV₂, _, _, hends, hbb⟩ := hanswer
    exact ⟨b', V₂.right, hends, (hab.alike hV₁).trans (hbb.alike hV₂)⟩
  · have hanswer : Answered _ _ _ _ _ _ (c.run (machine host n) t) := hforth n
    rw [he] at hanswer
    obtain ⟨V₁, _, _, _, _, N, hN⟩ := hanswer
    have hrecomputed : c.run (recomputing host N) s = .error (.failed e) V₁.right :=
      hN N (Nat.le_refl N)
    have hanswer : Answered _ _ _ _ _ _ (c.run (recomputing host N) s) := hback N
    rw [hrecomputed] at hanswer
    obtain ⟨V₂, _, _, _, _, hends⟩ := hanswer
    exact ⟨V₂.right, hends⟩

/-! ## A family asked in two ways -/

namespace Doubling

def x : Param := ⟨0, "x", .int⟩

/-- `x => x + 1`. -/
def next : Lam := ⟨[x], .operation .add (.param x) (Tree.constant (.int 1))⟩

def successor : Dual := ⟨0, .projection, .int, .int, .lambda next⟩

/-- `successor` after `successor`. -/
def twice : Dual := ⟨1, .projection, .int, .int, .composed successor successor⟩

/-- The store in which both have been made. -/
def made : Store := { Store.initial with nextId := 2 }

/-- What is given. -/
def ground : Ground := ((Ground.bare Routine.Stateless).withDual successor).withDual twice

abbrev engine (n : Nat) : Engine := machine Registry.empty.host n

/-- The function form of `successor`. -/
def added : Func := ⟨2, 1, .closure next []⟩

/-- The store after `successor` has been asked for its function form. -/
def half : Store := (Slot.function successor).write added { made with nextId := 3 }

/-- The store after it has been asked for its tree form, too. -/
def both : Store := (Slot.tree successor).write next half

theorem next_given (G : Ground) : next.body.Given G := by
  have hone : (Tree.constant (.int 1)).Given G :=
    Tree.everywhere_leaf trivial rfl
  have hx : (Tree.param x : Expr).Given G := Tree.everywhere_leaf trivial rfl
  refine Tree.everywhere_pair (fun m hm => (by cases hm)) rfl ?_ ?_
  · exact hx
  · exact hone

theorem built : Built ground made :=
  .dual (.dual (.start Routine.Stateless fresh_initial) (.ofLambda .projection (next_given _)) rfl)
    (.compose (.inr rfl) (.inr rfl)) rfl

theorem function_none (d : Dual) : (Slot.function d).read made = none := Std.HashMap.getElem?_empty

theorem successor_function (n : Nat) : (engine (n + 1)).function successor made = .ok added half :=
  publishOnce_first (function_none _) rfl (function_none _)

theorem successor_published (n : Nat) : (engine (n + 1)).function successor half = .ok added half :=
  publishOnce_found ((functions_write ..).trans (if_pos rfl))

/-- No integer is added to `true`. -/
theorem successor_fails : (Call.evaluate successor (.bool true)).run (engine 2) made =
    .error (.failed (Value.unsupportedOperands "+" [.bool true, .int 1])) half :=
  Act.bind_error ((Act.bind_ok (successor_function 1)).trans rfl)

theorem successor_tree : (Call.expression successor).run (engine 2) half = .ok (.lambda next) both := by
  have htree : (engine 2).tree successor half = .ok next both :=
    publishOnce_first Std.HashMap.getElem?_empty rfl Std.HashMap.getElem?_empty
  exact Act.bind_ok htree

/-- One course asks for nothing. -/
theorem unasked : Course Registry.empty.host ground made [] made := .start

/-- The other one evaluates `successor` on `true`, which fails, and asks it for its tree form. -/
theorem asked : Course Registry.empty.host ground made [] both := by
  have hown : ∀ handed, Owned ground handed (.dual successor) := fun handed =>
    .given (v := .dual successor) (.inl (.inr rfl))
  have hfailed : (Call.evaluate successor (.bool true)).Within ground (Owned ground []) :=
    ⟨hown [], .given (v := .bool true) trivial⟩
  have hasked : (Call.expression successor).Within ground (Owned ground []) := hown []
  exact .answered 2 (.failed 2 .start hfailed successor_fails) hasked successor_tree

/-- After the first course, `twice` evaluates to 7 at 5. -/
theorem evaluates : ∃ t, (Call.evaluate twice (.int 5)).run (engine 3) made =
    .ok (.value (.int 7)) t := by
  have hfunction : (engine 3).function twice made = .ok ⟨3, 1, .chain added added⟩
      ((Slot.function twice).write ⟨3, 1, .chain added added⟩ { half with nextId := 4 }) := by
    refine publishOnce_first (function_none _) ?_ ?_
    · exact (Act.bind_ok (successor_function 1)).trans ((Act.bind_ok (successor_published 1)).trans rfl)
    · exact (functions_write ..).trans ((if_neg (by decide)).trans Std.HashMap.getElem?_empty)
  exact ⟨_, Act.bind_ok ((Act.bind_ok hfunction).trans rfl)⟩

end Doubling

/-- `successor` after itself is evaluated at 5: in the store in which it has been made, and after `successor`
has failed on `true` and has been asked for its tree form. -/
theorem Course.transparent_doubled :
    (∃ t, (Call.evaluate Doubling.twice (.int 5)).run (Doubling.engine 3) Doubling.made = .ok (.value (.int 7)) t) ∧
    Course Registry.empty.host Doubling.ground Doubling.made [] Doubling.both ∧
    ∃ u, Ends Registry.empty.host (fun E => (Call.evaluate Doubling.twice (.int 5)).run E) Doubling.both
      (.ok (.value (.int 7)) u) := by
  obtain ⟨t, ht⟩ := Doubling.evaluates
  have hgiven : (Call.evaluate Doubling.twice (.int 5)).Within Doubling.ground
      (Value.Given Doubling.ground) := ⟨.inr rfl, trivial⟩
  obtain ⟨b, u, hb, halike⟩ := (Course.transparent (registry_uniform Registry.empty) Doubling.built
    Doubling.unasked Doubling.asked hgiven).1 3 _ t ht
  refine ⟨⟨t, ht⟩, Doubling.asked, u, ?_⟩
  cases halike with
  | value _ hsame =>
      rw [← hsame trivial] at hb
      exact hb

end DualForm
