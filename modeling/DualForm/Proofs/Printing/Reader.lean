import DualForm.Proofs.Printing.Shape

/-!
# Reading printed trees

A machine reads the lexemes of a printed tree from left to right and puts its shape together on a stack.

* `Reader.Frame` — an unfinished shape that waits for a part; `Frame.level` — how loosely the part may hold
  together. A parenthesis, an argument list and the middle of a conditional are closed by a mark of their own,
  all others end where something looser goes on.
* `Reader.Item`, `Reader.Mode` — what has been read since the last frame: nothing, a shape, or the parameter
  list of a lambda.
* `Reader.collapse k K s` — the shape `s` in the frames on top of `K` whose level is at most `k`.
* `Reader.step`, `Reader.run` — one lexeme and many; `Reads st ts st'` — the texts `ts` are lexemes that lead
  from `st` to `st'`.

Principal results: `run_apart` — lexemes that are read are apart; `Reads.unique` — a text is read in one way
only.
-/

namespace DualForm

namespace Reader

/-! ## The machine -/

/-- An unfinished shape. -/
inductive Frame where
  /-- A parenthesis. -/
  | group
  /-- A parenthesis with parameters of a lambda. -/
  | names (read : List String)
  | args (callee : Shape) (read : List Shape)
  | lambda (params : List String)
  | unary (op : UnaryOp)
  | operand (op : BinaryOp) (lhs : Shape)
  | ifTrue (test : Shape)
  | ifFalse (test ifTrue : Shape)

/-- What has been read. -/
inductive Item where
  | shape (s : Shape)
  /-- The parameters of a lambda. -/
  | names (ps : List String)

/-- What is read next. -/
inductive Mode where
  /-- Anything. -/
  | ready
  /-- Something that holds together, after the sign of a unary operation. -/
  | tight
  /-- The name of a member. -/
  | field (target : Shape)
  | done (i : Item)
  /-- A mark between blanks, after the first blank. -/
  | spaced (i : Item)
  /-- The second blank. -/
  | gap

/-- The state of the machine. -/
structure State where
  frames : List Frame
  mode : Mode

/-- How loosely the part may hold together that the frame waits for. -/
def Frame.level : Frame → Nat
  | .unary _ => 1
  | .operand .. => 2
  | .lambda _ | .ifFalse .. => 3
  | .group | .names _ | .args .. | .ifTrue _ => 4

/-- The shape finished by its last part. -/
def Frame.plug : Frame → Shape → Shape
  | .unary op, s => .unary op s
  | .operand op lhs, s => .binary op lhs s
  | .lambda ps, s => .lambda ps s
  | .ifFalse test a, s => .conditional test a s
  | _, s => s

/-- A shape in the frames on top whose level is at most `k`, and the frames below them. -/
def collapse (k : Nat) : List Frame → Shape → List Frame × Shape
  | f :: K, s => if f.level ≤ k then collapse k K (f.plug s) else (f :: K, s)
  | [], s => ([], s)

/-- A shape begins. -/
def start (K : List Frame) : Lexeme → Option State
  | .word w => some ⟨K, .done (.shape w.shape)⟩
  | .left => some ⟨.group :: K, .ready⟩
  | _ => none

/-- A parenthesis or a list ends without a shape. -/
def finishEmpty : List Frame → Option State
  | .group :: K => some ⟨K, .done (.names [])⟩
  | .args callee [] :: K => some ⟨K, .done (.shape (.invoke callee []))⟩
  | _ => none

/-- A shape begins with the sign of a unary operation or without, or there is none. -/
def begin (K : List Frame) : Lexeme → Option State
  | .bang => some ⟨.unary .not :: K, .tight⟩
  | .sign .sub => some ⟨.unary .negate :: K, .tight⟩
  | .right => finishEmpty K
  | l => start K l

/-- A parenthesis or a list ends with a shape. -/
def finish : List Frame × Shape → Option State
  | (.group :: K, s) => some ⟨K, .done (.shape s)⟩
  | (.args callee read :: K, s) => some ⟨K, .done (.shape (.invoke callee (read ++ [s])))⟩
  | (.names read :: K, .param p) => some ⟨K, .done (.names (read ++ [p]))⟩
  | _ => none

/-- A list goes on after a shape. -/
def separate : List Frame × Shape → Option State
  | (.args callee read :: K, s) => some ⟨.args callee (read ++ [s]) :: K, .gap⟩
  | (.group :: K, .param p) => some ⟨.names [p] :: K, .gap⟩
  | (.names read :: K, .param p) => some ⟨.names (read ++ [p]) :: K, .gap⟩
  | _ => none

/-- The second part of a conditional ends with a shape. -/
def otherwise : List Frame × Shape → Option State
  | (.ifTrue test :: K, s) => some ⟨.ifFalse test s :: K, .gap⟩
  | _ => none

/-- Something stands right after what has been read. -/
def extend (K : List Frame) : Item → Lexeme → Option State
  | i, .blank => some ⟨K, .spaced i⟩
  | .shape s, .dot => some ⟨K, .field s⟩
  | .shape s, .left => some ⟨.args s [] :: K, .ready⟩
  | .shape s, .right => finish (collapse 3 K s)
  | .shape s, .comma => separate (collapse 3 K s)
  | _, _ => none

/-- A mark between blanks. -/
def combine (K : List Frame) : Item → Lexeme → Option State
  | .shape s, .sign op => some ⟨.operand op (collapse 1 K s).2 :: (collapse 1 K s).1, .gap⟩
  | .shape s, .question => some ⟨.ifTrue (collapse 2 K s).2 :: (collapse 2 K s).1, .gap⟩
  | .shape s, .colon => otherwise (collapse 2 K s)
  | .shape (.param p), .arrow => some ⟨.lambda [p] :: K, .gap⟩
  | .names ps, .arrow => some ⟨.lambda ps :: K, .gap⟩
  | _, _ => none

/-- One lexeme is read. -/
def step : State → Lexeme → Option State
  | ⟨K, .ready⟩, l => begin K l
  | ⟨K, .tight⟩, l => start K l
  | ⟨K, .field target⟩, .word w => some ⟨K, .done (.shape (.member target w.text))⟩
  | ⟨K, .done i⟩, l => extend K i l
  | ⟨K, .spaced i⟩, l => combine K i l
  | ⟨K, .gap⟩, .blank => some ⟨K, .ready⟩
  | _, _ => none

/-- The lexemes are read one after the other. -/
def run : State → List Lexeme → Option State
  | st, [] => some st
  | st, l :: ls => (step st l).bind fun st => run st ls

/-! ## Lexemes that are read are apart -/

variable {K : List Frame} {i : Item} {st st' st'' : State} {l l' : Lexeme} {ls : List Lexeme}

/-- After a word, something has been read. -/
theorem step_word {w : Word} (h : step st (.word w) = some st') : ∃ i, st'.mode = .done i := by
  obtain ⟨K, mode⟩ := st
  cases mode with
  | ready | tight | field =>
      cases h
      exact ⟨_, rfl⟩
  | done i | spaced i => cases i <;> cases h
  | gap => cases h

theorem step_done (h : step ⟨K, .done i⟩ l = some st') : l.kind = .single := by
  cases l <;> first | rfl | (cases i <;> cases h)

/-- After a sign, a blank or the operand of a unary operation follows. -/
theorem step_sign (h : step st l = some st') (hl : l.kind = .sign) : st'.mode = .tight ∨ st'.mode = .gap := by
  obtain ⟨K, mode⟩ := st
  cases mode with
  | ready =>
      cases l with
      | bang =>
          cases h
          exact .inl rfl
      | sign op =>
          cases op with
          | sub =>
              cases h
              exact .inl rfl
          | _ => cases h
      | arrow => cases h
      | _ => cases hl
  | spaced i =>
      cases l with
      | bang => cases i <;> cases h
      | sign op =>
          cases i <;> cases h
          exact .inr rfl
      | arrow =>
          rcases i with ⟨_ | _⟩ | _ <;> cases h <;> exact .inr rfl
      | _ => cases hl
  | done i => exact absurd (hl.symm.trans (step_done h)) nofun
  | tight | field | gap => cases l <;> cases h <;> cases hl

theorem step_gap (h : step ⟨K, .gap⟩ l = some st') : l.kind = .single := by
  cases l <;> first | rfl | cases h

theorem step_tight (h : step ⟨K, .tight⟩ l = some st') : l.kind ≠ .sign := by
  cases l <;> cases h <;> nofun

/-- **Two lexemes read one after the other are apart.** -/
theorem step_apart (h : step st l = some st') (h' : step st' l' = some st'') : l.Apart l' := by
  intro hkind
  obtain ⟨K, mode⟩ := st'
  cases l with
  | word w =>
      obtain ⟨i, rfl⟩ := step_word h
      exact hkind.trans (step_done h')
  | sign | bang | arrow =>
      rcases step_sign h rfl with rfl | rfl
      · exact absurd hkind.symm (step_tight h')
      · exact hkind.trans (step_gap h')
  | _ => rfl

/-- **Lexemes that are read are apart.** -/
theorem run_apart : ∀ {ls : List Lexeme} {st : State}, run st ls = some st' → ls.IsChain Lexeme.Apart
  | [], _, _ => .nil
  | [l], _, _ => .singleton l
  | l :: l' :: ls, st, h => by
      obtain ⟨st₁, hl, h⟩ := Option.bind_eq_some_iff.1 h
      obtain ⟨st₂, hl', -⟩ := Option.bind_eq_some_iff.1 h
      exact .cons_cons (step_apart hl hl') (run_apart h)

/-! ## Texts that are read -/

/-- The texts are lexemes that lead from one state to the other. -/
def Reads (st : State) (ts : List String) (st' : State) : Prop :=
  ∃ ls, ls.map Lexeme.text = ts ∧ run st ls = some st'

namespace Reads

variable {ts us : List String}

theorem refl (st : State) : Reads st [] st := ⟨[], rfl, rfl⟩

theorem next (h : step st l = some st') (hts : Reads st' ts st'') : Reads st (l.text :: ts) st'' := by
  obtain ⟨ls, rfl, hrun⟩ := hts
  exact ⟨l :: ls, rfl, Option.bind_eq_some_iff.2 ⟨st', h, hrun⟩⟩

/-- One lexeme. -/
theorem one (h : step st l = some st') : Reads st [l.text] st' := next h (refl st')

theorem trans (hts : Reads st ts st') (hus : Reads st' us st'') : Reads st (ts ++ us) st'' := by
  obtain ⟨ls, rfl, hrun⟩ := hts
  induction ls generalizing st with
  | nil =>
      cases hrun
      exact hus
  | cons l ls ih =>
      obtain ⟨st₁, hstep, hrun⟩ := Option.bind_eq_some_iff.1 hrun
      exact next hstep (ih hrun)

/-- **A text is read in one way only.** -/
theorem unique (h : Reads st ts st') (h' : Reads st us st'') (htext : String.join ts = String.join us) :
    st' = st'' := by
  obtain ⟨ls, rfl, hrun⟩ := h
  obtain ⟨ls', rfl, hrun'⟩ := h'
  cases Lexeme.eq_of_join (run_apart hrun) (run_apart hrun') htext
  exact Option.some.inj (hrun.symm.trans hrun')

end Reads

end Reader

end DualForm
