import DualForm.Compiled

/-!
# Routines of the host

* `Routine.run` — the host functions by name: identity, length of a string, increment, packing of
  arguments, one argument, a constant, a failure, application, reading a cell, failing at first, and
  tracing. They see the values they hold and their arguments.
* `failFirst` — fails on the first attempts counted under an identity.
* `readCell`, `writeCell` — mutable cells.
-/

namespace DualForm

/-- Fails unless `fails` attempts have been made under this identity. -/
def failFirst (id fails : Nat) : Act Unit := do
  let made := ((← get).attempts[id]?).getD 0
  if made < fails then
    modify fun s => { s with attempts := s.attempts.insert id (made + 1) }
    Act.fail (.host "flaky")

/-- The value of a cell. -/
def readCell (name : String) : Act Value := do
  match (← get).cells[name]? with
  | some v => return v
  | none => Act.fail (.host ("cell `" ++ name ++ "` is unset"))

/-- Sets a cell. -/
def writeCell (name : String) (v : Value) : Act Unit :=
  modify fun s => { s with cells := s.cells.insert name v }

namespace Routine

/-- The integer after an integer. -/
def increment : Value → Except Error Value
  | .int n => .ok (.int (n + 1))
  | v => .error (.typeMismatch "int" (Value.ty v).text)

/-- Bytes of a string, and zero for anything else. -/
def length : Value → Value
  | .str s => .int (Int64.ofNat s.utf8ByteSize)
  | _ => .int 0

/-- Runs a routine by name. -/
def run (E : Engine) (self : Nat) (name : String) (held args : List Value) : Act Value :=
  match name, held, args with
  | "id", _, [x] => return x
  | "len", _, [x] => return length x
  | "inc", _, [x] => Act.lift (increment x)
  | "pack", _, args => return .list args
  | "arg", [.int index], args => return args.getD index.toNatClampNeg .null
  | "const", [v], _ => return v
  | "fail", [.str message], _ => Act.fail (.host message)
  | "apply", _, [.func f, x] => E.call f [x]
  | "apply", _, [v, _] => Act.fail (.typeMismatch "function" (Value.ty v).text)
  | "cell", [.str cell], _ => readCell cell
  | "flaky", [.int fails, .func f], args => do
      failFirst self fails.toNatClampNeg
      E.call f args
  | "trace", [.str label, .func f], args => do
      Act.logLine (label ++ "(" ++ ", ".intercalate (Value.texts args) ++ ")")
      E.call f args
  | name, _, _ => Act.fail (.host ("routine `" ++ name ++ "` cannot run"))

end Routine

end DualForm
