import DualForm.Error
import DualForm.Value.Basic
import Std.Data.HashMap

/-!
# State and actions

* `Store` — everything that can change while trees are evaluated: fresh identities, the forms duals
  have published, lazy values, and the state of host code (cells, attempts, log).
* `Stop` — why an action ends early: an error, or the bound on nested steps.
* `Act` — actions on the store. The store is kept when an action fails.
* `Act.freshId`, `Act.newFunc`, `Act.newRecord` — new identities.
* `Slot`, `Act.publishOnce` — values computed on first use. The first success is published and kept;
  a failure publishes nothing, and a success that finds the slot filled meanwhile is dropped.
-/

namespace DualForm

/-- State of a run. -/
structure Store where
  nextId : Nat
  /-- Tree forms published so far, by the identity of the dual. -/
  trees : Std.HashMap Nat Lam
  /-- Function forms published so far, by the identity of the dual. -/
  functions : Std.HashMap Nat Func
  /-- Lazy values published so far. -/
  values : Std.HashMap Nat Value
  /-- Mutable cells of the host. -/
  cells : Std.HashMap String Value
  /-- How often host code that fails at first has been tried. -/
  attempts : Std.HashMap Nat Nat
  /-- Lines written by host code, in order. -/
  log : Array String
deriving Inhabited

/-- The store before anything has run. -/
def Store.initial : Store := ⟨0, ∅, ∅, ∅, ∅, ∅, #[]⟩

/-- Why an action ended without a result. -/
inductive Stop where
  | failed (e : Error)
  /-- More nested steps than allowed. -/
  | exhausted
deriving DecidableEq, Repr, Inhabited

/-- Action on the store. -/
abbrev Act := EStateM Stop Store

namespace Act

variable {α : Type}

/-- Fails. -/
def fail (e : Error) : Act α := throw (.failed e)

/-- A result or an error, as an action. -/
def lift : Except Error α → Act α
  | .ok a => pure a
  | .error e => fail e

/-- Runs an action and hands over its error instead of failing. -/
def attempt (x : Act α) : Act (Except Error α) := fun s =>
  match x s with
  | .ok a s => .ok (.ok a) s
  | .error (.failed e) s => .ok (.error e) s
  | .error .exhausted s => .error .exhausted s

/-- An identity not used before. -/
def freshId : Act Nat := do
  let s ← get
  set { s with nextId := s.nextId + 1 }
  return s.nextId

/-- A function value with an identity of its own. -/
def newFunc (arity : Nat) (code : Code) : Act Func := return ⟨← freshId, arity, code⟩

/-- A record with an identity of its own. -/
def newRecord (declaring : DeclaringType) (fields : List (String × Value)) : Act Value :=
  return .record (← freshId) declaring fields

/-- Writes a line to the log. -/
def logLine (line : String) : Act Unit := modify fun s => { s with log := s.log.push line }

end Act

/-- A place of the store that holds at most one value. -/
structure Slot (α : Type) where
  read : Store → Option α
  write : α → Store → Store

namespace Slot

/-- The tree form of a dual. -/
def tree (d : Dual) : Slot Lam :=
  ⟨fun s => s.trees[d.id]?, fun l s => { s with trees := s.trees.insert d.id l }⟩

/-- The function form of a dual. -/
def function (d : Dual) : Slot Func :=
  ⟨fun s => s.functions[d.id]?, fun f s => { s with functions := s.functions.insert d.id f }⟩

/-- A lazy value. -/
def value (id : Nat) : Slot Value :=
  ⟨fun s => s.values[id]?, fun v s => { s with values := s.values.insert id v }⟩

end Slot

/-- The published value, computed and published first if need be. -/
def Act.publishOnce {α : Type} (slot : Slot α) (initialise : Act α) : Act α := do
  match slot.read (← get) with
  | some a => return a
  | none =>
      let a ← initialise
      match slot.read (← get) with
      | some first => return first
      | none =>
          modify (slot.write a)
          return a

end DualForm
