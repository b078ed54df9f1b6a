import DualForm.Host.Making
import DualForm.Machine

/-!
# Registered host code

* `Registry` — the builders and decompilers known so far, each under its position.
* `Registry.host` — the host that runs them.
* `Registry.engine` — the machine on that host.
-/

namespace DualForm

/-- Builders and decompilers, by position. -/
structure Registry where
  treeBuilders : Array (Builder ExprRecipe)
  functionBuilders : Array (Builder FuncRecipe)
  decompilers : Array DecompilerRecipe
deriving Inhabited

namespace Registry

/-- No host code. -/
def empty : Registry := ⟨#[], #[], #[]⟩

/-- Adds a tree builder. -/
def addTree (r : Registry) (b : Builder ExprRecipe) : BuilderId × Registry :=
  (r.treeBuilders.size, { r with treeBuilders := r.treeBuilders.push b })

/-- Adds a function builder. -/
def addFunction (r : Registry) (b : Builder FuncRecipe) : BuilderId × Registry :=
  (r.functionBuilders.size, { r with functionBuilders := r.functionBuilders.push b })

/-- Adds a decompiler. -/
def addDecompiler (r : Registry) (d : DecompilerRecipe) : DecompilerId × Registry :=
  (r.decompilers.size, { r with decompilers := r.decompilers.push d })

/-- What an entry makes, or an error if there is none. -/
def entry {α β : Type} (entries : Array α) (id : Nat) (make : α → Act β) : Act β :=
  match entries[id]? with
  | some e => make e
  | none => Act.fail (.host ("nothing is registered under " ++ toString id))

/-- The host that runs what is registered. -/
def host (r : Registry) : Host where
  run := Routine.run
  buildTree E id args := entry r.treeBuilders id fun b =>
    b.make E (fun S e => do Act.lift (← e.make E S).expectLambda) args
  buildFunction E id args := entry r.functionBuilders id fun b =>
    b.make E (fun S f => f.make E S) args
  decompile E id f := entry r.decompilers id fun d => d.make E f

/-- The machine on that host. -/
def engine (r : Registry) (steps : Nat) : Engine := machine r.host steps

end Registry

end DualForm
