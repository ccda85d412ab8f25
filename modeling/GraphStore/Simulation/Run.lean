import GraphStore.Check
import GraphStore.Simulation.Operation

/-!
# Simulation

Random operations go to a fresh store and to the model, and the two are compared after every
operation.

* `SimulationConfig` : what is generated and how often the contents are compared;
* `SimulationState` : the store, the model and the tallies in the course of a run;
* `simulate` : a run of a given number of operations.
-/

namespace GraphStore

structure SimulationConfig where
  operations : OperationConfig := {}
  /-- Values per page of the store's queries. -/
  pageSize : UInt64 := 4
  /-- The contents are compared after every that many operations; never, if zero. -/
  checkInterval : Nat := 1

structure Tally where
  added : Nat := 0
  removed : Nat := 0
  noops : Nat := 0
  rejected : Nat := 0
deriving Repr, DecidableEq, Inhabited

namespace Tally

def total (tally : Tally) : Nat := tally.added + tally.removed + tally.noops + tally.rejected

end Tally

structure SimulationState where
  store : Store
  disk : Disk
  generator : Generator
  model : Model := {}
  tally : Tally := {}
  violations : List Violation := []

namespace SimulationState

open Text

def found (s : SimulationState) (operation : Nat) (descriptions : List String) :
    SimulationState :=
  { s with violations := s.violations ++ descriptions.map (⟨·, operation⟩) }

def operationText : Operation → String
  | .add q => wrappedText "Add" (Check.shownQuad q)
  | .remove q => wrappedText "Remove" (Check.shownQuad q)

def addText : AddOutcome → String
  | .added h => wrappedText "Added" (wrappedText "Horizon" h.text)
  | .duplicate h => wrappedText "Duplicate" (wrappedText "Horizon" h.text)

def removeText : RemoveOutcome → String
  | .removed h => wrappedText "Removed" (wrappedText "Horizon" h.text)
  | .missing h => wrappedText "Missing" (wrappedText "Horizon" h.text)

/-- The state after a failed write, which only an invalid quad may cause. -/
def reject (s : SimulationState) (operation : Nat) (op : Operation) (error : WriteError) :
    SimulationState :=
  match op.quad.isValid, error.storeError? with
  | false, some (.invalidQuad _) =>
    { s with tally := { s.tally with rejected := s.tally.rejected + 1 } }
  | _, _ => s.found operation [operationText op ++ " failed: " ++ error.message]

/-- The state after a write, compared with what the model expects of it. -/
def write (s : SimulationState) (operation : Nat) (op : Operation) : SimulationState :=
  match op with
  | .add q =>
    match s.store.add s.disk {} q with
    | .error error => s.reject operation op error
    | .ok (outcome, disk) =>
      let (fresh, model) := s.model.add q
      let s := { s with disk, model }
      match outcome, fresh with
      | .added _, true => { s with tally := { s.tally with added := s.tally.added + 1 } }
      | .duplicate _, false => { s with tally := { s.tally with noops := s.tally.noops + 1 } }
      | outcome, _ => s.found operation ["add of " ++ q.text ++ " returned " ++ addText outcome]
  | .remove q =>
    match s.store.remove s.disk {} q with
    | .error error => s.reject operation op error
    | .ok (outcome, disk) =>
      let (live, model) := s.model.remove q
      let s := { s with disk, model }
      match outcome, live with
      | .removed _, true => { s with tally := { s.tally with removed := s.tally.removed + 1 } }
      | .missing _, false => { s with tally := { s.tally with noops := s.tally.noops + 1 } }
      | outcome, _ =>
        s.found operation ["remove of " ++ q.text ++ " returned " ++ removeText outcome]

def compareContents (s : SimulationState) (operation : Nat) : SimulationState :=
  s.found operation
    (checkContents s.store s.disk s.model (Generator.values s.generator.config))

/-- The state after one generated operation and the checks that follow it. -/
def step (s : SimulationState) (checkInterval operation : Nat) : SimulationState :=
  let (op, generator) := s.generator.next s.model.quads.keys
  let s := { s with generator }.write operation op
  let s := s.found operation (checkCounters s.store s.disk s.model)
  if 0 < checkInterval ∧ (operation + 1) % checkInterval = 0 then s.compareContents operation
  else s

def steps (checkInterval : Nat) : Nat → Nat → SimulationState → SimulationState
  | _, 0, s => s
  | operation, count + 1, s =>
    steps checkInterval (operation + 1) count (s.step checkInterval operation)

end SimulationState

/-- A run of `count` operations against a fresh store, whose contents are compared once more at
its end. -/
def simulate (config : SimulationConfig) (draws : Draws) (count : Nat) :
    Except StoreError SimulationState := do
  let (store, disk) ← Store.create {} "quads" (({} : Config).withPageSize config.pageSize)
  let start : SimulationState :=
    { store, disk, generator := .ofDraws config.operations draws }
  return (start.steps config.checkInterval 0 count).compareContents count

end GraphStore
