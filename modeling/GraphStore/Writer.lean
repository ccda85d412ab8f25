import GraphStore.Store

/-!
# Sequenced writes

Every processed write takes the next horizon.

* `WriteOptions` : whether a write without effect is an outcome or an error;
* `Store.add`, `Store.remove` : one write;
* `Store.addAll` : a batch, which stops at the first failure and keeps what came before;
* `WriteError` : what can go wrong.
-/

namespace GraphStore

/-- How writes without effect are treated. -/
structure WriteOptions where
  /-- Adding a live quad is an outcome, not an error. -/
  ignoreDuplicate : Bool := true
  /-- Removing a quad that is not live is an outcome, not an error. -/
  ignoreMissing : Bool := true
deriving Repr, DecidableEq

inductive AddOutcome where
  | added (h : Horizon)
  | duplicate (h : Horizon)
deriving Repr, DecidableEq

def AddOutcome.horizon : AddOutcome → Horizon
  | .added h | .duplicate h => h

inductive RemoveOutcome where
  | removed (h : Horizon)
  | missing (h : Horizon)
deriving Repr, DecidableEq

def RemoveOutcome.horizon : RemoveOutcome → Horizon
  | .removed h | .missing h => h

inductive WriteError where
  | apply (quad : Quad) (error : StoreError)
  | duplicate (quad : Quad)
  | missing (quad : Quad)
  /-- A batch stopped after some quads, which stay applied. -/
  | batch (applied : Nat) (error : WriteError)
deriving Repr, DecidableEq

namespace WriteError

def message : WriteError → String
  | apply quad error => "failed to write " ++ quad.text ++ ": " ++ error.message
  | duplicate quad => "quad already exists: " ++ quad.text
  | missing quad => "quad does not exist: " ++ quad.text
  | batch applied error =>
    "quad set failed after " ++ toString applied ++ " quads: " ++ error.message

/-- The texts of the causes behind an error, nearest first. -/
def causes : WriteError → List String
  | apply _ error => error.message :: error.causes
  | batch _ error => error.message :: error.causes
  | _ => []

def storeError? : WriteError → Option StoreError
  | apply _ error => some error
  | batch _ error => error.storeError?
  | _ => none

end WriteError

namespace Store

def add (store : Store) (disk : Disk) (options : WriteOptions) (q : Quad) :
    Except WriteError (AddOutcome × Disk) :=
  match store.apply disk .add q options.ignoreDuplicate with
  | .error error => .error (.apply q error)
  | .ok (.applied h, disk) => .ok (.added h, disk)
  | .ok (.noop h, disk) => .ok (.duplicate h, disk)
  | .ok (.rolledBack, _) => .error (.duplicate q)

def remove (store : Store) (disk : Disk) (options : WriteOptions) (q : Quad) :
    Except WriteError (RemoveOutcome × Disk) :=
  match store.apply disk .remove q options.ignoreMissing with
  | .error error => .error (.apply q error)
  | .ok (.applied h, disk) => .ok (.removed h, disk)
  | .ok (.noop h, disk) => .ok (.missing h, disk)
  | .ok (.rolledBack, _) => .error (.missing q)

/-- Add the listed quads after `done` others, and the disk as far as that went. -/
def addAllFrom (store : Store) (options : WriteOptions) (done : List AddOutcome) :
    Disk → List Quad → Except WriteError (List AddOutcome) × Disk
  | disk, [] => (.ok done.reverse, disk)
  | disk, q :: rest =>
    match store.add disk options q with
    | .ok (outcome, disk) => addAllFrom store options (outcome :: done) disk rest
    | .error error => (.error (.batch done.length error), disk)

/-- Add quads in order, each committed on its own, up to the first failure. -/
def addAll (store : Store) (disk : Disk) (options : WriteOptions) (quads : List Quad) :
    Except WriteError (List AddOutcome) × Disk :=
  addAllFrom store options [] disk quads

end Store

end GraphStore
