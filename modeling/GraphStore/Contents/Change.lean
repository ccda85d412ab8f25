import GraphStore.Contents.Degree
import GraphStore.Contents.Entry
import GraphStore.Contents.Live
import GraphStore.Contents.Naming

/-!
# Adding and removing a quad

A change keeps all tables in step: the live quads, the five indexes with their counts, the degrees
of the members, and the number of live quads.

* `Contents.addQuad`, `Contents.removeQuad` : the two changes, none when there is nothing to do;
* `Contents.apply` : a change as one write, which advances the horizon;
* `Change` : what a write came to.
-/

namespace GraphStore

inductive ChangeKind where
  | add
  | remove
deriving Repr, DecidableEq

inductive Change where
  /-- The quad was added or removed at this horizon. -/
  | applied (h : Horizon)
  /-- There was nothing to do, which still took this horizon. -/
  | noop (h : Horizon)
  /-- There was nothing to do, and the write was rolled back. -/
  | rolledBack
deriving Repr, DecidableEq

/-- Index entries that contradict the live quads. -/
inductive Corruption where
  | entriesExist (key : QuadKey)
  | entriesMissing (found : Nat) (key : QuadKey)
deriving Repr, DecidableEq

def Corruption.message : Corruption → String
  | entriesExist key => "index entries for " ++ key.text ++ " existed before the quad was added"
  | entriesMissing found key =>
    "only " ++ toString found ++ " index entries found for live quad " ++ key.text

namespace Contents

/-- The contents with `q` live from `h` on, and whether it was not live before. Its values are
interned in any case. -/
def addQuad (c : Contents) (q : Quad) (h : Horizon) : Except Corruption (Bool × Contents) :=
  let (key, c) := c.internQuad q
  match c.record key h with
  | (some _, c) => .ok (false, c)
  | (none, c) =>
    let (added, c) := c.addEntries key
    if added = Index.all.length then
      .ok (true, (c.retain key).shiftCounter .size 1)
    else .error (.entriesExist key)

def removeQuad (c : Contents) (q : Quad) : Except Corruption (Bool × Contents) :=
  match c.keyOf? q with
  | none => .ok (false, c)
  | some key =>
    match c.forget key with
    | (none, c) => .ok (false, c)
    | (some _, c) =>
      let (removed, c) := c.removeEntries key
      if removed = Index.all.length then
        .ok (true, (c.release key).shiftCounter .size (-1))
      else .error (.entriesMissing removed key)

/-- One change as a write of its own, and the contents it commits. A write without effect takes a
horizon only if `tick` says so. -/
def apply (c : Contents) (kind : ChangeKind) (q : Quad) (tick : Bool) :
    Except Corruption (Change × Contents) := do
  let h := (Horizon.mk (c.counter .horizon)).next
  let (effect, changed) ← match kind with
    | .add => c.addQuad q h
    | .remove => c.removeQuad q
  if effect then return (.applied h, changed.setCounter .horizon h.val)
  else if tick then return (.noop h, changed.setCounter .horizon h.val)
  else return (.rolledBack, c)

end Contents

end GraphStore
