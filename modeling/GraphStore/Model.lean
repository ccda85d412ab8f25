import GraphStore.Key
import GraphStore.Table

/-!
# The reference model

What a store is meant to be: a set of quads and the number of writes processed.

* `Model.add`, `Model.remove` : one processed write;
* `Model.degrees` : for each value, the number of quads that hold it;
* `Model.quadsAt` : the quads with a value at a position.
-/

namespace GraphStore

/-- The distinct values a quad holds, in increasing order. The empty label is none. -/
def Quad.members (q : Quad) : List String :=
  (SortedSet.ofList (q.values.filter (· != ""))).keys

/-- A set of quads and the number of writes processed. -/
structure Model where
  quads : SortedSet Quad := ∅
  horizon : Horizon := {}
deriving DecidableEq, Inhabited

namespace Model

def contains (m : Model) (q : Quad) : Bool := m.quads.contains q

/-- The model after a processed add, and whether the quad was not live before. -/
def add (m : Model) (q : Quad) : Bool × Model :=
  (!m.contains q, { quads := m.quads.add q, horizon := m.horizon.next })

def remove (m : Model) (q : Quad) : Bool × Model :=
  (m.contains q, { quads := m.quads.erase q, horizon := m.horizon.next })

/-- For each value, the number of live quads that hold it. -/
def degrees (m : Model) : Table String Nat :=
  (m.quads.keys.flatMap Quad.members).foldl (fun t v => t.insert v (t.getD v 0 + 1)) ∅

def quadsAt (m : Model) (direction : Direction) (value : String) : List Quad :=
  m.quads.keys.filter (·.get direction == value)

end Model

end GraphStore
