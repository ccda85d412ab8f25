import GraphStore.Query.Basic

/-!
# Size hints

* `SizeHint` : a number of results, exact or estimated;
* `Query.size` : counters and index counts for the leaves, the sum of counts for links from a
  fixed list, the primary's size times `fanOut` for other links, and the smallest child of an
  intersection.
-/

namespace GraphStore

structure SizeHint where
  value : UInt64
  exact : Bool
deriving Repr, DecidableEq, Inhabited

namespace SizeHint

def exactly (value : UInt64) : SizeHint := ⟨value, true⟩

def about (value : UInt64) : SizeHint := ⟨value, false⟩

end SizeHint

def maxWord : UInt64 := .ofNat (UInt64.size - 1)

/-- Quads assumed per node when a primary is not a fixed list. -/
def fanOut : Nat := 20

/-- The number of entries a scan of one position would find for each listed node. -/
def Contents.linkCount (c : Contents) (direction : Direction) (values : List Ref) : UInt64 :=
  (values.filterMap Ref.asNode?).foldl
    (fun n id => n + c.entryCount (.ofDirection direction) id.toBytes) 0

/-- The size of a scan: the number of entries under its stem. -/
def Scan.size (disk : Disk) (scan : Scan) : Except StoreError SizeHint := do
  return .exactly ((← scan.cursor.contents disk none).entryCount scan.index scan.stem)

/-- The smallest of some sizes, or the largest word if there are none. -/
def SizeHint.smallest (hints : List SizeHint) : UInt64 :=
  hints.foldl (fun n hint => min n hint.value) maxWord

def SizeHint.common : List SizeHint → SizeHint
  | [] => exactly 0
  | [only] => only
  | hints => about (smallest hints)

namespace Query

mutual

/-- The size of a query, read through its snapshot during a pass and through the last committed
contents otherwise. Links from a fixed list always read the latter. -/
def size (disk : Disk) : Query → Except StoreError SizeHint
  | .all _ category cursor => do
    let c ← cursor.contents disk none
    return .exactly (c.counter (match category with | .nodes => .nodes | .quads => .size))
  | .fixed _ values _ => return .exactly (.ofNat values.length)
  | .position scan => scan.size disk
  | .links _ handle _ direction (.fixed _ values _) _ _ => do
    return .exactly ((← disk.view handle).linkCount direction values)
  | .links _ _ _ _ primary _ _ => do
    let hint ← primary.size disk
    return .about (.ofNat (min (UInt64.size - 1) (hint.value.toNat * fanOut)))
  | .inter _ children _ _ => do return .common (← sizes disk children)
termination_by structural q => q

def sizes (disk : Disk) : List Query → Except StoreError (List SizeHint)
  | [] => return []
  | q :: rest => do return (← q.size disk) :: (← sizes disk rest)
termination_by structural qs => qs

end

/-- The place of the child that drives an intersection: the first of the smallest size. -/
def chooseDriver (disk : Disk) (children : List Query) : Except StoreError Nat := do
  let hints ← sizes disk children
  return hints.findIdx (·.value == SizeHint.smallest hints)

end Query

end GraphStore
