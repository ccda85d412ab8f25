import GraphStore.Contents

/-!
# Live nodes

The degree of a node is the number of live quads that hold it. A node without an entry has degree
zero and is not live.

* `QuadKey.members` : the distinct nodes a quad holds;
* `Contents.retain`, `Contents.release` : count one quad more or less for each of its members,
  and keep the number of live nodes;
* `Contents.livePage?` : a page of live nodes.
-/

namespace GraphStore

/-- The distinct nodes a quad holds, in increasing order. The empty label is none. -/
def QuadKey.members (key : QuadKey) : List NodeId :=
  (SortedSet.ofList (key.ids.filter (!·.isBlank))).keys

namespace Contents

/-- The number of live quads that hold a node. -/
def degree (c : Contents) (id : NodeId) : UInt64 := c.degrees.getD id 0

def isLiveNode (c : Contents) (id : NodeId) : Bool := 0 < c.degree id

/-- The table with the degree of a node moved from `before` to `after`; a node whose degree drops
to zero loses its entry. -/
def withDegree (degrees : Table NodeId UInt64) (id : NodeId) (before after : UInt64) :
    Table NodeId UInt64 :=
  if after ≠ 0 then degrees.insert id after
  else if before ≠ 0 then degrees.erase id
  else degrees

/-- How the number of live nodes changes when one degree does. -/
def liveShift (before after : UInt64) : Int :=
  if before = 0 ∧ after ≠ 0 then 1 else if before ≠ 0 ∧ after = 0 then -1 else 0

/-- The degrees moved by `distance` for each listed node, and the change in live nodes. -/
def shiftDegrees (distance : Int) (degrees : Table NodeId UInt64) :
    List NodeId → Table NodeId UInt64 × Int
  | [] => (degrees, 0)
  | id :: rest =>
    let before := degrees.getD id 0
    let after := shifted before distance
    let (degrees, live) := shiftDegrees distance (withDegree degrees id before after) rest
    (degrees, liveShift before after + live)

def shiftMembers (c : Contents) (key : QuadKey) (distance : Int) : Contents :=
  let (degrees, live) := shiftDegrees distance c.degrees key.members
  let c := { c with degrees }
  if live = 0 then c else c.shiftCounter .nodes live

def retain (c : Contents) (key : QuadKey) : Contents := c.shiftMembers key 1

def release (c : Contents) (key : QuadKey) : Contents := c.shiftMembers key (-1)

def livePage? (c : Contents) (after : Option NodeId) (limit : Nat) : Except PageError Page := do
  let lo := match after with
    | some id => .excluded id
    | none => .unbounded
  let nodes := (c.degrees.between lo .unbounded).take limit
  let page ← Page.empty? (.ofNat NodeId.width)
  page.appendAll (nodes.map (·.1.toBytes))

end Contents

end GraphStore
