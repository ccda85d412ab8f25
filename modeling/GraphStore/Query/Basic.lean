import GraphStore.Query.Cursor
import GraphStore.Query.Tags

/-!
# Queries

A query yields nodes or quads of a store one by one, and answers whether it would yield a given
one. It is a tree, and a value: every operation returns the query as it is afterwards.

* `Frame` : what every query carries, its tags, where it is in a pass, and its current result;
* `Scan` : the quads with given ids at one or two positions;
* `Query` : all nodes or quads, a fixed list, a scan, the quads linked to the nodes of another
  query, and the intersection of several;
* `Query.reset`, `Query.copy` : the same query before its first step;
* `Query.setSnapshot` : one view of the store for the whole tree;
* `Query.bind` : the names bound along the path to the current result.
-/

namespace GraphStore

/-! ## Frames -/

inductive Phase where
  | unstarted
  | iterating
  | exhausted
deriving Repr, DecidableEq, Inhabited

def Phase.text : Phase → String
  | unstarted => "unstarted"
  | iterating => "iterating"
  | exhausted => "exhausted"

/-- What every query carries. -/
structure Frame where
  tags : Tags := {}
  phase : Phase := .unstarted
  result : Option Ref := none
deriving DecidableEq, Inhabited

namespace Frame

def isExhausted (frame : Frame) : Bool := frame.phase == .exhausted

def advance (frame : Frame) (ref : Ref) : Frame :=
  { frame with phase := .iterating, result := some ref }

/-- The frame with a confirmed member as its result. -/
def confirm (frame : Frame) (ref : Ref) : Frame := { frame with result := some ref }

def exhaust (frame : Frame) : Frame := { frame with phase := .exhausted, result := none }

/-- The frame before a pass; it keeps its tags. -/
def reset (frame : Frame) : Frame := { frame with phase := .unstarted, result := none }

def copy (frame : Frame) : Frame := { tags := frame.tags }

def step (frame : Frame) : Option Ref → Frame
  | some ref => frame.advance ref
  | none => frame.exhaust

def bind (frame : Frame) (bindings : Bindings) : Bindings :=
  frame.tags.bind frame.result bindings

end Frame

/-! ## Scans -/

/-- The quads with given ids at some positions, read from the index of those positions. -/
structure Scan where
  frame : Frame := {}
  index : Index
  bound : List (Direction × NodeId)
  cursor : Cursor
deriving DecidableEq

namespace Scan

def stemOf (bound : List (Direction × NodeId)) : Bytes := bound.flatMap fun (_, id) => id.toBytes

def start (handle : Handle) (pageSize : Nat) (index : Index)
    (bound : List (Direction × NodeId)) : Scan where
  index
  bound
  cursor := .start handle (.entries index (stemOf bound)) pageSize

def ofDirection (handle : Handle) (pageSize : Nat) (direction : Direction) (id : NodeId) : Scan :=
  start handle pageSize (.ofDirection direction) [(direction, id)]

def subjectPredicate (handle : Handle) (pageSize : Nat) (subject predicate : NodeId) : Scan :=
  start handle pageSize .subjectPredicate [(.subject, subject), (.predicate, predicate)]

def stem (scan : Scan) : Bytes := stemOf scan.bound

/-- The id at a position, when that is the only bound one. -/
def single? (scan : Scan) (direction : Direction) : Option NodeId :=
  match scan.bound with
  | [(d, id)] => if d = direction then some id else none
  | _ => none

def fits (scan : Scan) (key : QuadKey) : Bool := scan.bound.all fun (d, id) => key.get d == id

def reset (scan : Scan) : Scan :=
  { scan with frame := scan.frame.reset, cursor := scan.cursor.reset }

def copy (scan : Scan) : Scan :=
  { scan with frame := scan.frame.copy, cursor := scan.cursor.copy }

def setSnapshot (scan : Scan) (snapshot : Option Snapshot) : Scan :=
  { scan with cursor := scan.cursor.setSnapshot snapshot }

end Scan

/-! ## Queries -/

/-- A tree that yields nodes or quads of a store. -/
inductive Query where
  /-- Every live node, or every live quad. -/
  | all (frame : Frame) (category : Category) (cursor : Cursor)
  /-- The listed values; `index` is the place of the next one. -/
  | fixed (frame : Frame) (values : List Ref) (index : Nat)
  /-- The quads with given ids at some positions. -/
  | position (scan : Scan)
  /-- The quads whose node at `direction` is a result of `primary`. `inner` scans those of the
  current one. -/
  | links (frame : Frame) (handle : Handle) (pageSize : Nat) (direction : Direction)
      (primary : Query) (inner : Option Scan) (snapshot : Option Snapshot)
  /-- The common results of all children; the one at `driver` is asked for results, the others
  whether they contain them. -/
  | inter (frame : Frame) (children : List Query) (driver : Option Nat)
      (snapshot : Option Snapshot)

namespace Query

/-! ### Construction -/

def nodes (handle : Handle) (pageSize : Nat) : Query :=
  .all {} .nodes (.start handle .nodes pageSize)

def quads (handle : Handle) (pageSize : Nat) : Query :=
  .all {} .quads (.start handle .quads pageSize)

/-- The listed values, each once. -/
def ofList (values : List Ref) : Query :=
  .fixed {} (values.foldl (fun vs v => if v ∈ vs then vs else vs ++ [v]) []) 0

def quadsAt (handle : Handle) (pageSize : Nat) (direction : Direction) (id : NodeId) : Query :=
  .position (.ofDirection handle pageSize direction id)

/-- The quads whose node at a position is a result of a query. -/
def linksTo (handle : Handle) (pageSize : Nat) (primary : Query) (direction : Direction) :
    Query :=
  .links {} handle pageSize direction primary none none

def both (children : List Query) : Query := .inter {} children none none

/-- A fixed list with one more value; other queries stay as they are. -/
def addValue (value : Ref) : Query → Query
  | .fixed frame values index =>
    .fixed frame (if value ∈ values then values else values ++ [value]) index
  | q => q

/-- An intersection with one more child, which will choose its driver anew; other queries stay as
they are. -/
def addChild (q child : Query) : Query :=
  match q with
  | .inter frame children _ snapshot => .inter frame (children ++ [child]) none snapshot
  | q => q

/-! ### Frames of queries -/

def frame : Query → Frame
  | .all frame .. | .fixed frame .. | .links frame .. | .inter frame .. => frame
  | .position scan => scan.frame

def mapFrame (change : Frame → Frame) : Query → Query
  | .all frame category cursor => .all (change frame) category cursor
  | .fixed frame values index => .fixed (change frame) values index
  | .position scan => .position { scan with frame := change scan.frame }
  | .links frame handle pageSize direction primary inner snapshot =>
    .links (change frame) handle pageSize direction primary inner snapshot
  | .inter frame children driver snapshot => .inter (change frame) children driver snapshot

def result (q : Query) : Option Ref := q.frame.result

def phase (q : Query) : Phase := q.frame.phase

def tags (q : Query) : Tags := q.frame.tags

def mapTags (change : Tags → Tags) (q : Query) : Query :=
  q.mapFrame fun frame => { frame with tags := change frame.tags }

/-! ### What a tree is about -/

def categoryOfList : List Ref → Option Category
  | [] => none
  | ref :: rest => if rest.all (·.category == ref.category) then some ref.category else none

mutual

/-- Whether the results are nodes or quads, as far as that is certain. -/
def category : Query → Option Category
  | .all _ category _ => some category
  | .fixed _ values _ => categoryOfList values
  | .position _ | .links .. => some .quads
  | .inter _ children _ _ => firstCategory children

def firstCategory : List Query → Option Category
  | [] => none
  | q :: rest => q.category.or (firstCategory rest)

end

mutual

/-- The handle the query reads from; none if it holds listed values only. -/
def handle? : Query → Option Handle
  | .all _ _ cursor => some cursor.handle
  | .fixed .. => none
  | .position scan => some scan.cursor.handle
  | .links _ handle .. => some handle
  | .inter _ children _ _ => firstHandle? children

def firstHandle? : List Query → Option Handle
  | [] => none
  | q :: rest => q.handle?.or (firstHandle? rest)

end

/-! ### Passes -/

mutual

/-- The query reading through the given snapshot, in all its parts. -/
def setSnapshot (snapshot : Option Snapshot) : Query → Query
  | .all frame category cursor => .all frame category (cursor.setSnapshot snapshot)
  | .fixed frame values index => .fixed frame values index
  | .position scan => .position (scan.setSnapshot snapshot)
  | .links frame handle pageSize direction primary inner _ =>
    .links frame handle pageSize direction (primary.setSnapshot snapshot)
      (inner.map (·.setSnapshot snapshot)) snapshot
  | .inter frame children driver _ =>
    .inter frame (setSnapshotAll snapshot children) driver snapshot

def setSnapshotAll (snapshot : Option Snapshot) : List Query → List Query
  | [] => []
  | q :: rest => q.setSnapshot snapshot :: setSnapshotAll snapshot rest

end

mutual

/-- The query before its first step, without progress or a snapshot. -/
def reset : Query → Query
  | .all frame category cursor => .all frame.reset category cursor.reset
  | .fixed frame values _ => .fixed frame.reset values 0
  | .position scan => .position scan.reset
  | .links frame handle pageSize direction primary _ _ =>
    .links frame.reset handle pageSize direction primary.reset none none
  | .inter frame children _ _ => .inter frame.reset (resetAll children) none none

def resetAll : List Query → List Query
  | [] => []
  | q :: rest => q.reset :: resetAll rest

end

mutual

/-- A second query of the same definition, not started. -/
def copy : Query → Query
  | .all frame category cursor => .all frame.copy category cursor.copy
  | .fixed frame values _ => .fixed frame.copy values 0
  | .position scan => .position scan.copy
  | .links frame handle pageSize direction primary _ _ =>
    .links frame.copy handle pageSize direction primary.copy none none
  | .inter frame children _ _ => .inter frame.copy (copyAll children) none none

def copyAll : List Query → List Query
  | [] => []
  | q :: rest => q.copy :: copyAll rest

end

/-! ### Bindings -/

mutual

/-- The bindings with those of the current result, along the whole path to it. -/
def bind : Query → Bindings → Bindings
  | .all frame .., bindings | .fixed frame .., bindings => frame.bind bindings
  | .position scan, bindings => scan.frame.bind bindings
  | .links frame _ _ _ primary _ _, bindings => primary.bind (frame.bind bindings)
  | .inter frame children _ _, bindings => bindAll children (frame.bind bindings)

def bindAll : List Query → Bindings → Bindings
  | [], bindings => bindings
  | q :: rest, bindings => bindAll rest (q.bind bindings)

end

end Query

end GraphStore
