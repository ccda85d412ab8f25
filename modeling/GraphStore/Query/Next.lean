import GraphStore.Query.Probe

/-!
# Passes

`Query.next` asks for the next result. A pass over a tree reads one snapshot, taken at its first
step. Links scan the quads of one primary node after another; an intersection asks its driver for
candidates until the other children confirm one.

* `Query.advance` : one turn of the two loops, given a way to take further steps;
* `Query.nextWithin` : a step in a bounded number of turns, none if they do not suffice;
* `Query.supply`, `Query.turns` : bounds on the results still to come and on the turns of a step;
* `Query.next` : a step;
* `Query.gather`, `Query.drain` : what is read off further results, and the results themselves.
-/

namespace GraphStore

/-- What asking for the next result came to: a result, the end of the pass, or an error. -/
abbrev Outcome := Except StoreError (Option Ref)

/-- The frame after an outcome. An error leaves it as it was. -/
def Frame.after (frame : Frame) : Outcome → Frame
  | .ok result => frame.step result
  | .error _ => frame

def Scan.next (disk : Disk) (scan : Scan) : Outcome × Scan :=
  if scan.frame.isExhausted then (.ok none, scan)
  else
    let (outcome, cursor) := scan.cursor.next disk
    (outcome, { scan with frame := scan.frame.after outcome, cursor })

namespace Query

/-! ## Steps -/

/-- A step of links whose pass has begun: the next quad of the current node, or else the next
node. -/
def advanceLinks (disk : Disk) (next : Query → Option (Outcome × Query)) (frame : Frame)
    (handle : Handle) (pageSize : Nat) (direction : Direction) (primary : Query)
    (inner : Option Scan) (snapshot : Snapshot) : Option (Outcome × Query) :=
  match inner with
  | some scan =>
    match scan.next disk with
    | (.ok none, _) =>
      next (.links frame handle pageSize direction primary none (some snapshot))
    | (outcome, scan) =>
      some (outcome, .links (frame.after outcome) handle pageSize direction primary (some scan)
        (some snapshot))
  | none => do
    match ← next primary with
    | (.error error, primary) =>
      some (.error error, .links frame handle pageSize direction primary none (some snapshot))
    | (.ok none, primary) =>
      some (.ok none, .links frame.exhaust handle pageSize direction (primary.setSnapshot none)
        none none)
    | (.ok (some (.node id)), primary) =>
      let scan := (Scan.ofDirection handle pageSize direction id).setSnapshot (some snapshot)
      next (.links frame handle pageSize direction primary (some scan) (some snapshot))
    | (.ok (some (.quad _)), primary) =>
      next (.links frame handle pageSize direction primary none (some snapshot))

/-- A step of an intersection whose driver is chosen: a candidate, and whether it is a result. -/
def advanceDriver (disk : Disk) (next : Query → Option (Outcome × Query)) (frame : Frame)
    (children : List Query) (driver : Nat) (snapshot : Option Snapshot) :
    Option (Outcome × Query) := do
  match ← (← children[driver]?.map next) with
  | (.error error, child) =>
    some (.error error, .inter frame (children.set driver child) (some driver) snapshot)
  | (.ok none, child) =>
    some (.ok none, .inter frame.exhaust (setSnapshotAll none (children.set driver child))
      (some driver) none)
  | (.ok (some ref), child) =>
    match probeAll disk none ref (some driver) (children.set driver child) with
    | (.error error, children) =>
      some (.error error, .inter frame children (some driver) snapshot)
    | (.ok false, children) => next (.inter frame children (some driver) snapshot)
    | (.ok true, children) =>
      some (.ok (some ref), .inter (frame.advance ref) children (some driver) snapshot)

/-- A step of an intersection whose pass has begun. Its first step chooses the driver. -/
def advanceInter (disk : Disk) (next : Query → Option (Outcome × Query)) (frame : Frame)
    (children : List Query) (driver : Option Nat) (snapshot : Option Snapshot) :
    Option (Outcome × Query) :=
  match driver with
  | some driver => advanceDriver disk next frame children driver snapshot
  | none =>
    match chooseDriver disk children with
    | .error error => some (.error error, .inter frame children none snapshot)
    | .ok driver => advanceDriver disk next frame children driver snapshot

/-- One turn of a step; `next` takes the steps it needs. A pass that has not begun begins with a
snapshot for the whole tree. -/
def advance (disk : Disk) (next : Query → Option (Outcome × Query)) :
    Query → Option (Outcome × Query)
  | .all frame category cursor =>
    if frame.isExhausted then some (.ok none, .all frame category cursor)
    else
      let (outcome, cursor) := cursor.next disk
      some (outcome, .all (frame.after outcome) category cursor)
  | .fixed frame values index =>
    if frame.isExhausted then some (.ok none, .fixed frame values index)
    else
      match values[index]? with
      | some ref => some (.ok (some ref), .fixed (frame.advance ref) values (index + 1))
      | none => some (.ok none, .fixed frame.exhaust values index)
  | .position scan =>
    let (outcome, scan) := scan.next disk
    some (outcome, .position scan)
  | .links frame handle pageSize direction primary inner snapshot =>
    if frame.isExhausted then
      some (.ok none, .links frame handle pageSize direction primary inner snapshot)
    else
      match snapshot with
      | some s => advanceLinks disk next frame handle pageSize direction primary inner s
      | none =>
        match disk.take handle with
        | .error error =>
          some (.error error, .links frame handle pageSize direction primary inner none)
        | .ok s =>
          advanceLinks disk next frame handle pageSize direction (primary.setSnapshot (some s))
            (inner.map (·.setSnapshot (some s))) s
  | .inter frame children driver snapshot =>
    if frame.isExhausted then some (.ok none, .inter frame children driver snapshot)
    else if children.isEmpty then some (.ok none, .inter frame.exhaust children driver snapshot)
    else
      match snapshot, firstHandle? children with
      | none, some handle =>
        match disk.take handle with
        | .error error => some (.error error, .inter frame children driver none)
        | .ok s =>
          advanceInter disk next frame (setSnapshotAll (some s) children) driver (some s)
      | snapshot, _ => advanceInter disk next frame children driver snapshot

/-- A step in at most the given number of turns, one inside the other. -/
def nextWithin (disk : Disk) : Nat → Query → Option (Outcome × Query)
  | 0 => fun _ => none
  | n + 1 => advance disk (nextWithin disk n)

/-! ## Bounds -/

/-- The snapshot imposed on the parts of a tree: the one imposed on the tree, or else, where it
holds none, the one it will take. -/
def imposedBelow (disk : Disk) (imposed snapshot : Option Snapshot) (handle? : Option Handle) :
    Option Snapshot :=
  match imposed.or snapshot, handle? with
  | none, some handle => (disk.take handle).toOption
  | _, _ => imposed

def entriesIn (disk : Disk) (imposed snapshot : Option Snapshot) (handle : Handle)
    (index : Index) : Nat :=
  match (imposed.or snapshot).or (disk.take handle).toOption with
  | some s => (s.contents.indexes.get index).size
  | none => 0

mutual

/-- A bound on the number of results still to come. -/
def supply (disk : Disk) (imposed : Option Snapshot) : Query → Nat
  | .all _ _ cursor => cursor.remaining disk imposed
  | .fixed _ values index => values.length - index
  | .position scan => scan.cursor.remaining disk imposed
  | .links _ handle _ direction primary inner snapshot =>
    let below := imposedBelow disk imposed snapshot (some handle)
    primary.supply disk below * entriesIn disk imposed snapshot handle (.ofDirection direction) +
      (inner.map (·.cursor.remaining disk below)).getD 0
  | .inter _ children _ snapshot =>
    supplyAll disk (imposedBelow disk imposed snapshot (firstHandle? children)) children
termination_by structural q => q

def supplyAll (disk : Disk) (imposed : Option Snapshot) : List Query → Nat
  | [] => 0
  | q :: rest => q.supply disk imposed + supplyAll disk imposed rest
termination_by structural qs => qs

end

mutual

/-- A bound on the number of turns of a step, one inside the other. -/
def turns (disk : Disk) (imposed : Option Snapshot) : Query → Nat
  | .all .. | .fixed .. | .position _ => 1
  | .links _ handle _ _ primary inner snapshot =>
    let below := imposedBelow disk imposed snapshot (some handle)
    primary.turns disk below + 2 * primary.supply disk below + (if inner.isSome then 3 else 2)
  | .inter _ children _ snapshot =>
    let below := imposedBelow disk imposed snapshot (firstHandle? children)
    turnsAll disk below children + supplyAll disk below children + 1
termination_by structural q => q

def turnsAll (disk : Disk) (imposed : Option Snapshot) : List Query → Nat
  | [] => 0
  | q :: rest => q.turns disk imposed + turnsAll disk imposed rest
termination_by structural qs => qs

end

/-! ## Passes -/

def next (disk : Disk) (q : Query) : Outcome × Query :=
  (nextWithin disk (q.turns disk none) q).getD (.ok none, q)

/-- What is read off up to `limit` further results, in order, and the query afterwards. Each is
read before the next is asked for; the first error ends it. -/
def gather {α : Type} (disk : Disk) (read : Query → Ref → Except StoreError α) :
    Nat → Query → Except StoreError (List α) × Query
  | 0, q => (.ok [], q)
  | limit + 1, q =>
    match q.next disk with
    | (.error error, q) => (.error error, q)
    | (.ok none, q) => (.ok [], q)
    | (.ok (some ref), q) =>
      match read q ref with
      | .error error => (.error error, q)
      | .ok item =>
        let (items, q) := gather disk read limit q
        (items.map (item :: ·), q)

def gatherAll {α : Type} (disk : Disk) (read : Query → Ref → Except StoreError α)
    (q : Query) : Except StoreError (List α) × Query :=
  gather disk read (q.supply disk none + 1) q

/-- All results of the rest of a pass. -/
def drain (disk : Disk) (q : Query) : Except StoreError (List Ref) × Query :=
  q.gatherAll disk fun _ ref => .ok ref

end Query

end GraphStore
