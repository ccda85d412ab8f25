import GraphStore.Query.Size

/-!
# Membership

`Query.contains` answers whether a query has a given result. A member becomes the current result,
in the query and in every part that was asked. Inside a pass the answer comes from the snapshot of
the pass. Outside one, a tree takes a snapshot for the one answer and lets it go again; while it is
asked, that snapshot is imposed on all its parts.

* `Contents.isLiveRef`, `Scan.contains` : membership at the leaves;
* `Query.probe` : membership under an imposed snapshot;
* `Query.probeAll` : whether several queries all have a result, asked in order up to the first
  that has not.
-/

namespace GraphStore

def Contents.isLiveRef (c : Contents) : Ref → Bool
  | .node id => c.isLiveNode id
  | .quad key => c.isLive key

def Frame.answer (frame : Frame) (ref : Ref) (found : Bool) : Frame :=
  if found then frame.confirm ref else frame

/-- Whether a scan has a result. Only a key with the bound ids is looked up. -/
def Scan.contains (disk : Disk) (imposed : Option Snapshot) (ref : Ref) (scan : Scan) :
    Except StoreError Bool × Scan :=
  match ref with
  | .node _ => (.ok false, scan)
  | .quad key =>
    if scan.fits key then
      match scan.cursor.contents disk imposed with
      | .error error => (.error error, scan)
      | .ok c =>
        let found := c.hasEntry scan.index key
        (.ok found, { scan with frame := scan.frame.answer ref found })
    else (.ok false, scan)

namespace Query

def answered (frame : Frame) (ref : Ref) : Except StoreError Bool → Frame
  | .ok found => frame.answer ref found
  | .error _ => frame

mutual

/-- Whether a query has a result, and the query afterwards. -/
def probe (disk : Disk) (imposed : Option Snapshot) (ref : Ref) :
    Query → Except StoreError Bool × Query
  | .all frame category cursor =>
    if ref.category = category then
      match cursor.contents disk imposed with
      | .error error => (.error error, .all frame category cursor)
      | .ok c =>
        let found := c.isLiveRef ref
        (.ok found, .all (frame.answer ref found) category cursor)
    else (.ok false, .all frame category cursor)
  | .fixed frame values index =>
    let found := values.contains ref
    (.ok found, .fixed (frame.answer ref found) values index)
  | .position scan =>
    let (answer, scan) := scan.contains disk imposed ref
    (answer, .position scan)
  | .links frame handle pageSize direction primary inner snapshot =>
    match ref.asQuad? with
    | none => (.ok false, .links frame handle pageSize direction primary inner snapshot)
    | some key =>
      match imposed.or snapshot with
      | some s =>
        if s.contents.isLive key then
          let (answer, primary) := primary.probe disk imposed (.node (key.get direction))
          (answer,
            .links (answered frame ref answer) handle pageSize direction primary inner snapshot)
        else (.ok false, .links frame handle pageSize direction primary inner snapshot)
      | none =>
        match disk.take handle with
        | .error error =>
          (.error error, .links frame handle pageSize direction primary inner snapshot)
        | .ok s =>
          let inner := inner.map (·.setSnapshot none)
          if s.contents.isLive key then
            let (answer, primary) := primary.probe disk (some s) (.node (key.get direction))
            (answer, .links (answered frame ref answer) handle pageSize direction
              (primary.setSnapshot none) inner none)
          else
            (.ok false, .links frame handle pageSize direction (primary.setSnapshot none) inner
              none)
  | .inter frame children driver snapshot =>
    if children.isEmpty then (.ok false, .inter frame children driver snapshot)
    else if (imposed.or snapshot).isSome then
      let (answer, children) := probeAll disk imposed ref none children
      (answer, .inter (answered frame ref answer) children driver snapshot)
    else
      match (firstHandle? children).mapM disk.take with
      | .error error => (.error error, .inter frame children driver snapshot)
      | .ok taken =>
        let (answer, children) := probeAll disk taken ref none children
        (answer, .inter (answered frame ref answer) (setSnapshotAll none children) driver none)
termination_by structural q => q

/-- Whether all queries but the one at place `skip` have a result, asked in order. -/
def probeAll (disk : Disk) (imposed : Option Snapshot) (ref : Ref) (skip : Option Nat) :
    List Query → Except StoreError Bool × List Query
  | [] => (.ok true, [])
  | q :: rest =>
    if skip = some 0 then
      let (answer, rest) := probeAll disk imposed ref none rest
      (answer, q :: rest)
    else
      match q.probe disk imposed ref with
      | (.ok true, q) =>
        let (answer, rest) := probeAll disk imposed ref (skip.map (· - 1)) rest
        (answer, q :: rest)
      | (answer, q) => (answer, q :: rest)
termination_by structural qs => qs

end

def contains (disk : Disk) (ref : Ref) (q : Query) : Except StoreError Bool × Query :=
  q.probe disk none ref

end Query

end GraphStore
