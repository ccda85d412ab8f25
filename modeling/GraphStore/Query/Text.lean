import GraphStore.Query.Basic

/-!
# Queries as text

`Query.text` shows the definition of a query and its inner state on one line: tags, pass, page
sizes, open snapshots and the handles it reads through.
-/

namespace GraphStore

open Text

def NodeId.shown (id : NodeId) : String := wrappedText "NodeId" (toString id.val.toNat)

def QuadKey.shown (key : QuadKey) : String :=
  recordText "QuadKey" (Direction.all.map fun d => (d.text, (key.get d).shown))

def Ref.shown : Ref → String
  | .node id => wrappedText "Node" id.shown
  | .quad key => wrappedText "Quad" key.shown

def Direction.shown : Direction → String
  | subject => "Subject"
  | predicate => "Predicate"
  | object => "Object"
  | label => "Label"

def Index.shown : Index → String
  | subject => "Subject"
  | predicate => "Predicate"
  | object => "Object"
  | label => "Label"
  | subjectPredicate => "SubjectPredicate"

def Category.shown : Category → String
  | nodes => "Nodes"
  | quads => "Quads"

def Phase.shown : Phase → String
  | unstarted => "Unstarted"
  | iterating => "Iterating"
  | exhausted => "Exhausted"

/-- Bytes in decimal. -/
def Bytes.shown (bytes : Bytes) : String := listText (bytes.map fun b => toString b.toNat)

/-- A snapshot, of which nothing is shown. -/
def Snapshot.shown : String := openRecordText "Snapshot" []

def Snapshot.shownIfHeld (snapshot : Option Snapshot) : String :=
  optionText (snapshot.map fun _ => Snapshot.shown)

def Tags.shown (tags : Tags) : String :=
  recordText "Tagger" [
    ("tags", listText (tags.plain.map quoted)),
    ("fixed", mapText (tags.fixed.entries.map fun (name, ref) => (quoted name, ref.shown)))]

def Frame.shown (frame : Frame) : String :=
  recordText "Base" [
    ("tagger", frame.tags.shown),
    ("state", frame.phase.shown),
    ("result", optionText (frame.result.map Ref.shown))]

def Source.shown : Source → String
  | nodes => "Nodes"
  | quads => "Quads"
  | entries index stem => recordText "Index" [("order", index.shown), ("prefix", stem.shown)]

/-- A cursor, without its buffer. -/
def Cursor.shown (cursor : Cursor) : String :=
  openRecordText "ScanCursor" [
    ("source", cursor.source.shown),
    ("page_size", toString cursor.pageSize),
    ("open", toString cursor.snapshot.isSome),
    ("exhausted", toString cursor.exhausted)]

def Scan.shown (scan : Scan) : String :=
  recordText "PositionIterator" [
    ("base", scan.frame.shown),
    ("order", scan.index.shown),
    ("bound", listText (scan.bound.map fun (d, id) => "(" ++ d.shown ++ ", " ++ id.shown ++ ")")),
    ("prefix", scan.stem.shown),
    ("cursor", scan.cursor.shown)]

namespace Query

mutual

def text (disk : Disk) : Query → String
  | .all frame category cursor =>
    wrappedText "All" <| recordText "AllIterator" [
      ("base", frame.shown),
      ("category", category.shown),
      ("cursor", cursor.shown)]
  | .fixed frame values index =>
    wrappedText "Fixed" <| recordText "FixedIterator" [
      ("base", frame.shown),
      ("values", listText (values.map Ref.shown)),
      ("index", toString index)]
  | .position scan => wrappedText "Position" scan.shown
  | .links frame handle pageSize direction primary inner snapshot =>
    wrappedText "LinksTo" <| recordText "LinksTo" [
      ("base", frame.shown),
      ("engine", disk.handleText handle),
      ("page_size", toString pageSize),
      ("direction", direction.shown),
      ("primary", primary.text disk),
      ("inner", optionText (inner.map Scan.shown)),
      ("snapshot", Snapshot.shownIfHeld snapshot)]
  | .inter frame children driver snapshot =>
    wrappedText "And" <| recordText "And" [
      ("base", frame.shown),
      ("children", listText (texts disk children)),
      ("driver", optionText (driver.map toString)),
      ("snapshot", Snapshot.shownIfHeld snapshot)]
termination_by structural q => q

def texts (disk : Disk) : List Query → List String
  | [] => []
  | q :: rest => q.text disk :: texts disk rest
termination_by structural qs => qs

end

end Query

end GraphStore
