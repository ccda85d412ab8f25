import GraphStore.Model
import GraphStore.Query.Next
import GraphStore.Query.Optimize
import GraphStore.Query.Text
import GraphStore.Writer

/-!
# Checking a store against the model

* `Violation` : a difference, and the operation after which it was found;
* `checkCounters` : horizon, size and number of live nodes;
* `checkContents` : every scan and point read over the given values, and that simplified queries
  yield what the plain ones do.

Both return the differences found, as texts in the order they were found.
-/

namespace GraphStore

/-- A difference between a store and the model. -/
structure Violation where
  description : String
  operation : Nat
deriving Repr, DecidableEq

namespace Check

open Text

/-- The differences found up to the end of a check, or up to an error. -/
abbrev CheckM := ExceptT StoreError (StateM (List String))

def note (description : String) : CheckM Unit := modify (· ++ [description])

def expect (condition : Bool) (description : String) : CheckM Unit :=
  if condition then pure () else note description

/-- All differences of a check; an error ends it and is one of them. -/
def violations (what : String) (check : CheckM Unit) : List String :=
  match (check.run).run [] with
  | (.ok (), found) => found
  | (.error error, found) =>
    found ++ ["store error while checking " ++ what ++ ": " ++ error.message]

def shownQuad (q : Quad) : String :=
  recordText "Quad" (Direction.all.map fun d => (d.text, quoted (q.get d)))

def shownQuads (quads : List Quad) : String := listText (quads.map shownQuad)

def shownRefs (refs : List Ref) : String := listText (refs.map Ref.shown)

/-- The results of a query as quads, in increasing order. -/
def quadsOf (store : Store) (disk : Disk) (q : Query) : Except StoreError (List Quad) := do
  return Quad.sort (← (q.gatherAll disk fun _ ref => store.quad disk ref).1)

def refsOf (disk : Disk) (q : Query) : Except StoreError (List Ref) := do
  return Ref.sort (← (q.drain disk).1)

/-! ## Counters -/

/-- Compare horizon, size and number of live nodes. -/
def counters (store : Store) (disk : Disk) (model : Model) : CheckM Unit := do
  let horizon ← store.horizon disk
  expect (horizon == model.horizon)
    ("horizon is " ++ horizon.text ++ ", expected " ++ model.horizon.text)
  let size := (← store.size disk).toNat
  expect (size == model.quads.size)
    ("size is " ++ toString size ++ ", expected " ++ toString model.quads.size)
  let nodes := (← store.nodeCount disk).toNat
  expect (nodes == model.degrees.size)
    ("node count is " ++ toString nodes ++ ", expected " ++ toString model.degrees.size)

/-! ## Contents -/

/-- The queries over one node whose simplification is checked: the node itself if it is live, and
the quads that have it as subject and as object. -/
def sampleQueries (store : Store) (id : NodeId) : List Query :=
  let node := Query.ofList [.node id]
  [ .both [.nodes store.handle store.pageSize, node],
    .both [
      .quads store.handle store.pageSize,
      .linksTo store.handle store.pageSize node .object,
      .quadsAt store.handle store.pageSize .subject id]]

/-- A simplified query yields what the plain one does. -/
def simplified (disk : Disk) (value : String) (q : Query) : CheckM Unit := do
  let before ← refsOf disk q
  let after ← refsOf disk q.optimize.1
  expect (after == before)
    ("optimized tree over " ++ quoted value ++ " yielded " ++ shownRefs after ++ ", expected " ++
      shownRefs before)

def interned (store : Store) (disk : Disk) (model : Model) (value : String) (id : NodeId) :
    CheckM Unit := do
  if value ≠ "" then
    let degree := (← store.degree disk id).toNat
    let expected := model.degrees.getD value 0
    expect (degree == expected)
      ("size_of(" ++ value ++ ") is " ++ toString degree ++ ", expected " ++ toString expected)
  for direction in Direction.all do
    let scanned ← quadsOf store disk (.quadsAt store.handle store.pageSize direction id)
    let expected := model.quadsAt direction value
    expect (scanned == expected)
      (direction.text ++ " scan of " ++ quoted value ++ " yielded " ++ shownQuads scanned ++
        ", expected " ++ shownQuads expected)
  if value ≠ "" then
    for q in sampleQueries store id do
      simplified disk value q

def value (store : Store) (disk : Disk) (model : Model) (value : String) : CheckM Unit :=
  match store.idOf disk value with
  | .ok id => interned store disk model value id
  | .error error =>
    if error.isNotFound then
      expect (!model.degrees.contains value) ("live value " ++ quoted value ++ " has no id")
    else throw error

/-- Compare every scan and point read over the given values. -/
def contents (store : Store) (disk : Disk) (model : Model) (values : List String) :
    CheckM Unit := do
  let scanned ← quadsOf store disk (.quads store.handle store.pageSize)
  expect (scanned == model.quads.keys)
    ("all-quads scan yielded " ++ shownQuads scanned ++ ", expected " ++
      shownQuads model.quads.keys)
  for v in values do
    value store disk model v
  for q in model.quads.keys do
    expect (← store.containsQuad disk q) ("live quad " ++ q.text ++ " not contained")

end Check

def checkCounters (store : Store) (disk : Disk) (model : Model) : List String :=
  Check.violations "counters" (Check.counters store disk model)

def checkContents (store : Store) (disk : Disk) (model : Model) (values : List String) :
    List String :=
  Check.violations "contents" (Check.contents store disk model values)

end GraphStore
