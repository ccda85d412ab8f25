import GraphStore.Contents.Change
import GraphStore.Disk

/-!
# Stores

* `Store` : a handle on a store file, with the page size of its queries;
* `StoreError` : what can go wrong, with `message` and the `causes` behind it;
* `Store.size`, `Store.quad`, … : reads, each through a snapshot of its own;
* `Store.apply` : one add or remove, committed before it returns.
-/

namespace GraphStore

/-! ## Errors -/

/-- What a lookup did not find. -/
inductive Lookup where
  | value (v : String)
  | id (id : NodeId)
  | quad (key : QuadKey)
  /-- A node, where a quad was asked for. -/
  | notAQuad (ref : Ref)
deriving Repr, DecidableEq

def Lookup.text : Lookup → String
  | .value v => "value " ++ Text.quoted v
  | .id n => "node id " ++ n.text
  | .quad key => "quad " ++ key.text
  | .notAQuad ref => "quad for non-quad result " ++ ref.text

inductive StoreError where
  | cannotOpen (error : FileError)
  | closed
  | notFound (lookup : Lookup)
  | invalidQuad (quad : Quad)
  | corrupt (corruption : Corruption)
  | file (error : FileError)
deriving Repr, DecidableEq

namespace StoreError

def ofFile : FileError → StoreError
  | .closed => closed
  | error => file error

def message : StoreError → String
  | cannotOpen error => "open error: " ++ error.message
  | closed => "quad store is closed"
  | notFound lookup => "not found: " ++ lookup.text
  | invalidQuad quad => "invalid quad: " ++ quad.text
  | corrupt corruption => "corrupt store: " ++ corruption.message
  | file error => "engine error: " ++ error.message

def causes : StoreError → List String
  | cannotOpen error | file error => error.message :: error.causes
  | _ => []

/-- Whether a lookup missed, which callers recover from. -/
def isNotFound : StoreError → Bool
  | notFound _ => true
  | _ => false

def isClosed : StoreError → Bool
  | closed => true
  | _ => false

end StoreError

def Disk.take (disk : Disk) (handle : Handle) : Except StoreError Snapshot :=
  (disk.snapshot handle).mapError .ofFile

/-- The last committed contents behind a handle, as operations of a store see them. -/
def Disk.view (disk : Disk) (handle : Handle) : Except StoreError Contents :=
  (disk.take handle).map Snapshot.contents

structure Store where
  handle : Handle
  pageSize : Nat
deriving Repr, DecidableEq

namespace Store

/-! ## Opening and closing -/

def ofHandle (config : Config) (opened : Except FileError (Handle × Disk)) :
    Except StoreError (Store × Disk) :=
  match opened with
  | .ok (handle, disk) => .ok (⟨handle, max config.pageSize.toNat 1⟩, disk)
  | .error error => .error (.cannotOpen error)

def create (disk : Disk) (path : String) (config : Config) : Except StoreError (Store × Disk) :=
  ofHandle config (disk.createFile path config)

def openExisting (disk : Disk) (path : String) (config : Config) :
    Except StoreError (Store × Disk) :=
  ofHandle config (disk.openFile path config)

def openOrCreate (disk : Disk) (path : String) (config : Config) :
    Except StoreError (Store × Disk) :=
  ofHandle config (disk.openOrCreateFile path config)

def isClosed (store : Store) (disk : Disk) : Bool := disk.isClosed store.handle

/-- Close the store and with it every query made from it. -/
def close (store : Store) (disk : Disk) : Disk := (disk.close store.handle).2

/-! ## Reads -/

def size (store : Store) (disk : Disk) : Except StoreError UInt64 := do
  return (← disk.view store.handle).counter .size

def nodeCount (store : Store) (disk : Disk) : Except StoreError UInt64 := do
  return (← disk.view store.handle).counter .nodes

def horizon (store : Store) (disk : Disk) : Except StoreError Horizon := do
  return ⟨(← disk.view store.handle).counter .horizon⟩

def degree (store : Store) (disk : Disk) (id : NodeId) : Except StoreError UInt64 := do
  return (← disk.view store.handle).degree id

def idOf (store : Store) (disk : Disk) (value : String) : Except StoreError NodeId := do
  match (← disk.view store.handle).idOf? value with
  | some id => return id
  | none => throw (.notFound (.value value))

def nameIn (c : Contents) (id : NodeId) : Except StoreError String :=
  match c.nameOf? id with
  | some name => .ok name
  | none => .error (.notFound (.id id))

def nameOf (store : Store) (disk : Disk) (id : NodeId) : Except StoreError String := do
  nameIn (← disk.view store.handle) id

def quadIn (c : Contents) (key : QuadKey) : Except StoreError Quad := do
  return {
    subject := ← nameIn c key.subject
    predicate := ← nameIn c key.predicate
    object := ← nameIn c key.object
    label := ← nameIn c key.label }

def quad (store : Store) (disk : Disk) (ref : Ref) : Except StoreError Quad :=
  match ref with
  | .node _ => .error (.notFound (.notAQuad ref))
  | .quad key => do
    let c ← disk.view store.handle
    if c.isLive key then quadIn c key else throw (.notFound (.quad key))

/-- The horizon a live quad was added at. -/
def quadHorizon (store : Store) (disk : Disk) (key : QuadKey) : Except StoreError Horizon := do
  match (← disk.view store.handle).addedAt? key with
  | some h => return h
  | none => throw (.notFound (.quad key))

def keyOf? (store : Store) (disk : Disk) (q : Quad) : Except StoreError (Option QuadKey) := do
  return (← disk.view store.handle).keyOf? q

/-- Whether a key found in one state of the disk is live in a later one. -/
def isLiveLater (store : Store) (later : Disk) : Option QuadKey → Except StoreError Bool
  | none => .ok false
  | some key => do return (← later.view store.handle).isLive key

/-- Whether a quad is live. The key and its liveness are read one after the other. -/
def containsQuad (store : Store) (disk : Disk) (q : Quad) : Except StoreError Bool := do
  store.isLiveLater disk (← store.keyOf? disk q)

/-! ## Writes -/

/-- One add or remove in a write transaction of its own. An invalid quad is refused before
anything else; on an error the disk stays as it is. -/
def apply (store : Store) (disk : Disk) (kind : ChangeKind) (q : Quad) (tick : Bool) :
    Except StoreError (Change × Disk) := do
  if !q.isValid then throw (.invalidQuad q)
  let txn ← (disk.beginWrite store.handle).mapError .ofFile
  match txn.contents.apply kind q tick with
  | .error corruption => throw (.corrupt corruption)
  | .ok (.rolledBack, _) => return (.rolledBack, disk)
  | .ok (change, contents) => return (change, disk.commit { txn with contents })

end Store

end GraphStore
