import GraphStore.Config
import GraphStore.FileTree
import GraphStore.Text.Quoted

/-!
# Files and handles

* `Disk` : the files, and the handles that keep store files open;
* `Disk.createFile`, `Disk.openFile`, `Disk.openOrCreateFile`, `Disk.close` : the life of a handle;
* `Disk.snapshot` : a `Snapshot`, the last committed contents behind a handle, unchanged by later
  commits;
* `Disk.release` : files are let go of when no `FileUse` keeps them open;
* `Disk.beginWrite`, `Disk.commit` : a `Transaction` works on its own copy of the contents;
* `Contents.valuesOf?` : a bulk read of a table by its name;
* `FileError` : what can go wrong.
-/

namespace GraphStore

/-- An open store file. Handles are told apart by their number. The path is kept as it was
spelled. -/
structure Handle where
  number : Nat
  path : String
  location : Location
  durableCommits : Bool := true
deriving Repr, DecidableEq, Inhabited

/-- A file that is kept open: by a handle that still works, or by readers of one that was
closed. -/
structure Attachment where
  location : Location
  working : Bool := true
deriving Repr, DecidableEq

/-- Something that refers to a handle. Without `reading` it keeps the file open as long as the
handle works; a snapshot or a transaction, which reads, does so in any case. -/
structure FileUse where
  handle : Handle
  reading : Bool := false
deriving Repr, DecidableEq

structure Disk where
  files : FileTree := {}
  attachments : Table Nat Attachment := ∅
  nextNumber : Nat := 0

/-! ## Errors -/

inductive OpenFailure where
  | noFile
  | noDirectory
  | notAStore
  | inUse
deriving Repr, DecidableEq

def OpenFailure.message : OpenFailure → String
  | noFile => "no database file at this path"
  | noDirectory => "no such directory"
  | notAStore => "not a database file"
  | inUse => "the database is already open"

/-- What can go wrong between a store and its file. -/
inductive FileError where
  | cannotOpen (path : String) (reason : OpenFailure)
  | alreadyExists (path : String)
  | closed
  | badPage (error : PageError)
  | noTable (name : String)
deriving Repr, DecidableEq

namespace FileError

def noTableMessage (name : String) : String := "Table '" ++ name ++ "' does not exist"

def message : FileError → String
  | cannotOpen path reason => "failed to open " ++ path ++ ": " ++ reason.message
  | alreadyExists path => "file already exists: " ++ path
  | closed => "store is closed"
  | badPage error => "corrupt index page: " ++ error.message
  | noTable name => "open table failed: " ++ noTableMessage name

/-- The texts of the causes behind an error, nearest first. -/
def causes : FileError → List String
  | badPage error => [error.message]
  | noTable name => [noTableMessage name]
  | _ => []

end FileError

/-! ## Snapshots and transactions -/

/-- The committed contents of a file at one time, read through a handle. It keeps the file open,
whoever reads it. -/
structure Snapshot where
  handle : Handle
  contents : Contents
deriving DecidableEq

/-- A write transaction: a private copy of the contents of a file. -/
structure Transaction where
  handle : Handle
  contents : Contents

namespace Disk

def makeDirectory (disk : Disk) (path : String) : Disk :=
  { disk with files := disk.files.makeDirectory path }

/-- The disk with a file at a path that holds something else than a store. -/
def writeFile (disk : Disk) (path : String) : Disk :=
  { disk with files := disk.files.writeFile path }

/-! ## Handles -/

def inUse (disk : Disk) (place : Location) : Bool :=
  disk.attachments.entries.any fun (_, a) => a.location == place

def attach (disk : Disk) (path : String) (place : Location) (config : Config) : Handle × Disk :=
  ({ number := disk.nextNumber, path, location := place, durableCommits := config.durableCommits },
    { disk with
      attachments := disk.attachments.insert disk.nextNumber { location := place }
      nextNumber := disk.nextNumber + 1 })

def createFile (disk : Disk) (path : String) (config : Config) :
    Except FileError (Handle × Disk) :=
  match disk.files.locate? path with
  | none => .error (.cannotOpen path .noDirectory)
  | some place =>
    if disk.files.contains place then .error (.alreadyExists path)
    else .ok ({ disk with files := disk.files.put place (.store {}) }.attach path place config)

def openFile (disk : Disk) (path : String) (config : Config) :
    Except FileError (Handle × Disk) :=
  match disk.files.locate? path with
  | none => .error (.cannotOpen path .noFile)
  | some place =>
    match disk.files.get? place with
    | some (.store _) =>
      if disk.inUse place then .error (.cannotOpen path .inUse)
      else .ok (disk.attach path place config)
    | some .other => .error (.cannotOpen path .notAStore)
    | _ => .error (.cannotOpen path .noFile)

def openOrCreateFile (disk : Disk) (path : String) (config : Config) :
    Except FileError (Handle × Disk) :=
  if (disk.files.find? path).isSome then disk.openFile path config
  else disk.createFile path config

def isClosed (disk : Disk) (handle : Handle) : Bool :=
  !((disk.attachments.get? handle.number).any Attachment.working)

/-- Close a handle, and tell whether it still worked. -/
def close (disk : Disk) (handle : Handle) : Bool × Disk :=
  match disk.attachments.get? handle.number with
  | some { location, working := true } =>
    (true, { disk with
      attachments := disk.attachments.insert handle.number { location, working := false } })
  | _ => (false, disk)

/-- Let go of every file that none of the given uses keeps open. -/
def release (disk : Disk) (uses : List FileUse) : Disk :=
  { disk with attachments := .ofList <|
      disk.attachments.entries.filter fun (number, a) =>
        uses.any fun use => use.handle.number == number && (a.working || use.reading) }

/-! ## Reading and writing -/

/-- The last committed contents behind a handle. -/
def snapshot (disk : Disk) (handle : Handle) : Except FileError Snapshot :=
  if disk.isClosed handle then .error .closed
  else
    match disk.files.get? handle.location with
    | some (.store contents) => .ok { handle, contents }
    | _ => .error .closed

def beginWrite (disk : Disk) (handle : Handle) : Except FileError Transaction := do
  return { handle, contents := (← disk.snapshot handle).contents }

/-- The disk with the contents of a transaction as the last committed ones. -/
def commit (disk : Disk) (txn : Transaction) : Disk :=
  { disk with files := disk.files.put txn.handle.location (.store txn.contents) }

def handleText (disk : Disk) (handle : Handle) : String :=
  Text.recordText "Engine" [
    ("db", Text.openRecordText "RwLock" [
      ("data", Text.optionText (if disk.isClosed handle then none else some "Database")),
      ("poisoned", "false")]),
    ("path", Text.quoted handle.path),
    ("durable_commits", toString handle.durableCommits)]

end Disk

/-! ## Tables by name -/

/-- The bulk read of the byte-keyed table of a name. -/
def Contents.reader? (c : Contents) (name : String) :
    Option (Bytes → Option Bytes → UInt64 → Nat → Except PageError Page) :=
  if name = "quads" then some (valuesUnder? c.quads)
  else if name = "index_counts" then some (valuesUnder? c.counts)
  else match Index.all.find? (·.tableName == name) with
    | some index => some (valuesUnder? (c.indexes.get index))
    | none => (c.others.get? name).map fun table => valuesUnder? table

def Contents.valuesOf? (c : Contents) (name : String) (stem : Bytes) (after : Option Bytes)
    (stride : UInt64) (limit : Nat) : Except FileError Page :=
  match c.reader? name with
  | none => .error (.noTable name)
  | some read => (read stem after stride limit).mapError .badPage

end GraphStore
