import GraphStore.Store

/-!
# Paged scans

* `Source` : what is scanned, the live nodes, the live quads, or the keys under one index stem;
* `Source.fetch` : one page of it after a resume point;
* `Cursor` : a scan in progress, which reads one snapshot from its first page to its last;
* `Cursor.next` : the next value, fetching a page when the buffer is empty.
-/

namespace GraphStore

/-! ## Sources -/

inductive Source where
  | nodes
  | quads
  | entries (index : Index) (stem : Bytes)
deriving Repr, DecidableEq

namespace Source

def page? (source : Source) (c : Contents) (after : Option Ref) (limit : Nat) :
    Except PageError Page :=
  match source with
  | nodes => c.livePage? (after.bind Ref.asNode?) limit
  | quads => c.quadsPage? (after.bind Ref.asQuad?) limit
  | entries index stem =>
    c.entriesPage? index stem ((after.bind Ref.asQuad?).map QuadKey.toBytes) limit

def decode? (source : Source) (value : Bytes) : Option Ref :=
  match source with
  | nodes => (NodeId.ofBytes? value).map .node
  | quads | entries .. => (QuadKey.ofBytes? value).map .quad

def fetch (source : Source) (c : Contents) (after : Option Ref) (limit : Nat) :
    Except StoreError (List Ref) :=
  match source.page? c after limit with
  | .ok page => .ok (page.values.filterMap source.decode?)
  | .error error => .error (.file (.badPage error))

def countAfter (source : Source) (c : Contents) (after : Option Ref) : Nat :=
  match source with
  | nodes =>
    let lo := match after.bind Ref.asNode? with
      | some id => .excluded id
      | none => .unbounded
    (c.degrees.between lo .unbounded).length
  | quads =>
    let lo := match after.bind Ref.asQuad? with
      | some key => .excluded key.toBytes
      | none => .unbounded
    (c.quads.between lo .unbounded).length
  | entries index stem =>
    let table := c.indexes.get index
    (Contents.keysUnder table stem ((after.bind Ref.asQuad?).map QuadKey.toBytes)
      table.size).length

end Source

/-! ## Cursors -/

structure Cursor where
  handle : Handle
  source : Source
  pageSize : Nat
  pageSize_pos : 0 < pageSize
  /-- The snapshot read by this pass. -/
  snapshot : Option Snapshot := none
  /-- Values fetched and not yet yielded. -/
  buffer : List Ref := []
  resume : Option Ref := none
  /-- Whether the last page was fetched. -/
  exhausted : Bool := false
deriving DecidableEq

namespace Cursor

/-- A cursor at the beginning of a source. Pages hold at least one value. -/
def start (handle : Handle) (source : Source) (pageSize : Nat) : Cursor where
  handle
  source
  pageSize := max pageSize 1
  pageSize_pos := Nat.le_max_right pageSize 1

def reset (cursor : Cursor) : Cursor :=
  { cursor with snapshot := none, buffer := [], resume := none, exhausted := false }

def copy (cursor : Cursor) : Cursor := .start cursor.handle cursor.source cursor.pageSize

def setSnapshot (cursor : Cursor) (snapshot : Option Snapshot) : Cursor := { cursor with snapshot }

/-- The snapshot a read of the cursor goes through: the one imposed from above, the one it holds,
or a new one. -/
def view (cursor : Cursor) (disk : Disk) (imposed : Option Snapshot) :
    Except StoreError Snapshot :=
  match imposed.or cursor.snapshot with
  | some s => .ok s
  | none => disk.take cursor.handle

def contents (cursor : Cursor) (disk : Disk) (imposed : Option Snapshot) :
    Except StoreError Contents :=
  (cursor.view disk imposed).map Snapshot.contents

/-- The next value, or none at the end of the source, where the snapshot is let go. -/
def next (disk : Disk) (cursor : Cursor) : Except StoreError (Option Ref) × Cursor :=
  match cursor.buffer with
  | ref :: rest => (.ok (some ref), { cursor with buffer := rest })
  | [] =>
    if cursor.exhausted then (.ok none, { cursor with snapshot := none })
    else
      match cursor.view disk none with
      | .error error => (.error error, cursor)
      | .ok s =>
        match cursor.source.fetch s.contents cursor.resume cursor.pageSize with
        | .error error => (.error error, { cursor with snapshot := some s })
        | .ok refs =>
          let cursor := { cursor with
            resume := refs.getLast?
            exhausted := refs.length < cursor.pageSize }
          match refs with
          | [] => (.ok none, { cursor with snapshot := none })
          | ref :: rest => (.ok (some ref), { cursor with snapshot := some s, buffer := rest })

def remaining (cursor : Cursor) (disk : Disk) (imposed : Option Snapshot) : Nat :=
  cursor.buffer.length +
    if cursor.exhausted then 0
    else
      match cursor.contents disk imposed with
      | .ok c => cursor.source.countAfter c cursor.resume
      | .error _ => 0

end Cursor

end GraphStore
