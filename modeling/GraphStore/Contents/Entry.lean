import GraphStore.Contents

/-!
# Index entries

* `Contents.addEntry`, `Contents.removeEntry` : one entry of one index, together with the number
  of entries under its stem;
* `Contents.addEntries`, `Contents.removeEntries` : the entries of a key in all indexes, with the
  number of indexes that changed;
* `Contents.entriesPage?` : a page of the keys under a stem;
* `Contents.hasEntry`, `Contents.entryCount` : point reads.
-/

namespace GraphStore.Contents

def hasEntry (c : Contents) (index : Index) (key : QuadKey) : Bool :=
  (c.indexes.get index).contains (index.entry key)

def entryCount (c : Contents) (index : Index) (stem : Bytes) : UInt64 :=
  c.counts.getD (index.countKey stem) 0

/-- The contents with the number of entries under a stem moved by `distance`; zero has no
entry. -/
def shiftCount (c : Contents) (index : Index) (stem : Bytes) (distance : Int) : Contents :=
  let key := index.countKey stem
  let n := shifted (c.entryCount index stem) distance
  { c with counts := if n = 0 then c.counts.erase key else c.counts.insert key n }

/-- The contents with the entry of a key in one index, and whether it is new. -/
def addEntry (c : Contents) (index : Index) (key : QuadKey) : Bool × Contents :=
  if c.hasEntry index key then (false, c)
  else
    let entries := (c.indexes.get index).add (index.entry key)
    let c := { c with indexes := c.indexes.set index entries }
    (true, c.shiftCount index (index.stem key) 1)

def removeEntry (c : Contents) (index : Index) (key : QuadKey) : Bool × Contents :=
  if c.hasEntry index key then
    let entries := (c.indexes.get index).erase (index.entry key)
    let c := { c with indexes := c.indexes.set index entries }
    (true, c.shiftCount index (index.stem key) (-1))
  else (false, c)

/-- The outcome of one change per listed index, with the number of those that did something. -/
def forIndexes (change : Contents → Index → Bool × Contents) :
    List Index → Contents → Nat × Contents
  | [], c => (0, c)
  | index :: rest, c =>
    let (changed, c) := change c index
    let (n, c) := forIndexes change rest c
    (changed.toNat + n, c)

def addEntries (c : Contents) (key : QuadKey) : Nat × Contents :=
  forIndexes (fun c index => c.addEntry index key) Index.all c

def removeEntries (c : Contents) (key : QuadKey) : Nat × Contents :=
  forIndexes (fun c index => c.removeEntry index key) Index.all c

/-- Up to `limit` keys of an index under a stem, after a given encoded key. -/
def entriesPage? (c : Contents) (index : Index) (stem : Bytes) (after : Option Bytes)
    (limit : Nat) : Except PageError Page :=
  valuesUnder? (c.indexes.get index) stem after (.ofNat QuadKey.width) limit

end GraphStore.Contents
