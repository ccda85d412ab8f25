import GraphStore.Index
import GraphStore.Page
import GraphStore.Table

/-!
# The contents of a store file

* `Contents` : all tables of a file; a read snapshot is such a value;
* `Contents.counter`, `Contents.shiftCounter` : the scalar counters (`Counter`);
* `shifted` : a word moved by a signed distance, held at its limits;
* `Contents.keysUnder` : the keys of a byte-keyed table under a stem, from a resume point on;
* `Contents.valuesUnder?` : the same as one page of fixed-width values.
-/

namespace GraphStore

structure IndexTables where
  subject : SortedSet Bytes := ∅
  predicate : SortedSet Bytes := ∅
  object : SortedSet Bytes := ∅
  label : SortedSet Bytes := ∅
  subjectPredicate : SortedSet Bytes := ∅
deriving DecidableEq, Inhabited

namespace IndexTables

def get (tables : IndexTables) : Index → SortedSet Bytes
  | .subject => tables.subject
  | .predicate => tables.predicate
  | .object => tables.object
  | .label => tables.label
  | .subjectPredicate => tables.subjectPredicate

def set (tables : IndexTables) (index : Index) (entries : SortedSet Bytes) : IndexTables :=
  match index with
  | .subject => { tables with subject := entries }
  | .predicate => { tables with predicate := entries }
  | .object => { tables with object := entries }
  | .label => { tables with label := entries }
  | .subjectPredicate => { tables with subjectPredicate := entries }

@[simp] theorem get_set (tables : IndexTables) (i j : Index) (entries : SortedSet Bytes) :
    (tables.set i entries).get j = if j = i then entries else tables.get j := by
  cases i <;> cases j <;> rfl

@[ext] theorem ext_get {t u : IndexTables} (h : ∀ i, t.get i = u.get i) : t = u := by
  obtain ⟨_, _, _, _, _⟩ := t
  obtain ⟨_, _, _, _, _⟩ := u
  have := h .subject
  have := h .predicate
  have := h .object
  have := h .label
  have := h .subjectPredicate
  simp_all [get]

end IndexTables

inductive Counter where
  /-- Writes processed so far. -/
  | horizon
  /-- Live quads. -/
  | size
  /-- Live nodes. -/
  | nodes
  /-- The next id to assign. -/
  | nextId
deriving Repr, DecidableEq

def Counter.text : Counter → String
  | horizon => "horizon"
  | size => "size"
  | nodes => "nodes"
  | nextId => "next_id"

/-- All tables of a store file. -/
structure Contents where
  counters : Table String UInt64 := ∅
  ids : Table String NodeId := ∅
  names : Table NodeId String := ∅
  /-- For each live node, the number of live quads that hold it. -/
  degrees : Table NodeId UInt64 := ∅
  /-- Encoded keys of live quads, with the horizon each was added at. -/
  quads : Table Bytes Horizon := ∅
  /-- Numbers of index entries under one stem. -/
  counts : Table Bytes UInt64 := ∅
  indexes : IndexTables := {}
  others : Table String (SortedSet Bytes) := ∅
deriving DecidableEq, Inhabited

/-! ## Counters -/

/-- `n` moved by a signed distance, staying between zero and the largest word. -/
def shifted (n : UInt64) (distance : Int) : UInt64 :=
  .ofNat (min (UInt64.size - 1) (n.toNat + distance).toNat)

namespace Contents

/-- The value of a counter; one that was never written is zero. -/
def counter (c : Contents) (counter : Counter) : UInt64 := c.counters.getD counter.text 0

def setCounter (c : Contents) (counter : Counter) (n : UInt64) : Contents :=
  { c with counters := c.counters.insert counter.text n }

def shiftCounter (c : Contents) (counter : Counter) (distance : Int) : Contents :=
  c.setCounter counter (shifted (c.counter counter) distance)

/-! ## Bulk reads -/

/-- The first `limit` keys of a byte-keyed table under a stem, in order. With a resume point,
only those after the stem followed by that point. -/
def keysUnder {β : Type} (table : Table Bytes β) (stem : Bytes) (after : Option Bytes)
    (limit : Nat) : List Bytes :=
  let lo := match after with
    | some value => .excluded (stem ++ value)
    | none => if stem = [] then .unbounded else .included stem
  let hi := match Bytes.upperBound stem with
    | some bound => .excluded bound
    | none => .unbounded
  ((table.between lo hi).take limit).map Prod.fst

/-- The same keys without their stem, as one page of values of the given width. -/
def valuesUnder? {β : Type} (table : Table Bytes β) (stem : Bytes) (after : Option Bytes)
    (stride : UInt64) (limit : Nat) : Except PageError Page := do
  let page ← Page.empty? stride
  page.appendAll ((keysUnder table stem after limit).map (·.drop stem.length))

end Contents

end GraphStore
