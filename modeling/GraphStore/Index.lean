import GraphStore.Key

/-!
# Index orders

* `Index` : what the entries of an index are filed under, one position or subject and predicate;
* `Index.stem` : the encoded ids an entry is filed under;
* `Index.entry` : the stem followed by the encoded key, so that the keys under one stem are
  contiguous, sorted, and of one width;
* `Index.countKey` : the place where the number of entries under a stem is kept.
-/

namespace GraphStore

/-- What the entries of an index are filed under. -/
inductive Index where
  | subject
  | predicate
  | object
  | label
  | subjectPredicate
deriving Repr, DecidableEq, Inhabited

namespace Index

def all : List Index := [subject, predicate, object, label, subjectPredicate]

def ofDirection : Direction → Index
  | .subject => subject
  | .predicate => predicate
  | .object => object
  | .label => label

/-- The positions an index is filed under, in order. -/
def directions : Index → List Direction
  | subject => [.subject]
  | predicate => [.predicate]
  | object => [.object]
  | label => [.label]
  | subjectPredicate => [.subject, .predicate]

def text : Index → String
  | subject => "subject"
  | predicate => "predicate"
  | object => "object"
  | label => "label"
  | subjectPredicate => "subject_predicate"

def ofText? (name : String) : Option Index := all.find? (·.text == name)

def tableName (index : Index) : String := "idx_" ++ index.text

/-- The byte that marks the counts of an index: `s`, `p`, `o`, `c` or `S`. -/
def tag : Index → UInt8
  | subject => 0x73
  | predicate => 0x70
  | object => 0x6f
  | label => 0x63
  | subjectPredicate => 0x53

def stemWidth (index : Index) : Nat := index.directions.length * NodeId.width

/-- The encoded ids the entry of a key is filed under. -/
def stem (index : Index) (key : QuadKey) : Bytes :=
  index.directions.flatMap fun d => (key.get d).toBytes

/-- The entry of a key. -/
def entry (index : Index) (key : QuadKey) : Bytes := index.stem key ++ key.toBytes

/-- Where the number of entries under a stem is kept. -/
def countKey (index : Index) (stem : Bytes) : Bytes := index.tag :: stem

end Index

end GraphStore
