import GraphStore.Contents

/-!
# Interned values

* `Contents.idOf?`, `Contents.nameOf?` : from a value to its id and back; the empty value and
  `NodeId.blank` stand for each other and are kept nowhere;
* `Contents.intern` : the id of a value, assigned now if it has none.

Ids are assigned in order from 1 and kept for ever.
-/

namespace GraphStore.Contents

def idOf? (c : Contents) (value : String) : Option NodeId :=
  if value = "" then some .blank else c.ids.get? value

def nameOf? (c : Contents) (id : NodeId) : Option String :=
  if id.isBlank then some "" else c.names.get? id

/-- The key of a quad, if all its values are interned. -/
def keyOf? (c : Contents) (q : Quad) : Option QuadKey := do
  return ⟨← c.idOf? q.subject, ← c.idOf? q.predicate, ← c.idOf? q.object, ← c.idOf? q.label⟩

def nextId (c : Contents) : NodeId := ⟨max (c.counter .nextId) 1⟩

/-- The id of a value, and the contents in which it has that id. -/
def intern (c : Contents) (value : String) : NodeId × Contents :=
  match c.idOf? value with
  | some id => (id, c)
  | none =>
    let id := c.nextId
    let c := c.setCounter .nextId (id.val + 1)
    (id, { c with ids := c.ids.insert value id, names := c.names.insert id value })

/-- The key of a quad, with its values interned in storage order. -/
def internQuad (c : Contents) (q : Quad) : QuadKey × Contents :=
  let (subject, c) := c.intern q.subject
  let (predicate, c) := c.intern q.predicate
  let (object, c) := c.intern q.object
  let (label, c) := c.intern q.label
  (⟨subject, predicate, object, label⟩, c)

end GraphStore.Contents
