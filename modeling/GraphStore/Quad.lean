/-!
# Quads

* `Direction` : the four positions of a quad;
* `Quad` : a labelled edge between two nodes, by value;
* `Quad.isValid` : what may be stored;
* `Quad.text` : `subject -- predicate -> object (label)`.
-/

namespace GraphStore

inductive Direction where
  | subject
  | predicate
  | object
  | label
deriving Repr, DecidableEq, Inhabited

namespace Direction

def all : List Direction := [subject, predicate, object, label]

def text : Direction → String
  | subject => "subject"
  | predicate => "predicate"
  | object => "object"
  | label => "label"

def ofText? (name : String) : Option Direction := all.find? (·.text == name)

end Direction

/-- A directed, labelled edge between two nodes. The empty label is the default graph. -/
structure Quad where
  subject : String
  predicate : String
  object : String
  label : String := ""
deriving Repr, DecidableEq, Inhabited

namespace Quad

def get (q : Quad) : Direction → String
  | .subject => q.subject
  | .predicate => q.predicate
  | .object => q.object
  | .label => q.label

def values (q : Quad) : List String := Direction.all.map q.get

/-- Only a quad with a subject, a predicate and an object can be stored. -/
def isValid (q : Quad) : Bool := q.subject != "" && q.predicate != "" && q.object != ""

/-- A quad as an arrow; the default graph is not written. -/
def text (q : Quad) : String :=
  let arrow := q.subject ++ " -- " ++ q.predicate ++ " -> " ++ q.object
  if q.label = "" then arrow else arrow ++ " (" ++ q.label ++ ")"

/-! ## Order -/

/-- Quads are ordered by subject, then predicate, object and label. -/
protected def order : Quad → Quad → Ordering :=
  compareLex (compareOn subject) <| compareLex (compareOn predicate) <|
    compareLex (compareOn object) (compareOn label)

instance : Ord Quad := ⟨Quad.order⟩

instance : Std.TransOrd Quad :=
  inferInstanceAs <| Std.TransCmp <| compareLex (compareOn subject) <|
    compareLex (compareOn predicate) <| compareLex (compareOn object) (compareOn label)

instance : Std.LawfulEqOrd Quad where
  eq_of_compare := by
    intro a b h
    obtain ⟨_, _, _, _⟩ := a
    obtain ⟨_, _, _, _⟩ := b
    have h : Quad.order _ _ = .eq := h
    simp only [Quad.order, compareLex, compareOn, Ordering.then_eq_eq,
      Std.LawfulEqOrd.compare_eq_iff_eq] at h
    obtain ⟨rfl, rfl, rfl, rfl⟩ := h
    rfl

def sort (quads : List Quad) : List Quad := quads.mergeSort (fun a b => (compare a b).isLE)

end Quad

end GraphStore
