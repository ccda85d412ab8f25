import GraphStore.Key
import GraphStore.Table

/-!
# Tags

* `Bindings` : the names bound for one result;
* `Tags` : the names attached to one query, plain ones bound to its result and fixed ones to a
  constant;
* `Tags.bind` : the bindings with those of one query added, the fixed ones last;
* `Tags.merge` : the tags of two queries together.
-/

namespace GraphStore

abbrev Bindings := Table String Ref

structure Tags where
  /-- Names bound to the current result, in the order they were added. -/
  plain : List String := []
  fixed : Table String Ref := ∅
deriving DecidableEq, Inhabited

namespace Tags

def add (tags : Tags) (name : String) : Tags :=
  if name ∈ tags.plain then tags else { tags with plain := tags.plain ++ [name] }

def addFixed (tags : Tags) (name : String) (ref : Ref) : Tags :=
  { tags with fixed := tags.fixed.insert name ref }

def addAllFixed (tags : Tags) (bound : List (String × Ref)) : Tags :=
  bound.foldl (fun tags (name, ref) => tags.addFixed name ref) tags

def isEmpty (tags : Tags) : Bool := tags.plain.isEmpty && tags.fixed.entries.isEmpty

/-- The tags with those of another query; of two constants for a name the other one's stays. -/
def merge (tags other : Tags) : Tags :=
  (other.plain.foldl add tags).addAllFixed other.fixed.entries

/-- The bindings with those for a result. Without a result only constants are bound. -/
def bind (tags : Tags) (result : Option Ref) (bindings : Bindings) : Bindings :=
  let bindings := match result with
    | some ref => tags.plain.foldl (fun b name => b.insert name ref) bindings
    | none => bindings
  tags.fixed.entries.foldl (fun b (name, ref) => b.insert name ref) bindings

end Tags

end GraphStore
