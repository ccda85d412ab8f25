import GraphStore.Contents

/-!
# Single records

A record is one entry of one table. Writing or deleting records directly keeps no two tables in
step; it is for inspecting, repairing and damaging files.

* `Record` : an entry of a known table, or a key of any other one;
* `Contents.write`, `Contents.delete` : the contents with or without a record.
-/

namespace GraphStore

inductive Record where
  | counter (name : String) (n : UInt64)
  | id (value : String) (id : NodeId)
  | name (id : NodeId) (value : String)
  | degree (id : NodeId) (n : UInt64)
  | quad (key : Bytes) (h : Horizon)
  | count (key : Bytes) (n : UInt64)
  /-- A key of an index or of another table, which comes into being if it is new. -/
  | key (table : String) (key : Bytes)
deriving Repr, DecidableEq

namespace Contents

def mapKeys (c : Contents) (table : String) (change : SortedSet Bytes → SortedSet Bytes) :
    Contents :=
  match Index.all.find? (·.tableName == table) with
  | some index => { c with indexes := c.indexes.set index (change (c.indexes.get index)) }
  | none => { c with others := c.others.insert table (change (c.others.getD table ∅)) }

def write (c : Contents) : Record → Contents
  | .counter name n => { c with counters := c.counters.insert name n }
  | .id value id => { c with ids := c.ids.insert value id }
  | .name id value => { c with names := c.names.insert id value }
  | .degree id n => { c with degrees := c.degrees.insert id n }
  | .quad key h => { c with quads := c.quads.insert key h }
  | .count key n => { c with counts := c.counts.insert key n }
  | .key table key => c.mapKeys table (·.add key)

/-- The contents without the record of the same key. -/
def delete (c : Contents) : Record → Contents
  | .counter name _ => { c with counters := c.counters.erase name }
  | .id value _ => { c with ids := c.ids.erase value }
  | .name id _ => { c with names := c.names.erase id }
  | .degree id _ => { c with degrees := c.degrees.erase id }
  | .quad key _ => { c with quads := c.quads.erase key }
  | .count key _ => { c with counts := c.counts.erase key }
  | .key table key => c.mapKeys table (·.erase key)

end Contents

end GraphStore
