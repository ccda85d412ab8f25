import GraphStore.Query.Next

/-!
# Results with their bindings

* `Query.nexts` : a number of steps, up to the first that fails;
* `Query.rows` : further results, each with the names bound for it;
* `Store.nameOfRef` : a result as text, the value of a node or a quad as an arrow;
* `Query.names` : the rest of a pass as texts, up to the first that cannot be read;
* `Query.uses` : the handles a tree reads from, and those its snapshots were taken through.
-/

namespace GraphStore

/-- A node's value, or a live quad as an arrow. -/
def Store.nameOfRef (store : Store) (disk : Disk) : Ref → Except StoreError String
  | .node id => store.nameOf disk id
  | .quad key => Quad.text <$> store.quad disk (.quad key)

namespace Query

def nexts (disk : Disk) : Nat → Query → (List (Option Ref) × Option StoreError) × Query
  | 0, q => (([], none), q)
  | count + 1, q =>
    match q.next disk with
    | (.error error, q) => (([], some error), q)
    | (.ok result, q) =>
      let ((results, failure), q) := nexts disk count q
      ((result :: results, failure), q)

/-- The results of the rest of a pass with their bindings; with a limit, not more than that. -/
def rows (disk : Disk) (limit : Option Nat) (q : Query) :
    Except StoreError (List (Ref × Bindings)) × Query :=
  gather disk (fun q ref => .ok (ref, q.bind ∅)) (limit.getD (q.supply disk none + 1)) q

def names (store : Store) (disk : Disk) (q : Query) : Except StoreError (List String) × Query :=
  q.gatherAll disk fun _ ref => store.nameOfRef disk ref

def snapshotUses (snapshot : Option Snapshot) : List FileUse :=
  (snapshot.map fun s => { handle := s.handle, reading := true }).toList

def cursorUses (cursor : Cursor) : List FileUse :=
  { handle := cursor.handle } :: snapshotUses cursor.snapshot

mutual

/-- The uses a query makes of files: each part reads from a handle, and each snapshot was taken
through one, perhaps another. -/
def uses : Query → List FileUse
  | .all _ _ cursor => cursorUses cursor
  | .fixed .. => []
  | .position scan => cursorUses scan.cursor
  | .links _ handle _ _ primary inner snapshot =>
    { handle } :: (snapshotUses snapshot ++ primary.uses ++
      inner.toList.flatMap fun scan => cursorUses scan.cursor)
  | .inter _ children _ snapshot => snapshotUses snapshot ++ usesAll children

def usesAll : List Query → List FileUse
  | [] => []
  | q :: rest => q.uses ++ usesAll rest

end

end Query

end GraphStore
