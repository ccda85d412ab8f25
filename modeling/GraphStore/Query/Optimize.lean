import GraphStore.Query.Basic

/-!
# Simplifying queries

`Query.optimize` turns a tree into a cheaper one and tells whether it did. Names move to where
the same results still bind them.

* Links from an empty list are an empty list; links from one listed node are a scan.
* In an intersection, a query of all nodes or quads goes if another child has its category and
  only live results; a scan of a subject and one of a predicate become one scan of both; an
  intersection of one child is that child.
* Leaves are left alone, with their progress; composite queries start over.
-/

namespace GraphStore.Query

/-! ## Links -/

/-- The leaf that stands for links from an empty list or from one node; none for other links. -/
def foldLinks? (frame : Frame) (handle : Handle) (pageSize : Nat) (direction : Direction) :
    Query → Option Query
  | .fixed _ [] _ => some (.fixed { tags := ({} : Tags).merge frame.tags } [] 0)
  | .fixed listed [.node id] _ =>
    let tags := ({} : Tags).merge frame.tags
    let tags := tags.addAllFixed (listed.tags.plain.map fun name => (name, .node id))
    let tags := tags.addAllFixed listed.tags.fixed.entries
    some (.position { Scan.ofDirection handle pageSize direction id with frame := { tags } })
  | _ => none

/-! ## Intersections -/

mutual

/-- Whether all results of a query are live, as far as its form tells. -/
def yieldsLive : Query → Bool
  | .all .. | .position _ | .links .. => true
  | .fixed .. => false
  | .inter _ children _ _ => anyYieldsLive children

def anyYieldsLive : List Query → Bool
  | [] => false
  | q :: rest => q.yieldsLive || anyYieldsLive rest

end

def allCategory? : Query → Option Category
  | .all _ category _ => some category
  | _ => none

/-- The categories that the children which are no query of everything restrict to live
results. -/
def constrained (children : List Query) : List Category :=
  (children.filter fun q => q.allCategory?.isNone && q.yieldsLive).filterMap category

def isRedundant (categories : List Category) (q : Query) : Bool :=
  q.allCategory?.any categories.contains

/-- The children without the redundant ones, and the names of the intersection with theirs. -/
def dropRedundant (tags : Tags) (children : List Query) : Tags × List Query :=
  let categories := constrained children
  ((children.filter (isRedundant categories)).foldl (fun tags q => tags.merge q.tags) tags,
    children.filter (!isRedundant categories ·))

/-- The scan a child is, if it has exactly one bound position, the given one. -/
def scanOf? (direction : Direction) : Query → Option (Scan × NodeId)
  | .position scan => (scan.single? direction).map (scan, ·)
  | _ => none

/-- The children with the first scan of a subject and the first of a predicate replaced, at the
end, by one scan of both; none if there are no such two. -/
def fuse? (children : List Query) : Option (List Query) := do
  let (subjectScan, subject) ← children.findSome? (scanOf? .subject)
  let (predicateScan, predicate) ← children.findSome? (scanOf? .predicate)
  let rest := (children.eraseP fun q => (q.scanOf? .subject).isSome).eraseP fun q =>
    (q.scanOf? .predicate).isSome
  let tags := (({} : Tags).merge subjectScan.frame.tags).merge predicateScan.frame.tags
  let fused := Scan.subjectPredicate subjectScan.cursor.handle subjectScan.cursor.pageSize
    subject predicate
  return rest ++ [.position { fused with frame := { tags } }]

/-- An intersection whose children were simplified, and whether it is another query than
before. -/
def simplifyInter (frame : Frame) (children : List Query) (changed : Bool) : Query × Bool :=
  let (tags, kept) := dropRedundant frame.tags children
  let dropped := kept.length < children.length
  let (kept, fused) := match fuse? kept with
    | some kept => (kept, true)
    | none => (kept, false)
  match kept with
  | [only] => (only.mapTags (·.merge tags), true)
  | kept => (.inter { tags } kept none none, changed || dropped || fused)

/-! ## Trees -/

mutual

/-- A cheaper query with the same results and bindings, and whether it is another one. -/
def optimize : Query → Query × Bool
  | .links frame handle pageSize direction primary _ _ =>
    match foldLinks? frame handle pageSize direction primary with
    | some q => (q, true)
    | none =>
      let (primary, changed) := primary.optimize
      (.links frame.reset handle pageSize direction primary none none, changed)
  | .inter frame children _ _ =>
    let (children, changed) := optimizeAll children
    simplifyInter frame children changed
  | .all frame category cursor => (.all frame category cursor, false)
  | .fixed frame values index => (.fixed frame values index, false)
  | .position scan => (.position scan, false)
termination_by structural q => q

def optimizeAll : List Query → List Query × Bool
  | [] => ([], false)
  | q :: rest =>
    let (q, changed) := q.optimize
    let (rest, restChanged) := optimizeAll rest
    (q :: rest, changed || restChanged)
termination_by structural qs => qs

end

end GraphStore.Query
