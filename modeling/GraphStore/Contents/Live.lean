import GraphStore.Contents

/-!
# Live quads

A quad is live when its key has an entry, which tells the horizon of the write that added it.

* `Contents.addedAt?`, `Contents.isLive` : point reads;
* `Contents.record`, `Contents.forget` : the entry of one key;
* `Contents.quadsPage?` : a page of live keys.
-/

namespace GraphStore.Contents

/-- The horizon a live quad was added at. -/
def addedAt? (c : Contents) (key : QuadKey) : Option Horizon := c.quads.get? key.toBytes

def isLive (c : Contents) (key : QuadKey) : Bool := (c.addedAt? key).isSome

/-- The horizon a key was already live at, or the contents in which it is live from `h` on. -/
def record (c : Contents) (key : QuadKey) (h : Horizon) : Option Horizon × Contents :=
  match c.addedAt? key with
  | some old => (some old, c)
  | none => (none, { c with quads := c.quads.insert key.toBytes h })

/-- The horizon a key was live at, and the contents in which it is not. -/
def forget (c : Contents) (key : QuadKey) : Option Horizon × Contents :=
  match c.addedAt? key with
  | some old => (some old, { c with quads := c.quads.erase key.toBytes })
  | none => (none, c)

def quadsPage? (c : Contents) (after : Option QuadKey) (limit : Nat) : Except PageError Page := do
  let lo := match after with
    | some key => .excluded key.toBytes
    | none => .unbounded
  let keys := (c.quads.between lo .unbounded).take limit
  let page ← Page.empty? (.ofNat QuadKey.width)
  page.appendAll (keys.map Prod.fst)

end GraphStore.Contents
