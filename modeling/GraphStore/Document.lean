import GraphStore.Config
import GraphStore.Quad
import GraphStore.Text.Json

/-!
# Reading records from JSON documents

A record is an object or an array of its members in declaration order. Unknown members are
ignored, repeated ones refused, and members with a default may be missing.

* `Config.ofJson?`, `Quad.ofJson?`, `Direction.ofJson?` : the records.
-/

namespace GraphStore

/-- A position: its name, alone or as the only member of an object with nothing in it. -/
def Direction.ofJson? : Json → Option Direction
  | .string (some name) => ofText? name
  | .object [(some name, .null)] => ofText? name
  | _ => none

/-- A quad; only the label has a default. -/
def Quad.ofJson? (doc : Json) : Option Quad := do
  match ← doc.members? (Direction.all.map Direction.text) with
  | [subject, predicate, object, label] =>
    return {
      subject := ← (← subject).text?
      predicate := ← (← predicate).text?
      object := ← (← object).text?
      label := ← match label with
        | some doc => doc.text?
        | none => some "" }
  | _ => none

/-- Settings; all of them have defaults, and only the cache size may be null. -/
def Config.ofJson? (doc : Json) : Option Config := do
  match ← doc.members? ["cache_size", "page_size", "durable_commits"] with
  | [cacheSize, pageSize, durableCommits] =>
    return {
      cacheSize := ← match cacheSize with
        | some .null => some none
        | some doc => doc.word?.map some
        | none => some ({} : Config).cacheSize
      pageSize := ← match pageSize with
        | some doc => doc.word?
        | none => some ({} : Config).pageSize
      durableCommits := ← match durableCommits with
        | some doc => doc.bool?
        | none => some ({} : Config).durableCommits }
  | _ => none

end GraphStore
