import GraphStore.Text.Digits

/-!
# Store configuration

* `Config` : the settings a store is opened with;
* `Config.ofEnvironment` : the settings given by environment variables, checked in a fixed order
  (`ConfigError`);
* `Config.withCacheSize`, `Config.withPageSize`, `Config.withDurableCommits` : changed settings.
-/

namespace GraphStore

/-- The settings a store is opened with. -/
structure Config where
  /-- Bytes of the page cache; the default is left to the storage layer. -/
  cacheSize : Option UInt64 := none
  /-- Values fetched per bulk read of an index. -/
  pageSize : UInt64 := 256
  /-- Whether a write transaction is on disk before it returns. -/
  durableCommits : Bool := true
deriving Repr, DecidableEq, Inhabited

inductive ConfigError where
  | invalidValue (name reason : String)
deriving Repr, DecidableEq

def ConfigError.message : ConfigError → String
  | invalidValue name reason => "invalid value for " ++ name ++ ": " ++ reason

namespace Config

def withCacheSize (config : Config) (bytes : UInt64) : Config :=
  { config with cacheSize := some bytes }

/-- The settings with the given page size, at least one value. -/
def withPageSize (config : Config) (values : UInt64) : Config :=
  { config with pageSize := max values 1 }

/-- The settings with synced or eventual commits. -/
def withDurableCommits (config : Config) (durable : Bool) : Config :=
  { config with durableCommits := durable }

/-! ## Environment variables -/

def cacheSizeVariable : String := "QUADSTORE_CACHE_SIZE"

def pageSizeVariable : String := "QUADSTORE_PAGE_SIZE"

def durableCommitsVariable : String := "QUADSTORE_DURABLE_COMMITS"

/-- The word a text spells in ASCII digits, with or without a plus sign. -/
def word? (text : String) : Option UInt64 :=
  match text.toList with
  | '+' :: digits => Text.wordOfDigits? digits
  | digits => Text.wordOfDigits? digits

def flag? (text : String) : Option Bool :=
  if text ∈ ["1", "true", "yes"] then some true
  else if text ∈ ["0", "false", "no"] then some false
  else none

def number (name text : String) : Except ConfigError UInt64 :=
  match word? text with
  | some n => .ok n
  | none => .error (.invalidValue name ("'" ++ text ++ "' is not a valid non-negative integer"))

/-- The settings given by environment variables; unset ones keep their defaults. -/
def ofEnvironment (lookup : String → Option String) : Except ConfigError Config := do
  let cacheSize ← match lookup cacheSizeVariable with
    | some text => some <$> number cacheSizeVariable text
    | none => pure ({} : Config).cacheSize
  let pageSize ← match lookup pageSizeVariable with
    | some text => do
      let n ← number pageSizeVariable text
      if n = 0 then throw (.invalidValue pageSizeVariable "must be at least 1")
      pure n
    | none => pure ({} : Config).pageSize
  let durableCommits ← match lookup durableCommitsVariable with
    | some text =>
      match flag? text with
      | some flag => pure flag
      | none =>
        throw (.invalidValue durableCommitsVariable ("'" ++ text ++ "' is not a boolean"))
    | none => pure ({} : Config).durableCommits
  return { cacheSize, pageSize, durableCommits }

end Config

end GraphStore
