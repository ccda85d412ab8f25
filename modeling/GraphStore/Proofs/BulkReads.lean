import GraphStore.Disk
import GraphStore.Proofs.Chunks
import GraphStore.Proofs.StemRange
import Mathlib.Data.List.Nodup

/-!
# Bulk reads

A bulk read is a selection from the sorted keys of a table.

* `Bytes.startingWith` : the keys that begin with a stem, from a resume point on;
* `Contents.keysUnder_eq_take` : a bulk read takes the first of them;
* `Contents.Drains` : page after page, each resumed after the last value of the one before, until a page
  is empty;
* `Contents.drains_valuesUnder` : that lists everything under the stem;
* `Contents.readsInBulk` : what the reads of a named table answer.
-/

namespace GraphStore

/-- The listed keys that begin with a stem. With a resume point, only those after the stem followed by
that point. -/
def Bytes.startingWith (stem : Bytes) (after : Option Bytes) (keys : List Bytes) : List Bytes :=
  keys.filter fun key =>
    stem.isPrefixOf key && after.all fun value => (compare (stem ++ value) key).isLT

theorem Bytes.mem_startingWith {stem key : Bytes} {after : Option Bytes} {keys : List Bytes} :
    key ∈ startingWith stem after keys ↔
      key ∈ keys ∧ stem <+: key ∧ ∀ value ∈ after, compare (stem ++ value) key = .lt := by
  unfold startingWith
  rw [List.mem_filter, Bool.and_eq_true, List.isPrefixOf_iff_prefix]
  cases after <;> simp

namespace Contents

variable {β : Type} {table : Table Bytes β} {stem : Bytes} {after : Option Bytes} {stride : UInt64}
  {limit : Nat}

/-! ## Ranges as selections -/

theorem bounds_eq_startingWith (stem : Bytes) (after : Option Bytes) (key : Bytes) :
    ((stemStart stem after).below key && (stemEnd stem).above key) =
      (stem.isPrefixOf key && after.all fun value => (compare (stem ++ value) key).isLT) := by
  rw [Bool.eq_iff_iff, Bool.and_eq_true, Bool.and_eq_true, List.isPrefixOf_iff_prefix]
  constructor
  · intro ⟨hlo, hhi⟩
    refine ⟨(stemEnd_above (isLE_of_stemStart hlo)).1 hhi, ?_⟩
    cases after with
    | none => rfl
    | some value => exact hlo
  · intro ⟨hbegins, hafter⟩
    have hle := Bytes.isLE_of_prefix hbegins
    refine ⟨?_, (stemEnd_above hle).2 hbegins⟩
    cases after with
    | none => exact stemStart_below.2 hle
    | some value => exact hafter

theorem keys_stemRange (table : Table Bytes β) (stem : Bytes) (after : Option Bytes) :
    (stemRange table stem after).map Prod.fst = Bytes.startingWith stem after table.keys := by
  unfold stemRange Table.between Bytes.startingWith Table.keys
  rw [List.filter_map]
  exact congrArg _ (List.filter_congr fun e _ => bounds_eq_startingWith stem after e.1)

theorem keysUnder_eq_take (table : Table Bytes β) (stem : Bytes) (after : Option Bytes)
    (limit : Nat) :
    keysUnder table stem after limit = (Bytes.startingWith stem after table.keys).take limit := by
  rw [keysUnder_eq, List.map_take, keys_stemRange]

theorem startingWith_after {before rest : List Bytes} {value : Bytes}
    (h : Bytes.startingWith stem after table.keys = before ++ (stem ++ value) :: rest) :
    Bytes.startingWith stem (some value) table.keys = rest := by
  rw [← keys_stemRange] at h ⊢
  obtain ⟨l₁, l₂, hrange, -, hl₂⟩ := List.map_eq_append_iff.1 h
  obtain ⟨⟨k, v⟩, l₃, rfl, hk, rfl⟩ := List.map_eq_cons_iff.1 hl₂
  obtain rfl : k = stem ++ value := hk
  exact congrArg _ (stemRange_after hrange)

/-! ## One page -/

/-- The page of the suffixes, if all keys that are read have the right width. -/
theorem valuesUnder?_page (hpos : 0 < stride.toNat)
    (h : ∀ key ∈ (Bytes.startingWith stem after table.keys).take limit,
      key.length = stem.length + stride.toNat) :
    ∃ page, valuesUnder? table stem after stride limit = .ok page ∧ page.stride = stride ∧
      page.values =
        ((Bytes.startingWith stem after table.keys).take limit).map (·.drop stem.length) := by
  unfold valuesUnder?
  rw [keysUnder_eq_take]
  refine Page.values_of_appendAll hpos (List.forall_mem_map.2 fun key hkey => ?_)
  rw [List.length_drop, h key hkey, Nat.add_sub_cancel_left]

/-- Otherwise the error about the first of them that has another one. -/
theorem valuesUnder?_wrongWidth (hpos : 0 < stride.toNat) {key : Bytes}
    (h : ((Bytes.startingWith stem after table.keys).take limit).find?
      (·.length ≠ stem.length + stride.toNat) = some key) :
    valuesUnder? table stem after stride limit =
      .error (.wrongWidth stride (key.drop stem.length).length) := by
  -- no width is zero, so a suffix has the right one just when its key has
  have hwidth : (fun value : Bytes => decide (value.length ≠ stride.toNat)) ∘
      (fun key : Bytes => key.drop stem.length) =
        fun key : Bytes => decide (key.length ≠ stem.length + stride.toNat) := by
    funext key
    rw [Function.comp_apply, List.length_drop, decide_eq_decide]
    omega
  have hfirst : (((Bytes.startingWith stem after table.keys).take limit).map
      (·.drop stem.length)).find? (·.length ≠ stride.toNat) = some (key.drop stem.length) := by
    rw [List.find?_map, hwidth, h, Option.map_some]
  unfold valuesUnder?
  rw [keysUnder_eq_take, Page.empty?_eq hpos]
  exact Page.appendAll_of_find? hfirst

/-! ## Page after page -/

/-- From a resume point on, pages list the given values: each page is read after the last value of the
one before, until one is empty. -/
inductive Drains {ε : Type} (read : Option Bytes → Except ε Page) : Option Bytes → List Bytes → Prop
  | ended {after : Option Bytes} {page : Page} :
      read after = .ok page → page.isEmpty = true → Drains read after []
  | page {after : Option Bytes} {page : Page} {last : Bytes} {rest : List Bytes} :
      read after = .ok page → page.values.getLast? = some last →
        (page.byteSize < UInt64.size → page.last? = some last) →
          Drains read (some last) rest → Drains read after (page.values ++ rest)

/-- After a page that is not empty comes what is behind its last value. -/
theorem startingWith_page (hlimit : 0 < limit)
    (hne : Bytes.startingWith stem after table.keys ≠ []) : ∃ value,
      (((Bytes.startingWith stem after table.keys).take limit).map
        (·.drop stem.length)).getLast? = some value ∧
      Bytes.startingWith stem (some value) table.keys =
        (Bytes.startingWith stem after table.keys).drop limit := by
  have htake : (Bytes.startingWith stem after table.keys).take limit ≠ [] := fun h => by
    rcases List.take_eq_nil_iff.1 h with hzero | hnil
    · exact Nat.ne_of_gt hlimit hzero
    · exact hne hnil
  have hlast := List.getLast_mem htake
  obtain ⟨value, hvalue⟩ := (Bytes.mem_startingWith.1 (List.mem_of_mem_take hlast)).2.1
  have hsplit : Bytes.startingWith stem after table.keys =
      ((Bytes.startingWith stem after table.keys).take limit).dropLast ++ (stem ++ value) ::
        (Bytes.startingWith stem after table.keys).drop limit := by
    rw [hvalue, List.append_cons, List.dropLast_append_getLast, List.take_append_drop]
  refine ⟨value, ?_, startingWith_after hsplit⟩
  rw [List.getLast?_map, List.getLast?_eq_some_getLast htake, ← hvalue, Option.map_some,
    List.drop_left]

theorem drains_valuesUnder (hpos : 0 < stride.toNat) (hlimit : 0 < limit)
    (h : ∀ key ∈ Bytes.startingWith stem none table.keys,
      key.length = stem.length + stride.toNat) (after : Option Bytes) :
    Drains (fun after => valuesUnder? table stem after stride limit) after
      ((Bytes.startingWith stem after table.keys).map (·.drop stem.length)) := by
  -- by induction on the number of values to come, of which a page takes some
  induction hn : (Bytes.startingWith stem after table.keys).length using Nat.strong_induction_on
    generalizing after with
  | _ n ih =>
    have hwidth (key) (hkey : key ∈ (Bytes.startingWith stem after table.keys).take limit) :
        key.length = stem.length + stride.toNat := by
      obtain ⟨hmem, hbegins, -⟩ := Bytes.mem_startingWith.1 (List.mem_of_mem_take hkey)
      exact h key (Bytes.mem_startingWith.2 ⟨hmem, hbegins, nofun⟩)
    obtain ⟨page, hpage, -, hvalues⟩ := valuesUnder?_page hpos hwidth
    by_cases hnil : Bytes.startingWith stem after table.keys = []
    · rw [hnil]
      refine .ended hpage (Page.isEmpty_iff.2 ?_)
      rw [hvalues, hnil, List.take_nil]
      rfl
    · obtain ⟨last, hlast, hrest⟩ := startingWith_page hlimit hnil
      have hlast' : page.values.getLast? = some last := hvalues ▸ hlast
      have hpositive := List.length_pos_iff.2 hnil
      have hshorter : ((Bytes.startingWith stem after table.keys).drop limit).length < n := by
        rw [List.length_drop]
        omega
      have hbehind := ih _ hshorter (some last) (by rw [hrest])
      rw [hrest] at hbehind
      have hall := Drains.page hpage hlast' (fun hsize => (Page.last?_eq hsize).trans hlast') hbehind
      rwa [hvalues, ← List.map_append, List.take_append_drop] at hall

/-! ## Tables by name -/

/-- The keys of the byte-keyed table of a name, in order. -/
def byteKeys? (c : Contents) (name : String) : Option (List Bytes) :=
  if name = "quads" then some c.quads.keys
  else if name = "index_counts" then some c.counts.keys
  else match Index.all.find? (·.tableName == name) with
    | some index => some (c.indexes.get index).keys
    | none => (c.others.get? name).map Table.keys

theorem reader?_of_byteKeys? {c : Contents} {name : String} {keys : List Bytes}
    (h : c.byteKeys? name = some keys) : ∃ (β : Type) (table : Table Bytes β),
      c.reader? name = some (valuesUnder? table) ∧ table.keys = keys := by
  unfold byteKeys? at h
  unfold reader?
  by_cases hquads : name = "quads"
  · rw [if_pos hquads] at h ⊢
    exact ⟨_, _, rfl, Option.some.inj h⟩
  · rw [if_neg hquads] at h ⊢
    by_cases hcounts : name = "index_counts"
    · rw [if_pos hcounts] at h ⊢
      exact ⟨_, _, rfl, Option.some.inj h⟩
    · rw [if_neg hcounts] at h ⊢
      cases hindex : Index.all.find? (·.tableName == name) with
      | some index =>
        rw [hindex] at h
        exact ⟨_, _, rfl, Option.some.inj h⟩
      | none =>
        rw [hindex] at h
        obtain ⟨table, htable, hkeys⟩ := Option.map_eq_some_iff.1 h
        exact ⟨_, table, by rw [htable]; rfl, hkeys⟩

/-- What bulk reads of a table with the given keys answer. -/
structure ReadsInBulk (c : Contents) (name : String) (keys : List Bytes) : Prop where
  ascending : keys.Pairwise (fun a b => compare a b = .lt)
  /-- Where all keys that are read have the width of the stem and a value, the answer is the page of their
  suffixes. -/
  page : ∀ stem after (stride : UInt64) limit, 0 < stride.toNat →
    (∀ key ∈ (Bytes.startingWith stem after keys).take limit,
      key.length = stem.length + stride.toNat) →
    ∃ page, c.valuesOf? name stem after stride limit = .ok page ∧ page.stride = stride ∧
      page.values = ((Bytes.startingWith stem after keys).take limit).map (·.drop stem.length)
  /-- Where one has another width, the answer is the error about the first such key. -/
  wrongWidth : ∀ stem after (stride : UInt64) limit key, 0 < stride.toNat →
    ((Bytes.startingWith stem after keys).take limit).find?
      (·.length ≠ stem.length + stride.toNat) = some key →
    c.valuesOf? name stem after stride limit =
      .error (.badPage (.wrongWidth stride (key.drop stem.length).length))
  /-- Page after page lists all suffixes, each once. -/
  drains : ∀ stem (stride : UInt64) limit, 0 < stride.toNat → 0 < limit →
    (∀ key ∈ Bytes.startingWith stem none keys, key.length = stem.length + stride.toNat) →
    let suffixes := (Bytes.startingWith stem none keys).map (·.drop stem.length)
    suffixes.Nodup ∧ Drains (fun after => c.valuesOf? name stem after stride limit) none suffixes

theorem Drains.mapError {ε ε' : Type} {read : Option Bytes → Except ε Page} {values : List Bytes}
    (h : Drains read after values) (f : ε → ε') :
    Drains (fun after => (read after).mapError f) after values := by
  induction h with
  | ended hread hempty => exact .ended (by rw [hread]; rfl) hempty
  | page hread hlast hlast' _ ih => exact .page (by rw [hread]; rfl) hlast hlast' ih

theorem nodup_suffixes (table : Table Bytes β) (stem : Bytes) :
    ((Bytes.startingWith stem none table.keys).map (·.drop stem.length)).Nodup := by
  refine List.Nodup.map_on (fun a ha b hb h => ?_) (table.keys_nodup.filter _)
  obtain ⟨x, rfl⟩ := (Bytes.mem_startingWith.1 ha).2.1
  obtain ⟨y, rfl⟩ := (Bytes.mem_startingWith.1 hb).2.1
  rw [List.drop_left, List.drop_left] at h
  rw [h]

/-- A bulk read of an existing table is the selection from its keys. -/
theorem readsInBulk (c : Contents) (name : String) (keys : List Bytes)
    (h : c.byteKeys? name = some keys) : c.ReadsInBulk name keys := by
  obtain ⟨β, table, hreader, rfl⟩ := reader?_of_byteKeys? h
  have hvalues (stem after) (stride : UInt64) (limit) : c.valuesOf? name stem after stride limit =
      (valuesUnder? table stem after stride limit).mapError .badPage := by
    unfold valuesOf?
    rw [hreader]
  refine ⟨table.keys_pairwise, fun stem after stride limit hpos hwidth => ?_,
    fun stem after stride limit key hpos hfind => ?_,
    fun stem stride limit hpos hlimit hwidth => ⟨nodup_suffixes table stem, ?_⟩⟩
  · obtain ⟨page, hpage, hpage'⟩ := valuesUnder?_page hpos hwidth
    exact ⟨page, by rw [hvalues, hpage]; rfl, hpage'⟩
  · rw [hvalues, valuesUnder?_wrongWidth hpos hfind]
    rfl
  · simp only [hvalues]
    exact (drains_valuesUnder hpos hlimit hwidth none).mapError _

theorem readsInBulk_duplicates :
    let keys : List Bytes := [[0, 5, 5], [1, 10, 10], [1, 20, 20], [1, 30, 30], [2, 10, 10]]
    let c : Contents := { others := (∅ : Table String (SortedSet Bytes)).insert "dups" (.ofList keys) }
    c.byteKeys? "dups" = some keys ∧ c.ReadsInBulk "dups" keys := by
  intro keys c
  have hkeys : c.byteKeys? "dups" = some keys := by decide +kernel
  exact ⟨hkeys, c.readsInBulk "dups" keys hkeys⟩

end Contents

end GraphStore
