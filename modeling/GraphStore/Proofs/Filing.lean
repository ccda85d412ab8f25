import GraphStore.Contents.Entry
import GraphStore.Proofs.Encoding
import GraphStore.Proofs.Lookup

/-!
# Index entries and their counts

An index is filed for a list of keys when it holds exactly their entries, and its counts are the
numbers of keys under each stem (`Contents.Filed`).

* `Contents.Filed.addEntry`, `Contents.Filed.removeEntry` : an entry added to or removed from one index;
* `Contents.fst_addEntries`, `Contents.fst_removeEntries` : how many indexes a change of all touches;
* `Contents.forIndexes_filed` : what it makes of them, none of which disturbs another.
-/

namespace GraphStore

/-- A number as a table keeps it, which has no entry for zero. -/
def tally? (n : Nat) : Option Nat := if n = 0 then none else some n

theorem getD_tally? (n : Nat) : (tally? n).getD 0 = n := by
  unfold tally?
  split
  · next h => exact h.symm
  · rfl

theorem toNat_shifted_one {n : UInt64} (h : n.toNat + 1 < 2 ^ 64) :
    (shifted n 1).toNat = n.toNat + 1 := by
  have hmove : ((n.toNat : Int) + 1).toNat = n.toNat + 1 := by omega
  have hsize : UInt64.size = 2 ^ 64 := rfl
  unfold shifted
  rw [hmove, UInt64.toNat_ofNat_of_lt' (by omega)]
  omega

theorem toNat_shifted_neg_one (n : UInt64) : (shifted n (-1)).toNat = n.toNat - 1 := by
  have hmove : ((n.toNat : Int) + -1).toNat = n.toNat - 1 := by omega
  have hsize : UInt64.size = 2 ^ 64 := rfl
  have hlt := n.toNat_lt
  unfold shifted
  rw [hmove, UInt64.toNat_ofNat_of_lt' (by omega)]
  omega

namespace Contents

variable {c c' c'' : Contents} {index j : Index} {key : QuadKey} {Q Q' : List QuadKey}
  {stem : Bytes}

/-- The number of listed keys filed under a stem. -/
def filedUnder (Q : List QuadKey) (index : Index) (stem : Bytes) : Nat :=
  Q.countP (index.stem · == stem)

/-- An index holds the entries of the listed keys and counts them. -/
structure Filed (c : Contents) (index : Index) (Q : List QuadKey) : Prop where
  entries : ∀ b, (c.indexes.get index).contains b = true ↔ ∃ k ∈ Q, index.entry k = b
  counts : ∀ stem, stem.length = index.stemWidth →
    (c.counts.get? (index.countKey stem)).map UInt64.toNat = tally? (filedUnder Q index stem)

/-- Every count is that of a stem of full width. -/
def CountsStems (c : Contents) : Prop :=
  ∀ b, c.counts.contains b = true →
    ∃ index : Index, ∃ stem : Bytes, stem.length = index.stemWidth ∧ b = index.countKey stem

theorem Filed.hasEntry (h : Filed c index Q) : c.hasEntry index key = true ↔ key ∈ Q := by
  unfold Contents.hasEntry
  rw [h.entries]
  constructor
  · rintro ⟨k, hk, e⟩
    rwa [← Index.entry_inj.1 e]
  · exact fun hk => ⟨key, hk, rfl⟩

theorem Filed.entryCount (h : Filed c index Q) (hstem : stem.length = index.stemWidth) :
    (c.entryCount index stem).toNat = filedUnder Q index stem := by
  have hcount := congrArg (Option.getD · 0) (h.counts stem hstem)
  rw [getD_tally?] at hcount
  rw [← hcount]
  unfold Contents.entryCount Table.getD
  cases c.counts.get? (index.countKey stem) <;> rfl

theorem Filed.perm (h : Filed c index Q) (hQ : Q.Perm Q') : Filed c index Q' where
  entries b := by
    rw [h.entries]
    exact exists_congr fun k => and_congr_left fun _ => hQ.mem_iff
  counts stem hstem := by
    rw [h.counts stem hstem]
    unfold filedUnder
    rw [hQ.countP_eq]

/-! ## One entry -/

/-- `c'` differs from `c` at most in the entries and counts of one index. -/
structure Refiled (index : Index) (c c' : Contents) : Prop where
  counters : c'.counters = c.counters
  ids : c'.ids = c.ids
  names : c'.names = c.names
  degrees : c'.degrees = c.degrees
  quads : c'.quads = c.quads
  others : c'.others = c.others
  entries : ∀ j, j ≠ index → c'.indexes.get j = c.indexes.get j
  counts : ∀ j, j ≠ index → ∀ stem,
    c'.counts.get? (j.countKey stem) = c.counts.get? (j.countKey stem)
  countsStems : CountsStems c → CountsStems c'

theorem Refiled.filed (h : Refiled index c c') (hj : j ≠ index) (hf : Filed c j Q) :
    Filed c' j Q where
  entries b := by rw [h.entries j hj, hf.entries]
  counts stem hstem := by rw [h.counts j hj, hf.counts stem hstem]

theorem get?_shiftCount (c : Contents) (index : Index) (stem : Bytes) (distance : Int) (b : Bytes) :
    (c.shiftCount index stem distance).counts.get? b =
      if b = index.countKey stem then
        let n := shifted (c.entryCount index stem) distance
        if n = 0 then none else some n
      else c.counts.get? b := by
  unfold shiftCount
  simp only
  split
  · next hn =>
    rw [Table.get?_erase]
  · rw [Table.get?_insert]

theorem map_toNat_ite (n : UInt64) :
    (if n = 0 then none else some n).map UInt64.toNat = tally? n.toNat := by
  unfold tally?
  by_cases h : n = 0
  · rw [if_pos h, h]
    rfl
  · have hne : n.toNat ≠ 0 := fun e => h (UInt64.toNat_inj.1 e)
    rw [if_neg h, if_neg hne]
    rfl

/-- The contents with other entries for an index and the count under the stem of one key moved. -/
theorem refiled_shiftCount (c : Contents) (index : Index) (key : QuadKey)
    (entries : SortedSet Bytes) (distance : Int) :
    Refiled index c (shiftCount { c with indexes := c.indexes.set index entries } index
      (index.stem key) distance) := by
  refine ⟨rfl, rfl, rfl, rfl, rfl, rfl, fun j hj => ?_, fun j hj stem => ?_, fun h b hb => ?_⟩
  · unfold shiftCount
    simp [hj]
  · rw [get?_shiftCount, if_neg (fun e => hj (Index.countKey_inj.1 e).1)]
  · unfold Table.contains at hb
    rw [get?_shiftCount] at hb
    split at hb
    · next e => exact ⟨index, index.stem key, index.length_stem key, e⟩
    · exact h b hb

theorem Refiled.refl (index : Index) (c : Contents) : Refiled index c c :=
  ⟨rfl, rfl, rfl, rfl, rfl, rfl, fun _ _ => rfl, fun _ _ _ => rfl, fun h => h⟩

theorem Refiled.hasEntry (h : Refiled index c c') (hj : j ≠ index) (key : QuadKey) :
    c'.hasEntry j key = c.hasEntry j key := by
  unfold Contents.hasEntry
  rw [h.entries j hj]

theorem fst_addEntry (c : Contents) (index : Index) (key : QuadKey) :
    (c.addEntry index key).1 = !c.hasEntry index key := by
  unfold addEntry
  cases c.hasEntry index key <;> rfl

theorem fst_removeEntry (c : Contents) (index : Index) (key : QuadKey) :
    (c.removeEntry index key).1 = c.hasEntry index key := by
  unfold removeEntry
  cases c.hasEntry index key <;> rfl

theorem refiled_addEntry (c : Contents) (index : Index) (key : QuadKey) :
    Refiled index c (c.addEntry index key).2 := by
  unfold addEntry
  split
  · exact .refl index c
  · exact refiled_shiftCount c index key _ 1

theorem refiled_removeEntry (c : Contents) (index : Index) (key : QuadKey) :
    Refiled index c (c.removeEntry index key).2 := by
  unfold removeEntry
  split
  · exact refiled_shiftCount c index key _ (-1)
  · exact .refl index c

/-- A new entry makes an index filed for one key more. -/
theorem addEntry_filed (h : Filed c index Q) (hkey : key ∉ Q)
    (hroom : filedUnder Q index (index.stem key) + 1 < 2 ^ 64) :
    Filed (c.addEntry index key).2 index (key :: Q) := by
  have hnone : c.hasEntry index key = false :=
    Bool.eq_false_iff.2 fun e => hkey (h.hasEntry.1 e)
  unfold addEntry
  rw [hnone, if_neg (by decide)]
  refine ⟨fun b => ?_, fun stem hstem => ?_⟩
  · unfold shiftCount
    simp only [IndexTables.get_set, if_true, SortedSet.contains_add, Bool.or_eq_true,
      decide_eq_true_eq, h.entries, List.exists_mem_cons_iff]
    exact or_congr_left eq_comm
  · rw [get?_shiftCount]
    have hcount := h.entryCount (index.length_stem key)
    by_cases hs : stem = index.stem key
    · subst hs
      rw [if_pos rfl, map_toNat_ite, toNat_shifted_one (by change (c.entryCount _ _).toNat + 1 < _; omega)]
      change tally? ((c.entryCount _ _).toNat + 1) = _
      rw [hcount]
      unfold filedUnder
      rw [List.countP_cons_of_pos (by simp)]
    · rw [if_neg (fun e => hs (Index.countKey_inj.1 e).2)]
      change (c.counts.get? _).map _ = _
      rw [h.counts stem hstem]
      unfold filedUnder
      rw [List.countP_cons_of_neg (by simpa using Ne.symm hs)]

theorem removeEntry_filed (h : Filed c index (key :: Q)) (hkey : key ∉ Q) :
    Filed (c.removeEntry index key).2 index Q := by
  have hsome : c.hasEntry index key = true := h.hasEntry.2 List.mem_cons_self
  unfold removeEntry
  rw [hsome, if_pos rfl]
  refine ⟨fun b => ?_, fun stem hstem => ?_⟩
  · unfold shiftCount
    simp only [IndexTables.get_set, if_true, Table.contains_erase, Bool.and_eq_true,
      Bool.not_eq_true', decide_eq_false_iff_not, h.entries, List.exists_mem_cons_iff]
    constructor
    · rintro ⟨hne, rfl | hk⟩
      · exact absurd rfl hne
      · exact hk
    · rintro ⟨k, hk, rfl⟩
      exact ⟨fun e => hkey (Index.entry_inj.1 e ▸ hk), .inr ⟨k, hk, rfl⟩⟩
  · rw [get?_shiftCount]
    have hcount := h.entryCount (index.length_stem key)
    by_cases hs : stem = index.stem key
    · subst hs
      rw [if_pos rfl, map_toNat_ite, toNat_shifted_neg_one]
      change tally? ((c.entryCount _ _).toNat - 1) = _
      rw [hcount]
      unfold filedUnder
      rw [List.countP_cons_of_pos (by simp), Nat.add_sub_cancel]
    · rw [if_neg (fun e => hs (Index.countKey_inj.1 e).2)]
      change (c.counts.get? _).map _ = _
      rw [h.counts stem hstem]
      unfold filedUnder
      rw [List.countP_cons_of_neg (by simpa using Ne.symm hs)]

theorem Filed.addEntry (h : Filed c index Q)
    (hroom : key ∈ Q ∨ filedUnder Q index (index.stem key) + 1 < 2 ^ 64) :
    Filed (c.addEntry index key).2 index (Q.insert key) := by
  by_cases hkey : key ∈ Q
  · unfold Contents.addEntry
    rw [List.insert_of_mem hkey, if_pos (h.hasEntry.2 hkey)]
    exact h
  · rw [List.insert_of_not_mem hkey]
    exact addEntry_filed h hkey (hroom.resolve_left hkey)

theorem Filed.removeEntry (h : Filed c index Q) (hQ : Q.Nodup) :
    Filed (c.removeEntry index key).2 index (Q.erase key) := by
  by_cases hkey : key ∈ Q
  · exact removeEntry_filed (h.perm (List.perm_cons_erase hkey)) hQ.not_mem_erase
  · unfold Contents.removeEntry
    rw [List.erase_of_not_mem hkey, if_neg (fun e => hkey (h.hasEntry.1 e))]
    exact h

/-! ## All indexes -/

structure Reindexed (c c' : Contents) : Prop where
  counters : c'.counters = c.counters
  ids : c'.ids = c.ids
  names : c'.names = c.names
  degrees : c'.degrees = c.degrees
  quads : c'.quads = c.quads
  others : c'.others = c.others
  countsStems : CountsStems c → CountsStems c'

theorem Reindexed.refl (c : Contents) : Reindexed c c :=
  ⟨rfl, rfl, rfl, rfl, rfl, rfl, fun h => h⟩

theorem Refiled.trans_reindexed (h : Refiled index c c') (h' : Reindexed c' c'') :
    Reindexed c c'' where
  counters := h'.counters.trans h.counters
  ids := h'.ids.trans h.ids
  names := h'.names.trans h.names
  degrees := h'.degrees.trans h.degrees
  quads := h'.quads.trans h.quads
  others := h'.others.trans h.others
  countsStems hc := h'.countsStems (h.countsStems hc)

/-- Of the changes of distinct indexes as many do something as would do so by themselves. -/
theorem fst_forIndexes {change : Contents → Index → Bool × Contents}
    (answer : Contents → Index → Bool) (hfst : ∀ c index, (change c index).1 = answer c index)
    (hother : ∀ c index j, j ≠ index → answer (change c index).2 j = answer c j)
    {indexes : List Index} (hnodup : indexes.Nodup) :
    (forIndexes change indexes c).1 = indexes.countP (answer c) := by
  induction indexes generalizing c with
  | nil => rfl
  | cons index rest ih =>
    obtain ⟨hindex, hnodup⟩ := List.nodup_cons.1 hnodup
    have hrest : rest.countP (answer (change c index).2) = rest.countP (answer c) :=
      List.countP_congr fun j hj => by rw [hother c index j fun e => hindex (e ▸ hj)]
    change (change c index).1.toNat + (forIndexes change rest (change c index).2).1 = _
    rw [hfst, ih hnodup, hrest, List.countP_cons, Nat.add_comm]
    cases answer c index <;> rfl

theorem fst_addEntries (c : Contents) (key : QuadKey) :
    (c.addEntries key).1 = Index.all.countP fun index => !c.hasEntry index key :=
  fst_forIndexes (fun c index => !c.hasEntry index key) (fun c index => fst_addEntry c index key)
    (fun c index _ hj => congrArg not ((refiled_addEntry c index key).hasEntry hj key))
    Index.all_nodup

theorem fst_removeEntries (c : Contents) (key : QuadKey) :
    (c.removeEntries key).1 = Index.all.countP fun index => c.hasEntry index key :=
  fst_forIndexes (fun c index => c.hasEntry index key) (fun c index => fst_removeEntry c index key)
    (fun c index _ hj => (refiled_removeEntry c index key).hasEntry hj key) Index.all_nodup

/-- A change that refiles each index from one list of keys to another does so for all of them. -/
theorem forIndexes_filed {F F' : Index → List QuadKey} (change : Contents → Index → Bool × Contents)
    (hrefiled : ∀ c index, Refiled index c (change c index).2)
    (hchange : ∀ c index, Filed c index (F index) → Filed (change c index).2 index (F' index))
    {indexes : List Index} (hnodup : indexes.Nodup)
    (h : ∀ index ∈ indexes, Filed c index (F index)) :
    (∀ index ∈ indexes, Filed (forIndexes change indexes c).2 index (F' index)) ∧
      (∀ j, j ∉ indexes → ∀ R, Filed c j R → Filed (forIndexes change indexes c).2 j R) ∧
      Reindexed c (forIndexes change indexes c).2 := by
  induction indexes generalizing c with
  | nil => exact ⟨nofun, fun _ _ _ h => h, Reindexed.refl c⟩
  | cons i rest ih =>
    obtain ⟨hi, hnodup⟩ := List.nodup_cons.1 hnodup
    have hfiled := hchange c i (h i List.mem_cons_self)
    have hrest : ∀ index ∈ rest, Filed (change c i).2 index (F index) := fun index hindex =>
      (hrefiled c i).filed (fun e => hi (e ▸ hindex)) (h index (List.mem_cons_of_mem _ hindex))
    obtain ⟨hall, hother, hreindexed⟩ := ih hnodup hrest
    change (∀ index ∈ i :: rest, Filed (forIndexes change rest (change c i).2).2 index (F' index)) ∧
      (∀ j, j ∉ i :: rest → ∀ R, Filed c j R →
        Filed (forIndexes change rest (change c i).2).2 j R) ∧ _
    refine ⟨fun index hindex => ?_, fun j hj R hR => ?_, (hrefiled c i).trans_reindexed hreindexed⟩
    · rcases List.mem_cons.1 hindex with rfl | hindex
      · exact hother _ hi _ hfiled
      · exact hall index hindex
    · rw [List.mem_cons, not_or] at hj
      exact hother j hj.2 R ((hrefiled c i).filed hj.1 hR)

/-- Adding a key to all indexes files it in each. -/
theorem Filed.addEntries {F : Index → List QuadKey} (h : ∀ index, Filed c index (F index))
    (hroom : ∀ index, key ∈ F index ∨ filedUnder (F index) index (index.stem key) + 1 < 2 ^ 64) :
    (∀ index, Filed (c.addEntries key).2 index ((F index).insert key)) ∧
      Reindexed c (c.addEntries key).2 := by
  obtain ⟨hall, -, hreindexed⟩ := forIndexes_filed (fun c index => c.addEntry index key)
    (fun c index => refiled_addEntry c index key) (fun c index hf => hf.addEntry (hroom index))
    Index.all_nodup (fun index _ => h index)
  exact ⟨fun index => hall index index.mem_all, hreindexed⟩

/-- Removing a key from all indexes files it in none. -/
theorem Filed.removeEntries {F : Index → List QuadKey} (h : ∀ index, Filed c index (F index))
    (hnodup : ∀ index, (F index).Nodup) (key : QuadKey) :
    (∀ index, Filed (c.removeEntries key).2 index ((F index).erase key)) ∧
      Reindexed c (c.removeEntries key).2 := by
  obtain ⟨hall, -, hreindexed⟩ := forIndexes_filed (fun c index => c.removeEntry index key)
    (fun c index => refiled_removeEntry c index key)
    (fun c index hf => hf.removeEntry (hnodup index)) Index.all_nodup (fun index _ => h index)
  exact ⟨fun index => hall index index.mem_all, hreindexed⟩

theorem addEntries_filed (h : ∀ index, Filed c index Q) (hkey : key ∉ Q)
    (hlen : Q.length + 1 < 2 ^ 64) :
    (c.addEntries key).1 = Index.all.length ∧
      (∀ index, Filed (c.addEntries key).2 index (key :: Q)) ∧
      Reindexed c (c.addEntries key).2 := by
  obtain ⟨hall, hreindexed⟩ := Filed.addEntries h fun index =>
    .inr (Nat.lt_of_le_of_lt (Nat.succ_le_succ List.countP_le_length) hlen)
  refine ⟨?_, List.insert_of_not_mem hkey ▸ hall, hreindexed⟩
  rw [fst_addEntries, List.countP_eq_length]
  intro index _
  rw [Bool.not_eq_true', Bool.eq_false_iff]
  exact fun e => hkey ((h index).hasEntry.1 e)

theorem removeEntries_filed (h : ∀ index, Filed c index (key :: Q)) (hnodup : (key :: Q).Nodup) :
    (c.removeEntries key).1 = Index.all.length ∧
      (∀ index, Filed (c.removeEntries key).2 index Q) ∧
      Reindexed c (c.removeEntries key).2 := by
  obtain ⟨hall, hreindexed⟩ := Filed.removeEntries h (fun _ => hnodup) key
  refine ⟨?_, List.erase_cons_head key Q ▸ hall, hreindexed⟩
  rw [fst_removeEntries, List.countP_eq_length]
  exact fun index _ => (h index).hasEntry.2 List.mem_cons_self

end Contents

end GraphStore
