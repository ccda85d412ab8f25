import GraphStore.Proofs.Paging
import GraphStore.Proofs.Run

/-!
# Index entries under any use

Entries are added and removed one by one or for all indexes at once, in no balance with each other or
with the live quads.

* `EntryCall`, `Contents.Edits` : any number of such calls;
* `Contents.Indexed` : each index is filed for some keys of its own, which every call keeps;
* `Contents.Tallied` : reads under a stem find its entries in order, and counts are their numbers;
* `Store.tallied_transacted` : so it is in and after any transactions, committed or aborted.
-/

namespace GraphStore

/-! ## Calls -/

/-- A change of the entries of a key, in all indexes or in one. -/
inductive EntryCall where
  | add (key : QuadKey)
  | remove (key : QuadKey)
  | addEntry (index : Index) (key : QuadKey)
  | removeEntry (index : Index) (key : QuadKey)
deriving Repr, DecidableEq

namespace Contents

variable {c c' : Contents} {call : EntryCall} {index : Index} {key : QuadKey} {stem : Bytes}
  {Q : List QuadKey}

def edited (c : Contents) : EntryCall → Contents
  | .add key => (c.addEntries key).2
  | .remove key => (c.removeEntries key).2
  | .addEntry index key => (c.addEntry index key).2
  | .removeEntry index key => (c.removeEntry index key).2

/-- The entry of a key is there already, or the count of its stem is below its limit. -/
def Countable (c : Contents) (index : Index) (key : QuadKey) : Prop :=
  c.hasEntry index key = true ∨ (c.entryCount index (index.stem key)).toNat + 1 < 2 ^ 64

def AdmitsEdit (c : Contents) : EntryCall → Prop
  | .add key => ∀ index, c.Countable index key
  | .addEntry index key => c.Countable index key
  | .remove _ | .removeEntry .. => True

inductive Edits (c : Contents) : Contents → Prop
  | none : Edits c c
  | call {c' : Contents} (call : EntryCall) :
      Edits c c' → c'.AdmitsEdit call → Edits c (c'.edited call)

/-! ## What calls keep -/

/-- Each index is filed for distinct keys, and nothing else is counted. -/
structure Indexed (c : Contents) : Prop where
  filed : ∃ F : Index → List QuadKey, ∀ index, (F index).Nodup ∧ Filed c index (F index)
  countsStems : CountsStems c

theorem indexed_empty : Indexed {} where
  filed := ⟨fun _ => [], fun index => ⟨.nil, (sound_empty.filed index)⟩⟩
  countsStems := sound_empty.countsStems

theorem Countable.filed (h : c.Countable index key) (hfiled : Filed c index Q) :
    key ∈ Q ∨ filedUnder Q index (index.stem key) + 1 < 2 ^ 64 := by
  unfold Countable at h
  rwa [hfiled.hasEntry, hfiled.entryCount (index.length_stem key)] at h

theorem Indexed.refiled {F : Index → List QuadKey} (hc : c.Indexed)
    (hF : ∀ index, (F index).Nodup ∧ Filed c index (F index)) (h : Refiled index c c')
    (hQ : Q.Nodup) (hfiled : Filed c' index Q) : c'.Indexed := by
  refine ⟨⟨Function.update F index Q, fun j => ?_⟩, h.countsStems hc.countsStems⟩
  by_cases hj : j = index
  · subst hj
    rw [Function.update_self]
    exact ⟨hQ, hfiled⟩
  · rw [Function.update_of_ne hj]
    exact ⟨(hF j).1, h.filed hj (hF j).2⟩

theorem Indexed.edited (hc : c.Indexed) (hadmits : c.AdmitsEdit call) : (c.edited call).Indexed := by
  obtain ⟨F, hF⟩ := hc.filed
  cases call with
  | add key =>
    obtain ⟨hfiled, hreindexed⟩ :=
      Filed.addEntries (fun index => (hF index).2) fun index => (hadmits index).filed (hF index).2
    exact ⟨⟨_, fun index => ⟨(hF index).1.insert, hfiled index⟩⟩,
      hreindexed.countsStems hc.countsStems⟩
  | remove key =>
    obtain ⟨hfiled, hreindexed⟩ :=
      Filed.removeEntries (fun index => (hF index).2) (fun index => (hF index).1) key
    exact ⟨⟨_, fun index => ⟨(hF index).1.erase key, hfiled index⟩⟩,
      hreindexed.countsStems hc.countsStems⟩
  | addEntry index key =>
    obtain ⟨hnodup, hfiled⟩ := hF index
    exact hc.refiled hF (refiled_addEntry c index key) hnodup.insert
      (hfiled.addEntry (hadmits.filed hfiled))
  | removeEntry index key =>
    obtain ⟨hnodup, hfiled⟩ := hF index
    exact hc.refiled hF (refiled_removeEntry c index key) (hnodup.erase key)
      (hfiled.removeEntry hnodup)

theorem Edits.indexed (h : Edits c c') (hc : c.Indexed) : c'.Indexed := by
  induction h with
  | none => exact hc
  | call call _ hadmits ih => exact ih.edited hadmits

/-! ## Counts and reads -/

/-- A read under a stem that is not cut off finds the listed keys, in order, and they are counted. -/
structure FindsUnder (c : Contents) (index : Index) (stem : Bytes) (keys : List QuadKey) : Prop where
  ascending : keys.Pairwise (fun a b => compare a b = .lt)
  mem : ∀ key, key ∈ keys ↔ index.stem key = stem ∧ c.hasEntry index key = true
  page : ∀ limit, keys.length ≤ limit → ∃ page,
    c.entriesPage? index stem none limit = .ok page ∧ page.values = keys.map QuadKey.toBytes
  counted : (c.entryCount index stem).toNat = keys.length

/-- The counts are those of the entries, and stay so when entries are taken away. -/
structure Tallied (c : Contents) : Prop where
  finds : ∀ index stem, stem.length = index.stemWidth → ∃ keys, c.FindsUnder index stem keys
  nonzero : ∀ b, c.counts.get? b ≠ some 0
  /-- A key is added to the indexes that have no entry of it. -/
  added : ∀ key, (c.addEntries key).1 = Index.all.countP fun index => !c.hasEntry index key
  /-- A key is removed from the indexes that have an entry of it, and each of their counts is one less
  for that: none is already zero. -/
  removed : ∀ key, (c.removeEntries key).1 = Index.all.countP (fun index => c.hasEntry index key) ∧
    ∀ index, ((c.removeEntries key).2.entryCount index (index.stem key)).toNat +
      (c.hasEntry index key).toNat = (c.entryCount index (index.stem key)).toNat
  removedEntry : ∀ index key, ((c.removeEntry index key).2.entryCount index (index.stem key)).toNat +
    (c.hasEntry index key).toNat = (c.entryCount index (index.stem key)).toNat

theorem exists_map_toBytes {l : List Bytes} (h : ∀ b ∈ l, ∃ key : QuadKey, b = key.toBytes) :
    ∃ keys : List QuadKey, l = keys.map QuadKey.toBytes := by
  induction l with
  | nil => exact ⟨[], rfl⟩
  | cons b rest ih =>
    obtain ⟨⟨key, rfl⟩, hrest⟩ := List.forall_mem_cons.1 h
    obtain ⟨keys, rfl⟩ := ih hrest
    exact ⟨key :: keys, rfl⟩

theorem Filed.findsUnder (h : Filed c index Q) (hQ : Q.Nodup) (hstem : stem.length = index.stemWidth) :
    ∃ keys, c.FindsUnder index stem keys := by
  have hmem (b) := Source.encoded_filed h hstem (b := b)
  obtain ⟨keys, hkeys⟩ := exists_map_toBytes fun b hb =>
    have ⟨key, _, _, e⟩ := (hmem b).1 hb
    ⟨key, e⟩
  have hkey (key) : key ∈ keys ↔ key ∈ Q ∧ index.stem key = stem := by
    have hbytes := hmem key.toBytes
    rw [hkeys, List.mem_map_of_injective fun _ _ => QuadKey.toBytes_inj.1] at hbytes
    rw [hbytes]
    constructor
    · rintro ⟨key', hkey', hbegins, e⟩
      exact QuadKey.toBytes_inj.1 e ▸ ⟨hkey', hbegins⟩
    · rintro ⟨hkey, hbegins⟩
      exact ⟨key, hkey, hbegins, rfl⟩
  have hpairwise := Source.encoded_pairwise (.entries index stem) c none
  rw [hkeys, List.pairwise_map] at hpairwise
  have hascending : keys.Pairwise (fun a b => compare a b = .lt) :=
    hpairwise.imp fun h => (QuadKey.compare_toBytes _ _).symm.trans h
  have hperm : keys.Perm (Q.filter (index.stem · == stem)) := by
    refine (List.perm_ext_iff_of_nodup (hascending.imp Table.ne_of_compare_lt) (hQ.filter _)).2
      fun key => ?_
    rw [hkey, List.mem_filter, beq_iff_eq]
  refine ⟨keys, hascending, fun key => ?_, fun limit hlimit => ?_, ?_⟩
  · rw [hkey, h.hasEntry, and_comm]
  · have hwidth : ∀ b ∈ (Source.entries index stem).encoded c none, b.length = QuadKey.width := by
      rw [hkeys]
      exact List.forall_mem_map.2 fun key _ => key.length_toBytes
    obtain ⟨page, hpage, hvalues⟩ := Source.page?_values hwidth limit
    rw [hkeys, List.take_of_length_le (by rwa [List.length_map])] at hvalues
    exact ⟨page, hpage, hvalues⟩
  · rw [h.entryCount hstem, hperm.length_eq]
    exact List.countP_eq_length_filter

theorem filedUnder_erase (Q : List QuadKey) (index : Index) (key : QuadKey) :
    filedUnder (Q.erase key) index (index.stem key) + (decide (key ∈ Q)).toNat =
      filedUnder Q index (index.stem key) := by
  unfold filedUnder
  by_cases hkey : key ∈ Q
  · rw [(List.perm_cons_erase hkey).countP_eq, List.countP_cons_of_pos (by simp),
      decide_eq_true hkey, Bool.toNat_true]
  · rw [List.erase_of_not_mem hkey, decide_eq_false hkey, Bool.toNat_false, Nat.add_zero]

theorem Filed.hasEntry_eq (h : Filed c index Q) : c.hasEntry index key = decide (key ∈ Q) := by
  rw [Bool.eq_iff_iff, h.hasEntry, decide_eq_true_eq]

theorem Indexed.tallied (hc : c.Indexed) : c.Tallied := by
  obtain ⟨F, hF⟩ := hc.filed
  -- one key less in an index, counted before and after
  have herased {c' : Contents} {index : Index} {key : QuadKey}
      (h' : Filed c' index ((F index).erase key)) :
      (c'.entryCount index (index.stem key)).toNat + (c.hasEntry index key).toNat =
        (c.entryCount index (index.stem key)).toNat := by
    have hwidth := index.length_stem key
    rw [h'.entryCount hwidth, (hF index).2.entryCount hwidth, (hF index).2.hasEntry_eq,
      filedUnder_erase]
  refine ⟨fun index stem hstem => (hF index).2.findsUnder (hF index).1 hstem, fun b hb => ?_,
    fst_addEntries c, fun key => ⟨fst_removeEntries c key, fun index => ?_⟩, fun index key => ?_⟩
  · obtain ⟨index, stem, hstem, rfl⟩ := hc.countsStems b (by rw [Table.contains, hb]; rfl)
    have hcount := (hF index).2.counts stem hstem
    rw [hb] at hcount
    unfold tally? at hcount
    split at hcount
    · cases hcount
    · next hne => exact hne (Option.some.inj hcount).symm
  · obtain ⟨hfiled, -⟩ :=
      Filed.removeEntries (fun index => (hF index).2) (fun index => (hF index).1) key
    exact herased (hfiled index)
  · exact herased ((hF index).2.removeEntry (hF index).1)

end Contents

namespace Store

open Contents

/-- Whatever is added to the indexes of a new store or removed from them, in transactions that are
committed or aborted, counts are those of the entries: after the transactions, and at any time in
another one. -/
theorem tallied_transacted {store : Store} {disk₀ created disk : Disk} {path : String} {config : Config}
    (hcreate : Store.create disk₀ path config = .ok (store, created))
    (h : Disk.Transacted Edits store.handle created disk) :
    ∃ c, disk.view store.handle = .ok c ∧ c.Tallied ∧ ∀ c', Edits c c' → c'.Tallied := by
  obtain ⟨c, hview, hc⟩ := h.keeps (view_create hcreate) indexed_empty fun _ _ hc hedits =>
    hedits.indexed hc
  exact ⟨c, hview, hc.tallied, fun c' hedits => (hedits.indexed hc).tallied⟩

/-- One entry of five is removed, and an abort forgets the others. -/
theorem tallied_unbalanced : ∃ (store : Store) (disk : Disk),
    Store.create {} "db" {} = .ok (store, disk) ∧
      let key : QuadKey := ⟨⟨1⟩, ⟨2⟩, ⟨3⟩, ⟨0⟩⟩
      let now := disk.commit ⟨store.handle,
        (({} : Contents).edited (.add key)).edited (.removeEntry .object key)⟩
      Disk.Transacted Edits store.handle disk now ∧
        ∃ c, now.view store.handle = .ok c ∧ c.Tallied ∧ ∀ c', Edits c c' → c'.Tallied := by
  have hcreate : Store.create {} "db" {} = .ok (_, _) := rfl
  refine ⟨_, _, hcreate, ?_⟩
  intro key now
  have hadd : ({} : Contents).AdmitsEdit (.add key) := fun index =>
    .inr (by cases index <;> decide)
  have hedits : Edits {} ((({} : Contents).edited (.add key)).edited (.removeEntry .object key)) :=
    .call _ (.call _ .none hadd) trivial
  have htransacted : Disk.Transacted Edits _ _ now :=
    .aborted (.committed .start (Disk.beginWrite_of_view (view_create hcreate)) hedits)
      (Disk.beginWrite_of_view (Disk.view_commit (view_create hcreate) _))
      (.call (.remove key) .none trivial)
  exact ⟨htransacted, tallied_transacted hcreate htransacted⟩

end Store

end GraphStore
