import GraphStore.Proofs.ByteOrder
import GraphStore.Proofs.Chunks
import GraphStore.Proofs.Consistency
import GraphStore.Proofs.StemRange
import GraphStore.Query.Cursor

/-!
# Paged scans

* `Source.rest` : all values of a source after a resume point, in order;
* `Source.fetch_eq` : a page is the beginning of the rest;
* `Cursor.upcoming` : the values a cursor has still to yield, which `Cursor.next_of_cons` takes
  off one by one.
-/

namespace GraphStore

/-! ## Sources -/

namespace Source

variable {c : Contents} {source : Source} {after : Option Ref} {r : Ref}

def ofCategory : Category → Source
  | .nodes => nodes
  | .quads => quads

/-- The stem of index entries has its full width. -/
def WellFormed : Source → Prop
  | entries index stem => stem.length = index.stemWidth
  | _ => True

theorem ofCategory_wellFormed (category : Category) : (ofCategory category).WellFormed := by
  cases category <;> trivial

def width : Source → Nat
  | nodes => NodeId.width
  | quads | entries .. => QuadKey.width

def start {α : Type} : Option α → Bound α
  | some value => .excluded value
  | none => .unbounded

/-- All values after a resume point, in order and still encoded. -/
def encoded (c : Contents) (after : Option Ref) : Source → List Bytes
  | nodes =>
    (c.degrees.between (start (after.bind Ref.asNode?)) .unbounded).map (·.1.toBytes)
  | quads =>
    (c.quads.between (start ((after.bind Ref.asQuad?).map QuadKey.toBytes)) .unbounded).map
      Prod.fst
  | entries index stem =>
    (Contents.stemRange (c.indexes.get index) stem
      ((after.bind Ref.asQuad?).map QuadKey.toBytes)).map (·.1.drop stem.length)

def rest (c : Contents) (after : Option Ref) (source : Source) : List Ref :=
  (source.encoded c after).filterMap source.decode?

theorem filterMap_take {α β : Type} {f : α → Option β} {l : List α}
    (h : ∀ a ∈ l, (f a).isSome = true) (n : Nat) :
    (l.take n).filterMap f = (l.filterMap f).take n := by
  induction l generalizing n with
  | nil => simp
  | cons a rest ih =>
    obtain ⟨ha, hrest⟩ := List.forall_mem_cons.1 h
    obtain ⟨b, hb⟩ := Option.isSome_iff_exists.1 ha
    cases n with
    | zero => rfl
    | succ n =>
      rw [List.take_succ_cons, List.filterMap_cons_some hb, List.filterMap_cons_some hb,
        List.take_succ_cons, ih hrest]

theorem length_filterMap {α β : Type} {f : α → Option β} {l : List α}
    (h : ∀ a ∈ l, (f a).isSome = true) : (l.filterMap f).length = l.length := by
  rw [List.length_filterMap_eq_countP, List.countP_eq_length]
  exact h

theorem page?_eq (source : Source) (c : Contents) (after : Option Ref) (limit : Nat) :
    source.page? c after limit = (do
      let page ← Page.empty? (.ofNat source.width)
      page.appendAll ((source.encoded c after).take limit)) := by
  cases source with
  | nodes =>
    unfold page? Contents.livePage? encoded
    rw [← List.map_take]
    cases after.bind Ref.asNode? <;> rfl
  | quads =>
    unfold page? Contents.quadsPage? encoded
    rw [← List.map_take]
    cases after.bind Ref.asQuad? <;> rfl
  | entries index stem =>
    simp only [page?, encoded, Contents.entriesPage?, Contents.valuesUnder?,
      Contents.keysUnder_eq, List.map_map, ← List.map_take]
    rfl

theorem countAfter_eq (source : Source) (c : Contents) (after : Option Ref) :
    source.countAfter c after = (source.encoded c after).length := by
  cases source with
  | nodes =>
    unfold countAfter encoded
    rw [List.length_map]
    cases after.bind Ref.asNode? <;> rfl
  | quads =>
    unfold countAfter encoded
    rw [List.length_map]
    cases after.bind Ref.asQuad? <;> rfl
  | entries index stem =>
    simp only [countAfter, encoded, Contents.keysUnder_eq, List.length_map, List.length_take]
    exact Nat.min_eq_right (Table.length_between_le _ _ _)

/-! ### Decoding -/

theorem decode?_node {b : Bytes} :
    nodes.decode? b = some r ↔ ∃ id : NodeId, b = id.toBytes ∧ r = .node id := by
  unfold decode?
  rw [Option.map_eq_some_iff]
  exact exists_congr fun id => and_congr NodeId.ofBytes?_eq_some_iff eq_comm

theorem decode?_quad (source : Source) {b : Bytes} (h : source ≠ nodes) :
    source.decode? b = some r ↔ ∃ key : QuadKey, b = key.toBytes ∧ r = .quad key := by
  cases source with
  | nodes => exact absurd rfl h
  | quads | entries =>
    unfold decode?
    rw [Option.map_eq_some_iff]
    exact exists_congr fun key => and_congr QuadKey.ofBytes?_eq_some_iff eq_comm

theorem length_of_decode? {b : Bytes} (h : source.decode? b = some r) :
    b.length = source.width := by
  by_cases hs : source = nodes
  · subst hs
    obtain ⟨id, rfl, -⟩ := decode?_node.1 h
    exact id.length_toBytes
  · obtain ⟨key, rfl, -⟩ := (decode?_quad _ hs).1 h
    cases source with
    | nodes => exact absurd rfl hs
    | quads | entries => exact key.length_toBytes

theorem mem_stemRange_iff {index : Index} {Q : List QuadKey} (h : Contents.Filed c index Q)
    {stem : Bytes} (hstem : stem.length = index.stemWidth) {e : Bytes × Unit} :
    e ∈ Contents.stemRange (c.indexes.get index) stem none ↔
      ∃ key ∈ Q, index.stem key = stem ∧ e = (stem ++ key.toBytes, ()) := by
  obtain ⟨b, u⟩ := e
  have hcontains : (c.indexes.get index).get? b = some u ↔
      (c.indexes.get index).contains b = true := by
    unfold Table.contains
    cases (c.indexes.get index).get? b <;> simp
  rw [Contents.mem_stemRange, hcontains, h.entries]
  constructor
  · rintro ⟨⟨key, hkey, rfl⟩, hprefix⟩
    rw [Index.prefix_entry_iff hstem] at hprefix
    exact ⟨key, hkey, hprefix, by rw [Index.entry, hprefix]⟩
  · rintro ⟨key, hkey, hprefix, he⟩
    obtain ⟨rfl, -⟩ := Prod.mk.injEq .. ▸ he
    exact ⟨⟨key, hkey, by rw [Index.entry, hprefix]⟩, List.prefix_append _ _⟩

theorem encoded_filed {index : Index} {Q : List QuadKey} (h : Contents.Filed c index Q)
    {stem : Bytes} (hstem : stem.length = index.stemWidth) {b : Bytes} :
    b ∈ (entries index stem).encoded c none ↔ ∃ key ∈ Q, index.stem key = stem ∧ b = key.toBytes := by
  simp only [encoded, List.mem_map, Option.bind_none, Option.map_none, mem_stemRange_iff h hstem]
  constructor
  · rintro ⟨e, ⟨key, hkey, hprefix, rfl⟩, rfl⟩
    exact ⟨key, hkey, hprefix, List.drop_left⟩
  · rintro ⟨key, hkey, hprefix, rfl⟩
    exact ⟨_, ⟨key, hkey, hprefix, rfl⟩, List.drop_left⟩

/-! ### The rest of a source -/

theorem encoded_nodes_eq (c : Contents) :
    nodes.encoded c none = c.degrees.keys.map NodeId.toBytes := by
  unfold encoded Table.keys
  rw [List.map_map]
  exact congrArg (List.map _) (Table.between_unbounded _)

theorem encoded_quads_eq (c : Contents) : quads.encoded c none = c.quads.keys :=
  congrArg (List.map Prod.fst) (Table.between_unbounded _)

theorem encoded_nodes (hc : c.Sound) {b : Bytes} :
    b ∈ nodes.encoded c none ↔ ∃ id, c.isLiveNode id = true ∧ b = id.toBytes := by
  rw [encoded_nodes_eq, List.mem_map]
  refine exists_congr fun id => and_congr ?_ eq_comm
  rw [Table.mem_keys, hc.counted.isLiveNode]

theorem encoded_quads (hc : c.Sound) {b : Bytes} :
    b ∈ quads.encoded c none ↔ ∃ key, c.isLive key = true ∧ b = key.toBytes := by
  rw [encoded_quads_eq, Table.mem_keys]
  constructor
  · intro hb
    obtain ⟨key, rfl⟩ := hc.encoded b hb
    exact ⟨key, hb, rfl⟩
  · rintro ⟨key, hkey, rfl⟩
    exact hkey

theorem encoded_entries (hc : c.Sound) {index : Index} {stem : Bytes}
    (hstem : stem.length = index.stemWidth) {b : Bytes} :
    b ∈ (entries index stem).encoded c none ↔
      ∃ key, c.isLive key = true ∧ index.stem key = stem ∧ b = key.toBytes := by
  simp only [encoded_filed (hc.filed index) hstem, Contents.mem_liveKeys]

theorem encoded_subset (source : Source) (c : Contents) (after : Option Ref) :
    source.encoded c after ⊆ source.encoded c none := by
  cases source with
  | nodes =>
    refine List.map_subset _ fun e he => ?_
    obtain ⟨hget, -, hhi⟩ := Table.mem_between.1 he
    exact Table.mem_between.2 ⟨hget, rfl, hhi⟩
  | quads =>
    refine List.map_subset _ fun e he => ?_
    obtain ⟨hget, -, hhi⟩ := Table.mem_between.1 he
    exact Table.mem_between.2 ⟨hget, rfl, hhi⟩
  | entries index stem => exact List.map_subset _ (Contents.stemRange_subset _ _ _)

theorem decode?_isSome (hc : c.Sound) (hs : source.WellFormed) :
    ∀ b ∈ source.encoded c after, (source.decode? b).isSome = true := by
  intro b hb
  have hb := encoded_subset source c after hb
  cases source with
  | nodes =>
    obtain ⟨id, -, rfl⟩ := (encoded_nodes hc).1 hb
    rw [decode?_node.2 ⟨id, rfl, rfl⟩]
    rfl
  | quads =>
    obtain ⟨key, -, rfl⟩ := (encoded_quads hc).1 hb
    rw [(decode?_quad .quads nofun).2 ⟨key, rfl, rfl⟩]
    rfl
  | entries index stem =>
    obtain ⟨key, -, -, rfl⟩ := (encoded_entries hc hs).1 hb
    rw [(decode?_quad (.entries index stem) nofun).2 ⟨key, rfl, rfl⟩]
    rfl

/-- A page has the first values after its resume point, as they are encoded. -/
theorem page?_values {after : Option Ref}
    (hwidth : ∀ b ∈ source.encoded c after, b.length = source.width) (limit : Nat) :
    ∃ page, source.page? c after limit = .ok page ∧
      page.values = (source.encoded c after).take limit := by
  have hstride : (UInt64.ofNat source.width).toNat = source.width := by cases source <;> rfl
  have hpos : 0 < (UInt64.ofNat source.width).toNat := by
    rw [hstride]
    cases source <;> exact Nat.zero_lt_succ _
  obtain ⟨page, hpage, -, hvalues⟩ := Page.values_of_appendAll hpos fun b hb =>
    (hwidth b (List.mem_of_mem_take hb)).trans hstride.symm
  exact ⟨page, (page?_eq source c after limit).trans hpage, hvalues⟩

/-- A page is the beginning of the rest. -/
theorem fetch_eq (hc : c.Sound) (hs : source.WellFormed) (after : Option Ref) (limit : Nat) :
    source.fetch c after limit = .ok ((source.rest c after).take limit) := by
  have hsome : ∀ b ∈ source.encoded c after, (source.decode? b).isSome = true :=
    decode?_isSome hc hs
  have hwidth : ∀ b ∈ source.encoded c after, b.length = source.width := by
    intro b hb
    obtain ⟨r, hr⟩ := Option.isSome_iff_exists.1 (hsome b hb)
    exact length_of_decode? hr
  obtain ⟨page, hpage, hvalues⟩ := page?_values hwidth limit
  unfold fetch rest
  rw [hpage]
  simp only
  rw [hvalues, filterMap_take hsome]

theorem length_rest (hc : c.Sound) (hs : source.WellFormed) (after : Option Ref) :
    (source.rest c after).length = source.countAfter c after := by
  rw [countAfter_eq]
  exact length_filterMap (decode?_isSome hc hs)

theorem rest_after {before tail : List Ref} (h : source.rest c after = before ++ r :: tail) :
    source.rest c (some r) = tail := by
  unfold rest at h
  obtain ⟨l₁, l₂, hencoded, -, hl₂⟩ := List.filterMap_eq_append_iff.1 h
  obtain ⟨l₃, b, l₄, rfl, -, hb, rfl⟩ := List.filterMap_eq_cons_iff.1 hl₂
  rw [← List.append_assoc] at hencoded
  unfold rest
  refine congrArg (List.filterMap _) ?_
  cases source with
  | nodes =>
    obtain ⟨id, rfl, rfl⟩ := decode?_node.1 hb
    obtain ⟨m₁, m₂, hbetween, -, hm₂⟩ := List.map_eq_append_iff.1 hencoded
    obtain ⟨e, m₃, rfl, he, rfl⟩ := List.map_eq_cons_iff.1 hm₂
    obtain rfl := NodeId.toBytes_inj.1 he
    exact congrArg (List.map _) (Table.between_after hbetween)
  | quads =>
    obtain ⟨key, rfl, rfl⟩ := (decode?_quad .quads nofun).1 hb
    obtain ⟨m₁, m₂, hbetween, -, hm₂⟩ := List.map_eq_append_iff.1 hencoded
    obtain ⟨e, m₃, rfl, he, rfl⟩ := List.map_eq_cons_iff.1 hm₂
    have hafter := Table.between_after hbetween
    rw [he] at hafter
    exact congrArg (List.map _) hafter
  | entries index stem =>
    obtain ⟨key, rfl, rfl⟩ := (decode?_quad (.entries index stem) nofun).1 hb
    obtain ⟨m₁, m₂, hrange, -, hm₂⟩ := List.map_eq_append_iff.1 hencoded
    obtain ⟨e, m₃, rfl, he, rfl⟩ := List.map_eq_cons_iff.1 hm₂
    have hmem : e ∈ Contents.stemRange (c.indexes.get index) stem
        ((after.bind Ref.asQuad?).map QuadKey.toBytes) := by
      rw [hrange]
      exact List.mem_append_right _ List.mem_cons_self
    have hprefix := Contents.mem_stemRange.1 (Contents.stemRange_subset _ _ _ hmem)
    obtain ⟨value, hvalue⟩ := hprefix.2
    obtain ⟨k, u⟩ := e
    subst hvalue
    simp only [List.drop_left] at he
    subst he
    exact congrArg (List.map _) (Contents.stemRange_after hrange)

/-- A page without its first value, and what comes after the page. A page that is not full is the
last one. -/
theorem take_append_rest {tail : List Ref} {limit : Nat} (h : source.rest c after = r :: tail)
    (hlimit : 0 < limit) :
    tail.take (limit - 1) ++ (if ((r :: tail).take limit).length < limit then []
      else source.rest c ((r :: tail).take limit).getLast?) = tail := by
  split
  · next hshort =>
    rw [List.length_take, List.length_cons] at hshort
    rw [List.append_nil, List.take_of_length_le (by omega)]
  · have hne : (r :: tail).take limit ≠ [] := by
      rw [List.take_cons hlimit]
      exact List.cons_ne_nil _ _
    have hsplit : source.rest c after = ((r :: tail).take limit).dropLast ++
        ((r :: tail).take limit).getLast hne :: (r :: tail).drop limit := by
      rw [List.append_cons, List.dropLast_append_getLast, List.take_append_drop, h]
    rw [List.getLast?_eq_some_getLast hne, rest_after hsplit]
    obtain ⟨size, rfl⟩ := Nat.exists_eq_succ_of_ne_zero (Nat.ne_of_gt hlimit)
    rw [List.drop_succ_cons, Nat.succ_sub_one, List.take_append_drop]

/-! ### Everything in a source -/

theorem mem_rest_nodes (hc : c.Sound) :
    r ∈ nodes.rest c none ↔ ∃ id, c.isLiveNode id = true ∧ r = .node id := by
  unfold rest
  simp only [List.mem_filterMap, encoded_nodes hc, decode?_node]
  constructor
  · rintro ⟨b, ⟨id, hid, rfl⟩, id', hb, rfl⟩
    exact ⟨id', NodeId.toBytes_inj.1 hb ▸ hid, rfl⟩
  · rintro ⟨id, hid, rfl⟩
    exact ⟨_, ⟨id, hid, rfl⟩, id, rfl, rfl⟩

theorem mem_rest_quads (hc : c.Sound) :
    r ∈ quads.rest c none ↔ ∃ key, c.isLive key = true ∧ r = .quad key := by
  unfold rest
  simp only [List.mem_filterMap, encoded_quads hc, decode?_quad .quads nofun]
  constructor
  · rintro ⟨b, ⟨key, hkey, rfl⟩, key', hb, rfl⟩
    exact ⟨key', QuadKey.toBytes_inj.1 hb ▸ hkey, rfl⟩
  · rintro ⟨key, hkey, rfl⟩
    exact ⟨_, ⟨key, hkey, rfl⟩, key, rfl, rfl⟩

theorem mem_rest_entries (hc : c.Sound) {index : Index} {stem : Bytes}
    (hstem : stem.length = index.stemWidth) :
    r ∈ (entries index stem).rest c none ↔
      ∃ key, c.isLive key = true ∧ index.stem key = stem ∧ r = .quad key := by
  unfold rest
  simp only [List.mem_filterMap, encoded_entries hc hstem, decode?_quad (.entries index stem) nofun]
  constructor
  · rintro ⟨b, ⟨key, hkey, hprefix, rfl⟩, key', hb, rfl⟩
    obtain rfl := QuadKey.toBytes_inj.1 hb
    exact ⟨key, hkey, hprefix, rfl⟩
  · rintro ⟨key, hkey, hprefix, rfl⟩
    exact ⟨_, ⟨key, hkey, hprefix, rfl⟩, key, rfl, rfl⟩

/-! ### The order of a source -/

/-- Encoded values come in the order of their bytes. -/
theorem encoded_pairwise (source : Source) (c : Contents) (after : Option Ref) :
    (source.encoded c after).Pairwise (fun a b => compare a b = .lt) := by
  unfold encoded
  cases source with
  | nodes =>
    refine List.pairwise_map.2 ((Table.between_pairwise _ _ _).imp fun h => ?_)
    rwa [NodeId.compare_toBytes]
  | quads => exact List.pairwise_map.2 (Table.between_pairwise _ _ _)
  | entries index stem =>
    have hpairwise := Table.between_pairwise (c.indexes.get index)
      (Contents.stemStart stem ((after.bind Ref.asQuad?).map QuadKey.toBytes))
      (Contents.stemEnd stem)
    refine List.pairwise_map.2 (hpairwise.imp_of_mem fun ha hb h => ?_)
    obtain ⟨va, ha⟩ := (Contents.mem_stemRange.1 (Contents.stemRange_subset _ _ _ ha)).2
    obtain ⟨vb, hb⟩ := (Contents.mem_stemRange.1 (Contents.stemRange_subset _ _ _ hb)).2
    rw [← ha, ← hb, Bytes.compare_append_left] at h
    rwa [← ha, ← hb, List.drop_left, List.drop_left]

/-- Values are ordered as their encodings. -/
theorem compare_of_decode? {a b : Bytes} {r' : Ref} (ha : source.decode? a = some r)
    (hb : source.decode? b = some r') : compare r r' = compare a b := by
  by_cases hs : source = nodes
  · subst hs
    obtain ⟨id, rfl, rfl⟩ := decode?_node.1 ha
    obtain ⟨id', rfl, rfl⟩ := decode?_node.1 hb
    exact (NodeId.compare_toBytes id id').symm
  · obtain ⟨key, rfl, rfl⟩ := (decode?_quad _ hs).1 ha
    obtain ⟨key', rfl, rfl⟩ := (decode?_quad _ hs).1 hb
    exact (QuadKey.compare_toBytes key key').symm

theorem rest_pairwise (source : Source) (c : Contents) (after : Option Ref) :
    (source.rest c after).Pairwise (fun r r' => compare r r' = .lt) :=
  (source.encoded_pairwise c after).filterMap _ fun _ _ h _ ha _ hb =>
    (compare_of_decode? ha hb).trans h

theorem rest_nodup (source : Source) (c : Contents) : (source.rest c none).Nodup :=
  (source.rest_pairwise c none).imp Table.ne_of_compare_lt

end Source

/-! ## Cursors -/

namespace Cursor

variable {c : Contents} {cursor cursor' : Cursor} {disk : Disk} {s : Snapshot} {r : Ref}
  {tail : List Ref}

/-- The values still to come, in order. -/
def upcoming (c : Contents) (cursor : Cursor) : List Ref :=
  cursor.buffer ++ if cursor.exhausted then [] else cursor.source.rest c cursor.resume

def AtStart (cursor : Cursor) : Prop :=
  cursor.buffer = [] ∧ cursor.resume = none ∧ cursor.exhausted = false

theorem AtStart.upcoming (h : cursor.AtStart) : cursor.upcoming c = cursor.source.rest c none := by
  obtain ⟨hbuffer, hresume, hexhausted⟩ := h
  unfold Cursor.upcoming
  rw [hbuffer, hresume, hexhausted]
  rfl

/-- A cursor that has fetched the last page and yielded all of it. -/
def Finished (cursor : Cursor) : Prop := cursor.buffer = [] ∧ cursor.exhausted = true

theorem remaining_eq (hc : c.Sound) (hs : cursor.source.WellFormed) {imposed : Option Snapshot}
    (hview : cursor.contents disk imposed = .ok c) :
    cursor.remaining disk imposed = (cursor.upcoming c).length := by
  unfold remaining upcoming
  rw [List.length_append, hview]
  split
  · rfl
  · rw [Source.length_rest hc hs]

/-- At the end of the source nothing comes, and the snapshot is let go. -/
theorem next_of_nil (hc : c.Sound) (hs : cursor.source.WellFormed)
    (hheld : cursor.snapshot = some s) (hcontents : s.contents = c)
    (h : cursor.upcoming c = []) : ∃ cursor', cursor.next disk = (.ok none, cursor') ∧
      cursor'.Finished ∧ cursor'.snapshot = none ∧ cursor'.reset = cursor.reset := by
  obtain ⟨hbuffer, hrest⟩ := List.append_eq_nil_iff.1 h
  unfold next
  rw [hbuffer]
  simp only
  split
  · next hexhausted => exact ⟨_, rfl, ⟨rfl, hexhausted⟩, rfl, rfl⟩
  · next hexhausted =>
    rw [if_neg hexhausted] at hrest
    have hview : cursor.view disk none = .ok s := by
      unfold view
      rw [hheld]
      rfl
    rw [hview]
    simp only
    rw [hcontents, Source.fetch_eq hc hs, hrest, List.take_nil]
    -- a page without values is short of the page size, which is not zero
    exact ⟨_, rfl, ⟨rfl, decide_eq_true cursor.pageSize_pos⟩, rfl, rfl⟩

/-- Otherwise the first value that is to come, after which the others are. -/
theorem next_of_cons (hc : c.Sound) (hs : cursor.source.WellFormed)
    (hheld : cursor.snapshot = some s) (hcontents : s.contents = c)
    (h : cursor.upcoming c = r :: tail) : ∃ cursor', cursor.next disk = (.ok (some r), cursor') ∧
      cursor'.upcoming c = tail ∧ cursor'.snapshot = some s ∧ cursor'.reset = cursor.reset := by
  unfold next
  unfold upcoming at h
  cases hbuffer : cursor.buffer with
  | cons r' rest =>
    rw [hbuffer, List.cons_append, List.cons.injEq] at h
    obtain ⟨rfl, htail⟩ := h
    exact ⟨_, rfl, htail, hheld, rfl⟩
  | nil =>
    rw [hbuffer, List.nil_append] at h
    simp only
    split
    · next hexhausted =>
      rw [if_pos hexhausted] at h
      cases h
    · next hexhausted =>
      rw [if_neg hexhausted] at h
      have hview : cursor.view disk none = .ok s := by
        unfold view
        rw [hheld]
        rfl
      rw [hview]
      simp only
      rw [hcontents, Source.fetch_eq hc hs, h]
      rw [List.take_cons cursor.pageSize_pos]
      refine ⟨_, rfl, ?_, rfl, rfl⟩
      unfold upcoming
      simp only [decide_eq_true_eq]
      rw [← List.take_cons cursor.pageSize_pos]
      exact Source.take_append_rest h cursor.pageSize_pos

end Cursor

end GraphStore
