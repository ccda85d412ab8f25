import GraphStore.Proofs.Pass

/-!
# Whole scans

* `Source.Holds` : what is in a source, read one by one;
* `Cursor.Lists` : the steps of a cursor yield the listed values, and then none for ever, whatever the
  disk is at each step;
* `Cursor.lists_upcoming` : so it is for what a cursor has still to yield;
* `Store.Reached.scans` : after every run a scan from the beginning yields what is in the source, in
  order and each once, whatever the page size.
-/

namespace GraphStore

/-! ## What is in a source -/

namespace Source

variable {c : Contents} {source : Source}

def Holds (c : Contents) (r : Ref) : Source → Prop
  | nodes => ∃ id, r = .node id ∧ c.isLiveNode id = true
  | quads => ∃ key, r = .quad key ∧ c.isLive key = true
  | entries index stem =>
    ∃ key, r = .quad key ∧ index.stem key = stem ∧ c.hasEntry index key = true

theorem mem_rest_iff (hc : c.Sound) (hs : source.WellFormed) (r : Ref) :
    r ∈ source.rest c none ↔ source.Holds c r := by
  cases source with
  | nodes =>
    rw [mem_rest_nodes hc]
    exact exists_congr fun _ => and_comm
  | quads =>
    rw [mem_rest_quads hc]
    exact exists_congr fun _ => and_comm
  | entries index stem =>
    rw [mem_rest_entries hc hs]
    refine exists_congr fun key => ?_
    rw [hc.hasEntry]
    tauto

end Source

/-! ## Steps of a cursor -/

namespace Cursor

variable {c : Contents} {source : Source} {cursor : Cursor} {disk : Disk} {disks : Nat → Disk}
  {s : Snapshot} {values : List Ref}

/-- What the steps of a cursor answer, the one after `n` others on the disk as it is then. -/
def answers (disks : Nat → Disk) (cursor : Cursor) : Nat → Except StoreError (Option Ref)
  | 0 => (cursor.next (disks 0)).1
  | n + 1 => answers (fun i => disks (i + 1)) (cursor.next (disks 0)).2 n

/-- The steps yield the listed values in order, and then none for ever. -/
def Lists (disks : Nat → Disk) (cursor : Cursor) (values : List Ref) : Prop :=
  ∀ n, cursor.answers disks n = .ok values[n]?

theorem Finished.next (h : cursor.Finished) (disk : Disk) :
    (cursor.next disk).1 = .ok none ∧ (cursor.next disk).2.Finished := by
  obtain ⟨hbuffer, hexhausted⟩ := h
  unfold Cursor.next
  rw [hbuffer, hexhausted]
  exact ⟨rfl, rfl, rfl⟩

theorem Finished.lists (h : cursor.Finished) (disks : Nat → Disk) : cursor.Lists disks [] := by
  intro n
  induction n generalizing cursor disks with
  | zero => exact (h.next _).1
  | succ n ih => exact ih (h.next _).2 _

/-- A cursor that keeps a snapshot yields what is upcoming in it, on whatever disks its steps are. -/
theorem lists_upcoming (hc : c.Sound) (hs : cursor.source.WellFormed)
    (hheld : cursor.snapshot = some s) (hcontents : s.contents = c) (disks : Nat → Disk) :
    cursor.Lists disks (cursor.upcoming c) := by
  generalize hvalues : cursor.upcoming c = values
  intro n
  induction values generalizing cursor disks n with
  | nil =>
    obtain ⟨cursor', hnext, hfinished, -⟩ :=
      @next_of_nil c cursor (disks 0) s hc hs hheld hcontents hvalues
    cases n with
    | zero =>
      unfold answers
      rw [hnext]
      rfl
    | succ n =>
      unfold answers
      rw [hnext]
      exact hfinished.lists _ n
  | cons r tail ih =>
    obtain ⟨cursor', hnext, hupcoming, hheld', hreset⟩ :=
      @next_of_cons c cursor (disks 0) s r tail hc hs hheld hcontents hvalues
    have hsource : cursor'.source = cursor.source := (congrArg Cursor.source hreset :)
    cases n with
    | zero =>
      unfold answers
      rw [hnext]
      rfl
    | succ n =>
      unfold answers
      rw [hnext]
      exact ih (hsource ▸ hs) hheld' _ hupcoming n

/-! ## From the beginning -/

/-- A cursor over a source that is new, or that has started over after any use. -/
inductive Rewound (source : Source) : Cursor → Prop
  | start (handle : Handle) (pageSize : Nat) : Rewound source (.start handle source pageSize)
  | reset (used : Cursor) : used.source = source → Rewound source used.reset

theorem Rewound.source_eq (h : cursor.Rewound source) : cursor.source = source := by
  cases h with
  | start => rfl
  | reset used hsource => exact hsource

theorem Rewound.atStart (h : cursor.Rewound source) : cursor.AtStart := by
  cases h <;> exact ⟨rfl, rfl, rfl⟩

theorem Rewound.snapshot_eq (h : cursor.Rewound source) : cursor.snapshot = none := by
  cases h <;> rfl

theorem Rewound.lists_held (h : cursor.Rewound source) (hc : c.Sound) (hs : source.WellFormed)
    (hcontents : s.contents = c) (disks : Nat → Disk) :
    (cursor.setSnapshot (some s)).Lists disks (source.rest c none) := by
  have hsource : (cursor.setSnapshot (some s)).source = source := h.source_eq
  have hstart : (cursor.setSnapshot (some s)).AtStart := h.atStart
  have hupcoming : (cursor.setSnapshot (some s)).upcoming c = source.rest c none := by
    rw [hstart.upcoming, hsource]
  rw [← hupcoming]
  exact lists_upcoming hc (hsource ▸ hs) rfl hcontents disks

/-- Without a snapshot the first step takes one, and the others keep it. -/
theorem Rewound.lists_taken (h : cursor.Rewound source) (hc : c.Sound) (hs : source.WellFormed)
    (hview : (disks 0).view cursor.handle = .ok c) :
    cursor.Lists disks (source.rest c none) := by
  have hfirst : (cursor.setSnapshot (some ⟨cursor.handle, c⟩)).next (disks 0) =
      cursor.next (disks 0) :=
    next_setSnapshot (Disk.take_of_view hview) h.atStart ⟨rfl, h.snapshot_eq⟩
  intro n
  have hheld := h.lists_held (s := ⟨cursor.handle, c⟩) hc hs rfl disks n
  cases n with
  | zero =>
    unfold answers at hheld ⊢
    rwa [hfirst] at hheld
  | succ n =>
    unfold answers at hheld ⊢
    rwa [hfirst] at hheld

end Cursor

/-! ## After every run -/

structure Source.Scanned (c : Contents) (source : Source) (values : List Ref) : Prop where
  /-- Nodes come in the order of their numbers, quads in that of their subjects, then predicates, objects
  and labels. -/
  ascending : values.Pairwise (fun r r' => compare r r' = .lt)
  holds : ∀ r, r ∈ values ↔ source.Holds c r
  /-- A cursor that was given a snapshot of the contents reads it, whatever is committed by then. -/
  held : ∀ cursor : Cursor, cursor.Rewound source → ∀ s : Snapshot, s.contents = c →
    ∀ disks, (cursor.setSnapshot (some s)).Lists disks values
  /-- Otherwise a cursor reads the contents that are committed at its first step, whatever is committed
  later. -/
  taken : ∀ cursor : Cursor, cursor.Rewound source → ∀ disks : Nat → Disk,
    (disks 0).view cursor.handle = .ok c → cursor.Lists disks values

namespace Store

/-- After every run, a scan of any size of pages yields what is in its source, in order and each once. -/
theorem Reached.scans {store : Store} {disk : Disk} {source : Source} (h : store.Reached disk)
    (hs : source.WellFormed) :
    ∃ c values, disk.view store.handle = .ok c ∧ source.Scanned c values := by
  obtain ⟨c, hview, hc⟩ := h.sound
  refine ⟨c, source.rest c none, hview, source.rest_pairwise c none, source.mem_rest_iff hc hs,
    fun cursor hcursor s hcontents disks => ?_, fun cursor hcursor disks hdisk => ?_⟩
  · exact hcursor.lists_held hc hs hcontents disks
  · exact hcursor.lists_taken hc hs hdisk

theorem scans_first_quad : ∃ (store : Store) (disk : Disk),
    Store.create {} "db" {} = .ok (store, disk) ∧
      let now := store.after disk (.add {} ⟨"alice", "follows", "bob", ""⟩)
      let source := Source.entries .subjectPredicate (NodeId.toBytes ⟨1⟩ ++ NodeId.toBytes ⟨2⟩)
      source.WellFormed ∧
        ∃ c values, now.view store.handle = .ok c ∧ source.Scanned c values := by
  have hcreate : Store.create {} "db" {} = .ok (_, _) := rfl
  refine ⟨_, _, hcreate, ?_⟩
  intro now source
  have hreached : Store.Reached _ now := .wrote _ (.created hcreate) (admitsOne_created hcreate)
  have hsource : source.WellFormed := by
    change (NodeId.toBytes ⟨1⟩ ++ NodeId.toBytes ⟨2⟩).length = _
    rw [List.length_append, NodeId.length_toBytes, NodeId.length_toBytes]
    rfl
  exact ⟨hsource, hreached.scans hsource⟩

end Store

end GraphStore
