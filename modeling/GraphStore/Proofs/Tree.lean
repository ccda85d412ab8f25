import GraphStore.Proofs.Paging
import GraphStore.Query.Next

/-!
# Query trees

* `Query.induct` : induction over trees, with a hypothesis for every child;
* `Query.Over` : all parts read through one handle, and what holds of the snapshots they keep;
* `Query.WellFormed` : each part scans what its form says;
* `Query.AtStart` : no part has made progress;
* `Query.bare` : the tree without results and snapshots, which being asked does not change;
* `Query.Settled` : the results along the paths that bind names belong to one result.
-/

namespace GraphStore

/-! ## Scans -/

/-- A scan reads the stem of its bound positions in the index of those positions. -/
structure Scan.WellFormed (scan : Scan) : Prop where
  directions : scan.bound.map Prod.fst = scan.index.directions
  source : scan.cursor.source = .entries scan.index scan.stem

theorem Scan.WellFormed.length_stem {scan : Scan} (h : scan.WellFormed) :
    scan.stem.length = scan.index.stemWidth := by
  have hlength : (scan.bound.map fun b => b.2.toBytes.length) =
      scan.bound.map fun _ => NodeId.width :=
    List.map_congr_left fun b _ => b.2.length_toBytes
  unfold Scan.stem Scan.stemOf Index.stemWidth
  rw [← h.directions, List.length_map, List.length_flatMap, hlength, List.map_const',
    List.sum_replicate_nat]

theorem Scan.WellFormed.sourceWellFormed {scan : Scan} (h : scan.WellFormed) :
    scan.cursor.source.WellFormed := by
  rw [h.source]
  exact h.length_stem

theorem Scan.WellFormed.stem_eq_iff {scan : Scan} (h : scan.WellFormed) {key : QuadKey} :
    scan.index.stem key = scan.stem ↔ scan.fits key = true := by
  have hkey : scan.index.stem key = (scan.bound.map fun b => key.get b.1).flatMap
      NodeId.toBytes := by
    rw [Index.stem_eq, ← h.directions, List.map_map]
    rfl
  have hscan : scan.stem = (scan.bound.map Prod.snd).flatMap NodeId.toBytes := by
    rw [List.flatMap_map]
    rfl
  rw [hkey, hscan, NodeId.flatMap_toBytes_inj (by simp), List.map_inj_left]
  unfold Scan.fits
  simp only [List.all_eq_true, beq_iff_eq]

theorem Scan.ofDirection_wellFormed (handle : Handle) (pageSize : Nat) (direction : Direction)
    (id : NodeId) : (Scan.ofDirection handle pageSize direction id).WellFormed where
  directions := (Index.directions_ofDirection direction).symm
  source := rfl

theorem Scan.setSnapshot_wellFormed {scan : Scan} (h : scan.WellFormed)
    (snapshot : Option Snapshot) : (scan.setSnapshot snapshot).WellFormed :=
  ⟨h.directions, h.source⟩

/-! ## Parts without progress, results or snapshots -/

/-- A cursor that reads through a handle, with a property of the snapshot it keeps. -/
structure Cursor.Over (P : Option Snapshot → Prop) (handle : Handle) (cursor : Cursor) : Prop where
  handle_eq : cursor.handle = handle
  snapshot : P cursor.snapshot

theorem Cursor.copy_eq_reset (cursor : Cursor) : cursor.copy = cursor.reset := by
  have hsize : max cursor.pageSize 1 = cursor.pageSize := Nat.max_eq_left cursor.pageSize_pos
  unfold copy start reset
  simp only [hsize]

def Frame.bare (frame : Frame) : Frame := { frame with result := none }

def Scan.bare (scan : Scan) : Scan :=
  { scan with frame := scan.frame.bare, cursor := scan.cursor.setSnapshot none }

namespace Query

/-- Induction over trees, with a hypothesis for every child. -/
theorem induct {motive : Query → Prop}
    (all : ∀ frame category cursor, motive (.all frame category cursor))
    (fixed : ∀ frame values index, motive (.fixed frame values index))
    (position : ∀ scan, motive (.position scan))
    (links : ∀ frame handle pageSize direction primary inner snapshot, motive primary →
      motive (.links frame handle pageSize direction primary inner snapshot))
    (inter : ∀ frame children driver snapshot, (∀ q ∈ children, motive q) →
      motive (.inter frame children driver snapshot)) (q : Query) : motive q :=
  @Query.rec motive (fun qs => ∀ q ∈ qs, motive q) all fixed position links inter
    (fun _ hq => nomatch hq)
    (fun _ _ hq hrest => List.forall_mem_cons.2 ⟨hq, hrest⟩) q

/-! ### Functions of lists of trees -/

theorem setSnapshotAll_eq (snapshot : Option Snapshot) (qs : List Query) :
    setSnapshotAll snapshot qs = qs.map (setSnapshot snapshot) := by
  induction qs with
  | nil => rfl
  | cons q rest ih => rw [setSnapshotAll, ih, List.map_cons]

theorem resetAll_eq (qs : List Query) : resetAll qs = qs.map reset := by
  induction qs with
  | nil => rfl
  | cons q rest ih => rw [resetAll, ih, List.map_cons]

theorem copyAll_eq (qs : List Query) : copyAll qs = qs.map copy := by
  induction qs with
  | nil => rfl
  | cons q rest ih => rw [copyAll, ih, List.map_cons]

theorem firstHandle?_eq (qs : List Query) :
    firstHandle? qs = (qs.map handle?).findSome? fun h => h := by
  induction qs with
  | nil => rfl
  | cons q rest ih =>
    rw [firstHandle?, ih, List.map_cons, List.findSome?_cons]
    cases q.handle? <;> rfl

theorem firstHandle?_eq_none_iff {qs : List Query} :
    firstHandle? qs = none ↔ ∀ q ∈ qs, q.handle? = none := by
  rw [firstHandle?_eq, List.findSome?_eq_none_iff, List.forall_mem_map]

/-! ### One handle -/

/-- All parts read through one handle, with a property of the snapshots they keep. An
intersection of listed values only may keep any. -/
inductive Over (P : Option Snapshot → Prop) (handle : Handle) : Query → Prop
  | all {frame category cursor} :
      cursor.Over P handle → Over P handle (.all frame category cursor)
  | fixed {frame values index} : Over P handle (.fixed frame values index)
  | position {scan} : scan.cursor.Over P handle → Over P handle (.position scan)
  | links {frame pageSize direction primary inner snapshot} :
      P snapshot → Over P handle primary → (∀ scan ∈ inner, scan.cursor.Over P handle) →
        Over P handle (.links frame handle pageSize direction primary inner snapshot)
  | inter {frame children driver snapshot} :
      (∀ q ∈ children, Over P handle q) → (firstHandle? children ≠ none → P snapshot) →
        Over P handle (.inter frame children driver snapshot)

variable {P P' : Option Snapshot → Prop} {handle : Handle} {q q' : Query} {r : Ref}
  {snapshot : Option Snapshot} {children children' : List Query}

theorem Over.handle? (h : Over P handle q) : q.handle? = none ∨ q.handle? = some handle := by
  induction h with
  | all h | position h => exact .inr (congrArg some h.handle_eq)
  | fixed => exact .inl rfl
  | links => exact .inr rfl
  | @inter frame children driver snapshot _ _ ih =>
    unfold Query.handle?
    rw [firstHandle?_eq]
    cases hfirst : (children.map Query.handle?).findSome? fun h => h with
    | none => exact .inl rfl
    | some h' =>
      obtain ⟨h, hmem, rfl⟩ := List.exists_of_findSome?_eq_some hfirst
      obtain ⟨q, hq, hh⟩ := List.mem_map.1 hmem
      rcases ih q hq with hnone | hsome
      · rw [hnone] at hh
        cases hh
      · exact .inr (hh.symm.trans hsome)

theorem Over.imp (h : Over P handle q) (himp : ∀ s, P s → P' s) : Over P' handle q := by
  induction h with
  | all h => exact .all ⟨h.handle_eq, himp _ h.snapshot⟩
  | fixed => exact .fixed
  | position h => exact .position ⟨h.handle_eq, himp _ h.snapshot⟩
  | links hs _ hinner ih =>
    exact .links (himp _ hs) ih fun scan hscan =>
      ⟨(hinner scan hscan).handle_eq, himp _ (hinner scan hscan).snapshot⟩
  | inter _ hs ih => exact .inter ih fun hne => himp _ (hs hne)

theorem handle?_setSnapshot (snapshot : Option Snapshot) (q : Query) :
    (q.setSnapshot snapshot).handle? = q.handle? := by
  induction q using induct with
  | all | fixed | position | links => rfl
  | inter frame children driver s ih =>
    unfold setSnapshot handle?
    rw [setSnapshotAll_eq, firstHandle?_eq, firstHandle?_eq, List.map_map]
    exact congrArg _ (List.map_congr_left ih)

theorem Over.setSnapshot (h : Over P handle q) (hs : P' snapshot) :
    Over P' handle (q.setSnapshot snapshot) := by
  induction h with
  | all h => exact .all ⟨h.handle_eq, hs⟩
  | fixed => exact .fixed
  | position h => exact .position ⟨h.handle_eq, hs⟩
  | @links _ _ _ _ inner _ _ _ hinner ih =>
    refine .links hs ih fun scan hscan => ?_
    obtain ⟨scan', hscan', rfl⟩ := Option.map_eq_some_iff.1 hscan
    exact ⟨(hinner scan' hscan').handle_eq, hs⟩
  | inter _ _ ih =>
    refine .inter ?_ fun _ => hs
    rw [setSnapshotAll_eq]
    exact List.forall_mem_map.2 ih

/-- A tree of listed values only keeps no snapshots that matter. -/
theorem over_of_handle?_eq_none (h : q.handle? = none) : Over P handle q := by
  induction q using induct with
  | all | position | links => cases h
  | fixed => exact .fixed
  | inter frame children driver snapshot ih =>
    exact .inter (fun q hq => ih q hq (firstHandle?_eq_none_iff.1 h q hq)) fun hne => absurd h hne

/-! ### Form -/

/-- Each part scans what its form says, and a chosen driver is one of the children. -/
inductive WellFormed : Query → Prop
  | all {frame category cursor} :
      cursor.source = .ofCategory category → WellFormed (.all frame category cursor)
  | fixed {frame values index} : values.Nodup → WellFormed (.fixed frame values index)
  | position {scan} : scan.WellFormed → WellFormed (.position scan)
  | links {frame handle pageSize direction primary inner snapshot} :
      WellFormed primary →
        (∀ scan ∈ inner, scan.WellFormed ∧ ∃ id, scan.bound = [(direction, id)]) →
          WellFormed (.links frame handle pageSize direction primary inner snapshot)
  | inter {frame children driver snapshot} :
      (∀ q ∈ children, WellFormed q) → (∀ d ∈ driver, d < children.length) →
        WellFormed (.inter frame children driver snapshot)

theorem WellFormed.setSnapshot (h : WellFormed q) (snapshot : Option Snapshot) :
    WellFormed (q.setSnapshot snapshot) := by
  induction h with
  | all h => exact .all h
  | fixed h => exact .fixed h
  | position h => exact .position (Scan.setSnapshot_wellFormed h _)
  | links _ hinner ih =>
    refine .links ih fun scan hscan => ?_
    obtain ⟨scan', hscan', rfl⟩ := Option.map_eq_some_iff.1 hscan
    obtain ⟨hscan', hbound⟩ := hinner scan' hscan'
    exact ⟨Scan.setSnapshot_wellFormed hscan' _, hbound⟩
  | inter _ hdriver ih =>
    rw [Query.setSnapshot, setSnapshotAll_eq]
    refine .inter (fun q hq => ?_) (by rwa [List.length_map])
    obtain ⟨q', hq', rfl⟩ := List.mem_map.1 hq
    exact ih q' hq'

/-- No part has made progress. -/
inductive AtStart : Query → Prop
  | all {frame category cursor} :
      frame.phase = .unstarted → cursor.AtStart → AtStart (.all frame category cursor)
  | fixed {frame values} : frame.phase = .unstarted → AtStart (.fixed frame values 0)
  | position {scan} :
      scan.frame.phase = .unstarted → scan.cursor.AtStart → AtStart (.position scan)
  | links {frame handle pageSize direction primary snapshot} :
      frame.phase = .unstarted → AtStart primary →
        AtStart (.links frame handle pageSize direction primary none snapshot)
  | inter {frame children driver snapshot} :
      frame.phase = .unstarted → (∀ q ∈ children, AtStart q) →
        AtStart (.inter frame children driver snapshot)

/-! ### Trees without results and snapshots -/

mutual

def bare : Query → Query
  | .all frame category cursor => .all frame.bare category (cursor.setSnapshot none)
  | .fixed frame values index => .fixed frame.bare values index
  | .position scan => .position scan.bare
  | .links frame handle pageSize direction primary inner _ =>
    .links frame.bare handle pageSize direction primary.bare (inner.map Scan.bare) none
  | .inter frame children driver _ => .inter frame.bare (bareAll children) driver none

def bareAll : List Query → List Query
  | [] => []
  | q :: rest => q.bare :: bareAll rest

end

theorem bareAll_eq (qs : List Query) : bareAll qs = qs.map bare := by
  induction qs with
  | nil => rfl
  | cons q rest ih => rw [bareAll, ih, List.map_cons]

theorem bare_setSnapshot (snapshot : Option Snapshot) (q : Query) :
    (q.setSnapshot snapshot).bare = q.bare := by
  induction q using induct with
  | all | fixed | position => rfl
  | links frame handle pageSize direction primary inner s ih =>
    unfold setSnapshot bare
    rw [ih, Option.map_map]
    rfl
  | inter frame children driver s ih =>
    unfold setSnapshot bare
    rw [setSnapshotAll_eq, bareAll_eq, bareAll_eq, List.map_map]
    exact congrArg (Query.inter frame.bare · driver none) (List.map_congr_left ih)

theorem reset_bare (q : Query) : q.bare.reset = q.reset := by
  induction q using induct with
  | all | fixed | position => rfl
  | links frame handle pageSize direction primary inner s ih =>
    unfold bare reset
    rw [ih]
    rfl
  | inter frame children driver s ih =>
    unfold bare reset
    rw [resetAll_eq, resetAll_eq, bareAll_eq, List.map_map]
    exact congrArg (Query.inter frame.reset · none none) (List.map_congr_left ih)

theorem reset_of_bare {q q' : Query} (h : q'.bare = q.bare) : q'.reset = q.reset := by
  rw [← reset_bare, h, reset_bare]

theorem bare_reset (q : Query) : q.reset.bare = q.reset := by
  induction q using induct with
  | all | fixed | position => rfl
  | links frame handle pageSize direction primary inner s ih =>
    unfold reset bare
    rw [ih]
    rfl
  | inter frame children driver s ih =>
    unfold reset bare
    rw [resetAll_eq, bareAll_eq, List.map_map]
    exact congrArg (Query.inter frame.reset · none none) (List.map_congr_left ih)

theorem copy_eq_reset (q : Query) : q.copy = q.reset := by
  induction q using induct with
  | all frame category cursor =>
    unfold copy reset
    rw [cursor.copy_eq_reset]
    rfl
  | fixed => rfl
  | position scan =>
    unfold copy reset Scan.copy Scan.reset
    rw [scan.cursor.copy_eq_reset]
    rfl
  | links frame handle pageSize direction primary inner s ih =>
    unfold copy reset
    rw [ih]
    rfl
  | inter frame children driver s ih =>
    unfold copy reset
    rw [copyAll_eq, resetAll_eq]
    exact congrArg (Query.inter frame.reset · none none) (List.map_congr_left ih)

theorem reset_setSnapshot (snapshot : Option Snapshot) (q : Query) :
    (q.setSnapshot snapshot).reset = q.reset :=
  reset_of_bare (bare_setSnapshot snapshot q)

theorem handle?_reset (q : Query) : q.reset.handle? = q.handle? := by
  induction q using induct with
  | all | fixed | position | links => rfl
  | inter frame children driver s ih =>
    unfold reset handle?
    rw [resetAll_eq, firstHandle?_eq, firstHandle?_eq, List.map_map]
    exact congrArg _ (List.map_congr_left ih)

theorem firstHandle?_reset (h : children'.map reset = children.map reset) :
    firstHandle? children' = firstHandle? children := by
  have hhandles (qs : List Query) : qs.map handle? = (qs.map reset).map handle? := by
    rw [List.map_map]
    exact List.map_congr_left fun q _ => (handle?_reset q).symm
  rw [firstHandle?_eq, firstHandle?_eq, hhandles, h, ← hhandles]

theorem map_reset_bare (h : children'.map bare = children.map bare) :
    children'.map reset = children.map reset := by
  have hreset (qs : List Query) : qs.map reset = (qs.map bare).map reset := by
    rw [List.map_map]
    exact List.map_congr_left fun q _ => (reset_bare q).symm
  rw [hreset, h, ← hreset]

theorem forall_of_bare {p : Query → Prop} (h : children'.map bare = children.map bare)
    (hp : ∀ q ∈ children, p q.bare) (hbare : ∀ q, p q.bare → p q) : ∀ q ∈ children', p q := by
  intro q hq
  have hmem : q.bare ∈ children.map bare := h ▸ List.mem_map_of_mem hq
  obtain ⟨q₀, hq₀, heq⟩ := List.mem_map.1 hmem
  exact hbare q (heq ▸ hp q₀ hq₀)

theorem WellFormed.bare (h : WellFormed q) : WellFormed q.bare := by
  induction h with
  | all h => exact .all h
  | fixed h => exact .fixed h
  | position h => exact .position ⟨h.directions, h.source⟩
  | links _ hinner ih =>
    refine .links ih fun scan hscan => ?_
    obtain ⟨scan', hscan', rfl⟩ := Option.map_eq_some_iff.1 hscan
    obtain ⟨hscan', hbound⟩ := hinner scan' hscan'
    exact ⟨⟨hscan'.directions, hscan'.source⟩, hbound⟩
  | inter _ hdriver ih =>
    rw [Query.bare, bareAll_eq]
    refine .inter (fun q hq => ?_) (by rwa [List.length_map])
    obtain ⟨q', hq', rfl⟩ := List.mem_map.1 hq
    exact ih q' hq'

theorem WellFormed.of_bare (h : WellFormed q.bare) : WellFormed q := by
  induction q using induct with
  | all =>
    cases h with
    | all h => exact .all h
  | fixed =>
    cases h with
    | fixed h => exact .fixed h
  | position =>
    cases h with
    | position h => exact .position ⟨h.directions, h.source⟩
  | links frame handle pageSize direction primary inner s ih =>
    cases h with
    | links hprimary hinner =>
      refine .links (ih hprimary) fun scan hscan => ?_
      obtain ⟨hscan, hbound⟩ := hinner scan.bare (Option.map_eq_some_iff.2 ⟨scan, hscan, rfl⟩)
      exact ⟨⟨hscan.directions, hscan.source⟩, hbound⟩
  | inter frame children driver s ih =>
    rw [Query.bare, bareAll_eq] at h
    cases h with
    | inter hchildren hdriver =>
      rw [List.length_map] at hdriver
      exact .inter (fun q hq => ih q hq (hchildren _ (List.mem_map_of_mem hq))) hdriver

theorem AtStart.bare (h : AtStart q) : AtStart q.bare := by
  induction h with
  | all hf hc => exact .all hf hc
  | fixed hf => exact .fixed hf
  | position hf hc => exact .position hf hc
  | links hf _ ih => exact .links hf ih
  | inter hf _ ih =>
    refine .inter hf ?_
    rw [bareAll_eq]
    exact List.forall_mem_map.2 ih

theorem AtStart.of_bare (h : AtStart q.bare) : AtStart q := by
  induction q using induct with
  | all =>
    cases h with
    | all hf hc => exact .all hf hc
  | fixed =>
    cases h with
    | fixed hf => exact .fixed hf
  | position =>
    cases h with
    | position hf hc => exact .position hf hc
  | links frame handle pageSize direction primary inner s ih =>
    unfold Query.bare at h
    cases inner with
    | some scan => cases h
    | none =>
      cases h with
      | links hf hprimary => exact .links hf (ih hprimary)
  | inter frame children driver s ih =>
    rw [Query.bare, bareAll_eq] at h
    cases h with
    | inter hf hchildren =>
      exact .inter hf fun q hq => ih q hq (hchildren _ (List.mem_map_of_mem hq))

/-! ### Settled results -/

/-- The results along the paths that bind names are those for one result of the tree. -/
inductive Settled : Ref → Query → Prop
  | all {r frame category cursor} :
      frame.result = some r → Settled r (.all frame category cursor)
  | fixed {r frame values index} :
      frame.result = some r → Settled r (.fixed frame values index)
  | position {r scan} : scan.frame.result = some r → Settled r (.position scan)
  | links {key frame handle pageSize direction primary inner snapshot} :
      frame.result = some (.quad key) → Settled (.node (key.get direction)) primary →
        Settled (.quad key) (.links frame handle pageSize direction primary inner snapshot)
  | inter {r frame children driver snapshot} :
      frame.result = some r → (∀ q ∈ children, Settled r q) →
        Settled r (.inter frame children driver snapshot)

theorem Settled.setSnapshot (h : Settled r q) (snapshot : Option Snapshot) :
    Settled r (q.setSnapshot snapshot) := by
  induction h with
  | all h => exact .all h
  | fixed h => exact .fixed h
  | position h => exact .position h
  | links h _ ih => exact .links h ih
  | inter h _ ih =>
    refine .inter h ?_
    rw [setSnapshotAll_eq]
    exact List.forall_mem_map.2 ih

end Query

end GraphStore
