import GraphStore.Proofs.Evaluation
import GraphStore.Proofs.Step
import GraphStore.Query.Rows

/-!
# What a step leaves

* `Query.Idle` : no part keeps a snapshot; an answer keeps it so (`Query.Idle.contains`);
* `Query.Underway` : the intersections on the way to the next result have chosen their drivers, so
  that what is upcoming no longer depends on the store (`Query.Underway.upcoming_eq`);
* `Query.Left` : what a step leaves of a tree, whatever it reads;
* `Query.StepsTo.left` : every step leaves that.
-/

namespace GraphStore

variable {disk : Disk} {handle : Handle} {now c : Contents} {r : Ref}

theorem Cursor.setSnapshot_eq_self_iff {cursor : Cursor} {snapshot : Option Snapshot} :
    cursor.setSnapshot snapshot = cursor ↔ cursor.snapshot = snapshot := by
  obtain ⟨handle, source, pageSize, hpos, held, buffer, resume, exhausted⟩ := cursor
  simp [Cursor.setSnapshot, eq_comm]

theorem Scan.setSnapshot_eq_self_iff {scan : Scan} {snapshot : Option Snapshot} :
    scan.setSnapshot snapshot = scan ↔ scan.cursor.snapshot = snapshot := by
  rw [← Cursor.setSnapshot_eq_self_iff]
  obtain ⟨frame, index, bound, cursor⟩ := scan
  simp [Scan.setSnapshot]

theorem Cursor.snapshot_of_next {cursor cursor' : Cursor}
    (h : cursor.next disk = (.ok none, cursor')) : cursor'.snapshot = none := by
  unfold Cursor.next at h
  repeat' split at h
  all_goals first | (cases h; rfl) | cases h

/-- An answer leaves the cursor of a scan alone. -/
theorem Scan.cursor_contains (disk : Disk) (imposed : Option Snapshot) (r : Ref) (scan : Scan) :
    (scan.contains disk imposed r).2.cursor = scan.cursor := by
  unfold Scan.contains
  cases r with
  | node id => rfl
  | quad key =>
    simp only
    split
    · split <;> rfl
    · rfl

namespace Query

variable {P : Option Snapshot → Prop} {q q' q₁ : Query} {out : Outcome × Query}

/-! ## Snapshots -/

section Idle

variable {frame : Frame} {pageSize : Nat} {direction : Direction} {primary : Query}
  {inner : Option Scan} {children : List Query} {driver : Option Nat} {snapshot : Option Snapshot}

/-- No part keeps a snapshot. -/
def Idle (q : Query) : Prop := q.setSnapshot none = q

theorem setSnapshot_setSnapshot (s s' : Option Snapshot) (q : Query) :
    (q.setSnapshot s).setSnapshot s' = q.setSnapshot s' := by
  induction q using induct with
  | all | fixed | position => rfl
  | links frame handle pageSize direction primary inner snapshot ih =>
    simp only [setSnapshot, ih, Option.map_map]
    rfl
  | inter frame children driver snapshot ih =>
    simp only [setSnapshot, setSnapshotAll_eq, List.map_map]
    exact congrArg (Query.inter frame · driver s') (List.map_congr_left ih)

theorem idle_setSnapshot (q : Query) : (q.setSnapshot none).Idle :=
  setSnapshot_setSnapshot none none q

theorem idle_reset (q : Query) : q.reset.Idle := by
  unfold Idle
  induction q using induct with
  | all | fixed | position => rfl
  | links frame handle pageSize direction primary inner snapshot ih =>
    simp only [reset, setSnapshot, ih, Option.map_none]
  | inter frame children driver snapshot ih =>
    simp only [reset, setSnapshot, resetAll_eq, setSnapshotAll_eq, List.map_map]
    exact congrArg (Query.inter frame.reset · none none) (List.map_congr_left ih)

theorem Idle.over (h : q.Idle) (hover : Over P handle q) : Over (· = none) handle q :=
  h ▸ hover.setSnapshot rfl

theorem idle_all_iff {category : Category} {cursor : Cursor} :
    (Query.all frame category cursor).Idle ↔ cursor.snapshot = none := by
  simp [Idle, setSnapshot, Cursor.setSnapshot_eq_self_iff]

theorem idle_position_iff {scan : Scan} :
    (Query.position scan).Idle ↔ scan.cursor.snapshot = none := by
  simp [Idle, setSnapshot, Scan.setSnapshot_eq_self_iff]

theorem idle_links_iff :
    (Query.links frame handle pageSize direction primary inner snapshot).Idle ↔
      primary.Idle ∧ (∀ scan ∈ inner, scan.cursor.snapshot = none) ∧ snapshot = none := by
  have hinner : inner.map (·.setSnapshot none) = inner ↔
      ∀ scan ∈ inner, scan.cursor.snapshot = none := by
    cases inner <;> simp [Scan.setSnapshot_eq_self_iff]
  rw [← hinner]
  simp [Idle, setSnapshot, eq_comm (a := none)]

theorem idle_inter_iff : (Query.inter frame children driver snapshot).Idle ↔
    (∀ q ∈ children, q.Idle) ∧ snapshot = none := by
  have hchildren : children.map (setSnapshot none) = children ↔ ∀ q ∈ children, q.Idle := by
    conv_lhs => rhs; rw [← List.map_id children]
    exact List.map_inj_left
  rw [← hchildren]
  simp [Idle, setSnapshot, setSnapshotAll_eq, eq_comm (a := none)]

/-- A tree without snapshots holds none open. -/
theorem Idle.uses (h : q.Idle) : ∀ use ∈ q.uses, use.reading = false := by
  have hcursor {cursor : Cursor} (hs : cursor.snapshot = none) :
      ∀ use ∈ cursorUses cursor, use.reading = false := by
    simp [cursorUses, snapshotUses, hs]
  induction q using induct with
  | all frame category cursor => exact hcursor (idle_all_iff.1 h)
  | fixed => exact nofun
  | position scan => exact hcursor (idle_position_iff.1 h)
  | links frame handle pageSize direction primary inner snapshot ih =>
    obtain ⟨hprimary, hinner, rfl⟩ := idle_links_iff.1 h
    intro use huse
    simp only [Query.uses, List.mem_cons, List.mem_append, List.mem_flatMap, Option.mem_toList]
      at huse
    rcases huse with rfl | (hnone | huse) | ⟨scan, hscan, huse⟩
    · rfl
    · exact absurd hnone List.not_mem_nil
    · exact ih hprimary use huse
    · exact hcursor (hinner scan hscan) use huse
  | inter frame children driver snapshot ih =>
    obtain ⟨hchildren, rfl⟩ := idle_inter_iff.1 h
    have hall (qs : List Query) : usesAll qs = qs.flatMap Query.uses := by
      induction qs with
      | nil => rfl
      | cons q rest ih => rw [usesAll, ih, List.flatMap_cons]
    intro use huse
    rw [Query.uses, hall] at huse
    obtain ⟨q, hq, huse⟩ := List.mem_flatMap.1 huse
    exact ih q hq (hchildren q hq) use huse

/-- A tree without snapshots lets go of the one that it takes for an answer. -/
theorem Idle.contains (h : q.Idle) (disk : Disk) (r : Ref) : (q.contains disk r).2.Idle := by
  unfold Query.contains
  cases q with
  | all frame category cursor =>
    have hs := idle_all_iff.1 h
    unfold probe
    split
    · split <;> exact idle_all_iff.2 hs
    · exact h
  | fixed => rfl
  | position scan =>
    have hcursor := congrArg Cursor.snapshot (Scan.cursor_contains disk none r scan)
    exact idle_position_iff.2 (hcursor.trans (idle_position_iff.1 h))
  | links frame handle pageSize direction primary inner snapshot =>
    obtain ⟨hprimary, hinner, rfl⟩ := idle_links_iff.1 h
    have hinner' : ∀ scan ∈ inner.map (·.setSnapshot none), scan.cursor.snapshot = none := by
      intro scan hscan
      obtain ⟨scan', -, rfl⟩ := Option.map_eq_some_iff.1 hscan
      rfl
    unfold probe
    cases r.asQuad? with
    | none => exact h
    | some key =>
      simp only [Option.or_none]
      cases disk.take handle with
      | error error => exact h
      | ok s =>
        simp only
        split <;> exact idle_links_iff.2 ⟨idle_setSnapshot _, hinner', rfl⟩
  | inter frame children driver snapshot =>
    obtain ⟨hchildren, rfl⟩ := idle_inter_iff.1 h
    unfold probe
    split
    · exact h
    · cases (firstHandle? children).mapM disk.take with
      | error error => exact h
      | ok taken =>
        refine idle_inter_iff.2 ⟨?_, rfl⟩
        rw [setSnapshotAll_eq]
        exact List.forall_mem_map.2 fun q _ => idle_setSnapshot q

end Idle

/-! ## Drivers -/

/-- The intersections that are asked for results, not only whether they contain one, have chosen
their drivers. -/
inductive Underway : Query → Prop
  | all {frame category cursor} : Underway (.all frame category cursor)
  | fixed {frame values index} : Underway (.fixed frame values index)
  | position {scan} : Underway (.position scan)
  | links {frame handle pageSize direction primary inner snapshot} :
      Underway primary → Underway (.links frame handle pageSize direction primary inner snapshot)
  | inter {frame children d snapshot} :
      (∀ q ∈ children[d]?, Underway q) → Underway (.inter frame children (some d) snapshot)

theorem isExhausted_frame_bare (frame : Frame) : frame.bare.isExhausted = frame.isExhausted := rfl

/-- What is upcoming depends neither on the store nor on results and snapshots. -/
theorem Underway.upcoming_bare (h : Underway q) (now now' c : Contents) :
    q.bare.upcoming now c = q.upcoming now' c := by
  induction h with
  | all | fixed | position =>
    unfold Query.bare upcoming
    rfl
  | @links frame handle pageSize direction primary inner snapshot _ ih =>
    have hinner : (inner.map Scan.bare).map (Scan.upcoming c) = inner.map (Scan.upcoming c) := by
      cases inner <;> rfl
    unfold Query.bare upcoming
    rw [isExhausted_frame_bare, ih, hinner]
  | @inter frame children d snapshot _ ih =>
    have hothers (r : Ref) : ((others (some d) (children.map Query.bare)).all fun q => q.member c r) =
        (others (some d) children).all fun q => q.member c r := by
      rw [others_map, List.all_map]
      exact congrArg (others (some d) children).all (funext fun q => member_bare c q)
    have hdriver : children[d]?.map (upcoming now c ∘ Query.bare) =
        children[d]?.map (upcoming now' c) := Option.map_congr ih
    unfold Query.bare upcoming
    rw [isExhausted_frame_bare, bareAll_eq, upcomingAll_eq, upcomingAll_eq, List.map_map]
    simp only [Option.getD_some, List.getElem?_map, hothers, hdriver]

theorem Underway.upcoming_eq (h : Underway q) (h' : Underway q') (hbare : q'.bare = q.bare)
    (now now' c : Contents) : q'.upcoming now c = q.upcoming now' c := by
  rw [← h'.upcoming_bare now now c, hbare, h.upcoming_bare]

theorem Underway.bare (h : Underway q) : Underway q.bare := by
  induction h with
  | all => exact .all
  | fixed => exact .fixed
  | position => exact .position
  | links _ ih => exact .links ih
  | inter _ ih =>
    refine .inter fun q hq => ?_
    rw [bareAll_eq, List.getElem?_map] at hq
    obtain ⟨q', hq', rfl⟩ := Option.map_eq_some_iff.1 hq
    exact ih q' hq'

theorem Underway.of_bare (h : Underway q.bare) : Underway q := by
  induction q using induct with
  | all => exact .all
  | fixed => exact .fixed
  | position => exact .position
  | links frame handle pageSize direction primary inner snapshot ih =>
    cases h with
    | links h => exact .links (ih h)
  | inter frame children driver snapshot ih =>
    rw [Query.bare, bareAll_eq] at h
    cases h with
    | inter h =>
      refine .inter fun q hq => ih q (List.mem_of_getElem? hq) (h q.bare ?_)
      rw [List.getElem?_map, Option.mem_def.1 hq]
      rfl

/-- No intersection that is asked for results will still choose a driver but in its first step. -/
def Ready (q : Query) : Prop := AtStart q ∨ Underway q

theorem Ready.of_bare_eq (h : q.Ready) (hbare : q'.bare = q.bare) : q'.Ready :=
  h.imp (fun h => .of_bare (hbare ▸ h.bare)) fun h => .of_bare (hbare ▸ h.bare)

theorem Ready.links {frame : Frame} {pageSize : Nat} {direction : Direction} {primary : Query}
    {inner : Option Scan} {snapshot : Option Snapshot}
    (h : Ready (.links frame handle pageSize direction primary inner snapshot)) : primary.Ready := by
  rcases h with h | h
  · cases h with
    | links _ h => exact .inl h
  · cases h with
    | links h => exact .inr h

theorem Ready.inter {frame : Frame} {children : List Query} {d : Nat} {snapshot : Option Snapshot}
    (h : Ready (.inter frame children (some d) snapshot)) : ∀ q ∈ children[d]?, q.Ready := by
  intro q hq
  rcases h with h | h
  · cases h with
    | inter _ h => exact .inl (h q (List.mem_of_getElem? hq))
  · cases h with
    | inter h => exact .inr (h q hq)

/-- An intersection without children to share a snapshot with keeps none. -/
def Tidy (q : Query) : Prop :=
  ∀ frame driver snapshot, q = .inter frame [] driver snapshot → snapshot = none

theorem tidy_inter {frame : Frame} {children : List Query} {driver : Option Nat}
    {snapshot : Option Snapshot} (hne : children ≠ []) :
    Tidy (.inter frame children driver snapshot) := by
  intro frame' driver' snapshot' h
  injection h with _ hchildren
  exact absurd hchildren hne

theorem tidy_links {frame : Frame} {pageSize : Nat} {direction : Direction} {primary : Query}
    {inner : Option Scan} {snapshot : Option Snapshot} :
    Tidy (.links frame handle pageSize direction primary inner snapshot) := by
  rintro _ _ _ ⟨⟩

theorem Idle.tidy (h : q.Idle) : q.Tidy := by
  rintro frame driver snapshot rfl
  exact (idle_inter_iff.1 h).2

theorem Underway.tidy (h : Underway q) (hwf : q.WellFormed) : q.Tidy := by
  rintro frame driver snapshot rfl
  cases h with
  | @inter _ _ d _ _ =>
  cases hwf with
  | inter _ hdriver => exact absurd (hdriver d rfl) (Nat.not_lt_zero d)

/-! ## What a step leaves -/

/-- What a step leaves of a tree, whatever it reads: with a result the drivers are chosen, and at the
end no part keeps a snapshot. -/
inductive Left (q : Query) : Outcome × Query → Prop
  | found {r : Ref} {q' : Query} : q'.frame = q.frame.advance r → (q.Ready → Underway q') →
      Left q (.ok (some r), q')
  | ended {q' : Query} : (q.frame.isExhausted = false → q.Tidy → q'.Idle) → Left q (.ok none, q')
  | failed {error : StoreError} {q' : Query} : Left q (.error error, q')

theorem Left.of_turned (h : Left q₁ out) (hframe : q₁.frame = q.frame) (hready : q.Ready → q₁.Ready)
    (htidy : q.Tidy → q₁.Tidy) : Left q out := by
  cases h with
  | found h hunderway => exact .found (hframe ▸ h) fun hq => hunderway (hready hq)
  | ended h => exact .ended fun hphase hq => h (hframe ▸ hphase) (htidy hq)
  | failed => exact .failed

theorem probeAll_skip (disk : Disk) (imposed : Option Snapshot) (r : Ref) (qs : List Query)
    (d : Nat) : (probeAll disk imposed r (some d) qs).2[d]? = qs[d]? := by
  induction qs generalizing d with
  | nil => rfl
  | cons q rest ih =>
    unfold probeAll
    cases d with
    | zero => rfl
    | succ d =>
      rw [if_neg (by simp)]
      split
      · exact ih d
      · rfl

theorem probeAll_driver {imposed : Option Snapshot} {r : Ref} {children children' : List Query}
    {d : Nat} {child child' : Query} {answer : Except StoreError Bool}
    (hchild : children[d]? = some child)
    (hprobe : probeAll disk imposed r (some d) (children.set d child') = (answer, children')) :
    children'[d]? = some child' := by
  have hskip := probeAll_skip disk imposed r (children.set d child') d
  rwa [hprobe, List.getElem?_set_self (List.getElem?_eq_some_iff.1 hchild).1] at hskip

/-- A tree that awaits a snapshot has parts to share it with. -/
theorem tidy_of_awaits (h : q.awaits? = some handle) (snapshot : Option Snapshot) :
    (q.setSnapshot snapshot).Tidy := by
  cases q with
  | all | fixed | position => cases h
  | links => exact tidy_links
  | inter frame children driver s =>
    refine tidy_inter fun hnil => ?_
    rw [setSnapshotAll_eq, List.map_eq_nil_iff] at hnil
    subst hnil
    cases s <;> cases h

theorem Ready.of_primary {frame : Frame} {pageSize : Nat} {direction : Direction} {primary : Query}
    {scan : Scan} {snapshot : Option Snapshot}
    (h : Ready (.links frame handle pageSize direction primary (some scan) snapshot)) :
    Underway primary := by
  rcases h with h | h
  · cases h
  · cases h with
    | links h => exact h

theorem Ready.of_driver {frame frame' : Frame} {children children' : List Query} {d : Nat}
    {child child' : Query} {snapshot : Option Snapshot}
    (h : Ready (.inter frame children (some d) snapshot)) (hchild : children[d]? = some child)
    (hfound : child.Ready → Underway child') (hdriver : children'[d]? = some child') :
    Underway (.inter frame' children' (some d) snapshot) := by
  refine .inter fun q hq => ?_
  obtain rfl := Option.some.inj (hdriver.symm.trans hq)
  exact hfound (h.inter child hchild)

theorem StepsTo.left (h : StepsTo disk q out) : Left q out := by
  induction h with
  | exhausted hphase =>
    exact .ended fun hrunning => absurd (hphase.symm.trans hrunning) (by decide)
  | refused => exact .failed
  | @begun q handle s out _ hawaits _ _ ih =>
    have hbare := bare_setSnapshot (some s) q
    exact ih.of_turned (by cases q <;> rfl) (fun hq => hq.of_bare_eq hbare)
      fun _ => tidy_of_awaits hawaits _
  | @all frame category cursor outcome cursor' _ hnext =>
    rcases outcome with error | _ | r
    · exact .failed
    · exact .ended fun _ _ => idle_all_iff.2 (Cursor.snapshot_of_next hnext)
    · exact .found rfl fun _ => .all
  | listed => exact .found rfl fun _ => .fixed
  | listedAll => exact .ended fun _ _ => rfl
  | @position scan outcome cursor _ hnext =>
    rcases outcome with error | _ | r
    · exact .failed
    · exact .ended fun _ _ => idle_position_iff.2 (Cursor.snapshot_of_next hnext)
    · exact .found rfl fun _ => .position
  | @linked frame handle pageSize direction primary scan s outcome scan' _ _ hne =>
    rcases outcome with error | _ | r
    · exact .failed
    · exact absurd rfl hne
    · exact .found rfl fun hq => .links hq.of_primary
  | linkedAll _ _ _ ih =>
    exact ih.of_turned rfl (fun hq => .inr (.links hq.of_primary)) fun _ => tidy_links
  | primaryFailed => exact .failed
  | primaryEnded =>
    exact .ended fun _ _ => idle_links_iff.2 ⟨idle_setSnapshot _, by rintro _ ⟨⟩, rfl⟩
  | primaryNode _ _ _ hprimary ih | primaryQuad _ _ _ hprimary ih =>
    cases hprimary with
    | found _ hunderway =>
      exact ih.of_turned rfl (fun hq => .inr (.links (hunderway hq.links))) fun _ => tidy_links
  | empty =>
    exact .ended fun _ htidy => idle_inter_iff.2 ⟨nofun, htidy _ _ _ rfl⟩
  | undecided => exact .failed
  | chosen _ hne _ _ ih =>
    refine ih.of_turned rfl (fun hq => ?_) fun _ => tidy_inter hne
    rcases hq with hq | hq
    · cases hq with
      | inter hphase hchildren => exact .inl (.inter hphase hchildren)
    · cases hq
  | driverFailed => exact .failed
  | driverEnded =>
    refine .ended fun _ _ => idle_inter_iff.2 ⟨?_, rfl⟩
    rw [setSnapshotAll_eq]
    exact List.forall_mem_map.2 fun q _ => idle_setSnapshot q
  | unanswered => exact .failed
  | rejected _ hchild _ hprobe _ hleft ih =>
    have hdriver := probeAll_driver hchild hprobe
    cases hleft with
    | found _ hunderway =>
      exact ih.of_turned rfl (fun hq => .inr (hq.of_driver hchild hunderway hdriver))
        fun _ => tidy_inter (List.ne_nil_of_mem (List.mem_of_getElem? hdriver))
  | confirmed _ hchild _ hprobe hleft =>
    cases hleft with
    | found _ hunderway =>
      exact .found rfl fun hq => hq.of_driver hchild hunderway (probeAll_driver hchild hprobe)

theorem nextWithin_left (disk : Disk) (n : Nat) :
    ∀ q out, nextWithin disk n q = some out → Left q out :=
  fun q out h => (nextWithin_stepsTo disk n q out h).left

end Query

end GraphStore
