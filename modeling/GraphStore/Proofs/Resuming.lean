import GraphStore.Proofs.Optimize
import GraphStore.Proofs.Restart

/-!
# Trees simplified in the middle of a pass

* `Query.reset_optimize` : what a tree is simplified to does not depend on its progress;
* `Query.LeafProgress`, `Query.leafProgress_optimize` : composite queries of a simplified tree start
  over, but leaves are taken over as they are;
* `Query.LeafProgress.pass` : so its next pass goes on where the leaves are;
* `Store.Reached.resumes` : what that comes to for a tree after any use of it
  (`Store.skips_simplified`: a result of the tree can be missing).
-/

namespace GraphStore

variable {disk : Disk} {handle : Handle} {now c : Contents} {s : Snapshot} {r : Ref}

namespace Query

variable {q q' : Query} {frame : Frame} {pageSize : Nat} {direction : Direction} {primary : Query}
  {children kept : List Query} {driver : Option Nat} {snapshot : Option Snapshot}

/-! ## Simplifying does not depend on progress -/

theorem tags_reset (q : Query) : q.reset.tags = q.tags := by
  cases q <;> rfl

theorem allCategory?_reset (q : Query) : q.reset.allCategory? = q.allCategory? := by
  cases q <;> rfl

theorem firstCategory_map {f : Query → Query} {qs : List Query}
    (h : ∀ q ∈ qs, (f q).category = q.category) : firstCategory (qs.map f) = firstCategory qs := by
  induction qs with
  | nil => rfl
  | cons q rest ih =>
    obtain ⟨hq, hrest⟩ := List.forall_mem_cons.1 h
    rw [List.map_cons, firstCategory, firstCategory, hq, ih hrest]

theorem category_reset (q : Query) : q.reset.category = q.category := by
  induction q using induct with
  | all | fixed | position | links => rfl
  | inter frame children driver snapshot ih =>
    unfold reset category
    rw [resetAll_eq, firstCategory_map ih]

theorem yieldsLive_reset (q : Query) : q.reset.yieldsLive = q.yieldsLive := by
  induction q using induct with
  | all | fixed | position | links => rfl
  | inter frame children driver snapshot ih =>
    unfold reset yieldsLive
    rw [resetAll_eq, anyYieldsLive_eq, anyYieldsLive_eq, List.any_map, Bool.eq_iff_iff,
      List.any_eq_true, List.any_eq_true]
    exact exists_congr fun q => and_congr_right fun hq => by rw [Function.comp_apply, ih q hq]

theorem constrained_reset (children : List Query) :
    constrained (children.map reset) = constrained children := by
  unfold constrained
  rw [List.filter_map, List.filterMap_map]
  have hfilter : ((fun q => q.allCategory?.isNone && q.yieldsLive) ∘ reset : Query → Bool) =
      fun q => q.allCategory?.isNone && q.yieldsLive := by
    funext q
    rw [Function.comp_apply, allCategory?_reset, yieldsLive_reset]
  have hcategory : category ∘ reset = category := funext category_reset
  rw [hfilter, hcategory]

theorem isRedundant_reset (categories : List Category) :
    isRedundant categories ∘ reset = isRedundant categories := by
  funext q
  rw [Function.comp_apply, isRedundant, isRedundant, allCategory?_reset]

theorem dropRedundant_reset (tags : Tags) (children : List Query) :
    dropRedundant tags (children.map reset) =
      ((dropRedundant tags children).1, (dropRedundant tags children).2.map reset) := by
  have hkept : (fun q => !isRedundant (constrained children) q) ∘ reset =
      fun q => !isRedundant (constrained children) q := by
    funext q
    exact congrArg not (congrFun (isRedundant_reset _) q)
  unfold dropRedundant
  simp only
  rw [constrained_reset, List.filter_map, List.filter_map, isRedundant_reset, hkept, List.foldl_map]
  simp only [tags_reset]

theorem scanOf?_reset (direction : Direction) (q : Query) :
    q.reset.scanOf? direction =
      (q.scanOf? direction).map fun found => (found.1.reset, found.2) := by
  cases q with
  | all | fixed | links | inter => rfl
  | position scan =>
    unfold reset scanOf?
    rw [Option.map_map]
    rfl

theorem eraseP_scanOf?_reset (direction : Direction) (children : List Query) :
    (children.map reset).eraseP (fun q => (q.scanOf? direction).isSome) =
      (children.eraseP fun q => (q.scanOf? direction).isSome).map reset := by
  have hsome : (fun q : Query => (q.scanOf? direction).isSome) ∘ reset =
      fun q => (q.scanOf? direction).isSome := by
    funext q
    rw [Function.comp_apply, scanOf?_reset, Option.isSome_map]
  rw [List.eraseP_map, hsome]

theorem findSome?_scanOf?_reset (direction : Direction) (children : List Query) :
    (children.map reset).findSome? (scanOf? direction) =
      (children.findSome? (scanOf? direction)).map fun found => (found.1.reset, found.2) := by
  rw [List.findSome?_map, List.map_findSome?]
  exact congrArg (List.findSome? · children) (funext (scanOf?_reset direction))

theorem fuse?_reset (children : List Query) :
    fuse? (children.map reset) = (fuse? children).map (List.map reset) := by
  unfold fuse?
  rw [findSome?_scanOf?_reset, findSome?_scanOf?_reset]
  cases children.findSome? (scanOf? .subject) with
  | none => rfl
  | some subject =>
    cases children.findSome? (scanOf? .predicate) with
    | none => rfl
    | some predicate =>
      simp only [Option.map_some, Option.bind_eq_bind, Option.bind_some, eraseP_scanOf?_reset]
      refine congrArg some (Eq.trans ?_ List.map_append.symm)
      rfl

theorem assemble_reset (tags : Tags) (kept : List Query) :
    assemble tags (kept.map reset) = (assemble tags kept).reset := by
  rcases kept with _ | ⟨only, _ | ⟨second, rest⟩⟩
  · rfl
  · exact (reset_mapTags (·.merge tags) only).symm
  · change Query.inter { tags } (List.map reset (only :: second :: rest)) none none =
      .inter { tags } (resetAll (only :: second :: rest)) none none
    rw [resetAll_eq]

theorem foldLinks?_reset (frame : Frame) (handle : Handle) (pageSize : Nat) (direction : Direction)
    (primary : Query) : foldLinks? frame.reset handle pageSize direction primary.reset =
      (foldLinks? frame handle pageSize direction primary).map reset := by
  cases primary with
  | all | position | links | inter => rfl
  | fixed listed values index =>
    rcases values with _ | ⟨_ | _, _ | ⟨second, rest⟩⟩ <;> rfl

theorem simplifyInter_reset (frame : Frame) (children : List Query) (changed changed' : Bool) :
    (simplifyInter frame.reset (children.map reset) changed').1 =
      (simplifyInter frame children changed).1.reset := by
  have htags : frame.reset.tags = frame.tags := rfl
  rw [simplifyInter_eq, simplifyInter_eq, ← assemble_reset, htags, dropRedundant_reset, fuse?_reset]
  cases fuse? (dropRedundant frame.tags children).2 <;> rfl

/-- Simplifying a tree that has started over gives the simplified tree, started over. -/
theorem reset_optimize (q : Query) : q.reset.optimize.1 = q.optimize.1.reset := by
  induction q using induct with
  | all | fixed | position => rfl
  | links frame handle pageSize direction primary inner snapshot ih =>
    change (optimize (.links frame.reset handle pageSize direction primary.reset none none)).1 = _
    unfold optimize
    rw [foldLinks?_reset]
    cases foldLinks? frame handle pageSize direction primary with
    | some q => rfl
    | none => exact congrArg (Query.links frame.reset handle pageSize direction · none none) ih
  | inter frame children driver snapshot ih =>
    change (simplifyInter frame.reset (optimizeAll (resetAll children)).1 _).1 =
      (simplifyInter frame (optimizeAll children).1 _).1.reset
    rw [optimizeAll_eq, optimizeAll_eq, resetAll_eq, List.map_map]
    have hchildren : children.map ((fun q => q.optimize.1) ∘ reset) =
        (children.map fun q => q.optimize.1).map reset := by
      rw [List.map_map]
      exact List.map_congr_left ih
    rw [hchildren]
    exact simplifyInter_reset frame _ _ _

/-! ## Progress of the leaves -/

def isLeaf : Query → Bool
  | .all .. | .fixed .. | .position _ => true
  | .links .. | .inter .. => false

/-- A tree in which no query has progress or keeps a snapshot, except for the leaves. -/
inductive LeafProgress : Query → Prop
  | all {frame : Frame} {category : Category} {cursor : Cursor} :
      LeafProgress (.all frame category cursor)
  | fixed {frame : Frame} {values : List Ref} {index : Nat} :
      LeafProgress (.fixed frame values index)
  | position {scan : Scan} : LeafProgress (.position scan)
  | links {frame : Frame} {handle : Handle} {pageSize : Nat} {direction : Direction}
      {primary : Query} : frame.phase = .unstarted → LeafProgress primary →
        LeafProgress (.links frame handle pageSize direction primary none none)
  | inter {frame : Frame} {children : List Query} :
      frame.phase = .unstarted → (∀ q ∈ children, LeafProgress q) →
        LeafProgress (.inter frame children none none)

theorem LeafProgress.mapTags (h : LeafProgress q) (change : Tags → Tags) :
    LeafProgress (q.mapTags change) := by
  cases h with
  | all => exact .all
  | fixed => exact .fixed
  | position => exact .position
  | links hphase hprimary => exact .links hphase hprimary
  | inter hphase hchildren => exact .inter hphase hchildren

theorem leafProgress_foldLinks (h : foldLinks? frame handle pageSize direction primary = some q) :
    LeafProgress q := by
  unfold foldLinks? at h
  split at h
  · cases h
    exact .fixed
  · cases h
    exact .position
  · cases h

/-- Of the progress of a tree a simplified one has that of the leaves, and no other. -/
theorem leafProgress_optimize (q : Query) : LeafProgress q.optimize.1 := by
  induction q using induct with
  | all => exact .all
  | fixed => exact .fixed
  | position => exact .position
  | links frame handle pageSize direction primary inner snapshot ih =>
    unfold optimize
    split
    · next q' hfold => exact leafProgress_foldLinks hfold
    · exact .links rfl ih
  | inter frame children driver snapshot ih =>
    unfold optimize
    simp only
    rw [optimizeAll_eq]
    exact simplifyInter_closed (fun _ _ _ _ => .position) (fun change h => h.mapTags change)
      (fun _ h => .inter rfl h) (List.forall_mem_map.2 ih)

theorem LeafProgress.wellFormed (h : LeafProgress q) (hreset : q.reset.WellFormed) :
    q.WellFormed := by
  induction h with
  | all =>
    cases hreset with
    | all h => exact .all h
  | fixed =>
    cases hreset with
    | fixed h => exact .fixed h
  | position =>
    cases hreset with
    | position h => exact .position (h.of_reset rfl)
  | links _ _ ih =>
    cases hreset with
    | links h _ => exact .links (ih h) (by rintro _ ⟨⟩)
  | inter _ _ ih =>
    unfold reset at hreset
    rw [resetAll_eq] at hreset
    cases hreset with
    | inter h _ =>
      exact .inter (fun q hq => ih q hq (h _ (List.mem_map_of_mem hq))) (by rintro _ ⟨⟩)

theorem LeafProgress.over {P : Option Snapshot → Prop} (h : LeafProgress q)
    (hreset : Over P handle q.reset) : Over (fun _ => True) handle q := by
  induction h with
  | all =>
    cases hreset with
    | all h => exact .all ⟨h.handle_eq, trivial⟩
  | fixed => exact .fixed
  | position =>
    cases hreset with
    | position h => exact .position ⟨h.handle_eq, trivial⟩
  | links _ _ ih =>
    cases hreset with
    | links _ h => exact .links trivial (ih h) (by rintro _ ⟨⟩)
  | inter _ _ ih =>
    unfold reset at hreset
    rw [resetAll_eq] at hreset
    cases hreset with
    | inter h _ =>
      exact .inter (fun q hq => ih q hq (h _ (List.mem_map_of_mem hq))) fun _ => trivial

theorem LeafProgress.idle (h : LeafProgress q) (hover : Over (· = none) handle q) : q.Idle := by
  induction h with
  | all =>
    cases hover with
    | all h => exact idle_all_iff.2 h.snapshot
  | fixed => rfl
  | position =>
    cases hover with
    | position h => exact idle_position_iff.2 h.snapshot
  | links _ _ ih =>
    cases hover with
    | links _ h => exact idle_links_iff.2 ⟨ih h, by rintro _ ⟨⟩, rfl⟩
  | inter _ _ ih =>
    cases hover with
    | inter h _ => exact idle_inter_iff.2 ⟨fun q hq => ih q hq (h q hq), rfl⟩

/-! ## A pass that goes on -/

theorem imposedBelow_held (disk : Disk) (s : Snapshot) (handle? : Option Handle) :
    imposedBelow disk none (some s) handle? = none := by
  cases handle? <;> rfl

theorem imposedBelow_imposed (disk : Disk) (s : Snapshot) (snapshot : Option Snapshot)
    (handle? : Option Handle) : imposedBelow disk (some s) snapshot handle? = some s := by
  cases handle? <;> rfl

/-- What is imposed on a tree bounds its steps as if the tree kept it. -/
theorem bounds_setSnapshot (disk : Disk) (s : Snapshot) (q : Query) :
    (q.setSnapshot (some s)).supply disk none = q.supply disk (some s) ∧
      (q.setSnapshot (some s)).turns disk none = q.turns disk (some s) := by
  induction q using induct with
  | all | fixed | position => exact ⟨rfl, rfl⟩
  | links frame handle pageSize direction primary inner snapshot ih =>
    unfold setSnapshot supply turns
    simp only
    rw [imposedBelow_held, imposedBelow_imposed, ih.1, ih.2, Option.map_map, Option.isSome_map]
    exact ⟨rfl, rfl⟩
  | inter frame children driver snapshot ih =>
    have hsupply : (children.map (setSnapshot (some s))).map (supply disk none) =
        children.map (supply disk (some s)) := by
      rw [List.map_map]
      exact List.map_congr_left fun q hq => (ih q hq).1
    have hturns : (children.map (setSnapshot (some s))).map (turns disk none) =
        children.map (turns disk (some s)) := by
      rw [List.map_map]
      exact List.map_congr_left fun q hq => (ih q hq).2
    unfold setSnapshot supply turns
    simp only
    rw [imposedBelow_held, imposedBelow_imposed, setSnapshotAll_eq, supplyAll_eq, supplyAll_eq,
      turnsAll_eq, turnsAll_eq, hsupply, hturns]
    exact ⟨rfl, rfl⟩

/-- A tree with progress in the leaves only takes the snapshot that it could as well be given. -/
theorem LeafProgress.steps_begun (h : LeafProgress q) (hleaf : q.isLeaf = false)
    (hover : Over (fun _ => True) handle q) (htake : disk.take handle = .ok s) :
    (q.begun s).turns disk none = q.turns disk none ∧
      ∀ n, nextWithin disk n (q.begun s) = nextWithin disk n q := by
  cases h with
  | all | fixed | position => cases hleaf
  | @links frame handle' pageSize direction primary hphase hprimary =>
    obtain rfl : handle' = handle := by
      cases hover
      rfl
    refine ⟨?_, nextWithin_begun_links htake hphase⟩
    have hbelow : imposedBelow disk none none (some handle') = some s := by
      unfold imposedBelow
      simp only [Option.or_none, htake]
      rfl
    refine (bounds_setSnapshot disk s _).2.trans ?_
    unfold turns
    simp only
    rw [imposedBelow_imposed, hbelow]
  | @inter frame children hphase hchildren =>
    refine ⟨?_, nextWithin_begun_inter htake hphase hover⟩
    rcases hover.handle? with hnone | hsome
    · unfold begun
      rw [if_neg (by rw [hnone]; exact Bool.false_ne_true)]
    · have hfirst : firstHandle? children = some handle := hsome
      have hbelow : imposedBelow disk none none (firstHandle? children) = some s := by
        unfold imposedBelow
        simp only [Option.or_none, hfirst, htake]
        rfl
      unfold begun
      rw [if_pos (by rw [hsome]; rfl)]
      refine (bounds_setSnapshot disk s _).2.trans ?_
      unfold turns
      simp only
      rw [imposedBelow_imposed, hbelow]

/-- So its next pass yields what the leaves have still to come, in the contents committed when the pass
begins. -/
theorem LeafProgress.pass (h : LeafProgress q) (hleaf : q.isLeaf = false) (hwf : q.WellFormed)
    (hover : Over (fun _ => True) handle q) (hc : c.Sound) (hview : disk.view handle = .ok c) :
    ∃ last, Pass disk q ((q.begun ⟨handle, c⟩).upcoming c c) last := by
  have hwf' := hwf.begun ⟨handle, c⟩
  have hkeeps := hover.begun c
  obtain ⟨last, hpass⟩ := pass_upcoming hc hview hkeeps hwf'
  obtain ⟨hturns, hsteps⟩ := h.steps_begun hleaf hover (Disk.take_of_view hview)
  exact ⟨last, hpass.congr (next_eq_of_turns hc hview hkeeps hwf' hturns.symm fun n =>
    (hsteps n).symm)⟩

/-- If no leaf has moved that is all of what the tree means. -/
theorem LeafProgress.pass_atStart (h : LeafProgress q) (hstart : q.AtStart) (hwf : q.WellFormed)
    (hover : Over (fun _ => True) handle q) (hidle : q.isLeaf = true → q.Idle) (hc : c.Sound)
    (hview : disk.view handle = .ok c) : ∃ results last, Pass disk q results last ∧
      results.Nodup ∧ ∀ r, r ∈ results ↔ q.Denotes c r := by
  cases hleaf : q.isLeaf with
  | true => exact Fresh.pass hc hview ⟨hstart, hwf, (hidle hleaf).over hover⟩
  | false =>
    obtain ⟨last, hpass⟩ := h.pass hleaf hwf hover hc hview
    have hstart' : AtStart (q.begun ⟨handle, c⟩) := .of_bare (bare_begun _ q ▸ hstart.bare)
    have hwf' := hwf.begun ⟨handle, c⟩
    refine ⟨_, last, hpass, upcoming_nodup hc hwf' hstart', fun r => ?_⟩
    rw [mem_upcoming hc hwf' hstart', member_of_bare (bare_begun _ _), member_iff hc]

/-! ## Simplifying at any time -/

/-- What simplifying makes of `q'`, which is `q` after some use. -/
structure Resumes (store : Store) (disk : Disk) (q q' : Query) : Prop where
  /-- The leaves keep their progress; no other query has any. -/
  leaves : LeafProgress q'.optimize.1
  /-- Up to that progress it is what the unused tree is simplified to. -/
  reset : q'.optimize.1.reset = q.optimize.1
  /-- So once it starts over a pass, whenever it begins, is one over the contents committed then, and
  has the results of the tree. -/
  anew : ∀ disk', store.Later disk disk' → ∃ c results, disk'.view store.handle = .ok c ∧
    q'.optimize.1.reset.Isolated store disk' c results ∧ ∀ r, r ∈ results ↔ q.Denotes c r
  /-- A tree that has not begun has no progress that the leaves could keep. -/
  unstarted : q'.phase = .unstarted → q'.optimize.1.AtStart ∧ q'.optimize.1.Idle
  /-- Where no leaf has moved, the next pass has the results of the tree, each once, in the contents
  committed when it begins. A leaf by itself must keep no snapshot for that. -/
  unmoved : q'.optimize.1.AtStart → (q'.optimize.1.isLeaf = true → q'.optimize.1.Idle) →
    ∀ disk', store.Later disk disk' → ∃ c results last, disk'.view store.handle = .ok c ∧
      Pass disk' q'.optimize.1 results last ∧ results.Nodup ∧ ∀ r, r ∈ results ↔ q.Denotes c r
  /-- Where leaves have moved, the next pass of a tree goes on from where they are. It reads the
  contents committed when it begins, but for the values that a leaf has already fetched. -/
  moved : q'.optimize.1.isLeaf = false → ∀ disk', store.Later disk disk' → ∃ c last,
    disk'.view store.handle = .ok c ∧
      Pass disk' q'.optimize.1 ((q'.optimize.1.begun ⟨store.handle, c⟩).upcoming c c) last

end Query

namespace Store

open Query

/-- At any time a tree can be simplified; that keeps the progress of its leaves, with which the next
pass begins. -/
theorem Reached.resumes {store : Store} {disk disk' : Disk} {q q' : Query} (h : store.Reached disk)
    (hq : q.Built store.handle) (hused : q.Used store disk disk' q') :
    q.Resumes store disk' q' := by
  obtain ⟨hsound, -, hreset⟩ := hused.stage h.sound hq
  have hleaves := leafProgress_optimize q'
  have hsame : q'.optimize.1.reset = q.optimize.1 := by rw [← reset_optimize, hreset]
  have hfresh : Fresh store.handle q'.optimize.1.reset := hsame ▸ hq.fresh.optimize
  have hwf := hleaves.wellFormed hfresh.wellFormed
  have hover := hleaves.over hfresh.idle
  have hdenotes (c : Contents) (r : Ref) : q'.optimize.1.member c r = q.member c r := by
    rw [member_optimize, ← member_reset, hreset]
  refine ⟨hleaves, hsame, fun disk'' hlater => ?_, fun hphase => ?_,
    fun hstart hidle disk'' hlater => ?_, fun hleaf disk'' hlater => ?_⟩
  · obtain ⟨now, hview, hnow⟩ := hlater.sound hsound
    obtain ⟨results, hisolated⟩ := hfresh.isolated hnow hview
    refine ⟨now, results, hview, hisolated, fun r => ?_⟩
    rw [hisolated.denotes.2 r, ← member_iff hnow, member_reset, hdenotes, member_iff hnow]
  · have hoptimized := (hused.fresh h.sound hq hphase).optimize
    exact ⟨hoptimized.atStart, hleaves.idle hoptimized.idle⟩
  · obtain ⟨now, hview, hnow⟩ := hlater.sound hsound
    obtain ⟨results, last, hpass, hnodup, hresults⟩ :=
      hleaves.pass_atStart hstart hwf hover hidle hnow hview
    refine ⟨now, results, last, hview, hpass, hnodup, fun r => ?_⟩
    rw [hresults, ← member_iff hnow, hdenotes, member_iff hnow]
  · obtain ⟨now, hview, hnow⟩ := hlater.sound hsound
    obtain ⟨last, hpass⟩ := hleaves.pass hleaf hwf hover hnow hview
    exact ⟨now, last, hview, hpass⟩

theorem resumes_first_quad : ∃ (store : Store) (disk : Disk),
    Store.create {} "db" {} = .ok (store, disk) ∧
      let now := store.after disk (.add {} ⟨"alice", "follows", "bob", ""⟩)
      let q := Query.linksTo store.handle 1 (.nodes store.handle 1) .subject
      let midway := (q.next now).2
      midway.phase = .iterating ∧ midway.optimize.1.isLeaf = false ∧ q.Resumes store now midway := by
  have hcreate : Store.create {} "db" {} = .ok (_, _) := rfl
  refine ⟨_, _, hcreate, ?_⟩
  intro now q midway
  have hreached : Store.Reached _ now := .wrote _ (.created hcreate) (admitsOne_created hcreate)
  refine ⟨by decide +kernel, by decide +kernel, ?_⟩
  exact hreached.resumes (.linksTo 1 _ (.nodes 1)) (.next .start)

/-- A simplified intersection says that it has not begun, but its driver is where it was: the node that
a step found before is not found again, though it is a result. -/
theorem skips_simplified : ∃ (store : Store) (disk : Disk),
    Store.create {} "db" {} = .ok (store, disk) ∧
      let now := store.after (store.after disk (.add {} ⟨"alice", "follows", "bob", ""⟩))
        (.add {} ⟨"alice", "follows", "carol", ""⟩)
      let q := Query.both [.ofList [.node ⟨1⟩, .node ⟨3⟩], .nodes store.handle store.pageSize]
      let found := q.next now
      let simplified := found.2.optimize.1
      store.Reached now ∧ q.Built store.handle ∧ found.1 = .ok (some (.node ⟨1⟩)) ∧
        simplified.phase = .unstarted ∧
          (simplified.drain now).1 = .ok [.node ⟨3⟩] ∧
            (q.contains now (.node ⟨1⟩)).1 = .ok true := by
  have hcreate : Store.create {} "db" {} = .ok (_, _) := rfl
  refine ⟨_, _, hcreate, ?_⟩
  intro now q found simplified
  refine ⟨.wrote _ (.wrote _ (.created hcreate) (admitsOne_created hcreate))
    (admitsOne_of_hasRoom (by decide +kernel)), ?_, ?_⟩
  · exact .both (List.forall_mem_cons.2 ⟨.ofList _, List.forall_mem_singleton.2 (.nodes _)⟩)
  · decide +kernel

end Store

end GraphStore
