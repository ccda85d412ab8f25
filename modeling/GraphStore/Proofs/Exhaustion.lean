import GraphStore.Proofs.Probing
import GraphStore.Proofs.Restart
import GraphStore.Proofs.Sizes

/-!
# The end of a pass

* `Query.Along` : what holds of all parts on the way to the next result, that is of a tree, of the primary
  of links, and of the child that drives an intersection;
* `Query.StepsTo.drained` : until the end of a pass none of these parts is at its end, and the step
  that ends the pass leaves none of them with a result;
* `Query.leftNames` : the names of the children that did not drive, which keep their results;
* `Store.Reached.bind_ended` : at the end of a pass all other names are bound to constants only;
* `Store.leftover_first_quad` : a child that did not drive still binds its name.
-/

namespace GraphStore

namespace Query

variable {P : Frame → Prop} {disk : Disk} {handle : Handle} {now c : Contents} {q q' q₁ : Query}
  {r : Ref} {name : String}

/-! ## The way to the next result -/

/-- All parts on the way to the next result have a property. Until an intersection has chosen its driver,
all its children are on the way. -/
inductive Along (P : Frame → Prop) : Query → Prop
  | all {frame category cursor} : P frame → Along P (.all frame category cursor)
  | fixed {frame values index} : P frame → Along P (.fixed frame values index)
  | position {scan} : P scan.frame → Along P (.position scan)
  | links {frame handle pageSize direction primary inner snapshot} :
      P frame → Along P primary →
        Along P (.links frame handle pageSize direction primary inner snapshot)
  | inter {frame children driver snapshot} :
      P frame → (∀ (i : Nat) q, children[i]? = some q → driver.getD i = i → Along P q) →
        Along P (.inter frame children driver snapshot)

theorem Along.frame (h : Along P q) : P q.frame := by
  cases h with
  | all h | fixed h | position h | links h _ | inter h _ => exact h

theorem Along.setSnapshot (h : Along P q) (snapshot : Option Snapshot) :
    Along P (q.setSnapshot snapshot) := by
  induction h with
  | all h => exact .all h
  | fixed h => exact .fixed h
  | position h => exact .position h
  | links h _ ih => exact .links h ih
  | inter h _ ih =>
    refine .inter h fun i q hq hi => ?_
    rw [setSnapshotAll_eq, List.getElem?_map] at hq
    obtain ⟨q', hq', rfl⟩ := Option.map_eq_some_iff.1 hq
    exact ih i q' hq' hi

theorem Along.bare (h : Along P q) (hP : ∀ frame, P frame → P frame.bare) : Along P q.bare := by
  induction h with
  | all h => exact .all (hP _ h)
  | fixed h => exact .fixed (hP _ h)
  | position h => exact .position (hP _ h)
  | links h _ ih => exact .links (hP _ h) ih
  | inter h _ ih =>
    refine .inter (hP _ h) fun i q hq hi => ?_
    rw [bareAll_eq, List.getElem?_map] at hq
    obtain ⟨q', hq', rfl⟩ := Option.map_eq_some_iff.1 hq
    exact ih i q' hq' hi

theorem Along.of_bare (h : Along P q.bare) (hP : ∀ frame : Frame, P frame.bare → P frame) :
    Along P q := by
  induction q using induct with
  | all =>
    cases h with
    | all h => exact .all (hP _ h)
  | fixed =>
    cases h with
    | fixed h => exact .fixed (hP _ h)
  | position =>
    cases h with
    | position h => exact .position (hP _ h)
  | links frame handle pageSize direction primary inner snapshot ih =>
    cases h with
    | links h hprimary => exact .links (hP _ h) (ih hprimary)
  | inter frame children driver snapshot ih =>
    cases h with
    | inter h hchildren =>
      refine .inter (hP _ h) fun i q hq hi => ih q (List.mem_of_getElem? hq) (hchildren i _ ?_ hi)
      rw [bareAll_eq, List.getElem?_map, hq]
      rfl

/-- No part on the way to the next result is at the end of its pass. -/
def Lively (q : Query) : Prop := Along (·.isExhausted = false) q

/-- No part on the way to the next result has one. -/
def Spent (q : Query) : Prop := Along (·.result = none) q

theorem Lively.of_bare_eq (h : q.Lively) (hbare : q'.bare = q.bare) : q'.Lively := by
  refine Along.of_bare ?_ fun _ h => h
  rw [hbare]
  exact Along.bare h fun _ h => h

theorem AtStart.lively (h : AtStart q) : q.Lively := by
  have hfresh {frame : Frame} (hphase : frame.phase = .unstarted) : frame.isExhausted = false := by
    rw [Frame.isExhausted, hphase]
    rfl
  induction h with
  | all h => exact .all (hfresh h)
  | fixed h => exact .fixed (hfresh h)
  | position h => exact .position (hfresh h)
  | links h _ ih => exact .links (hfresh h) ih
  | inter h _ ih => exact .inter (hfresh h) fun i q hq _ => ih q (List.mem_of_getElem? hq)

/-! ## What a step leaves on the way -/

/-- What a step leaves of a tree with no part at its end on the way: such a tree again with a result,
and at the end one that has no result on the way. -/
inductive Drained (q : Query) : Outcome × Query → Prop
  | found {r : Ref} {q' : Query} : (q.Lively → q'.Lively) → Drained q (.ok (some r), q')
  | ended {q' : Query} : (q.Lively → q'.Spent) → Drained q (.ok none, q')
  | failed {error : StoreError} {q' : Query} : Drained q (.error error, q')

section Turns

variable {frame : Frame} {pageSize d : Nat} {direction : Direction} {primary : Query}
  {inner : Option Scan} {children : List Query} {driver : Option Nat} {snapshot : Option Snapshot}
  {out : Outcome × Query}

theorem Drained.of_turned (h : Drained q₁ out) (hturned : q.Lively → q₁.Lively) :
    Drained q out := by
  cases h with
  | found h => exact .found fun hq => h (hturned hq)
  | ended h => exact .ended fun hq => h (hturned hq)
  | failed => exact .failed

/-- A child that drives is on the way, whatever the others do. -/
theorem along_inter (hframe : P frame) (hdriver : ∀ child ∈ children[d]?, Along P child) :
    Along P (.inter frame children (some d) snapshot) := by
  refine .inter hframe fun i q hq hi => hdriver q ?_
  obtain rfl : d = i := hi
  exact hq

theorem Lively.child (h : Lively (.inter frame children driver snapshot))
    (hdriver : driver = none ∨ driver = some d) : ∀ child ∈ children[d]?, child.Lively := by
  intro child hchild
  cases h with
  | inter _ h =>
    refine h d child hchild ?_
    rcases hdriver with rfl | rfl <;> rfl

theorem Lively.of_driver {children' : List Query} {child child' : Query}
    (h : Lively (.inter frame children (some d) snapshot)) (hchild : children[d]? = some child)
    (hfound : child.Lively → child'.Lively) (hdriver : children'[d]? = some child') :
    ∀ p ∈ children'[d]?, p.Lively := by
  intro p hp
  obtain rfl := Option.some.inj (hdriver.symm.trans hp)
  exact hfound (h.child (.inr rfl) child hchild)

theorem Lively.of_links
    (h : Lively (.links frame handle pageSize direction primary inner snapshot)) :
    primary.Lively := by
  cases h with
  | links _ h => exact h

theorem StepsTo.drained (h : StepsTo disk q out) : Drained q out := by
  induction h with
  | exhausted hphase =>
    exact .ended fun hq => absurd (hphase.symm.trans (Along.frame hq)) (by decide)
  | refused => exact .failed
  | @begun q handle s out _ _ _ _ ih =>
    exact ih.of_turned fun hq => hq.of_bare_eq (bare_setSnapshot (some s) q)
  | @all frame category cursor outcome cursor' =>
    rcases outcome with error | _ | r
    · exact .failed
    · exact .ended fun _ => .all rfl
    · exact .found fun _ => .all rfl
  | listed => exact .found fun _ => .fixed rfl
  | listedAll => exact .ended fun _ => .fixed rfl
  | @position scan outcome cursor =>
    rcases outcome with error | _ | r
    · exact .failed
    · exact .ended fun _ => .position rfl
    · exact .found fun _ => .position rfl
  | @linked frame handle pageSize direction primary scan s outcome scan' _ _ hne =>
    rcases outcome with error | _ | r
    · exact .failed
    · exact absurd rfl hne
    · exact .found fun hq => .links rfl hq.of_links
  | linkedAll _ _ _ ih => exact ih.of_turned fun hq => .links (Along.frame hq) hq.of_links
  | primaryFailed => exact .failed
  | primaryEnded _ _ hprimary =>
    cases hprimary with
    | ended hspent => exact .ended fun hq => .links rfl (Along.setSnapshot (hspent hq.of_links) none)
  | primaryNode _ _ _ hprimary ih | primaryQuad _ _ _ hprimary ih =>
    cases hprimary with
    | found hlively => exact ih.of_turned fun hq => .links (Along.frame hq) (hlively hq.of_links)
  | empty => exact .ended fun _ => .inter rfl (by rintro _ _ ⟨⟩)
  | undecided => exact .failed
  | chosen _ _ _ _ ih =>
    exact ih.of_turned fun hq => along_inter (Along.frame hq) (hq.child (.inl rfl))
  | driverFailed => exact .failed
  | @driverEnded frame children d snapshot child child' _ hchild _ hdrained =>
    cases hdrained with
    | ended hspent =>
      have hset := List.getElem?_set_self (a := child') (List.getElem?_eq_some_iff.1 hchild).1
      refine .ended fun hq => along_inter rfl fun p hp => ?_
      rw [setSnapshotAll_eq, List.getElem?_map, hset] at hp
      obtain rfl := Option.some.inj hp
      exact Along.setSnapshot (hspent (hq.child (.inr rfl) child hchild)) none
  | unanswered => exact .failed
  | rejected _ hchild _ hprobe _ hdrained ih =>
    cases hdrained with
    | found hlively =>
      exact ih.of_turned fun hq => along_inter (Along.frame hq)
        (hq.of_driver hchild hlively (probeAll_driver hchild hprobe))
  | confirmed _ hchild _ hprobe hdrained =>
    cases hdrained with
    | found hlively =>
      exact .found fun hq => along_inter rfl
        (hq.of_driver hchild hlively (probeAll_driver hchild hprobe))

end Turns

variable {store : Store} {disk' : Disk}

theorem Stage.drained (h : Stage handle c q) (hc : c.Sound) (hnow : now.Sound)
    (hview : disk.view handle = .ok now) (hphase : q.phase ≠ .exhausted) :
    Drained q (q.next disk) ∧ ∃ found, (q.next disk).1 = .ok found := by
  obtain ⟨c', q₁, n, -, -, hn, hstepped⟩ :=
    h.tracked.turn hc hnow hview (not_isExhausted_iff.2 hphase)
  refine ⟨(nextWithin_stepsTo disk n _ _ hn).drained, ?_⟩
  generalize q.next disk = out at hstepped
  cases hstepped with
  | found | ended => exact ⟨_, rfl⟩

/-- Whatever a tree was used for, until the end of a pass no part on the way is at its end. -/
theorem Used.lively (h : q.Used store disk disk' q') (hdisk : store.SoundOn disk)
    (hq : Fresh store.handle q) (hreset : q.reset = q) (hphase : q'.phase ≠ .exhausted) :
    q'.Lively := by
  induction h with
  | start => exact hq.atStart.lively
  | wrote call _ _ ih => exact ih hphase
  | @next disk' q₁ hused ih =>
    obtain ⟨⟨now, hview, hnow⟩, ⟨c, hc, hstage⟩, -⟩ := hused.stage_of_fresh hdisk hq hreset
    have hrunning : q₁.phase ≠ .exhausted := fun h => hphase <| by
      rwa [next_of_exhausted (isExhausted_iff.2 h)]
    obtain ⟨hdrained, found, hfound⟩ := hstage.drained hc hnow hview hrunning
    have hended := (hstage.phase_next hc hnow hview).2
    generalize q₁.next disk' = out at hphase hdrained hfound hended ⊢
    cases hdrained with
    | found h => exact h (ih hrunning)
    | ended => exact absurd (hended rfl) hphase
    | failed => cases hfound
  | contains r hused ih =>
    obtain ⟨⟨now, hview, hnow⟩, ⟨c, hc, hstage⟩, -⟩ := hused.stage_of_fresh hdisk hq hreset
    obtain ⟨c', hc', hsees⟩ := hstage.tracked.sees hview
    have hsound : c'.Sound := by rcases hc' with rfl | rfl <;> assumption
    obtain ⟨q'', hanswer, -, hbare, -⟩ := hstage.contains hsound hsees r
    rw [phase_contains] at hphase
    rw [hanswer]
    exact (ih hphase).of_bare_eq hbare
  | reset => exact (atStart_reset _).lively

/-! ## Constants -/

mutual

def constants : Query → List (String × Ref)
  | .all frame .. | .fixed frame .. => frame.tags.fixed.entries
  | .position scan => scan.frame.tags.fixed.entries
  | .links frame _ _ _ primary _ _ => frame.tags.fixed.entries ++ primary.constants
  | .inter frame children _ _ => frame.tags.fixed.entries ++ constantsAll children

def constantsAll : List Query → List (String × Ref)
  | [] => []
  | q :: rest => q.constants ++ constantsAll rest

end

theorem constantsAll_eq (qs : List Query) : constantsAll qs = qs.flatMap constants := by
  induction qs with
  | nil => rfl
  | cons q rest ih => rw [constantsAll, ih, List.flatMap_cons]

theorem constants_reset (q : Query) : q.reset.constants = q.constants := by
  induction q using induct with
  | all | fixed | position => rfl
  | links frame handle pageSize direction primary inner snapshot ih =>
    unfold reset constants
    rw [ih]
    rfl
  | inter frame children driver snapshot ih =>
    unfold reset constants
    rw [resetAll_eq, constantsAll_eq, constantsAll_eq, List.flatMap_map]
    exact congrArg _ (List.flatMap_congr ih)

theorem get?_bind_constants {frame : Frame} (h : frame.result = none ∨ name ∉ frame.tags.plain)
    {b b' : Bindings} (hb : b.get? name = b'.get? name) :
    (frame.bind b).get? name = (Bindings.write b' frame.tags.fixed.entries).get? name := by
  unfold Frame.bind Tags.bind Bindings.write
  rw [Tags.get?_foldl_entries, Tags.get?_foldl_entries, ← hb]
  rcases h with h | h
  · rw [h]
  · cases frame.result with
    | none => rfl
    | some r =>
      simp only
      rw [Tags.get?_foldl_plain, if_neg h]

theorem bindsConstants_of_not_plain (h : name ∉ q.plainNames) : BindsAs name q q.constants := by
  induction q using induct with
  | all | fixed | position => exact fun b b' hb => get?_bind_constants (.inr h) hb
  | links frame handle pageSize direction primary inner snapshot ih =>
    intro b b' hb
    unfold plainNames at h
    rw [List.mem_append, not_or] at h
    unfold bind constants
    rw [Bindings.write_append]
    exact ih h.2 _ _ (get?_bind_constants (.inr h.1) hb)
  | inter frame children driver snapshot ih =>
    intro b b' hb
    unfold plainNames at h
    rw [plainNamesAll_eq, List.mem_append, not_or, List.mem_flatMap] at h
    unfold bind constants
    rw [Bindings.write_append, constantsAll_eq]
    exact bindsAs_all (fun q hq => ih q hq fun hname => h.2 ⟨q, hq, hname⟩)
      (get?_bind_constants (.inr h.1) hb)

/-! ## Names that are left -/

mutual

/-- The names that are bound to results of parts which are not on the way to the next one: of the
children that do not drive their intersection, and of all below these. -/
def leftNames : Query → List String
  | .all .. | .fixed .. | .position _ => []
  | .links _ _ _ _ primary _ _ => primary.leftNames
  | .inter _ children driver _ => leftNamesFrom driver 0 children

def leftNamesFrom (driver : Option Nat) (i : Nat) : List Query → List String
  | [] => []
  | q :: rest =>
    (if driver.getD i = i then q.leftNames else q.plainNames) ++ leftNamesFrom driver (i + 1) rest

end

theorem not_mem_leftNamesFrom {driver : Option Nat} {i j : Nat} {qs : List Query}
    (h : name ∉ leftNamesFrom driver i qs) (hq : qs[j]? = some q) :
    name ∉ if driver.getD (i + j) = i + j then q.leftNames else q.plainNames := by
  induction qs generalizing i j with
  | nil => cases hq
  | cons p rest ih =>
    unfold leftNamesFrom at h
    rw [List.mem_append, not_or] at h
    cases j with
    | zero =>
      obtain rfl := Option.some.inj hq
      exact h.1
    | succ j =>
      have hrest := ih h.2 hq
      rwa [Nat.add_assoc, Nat.add_comm 1] at hrest

/-- A tree with no result on the way binds all names but those that are left to constants only. -/
theorem Spent.bindsConstants (h : q.Spent) (hname : name ∉ q.leftNames) :
    BindsAs name q q.constants := by
  induction q using induct with
  | all | fixed | position =>
    intro b b' hb
    exact get?_bind_constants (.inl (Along.frame h)) hb
  | links frame handle pageSize direction primary inner snapshot ih =>
    intro b b' hb
    cases h with
    | links hframe hprimary =>
      unfold bind constants
      rw [Bindings.write_append]
      exact ih hprimary hname _ _ (get?_bind_constants (.inl hframe) hb)
  | inter frame children driver snapshot ih =>
    intro b b' hb
    cases h with
    | inter hframe hchildren =>
      unfold bind constants
      rw [Bindings.write_append, constantsAll_eq]
      refine bindsAs_all (fun q hq => ?_) (get?_bind_constants (.inl hframe) hb)
      obtain ⟨i, hi⟩ := List.mem_iff_getElem?.1 hq
      have hleft := not_mem_leftNamesFrom (i := 0) hname hi
      rw [Nat.zero_add] at hleft
      split at hleft
      · next hdrives => exact ih q hq (hchildren i q hi hdrives) hleft
      · exact bindsConstants_of_not_plain hleft

/-- No intersection of a tree has more than one child. -/
inductive Unbranched : Query → Prop
  | all {frame category cursor} : Unbranched (.all frame category cursor)
  | fixed {frame values index} : Unbranched (.fixed frame values index)
  | position {scan} : Unbranched (.position scan)
  | links {frame handle pageSize direction primary inner snapshot} :
      Unbranched primary →
        Unbranched (.links frame handle pageSize direction primary inner snapshot)
  | none {frame driver snapshot} : Unbranched (.inter frame [] driver snapshot)
  | only {frame child driver snapshot} :
      Unbranched child → Unbranched (.inter frame [child] driver snapshot)

theorem Unbranched.leftNames_eq (h : q.reset.Unbranched) (hwf : q.WellFormed) :
    q.leftNames = [] := by
  induction q using induct with
  | all | fixed | position => rfl
  | links frame handle pageSize direction primary inner snapshot ih =>
    cases h with
    | links h =>
    cases hwf with
    | links hprimary _ => exact ih h hprimary
  | inter frame children driver snapshot ih =>
    rcases children with _ | ⟨child, _ | ⟨second, rest⟩⟩
    · rfl
    · cases h with
      | only h =>
      cases hwf with
      | inter hchildren hdriver =>
        have hdrives : driver.getD 0 = 0 := by
          cases driver with
          | none => rfl
          | some d => exact Nat.lt_one_iff.1 (hdriver d rfl)
        have hchild := ih child List.mem_cons_self h (hchildren child List.mem_cons_self)
        unfold leftNames leftNamesFrom leftNamesFrom
        rw [if_pos hdrives, hchild]
        rfl
    · cases h

/-- What `q'` binds, which is `q` at the end of a pass. -/
structure Vacated (q q' : Query) : Prop where
  ended : q'.phase = .exhausted ∧ q'.result = none
  /-- Every name but those of children that did not drive is bound to constants only. -/
  constants : ∀ name ∉ q'.leftNames, ∀ b : Bindings,
    (q'.bind b).get? name = (Bindings.write b q.constants).get? name
  /-- That is every name where no intersection has several children. -/
  unbranched : q.Unbranched → q'.leftNames = []
  stays : ∀ disk, q'.next disk = (.ok none, q')

/-- The step that ends a pass leaves no part on the way with a result. -/
theorem Used.spent (h : q.Used store disk disk' q') (hdisk : store.SoundOn disk)
    (hq : Fresh store.handle q) (hreset : q.reset = q) (hphase : q'.phase ≠ .exhausted)
    (hnext : (q'.next disk').1 = .ok none) : (q'.next disk').2.Spent := by
  have hlively := h.lively hdisk hq hreset hphase
  obtain ⟨⟨now, hview, hnow⟩, ⟨c, hc, hstage⟩, -⟩ := h.stage_of_fresh hdisk hq hreset
  obtain ⟨hdrained, -⟩ := hstage.drained hc hnow hview hphase
  generalize q'.next disk' = out at hnext hdrained ⊢
  cases hdrained with
  | found => cases hnext
  | ended h => exact h hlively
  | failed => cases hnext

theorem Used.vacated (h : q.Used store disk disk' q') (hdisk : store.SoundOn disk)
    (hq : Fresh store.handle q) (hreset : q.reset = q) (hphase : q'.phase ≠ .exhausted)
    (hnext : (q'.next disk').1 = .ok none) : Vacated q (q'.next disk').2 := by
  have hspent := h.spent hdisk hq hreset hphase hnext
  obtain ⟨⟨now, hview, hnow⟩, ⟨c, hc, hstage⟩, -⟩ := h.stage_of_fresh hdisk hq hreset
  obtain ⟨-, ⟨c', -, hstage'⟩, hreset'⟩ := (Used.next h).stage_of_fresh hdisk hq hreset
  have hended := (hstage.phase_next hc hnow hview).2 hnext
  refine ⟨⟨hended, Along.frame hspent⟩, fun name hname b => ?_, fun hunbranched => ?_, fun disk => ?_⟩
  · rw [hspent.bindsConstants hname b b rfl, ← constants_reset, hreset']
  · exact Unbranched.leftNames_eq (by rwa [hreset']) hstage'.tracked.wellFormed
  · exact next_of_exhausted (isExhausted_iff.2 hended)

end Query

namespace Store

/-- Right after the step that ends a pass, a tree that was put together binds constants only, but for the
names of children that did not drive. -/
theorem Reached.bind_ended {store : Store} {disk disk' : Disk} {q q' : Query}
    (h : store.Reached disk) (hq : q.Composed store.handle) (hused : q.Used store disk disk' q')
    (hphase : q'.phase ≠ .exhausted) (hnext : (q'.next disk').1 = .ok none) :
    Query.Vacated q (q'.next disk').2 :=
  hused.vacated h.sound hq.fresh.1 hq.fresh.2 hphase hnext

/-- The list drives, and its name is no longer bound at the end. -/
theorem bind_ended_first_quad : ∃ (store : Store) (disk : Disk),
    Store.create {} "db" {} = .ok (store, disk) ∧
      let now := store.after disk (.add {} ⟨"alice", "follows", "bob", ""⟩)
      let listed := (Query.ofList [.node ⟨1⟩]).mapTags fun tags =>
        (tags.add "who").addFixed "where" (.node ⟨3⟩)
      let q := Query.both [listed, (Query.nodes store.handle 0).mapTags (·.add "x")]
      let found := q.next now
      let ended := found.2.next now
      found.1 = .ok (some (.node ⟨1⟩)) ∧ found.2.phase ≠ .exhausted ∧ ended.1 = .ok none ∧
        ended.2.leftNames = ["x"] ∧ q.constants = [("where", .node ⟨3⟩)] ∧
          Query.Vacated q ended.2 := by
  have hcreate : Store.create {} "db" {} = .ok (_, _) := rfl
  refine ⟨_, _, hcreate, ?_⟩
  intro now listed q found ended
  have hreached : Store.Reached _ now := .wrote _ (.created hcreate) (admitsOne_created hcreate)
  have hq : q.Composed _ := .built (.both (List.forall_mem_cons.2
    ⟨.mapTags _ (.ofList _), List.forall_mem_singleton.2 (.mapTags _ (.nodes 0))⟩))
  have hphase : found.2.phase ≠ .exhausted := by decide +kernel
  have hended : ended.1 = .ok none := by decide +kernel
  refine ⟨by decide +kernel, hphase, hended, by decide +kernel, rfl, ?_⟩
  exact hreached.bind_ended hq (.next .start) hphase hended

/-- A child that did not drive still binds its name at the end of a pass, to the last result that it
confirmed. -/
theorem leftover_first_quad : ∃ (store : Store) (disk : Disk),
    Store.create {} "db" {} = .ok (store, disk) ∧
      let now := store.after disk (.add {} ⟨"alice", "follows", "bob", ""⟩)
      let q := Query.both
        [.ofList [.node ⟨1⟩], (Query.nodes store.handle 0).mapTags (·.add "x")]
      let found := q.next now
      let ended := found.2.next now
      store.Reached now ∧ q.Composed store.handle ∧ found.1 = .ok (some (.node ⟨1⟩)) ∧
        ended.1 = .ok none ∧ ended.2.result = none ∧ q.constants = [] ∧
          (ended.2.bind ∅).get? "x" = some (.node ⟨1⟩) := by
  have hcreate : Store.create {} "db" {} = .ok (_, _) := rfl
  refine ⟨_, _, hcreate, ?_⟩
  intro now q found ended
  refine ⟨.wrote _ (.created hcreate) (admitsOne_created hcreate), .built (.both (List.forall_mem_cons.2
    ⟨.ofList _, List.forall_mem_singleton.2 (.mapTags _ (.nodes 0))⟩)), ?_⟩
  decide +kernel

end Store

end GraphStore
