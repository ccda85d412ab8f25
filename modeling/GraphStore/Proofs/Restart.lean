import GraphStore.Proofs.Isolation
import GraphStore.Proofs.Membership

/-!
# Starting over

* `Query.phase_contains` : asking for a result never moves a tree, not even if the answer fails;
* `Query.Onward` : a tree after any steps and answers, whatever the store is when each of them is
  taken (`Query.Onward.exhausted`: at the end of its pass it stays there);
* `Query.Used.fresh_of_fresh` : a tree that has not begun has made no progress anywhere;
* `Store.Reached.restarts` : from any point of its life a tree that was put together starts over, and a
  copy of it is the tree that has started over.
-/

namespace GraphStore.Query

variable {store : Store} {disk disk' : Disk} {q q' q₁ : Query}

/-! ## The end of a pass -/

theorem phase_answered (frame : Frame) (r : Ref) (answer : Except StoreError Bool) :
    (answered frame r answer).phase = frame.phase := by
  rcases answer with error | _ | _ <;> rfl

/-- However its tree is read, an answer makes nothing but a member the result of a tree. -/
theorem frame_probe (disk : Disk) (imposed : Option Snapshot) (r : Ref) (q : Query) :
    (q.probe disk imposed r).2.frame = answered q.frame r (q.probe disk imposed r).1 := by
  cases q with
  | all frame category cursor =>
    unfold probe
    split
    · split <;> rfl
    · rfl
  | fixed => rfl
  | position scan =>
    change (scan.contains disk imposed r).2.frame =
      answered scan.frame r (scan.contains disk imposed r).1
    unfold Scan.contains
    split
    · rfl
    · split
      · split <;> rfl
      · rfl
  | links frame handle pageSize direction primary inner snapshot =>
    unfold probe
    split
    · rfl
    · split
      · split <;> rfl
      · split
        · rfl
        · simp only
          split <;> rfl
  | inter frame children driver snapshot =>
    unfold probe
    split
    · rfl
    · split
      · rfl
      · split <;> rfl

theorem phase_probe (disk : Disk) (imposed : Option Snapshot) (r : Ref) (q : Query) :
    (q.probe disk imposed r).2.phase = q.phase := by
  unfold phase
  rw [frame_probe]
  exact phase_answered q.frame r _

theorem phase_contains (disk : Disk) (r : Ref) (q : Query) :
    (q.contains disk r).2.phase = q.phase :=
  phase_probe disk none r q

/-- `q'` is `q` after any steps and answers; whatever was written between them, each is taken from the
store as it is then. The size of a tree and the bindings of a result can be read at any time, which
changes neither. -/
inductive Onward (q : Query) : Query → Prop
  | start : Onward q q
  | next {q' : Query} (disk : Disk) : Onward q q' → Onward q (q'.next disk).2
  | contains {q' : Query} (disk : Disk) (r : Ref) : Onward q q' → Onward q (q'.contains disk r).2

theorem Onward.exhausted (h : q.Onward q') (hphase : q.phase = .exhausted) :
    q'.phase = .exhausted := by
  induction h with
  | start => exact hphase
  | next disk _ ih => rwa [next_of_exhausted (isExhausted_iff.2 ih)]
  | contains disk r _ ih => rwa [phase_contains]

theorem Onward.next_eq (h : q.Onward q') (hphase : q.phase = .exhausted) (disk : Disk) :
    q'.next disk = (.ok none, q') :=
  next_of_exhausted (isExhausted_iff.2 (h.exhausted hphase))

/-! ## Before a pass -/

/-- A step leads into the pass or to its end, and says which. -/
theorem Stage.phase_next {handle : Handle} {now c : Contents} (h : Stage handle c q) (hc : c.Sound)
    (hnow : now.Sound) (hview : disk.view handle = .ok now) :
    (q.next disk).2.phase ≠ .unstarted ∧
      ((q.next disk).1 = .ok none → (q.next disk).2.phase = .exhausted) := by
  cases hphase : q.frame.isExhausted with
  | true =>
    have hexhausted := isExhausted_iff.1 hphase
    rw [next_of_exhausted hphase]
    refine ⟨?_, fun _ => hexhausted⟩
    rw [hexhausted]
    decide
  | false =>
    obtain ⟨c', q₁, n, -, -, hn, hstepped⟩ := h.tracked.turn hc hnow hview hphase
    have hleft := nextWithin_left disk n q _ hn
    generalize q.next disk = out at hleft hstepped ⊢
    cases hstepped with
    | @found r q₂ =>
      cases hleft with
      | found hframe =>
        have hiterating : q₂.phase = .iterating := congrArg Frame.phase hframe
        refine ⟨?_, nofun⟩
        rw [hiterating]
        decide
    | ended hended =>
      have hexhausted := isExhausted_iff.1 hended.phase
      refine ⟨?_, fun _ => hexhausted⟩
      rw [hexhausted]
      decide

/-- Whatever a tree was used for, before a pass it has made no progress and keeps no snapshot. -/
theorem Used.fresh_of_fresh (h : q.Used store disk disk' q') (hdisk : store.SoundOn disk)
    (hq : Fresh store.handle q) (hreset : q.reset = q) (hphase : q'.phase = .unstarted) :
    Fresh store.handle q' := by
  induction h with
  | start => exact hq
  | wrote call _ _ ih => exact ih hphase
  | next hused _ =>
    obtain ⟨⟨now, hview, hnow⟩, ⟨c, hc, hstage⟩, -⟩ := hused.stage_of_fresh hdisk hq hreset
    exact absurd hphase (hstage.phase_next hc hnow hview).1
  | contains r hused ih =>
    obtain ⟨⟨now, hview, hnow⟩, -, -⟩ := hused.stage_of_fresh hdisk hq hreset
    rw [phase_contains] at hphase
    have hfresh := ih hphase
    obtain ⟨q'', hanswer, hasked⟩ := contains_spec hnow hview (.fresh hfresh) r
    rw [hanswer]
    exact ⟨.of_bare (hasked.bare ▸ hfresh.atStart.bare), hasked.wellFormed hfresh.wellFormed,
      hasked.stays _ hfresh.idle⟩
  | reset hused _ =>
    obtain ⟨-, ⟨c, -, hstage⟩, -⟩ := hused.stage_of_fresh hdisk hq hreset
    exact hstage.tracked.fresh_reset

theorem Used.fresh (h : q.Used store disk disk' q') (hdisk : store.SoundOn disk)
    (hq : q.Built store.handle) (hphase : q'.phase = .unstarted) : Fresh store.handle q' :=
  h.fresh_of_fresh hdisk hq.fresh hq.reset_eq hphase

/-- What `q'` does that is `q` after some use, at the end of its pass, when it starts over, and when
it is copied. -/
structure Restarts (store : Store) (disk : Disk) (q q' : Query) : Prop where
  ended : (q'.next disk).1 = .ok none → ∀ q'', (q'.next disk).2.Onward q'' →
    ∀ disk'', q''.next disk'' = (.ok none, q'')
  /-- Starting over undoes all progress, and leaves no result and no snapshot in any part. -/
  unstarted : q'.reset.AtStart ∧ q'.reset.bare = q'.reset ∧
    ∀ use ∈ q'.reset.uses, use.reading = false
  /-- After that the next pass, whenever it begins, is one over the contents committed then, and its
  results are those of the tree. -/
  pass : ∀ disk'' q'', q'.reset.Used store disk disk'' q'' → q''.phase = .unstarted →
    ∃ c results, disk''.view store.handle = .ok c ∧ q''.Isolated store disk'' c results ∧
      ∀ r, r ∈ results ↔ q.Denotes c r
  copy : q'.copy = q'.reset

end Query

namespace Store

open Query

/-- From any point of its life a tree that was put together starts over. -/
theorem Reached.restarts {store : Store} {disk disk' : Disk} {q q' : Query}
    (h : store.Reached disk) (hq : q.Built store.handle) (hused : q.Used store disk disk' q') :
    q.Restarts store disk' q' := by
  obtain ⟨hsound, ⟨c, hc, hstage⟩, hreset⟩ := hused.stage h.sound hq
  refine ⟨fun hnone q'' honward disk'' => ?_, ?_, fun disk'' q'' hlater hphase => ?_,
    copy_eq_reset q'⟩
  · obtain ⟨now, hview, hnow⟩ := hsound
    exact honward.next_eq ((hstage.phase_next hc hnow hview).2 hnone) disk''
  · exact ⟨atStart_reset q', bare_reset q', (idle_reset q').uses⟩
  · rw [hreset] at hlater
    obtain ⟨⟨now, hview, hnow⟩, -, hreset'⟩ := hlater.stage hsound hq
    have hfresh := hlater.fresh hsound hq hphase
    obtain ⟨results, hisolated⟩ := hfresh.isolated hnow hview
    refine ⟨now, results, hview, hisolated, fun r => ?_⟩
    rw [hisolated.denotes.2 r, ← member_iff hnow, ← member_reset, hreset', member_iff hnow]

theorem restarts_first_quad : ∃ (store : Store) (disk : Disk),
    Store.create {} "db" {} = .ok (store, disk) ∧
      let now := store.after disk (.add {} ⟨"alice", "follows", "bob", ""⟩)
      let q := Query.linksTo store.handle 1 (.ofList [.node ⟨1⟩]) .subject
      let midway := (q.next now).2
      midway.phase = .iterating ∧ (∃ use ∈ midway.uses, use.reading = true) ∧
        q.Restarts store now midway := by
  have hcreate : Store.create {} "db" {} = .ok (_, _) := rfl
  refine ⟨_, _, hcreate, ?_⟩
  intro now q midway
  have hreached : Store.Reached _ now := .wrote _ (.created hcreate) (admitsOne_created hcreate)
  refine ⟨by decide +kernel, by decide +kernel, ?_⟩
  exact hreached.restarts (.linksTo 1 _ (.ofList _)) (.next .start)

end Store

end GraphStore
