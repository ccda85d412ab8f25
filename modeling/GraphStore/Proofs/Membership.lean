import GraphStore.Proofs.Lifetime

/-!
# Membership between passes

* `Query.Used` : a tree and its store, after any writes to the store and any use of the tree;
* `Query.Used.stage_of_fresh`, `Query.Used.stage` : where that has taken the tree;
* `Store.Reached.contains_iff_yielded` : a tree that is in no pass has just the results that a pass
  over the last committed contents yields, and keeps no snapshot of them.
-/

namespace GraphStore

namespace Query

variable {store : Store} {disk disk' : Disk} {q q' : Query}

/-- `disk'` and `q'` are `disk` and `q` after any writes to the store and any use of the tree. -/
inductive Used (store : Store) (disk : Disk) (q : Query) : Disk → Query → Prop
  | start : Used store disk q disk q
  | wrote {disk' : Disk} {q' : Query} (call : Store.WriteCall) :
      Used store disk q disk' q' → store.Admits disk' call →
        Used store disk q (store.after disk' call) q'
  | next {disk' : Disk} {q' : Query} :
      Used store disk q disk' q' → Used store disk q disk' (q'.next disk').2
  | contains {disk' : Disk} {q' : Query} (r : Ref) :
      Used store disk q disk' q' → Used store disk q disk' (q'.contains disk' r).2
  | reset {disk' : Disk} {q' : Query} :
      Used store disk q disk' q' → Used store disk q disk' q'.reset

/-- A fresh tree is always at a stage of a pass over sound contents, and is the same tree up to
progress. -/
theorem Used.stage_of_fresh (h : q.Used store disk disk' q') (hdisk : store.SoundOn disk)
    (hq : Fresh store.handle q) (hreset : q.reset = q) :
    store.SoundOn disk' ∧ (∃ c, c.Sound ∧ Stage store.handle c q') ∧ q'.reset = q := by
  induction h with
  | start =>
    obtain ⟨c, hview, hc⟩ := hdisk
    have hidle : q.Idle := hreset ▸ idle_reset q
    have hstage : Stage store.handle c q :=
      ⟨.fresh hq, fun _ => hidle, fun _ => .inl hq.atStart⟩
    exact ⟨⟨c, hview, hc⟩, ⟨c, hc, hstage⟩, hreset⟩
  | wrote call _ hadmits ih =>
    obtain ⟨hsound, hstage⟩ := ih
    exact ⟨hsound.after hadmits, hstage⟩
  | next _ ih =>
    obtain ⟨⟨now, hview, hnow⟩, ⟨c, hc, hstage⟩, hreset⟩ := ih
    obtain ⟨c', hc', hstage', hreset'⟩ := hstage.next hc hnow hview
    exact ⟨⟨now, hview, hnow⟩, ⟨c', hc', hstage'⟩, hreset'.trans hreset⟩
  | contains r _ ih =>
    obtain ⟨⟨now, hview, hnow⟩, ⟨c, hc, hstage⟩, hreset⟩ := ih
    obtain ⟨c', hc', hsees⟩ := hstage.tracked.sees hview
    have hsound : c'.Sound := by rcases hc' with rfl | rfl <;> assumption
    obtain ⟨q'', hanswer, hstage', hbare, -⟩ := hstage.contains hsound hsees r
    rw [hanswer]
    exact ⟨⟨now, hview, hnow⟩, ⟨c, hc, hstage'⟩, (reset_of_bare hbare).trans hreset⟩
  | reset _ ih =>
    obtain ⟨hsound, ⟨c, hc, hstage⟩, hreset⟩ := ih
    exact ⟨hsound, ⟨c, hc, hstage.reset⟩, by rw [reset_reset, hreset]⟩

theorem Used.stage (h : q.Used store disk disk' q') (hdisk : store.SoundOn disk)
    (hq : q.Built store.handle) :
    store.SoundOn disk' ∧ (∃ c, c.Sound ∧ Stage store.handle c q') ∧ q'.reset = q :=
  h.stage_of_fresh hdisk hq.fresh hq.reset_eq

theorem Used.later {disk'' : Disk} (h : q.Used store disk disk' q')
    (hlater : store.Later disk' disk'') : q.Used store disk disk'' q' := by
  induction hlater with
  | now => exact h
  | wrote call _ hadmits ih => exact .wrote call ih hadmits

/-- Asked for a result, `q'` answers whether a pass of the tree `q` over the last committed contents
yields it. No part of what it is afterwards keeps a snapshot, or the store open for reading. -/
def AnswersByPass (disk : Disk) (q q' : Query) (r : Ref) : Prop :=
  ∃ results last q'', Pass disk q results last ∧
    q'.contains disk r = (.ok (decide (r ∈ results)), q'') ∧ q''.phase = q'.phase ∧
      q''.Idle ∧ ∀ use ∈ q''.uses, use.reading = false

/-- In no pass a tree answers by a pass. -/
theorem Used.answersByPass (h : q.Used store disk disk' q') (hdisk : store.SoundOn disk)
    (hq : q.Built store.handle) (hphase : q'.phase ≠ .iterating) (r : Ref) :
    AnswersByPass disk' q q' r := by
  obtain ⟨⟨now, hview, hnow⟩, ⟨c, hc, hstage⟩, hreset⟩ := h.stage hdisk hq
  obtain ⟨results, last, hpass, -, hresults⟩ := hq.fresh.pass hnow hview
  obtain ⟨hidle, hover⟩ := hstage.resting hphase
  obtain ⟨q'', hanswer, -, hbare, hkept⟩ := hstage.contains hnow
    (hover.sees_taken (Disk.take_of_view hview)) r
  have hmember : q'.member now r = decide (r ∈ results) := by
    rw [← member_reset, hreset, Bool.eq_iff_iff, decide_eq_true_eq, hresults, member_iff hnow]
  rw [hmember] at hanswer
  have hidle' := hkept hidle
  exact ⟨results, last, q'', hpass, hanswer, phase_bare hbare, hidle', hidle'.uses⟩

end Query

namespace Store

/-- In no pass a tree has just the results that a pass over the last committed contents yields. It
keeps nothing of them, and so answers in the same way after any further writes. -/
theorem Reached.contains_iff_yielded {store : Store} {disk disk' : Disk} {q q' : Query}
    (h : store.Reached disk) (hq : q.Built store.handle) (hused : q.Used store disk disk' q')
    (hphase : q'.phase ≠ .iterating) (r : Ref) :
    q.AnswersByPass disk' q' r ∧ ∀ disk'', store.Later disk' disk'' →
      q.AnswersByPass disk'' (q'.contains disk' r).2 r := by
  have hanswers := hused.answersByPass h.sound hq hphase r
  refine ⟨hanswers, fun disk'' hlater => ?_⟩
  refine ((Query.Used.contains r hused).later hlater).answersByPass h.sound hq ?_ r
  obtain ⟨results, last, q'', -, hanswer, hsame, -⟩ := hanswers
  rw [hanswer]
  exact hsame ▸ hphase

theorem contains_iff_yielded_first_quad : ∃ (store : Store) (disk : Disk),
    Store.create {} "db" {} = .ok (store, disk) ∧
      let now := store.after disk (.add {} ⟨"alice", "follows", "bob", ""⟩)
      let q := Query.both [.quads store.handle 0, .quadsAt store.handle 0 .subject ⟨1⟩]
      let ended := ((q.next now).2.next now).2
      let r := Ref.quad ⟨⟨1⟩, ⟨2⟩, ⟨3⟩, ⟨0⟩⟩
      ended.phase = .exhausted ∧ q.AnswersByPass now ended r ∧ ∀ later, store.Later now later →
        q.AnswersByPass later (ended.contains now r).2 r := by
  have hcreate : Store.create {} "db" {} = .ok (_, _) := rfl
  refine ⟨_, _, hcreate, ?_⟩
  intro now q ended r
  have hreached : Store.Reached _ now := .wrote _ (.created hcreate) (admitsOne_created hcreate)
  have hended : ended.phase = .exhausted := by decide +kernel
  refine ⟨hended, hreached.contains_iff_yielded ?_ (.next (.next .start)) ?_ r⟩
  · exact .both (List.forall_mem_cons.2 ⟨.quads 0, List.forall_mem_singleton.2 (.quadsAt 0 _ _)⟩)
  · rw [hended]
    decide

end Store

end GraphStore
