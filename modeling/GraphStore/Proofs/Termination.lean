import GraphStore.Proofs.Closing

/-!
# Passes come to an end

* `Cursor.nextWithin` : a step of a cursor as the loop it is, which fetches at most one page
  (`Cursor.nextWithin_eq`);
* `Query.nextWithin_mono` : a step that has come to something comes to the same in more turns;
* `Query.Returns` : the turns that a step is given suffice, at every stage (`Query.Tracked.returns`);
* `Query.EndsWithin` : one of the next steps ends the pass, whatever happens between them;
* `Store.Reached.terminates` : from any point of its life a tree ends its pass after as many results
  as it has still to supply, whatever is written meanwhile.
-/

namespace GraphStore

variable {disk disk' : Disk} {handle : Handle} {now c : Contents}

/-! ## Cursors -/

namespace Cursor

/-- The cursor with another page in its buffer. A page that is not full is the last one. -/
def fetchPage (disk : Disk) (cursor : Cursor) : Except StoreError Unit × Cursor :=
  match cursor.view disk none with
  | .error error => (.error error, cursor)
  | .ok s =>
    match cursor.source.fetch s.contents cursor.resume cursor.pageSize with
    | .error error => (.error error, { cursor with snapshot := some s })
    | .ok refs => (.ok (), { cursor with
        snapshot := some s
        buffer := refs
        resume := refs.getLast?
        exhausted := refs.length < cursor.pageSize })

/-- A step in at most the given number of rounds: while the buffer is empty and pages are left, the
next one is fetched. -/
def nextWithin (disk : Disk) : Nat → Cursor → Option (Outcome × Cursor)
  | 0, _ => none
  | n + 1, cursor =>
    match cursor.buffer with
    | ref :: rest => some (.ok (some ref), { cursor with buffer := rest })
    | [] =>
      if cursor.exhausted then some (.ok none, { cursor with snapshot := none })
      else
        match cursor.fetchPage disk with
        | (.error error, cursor) => some (.error error, cursor)
        | (.ok _, cursor) => nextWithin disk n cursor

/-- No step fetches a second page: pages hold at least one value, so an empty one is the last. -/
theorem nextWithin_eq (disk : Disk) (cursor : Cursor) {n : Nat} (hn : 2 ≤ n) :
    cursor.nextWithin disk n = some (cursor.next disk) := by
  obtain ⟨n, rfl⟩ := Nat.exists_eq_add_of_le' hn
  unfold nextWithin next
  cases hbuffer : cursor.buffer with
  | cons ref rest => rfl
  | nil =>
    simp only
    split
    · rfl
    · unfold fetchPage
      cases cursor.view disk none with
      | error error => rfl
      | ok s =>
        simp only
        cases cursor.source.fetch s.contents cursor.resume cursor.pageSize with
        | error error => simp only [hbuffer]
        | ok refs =>
          cases refs with
          | cons ref rest => rfl
          | nil =>
            -- an empty page is not full, so the second round finds the cursor exhausted
            have hlast : decide (([] : List Ref).length < cursor.pageSize) = true :=
              decide_eq_true cursor.pageSize_pos
            simp only [nextWithin, hlast, if_true]

end Cursor

/-! ## Turns -/

namespace Query

variable {q q' : Query} {out : Outcome × Query}

section Mono

variable {next next' : Query → Option (Outcome × Query)} {frame : Frame} {pageSize d : Nat}
  {direction : Direction} {primary : Query} {inner : Option Scan} {children : List Query}
  {driver : Option Nat} {snapshot : Option Snapshot} {s : Snapshot}

def Extends (next next' : Query → Option (Outcome × Query)) : Prop :=
  ∀ q out, next q = some out → next' q = some out

theorem advanceLinks_mono (hnext : Extends next next')
    (h : advanceLinks disk next frame handle pageSize direction primary inner s = some out) :
    advanceLinks disk next' frame handle pageSize direction primary inner s = some out := by
  unfold advanceLinks at h ⊢
  cases inner with
  | some scan =>
    simp only at h ⊢
    generalize scan.next disk = step at h ⊢
    obtain ⟨error | _ | r, scan'⟩ := step
    · exact h
    · exact hnext _ _ h
    · exact h
  | none =>
    simp only at h ⊢
    cases hprimary : next primary with
    | none =>
      rw [hprimary] at h
      cases h
    | some step =>
      rw [hprimary] at h
      rw [hnext _ _ hprimary]
      obtain ⟨error | _ | id | key, primary'⟩ := step
      · exact h
      · exact h
      · exact hnext _ _ h
      · exact hnext _ _ h

theorem advanceDriver_mono (hnext : Extends next next')
    (h : advanceDriver disk next frame children d snapshot = some out) :
    advanceDriver disk next' frame children d snapshot = some out := by
  unfold advanceDriver at h ⊢
  cases hchild : children[d]? with
  | none =>
    rw [hchild] at h
    cases h
  | some child =>
    simp only [hchild, Option.map_some, Option.bind_eq_bind, Option.bind_some] at h ⊢
    cases hdriver : next child with
    | none =>
      rw [hdriver] at h
      cases h
    | some step =>
      rw [hdriver] at h
      rw [hnext _ _ hdriver]
      simp only [Option.bind_some] at h ⊢
      obtain ⟨error | _ | r, child'⟩ := step
      · exact h
      · exact h
      · simp only at h ⊢
        generalize probeAll disk none r (some d) (children.set d child') = answer at h ⊢
        obtain ⟨error | _ | _, children'⟩ := answer
        · exact h
        · exact hnext _ _ h
        · exact h

theorem advanceInter_mono (hnext : Extends next next')
    (h : advanceInter disk next frame children driver snapshot = some out) :
    advanceInter disk next' frame children driver snapshot = some out := by
  unfold advanceInter at h ⊢
  cases driver with
  | some d => exact advanceDriver_mono hnext h
  | none =>
    simp only at h ⊢
    cases hdriver : chooseDriver disk children with
    | error error =>
      rw [hdriver] at h
      exact h
    | ok d =>
      rw [hdriver] at h
      exact advanceDriver_mono hnext h

theorem advance_mono (hnext : Extends next next') :
    Extends (advance disk next) (advance disk next') := by
  intro q out h
  unfold advance at h ⊢
  -- phases and snapshots are looked at before any part takes a step, so only the ends differ
  cases q with
  | all | fixed | position => exact h
  | links frame handle pageSize direction primary inner snapshot =>
    simp only at h ⊢
    split
    · next hphase => rwa [if_pos hphase] at h
    · next hphase =>
      rw [if_neg hphase] at h
      cases snapshot with
      | some s => exact advanceLinks_mono hnext h
      | none =>
        simp only at h ⊢
        cases htake : disk.take handle with
        | error error =>
          rw [htake] at h
          exact h
        | ok s =>
          rw [htake] at h
          exact advanceLinks_mono hnext h
  | inter frame children driver snapshot =>
    simp only at h ⊢
    split
    · next hphase => rwa [if_pos hphase] at h
    · next hphase =>
      rw [if_neg hphase] at h
      split
      · next hempty => rwa [if_pos hempty] at h
      · next hempty =>
        rw [if_neg hempty] at h
        cases snapshot with
        | some s => exact advanceInter_mono hnext h
        | none =>
          cases hfirst : firstHandle? children with
          | none =>
            rw [hfirst] at h
            exact advanceInter_mono hnext h
          | some handle =>
            simp only [hfirst] at h ⊢
            cases htake : disk.take handle with
            | error error =>
              rw [htake] at h
              exact h
            | ok s =>
              rw [htake] at h
              exact advanceInter_mono hnext h

/-- More turns do not change what a step comes to. -/
theorem nextWithin_mono {m n : Nat} (hmn : m ≤ n) :
    Extends (nextWithin disk m) (nextWithin disk n) := by
  induction m generalizing n with
  | zero =>
    intro q out h
    cases h
  | succ m ih =>
    obtain ⟨n, rfl⟩ := Nat.exists_eq_add_of_le' (Nat.le_trans (Nat.le_add_left 1 m) hmn)
    exact advance_mono (ih (Nat.le_of_succ_le_succ hmn))

end Mono

/-! ## One step -/

/-- The turns that a step is given suffice: in so many, or any more, it comes to the same. -/
def Returns (disk : Disk) (q : Query) : Prop :=
  ∀ n, q.turns disk none ≤ n → nextWithin disk n q = some (q.next disk)

theorem Returns.of_nextWithin (h : nextWithin disk (q.turns disk none) q = some out) :
    Returns disk q := by
  intro n hn
  unfold next
  rw [h]
  exact nextWithin_mono hn q out h

theorem returns_of_keeps (hc : c.Sound) (hview : disk.view handle = .ok now)
    (hkeeps : Over (Keeps handle c) handle q) (hwf : q.WellFormed) : Returns disk q := by
  obtain ⟨out, hout, -⟩ := nextWithin_spec hc hview _ q hkeeps hwf (Nat.le_refl _)
  rw [← (bounds_of_keeps hc hkeeps hwf).2] at hout
  exact .of_nextWithin hout

theorem Fresh.returns (hnow : now.Sound) (hview : disk.view handle = .ok now) (h : Fresh handle q) :
    Returns disk q := by
  obtain ⟨-, hwf, hkeeps⟩ := h.begun now
  have hturns : q.turns disk none = (q.begun ⟨handle, now⟩).turnsIn now := by
    rw [(h.bounds hnow hview).2, (bounds_begun now _ q).2]
  obtain ⟨out, hout, -⟩ := nextWithin_spec hnow hview _ _ hkeeps hwf (Nat.le_refl _)
  rw [nextWithin_begun (Disk.take_of_view hview) h, ← hturns] at hout
  exact .of_nextWithin hout

theorem returns_of_exhausted (h : q.frame.isExhausted = true) : Returns disk q := by
  intro n hn
  obtain ⟨m, rfl⟩ := Nat.exists_eq_succ_of_ne_zero
    (Nat.ne_of_gt (Nat.lt_of_lt_of_le (turns_pos disk none q) hn))
  rw [next_of_exhausted h]
  exact advance_of_exhausted h _

theorem Tracked.returns (hc : c.Sound) (hnow : now.Sound) (hview : disk.view handle = .ok now)
    (h : Tracked handle c q) : Returns disk q := by
  cases h with
  | fresh h => exact h.returns hnow hview
  | running hkeeps hwf => exact returns_of_keeps hc hview hkeeps hwf
  | ended hended => exact returns_of_exhausted hended

/-! ## A pass -/

variable {store : Store}

/-- `disk'` and `q'` are `disk` and `q` after any writes to the store and any questions to the
tree. -/
inductive Meanwhile (store : Store) (disk : Disk) (q : Query) : Disk → Query → Prop
  | start : Meanwhile store disk q disk q
  | wrote {disk' : Disk} {q' : Query} (call : Store.WriteCall) :
      Meanwhile store disk q disk' q' → Meanwhile store disk q (store.after disk' call) q'
  | asked {disk' : Disk} {q' : Query} (r : Ref) :
      Meanwhile store disk q disk' q' → Meanwhile store disk q disk' (q'.contains disk' r).2

/-- One of the next steps, at most so many, ends the pass, whatever happens between them. Each comes
to something. -/
def EndsWithin (store : Store) : Nat → Disk → Query → Prop
  | 0, _, _ => False
  | n + 1, disk, q =>
    q.Returns disk ∧
      match q.next disk with
      | (.error _, _) => False
      | (.ok none, _) => True
      | (.ok (some _), found) => ∀ disk' q', found.Meanwhile store disk disk' q' →
          EndsWithin store n disk' q'

theorem Meanwhile.keeps (h : q.Meanwhile store disk disk' q') (hc : c.Sound)
    (hview : disk.view store.handle = .ok now)
    (hkeeps : Over (Keeps store.handle c) store.handle q) :
    (∃ now', disk'.view store.handle = .ok now') ∧ q'.bare = q.bare ∧
      Over (Keeps store.handle c) store.handle q' := by
  induction h with
  | start => exact ⟨⟨now, hview⟩, rfl, hkeeps⟩
  | wrote call _ ih =>
    obtain ⟨⟨now', hview'⟩, hq'⟩ := ih
    exact ⟨Store.view_after hview' call, hq'⟩
  | asked r _ ih =>
    obtain ⟨hview', hbare, hkeeps'⟩ := ih
    obtain ⟨q'', hanswer, hasked⟩ := probe_spec hc hkeeps'.sees (.inl rfl) r
    unfold contains
    rw [hanswer]
    exact ⟨hview', hasked.bare.trans hbare, hasked.stays _ hkeeps'⟩

/-- Each step of a pass that has begun leaves fewer results to come. -/
theorem endsWithin_of_keeps (hc : c.Sound) (hview : disk.view store.handle = .ok now)
    (hkeeps : Over (Keeps store.handle c) store.handle q) (hwf : q.WellFormed) {n : Nat}
    (hn : q.supplyIn c ≤ n) : q.EndsWithin store (n + 1) disk := by
  induction n generalizing disk now q with
  | zero =>
    refine ⟨returns_of_keeps hc hview hkeeps hwf, ?_⟩
    have hstepped := next_spec hc hview hkeeps hwf
    generalize q.next disk = out at hstepped
    cases hstepped with
    | ended => trivial
    | found hfound => exact absurd (Nat.lt_of_lt_of_le hfound.supply hn) (Nat.not_lt_zero _)
  | succ n ih =>
    refine ⟨returns_of_keeps hc hview hkeeps hwf, ?_⟩
    have hstepped := next_spec hc hview hkeeps hwf
    generalize q.next disk = out at hstepped
    cases hstepped with
    | ended => trivial
    | found hfound =>
      intro disk' q' hmeanwhile
      obtain ⟨⟨now', hview'⟩, hbare, hkeeps'⟩ := hmeanwhile.keeps hc hview hfound.keeps
      refine ih hview' hkeeps' (.of_bare (hbare ▸ hfound.wellFormed.bare)) ?_
      rw [← (bounds_bare c q').1, hbare, (bounds_bare c _).1]
      exact Nat.le_of_lt_succ (Nat.lt_of_lt_of_le hfound.supply hn)

/-- Wherever a tree is, the results that it has still to supply bound the steps of its pass. -/
theorem Tracked.endsWithin (hc : c.Sound) (hnow : now.Sound)
    (hview : disk.view store.handle = .ok now) (h : Tracked store.handle c q) :
    q.EndsWithin store (q.supply disk none + 1) disk := by
  have hreturns := h.returns hc hnow hview
  cases h with
  | fresh h =>
    obtain ⟨-, hwf, hkeeps⟩ := h.begun now
    obtain ⟨-, hends⟩ := endsWithin_of_keeps hnow hview hkeeps hwf (Nat.le_refl _)
    rw [next_begun hnow hview h, (bounds_begun now _ q).1, ← (h.bounds hnow hview).1] at hends
    exact ⟨hreturns, hends⟩
  | running hkeeps hwf =>
    exact endsWithin_of_keeps hc hview hkeeps hwf
      (Nat.le_of_eq (bounds_of_keeps hc hkeeps hwf).1.symm)
  | ended hended =>
    refine ⟨hreturns, ?_⟩
    rw [next_of_exhausted hended]
    trivial

end Query

namespace Store

open Query

/-- Wherever a tree is and whatever was written, its next step comes to something, and so do all
later ones, until one ends the pass. Cursors, the leaves of trees, fetch a page at most once in a
step. -/
theorem Reached.terminates {store : Store} {disk disk' : Disk} {q q' : Query}
    (h : store.Reached disk) (hq : q.Built store.handle) (hused : q.Used store disk disk' q') :
    (∀ cursor n, 2 ≤ n → Cursor.nextWithin disk' n cursor = some (cursor.next disk')) ∧
      q'.EndsWithin store (q'.supply disk' none + 1) disk' := by
  obtain ⟨⟨now, hview, hnow⟩, ⟨c, hc, hstage⟩, -⟩ := hused.stage h.sound hq
  exact ⟨fun cursor n hn => cursor.nextWithin_eq disk' hn, hstage.tracked.endsWithin hc hnow hview⟩

theorem terminates_first_quad : ∃ (store : Store) (disk : Disk),
    Store.create {} "db" {} = .ok (store, disk) ∧
      let now := store.after disk (.add {} ⟨"alice", "follows", "bob", ""⟩)
      let linked := Query.linksTo store.handle 0
        (.ofList [.quad ⟨⟨1⟩, ⟨2⟩, ⟨3⟩, ⟨0⟩⟩, .node ⟨1⟩]) .subject
      let q := Query.both [linked, .quads store.handle 0]
      let found := (q.next now).2
      (∀ cursor n, 2 ≤ n → Cursor.nextWithin now n cursor = some (cursor.next now)) ∧
        found.EndsWithin store (found.supply now none + 1) now := by
  have hcreate : Store.create {} "db" {} = .ok (_, _) := rfl
  refine ⟨_, _, hcreate, ?_⟩
  intro now linked q found
  have hreached : Store.Reached _ now := .wrote _ (.created hcreate) (admitsOne_created hcreate)
  have hbuilt : q.Built _ :=
    .both (List.forall_mem_cons.2 ⟨.linksTo 0 _ (.ofList _), List.forall_mem_singleton.2 (.quads 0)⟩)
  exact hreached.terminates hbuilt (.next .start)

end Store

end GraphStore
