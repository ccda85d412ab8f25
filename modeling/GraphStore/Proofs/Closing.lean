import GraphStore.Proofs.Restart

/-!
# Queries of a closed store

* `Query.Enclosed.next_congr` : in the middle of its pass a tree reads nothing but the snapshots that
  its parts keep, so a step is the same whatever became of the store;
* `Query.Fresh.next_closed` : the first step of a pass takes a snapshot, which a closed store refuses;
* `Query.AfterClose` : a tree after any use of it once its store is closed;
* `Store.Reached.closes` : closing a store stops the passes that begin later; one that has begun runs
  to its end (`Store.outlives_close`).
-/

namespace GraphStore

variable {disk disk' : Disk} {handle : Handle} {now c : Contents} {imposed : Option Snapshot} {r : Ref}

/-! ## In a pass -/

theorem Cursor.Over.contents_congr {cursor : Cursor} (h : cursor.Over (Keeps handle c) handle)
    (disk disk' : Disk) (imposed : Option Snapshot) :
    cursor.contents disk' imposed = cursor.contents disk imposed := by
  unfold Cursor.contents Cursor.view
  rw [h.snapshot]
  cases imposed <;> rfl

theorem Cursor.Over.next_congr {cursor : Cursor} (h : cursor.Over (Keeps handle c) handle)
    (disk disk' : Disk) :
    cursor.next disk' = cursor.next disk := by
  unfold Cursor.next Cursor.view
  rw [h.snapshot]
  rfl

theorem Scan.next_congr {scan : Scan} (h : scan.cursor.Over (Keeps handle c) handle)
    (disk disk' : Disk) :
    scan.next disk' = scan.next disk := by
  unfold Scan.next
  rw [h.next_congr disk disk']

namespace Query

variable {q q' : Query} {n d : Nat} {frame : Frame} {pageSize : Nat} {direction : Direction}
  {primary : Query} {inner : Option Scan} {children : List Query} {driver : Option Nat}
  {snapshot : Option Snapshot}

theorem probeAll_congr {qs : List Query}
    (h : ∀ q ∈ qs, ∀ imposed, q.probe disk' imposed r = q.probe disk imposed r)
    (imposed : Option Snapshot) (skip : Option Nat) :
    probeAll disk' imposed r skip qs = probeAll disk imposed r skip qs := by
  induction qs generalizing skip with
  | nil => rfl
  | cons q rest ih =>
    obtain ⟨hq, hrest⟩ := List.forall_mem_cons.1 h
    unfold probeAll
    rw [hq imposed]
    simp only [ih hrest]

/-- A tree that keeps a snapshot answers from it, whatever became of the store. -/
theorem probe_congr (h : Over (Keeps handle c) handle q) (imposed : Option Snapshot) (r : Ref) :
    q.probe disk' imposed r = q.probe disk imposed r := by
  induction h generalizing imposed r with
  | all hcursor =>
    unfold probe
    rw [hcursor.contents_congr disk disk']
  | fixed => rfl
  | position hcursor =>
    unfold probe Scan.contains
    simp only [hcursor.contents_congr disk disk']
  | @links frame pageSize direction primary inner snapshot hs _ _ ih =>
    subst hs
    unfold probe
    cases r.asQuad? with
    | none => rfl
    | some key =>
      simp only [ih]
      cases imposed <;> rfl
  | @inter frame children driver snapshot _ hs ih =>
    have hall (imposed : Option Snapshot) (skip : Option Nat) :
        probeAll disk' imposed r skip children = probeAll disk imposed r skip children :=
      probeAll_congr (fun q hq imposed => ih q hq imposed r) imposed skip
    unfold probe
    cases hfirst : firstHandle? children with
    | none => simp only [hall, Option.mapM_none]
    | some h =>
      obtain rfl := hs (by rw [hfirst]; exact Option.some_ne_none _)
      have hseen : (imposed.or (some ⟨handle, c⟩)).isSome = true := by cases imposed <;> rfl
      simp only [hall, hseen, if_true]

/-- A tree in the middle of a pass, which reads nothing but the snapshots that its parts keep. -/
structure Enclosed (handle : Handle) (c : Contents) (q : Query) : Prop where
  keeps : Over (Keeps handle c) handle q
  wellFormed : q.WellFormed
  underway : Underway q

theorem Enclosed.of_found (hunderway : Underway q)
    (hout : nextWithin disk n q = some (.ok (some r), q'))
    (hfound : Found handle now c q r q') : Enclosed handle c q' := by
  cases nextWithin_left disk n _ _ hout with
  | found _ h => exact ⟨hfound.keeps, hfound.wellFormed, h (.inr hunderway)⟩

/-- Steps within so many turns are the same on two disks. -/
def SameWithin (disk disk' : Disk) (handle : Handle) (c : Contents) (n : Nat) : Prop :=
  ∀ q, Enclosed handle c q → q.turnsIn c ≤ n → nextWithin disk' n q = nextWithin disk n q

theorem advanceLinks_congr (hc : c.Sound) (hview : disk.view handle = .ok now)
    (hsame : SameWithin disk disk' handle c n)
    (h : Enclosed handle c (.links frame handle pageSize direction primary inner (some ⟨handle, c⟩)))
    (hturns : turnsIn c (.links frame handle pageSize direction primary inner (some ⟨handle, c⟩)) ≤
      n + 1) :
    advanceLinks disk' (nextWithin disk' n) frame handle pageSize direction primary inner ⟨handle, c⟩ =
      advanceLinks disk (nextWithin disk n) frame handle pageSize direction primary inner
        ⟨handle, c⟩ := by
  obtain ⟨hkeeps, hwf, hunderway⟩ := h
  cases hkeeps with
  | links hs hprimary hinner =>
  cases hwf with
  | links hprimaryWf hinnerWf =>
  cases hunderway with
  | links hprimaryUnderway =>
  unfold advanceLinks
  cases inner with
  | some scan =>
    simp only
    rw [Scan.next_congr (hinner scan rfl) disk disk']
    rcases scan.next disk with ⟨error | _ | r, scan'⟩
    · rfl
    · refine hsame _ ⟨.links rfl hprimary (by rintro _ ⟨⟩), .links hprimaryWf (by rintro _ ⟨⟩),
        .links hprimaryUnderway⟩ ?_
      rw [turnsIn_links_scan] at hturns
      rw [turnsIn_links]
      omega
    · rfl
  | none =>
    rw [turnsIn_links] at hturns
    obtain ⟨out, hout, hstepped⟩ :=
      nextWithin_spec hc hview n primary hprimary hprimaryWf (by omega)
    simp only
    rw [hsame primary ⟨hprimary, hprimaryWf, hprimaryUnderway⟩ (by omega), hout]
    cases hstepped with
    | ended => rfl
    | @found r primary' hfound =>
      obtain ⟨hkeeps', hwf', hunderway'⟩ := Enclosed.of_found hprimaryUnderway hout hfound
      have hsupply := hfound.supply
      have hturned := hfound.turns
      cases r with
      | node id =>
        refine hsame _ ⟨.links rfl hkeeps' ?_, .links hwf' ?_, .links hunderway'⟩ ?_
        · rintro _ ⟨⟩
          exact ⟨rfl, rfl⟩
        · rintro _ ⟨⟩
          exact ⟨Scan.setSnapshot_wellFormed (Scan.ofDirection_wellFormed _ _ _ _) _, id, rfl⟩
        · rw [turnsIn_links_scan]
          omega
      | quad key =>
        refine hsame _ ⟨.links rfl hkeeps' (by rintro _ ⟨⟩), .links hwf' (by rintro _ ⟨⟩),
          .links hunderway'⟩ ?_
        rw [turnsIn_links]
        omega

theorem advanceDriver_congr (hc : c.Sound) (hview : disk.view handle = .ok now)
    (hsame : SameWithin disk disk' handle c n)
    (h : Enclosed handle c (.inter frame children (some d) snapshot))
    (hturns : turnsIn c (.inter frame children (some d) snapshot) ≤ n + 1) :
    advanceDriver disk' (nextWithin disk' n) frame children d snapshot =
      advanceDriver disk (nextWithin disk n) frame children d snapshot := by
  obtain ⟨hkeeps, hwf, hunderway⟩ := h
  cases hkeeps with
  | inter hchildren hsnapshot =>
  cases hwf with
  | inter hwfs hdriver =>
  cases hunderway with
  | inter hunderways =>
  obtain ⟨child, hchild⟩ : ∃ child, children[d]? = some child :=
    ⟨_, List.getElem?_eq_getElem (hdriver d rfl)⟩
  have hmem : child ∈ children := List.mem_of_getElem? hchild
  have hle : child.turnsIn c ≤ turnsAllIn c children := by
    rw [turnsAllIn_eq]
    exact List.le_sum_of_mem (List.mem_map_of_mem hmem)
  have hturnsAll : turnsAllIn c children + supplyAllIn c children + 1 ≤ n + 1 := hturns
  have hunderwayChild := hunderways child hchild
  obtain ⟨out, hout, hstepped⟩ :=
    nextWithin_spec hc hview n child (hchildren child hmem) (hwfs child hmem) (by omega)
  have hout' := hsame child ⟨hchildren child hmem, hwfs child hmem, hunderwayChild⟩ (by omega)
  unfold advanceDriver
  rw [hchild]
  simp only [Option.map_some, hout', hout]
  cases hstepped with
  | ended => rfl
  | @found r child' hfound =>
    have hkept := forall_set (d := d) hchildren hfound.keeps
    have hanswers : probeAll disk' none r (some d) (children.set d child') =
        probeAll disk none r (some d) (children.set d child') :=
      probeAll_congr (fun q hq imposed => probe_congr (hkept q hq) imposed r) none (some d)
    have hprobes : ∀ q ∈ children.set d child', Probes disk handle c q := fun q hq =>
      probe_spec hc (hkept q hq).sees
    obtain ⟨children', hanswer, hasked⟩ := probeAll_spec (r := r) hprobes (.inl rfl) (some d)
    have hdriven := hfound.driven hchild hchildren hwfs hasked
    simp only [Option.bind_eq_bind, Option.bind_some, hanswers, hanswer]
    cases (others (some d) (children.set d child')).all fun q => q.member c r with
    | true => rfl
    | false =>
      have hsupply := hdriven.supply
      have hturnsAll' := hdriven.turns
      refine hsame _ ⟨hdriven.keeps_inter hsnapshot, hdriven.wellFormed_inter, .inter ?_⟩ ?_
      · intro q hq
        rw [hdriven.after] at hq
        cases hq
        exact (Enclosed.of_found hunderwayChild hout hfound).underway
      · unfold turnsIn
        omega

/-- In the middle of a pass a step reads nothing but the snapshots of the tree. -/
theorem nextWithin_congr (hc : c.Sound) (hview : disk.view handle = .ok now) (disk' : Disk)
    (n : Nat) : SameWithin disk disk' handle c n := by
  induction n with
  | zero => exact fun _ _ _ => rfl
  | succ n ih =>
    intro q h hturns
    cases q with
    | all frame category cursor =>
      cases h.keeps with
      | all hcursor =>
        change advance disk' _ _ = advance disk _ _
        rw [advance, advance, hcursor.next_congr disk disk']
    | fixed => rfl
    | position scan =>
      cases h.keeps with
      | position hcursor =>
        change advance disk' _ _ = advance disk _ _
        rw [advance, advance, Scan.next_congr hcursor disk disk']
    | links frame handle' pageSize direction primary inner snapshot =>
      obtain ⟨rfl, rfl⟩ : handle' = handle ∧ snapshot = some ⟨handle, c⟩ := by
        cases h.keeps with
        | links hs => exact ⟨rfl, hs⟩
      change advance disk' _ _ = advance disk _ _
      unfold advance
      simp only [advanceLinks_congr hc hview ih h hturns]
    | inter frame children driver snapshot =>
      obtain ⟨d, rfl⟩ : ∃ d, driver = some d := by
        cases h.underway with
        | inter => exact ⟨_, rfl⟩
      have hdriver := advanceDriver_congr hc hview ih h hturns
      change advance disk' _ _ = advance disk _ _
      unfold advance advanceInter
      cases hfirst : firstHandle? children with
      | none => cases snapshot <;> simp only [hfirst, hdriver]
      | some h' =>
        obtain rfl : snapshot = some ⟨handle, c⟩ := by
          cases h.keeps with
          | inter _ hs => exact hs (by rw [hfirst]; exact Option.some_ne_none _)
        simp only [hdriver]

theorem Enclosed.next_congr (h : Enclosed handle c q) (hc : c.Sound)
    (hview : disk.view handle = .ok now) (disk' : Disk) : q.next disk' = q.next disk := by
  have hturns (disk : Disk) : q.turns disk none = q.turnsIn c :=
    (bounds_of_keeps hc h.keeps h.wellFormed).2
  unfold Query.next
  rw [hturns, hturns, nextWithin_congr hc hview disk' _ q h (Nat.le_refl _)]

theorem Enclosed.pass_congr {results : List Ref} {last : Query} (h : Enclosed handle c q)
    (hc : c.Sound) (hview : disk.view handle = .ok now) (hpass : Pass disk q results last)
    (disk' : Disk) : Pass disk' q results last := by
  induction hpass with
  | ended hnext => exact .ended ((h.next_congr hc hview disk').trans hnext)
  | found hnext _ ih =>
    obtain ⟨n, hn, hstepped⟩ := next_within hc hview h.keeps h.wellFormed
    rw [hnext] at hn hstepped
    cases hstepped with
    | found hfound =>
      exact .found ((h.next_congr hc hview disk').trans hnext) (ih (.of_found h.underway hn hfound))

/-! ## Before a pass -/

end Query

theorem Disk.take_of_isClosed (h : disk.isClosed handle = true) :
    disk.take handle = .error .closed := by
  unfold Disk.take Disk.snapshot
  rw [if_pos h]
  rfl

theorem Store.isClosed_close (store : Store) (disk : Disk) :
    (store.close disk).isClosed store.handle = true := by
  unfold Store.close Disk.close
  split
  · simp [Disk.isClosed]
  · next hne =>
    unfold Disk.isClosed
    cases hattachment : disk.attachments.get? store.handle.number with
    | none => rfl
    | some attachment =>
      obtain ⟨location, _ | _⟩ := attachment
      · rfl
      · exact absurd hattachment (hne location)

theorem Cursor.Over.view_closed {cursor : Cursor} (h : cursor.Over (· = none) handle)
    (hclosed : disk.isClosed handle = true) : cursor.view disk none = .error .closed := by
  unfold Cursor.view
  rw [h.snapshot, h.handle_eq]
  exact Disk.take_of_isClosed hclosed

theorem Cursor.next_closed {cursor : Cursor} (hstart : cursor.AtStart)
    (h : cursor.Over (· = none) handle) (hclosed : disk.isClosed handle = true) :
    cursor.next disk = (.error .closed, cursor) := by
  obtain ⟨hbuffer, -, hexhausted⟩ := hstart
  unfold Cursor.next
  rw [hbuffer, hexhausted, h.view_closed hclosed]
  rfl

namespace Query

variable {q q' : Query}

/-- An intersection that reads the store reads it through one of its children. -/
theorem Over.reads_inter {frame : Frame} {children : List Query} {driver : Option Nat}
    {snapshot : Option Snapshot} (h : Over (· = none) handle (.inter frame children driver snapshot))
    (hreads : (Query.inter frame children driver snapshot).handle?.isSome = true) :
    firstHandle? children = some handle ∧ snapshot = none := by
  have hfirst : firstHandle? children = some handle := by
    refine h.handle?.resolve_left fun hnone => ?_
    rw [hnone] at hreads
    cases hreads
  cases h with
  | inter _ hsnapshot => exact ⟨hfirst, hsnapshot (by rw [hfirst]; exact Option.some_ne_none _)⟩

theorem turns_pos (disk : Disk) (imposed : Option Snapshot) (q : Query) :
    0 < q.turns disk imposed := by
  cases q with
  | all | fixed | position => exact Nat.one_pos
  | links frame handle pageSize direction primary inner snapshot =>
    unfold turns
    simp only
    split <;> omega
  | inter => exact Nat.succ_pos _

/-- The first step of a pass fails on a closed store, and leaves the tree before its pass. -/
theorem Fresh.next_closed (h : Fresh handle q) (hreads : q.handle?.isSome = true)
    (hclosed : disk.isClosed handle = true) : q.next disk = (.error .closed, q) := by
  have htake := Disk.take_of_isClosed hclosed
  suffices hadvance : ∀ next, advance disk next q = some (.error .closed, q) by
    obtain ⟨n, hn⟩ := Nat.exists_eq_succ_of_ne_zero (Nat.ne_of_gt (turns_pos disk none q))
    unfold Query.next
    rw [hn]
    change (advance disk (nextWithin disk n) q).getD (.ok none, q) = _
    rw [hadvance]
    rfl
  intro next
  obtain ⟨hstart, -, hover⟩ := h
  cases hstart with
  | all hphase hcursor =>
    cases hover with
    | all hcursorOver =>
      rw [advance, Frame.running hphase, Cursor.next_closed hcursor hcursorOver hclosed]
      rfl
  | fixed => cases hreads
  | position hphase hcursor =>
    cases hover with
    | position hcursorOver =>
      rw [advance]
      unfold Scan.next
      rw [Frame.running hphase, Cursor.next_closed hcursor hcursorOver hclosed]
      rfl
  | links hphase =>
    cases hover with
    | links hsnapshot =>
      subst hsnapshot
      unfold advance
      simp only [Frame.running hphase, htake]
      rfl
  | @inter frame children driver snapshot hphase =>
    obtain ⟨hfirst, rfl⟩ := hover.reads_inter hreads
    have hne : children.isEmpty = false := by
      cases children with
      | nil => cases hfirst
      | cons => rfl
    unfold advance
    simp only [Frame.running hphase, hne, hfirst, htake]
    rfl

/-- Asked before its pass, a tree of a closed store stays as it is. -/
theorem Fresh.contains_closed (h : Fresh handle q) (hreads : q.handle?.isSome = true)
    (hclosed : disk.isClosed handle = true) (r : Ref) : (q.contains disk r).2 = q := by
  have htake := Disk.take_of_isClosed hclosed
  unfold Query.contains
  cases h.idle with
  | all hcursor =>
    unfold probe Cursor.contents
    rw [hcursor.view_closed hclosed]
    split <;> rfl
  | fixed => cases hreads
  | position hcursor =>
    unfold probe Scan.contains Cursor.contents
    rw [hcursor.view_closed hclosed]
    cases r with
    | node => rfl
    | quad key =>
      simp only
      split <;> rfl
  | links hsnapshot =>
    subst hsnapshot
    unfold probe
    cases r.asQuad? with
    | none => rfl
    | some key => simp only [Option.or_none, htake]
  | inter hchildren hsnapshot =>
    obtain ⟨hfirst, rfl⟩ := h.idle.reads_inter hreads
    unfold probe
    split
    · rfl
    · simp [hfirst, htake]

/-! ## After closing -/

/-- `q'` is `q` after any steps and answers once its handle is closed. -/
inductive AfterClose (handle : Handle) (q : Query) : Query → Prop
  | start : AfterClose handle q q
  | next {q' : Query} {disk : Disk} : disk.isClosed handle = true →
      AfterClose handle q q' → AfterClose handle q (q'.next disk).2
  | contains {q' : Query} {disk : Disk} (r : Ref) : disk.isClosed handle = true →
      AfterClose handle q q' → AfterClose handle q (q'.contains disk r).2

theorem AfterClose.eq (h : AfterClose handle q q') (hq : Fresh handle q)
    (hreads : q.handle?.isSome = true) : q' = q := by
  induction h with
  | start => rfl
  | next hclosed _ ih => rw [ih, hq.next_closed hreads hclosed]
  | contains r hclosed _ ih => rw [ih, hq.contains_closed hreads hclosed]

/-- What a tree does when its handle is closed, where `disk` holds the open store. -/
structure Closes (handle : Handle) (disk : Disk) (q : Query) : Prop where
  /-- Before its pass, never begun or started over, every later step fails, and the tree stays as it
  is. -/
  unstarted : q.phase = .unstarted → ∀ q', AfterClose handle q q' → ∀ shut : Disk,
    shut.isClosed handle = true → q'.next shut = (.error .closed, q')
  /-- In the middle of its pass it steps and answers as if the store were open. -/
  iterating : q.phase = .iterating → ∀ shut : Disk, shut.isClosed handle = true →
    q.next shut = q.next disk ∧ ∀ r, q.contains shut r = q.contains disk r
  pass : q.phase = .iterating → ∃ results last, Pass disk q results last ∧
    ∀ shut : Disk, shut.isClosed handle = true → Pass shut q results last
  exhausted : q.phase = .exhausted → ∀ shut : Disk, q.next shut = (.ok none, q)

/-- In the middle of its pass a tree keeps a snapshot in all its parts. -/
theorem Stage.enclosed (h : Stage handle c q) (hphase : q.phase = .iterating) :
    Enclosed handle c q := by
  have hunderway : Underway q := by
    refine (h.ready (by rw [hphase]; decide)).resolve_left fun hstart => ?_
    rw [hstart.phase] at hphase
    cases hphase
  cases h.tracked with
  | fresh h =>
    rw [h.atStart.phase] at hphase
    cases hphase
  | running hkeeps hwf => exact ⟨hkeeps, hwf, hunderway⟩
  | ended hended =>
    rw [isExhausted_iff.1 hended] at hphase
    cases hphase

end Query

namespace Store

open Query

/-- Closing a store stops the passes that begin later, and no other. -/
theorem Reached.closes {store : Store} {disk disk' : Disk} {q q' : Query} (h : store.Reached disk)
    (hq : q.Built store.handle) (hreads : q.handle?.isSome = true)
    (hused : q.Used store disk disk' q') :
    store.isClosed (store.close disk') = true ∧ q'.Closes store.handle disk' := by
  obtain ⟨⟨now, hview, hnow⟩, ⟨c, hc, hstage⟩, hreset⟩ := hused.stage h.sound hq
  have hreads' : q'.handle?.isSome = true := by rwa [← handle?_reset, hreset]
  refine ⟨store.isClosed_close disk', fun hphase q'' hafter shut hclosed => ?_,
    fun hphase shut _ => ?_, fun hphase => ?_, fun hphase shut => ?_⟩
  · have hfresh := hused.fresh h.sound hq hphase
    rw [hafter.eq hfresh hreads', hfresh.next_closed hreads' hclosed]
  · have henclosed := hstage.enclosed hphase
    exact ⟨henclosed.next_congr hc hview shut, fun r => probe_congr henclosed.keeps none r⟩
  · have henclosed := hstage.enclosed hphase
    obtain ⟨last, hpass⟩ := pass_upcoming hc hview henclosed.keeps henclosed.wellFormed
    exact ⟨_, last, hpass, fun shut _ => henclosed.pass_congr hc hview hpass shut⟩
  · exact next_of_exhausted (isExhausted_iff.2 hphase)

theorem closes_first_quad : ∃ (store : Store) (disk : Disk),
    Store.create {} "db" {} = .ok (store, disk) ∧
      let now := store.after disk (.add {} ⟨"alice", "follows", "bob", ""⟩)
      let q := Query.linksTo store.handle 1 (.ofList [.node ⟨1⟩]) .subject
      let midway := (q.next now).2
      midway.phase = .iterating ∧ midway.Closes store.handle now ∧
        midway.reset.phase = .unstarted ∧ midway.reset.Closes store.handle now := by
  have hcreate : Store.create {} "db" {} = .ok (_, _) := rfl
  refine ⟨_, _, hcreate, ?_⟩
  intro now q midway
  have hreached : Store.Reached _ now := .wrote _ (.created hcreate) (admitsOne_created hcreate)
  have hbuilt : q.Built _ := .linksTo 1 _ (.ofList _)
  exact ⟨by decide +kernel, (hreached.closes hbuilt rfl (.next .start)).2, (atStart_reset midway).phase,
    (hreached.closes hbuilt rfl (.reset (.next .start))).2⟩

/-- A pass outlives its store: once the first of two quads was found, the store is closed, and the
next step finds the second. -/
theorem outlives_close : ∃ (store : Store) (disk : Disk),
    Store.create {} "db" {} = .ok (store, disk) ∧
      let now := store.after (store.after disk (.add {} ⟨"alice", "follows", "bob", ""⟩))
        (.add {} ⟨"alice", "follows", "carol", ""⟩)
      let q := Query.quads store.handle store.pageSize
      let found := q.next now
      let shut := store.close now
      store.Reached now ∧ q.Built store.handle ∧ found.2.phase = .iterating ∧
        store.isClosed shut = true ∧
          (found.2.next shut).1 = .ok (some (.quad ⟨⟨1⟩, ⟨2⟩, ⟨4⟩, ⟨0⟩⟩)) := by
  have hcreate : Store.create {} "db" {} = .ok (_, _) := rfl
  refine ⟨_, _, hcreate, ?_⟩
  intro now q found shut
  refine ⟨.wrote _ (.wrote _ (.created hcreate) (admitsOne_created hcreate))
    (admitsOne_of_hasRoom (by decide +kernel)), .quads _, ?_⟩
  decide +kernel

end Store

end GraphStore
