import GraphStore.Proofs.Lifetime

/-!
# Passes while the store is written to

* `Query.InPass` : a tree in the middle of a pass, after any writes, steps and answers;
* `Query.Midway` : what it has found and what is upcoming are the results that its first step saw;
* `Store.Reached.pass_isolated` : so it yields just these, in the same order as a pass without
  writes, and answers by them, until the step that ends the pass;
* `Store.released_first_quad` : from then on, not only after it starts over, it answers by what was
  committed meanwhile.
-/

namespace GraphStore

namespace Query

variable {disk disk' : Disk} {handle : Handle} {now c : Contents} {q q' q'' : Query} {r : Ref}
  {results found : List Ref}

/-- `q'` is `q` some time after the first step of its pass found a result: after any writes to the
store, admitted or not, further results and answers. The names bound for the current result can be
read at any time, which changes neither. `found` are the results. -/
inductive InPass (store : Store) (disk : Disk) (q : Query) : List Ref → Disk → Query → Prop
  | first {r : Ref} {q' : Query} :
      q.next disk = (.ok (some r), q') → InPass store disk q [r] disk q'
  | wrote {found : List Ref} {disk' : Disk} {q' : Query} (call : Store.WriteCall) :
      InPass store disk q found disk' q' → InPass store disk q found (store.after disk' call) q'
  | found {found : List Ref} {disk' : Disk} {q' q'' : Query} {r : Ref} :
      InPass store disk q found disk' q' → q'.next disk' = (.ok (some r), q'') →
        InPass store disk q (found ++ [r]) disk' q''
  | asked {found : List Ref} {disk' : Disk} {q' : Query} (r : Ref) :
      InPass store disk q found disk' q' → InPass store disk q found disk' (q'.contains disk' r).2

/-- `q'` is in the middle of a pass over given contents: with what it has found, what is upcoming
makes up the results. -/
structure Midway (handle : Handle) (c : Contents) (results found : List Ref) (q q' : Query) :
    Prop where
  phase : q'.phase = .iterating
  keeps : Over (Keeps handle c) handle q'
  wellFormed : q'.WellFormed
  underway : Underway q'
  reset : q'.reset = q.reset
  results : results = found ++ q'.upcoming c c

theorem Midway.of_found {q₀ : Query} (hready : q₀.Ready) (hreset : q₀.reset = q.reset)
    (hresults : results = found ++ q₀.upcoming now c) (hfound : Found handle now c q₀ r q')
    (hleft : Left q₀ (.ok (some r), q')) : Midway handle c results (found ++ [r]) q q' := by
  cases hleft with
  | found hframe hunderway =>
    have hq' := hunderway hready
    refine ⟨congrArg Frame.phase hframe, hfound.keeps, hfound.wellFormed, hq',
      hfound.reset.trans hreset, ?_⟩
    rw [hresults, hfound.upcoming, hq'.upcoming_eq hq' rfl now c, List.append_assoc]
    rfl

/-- The first step leads into the middle of a pass, which has the results of the contents it saw. -/
theorem Midway.first (hc : c.Sound) (hview : disk.view handle = .ok c) (h : Fresh handle q)
    (hnext : q.next disk = (.ok (some r), q')) :
    Midway handle c ((q.begun ⟨handle, c⟩).upcoming c c) [r] q q' := by
  obtain ⟨hstart, hwf, hkeeps⟩ := h.begun c
  obtain ⟨n, hn, hstepped⟩ := next_within hc hview hkeeps hwf
  rw [next_begun hc hview h, hnext] at hn hstepped
  cases hstepped with
  | found hfound =>
    exact Midway.of_found (.inl hstart) (reset_begun _ q) (List.nil_append _).symm hfound
      (nextWithin_left disk n _ _ hn)

/-- A later step finds the first of the results that are missing, or ends the pass when none is. -/
theorem Midway.next (hc : c.Sound) (hnow : disk.view handle = .ok now)
    (h : Midway handle c results found q q') :
    (∃ r tail q'', q'.next disk = (.ok (some r), q'') ∧ results = found ++ r :: tail ∧
      Midway handle c results (found ++ [r]) q q'') ∨
    ∃ q'', q'.next disk = (.ok none, q'') ∧ results = found ∧ q''.Idle := by
  obtain ⟨n, hn, hstepped⟩ := next_within hc hnow h.keeps h.wellFormed
  have hleft := nextWithin_left disk n _ _ hn
  have hresults : results = found ++ q'.upcoming now c := by
    rw [h.results, h.underway.upcoming_eq h.underway rfl now c]
  generalize q'.next disk = out at hstepped hleft ⊢
  cases hstepped with
  | @found r q'' hfound =>
    refine .inl ⟨r, q''.upcoming now c, q'', rfl, ?_, ?_⟩
    · rw [hresults, hfound.upcoming]
    · exact .of_found (.inr h.underway) h.reset hresults hfound hleft
  | ended hended =>
    cases hleft with
    | ended hidle =>
      have hrunning : q'.frame.isExhausted = false := not_isExhausted_iff.2 (by rw [h.phase]; decide)
      refine .inr ⟨_, rfl, ?_, hidle hrunning (h.underway.tidy h.wellFormed)⟩
      rw [hresults, hended.upcoming, List.append_nil]

/-- In the middle of a pass a tree answers by the results, and stays there. -/
theorem Midway.contains (hc : c.Sound) (h : Midway handle c results found q q') (disk : Disk)
    (r : Ref) : ∃ q'', q'.contains disk r = (.ok (q.member c r), q'') ∧
      Midway handle c results found q q'' := by
  have hmember : q'.member c r = q.member c r := member_of_reset h.reset
  have hsees : Over (Sees disk handle c) handle q' := h.keeps.sees
  obtain ⟨q'', hanswer, hasked⟩ := probe_spec hc hsees (.inl rfl) r
  rw [hmember] at hanswer hasked
  have hunderway : Underway q'' := .of_bare (hasked.bare ▸ h.underway.bare)
  refine ⟨q'', hanswer, (phase_bare hasked.bare).trans h.phase, hasked.stays _ h.keeps,
    hasked.wellFormed h.wellFormed, hunderway, hasked.reset.trans h.reset, ?_⟩
  rw [h.results, h.underway.upcoming_eq hunderway hasked.bare c c]

/-- Whatever happens in a pass, the tree stays in the middle of it. -/
theorem InPass.midway {store : Store} (hc : c.Sound) (hview : disk.view store.handle = .ok c)
    (hq : Fresh store.handle q) (h : q.InPass store disk found disk' q') :
    (∃ now, disk'.view store.handle = .ok now) ∧
      Midway store.handle c ((q.begun ⟨store.handle, c⟩).upcoming c c) found q q' := by
  induction h with
  | first hnext => exact ⟨⟨c, hview⟩, .first hc hview hq hnext⟩
  | wrote call _ ih =>
    obtain ⟨⟨now, hnow⟩, hmidway⟩ := ih
    exact ⟨Store.view_after hnow call, hmidway⟩
  | found _ hnext ih =>
    obtain ⟨⟨now, hnow⟩, hmidway⟩ := ih
    refine ⟨⟨now, hnow⟩, ?_⟩
    rcases hmidway.next hc hnow with ⟨r, tail, q'', hnext', -, hmidway'⟩ | ⟨q'', hnext', -⟩
    · rw [hnext] at hnext'
      cases hnext'
      exact hmidway'
    · rw [hnext] at hnext'
      cases hnext'
  | asked r _ ih =>
    obtain ⟨hnow, hmidway⟩ := ih
    obtain ⟨q'', hanswer, hmidway'⟩ := hmidway.contains hc _ r
    rw [hanswer]
    exact ⟨hnow, hmidway'⟩

/-- A pass of a tree that begins now is a pass over given contents, whatever is written meanwhile. -/
structure Isolated (store : Store) (disk : Disk) (q : Query) (c : Contents) (results : List Ref) :
    Prop where
  /-- The results are those of the contents, each once. -/
  denotes : results.Nodup ∧ ∀ r, r ∈ results ↔ q.Denotes c r
  /-- They are the pass that finds nothing written, in order. -/
  pass : ∃ last, Pass disk q results last
  /-- In the pass each part that reads the store keeps a snapshot of the contents. -/
  keeps : ∀ found disk' q', q.InPass store disk found disk' q' →
    Over (Keeps store.handle c) store.handle q'
  answers : ∀ found disk' q', q.InPass store disk found disk' q' → ∀ r, ∃ answer,
    (q'.contains disk' r).1 = .ok answer ∧ (answer = true ↔ q.Denotes c r)
  /-- A step finds the first of the results that are missing. When none is, it ends the pass, and no
  part keeps a snapshot. -/
  steps : ∀ found disk' q', q.InPass store disk found disk' q' →
    ∃ missing, results = found ++ missing ∧ (q'.next disk').1 = .ok missing.head? ∧
      (missing = [] → (q'.next disk').2.Idle)

theorem Fresh.isolated {store : Store} (hc : c.Sound) (hview : disk.view store.handle = .ok c)
    (h : Fresh store.handle q) : ∃ results, q.Isolated store disk c results := by
  obtain ⟨hpass, hnodup, hresults⟩ := h.pass_begun hc hview
  refine ⟨_, ⟨hnodup, hresults⟩, hpass, fun found disk' q' hin => ?_, fun found disk' q' hin r => ?_,
    fun found disk' q' hin => ?_⟩
  · obtain ⟨-, hmidway⟩ := hin.midway hc hview h
    exact hmidway.keeps
  · obtain ⟨-, hmidway⟩ := hin.midway hc hview h
    obtain ⟨q'', hanswer, -⟩ := hmidway.contains hc disk' r
    rw [hanswer]
    exact ⟨_, rfl, member_iff hc⟩
  · obtain ⟨⟨now, hnow⟩, hmidway⟩ := hin.midway hc hview h
    rcases hmidway.next hc hnow with ⟨r, tail, q'', hnext, hrest, -⟩ | ⟨q'', hnext, hrest, hidle⟩
    · rw [hnext]
      exact ⟨r :: tail, hrest, rfl, nofun⟩
    · rw [hnext]
      exact ⟨[], by rw [hrest, List.append_nil], rfl, fun _ => hidle⟩

end Query

namespace Store

/-- A pass that begins on the committed contents yields just their results and answers by them, until
the step that ends it. -/
theorem Reached.pass_isolated {store : Store} {disk : Disk} {q : Query} (h : store.Reached disk)
    (hq : q.Built store.handle) :
    ∃ c results, disk.view store.handle = .ok c ∧ q.Isolated store disk c results := by
  obtain ⟨c, hview, hc⟩ := h.sound
  obtain ⟨results, hisolated⟩ := hq.fresh.isolated hc hview
  exact ⟨c, results, hview, hisolated⟩

theorem pass_isolated_first_quad : ∃ (store : Store) (disk : Disk),
    Store.create {} "db" {} = .ok (store, disk) ∧
      let now := store.after disk (.add {} ⟨"alice", "follows", "bob", ""⟩)
      let q := Query.both [.quads store.handle 0, .quadsAt store.handle 0 .subject ⟨1⟩]
      ∃ c results, now.view store.handle = .ok c ∧ q.Isolated store now c results := by
  have hcreate : Store.create {} "db" {} = .ok (_, _) := rfl
  refine ⟨_, _, hcreate, ?_⟩
  have hreached := Reached.wrote (.add {} ⟨"alice", "follows", "bob", ""⟩) (.created hcreate)
    (admitsOne_created hcreate)
  exact hreached.pass_isolated
    (.both (List.forall_mem_cons.2 ⟨.quads 0, List.forall_mem_singleton.2 (.quadsAt 0 _ _)⟩))

/-- The step that ends a pass lets the snapshot go: before the tree starts over it has a quad that was
added in the middle of the pass, and that the pass did not yield. -/
theorem released_first_quad : ∃ (store : Store) (disk : Disk),
    Store.create {} "db" {} = .ok (store, disk) ∧
      let now := store.after disk (.add {} ⟨"alice", "follows", "bob", ""⟩)
      let later := store.after now (.add {} ⟨"alice", "follows", "carol", ""⟩)
      let q := Query.both [.quads store.handle 0, .quadsAt store.handle 0 .subject ⟨1⟩]
      let found := q.next now
      let ended := found.2.next later
      let added := Ref.quad ⟨⟨1⟩, ⟨2⟩, ⟨4⟩, ⟨0⟩⟩
      store.Reached now ∧ q.Built store.handle ∧
        found.1 = .ok (some (.quad ⟨⟨1⟩, ⟨2⟩, ⟨3⟩, ⟨0⟩⟩)) ∧ ended.1 = .ok none ∧
          (q.contains now added).1 = .ok false ∧ (ended.2.contains later added).1 = .ok true := by
  have hcreate : Store.create {} "db" {} = .ok (_, _) := rfl
  refine ⟨_, _, hcreate, ?_⟩
  intro now later q found ended added
  refine ⟨.wrote _ (.created hcreate) (admitsOne_created hcreate),
    .both (List.forall_mem_cons.2 ⟨.quads 0, List.forall_mem_singleton.2 (.quadsAt 0 _ _)⟩), ?_⟩
  decide +kernel

end Store

end GraphStore
