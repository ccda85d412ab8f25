import GraphStore.Proofs.Pass

/-!
# Trees over time

* `Query.Visits` : a tree after any steps and answers;
* `Query.Visits.tracked` : it has not begun, is in its pass, or is at the end of it;
* `Query.Visits.contains_eq` : at any time it answers by its meaning;
* `Query.Yields`, `Query.Reaches` : a tree that has just found or confirmed a result;
* `Query.Reaches.settled` : the paths that bind names belong to that result.
-/

namespace GraphStore.Query

variable {disk : Disk} {handle : Handle} {now c : Contents} {q q' q₁ : Query} {r : Ref}

/-! ## Steps and answers -/

/-- `q'` is `q` after any steps and answers. -/
inductive Visits (disk : Disk) (q : Query) : Query → Prop
  | start : Visits disk q q
  | next {q₁ : Query} : Visits disk q q₁ → Visits disk q (q₁.next disk).2
  | contains {q₁ : Query} (r : Ref) : Visits disk q q₁ → Visits disk q (q₁.contains disk r).2

/-- Where a tree can be: before its pass, in it, or at the end of it. -/
inductive Tracked (handle : Handle) (c : Contents) (q : Query) : Prop
  | fresh : Fresh handle q → Tracked handle c q
  | running : Over (Keeps handle c) handle q → q.WellFormed → Tracked handle c q
  | ended : q.frame.isExhausted = true → Over (· = none) handle q → q.WellFormed →
      Tracked handle c q

theorem advance_of_exhausted (h : q.frame.isExhausted = true)
    (next : Query → Option (Outcome × Query)) : advance disk next q = some (.ok none, q) := by
  cases q with
  | all | fixed | links | inter =>
    unfold advance
    exact if_pos h
  | position scan =>
    have hscan : scan.next disk = (.ok none, scan) := if_pos h
    rw [advance, hscan]

theorem next_of_exhausted (h : q.frame.isExhausted = true) : q.next disk = (.ok none, q) := by
  unfold next
  cases q.turns disk none with
  | zero => rfl
  | succ n =>
    unfold nextWithin
    rw [advance_of_exhausted h]
    rfl

theorem isExhausted_iff : q.frame.isExhausted = true ↔ q.phase = .exhausted := beq_iff_eq

theorem not_isExhausted_iff : q.frame.isExhausted = false ↔ q.phase ≠ .exhausted :=
  beq_eq_false_iff_ne

theorem frame_bare (q : Query) : q.bare.frame = q.frame.bare := by
  cases q <;> rfl

theorem phase_bare (h : q'.bare = q.bare) : q'.phase = q.phase := by
  have hbare (q : Query) : q.bare.phase = q.phase := (congrArg Frame.phase (frame_bare q) :)
  rw [← hbare, h, hbare]

theorem isExhausted_bare (h : q'.bare = q.bare) :
    q'.frame.isExhausted = q.frame.isExhausted :=
  congrArg (· == Phase.exhausted) (phase_bare h)

/-- A tree sees the contents that it keeps, or the last committed ones. -/
theorem Tracked.sees (h : Tracked handle c q) (hview : disk.view handle = .ok now) :
    ∃ c', (c' = c ∨ c' = now) ∧ Over (Sees disk handle c') handle q := by
  have hnone (hover : Over (· = none) handle q) : Over (Sees disk handle now) handle q :=
    hover.sees_taken (Disk.take_of_view hview)
  cases h with
  | fresh h => exact ⟨now, .inr rfl, hnone h.idle⟩
  | running h => exact ⟨c, .inl rfl, h.sees⟩
  | ended _ h => exact ⟨now, .inr rfl, hnone h⟩

/-- An answer leaves a tree where it is. -/
theorem Tracked.asked (h : Tracked handle c q) {found : Bool} (hasked : Asked handle r found q q') :
    Tracked handle c q' := by
  cases h with
  | fresh h =>
    exact .fresh ⟨.of_bare (hasked.bare ▸ h.atStart.bare), hasked.wellFormed h.wellFormed,
      hasked.stays _ h.idle⟩
  | running hkeeps hq => exact .running (hasked.stays _ hkeeps) (hasked.wellFormed hq)
  | ended hphase hover hq =>
    exact .ended ((isExhausted_bare hasked.bare).trans hphase) (hasked.stays _ hover)
      (hasked.wellFormed hq)

/-- A step takes a tree that has begun further, or to the end of its pass. -/
theorem Tracked.stepped {out : Outcome × Query} (h : Stepped handle now c q out)
    (hphase : q.frame.isExhausted = false) :
    Tracked handle c out.2 ∧ out.2.reset = q.reset := by
  cases h with
  | found h => exact ⟨.running h.keeps h.wellFormed, h.reset⟩
  | ended h => exact ⟨.ended h.phase (h.released.imp fun _ hs => hs hphase) h.wellFormed, h.reset⟩

/-- A step before the end is one over the contents that the tree keeps, or the last committed
ones. -/
theorem Tracked.turn (hc : c.Sound) (hnow : now.Sound) (hview : disk.view handle = .ok now)
    (h : Tracked handle c q) (hphase : q.frame.isExhausted = false) :
    ∃ c' q₁ n, (c' = c ∨ c' = now) ∧ q₁.bare = q.bare ∧
      nextWithin disk n q = some (q.next disk) ∧ Stepped handle now c' q₁ (q.next disk) := by
  cases h with
  | fresh h =>
    obtain ⟨-, hwf, hkeeps⟩ := h.begun now
    obtain ⟨n, hn, hstepped⟩ := next_within hnow hview hkeeps hwf
    rw [next_begun hnow hview h] at hn hstepped
    rw [nextWithin_begun (Disk.take_of_view hview) h] at hn
    exact ⟨now, _, n, .inr rfl, bare_begun _ q, hn, hstepped⟩
  | running hkeeps hwf =>
    obtain ⟨n, hn, hstepped⟩ := next_within hc hview hkeeps hwf
    exact ⟨c, q, n, .inl rfl, rfl, hn, hstepped⟩
  | ended hended => exact absurd (hended.symm.trans hphase) (by decide)

theorem Tracked.next (hc : c.Sound) (hview : disk.view handle = .ok c) (h : Tracked handle c q) :
    Tracked handle c (q.next disk).2 ∧ (q.next disk).2.reset = q.reset := by
  cases hphase : q.frame.isExhausted with
  | true =>
    rw [next_of_exhausted hphase]
    exact ⟨h, rfl⟩
  | false =>
    obtain ⟨c', q₁, n, hc', hbare, -, hstepped⟩ := h.turn hc hc hview hphase
    obtain rfl := or_self_iff.1 hc'
    rw [← reset_of_bare hbare]
    exact Tracked.stepped hstepped ((isExhausted_bare hbare).trans hphase)

theorem contains_spec (hc : c.Sound) (hview : disk.view handle = .ok c) (h : Tracked handle c q)
    (r : Ref) : ∃ q', q.contains disk r = (.ok (q.member c r), q') ∧
      Asked handle r (q.member c r) q q' := by
  obtain ⟨c', hc', hsees⟩ := h.sees hview
  obtain rfl := or_self_iff.1 hc'
  exact probe_spec hc hsees (.inl rfl) r

theorem Visits.tracked (hc : c.Sound) (hview : disk.view handle = .ok c) (hq : Fresh handle q)
    (h : Visits disk q q') : Tracked handle c q' ∧ q'.reset = q.reset := by
  induction h with
  | start => exact ⟨.fresh hq, rfl⟩
  | next _ ih =>
    obtain ⟨htracked, hreset⟩ := ih
    obtain ⟨htracked', hreset'⟩ := htracked.next hc hview
    exact ⟨htracked', hreset'.trans hreset⟩
  | contains r _ ih =>
    obtain ⟨htracked, hreset⟩ := ih
    obtain ⟨q'', hanswer, hasked⟩ := contains_spec hc hview htracked r
    rw [hanswer]
    exact ⟨htracked.asked hasked, hasked.reset.trans hreset⟩

/-- At any time a tree answers by its meaning. -/
theorem Visits.contains_eq (hc : c.Sound) (hview : disk.view handle = .ok c)
    (hq : Fresh handle q) (h : Visits disk q q') (r : Ref) : ∃ q'',
      q'.contains disk r = (.ok (q.member c r), q'') ∧ (q.member c r = true → Settled r q'') ∧
        q''.reset = q.reset := by
  obtain ⟨htracked, hreset⟩ := h.tracked hc hview hq
  obtain ⟨q'', hanswer, hasked⟩ := contains_spec hc hview htracked r
  have hmember : q'.member c r = q.member c r := member_of_reset hreset
  rw [hmember] at hanswer hasked
  exact ⟨q'', hanswer, hasked.settled, hasked.reset.trans hreset⟩

/-! ## Results -/

/-- `q'` is `q` just after a step of its pass found a result. -/
inductive Yields (disk : Disk) : Query → Ref → Query → Prop
  | now {q q' : Query} {r : Ref} : q.next disk = (.ok (some r), q') → Yields disk q r q'
  | later {q q₁ q' : Query} {p r : Ref} :
      q.next disk = (.ok (some p), q₁) → Yields disk q₁ r q' → Yields disk q r q'

/-- `q'` is `q` just after a step of its pass found a result, or after the result was confirmed at
any time. -/
inductive Reaches (disk : Disk) (q : Query) (r : Ref) : Query → Prop
  | found {q' : Query} : Yields disk q r q' → Reaches disk q r q'
  | confirmed {q₁ q' : Query} :
      Visits disk q q₁ → q₁.contains disk r = (.ok true, q') → Reaches disk q r q'

theorem Yields.settled (hc : c.Sound) (hview : disk.view handle = .ok c)
    (h : Yields disk q r q') (hkeeps : Over (Keeps handle c) handle q) (hwf : q.WellFormed)
    (ha : Aligned c q) : Settled r q' ∧ r ∈ q.upcoming c c ∧ q'.reset = q.reset := by
  induction h with
  | now hnext =>
    have hstepped := next_spec hc hview hkeeps hwf
    rw [hnext] at hstepped
    cases hstepped with
    | found h =>
      rw [h.upcoming]
      exact ⟨(h.aligned ha).2, List.mem_cons_self, h.reset⟩
  | later hnext _ ih =>
    have hstepped := next_spec hc hview hkeeps hwf
    rw [hnext] at hstepped
    cases hstepped with
    | found h =>
      obtain ⟨hsettled, hmem, hreset⟩ := ih h.keeps h.wellFormed (h.aligned ha).1
      rw [h.upcoming]
      exact ⟨hsettled, List.mem_cons_of_mem _ hmem, hreset.trans h.reset⟩

theorem Yields.congr (h : Yields disk q r q') (hnext : q₁.next disk = q.next disk) :
    Yields disk q₁ r q' := by
  cases h with
  | now h => exact .now (hnext.trans h)
  | later h hrest => exact .later (hnext.trans h) hrest

/-- A result that was reached is one of the tree, and the paths that bind names belong to it. -/
theorem Reaches.settled (hc : c.Sound) (hview : disk.view handle = .ok c) (hq : Fresh handle q)
    (h : Reaches disk q r q') : q.member c r = true ∧ Settled r q' ∧ q'.reset = q.reset := by
  cases h with
  | found h =>
    obtain ⟨hstart, hwf, hkeeps⟩ := hq.begun c
    obtain ⟨hsettled, hmem, hreset⟩ :=
      (h.congr (next_begun hc hview hq)).settled hc hview hkeeps hwf hstart.aligned
    refine ⟨?_, hsettled, hreset.trans (reset_begun _ q)⟩
    rw [mem_upcoming hc hwf hstart, member_of_bare (bare_begun _ _)] at hmem
    exact hmem
  | confirmed hvisits hanswer =>
    obtain ⟨q'', hanswer', hsettled, hreset⟩ := hvisits.contains_eq hc hview hq r
    rw [hanswer] at hanswer'
    obtain ⟨hmember, rfl⟩ := Prod.mk.inj hanswer'
    have hmember := (Except.ok.inj hmember).symm
    exact ⟨hmember, hsettled hmember, hreset⟩

end GraphStore.Query
