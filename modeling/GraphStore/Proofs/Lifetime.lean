import GraphStore.Proofs.Construction
import GraphStore.Proofs.History
import GraphStore.Proofs.Turns

/-!
# Trees while the store is written to

* `Query.Stage` : where a tree is, with what its steps left of it;
* `Query.Stage.next` : a step takes it further, in the contents that its pass reads;
* `Query.Stage.contains` : an answer leaves it there;
* `Query.Stage.reset` : from anywhere it gets back to the beginning, where a tree that was put
  together is (`Query.Built.reset_eq`).
-/

namespace GraphStore

variable {disk : Disk} {handle : Handle} {now c : Contents} {r : Ref}

namespace Query

variable {P : Option Snapshot → Prop} {q q' : Query}

/-! ## Where a tree is -/

/-- Where a tree is, and what its steps left: between passes no part keeps a snapshot, and until the
end of a pass it is ready for the next step. -/
structure Stage (handle : Handle) (c : Contents) (q : Query) : Prop where
  tracked : Tracked handle c q
  idle : q.phase ≠ .iterating → q.Idle
  ready : q.phase ≠ .exhausted → q.Ready

theorem AtStart.phase (h : AtStart q) : q.phase = .unstarted := by
  cases h with
  | all h | fixed h | position h | links h | inter h => exact h

theorem Tracked.wellFormed (h : Tracked handle c q) : q.WellFormed := by
  cases h with
  | fresh h => exact h.wellFormed
  | running _ h | ended _ _ h => exact h

theorem Stage.tidy (h : Stage handle c q) (hphase : q.phase ≠ .exhausted) : q.Tidy := by
  rcases h.ready hphase with hstart | hunderway
  · have hidle := h.idle (by rw [hstart.phase]; decide)
    exact hidle.tidy
  · exact hunderway.tidy h.tracked.wellFormed

/-- A step leads to a stage over the contents that the pass reads, or the last committed ones. -/
theorem Stage.next (h : Stage handle c q) (hc : c.Sound) (hnow : now.Sound)
    (hview : disk.view handle = .ok now) :
    ∃ c', c'.Sound ∧ Stage handle c' (q.next disk).2 ∧ (q.next disk).2.reset = q.reset := by
  cases hphase : q.frame.isExhausted with
  | true =>
    rw [next_of_exhausted hphase]
    exact ⟨c, hc, h, rfl⟩
  | false =>
    have hrunning := not_isExhausted_iff.1 hphase
    obtain ⟨c', q₁, n, hc', hbare, hn, hstepped⟩ := h.tracked.turn hc hnow hview hphase
    have hleft := nextWithin_left disk n q _ hn
    obtain ⟨htracked, hreset⟩ := Tracked.stepped hstepped ((isExhausted_bare hbare).trans hphase)
    refine ⟨c', ?_, ?_, hreset.trans (reset_of_bare hbare)⟩
    · rcases hc' with rfl | rfl
      · exact hc
      · exact hnow
    · generalize q.next disk = out at htracked hleft hstepped
      cases hleft with
      | found hframe hunderway =>
        have hiterating := congrArg Frame.phase hframe
        exact ⟨htracked, fun hne => absurd hiterating hne,
          fun _ => .inr (hunderway (h.ready hrunning))⟩
      | ended hidle =>
        cases hstepped with
        | ended hended =>
          have hdone := isExhausted_iff.1 hended.phase
          exact ⟨htracked, fun _ => hidle hphase (h.tidy hrunning), fun hne => absurd hdone hne⟩
      | failed => cases hstepped

/-! ### Answers -/

theorem Stage.contains {c' : Contents} (h : Stage handle c q) (hc' : c'.Sound)
    (hsees : Over (Sees disk handle c') handle q) (r : Ref) :
    ∃ q', q.contains disk r = (.ok (q.member c' r), q') ∧ Stage handle c q' ∧ q'.bare = q.bare ∧
      (q.Idle → q'.Idle) := by
  obtain ⟨q', hanswer, hasked⟩ := probe_spec hc' hsees (.inl rfl) r
  have hidle (hq : q.Idle) : q'.Idle := by
    have hcontains := hq.contains disk r
    unfold Query.contains at hcontains
    rwa [hanswer] at hcontains
  have hphase := phase_bare hasked.bare
  refine ⟨q', hanswer, ⟨h.tracked.asked hasked, fun hne => ?_, fun hne => ?_⟩, hasked.bare, hidle⟩
  · rw [hphase] at hne
    exact hidle (h.idle hne)
  · rw [hphase] at hne
    exact (h.ready hne).of_bare_eq hasked.bare

/-- Between its passes a tree keeps no snapshot. -/
theorem Stage.resting (h : Stage handle c q) (hphase : q.phase ≠ .iterating) :
    q.Idle ∧ Over (· = none) handle q := by
  have hidle := h.idle hphase
  refine ⟨hidle, ?_⟩
  cases h.tracked with
  | fresh h => exact h.idle
  | running hkeeps => exact hidle.over hkeeps
  | ended _ hover => exact hover

/-! ### Starting over -/

theorem atStart_reset (q : Query) : AtStart q.reset := by
  induction q using induct with
  | all => exact .all rfl ⟨rfl, rfl, rfl⟩
  | fixed => exact .fixed rfl
  | position => exact .position rfl ⟨rfl, rfl, rfl⟩
  | links frame handle pageSize direction primary inner snapshot ih => exact .links rfl ih
  | inter frame children driver snapshot ih =>
    refine .inter rfl ?_
    rw [resetAll_eq]
    exact List.forall_mem_map.2 ih

theorem WellFormed.reset (h : q.WellFormed) : q.reset.WellFormed := by
  induction h with
  | all h => exact .all h
  | fixed h => exact .fixed h
  | position h => exact .position ⟨h.directions, h.source⟩
  | links _ _ ih => exact .links ih (by rintro _ ⟨⟩)
  | inter _ _ ih =>
    refine .inter ?_ (by rintro _ ⟨⟩)
    rw [resetAll_eq]
    exact List.forall_mem_map.2 ih

theorem Over.reset (h : Over P handle q) : Over (· = none) handle q.reset := by
  induction h with
  | all h => exact .all ⟨h.handle_eq, rfl⟩
  | fixed => exact .fixed
  | position h => exact .position ⟨h.handle_eq, rfl⟩
  | links _ _ _ ih => exact .links rfl ih (by rintro _ ⟨⟩)
  | inter _ _ ih =>
    refine .inter ?_ fun _ => rfl
    rw [resetAll_eq]
    exact List.forall_mem_map.2 ih

theorem Tracked.fresh_reset (h : Tracked handle c q) : Fresh handle q.reset := by
  refine ⟨atStart_reset q, h.wellFormed.reset, ?_⟩
  cases h with
  | fresh h => exact h.idle.reset
  | running hkeeps => exact hkeeps.reset
  | ended _ hover => exact hover.reset

theorem Stage.reset (h : Stage handle c q) : Stage handle c q.reset :=
  ⟨.fresh h.tracked.fresh_reset, fun _ => idle_reset q, fun _ => .inl (atStart_reset q)⟩

theorem reset_reset (q : Query) : q.reset.reset = q.reset := by
  induction q using induct with
  | all | fixed | position => rfl
  | links frame handle pageSize direction primary inner snapshot ih =>
    simp only [reset, ih]
    rfl
  | inter frame children driver snapshot ih =>
    simp only [reset, resetAll_eq, List.map_map]
    exact congrArg (Query.inter frame.reset · none none) (List.map_congr_left ih)

theorem reset_mapTags (change : Tags → Tags) (q : Query) :
    (q.mapTags change).reset = q.reset.mapTags change := by
  cases q <;> rfl

theorem reset_linksTo (h : q.reset = q) (pageSize : Nat) (direction : Direction) :
    (linksTo handle pageSize q direction).reset = linksTo handle pageSize q direction := by
  unfold Query.linksTo reset
  rw [h]
  rfl

theorem reset_both {children : List Query} (h : ∀ q ∈ children, q.reset = q) :
    (both children).reset = both children := by
  have hchildren : children.map Query.reset = children.map id := List.map_congr_left h
  unfold Query.both reset
  rw [resetAll_eq, hchildren, List.map_id]
  rfl

theorem reset_addValue (h : q.reset = q) (value : Ref) :
    (q.addValue value).reset = q.addValue value := by
  cases q with
  | all | position | links | inter => exact h
  | fixed =>
    unfold reset at h
    injection h with hframe _ hindex
    unfold Query.addValue reset
    rw [hframe, hindex]

theorem reset_addChild {child : Query} (h : q.reset = q) (hchild : child.reset = child) :
    (q.addChild child).reset = q.addChild child := by
  cases q with
  | all | fixed | position | links => exact h
  | inter =>
    unfold reset at h
    injection h with hframe hchildren _ hsnapshot
    rw [resetAll_eq] at hchildren
    unfold Query.addChild reset
    rw [hframe, resetAll_eq, List.map_append, hchildren, List.map_singleton, hchild, hsnapshot]

/-- A tree put together is one that starts over. -/
theorem Built.reset_eq (h : Built handle q) : q.reset = q := by
  induction h with
  | nodes | quads | ofList | quadsAt => rfl
  | linksTo pageSize direction _ ih => exact reset_linksTo ih pageSize direction
  | both _ ih => exact reset_both ih
  | addValue value _ ih => exact reset_addValue ih value
  | addChild _ _ ih ihchild => exact reset_addChild ih ihchild
  | mapTags change _ ih => rw [reset_mapTags, ih]

end Query

end GraphStore
