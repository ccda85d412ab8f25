import GraphStore.Proofs.Step
import Mathlib.Algebra.GroupWithZero.Nat
import Mathlib.Algebra.Order.BigOperators.Group.List
import Mathlib.Algebra.Order.Group.Nat

/-!
# Steps of intersections

* `Query.Driven` : what a result of the driver and the answers of the others leave of the children;
* `Query.advanceDriver_spec` : an intersection takes the first result of its driver that all have;
* `Query.nextWithin_spec` : a step of any tree takes the first upcoming result, or ends the pass.
-/

namespace GraphStore.Query

variable {disk : Disk} {handle : Handle} {now c : Contents} {r : Ref} {n d : Nat} {frame : Frame}
  {children children' : List Query} {child child' : Query} {driver : Option Nat}
  {snapshot : Option Snapshot}

/-! ## One child -/

theorem sum_map_set (f : Query → Nat) (h : children[d]? = some child) (child' : Query) :
    ((children.set d child').map f).sum + f child = (children.map f).sum + f child' := by
  induction children generalizing d with
  | nil => cases h
  | cons q rest ih =>
    cases d with
    | zero =>
      cases h
      simp only [List.set_cons_zero, List.map_cons, List.sum_cons]
      omega
    | succ d =>
      have hrest := ih h
      simp only [List.set_cons_succ, List.map_cons, List.sum_cons]
      omega

theorem map_reset_set (h : children[d]? = some child) (hreset : child'.reset = child.reset) :
    (children.set d child').map reset = children.map reset := by
  obtain ⟨hd, rfl⟩ := List.getElem?_eq_some_iff.1 h
  rw [List.map_set, hreset, ← List.getElem_map reset (h := by rwa [List.length_map])]
  exact List.set_getElem_self _

theorem forall_set {p : Query → Prop} (h : ∀ q ∈ children, p q) (h' : p child') :
    ∀ q ∈ children.set d child', p q := by
  intro q hq
  rcases List.mem_or_eq_of_mem_set hq with hmem | rfl
  · exact h q hmem
  · exact h'

theorem exists_set {p : Query → Prop} (hex : ∃ q ∈ children, p q)
    (hchild : children[d]? = some child) (hp : p child → p child') : ∃ q ∈ children.set d child', p q := by
  obtain ⟨q, hq, hpq⟩ := hex
  obtain ⟨i, hi⟩ := List.mem_iff_getElem?.1 hq
  by_cases hid : d = i
  · subst hid
    rw [hchild] at hi
    cases hi
    have hlt := (List.getElem?_eq_some_iff.1 hchild).1
    exact ⟨child', List.mem_of_getElem? (List.getElem?_set_self hlt), hp hpq⟩
  · refine ⟨q, List.mem_of_getElem? (i := i) ?_, hpq⟩
    rw [List.getElem?_set_ne hid, hi]

/-! ## Steps -/

/-- An intersection has still to come what its driver has, as far as all other children have it. -/
theorem upcoming_inter (hphase : frame.isExhausted = false) (hchild : children[d]? = some child) :
    upcoming now c (.inter frame children (some d) snapshot) =
      (child.upcoming now c).filter fun r =>
        (others (some d) children).all fun q => q.member c r := by
  conv_lhs => unfold upcoming
  rw [hphase, if_neg (by decide), upcomingAll_eq]
  simp only [Option.getD_some, List.getElem?_map, hchild, Option.map_some]

/-- `children'` are `children` after the one at place `d` found a result and the others were asked
for it. -/
structure Driven (handle : Handle) (now c : Contents) (d : Nat) (r : Ref) (child child' : Query)
    (children children' : List Query) : Prop where
  found : Found handle now c child r child'
  before : children[d]? = some child
  after : children'[d]? = some child'
  reset : children'.map reset = children.map reset
  others : (others (some d) children').map bare = (others (some d) children).map bare
  supply : supplyAllIn c children' < supplyAllIn c children
  turns : turnsAllIn c children' ≤ turnsAllIn c children
  keeps : ∀ q ∈ children', Over (Keeps handle c) handle q
  wellFormed : ∀ q ∈ children', q.WellFormed

theorem Found.driven (hfound : Found handle now c child r child')
    (hchild : children[d]? = some child)
    (hchildren : ∀ q ∈ children, Over (Keeps handle c) handle q)
    (hwf : ∀ q ∈ children, q.WellFormed) {found : Bool}
    (hasked : AskedAll handle r found (some d) (children.set d child') children') :
    Driven handle now c d r child child' children children' where
  found := hfound
  before := hchild
  after := by
    rw [hasked.skipped d rfl, List.getElem?_set_self (List.getElem?_eq_some_iff.1 hchild).1]
  reset := by rw [map_reset_bare hasked.bare, map_reset_set hchild hfound.reset]
  others := by rw [others_bare (some d) hasked.bare, others_set]
  supply := by
    have hsum := sum_map_set (supplyIn c) hchild child'
    have hless := hfound.supply
    rw [(boundsAll_bare c hasked.bare).1, supplyAllIn_eq, supplyAllIn_eq]
    omega
  turns := by
    have hsum := sum_map_set (turnsIn c) hchild child'
    have hless := hfound.turns
    rw [(boundsAll_bare c hasked.bare).2, turnsAllIn_eq, turnsAllIn_eq]
    omega
  keeps := hasked.stays _ (forall_set hchildren hfound.keeps)
  wellFormed := by
    refine forall_of_bare hasked.bare (fun q hq => ?_) fun q => .of_bare
    exact (forall_set hwf hfound.wellFormed q hq).bare

namespace Driven

variable (h : Driven handle now c d r child child' children children')
include h

theorem keeps_inter (hsnapshot : firstHandle? children ≠ none → Keeps handle c snapshot) :
    Over (Keeps handle c) handle (.inter frame children' (some d) snapshot) := by
  refine .inter h.keeps ?_
  rwa [firstHandle?_reset h.reset]

theorem wellFormed_inter : WellFormed (.inter frame children' (some d) snapshot) := by
  refine .inter h.wellFormed ?_
  rintro _ ⟨⟩
  exact (List.getElem?_eq_some_iff.1 h.after).1

theorem reset_inter {frame' : Frame} (hframe : frame'.reset = frame.reset) :
    Query.reset (.inter frame' children' (some d) snapshot) =
      Query.reset (.inter frame children (some d) snapshot) := by
  unfold Query.reset
  rw [resetAll_eq, resetAll_eq, h.reset, hframe]

theorem aligned_inter {frame' : Frame}
    (ha : Aligned c (.inter frame children (some d) snapshot)) :
    Aligned c (.inter frame' children' (some d) snapshot) ∧ Settled r child' := by
  cases ha with
  | inter hdriver hrest =>
    obtain ⟨hchild', hsettled⟩ := h.found.aligned (hdriver d rfl child h.before)
    refine ⟨.inter ?_ ?_, hsettled⟩
    · rintro _ ⟨⟩ q hq
      rw [h.after] at hq
      cases hq
      exact hchild'
    · exact forall_of_bare h.others (fun q hq => (hrest q hq).bare) fun q => .of_bare

theorem upcoming_inter {frame' : Frame} (hphase : frame.isExhausted = false)
    (hphase' : frame'.isExhausted = false) :
    upcoming now c (.inter frame children (some d) snapshot) =
      if (Query.others (some d) children).all fun q => q.member c r then
        r :: upcoming now c (.inter frame' children' (some d) snapshot)
      else upcoming now c (.inter frame' children' (some d) snapshot) := by
  have hrest : upcoming now c (.inter frame' children' (some d) snapshot) =
      (child'.upcoming now c).filter fun r =>
        (Query.others (some d) children).all fun q => q.member c r := by
    rw [Query.upcoming_inter hphase' h.after]
    exact List.filter_congr fun r _ => all_member_bare h.others
  rw [hrest, Query.upcoming_inter hphase h.before, h.found.upcoming, List.filter_cons]

theorem turned (hphase : frame.isExhausted = false)
    (hmember : ((Query.others (some d) children).all fun q => q.member c r) = false) :
    Turned now c (.inter frame children (some d) snapshot)
      (.inter frame children' (some d) snapshot) := by
  refine ⟨?_, rfl, Nat.le_of_lt h.supply, ?_, h.reset_inter rfl, fun ha => (h.aligned_inter ha).1⟩
  · rw [h.upcoming_inter hphase hphase, hmember]
    rfl
  · have hsupply := h.supply
    have hturns := h.turns
    unfold turnsIn
    omega

theorem found_inter (hphase : frame.isExhausted = false)
    (hsnapshot : firstHandle? children ≠ none → Keeps handle c snapshot)
    (hmember : ((Query.others (some d) children).all fun q => q.member c r) = true)
    (hsettled : Settled r child' → ∀ q ∈ children', Settled r q) :
    Found handle now c (.inter frame children (some d) snapshot) r
      (.inter (frame.advance r) children' (some d) snapshot) := by
  refine ⟨?_, h.supply, ?_, h.reset_inter rfl, h.keeps_inter hsnapshot, h.wellFormed_inter,
    fun ha => ?_⟩
  · have hphase' : (frame.advance r).isExhausted = false := rfl
    rw [h.upcoming_inter hphase hphase', hmember, if_pos rfl]
  · have hsupply := h.supply
    have hturns := h.turns
    unfold turnsIn
    omega
  · obtain ⟨ha', hchild'⟩ := h.aligned_inter ha
    exact ⟨ha', .inter rfl (hsettled hchild')⟩

end Driven

/-- An intersection ends with its driver, and releases the snapshots. -/
theorem Ended.inter (hended : Ended handle now c child child') (hphase : frame.isExhausted = false)
    (hchildren : ∀ q ∈ children, Over (Keeps handle c) handle q)
    (hwf : ∀ q ∈ children, q.WellFormed) (hchild : children[d]? = some child) :
    Ended handle now c (.inter frame children (some d) snapshot)
      (.inter frame.exhaust ((children.set d child').map (setSnapshot none)) (some d) none) := by
  refine ⟨?_, rfl, ?_, .inter ?_ fun _ _ => rfl, .inter ?_ ?_⟩
  · rw [upcoming_inter hphase hchild, hended.upcoming]
    rfl
  · unfold Query.reset
    rw [resetAll_eq, resetAll_eq, List.map_map, ← map_reset_set hchild hended.reset]
    exact congrArg (Query.inter frame.reset · none none)
      (List.map_congr_left fun q _ => reset_setSnapshot none q)
  · intro q' hq'
    obtain ⟨q, hq, rfl⟩ := List.mem_map.1 hq'
    have hover : Over (fun _ => True) handle q :=
      forall_set (fun q hq => (hchildren q hq).imp fun _ _ => trivial)
        (hended.released.imp fun _ _ => trivial) q hq
    exact hover.setSnapshot fun _ => rfl
  · intro q' hq'
    obtain ⟨q, hq, rfl⟩ := List.mem_map.1 hq'
    exact (forall_set hwf hended.wellFormed q hq).setSnapshot none
  · rintro _ ⟨⟩
    rw [List.length_map, List.length_set]
    exact (List.getElem?_eq_some_iff.1 hchild).1

/-- An intersection steps its driver, and asks the others for what it finds. -/
theorem advanceDriver_spec (hc : c.Sound) (hsteps : StepsWithin disk handle now c n)
    (hphase : frame.isExhausted = false)
    (hchildren : ∀ q ∈ children, Over (Keeps handle c) handle q)
    (hsnapshot : firstHandle? children ≠ none → Keeps handle c snapshot)
    (hwf : ∀ q ∈ children, q.WellFormed) (hchild : children[d]? = some child)
    (hturns : turnsIn c (.inter frame children (some d) snapshot) ≤ n + 1) :
    ∃ out, advanceDriver disk (nextWithin disk n) frame children d snapshot = some out ∧
      Stepped handle now c (.inter frame children (some d) snapshot) out := by
  have hmem : child ∈ children := List.mem_of_getElem? hchild
  have hle : child.turnsIn c ≤ turnsAllIn c children := by
    rw [turnsAllIn_eq]
    exact List.le_sum_of_mem (List.mem_map_of_mem hmem)
  have hturnsAll : turnsAllIn c children + supplyAllIn c children + 1 ≤ n + 1 := hturns
  obtain ⟨out, hout, hstepped⟩ :=
    hsteps child (hchildren child hmem) (hwf child hmem) (by omega)
  unfold advanceDriver
  rw [hchild]
  simp only [Option.map_some]
  rw [hout]
  cases hstepped with
  | @ended child' hended =>
    simp only [Option.bind_eq_bind, Option.bind_some, setSnapshotAll_eq]
    exact ⟨_, rfl, .ended (hended.inter hphase hchildren hwf hchild)⟩
  | @found r child' hfound =>
    have hsees : ∀ q ∈ children.set d child', Over (Sees disk handle c) handle q :=
      fun q hq => (forall_set hchildren hfound.keeps q hq).sees
    obtain ⟨children', hanswer, hasked⟩ := probeAll_spec (r := r)
      (fun q hq => probe_spec hc (hsees q hq)) (.inl rfl) (some d)
    have hdriven := hfound.driven hchild hchildren hwf hasked
    simp only [Option.bind_eq_bind, Option.bind_some]
    rw [hanswer, others_set]
    cases hmember : (others (some d) children).all fun q => q.member c r with
    | false =>
      have hsupply := hdriven.supply
      have hturnsAll' := hdriven.turns
      obtain ⟨out, hout, hstepped⟩ := hsteps (.inter frame children' (some d) snapshot)
        (hdriven.keeps_inter hsnapshot) hdriven.wellFormed_inter (by
          unfold turnsIn
          omega)
      exact ⟨out, hout, hstepped.of_turned (hdriven.turned hphase hmember)⟩
    | true =>
      refine ⟨_, rfl, .found (hdriven.found_inter hphase hsnapshot hmember fun hchild' => ?_)⟩
      refine hasked.settled ?_ ?_
      · rw [others_set, hmember]
      · rintro _ ⟨⟩ q hq
        rw [List.getElem?_set_self (List.getElem?_eq_some_iff.1 hchild).1] at hq
        cases hq
        exact hchild'

theorem advance_inter (hc : c.Sound) (hnow : disk.view handle = .ok now)
    (hsteps : StepsWithin disk handle now c n)
    (hkeeps : Over (Keeps handle c) handle (.inter frame children driver snapshot))
    (hwf : WellFormed (.inter frame children driver snapshot))
    (hturns : turnsIn c (.inter frame children driver snapshot) ≤ n + 1) :
    ∃ out, advance disk (nextWithin disk n) (.inter frame children driver snapshot) = some out ∧
      Stepped handle now c (.inter frame children driver snapshot) out := by
  cases hkeeps with
  | inter hchildren hsnapshot =>
  cases hwf with
  | inter hwfs hdriver =>
    unfold advance
    simp only
    split
    · next hphase => exact ⟨_, rfl, 
        .ended (ended_of_exhausted hphase (.inter hchildren hsnapshot) (.inter hwfs hdriver))⟩
    · next hphase =>
      rw [Bool.not_eq_true] at hphase
      split
      · next hempty =>
        rw [List.isEmpty_iff] at hempty
        subst hempty
        refine ⟨_, rfl, .ended ⟨?_, rfl, rfl, .inter (by rintro _ ⟨⟩) (absurd rfl),
          .inter (by rintro _ ⟨⟩) hdriver⟩⟩
        unfold upcoming
        rw [hphase]
        rfl
      · next hne =>
        rw [List.isEmpty_iff] at hne
        have hdriven (d : Nat) (hd : d < children.length) := advanceDriver_spec hc hsteps hphase
          hchildren hsnapshot hwfs (List.getElem?_eq_getElem hd) hturns
        have hinter : ∃ out, advanceInter disk (nextWithin disk n) frame children driver snapshot =
            some out ∧ Stepped handle now c (.inter frame children driver snapshot) out := by
          unfold advanceInter
          cases driver with
          | some d => exact hdriven d (hdriver d rfl)
          | none =>
            simp only
            rw [chooseDriver_eq (fun q hq => (hchildren q hq).sees) hnow]
            have hlt : driverIn now c children < children.length := driverIn_lt hne
            obtain ⟨out, hout, hstepped⟩ := hdriven _ hlt
            refine ⟨out, hout, hstepped.of_turned ⟨?_, rfl, ?_, ?_, ?_, fun ha => ?_⟩⟩
            · unfold upcoming
              rw [hphase]
              rfl
            · exact Nat.le_refl _
            · exact Nat.le_refl _
            · rfl
            · cases ha with
              | inter _ hrest =>
                refine .inter (fun d _ q hq => ?_) fun q hq => hrest q (mem_of_mem_others hq)
                exact (hrest q (List.mem_of_getElem? hq)).aligned
        cases snapshot with
        | some s => exact hinter
        | none =>
          cases hfirst : firstHandle? children with
          | none => exact hinter
          | some h => exact absurd (hsnapshot (by simp [hfirst])) (by simp)

/-- A step within enough turns finds the first of the upcoming results, or ends the pass. -/
theorem nextWithin_spec (hc : c.Sound) (hnow : disk.view handle = .ok now) (n : Nat) :
    StepsWithin disk handle now c n := by
  induction n with
  | zero =>
    intro q _ _ hturns
    have hpos := q.turnsIn_pos c
    omega
  | succ n ih =>
    intro q hkeeps hwf hturns
    cases q with
    | all => exact advance_all hc _ hkeeps hwf
    | fixed => exact advance_fixed _ hwf
    | position => exact advance_position hc _ hkeeps hwf
    | links frame h =>
      obtain rfl : h = handle := by
        cases hkeeps
        rfl
      exact advance_links hc ih hkeeps hwf hturns
    | inter => exact advance_inter hc hnow ih hkeeps hwf hturns

end GraphStore.Query
