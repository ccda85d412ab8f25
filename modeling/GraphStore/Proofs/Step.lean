import GraphStore.Proofs.Measure

/-!
# Steps of a pass

* `Query.upcoming` : the results still to come, in order;
* `Query.Aligned` : the parts of links agree on the node whose quads are being scanned;
* `Query.Found`, `Query.Stepped` : what a step does to the upcoming results and to the tree;
* `Query.StepsWithin` : all trees step so, given enough turns;
* `Query.advance_all`, `Query.advance_fixed`, `Query.advance_position`, `Query.advance_links` : turns
  of all trees but intersections.
-/

namespace GraphStore

variable {disk : Disk} {handle : Handle} {now c : Contents} {r : Ref} {tail : List Ref}

abbrev Keeps (handle : Handle) (c : Contents) (snapshot : Option Snapshot) : Prop :=
  snapshot = some ⟨handle, c⟩

theorem Query.Over.sees {q : Query} (h : Over (Keeps handle c) handle q) :
    Over (Sees disk handle c) handle q :=
  h.imp fun _ hs => .inl hs

theorem Query.Over.sees_taken {q : Query} (h : Over (· = none) handle q)
    (htake : disk.take handle = .ok ⟨handle, c⟩) : Over (Sees disk handle c) handle q :=
  h.imp fun _ hs => .inr ⟨hs, htake⟩

/-! ## Scans -/

namespace Scan

variable {scan scan' : Scan}

def upcoming (c : Contents) (scan : Scan) : List Ref :=
  if scan.frame.isExhausted then [] else scan.cursor.upcoming c

theorem upcoming_of_cons (h : scan.upcoming c = r :: tail) :
    scan.frame.isExhausted = false ∧ scan.cursor.upcoming c = r :: tail := by
  unfold upcoming at h
  split at h
  · cases h
  · next hphase => exact ⟨Bool.eq_false_iff.2 hphase, h⟩

theorem WellFormed.of_reset (h : scan.WellFormed) (hreset : scan'.reset = scan.reset) :
    scan'.WellFormed := by
  have hindex : scan'.index = scan.index := congrArg (·.index) hreset
  have hbound : scan'.bound = scan.bound := congrArg (·.bound) hreset
  have hsource : scan'.cursor.source = scan.cursor.source := congrArg (·.cursor.source) hreset
  refine ⟨?_, ?_⟩
  · rw [hindex, hbound, h.directions]
  · unfold stem
    rw [hindex, hbound, hsource, h.source]
    rfl

theorem next_of_nil (disk : Disk) (hc : c.Sound) (hwf : scan.WellFormed)
    (hkeeps : scan.cursor.Over (Keeps handle c) handle) (h : scan.upcoming c = []) :
    ∃ scan', scan.next disk = (.ok none, scan') ∧ scan'.frame.isExhausted = true ∧
      scan'.reset = scan.reset ∧
        scan'.cursor.Over (fun s => scan.frame.isExhausted = false → s = none) handle := by
  unfold next
  unfold upcoming at h
  split
  · next hphase => 
    exact ⟨scan, rfl, hphase, rfl, hkeeps.handle_eq, fun hrunning => by simp_all⟩
  · next hphase =>
    rw [if_neg hphase] at h
    obtain ⟨cursor', hnext, -, hsnapshot, hreset⟩ :=
      Cursor.next_of_nil hc hwf.sourceWellFormed hkeeps.snapshot rfl h
    have hhandle : cursor'.handle = scan.cursor.handle := (congrArg Cursor.handle hreset :)
    rw [hnext]
    refine ⟨_, rfl, rfl, ?_, hhandle.trans hkeeps.handle_eq, fun _ => hsnapshot⟩
    unfold reset
    rw [hreset]
    rfl

theorem next_of_cons (disk : Disk) (hc : c.Sound) (hwf : scan.WellFormed)
    (hkeeps : scan.cursor.Over (Keeps handle c) handle) (h : scan.upcoming c = r :: tail) :
    ∃ scan', scan.next disk = (.ok (some r), scan') ∧ scan'.upcoming c = tail ∧
      scan'.cursor.upcoming c = tail ∧ scan'.frame.result = some r ∧
      scan'.cursor.Over (Keeps handle c) handle ∧ scan'.reset = scan.reset := by
  obtain ⟨hphase, hcursor⟩ := upcoming_of_cons h
  obtain ⟨cursor', hnext, htail, hsnapshot, hreset⟩ :=
    Cursor.next_of_cons hc hwf.sourceWellFormed hkeeps.snapshot rfl hcursor
  have hhandle : cursor'.handle = scan.cursor.handle := (congrArg Cursor.handle hreset :)
  unfold next
  rw [hphase, hnext]
  refine ⟨_, rfl, htail, htail, rfl, ⟨hhandle.trans hkeeps.handle_eq, hsnapshot⟩, ?_⟩
  unfold reset
  rw [hreset]
  rfl

end Scan

namespace Query

variable {q q' q₁ : Query} {out : Outcome × Query}

/-! ## Upcoming results -/

/-- The quads with a node at a position, in order. -/
def linkedTo (c : Contents) (direction : Direction) : Ref → List Ref
  | .node id => (Source.entries (.ofDirection direction) (Scan.stemOf [(direction, id)])).rest c none
  | .quad _ => []

mutual

/-- The results still to come, in order. An intersection without a driver will choose one. -/
def upcoming (now c : Contents) : Query → List Ref
  | .all frame _ cursor => if frame.isExhausted then [] else cursor.upcoming c
  | .fixed frame values index => if frame.isExhausted then [] else values.drop index
  | .position scan => scan.upcoming c
  | .links frame _ _ direction primary inner _ =>
    if frame.isExhausted then []
    else (inner.map (Scan.upcoming c)).getD [] ++
      (primary.upcoming now c).flatMap (linkedTo c direction)
  | .inter frame children driver _ =>
    if frame.isExhausted then []
    else
      let d := driver.getD (driverIn now c children)
      ((upcomingAll now c children)[d]?.getD []).filter fun r =>
        (others (some d) children).all fun q => q.member c r

def upcomingAll (now c : Contents) : List Query → List (List Ref)
  | [] => []
  | q :: rest => q.upcoming now c :: upcomingAll now c rest

end

theorem upcomingAll_eq (now c : Contents) (qs : List Query) :
    upcomingAll now c qs = qs.map (upcoming now c) := by
  induction qs with
  | nil => rfl
  | cons q rest ih => rw [upcomingAll, ih, List.map_cons]

/-- The results along the paths that bind names agree with the progress of a pass: the primary of
links is at the node whose quads are scanned, and only the driver of an intersection has begun. -/
inductive Aligned (c : Contents) : Query → Prop
  | all {frame category cursor} : Aligned c (.all frame category cursor)
  | fixed {frame values index} : Aligned c (.fixed frame values index)
  | position {scan} : Aligned c (.position scan)
  | links {frame handle pageSize direction primary inner snapshot} :
      Aligned c primary →
        (∀ scan ∈ inner, ∃ id, Settled (.node id) primary ∧ ∀ r ∈ scan.cursor.upcoming c,
          ∃ key : QuadKey, r = .quad key ∧ key.get direction = id) →
          Aligned c (.links frame handle pageSize direction primary inner snapshot)
  | inter {frame children driver snapshot} :
      (∀ d ∈ driver, ∀ q ∈ children[d]?, Aligned c q) →
        (∀ q ∈ others driver children, AtStart q) →
          Aligned c (.inter frame children driver snapshot)

theorem mem_of_mem_others {driver : Option Nat} {children : List Query}
    (h : q ∈ others driver children) : q ∈ children := by
  cases driver with
  | none => exact h
  | some d => exact List.mem_of_mem_eraseIdx h

theorem AtStart.aligned (h : AtStart q) : Aligned c q := by
  induction h with
  | all => exact .all
  | fixed => exact .fixed
  | position => exact .position
  | links _ _ ih => exact .links ih (by rintro _ ⟨⟩)
  | inter _ hchildren ih =>
    exact .inter (fun d _ q hq => ih q (List.mem_of_getElem? hq))
      fun q hq => hchildren q (mem_of_mem_others hq)

/-! ## What steps do -/

/-- `q'` is `q` after a step that found a result. -/
structure Found (handle : Handle) (now c : Contents) (q : Query) (r : Ref) (q' : Query) : Prop where
  upcoming : q.upcoming now c = r :: q'.upcoming now c
  supply : q'.supplyIn c < q.supplyIn c
  turns : q'.turnsIn c ≤ q.turnsIn c
  reset : q'.reset = q.reset
  keeps : Over (Keeps handle c) handle q'
  wellFormed : q'.WellFormed
  aligned : Aligned c q → Aligned c q' ∧ Settled r q'

structure Ended (handle : Handle) (now c : Contents) (q q' : Query) : Prop where
  upcoming : q.upcoming now c = []
  phase : q'.frame.isExhausted = true
  reset : q'.reset = q.reset
  released : Over (fun s => q.frame.isExhausted = false → s = none) handle q'
  wellFormed : q'.WellFormed

/-- What a step comes to: the first upcoming result, or the end of the pass. -/
inductive Stepped (handle : Handle) (now c : Contents) (q : Query) : Outcome × Query → Prop
  | found {r : Ref} {q' : Query} :
      Found handle now c q r q' → Stepped handle now c q (.ok (some r), q')
  | ended {q' : Query} : Ended handle now c q q' → Stepped handle now c q (.ok none, q')

/-- `q₁` is `q` some turns later, before the step has come to anything. -/
structure Turned (now c : Contents) (q q₁ : Query) : Prop where
  upcoming : q₁.upcoming now c = q.upcoming now c
  phase : q₁.frame.isExhausted = q.frame.isExhausted
  supply : q₁.supplyIn c ≤ q.supplyIn c
  turns : q₁.turnsIn c ≤ q.turnsIn c
  reset : q₁.reset = q.reset
  aligned : Aligned c q → Aligned c q₁

theorem Stepped.of_turned (h : Stepped handle now c q₁ out) (hturned : Turned now c q q₁) :
    Stepped handle now c q out := by
  cases h with
  | found h =>
    exact .found {
      upcoming := hturned.upcoming ▸ h.upcoming
      supply := Nat.lt_of_lt_of_le h.supply hturned.supply
      turns := Nat.le_trans h.turns hturned.turns
      reset := h.reset.trans hturned.reset
      keeps := h.keeps
      wellFormed := h.wellFormed
      aligned := fun ha => h.aligned (hturned.aligned ha) }
  | ended h =>
    exact .ended {
      upcoming := hturned.upcoming ▸ h.upcoming
      phase := h.phase
      reset := h.reset.trans hturned.reset
      released := h.released.imp fun _ hs hphase => hs (hturned.phase.trans hphase)
      wellFormed := h.wellFormed }

theorem upcoming_of_exhausted (hphase : q.frame.isExhausted = true) : q.upcoming now c = [] := by
  cases q with
  | all | fixed | links | inter =>
    unfold upcoming
    exact if_pos hphase
  | position =>
    unfold upcoming Scan.upcoming
    exact if_pos hphase

theorem ended_of_exhausted (hphase : q.frame.isExhausted = true)
    (hkeeps : Over (Keeps handle c) handle q) (hwf : q.WellFormed) : Ended handle now c q q where
  upcoming := upcoming_of_exhausted hphase
  phase := hphase
  reset := rfl
  released := hkeeps.imp fun _ _ hrunning => absurd (hphase.symm.trans hrunning) (by decide)
  wellFormed := hwf

def StepsWithin (disk : Disk) (handle : Handle) (now c : Contents) (n : Nat) : Prop :=
  ∀ q, Over (Keeps handle c) handle q → q.WellFormed → q.turnsIn c ≤ n →
    ∃ out, nextWithin disk n q = some out ∧ Stepped handle now c q out

/-! ### Leaves -/

theorem advance_all (hc : c.Sound) (next : Query → Option (Outcome × Query)) {frame : Frame}
    {category : Category} {cursor : Cursor}
    (hkeeps : Over (Keeps handle c) handle (.all frame category cursor))
    (hwf : WellFormed (.all frame category cursor)) :
    ∃ out, advance disk next (.all frame category cursor) = some out ∧
      Stepped handle now c (.all frame category cursor) out := by
  cases hkeeps with
  | all hcursor =>
  cases hwf with
  | all hsource =>
    have hs : cursor.source.WellFormed := hsource ▸ Source.ofCategory_wellFormed category
    rw [advance]
    split
    · next hphase => exact ⟨_, rfl, .ended (ended_of_exhausted hphase (.all hcursor) (.all hsource))⟩
    · next hphase =>
      have hupcoming : upcoming now c (.all frame category cursor) = cursor.upcoming c := by
        unfold upcoming
        rw [if_neg hphase]
      cases hlist : cursor.upcoming c with
      | nil =>
        obtain ⟨cursor', hnext, -, hsnapshot, hreset⟩ :=
          Cursor.next_of_nil hc hs hcursor.snapshot rfl hlist
        have hhandle : cursor'.handle = cursor.handle := (congrArg Cursor.handle hreset :)
        have hsource' : cursor'.source = cursor.source := (congrArg Cursor.source hreset :)
        rw [hnext]
        refine ⟨_, rfl, .ended ⟨hupcoming.trans hlist, rfl, ?_,
          .all ⟨hhandle.trans hcursor.handle_eq, fun _ => hsnapshot⟩,
          .all (hsource'.trans hsource)⟩⟩
        unfold reset
        rw [hreset]
        rfl
      | cons r tail =>
        obtain ⟨cursor', hnext, htail, hsnapshot, hreset⟩ :=
          Cursor.next_of_cons hc hs hcursor.snapshot rfl hlist
        have hhandle : cursor'.handle = cursor.handle := (congrArg Cursor.handle hreset :)
        have hsource' : cursor'.source = cursor.source := (congrArg Cursor.source hreset :)
        rw [hnext]
        refine ⟨_, rfl, .found ⟨?_, ?_, Nat.le_refl 1, ?_,
          .all ⟨hhandle.trans hcursor.handle_eq, hsnapshot⟩, .all (hsource'.trans hsource),
          fun _ => ⟨.all, .all rfl⟩⟩⟩
        · rw [hupcoming, hlist, ← htail]
          rfl
        · unfold supplyIn
          rw [htail, hlist]
          exact Nat.lt_succ_self _
        · unfold reset
          rw [hreset]
          rfl

theorem advance_fixed (next : Query → Option (Outcome × Query)) {frame : Frame}
    {values : List Ref} {index : Nat} (hwf : WellFormed (.fixed frame values index)) :
    ∃ out, advance disk next (.fixed frame values index) = some out ∧
      Stepped handle now c (.fixed frame values index) out := by
  cases hwf with
  | fixed hnodup =>
    rw [advance]
    split
    · next hphase => exact ⟨_, rfl, .ended (ended_of_exhausted hphase .fixed (.fixed hnodup))⟩
    · next hphase =>
      have hupcoming : upcoming now c (.fixed frame values index) = values.drop index := by
        unfold upcoming
        rw [if_neg hphase]
      cases hvalue : values[index]? with
      | none =>
        refine ⟨_, rfl, .ended ⟨?_, rfl, rfl, .fixed, .fixed hnodup⟩⟩
        rw [hupcoming, List.drop_eq_nil_iff]
        exact List.getElem?_eq_none_iff.1 hvalue
      | some r =>
        obtain ⟨hlt, rfl⟩ := List.getElem?_eq_some_iff.1 hvalue
        refine ⟨_, rfl, .found ⟨?_, ?_, Nat.le_refl 1, rfl, .fixed, .fixed hnodup,
          fun _ => ⟨.fixed, .fixed rfl⟩⟩⟩
        · rw [hupcoming, List.drop_eq_getElem_cons hlt]
          rfl
        · unfold supplyIn
          omega

theorem advance_position (hc : c.Sound) (next : Query → Option (Outcome × Query)) {scan : Scan}
    (hkeeps : Over (Keeps handle c) handle (.position scan)) (hwf : WellFormed (.position scan)) :
    ∃ out, advance disk next (.position scan) = some out ∧
      Stepped handle now c (.position scan) out := by
  cases hkeeps with
  | position hcursor =>
  cases hwf with
  | position hscan =>
    rw [advance]
    cases hlist : scan.upcoming c with
    | nil =>
      obtain ⟨scan', hnext, hphase, hreset, hreleased⟩ :=
        Scan.next_of_nil disk hc hscan hcursor hlist
      rw [hnext]
      refine ⟨_, rfl, .ended ⟨hlist, hphase, ?_, .position hreleased,
        .position (hscan.of_reset hreset)⟩⟩
      unfold reset
      rw [hreset]
    | cons r tail =>
      obtain ⟨scan', hnext, htail, htail', hresult, hcursor', hreset⟩ :=
        Scan.next_of_cons disk hc hscan hcursor hlist
      rw [hnext]
      refine ⟨_, rfl, .found ⟨?_, ?_, Nat.le_refl 1, ?_, .position hcursor',
        .position (hscan.of_reset hreset), fun _ => ⟨.position, .position hresult⟩⟩⟩
      · unfold upcoming
        rw [hlist, htail]
      · unfold supplyIn
        rw [htail', (Scan.upcoming_of_cons hlist).2]
        exact Nat.lt_succ_self _
      · unfold reset
        rw [hreset]

/-! ### Links -/

theorem length_stemOf (direction : Direction) (id : NodeId) :
    (Scan.stemOf [(direction, id)]).length = (Index.ofDirection direction).stemWidth :=
  (Scan.ofDirection_wellFormed default 0 direction id).length_stem

theorem mem_linkedTo (hc : c.Sound) {direction : Direction} {id : NodeId} :
    r ∈ linkedTo c direction (.node id) ↔
      ∃ key, c.isLive key = true ∧ key.get direction = id ∧ r = .quad key := by
  have hwf := Scan.ofDirection_wellFormed default 0 direction id
  unfold linkedTo
  simp only
  rw [Source.mem_rest_entries hc (length_stemOf direction id)]
  refine exists_congr fun key => and_congr_right fun _ => and_congr_left fun _ => ?_
  have hstem : (Index.ofDirection direction).stem key = Scan.stemOf [(direction, id)] ↔
      (Scan.ofDirection default 0 direction id).fits key = true := hwf.stem_eq_iff
  rw [hstem]
  simp [Scan.fits, Scan.ofDirection, Scan.start]

theorem length_linkedTo_le (hc : c.Sound) (direction : Direction) (r : Ref) :
    (linkedTo c direction r).length ≤ (c.indexes.get (.ofDirection direction)).size := by
  cases r with
  | quad key => exact Nat.zero_le _
  | node id =>
    have hstem : Source.WellFormed (.entries (.ofDirection direction)
        (Scan.stemOf [(direction, id)])) := length_stemOf direction id
    unfold linkedTo
    rw [Source.length_rest hc hstem, Source.countAfter_eq]
    unfold Source.encoded
    rw [List.length_map]
    exact Table.length_between_le _ _ _

section Links

variable {n : Nat} {frame : Frame} {pageSize : Nat} {direction : Direction}
  {primary primary' : Query} {snapshot : Option Snapshot}

theorem upcoming_links {h : Handle} {inner : Option Scan} (hphase : frame.isExhausted = false) :
    upcoming now c (.links frame h pageSize direction primary inner snapshot) =
      (inner.map (Scan.upcoming c)).getD [] ++
        (primary.upcoming now c).flatMap (linkedTo c direction) := by
  conv_lhs => unfold upcoming
  rw [hphase, if_neg (by decide)]

theorem turned_scanned {h : Handle} {scan : Scan} (hphase : frame.isExhausted = false)
    (hlist : scan.upcoming c = []) :
    Turned now c (.links frame h pageSize direction primary (some scan) snapshot)
      (.links frame h pageSize direction primary none snapshot) := by
  refine ⟨?_, rfl, ?_, ?_, rfl, fun ha => ?_⟩
  · rw [upcoming_links hphase, upcoming_links hphase, Option.map_some, hlist]
    rfl
  · unfold supplyIn
    simp
  · rw [turnsIn_links, turnsIn_links_scan]
    omega
  · cases ha with
    | links ha _ => exact .links ha (by rintro _ ⟨⟩)

theorem Found.turned_node (hc : c.Sound) {h : Handle} {id : NodeId}
    (hphase : frame.isExhausted = false)
    (hfound : Found handle now c primary (.node id) primary') :
    Turned now c (.links frame h pageSize direction primary none snapshot)
      (.links frame h pageSize direction primary'
        (some ((Scan.ofDirection h pageSize direction id).setSnapshot snapshot)) snapshot) := by
  have hcursor : ((Scan.ofDirection h pageSize direction id).setSnapshot
      snapshot).cursor.upcoming c = linkedTo c direction (.node id) := rfl
  refine ⟨?_, rfl, ?_, ?_, ?_, fun ha => ?_⟩
  · rw [upcoming_links hphase, upcoming_links hphase, hfound.upcoming, List.flatMap_cons]
    rfl
  · have hproduct : (primary'.supplyIn c + 1) *
        (c.indexes.get (.ofDirection direction)).size ≤
          primary.supplyIn c * (c.indexes.get (.ofDirection direction)).size :=
      Nat.mul_le_mul_right _ hfound.supply
    have hlength := length_linkedTo_le hc direction (.node id)
    unfold supplyIn
    rw [Option.map_some, Option.getD_some, hcursor]
    rw [Nat.add_mul, Nat.one_mul] at hproduct
    omega
  · have hsupply := hfound.supply
    have hturns := hfound.turns
    rw [turnsIn_links, turnsIn_links_scan]
    omega
  · unfold Query.reset
    rw [hfound.reset]
  · cases ha with
    | links ha _ =>
      obtain ⟨ha', hsettled⟩ := hfound.aligned ha
      refine .links ha' ?_
      rintro _ ⟨⟩
      refine ⟨id, hsettled, fun r hr => ?_⟩
      rw [hcursor, mem_linkedTo hc] at hr
      obtain ⟨key, -, hkey, rfl⟩ := hr
      exact ⟨key, rfl, hkey⟩

theorem Found.turned_quad {h : Handle} {key : QuadKey} (hphase : frame.isExhausted = false)
    (hfound : Found handle now c primary (.quad key) primary') :
    Turned now c (.links frame h pageSize direction primary none snapshot)
      (.links frame h pageSize direction primary' none snapshot) := by
  refine ⟨?_, rfl, ?_, ?_, ?_, fun ha => ?_⟩
  · rw [upcoming_links hphase, upcoming_links hphase, hfound.upcoming, List.flatMap_cons]
    rfl
  · unfold supplyIn
    exact Nat.add_le_add_right (Nat.mul_le_mul_right _ (Nat.le_of_lt hfound.supply)) _
  · have hsupply := hfound.supply
    have hturns := hfound.turns
    rw [turnsIn_links, turnsIn_links]
    omega
  · unfold Query.reset
    rw [hfound.reset]
  · cases ha with
    | links ha _ => exact .links (hfound.aligned ha).1 (by rintro _ ⟨⟩)

/-- Links that scan the quads of a node take the next one, or go on without the scan. -/
theorem advanceLinks_scan (hc : c.Sound) (hsteps : StepsWithin disk handle now c n)
    (hphase : frame.isExhausted = false) {scan : Scan} (hscan : scan.WellFormed)
    (hbound : ∃ id, scan.bound = [(direction, id)])
    (hscanKeeps : scan.cursor.Over (Keeps handle c) handle)
    (hprimary : Over (Keeps handle c) handle primary) (hprimaryWf : primary.WellFormed)
    (hturns : turnsIn c (.links frame handle pageSize direction primary (some scan)
      (some ⟨handle, c⟩)) ≤ n + 1) :
    ∃ out, advanceLinks disk (nextWithin disk n) frame handle pageSize direction primary
        (some scan) ⟨handle, c⟩ = some out ∧
      Stepped handle now c (.links frame handle pageSize direction primary (some scan)
        (some ⟨handle, c⟩)) out := by
  unfold advanceLinks
  simp only
  cases hlist : scan.upcoming c with
  | nil =>
    obtain ⟨scan', hnext, -⟩ :=
      Scan.next_of_nil disk hc hscan hscanKeeps hlist
    rw [hnext]
    obtain ⟨out, hout, hstepped⟩ := hsteps
      (.links frame handle pageSize direction primary none (some ⟨handle, c⟩))
      (.links rfl hprimary (by rintro _ ⟨⟩)) (.links hprimaryWf (by rintro _ ⟨⟩)) (by
        rw [turnsIn_links_scan] at hturns
        rw [turnsIn_links]
        omega)
    exact ⟨out, hout, hstepped.of_turned (turned_scanned hphase hlist)⟩
  | cons r tail =>
    obtain ⟨scan', hnext, htail, htail', -, hscan', hreset⟩ :=
      Scan.next_of_cons disk hc hscan hscanKeeps hlist
    have hcursor := (Scan.upcoming_of_cons hlist).2
    have hbound' : scan'.bound = scan.bound := congrArg (·.bound) hreset
    rw [hnext]
    refine ⟨_, rfl, .found ⟨?_, ?_, ?_, rfl, .links rfl hprimary ?_, .links hprimaryWf ?_,
      fun ha => ?_⟩⟩
    · rw [upcoming_links hphase, upcoming_links rfl, Option.map_some, Option.map_some, hlist, htail]
      rfl
    · unfold supplyIn
      rw [Option.map_some, Option.map_some, htail', hcursor]
      exact Nat.lt_succ_self _
    · exact Nat.le_refl _
    · rintro _ ⟨⟩
      exact hscan'
    · rintro _ ⟨⟩
      exact ⟨hscan.of_reset hreset, hbound'.symm ▸ hbound⟩
    · cases ha with
      | links ha hinner =>
        obtain ⟨id, hsettled, hkeys⟩ := hinner scan rfl
        rw [hcursor] at hkeys
        obtain ⟨key, rfl, rfl⟩ := hkeys r List.mem_cons_self
        refine ⟨.links ha ?_, .links rfl hsettled⟩
        rintro _ ⟨⟩
        refine ⟨_, hsettled, fun r hr => hkeys r (List.mem_cons_of_mem _ ?_)⟩
        rwa [htail'] at hr

/-- Other links step their primary, and scan the quads of the node it finds. -/
theorem advanceLinks_primary (hc : c.Sound) (hsteps : StepsWithin disk handle now c n)
    (hphase : frame.isExhausted = false)
    (hprimary : Over (Keeps handle c) handle primary) (hprimaryWf : primary.WellFormed)
    (hturns : turnsIn c (.links frame handle pageSize direction primary none
      (some ⟨handle, c⟩)) ≤ n + 1) :
    ∃ out, advanceLinks disk (nextWithin disk n) frame handle pageSize direction primary
        none ⟨handle, c⟩ = some out ∧
      Stepped handle now c (.links frame handle pageSize direction primary none
        (some ⟨handle, c⟩)) out := by
  rw [turnsIn_links] at hturns
  obtain ⟨out, hout, hstepped⟩ := hsteps primary hprimary hprimaryWf (by omega)
  unfold advanceLinks
  simp only
  rw [hout]
  cases hstepped with
  | ended hended =>
    refine ⟨_, rfl, .ended ⟨?_, rfl, ?_, ?_, ?_⟩⟩
    · rw [upcoming_links hphase, hended.upcoming]
      rfl
    · unfold reset
      rw [reset_setSnapshot, hended.reset]
      rfl
    · exact .links (fun _ => rfl) (hended.released.setSnapshot fun _ => rfl) (by rintro _ ⟨⟩)
    · exact .links (hended.wellFormed.setSnapshot none) (by rintro _ ⟨⟩)
  | @found r primary' hfound =>
    have hsupply := hfound.supply
    have hturned := hfound.turns
    cases r with
    | node id =>
      obtain ⟨out, hout, hstepped⟩ := hsteps
        (.links frame handle pageSize direction primary'
          (some ((Scan.ofDirection handle pageSize direction id).setSnapshot (some ⟨handle, c⟩)))
          (some ⟨handle, c⟩))
        (.links rfl hfound.keeps (by
          rintro _ ⟨⟩
          exact ⟨rfl, rfl⟩))
        (.links hfound.wellFormed (by
          rintro _ ⟨⟩
          exact ⟨Scan.setSnapshot_wellFormed (Scan.ofDirection_wellFormed _ _ _ _) _, id, rfl⟩)) (by
        rw [turnsIn_links_scan]
        omega)
      exact ⟨out, hout, hstepped.of_turned (hfound.turned_node hc hphase)⟩
    | quad key =>
      obtain ⟨out, hout, hstepped⟩ := hsteps
        (.links frame handle pageSize direction primary' none (some ⟨handle, c⟩))
        (.links rfl hfound.keeps (by rintro _ ⟨⟩)) (.links hfound.wellFormed (by rintro _ ⟨⟩)) (by
        rw [turnsIn_links]
        omega)
      exact ⟨out, hout, hstepped.of_turned (hfound.turned_quad hphase)⟩

theorem advance_links (hc : c.Sound) (hsteps : StepsWithin disk handle now c n) {h : Handle}
    {inner : Option Scan}
    (hkeeps : Over (Keeps handle c) handle
      (.links frame h pageSize direction primary inner snapshot))
    (hwf : WellFormed (.links frame h pageSize direction primary inner snapshot))
    (hturns : turnsIn c (.links frame h pageSize direction primary inner snapshot) ≤ n + 1) :
    ∃ out, advance disk (nextWithin disk n)
        (.links frame h pageSize direction primary inner snapshot) = some out ∧
      Stepped handle now c (.links frame h pageSize direction primary inner snapshot) out := by
  cases hkeeps with
  | links hsnapshot hprimary hinner =>
  cases hwf with
  | links hprimaryWf hinnerWf =>
    subst hsnapshot
    unfold advance
    simp only
    split
    · next hphase =>
      exact ⟨_, rfl, .ended (ended_of_exhausted hphase (.links rfl hprimary hinner)
        (.links hprimaryWf hinnerWf))⟩
    · next hphase =>
      rw [Bool.not_eq_true] at hphase
      cases inner with
      | some scan =>
        obtain ⟨hscan, hbound⟩ := hinnerWf scan rfl
        exact advanceLinks_scan hc hsteps hphase hscan hbound (hinner scan rfl) hprimary
          hprimaryWf hturns
      | none => exact advanceLinks_primary hc hsteps hphase hprimary hprimaryWf hturns

end Links

end Query

end GraphStore
