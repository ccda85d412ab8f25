import GraphStore.Proofs.Joining

/-!
# Intersections that gain children in a pass

* `Query.Gathering` : an intersection in a pass, some children of which joined after it began;
* `Query.Gathering.next` : a step finds a result of all children in the contents of the pass, other
  than those found since the last child joined;
* `Query.Growing`, `Query.Growing.grown` : the pass, after any writes, results and joins;
* `Store.repeats_grown` : a result from before the last join can be found again, since the driver is
  chosen anew.
-/

namespace GraphStore

variable {disk : Disk} {handle : Handle} {now c : Contents} {r : Ref}

namespace Query

variable {q q' : Query} {frame : Frame} {child child' : Query} {children : List Query}
  {driver : Option Nat}

/-! ## Intersections in a pass -/

/-- An intersection in a pass that took a snapshot of given contents, and what it has found since it
last gained a child: some child keeps this snapshot, and its driver, once chosen, has none of that to
come. -/
structure Gathering (handle : Handle) (c : Contents) (found : List Ref) (frame : Frame)
    (children : List Query) (driver : Option Nat) : Prop where
  running : frame.isExhausted = false
  joined : ∀ q ∈ children, Joined handle q
  anchored : ∃ q ∈ children, q.handle?.isSome = true ∧ Over (Keeps handle c) handle q
  drives : driver = none ∧ found = [] ∨ ∃ d child c', driver = some d ∧ children[d]? = some child ∧
    Reading handle c' child ∧ ∀ now, (found ++ child.upcoming now c').Nodup

theorem Gathering.ne_nil {found : List Ref} (h : Gathering handle c found frame children driver) :
    children ≠ [] := by
  obtain ⟨q, hq, -⟩ := h.anchored
  exact List.ne_nil_of_mem hq

theorem Gathering.nodup {found : List Ref} (h : Gathering handle c found frame children driver) :
    found.Nodup := by
  rcases h.drives with ⟨-, rfl⟩ | ⟨d, child, c', -, -, -, hnodup⟩
  · exact List.nodup_nil
  · exact (hnodup c').of_append_left

/-- At the beginning of its pass an intersection has given its snapshot to all children. -/
theorem Fresh.gathering (hc : c.Sound) (h : Fresh handle (.inter frame children none none))
    (hreads : (Query.inter frame children none none).handle?.isSome = true) :
    ∃ children', (Query.inter frame children none none).begun ⟨handle, c⟩ =
      .inter frame children' none (some ⟨handle, c⟩) ∧
        Gathering handle c [] frame children' none ∧ children'.map reset = children.map reset := by
  have hbegun : (Query.inter frame children none none).begun ⟨handle, c⟩ =
      .inter frame (children.map (setSnapshot (some ⟨handle, c⟩))) none (some ⟨handle, c⟩) := by
    unfold Query.begun
    rw [if_pos hreads, setSnapshot, setSnapshotAll_eq]
  obtain ⟨hstart, hwf, hkeeps⟩ := h.begun c
  rw [hbegun] at hstart hwf hkeeps
  cases hstart with
  | inter hphase hstarts =>
  cases hwf with
  | inter hwfs _ =>
  cases hkeeps with
  | inter hkeep _ =>
    refine ⟨_, hbegun, ⟨Frame.running hphase, fun q hq => .reading
      (.of_atStart hc (hkeep q hq) (hwfs q hq) (hstarts q hq)), ?_, .inl ⟨rfl, rfl⟩⟩, ?_⟩
    · obtain ⟨q, hq, hq'⟩ := exists_reads hreads
      have hmem := List.mem_map_of_mem (f := setSnapshot (some ⟨handle, c⟩)) hq
      exact ⟨_, hmem, by rwa [handle?_setSnapshot], hkeep _ hmem⟩
    · rw [List.map_map]
      exact List.map_congr_left fun q _ => reset_setSnapshot _ q

theorem Gathering.addChild {found : List Ref} (h : Gathering handle c found frame children driver)
    (hchild : Fresh handle child) : Gathering handle c [] frame (children ++ [child]) none where
  running := h.running
  joined q hq := by
    rcases List.mem_append.1 hq with hq | hq
    · exact h.joined q hq
    · rw [List.mem_singleton.1 hq]
      exact .waiting hchild
  anchored := by
    obtain ⟨q, hq, hreads⟩ := h.anchored
    exact ⟨q, List.mem_append_left _ hq, hreads⟩
  drives := .inl ⟨rfl, rfl⟩

theorem Gathering.exists_driver {found : List Ref} (hnow : now.Sound)
    (hview : disk.view handle = .ok now) (h : Gathering handle c found frame children driver) :
    ∃ d child child₁ c', children[d]? = some child ∧ Readied disk handle c' child child₁ ∧
      (∀ now, (found ++ child₁.upcoming now c').Nodup) ∧ ∀ next snapshot,
        advanceInter disk next frame children driver snapshot =
          advanceDriver disk next frame children d snapshot := by
  rcases h.drives with ⟨rfl, rfl⟩ | ⟨d, child, c', rfl, hchild, hreading, hnodup⟩
  · obtain ⟨d, hd, hlt⟩ := chooseDriver_joined hnow hview h.joined h.ne_nil
    have hchild := List.getElem?_eq_getElem hlt
    obtain ⟨c', child₁, hreadied⟩ :=
      (h.joined _ (List.mem_of_getElem? hchild)).readied hnow hview
    refine ⟨d, _, child₁, c', hchild, hreadied, fun now => ?_, fun next snapshot => ?_⟩
    · exact hreadied.reading.nodup now
    · unfold advanceInter
      simp only [hd]
  · exact ⟨d, child, child, c', hchild, hreading.readied disk, hnodup, fun _ _ => rfl⟩

/-! ### One step -/

/-- What a step of an intersection in a pass comes to: a result of all children in the contents of the
pass, other than those found since the last child joined, or the end. -/
inductive Gathers (handle : Handle) (c : Contents) (found : List Ref) (frame : Frame)
    (children : List Query) : Outcome × Query → Prop
  | ended {q : Query} : q.phase = .exhausted → Gathers handle c found frame children (.ok none, q)
  | found {r : Ref} {d : Nat} {children' : List Query} :
      Gathering handle c (found ++ [r]) (frame.advance r) children' (some d) →
      children'.map reset = children.map reset → Common c children' r → r ∉ found →
        Gathers handle c found frame children
          (.ok (some r), .inter (frame.advance r) children' (some d) (some ⟨handle, c⟩))

theorem Gathering.next {found : List Ref} (hc : c.Sound) (hnow : now.Sound)
    (hview : disk.view handle = .ok now) (h : Gathering handle c found frame children driver) :
    Gathers handle c found frame children
      (Query.next disk (.inter frame children driver (some ⟨handle, c⟩))) := by
  obtain ⟨d, child, child₁, c', hchild, hreadied, hnodup, hadvance⟩ := h.exists_driver hnow hview
  have hlt := (List.getElem?_eq_some_iff.1 hchild).1
  have hchild₁ : (children.set d child₁)[d]? = some child₁ := List.getElem?_set_self hlt
  obtain ⟨hturns, hsupply⟩ := bounds_le disk none (List.mem_of_getElem? hchild)
  have hbounds := hreadied.bounds
  let n := turnsAll disk none children + supplyAll disk none children
  obtain ⟨out, hout, hdraws⟩ := advanceDriver_draws hnow hview h.running ⟨handle, c⟩ n
    (forall_set (d := d) h.joined (.reading hreadied.reading)) hchild₁ hreadied.reading (by omega)
  have hnext : Query.next disk (.inter frame children driver (some ⟨handle, c⟩)) = out := by
    have hstep : nextWithin disk (n + 1) (.inter frame children driver (some ⟨handle, c⟩)) =
        some out := by
      change advance disk (nextWithin disk n) _ = _
      rw [advance_held h.running h.ne_nil, hadvance, ← hreadied.advanceDriver_eq hchild, hout]
    unfold Query.next
    exact congrArg (Option.getD · _) hstep
  rw [hnext]
  cases hdraws with
  | ended hphase => exact .ended hphase
  | @found r child' children' halike hafter hreset hreading' hunderway hupcoming hhas =>
    obtain ⟨rejected, hupcoming⟩ := hupcoming
    rw [List.set_set] at halike
    have hanchored : ∃ q ∈ children', q.handle?.isSome = true ∧ Over (Keeps handle c) handle q :=
      exists_alike halike (fun q q' hq hp => ⟨hq.reads hp.1, hq.stays _ hp.2⟩)
        (exists_set h.anchored hchild fun hp => hreadied.carries hreading' hreset hp.1 hp.2)
    have hnodup' : (found ++ (rejected ++ r :: child'.upcoming now c')).Nodup :=
      hupcoming ▸ hnodup now
    refine .found ⟨rfl, ?_, hanchored, .inr ⟨d, child', c', rfl, hafter, hreading', fun now' => ?_⟩⟩ ?_
      (common_of_has hc hhas hanchored) ?_
    · exact forall_alike halike (fun _ _ hq h => h.alike hq) (forall_set h.joined (.reading hreading'))
    · rw [hunderway.upcoming_eq hunderway rfl now' now c', List.append_assoc]
      exact hnodup'.sublist ((List.sublist_append_right rejected _).append_left found)
    · have hbare := map_eq_of_forall₂ (halike.imp fun _ _ h => h.bare)
      rw [map_reset_bare hbare, map_reset_set hchild (hreset.trans hreadied.reset)]
    · intro hr
      exact List.disjoint_of_nodup_append hnodup' hr (List.mem_append_right _ List.mem_cons_self)

/-! ## A pass -/

/-- `q'` is `q` some time after the first step of its pass found a result: after any writes to the
store, further results, and children that joined. `added` are these children, and `found` the results
since the last of them joined. -/
inductive Growing (store : Store) (disk : Disk) (q : Query) :
    List Query → List Ref → Disk → Query → Prop
  | first {r : Ref} : (q.next disk).1 = .ok (some r) →
      Growing store disk q [] [r] disk (q.next disk).2
  | wrote {added : List Query} {found : List Ref} {disk' : Disk} {q' : Query}
      (call : Store.WriteCall) : Growing store disk q added found disk' q' →
        store.Admits disk' call → Growing store disk q added found (store.after disk' call) q'
  | found {added : List Query} {found : List Ref} {disk' : Disk} {q' : Query} {r : Ref} :
      Growing store disk q added found disk' q' → (q'.next disk').1 = .ok (some r) →
        Growing store disk q added (found ++ [r]) disk' (q'.next disk').2
  | joined {added : List Query} {found : List Ref} {disk' : Disk} {q' child : Query} :
      Growing store disk q added found disk' q' → child.Built store.handle →
        Growing store disk q (added ++ [child]) [] disk' (q'.addChild child)

inductive Grown (handle : Handle) (c : Contents) (children added : List Query) (found : List Ref) :
    Query → Prop
  | gathering {frame : Frame} {children' : List Query} {driver : Option Nat} :
      Gathering handle c found frame children' driver →
      children'.map reset = (children ++ added).map reset →
        Grown handle c children added found (.inter frame children' driver (some ⟨handle, c⟩))

/-- A step finds a result of all children that was not found since the last of them joined, or ends
the pass. -/
theorem Grown.next {added : List Query} {found : List Ref} (hc : c.Sound) (hnow : now.Sound)
    (hview : disk.view handle = .ok now) (h : Grown handle c children added found q) :
    (∃ q', q.next disk = (.ok none, q')) ∨
      ∃ r q', q.next disk = (.ok (some r), q') ∧ Grown handle c children added (found ++ [r]) q' ∧
        r ∉ found ∧ ∀ child ∈ children ++ added, child.member c r = true := by
  cases h with
  | @gathering frame children' driver hgathering hreset =>
    have hgathers := hgathering.next hc hnow hview
    generalize Query.next disk _ = out at hgathers ⊢
    cases hgathers with
    | ended => exact .inl ⟨_, rfl⟩
    | found hgathering' hreset' hcommon hfresh =>
      have hsame := hreset'.trans hreset
      refine .inr ⟨_, _, rfl, .gathering hgathering' hsame, hfresh, fun child hchild => ?_⟩
      have hmem := List.mem_map_of_mem (f := reset) hchild
      rw [← hsame] at hmem
      obtain ⟨child', hchild', heq⟩ := List.mem_map.1 hmem
      rw [member_of_reset heq.symm]
      exact hcommon.2 child' hchild'

theorem Grown.found {added : List Query} {found : List Ref} (hc : c.Sound) (hnow : now.Sound)
    (hview : disk.view handle = .ok now) (h : Grown handle c children added found q)
    (hnext : (q.next disk).1 = .ok (some r)) :
    Grown handle c children added (found ++ [r]) (q.next disk).2 := by
  rcases h.next hc hnow hview with ⟨q', hnone⟩ | ⟨r', q', hsome, hgrown, -⟩
  · rw [hnone] at hnext
    cases hnext
  · rw [hsome] at hnext ⊢
    cases hnext
    exact hgrown

theorem Grown.nodup {added : List Query} {found : List Ref}
    (h : Grown handle c children added found q) : found.Nodup := by
  cases h with
  | gathering hgathering => exact hgathering.nodup

theorem Grown.addChild {added : List Query} {found : List Ref}
    (h : Grown handle c children added found q) (hchild : Fresh handle child) :
    Grown handle c children (added ++ [child]) [] (q.addChild child) := by
  cases h with
  | gathering hgathering hreset =>
    refine .gathering (hgathering.addChild hchild) ?_
    rw [List.map_append, hreset, ← List.map_append, List.append_assoc]

theorem Growing.grown {store : Store} {added : List Query} {found : List Ref} {disk' : Disk}
    (hc : c.Sound) (hview : disk.view store.handle = .ok c)
    (hq : Fresh store.handle (.inter frame children none none))
    (hreads : (Query.inter frame children none none).handle?.isSome = true)
    (h : (Query.inter frame children none none).Growing store disk added found disk' q') :
    store.SoundOn disk' ∧ Grown store.handle c children added found q' := by
  induction h with
  | @first r hnext =>
    refine ⟨⟨c, hview, hc⟩, ?_⟩
    obtain ⟨children', hbegun, hgathering, hreset⟩ := hq.gathering hc hreads
    rw [← next_begun hc hview hq, hbegun] at hnext ⊢
    have hgrown : Grown store.handle c children [] [] (.inter frame children' none
      (some ⟨store.handle, c⟩)) := .gathering hgathering (by rw [hreset, List.append_nil])
    exact hgrown.found hc hc hview hnext
  | wrote call _ hadmits ih => exact ⟨ih.1.after hadmits, ih.2⟩
  | found _ hnext ih =>
    obtain ⟨⟨now, hview', hnow⟩, hgrown⟩ := ih
    exact ⟨⟨now, hview', hnow⟩, hgrown.found hc hnow hview' hnext⟩
  | joined _ hchild ih => exact ⟨ih.1, ih.2.addChild hchild.fresh⟩

end Query

namespace Store

open Query

/-- In a pass that an intersection with a child that reads the store begins now, whatever is written
and whatever children join, steps find results that all children have in the contents committed at its
beginning. Between two joins none is found twice. -/
theorem Reached.pass_growing {store : Store} {disk : Disk} {frame : Frame} {children : List Query}
    {driver : Option Nat} {snapshot : Option Snapshot} (h : store.Reached disk)
    (hq : (Query.inter frame children driver snapshot).Built store.handle)
    (hreads : (Query.inter frame children driver snapshot).handle?.isSome = true) :
    ∃ c, disk.view store.handle = .ok c ∧ ∀ added found disk' q',
      (Query.inter frame children driver snapshot).Growing store disk added found disk' q' →
        found.Nodup ∧ ∃ outcome, (q'.next disk').1 = .ok outcome ∧
          ∀ r ∈ outcome, r ∉ found ∧ ∀ child ∈ children ++ added, child.Denotes c r := by
  obtain ⟨c, hview, hc⟩ := h.sound
  obtain rfl : snapshot = none := hq.held
  obtain rfl : driver = none := by
    have hreset := hq.reset_eq
    unfold Query.reset at hreset
    injection hreset with _ _ hdriver
    exact hdriver.symm
  refine ⟨c, hview, fun added found disk' q' hgrowing => ?_⟩
  obtain ⟨⟨now, hview', hnow⟩, hgrown⟩ := hgrowing.grown hc hview hq.fresh hreads
  refine ⟨hgrown.nodup, ?_⟩
  rcases hgrown.next hc hnow hview' with ⟨q'', hnone⟩ | ⟨r, q'', hsome, -, hfresh, hall⟩
  · rw [hnone]
    exact ⟨_, rfl, by rintro _ ⟨⟩⟩
  · rw [hsome]
    refine ⟨_, rfl, ?_⟩
    rintro _ ⟨⟩
    exact ⟨hfresh, fun child hchild => (member_iff hc).1 (hall child hchild)⟩

theorem pass_growing_first_quad : ∃ (store : Store) (disk : Disk),
    Store.create {} "db" {} = .ok (store, disk) ∧
      let now := store.after disk (.add {} ⟨"alice", "follows", "bob", ""⟩)
      let q := Query.both [.quads store.handle 0]
      let grown := (q.next now).2.addChild (.quadsAt store.handle 0 .subject ⟨1⟩)
      ∃ c, now.view store.handle = .ok c ∧ ∃ outcome, (grown.next now).1 = .ok outcome ∧
        ∀ r ∈ outcome, (Query.quads store.handle 0).Denotes c r ∧
          (Query.quadsAt store.handle 0 .subject ⟨1⟩).Denotes c r := by
  have hcreate : Store.create {} "db" {} = .ok (_, _) := rfl
  refine ⟨_, _, hcreate, ?_⟩
  intro now q grown
  have hreached : Store.Reached _ now := .wrote _ (.created hcreate) (admitsOne_created hcreate)
  obtain ⟨c, hview, hgrows⟩ :=
    hreached.pass_growing (.both (List.forall_mem_singleton.2 (.quads 0))) rfl
  have hfirst : (q.next now).1 = .ok (some (.quad ⟨⟨1⟩, ⟨2⟩, ⟨3⟩, ⟨0⟩⟩)) := by decide +kernel
  obtain ⟨-, outcome, houtcome, hresults⟩ :=
    hgrows _ _ _ _ (.joined (.first hfirst) (.quadsAt 0 .subject ⟨1⟩))
  refine ⟨c, hview, outcome, houtcome, fun r hr => ?_⟩
  obtain ⟨-, hall⟩ := hresults r hr
  exact ⟨hall _ List.mem_cons_self, hall _ (List.mem_cons_of_mem _ List.mem_cons_self)⟩

/-- A child that joins makes a pass choose its driver anew, which starts from its own place: once the
first of two quads was found, a list of this quad joins, and the next step finds the same quad. -/
theorem repeats_grown : ∃ (store : Store) (disk : Disk),
    Store.create {} "db" {} = .ok (store, disk) ∧
      let now := store.after (store.after disk (.add {} ⟨"alice", "follows", "bob", ""⟩))
        (.add {} ⟨"alice", "follows", "carol", ""⟩)
      let q := Query.both [.quads store.handle store.pageSize]
      let r := Ref.quad ⟨⟨1⟩, ⟨2⟩, ⟨3⟩, ⟨0⟩⟩
      let grown := (q.next now).2.addChild (.ofList [r])
      store.Reached now ∧ q.Built store.handle ∧ (q.next now).1 = .ok (some r) ∧
        (Query.ofList [r]).Built store.handle ∧ (grown.next now).1 = .ok (some r) := by
  have hcreate : Store.create {} "db" {} = .ok (_, _) := rfl
  refine ⟨_, _, hcreate, ?_⟩
  intro now q r grown
  refine ⟨.wrote _ (.wrote _ (.created hcreate) (admitsOne_created hcreate))
    (admitsOne_of_hasRoom (by decide +kernel)), .both (List.forall_mem_singleton.2 (.quads _)),
    by decide +kernel, .ofList _, by decide +kernel⟩

end Store

end GraphStore
