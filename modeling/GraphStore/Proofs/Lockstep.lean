import GraphStore.Proofs.Misses

/-!
# Trees in step

* `Query.Matches.probe`, `Query.Matches.next` : matching trees answer and step in the same way, and match
  afterwards;
* `Query.Together` : the same use of two trees, along which they keep matching
  (`Query.Together.matches`);
* `Query.SameBut` : what can be observed of matching trees;
* `Store.Reached.after_miss` : a tree that says no to a result does from then on what it would have done
  anyway, but for the names of parts that were asked before the one that said no;
* `Store.bound_despite_miss` : such a part binds its name to what it was asked for.
-/

namespace GraphStore

namespace Query

variable {disk : Disk} {handle : Handle} {imposed s : Option Snapshot} {q q' : Query}
  {qs qs' : List Query} {r : Ref} {names : List String}

/-! ## Answers -/

theorem probeAll_matches (disk : Disk) (imposed : Option Snapshot) (r : Ref) (skip : Option Nat)
    (h : List.Forall₂ (fun q q' => Matches names q q' ∧
      (q'.probe disk imposed r).1 = (q.probe disk imposed r).1 ∧
        Matches names (q.probe disk imposed r).2 (q'.probe disk imposed r).2) qs qs') :
    (probeAll disk imposed r skip qs').1 = (probeAll disk imposed r skip qs).1 ∧
      List.Forall₂ (Matches names) (probeAll disk imposed r skip qs).2
        (probeAll disk imposed r skip qs').2 := by
  induction h generalizing skip with
  | nil => exact ⟨rfl, .nil⟩
  | @cons q q' rest rest' hhead htail ih =>
    obtain ⟨hsame, hanswer, hasked⟩ := hhead
    have hrest : List.Forall₂ (Matches names) rest rest' := htail.imp fun _ _ h => h.1
    unfold probeAll
    split
    · exact ⟨(ih _).1, .cons hsame (ih _).2⟩
    · generalize q.probe disk imposed r = out at hanswer hasked ⊢
      generalize q'.probe disk imposed r = out' at hanswer hasked ⊢
      obtain ⟨answer, q₁⟩ := out
      obtain ⟨answer', q₁'⟩ := out'
      obtain rfl : answer' = answer := hanswer
      rcases answer' with error | _ | _
      · exact ⟨rfl, .cons hasked hrest⟩
      · exact ⟨rfl, .cons hasked hrest⟩
      · exact ⟨(ih _).1, .cons hasked (ih _).2⟩

/-! ### Listed values only -/

section Unread

variable {frame : Frame} {children : List Query} {driver : Option Nat} {snapshot : Option Snapshot}

theorem matches_setSnapshot_unread (h : q.handle? = none) (names : List String)
    (snapshot : Option Snapshot) : Matches names q (q.setSnapshot snapshot) :=
  Over.matches_setSnapshot (over_of_handle?_eq_none h : Over (· = snapshot) default q) names

theorem handle?_probe_unread (h : q.handle? = none) : (q.probe disk imposed r).2.handle? = none := by
  have hover : Over (· = none) default q := over_of_handle?_eq_none h
  rw [(hover.matches_probe disk imposed r (List.Subset.refl _)).handle?, h]

theorem firstHandle?_probeAll (disk : Disk) (imposed : Option Snapshot) (r : Ref) (skip : Option Nat)
    (h : firstHandle? qs = none) :
    firstHandle? (probeAll disk imposed r skip qs).2 = none := by
  rw [firstHandle?_eq_none_iff] at h ⊢
  induction qs generalizing skip with
  | nil => exact nofun
  | cons q rest ih =>
    obtain ⟨hq, hrest⟩ := List.forall_mem_cons.1 h
    have hasked : (q.probe disk imposed r).2.handle? = none := handle?_probe_unread hq
    unfold probeAll
    split
    · exact List.forall_mem_cons.2 ⟨hq, ih _ hrest⟩
    · rcases hprobe : q.probe disk imposed r with ⟨error | _ | _, q'⟩ <;> rw [hprobe] at hasked
      · exact List.forall_mem_cons.2 ⟨hasked, hrest⟩
      · exact List.forall_mem_cons.2 ⟨hasked, hrest⟩
      · exact List.forall_mem_cons.2 ⟨hasked, ih _ hrest⟩

/-- To the answers of an intersection of listed values only it does not matter what snapshot it keeps. -/
theorem probe_unread (hne : children ≠ []) (hfirst : firstHandle? children = none)
    (names : List String) :
    ((Query.inter frame children driver snapshot).probe disk imposed r).1 =
        (probeAll disk imposed r none children).1 ∧
      Matches names (.inter (answered frame r (probeAll disk imposed r none children).1)
          (probeAll disk imposed r none children).2 driver snapshot)
        ((Query.inter frame children driver snapshot).probe disk imposed r).2 := by
  rw [Ne, ← List.isEmpty_iff] at hne
  unfold Query.probe
  rw [if_neg hne]
  split
  · exact ⟨rfl, .refl names _⟩
  · next hunseen =>
    rw [Option.not_isSome_iff_eq_none, Option.or_eq_none_iff] at hunseen
    rw [hunseen.1, hfirst]
    have hunread : (Query.inter (answered frame r (probeAll disk none r none children).1)
        (probeAll disk none r none children).2 driver snapshot).handle? = none :=
      firstHandle?_probeAll disk none r none hfirst
    exact ⟨rfl, matches_setSnapshot_unread hunread names none⟩

end Unread

/-- Matching trees answer in the same way. -/
theorem Matches.probe (h : Matches names q q') (disk : Disk) (imposed : Option Snapshot) (r : Ref) :
    (q'.probe disk imposed r).1 = (q.probe disk imposed r).1 ∧
      Matches names (q.probe disk imposed r).2 (q'.probe disk imposed r).2 := by
  induction h using Matches.induct generalizing imposed r with
  | all h =>
    unfold Query.probe
    split
    · split
      · exact ⟨rfl, .all h⟩
      · exact ⟨rfl, .all (h.answer r _)⟩
    · exact ⟨rfl, .all h⟩
  | fixed h => exact ⟨rfl, .fixed (h.answer r _)⟩
  | @position frame frame' index bound cursor h =>
    have hfits (key : QuadKey) :
        Scan.fits ⟨frame', index, bound, cursor⟩ key = Scan.fits ⟨frame, index, bound, cursor⟩ key := rfl
    unfold Query.probe Scan.contains
    cases r with
    | node => exact ⟨rfl, .position h⟩
    | quad key =>
      simp only [hfits]
      cases Scan.fits ⟨frame, index, bound, cursor⟩ key with
      | false => exact ⟨rfl, .position h⟩
      | true =>
        simp only [if_pos]
        cases cursor.contents disk imposed with
        | error error => exact ⟨rfl, .position h⟩
        | ok c => exact ⟨rfl, .position (h.answer (.quad key) _)⟩
  | @links frame frame' handle pageSize direction primary primary' inner snapshot h hprimary ih =>
    unfold Query.probe
    cases r.asQuad? with
    | none => exact ⟨rfl, .links h hprimary⟩
    | some key =>
      cases imposed.or snapshot with
      | some s =>
        simp only
        split
        · obtain ⟨hanswer, hasked⟩ := ih imposed (.node (key.get direction))
          exact ⟨hanswer, .links (h.answered r hanswer) hasked⟩
        · exact ⟨rfl, .links h hprimary⟩
      | none =>
        cases disk.take handle with
        | error => exact ⟨rfl, .links h hprimary⟩
        | ok s =>
          simp only
          split
          · obtain ⟨hanswer, hasked⟩ := ih (some s) (.node (key.get direction))
            exact ⟨hanswer, .links (h.answered r hanswer) (hasked.setSnapshot none)⟩
          · exact ⟨rfl, .links h (hprimary.setSnapshot none)⟩
  | @inter frame frame' children children' driver snapshot snapshot' h hchildren hsnapshot ih =>
    have hasked (imposed : Option Snapshot) := probeAll_matches disk imposed r none
      (ih.imp fun _ _ h => ⟨h.1, h.2 imposed r⟩)
    have hempty : children'.isEmpty = children.isEmpty := by cases hchildren <;> rfl
    cases hne : children.isEmpty with
    | true =>
      unfold Query.probe
      rw [hempty, hne]
      exact ⟨rfl, .inter h hchildren hsnapshot⟩
    | false =>
      cases hfirst : firstHandle? children with
      | none =>
        have hfirst' : firstHandle? children' = none := (firstHandle?_matches hchildren).trans hfirst
        have hne' := hempty.trans hne
        rw [List.isEmpty_eq_false_iff] at hne hne'
        obtain ⟨hanswer, hall⟩ := hasked imposed
        obtain ⟨hleft, hleft'⟩ := probe_unread hne hfirst names
        obtain ⟨hright, hright'⟩ := probe_unread hne' hfirst' names
        refine ⟨hright.trans (hanswer.trans hleft.symm), hleft'.symm.trans (.trans ?_ hright')⟩
        exact .inter (h.answered r hanswer) hall fun hsome =>
          absurd (firstHandle?_probeAll disk imposed r none hfirst) hsome
      | some handle =>
        obtain rfl := hsnapshot (by rw [hfirst]; nofun)
        unfold Query.probe
        rw [hempty, hne, firstHandle?_matches hchildren]
        simp only [Bool.false_eq_true, if_false]
        split
        · obtain ⟨hanswer, hall⟩ := hasked imposed
          exact ⟨hanswer, .inter (h.answered r hanswer) hall fun _ => rfl⟩
        · cases (firstHandle? children).mapM disk.take with
          | error error => exact ⟨rfl, .inter h hchildren fun _ => rfl⟩
          | ok taken =>
            obtain ⟨hanswer, hall⟩ := hasked taken
            exact ⟨hanswer,
              .inter (h.answered r hanswer) (setSnapshotAll_matches hall none) fun _ => rfl⟩

/-! ## Steps -/

/-- Trees with the given frames come to the same outcome and match afterwards. Trees with the same frame
keep it so, and one that reads no store still reads none. -/
inductive InStep (names : List String) (frame frame' : Frame) (handle? : Option Handle) :
    Outcome × Query → Outcome × Query → Prop
  | intro {outcome : Outcome} {q q' : Query} : Matches names q q' →
      (frame' = frame → q'.frame = q.frame) → (handle? = none → q.handle? = none) →
        InStep names frame frame' handle? (outcome, q) (outcome, q')

/-- What takes steps takes the same ones for matching trees. -/
def KeepsStep (names : List String) (next : Query → Option (Outcome × Query)) : Prop :=
  ∀ q q', Matches names q q' → Option.Rel (InStep names q.frame q'.frame q.handle?) (next q) (next q')

/-- What reads no store may have come from what reads one. -/
theorem InStep.of_unread {frame frame' : Frame} {handle? handle?' : Option Handle}
    {out out' : Option (Outcome × Query)}
    (h : Option.Rel (InStep names frame frame' handle?') out out')
    (hunread : handle? = none → handle?' = none) :
    Option.Rel (InStep names frame frame' handle?) out out' := by
  cases h with
  | none => exact .none
  | some h =>
    cases h with
    | intro hmatches hframe hstays =>
      exact .some (.intro hmatches hframe fun hnone => hstays (hunread hnone))

section Turns

variable {next : Query → Option (Outcome × Query)} {frame frame' : Frame} {pageSize : Nat}
  {direction : Direction} {primary primary' : Query} {inner : Option Scan}
  {children children' : List Query} {snapshot snapshot' : Option Snapshot}

theorem advanceLinks_matches (hnext : KeepsStep names next) (hframe : frame.Matches names frame')
    (hprimary : Matches names primary primary') (s : Snapshot) :
    Option.Rel (InStep names frame frame' (some handle))
      (advanceLinks disk next frame handle pageSize direction primary inner s)
      (advanceLinks disk next frame' handle pageSize direction primary' inner s) := by
  unfold advanceLinks
  cases inner with
  | some scan =>
    simp only
    rcases scan.next disk with ⟨error | _ | r, scan'⟩
    · exact .some (.intro (.links hframe hprimary) id nofun)
    · exact hnext _ _ (.links hframe hprimary)
    · exact .some (.intro (.links (hframe.advance r) hprimary) (congrArg (Frame.advance · r)) nofun)
  | none =>
    have hstep := hnext primary primary' hprimary
    generalize next primary = out at hstep ⊢
    generalize next primary' = out' at hstep ⊢
    cases hstep with
    | none => exact .none
    | some hstep =>
      cases hstep with
      | @intro outcome _ _ hprimary₁ =>
        simp only [Option.bind_eq_bind, Option.bind_some]
        rcases outcome with error | _ | _ | _
        · exact .some (.intro (.links hframe hprimary₁) id nofun)
        · exact .some (.intro (.links hframe.exhaust (hprimary₁.setSnapshot none))
            (congrArg Frame.exhaust) nofun)
        · exact hnext _ _ (.links hframe hprimary₁)
        · exact hnext _ _ (.links hframe hprimary₁)

theorem advanceDriver_matches (disk : Disk) (d : Nat) (hnext : KeepsStep names next)
    (hframe : frame.Matches names frame')
    (hchildren : List.Forall₂ (Matches names) children children')
    (hsnapshot : firstHandle? children ≠ none → snapshot' = snapshot) :
    Option.Rel (InStep names frame frame' (firstHandle? children))
      (advanceDriver disk next frame children d snapshot)
      (advanceDriver disk next frame' children' d snapshot') := by
  unfold advanceDriver
  have hchild := forall₂_getElem? hchildren d
  cases hget : children[d]? with
  | none =>
    rw [hget] at hchild
    generalize children'[d]? = child' at hchild ⊢
    cases hchild with
    | none => exact .none
  | some child =>
    rw [hget] at hchild
    generalize children'[d]? = child' at hchild ⊢
    cases hchild with
    | some hchild =>
      have hstep := hnext _ _ hchild
      simp only [Option.map_some, Option.bind_eq_bind]
      generalize next child = out at hstep ⊢
      generalize next _ = out' at hstep ⊢
      cases hstep with
      | none => exact .none
      | some hstep =>
        cases hstep with
        | @intro outcome child₁ child₁' hchild₁ _ hunread =>
          have hset := forall₂_set hchildren hchild₁ d
          have hfirst : firstHandle? children = none → firstHandle? (children.set d child₁) = none := by
            intro hnone
            rw [firstHandle?_eq_none_iff] at hnone ⊢
            exact forall_set hnone (hunread (hnone child (List.mem_of_getElem? hget)))
          simp only [Option.bind_some]
          rcases outcome with error | _ | r
          · exact .some (.intro (.inter hframe hset fun hne => hsnapshot (mt hfirst hne)) id hfirst)
          · refine .some (.intro (.inter hframe.exhaust (setSnapshotAll_matches hset none) fun _ => rfl)
              (congrArg Frame.exhaust) fun hnone => ?_)
            exact (handle?_setSnapshot none (.inter frame (children.set d child₁) none none)).trans
              (hfirst hnone)
          · have hasked := probeAll_matches disk none r (some d)
              (hset.imp fun _ _ h => ⟨h, h.probe disk none r⟩)
            have hstays (hnone : firstHandle? children = none) :=
              firstHandle?_probeAll disk none r (some d) (hfirst hnone)
            dsimp only
            generalize probeAll disk none r (some d) (children.set d child₁) = out at hasked hstays ⊢
            generalize probeAll disk none r (some d) (children'.set d child₁') = out' at hasked ⊢
            obtain ⟨answer, children₂⟩ := out
            obtain ⟨answer', children₂'⟩ := out'
            obtain ⟨rfl : answer' = answer, hall⟩ := hasked
            have hsnapshot₂ (hne : firstHandle? children₂ ≠ none) : snapshot' = snapshot :=
              hsnapshot (mt hstays hne)
            rcases answer' with error | _ | _
            · exact .some (.intro (.inter hframe hall hsnapshot₂) id hstays)
            · exact InStep.of_unread (hnext _ _ (.inter hframe hall hsnapshot₂)) hstays
            · exact .some (.intro (.inter (hframe.advance r) hall hsnapshot₂)
                (congrArg (Frame.advance · r)) hstays)

theorem advanceInter_matches (disk : Disk) (driver : Option Nat) (hnext : KeepsStep names next)
    (hframe : frame.Matches names frame')
    (hchildren : List.Forall₂ (Matches names) children children')
    (hsnapshot : firstHandle? children ≠ none → snapshot' = snapshot) :
    Option.Rel (InStep names frame frame' (firstHandle? children))
      (advanceInter disk next frame children driver snapshot)
      (advanceInter disk next frame' children' driver snapshot') := by
  unfold advanceInter
  cases driver with
  | some d => exact advanceDriver_matches disk d hnext hframe hchildren hsnapshot
  | none =>
    rw [chooseDriver_matches hchildren]
    cases chooseDriver disk children with
    | error error => exact .some (.intro (.inter hframe hchildren hsnapshot) id id)
    | ok d => exact advanceDriver_matches disk d hnext hframe hchildren hsnapshot

theorem advance_matches (hnext : KeepsStep names next) : KeepsStep names (advance disk next) := by
  intro q q' h
  cases h with
  | @all frame frame' category cursor hframe =>
    unfold advance
    simp only [hframe.isExhausted]
    split
    · exact .some (.intro (.all hframe) id nofun)
    · exact .some (.intro (.all (hframe.after _)) (congrArg (Frame.after · _)) nofun)
  | @fixed frame frame' values index hframe =>
    unfold advance
    simp only [hframe.isExhausted]
    split
    · exact .some (.intro (.fixed hframe) id id)
    · cases values[index]? with
      | none => exact .some (.intro (.fixed hframe.exhaust) (congrArg Frame.exhaust) id)
      | some r => exact .some (.intro (.fixed (hframe.advance r)) (congrArg (Frame.advance · r)) id)
  | @position frame frame' index bound cursor hframe =>
    unfold advance Scan.next
    simp only [hframe.isExhausted]
    split
    · exact .some (.intro (.position hframe) id nofun)
    · rcases cursor.next disk with ⟨outcome, cursor'⟩
      exact .some (.intro (.position (hframe.after outcome)) (congrArg (Frame.after · outcome)) nofun)
  | @links frame frame' handle pageSize direction primary primary' inner snapshot hframe hprimary =>
    unfold advance
    simp only [hframe.isExhausted]
    split
    · exact .some (.intro (.links hframe hprimary) id nofun)
    · cases snapshot with
      | some s => exact advanceLinks_matches hnext hframe hprimary s
      | none =>
        simp only
        cases disk.take handle with
        | error error => exact .some (.intro (.links hframe hprimary) id nofun)
        | ok s => exact advanceLinks_matches hnext hframe (hprimary.setSnapshot (some s)) s
  | @inter frame frame' children children' driver snapshot snapshot' hframe hchildren hsnapshot =>
    have hempty : children'.isEmpty = children.isEmpty := by cases hchildren <;> rfl
    unfold advance
    simp only [hframe.isExhausted, hempty, firstHandle?_matches hchildren]
    split
    · exact .some (.intro (.inter hframe hchildren hsnapshot) id id)
    · split
      · exact .some (.intro (.inter hframe.exhaust hchildren hsnapshot) (congrArg Frame.exhaust) id)
      · cases hfirst : firstHandle? children with
        | none =>
          have hinter := advanceInter_matches disk driver hnext hframe hchildren hsnapshot
          cases snapshot <;> cases snapshot' <;> exact hinter
        | some handle =>
          obtain rfl := hsnapshot (by rw [hfirst]; nofun)
          cases snapshot' with
          | some s => exact advanceInter_matches disk driver hnext hframe hchildren fun _ => rfl
          | none =>
            simp only
            cases disk.take handle with
            | error error => exact .some (.intro (.inter hframe hchildren fun _ => rfl) id id)
            | ok s =>
              have hall := setSnapshotAll_matches hchildren (some s)
              exact InStep.of_unread (advanceInter_matches disk driver hnext hframe hall fun _ => rfl)
                fun hnone => nomatch hfirst.symm.trans hnone

theorem nextWithin_matches (names : List String) (disk : Disk) (n : Nat) :
    KeepsStep names (nextWithin disk n) := by
  induction n with
  | zero => exact fun _ _ _ => .none
  | succ n ih => exact advance_matches ih

end Turns

/-- Matching trees step in the same way. -/
theorem Matches.next (h : Matches names q q') (disk : Disk) :
    (q'.next disk).1 = (q.next disk).1 ∧ Matches names (q.next disk).2 (q'.next disk).2 ∧
      (q'.frame = q.frame → (q'.next disk).2.frame = (q.next disk).2.frame) := by
  have hstep := nextWithin_matches names disk (q.turns disk none) q q' h
  unfold Query.next
  rw [h.turns]
  generalize nextWithin disk (q.turns disk none) q = out at hstep ⊢
  generalize nextWithin disk (q.turns disk none) q' = out' at hstep ⊢
  cases hstep with
  | none => exact ⟨rfl, h, id⟩
  | some hstep =>
    cases hstep with
    | intro hmatches hframe => exact ⟨rfl, hmatches, hframe⟩

/-! ## The same use of two trees -/

section Together

variable {store : Store} {disk₁ disk₂ : Disk} {q₀ q₁ q₁' q₂ q₂' : Query}

/-- `q₂` and `q₂'` are `q₁` and `q₁'` after the same use of both; meanwhile the store was written to. -/
inductive Together (store : Store) (disk₁ : Disk) (q₁ q₁' : Query) : Disk → Query → Query → Prop
  | start : Together store disk₁ q₁ q₁' disk₁ q₁ q₁'
  | wrote {disk₂ : Disk} {q₂ q₂' : Query} (call : Store.WriteCall) :
      Together store disk₁ q₁ q₁' disk₂ q₂ q₂' → store.Admits disk₂ call →
        Together store disk₁ q₁ q₁' (store.after disk₂ call) q₂ q₂'
  | next {disk₂ : Disk} {q₂ q₂' : Query} : Together store disk₁ q₁ q₁' disk₂ q₂ q₂' →
      Together store disk₁ q₁ q₁' disk₂ (q₂.next disk₂).2 (q₂'.next disk₂).2
  | contains {disk₂ : Disk} {q₂ q₂' : Query} (r : Ref) : Together store disk₁ q₁ q₁' disk₂ q₂ q₂' →
      Together store disk₁ q₁ q₁' disk₂ (q₂.contains disk₂ r).2 (q₂'.contains disk₂ r).2
  | reset {disk₂ : Disk} {q₂ q₂' : Query} : Together store disk₁ q₁ q₁' disk₂ q₂ q₂' →
      Together store disk₁ q₁ q₁' disk₂ q₂.reset q₂'.reset

theorem Together.used (h : Together store disk₁ q₁ q₁' disk₂ q₂ q₂')
    (hq : q₀.Used store disk disk₁ q₁) (hq' : q₀.Used store disk disk₁ q₁') :
    q₀.Used store disk disk₂ q₂ ∧ q₀.Used store disk disk₂ q₂' := by
  induction h with
  | start => exact ⟨hq, hq'⟩
  | wrote call _ hadmits ih => exact ⟨ih.1.wrote call hadmits, ih.2.wrote call hadmits⟩
  | next _ ih => exact ⟨ih.1.next, ih.2.next⟩
  | contains r _ ih => exact ⟨ih.1.contains r, ih.2.contains r⟩
  | reset _ ih => exact ⟨ih.1.reset, ih.2.reset⟩

theorem Together.matches (h : Together store disk₁ q₁ q₁' disk₂ q₂ q₂') (hq : Matches names q₁ q₁')
    (hframe : q₁'.frame = q₁.frame) : Matches names q₂ q₂' ∧ q₂'.frame = q₂.frame := by
  induction h with
  | start => exact ⟨hq, hframe⟩
  | wrote _ _ _ ih => exact ih
  | @next disk₂ q₂ q₂' _ ih =>
    obtain ⟨-, hmatches, hframe⟩ := ih.1.next disk₂
    exact ⟨hmatches, hframe ih.2⟩
  | @contains disk₂ q₂ q₂' r _ ih =>
    obtain ⟨hanswer, hasked⟩ := ih.1.probe disk₂ none r
    refine ⟨hasked, ?_⟩
    unfold Query.contains
    rw [frame_probe, frame_probe, hanswer, ih.2]
  | reset _ ih =>
    rw [ih.1.reset_eq]
    exact ⟨.refl names _, rfl⟩

/-- `q'` does what `q` does, but for what it binds the given names to. -/
structure SameBut (names : List String) (q q' : Query) : Prop where
  frame : q'.frame = q.frame
  bind : ∀ name ∉ names, ∀ b : Bindings, (q'.bind b).get? name = (q.bind b).get? name
  next : ∀ disk, (q'.next disk).1 = (q.next disk).1
  contains : ∀ disk r, (q'.contains disk r).1 = (q.contains disk r).1
  size : ∀ disk, q'.size disk = q.size disk

theorem Matches.sameBut (h : Matches names q q') (hframe : q'.frame = q.frame) :
    SameBut names q q' where
  frame := hframe
  bind _ hname b := h.bindSame hname b b rfl
  next disk := (h.next disk).1
  contains disk r := (h.probe disk none r).1
  size := h.size

/-! ## After a miss -/

/-- What a miss changes: `q₁` is `q` after any use, is then asked for something that is no result of it, and
`q₁'` is what that leaves. -/
structure Missed (store : Store) (q : Query) (disk₁ : Disk) (q₁ q₁' : Query) : Prop where
  /-- From then on the tree does what it would have done anyway, but for what it binds the names of parts
  to that were asked before the one that said no. -/
  later : ∀ disk₂ q₂ q₂', Together store disk₁ q₁ q₁' disk₂ q₂ q₂' → SameBut q.passingNames q₂ q₂'
  /-- Once it has found another result, this concerns the names of linked nodes only. -/
  found : ∀ disk₂ q₂ q₂', Together store disk₁ q₁ q₁' disk₂ q₂ q₂' →
    ∀ r, (q₂.next disk₂).1 = .ok (some r) → ∀ disk₃ q₃ q₃',
      Together store disk₂ (q₂.next disk₂).2 (q₂'.next disk₂).2 disk₃ q₃ q₃' →
        SameBut (q.passingNames ∩ q.linkedNames) q₃ q₃'
  /-- Once its pass has ended, this concerns the names only that are left of the pass. -/
  ended : ∀ disk₂ q₂ q₂', Together store disk₁ q₁ q₁' disk₂ q₂ q₂' → q₂.phase ≠ .exhausted →
    (q₂.next disk₂).1 = .ok none → ∀ disk₃ q₃ q₃',
      Together store disk₂ (q₂.next disk₂).2 (q₂'.next disk₂).2 disk₃ q₃ q₃' →
        SameBut (q.passingNames ∩ (q₂.next disk₂).2.leftNames) q₃ q₃'
  /-- Once it has started over, there is no difference. -/
  reset : q₁'.reset = q₁.reset
  /-- There is none at all where no intersection has several children. -/
  unbranched : q.Unbranched → q.passingNames = []

theorem Tracked.over {c : Contents} (h : Tracked handle c q) : ∃ s, Over (· = s) handle q := by
  cases h with
  | fresh h => exact ⟨none, h.idle⟩
  | running h _ => exact ⟨some ⟨handle, c⟩, h⟩
  | ended _ h _ => exact ⟨none, h⟩

/-- A miss changes results of passing parts only. -/
theorem Over.matches_missed (h : Over (· = s) handle q) (hmiss : (q.contains disk r).1 = .ok false) :
    Matches q.passingNames q (q.contains disk r).2 ∧ (q.contains disk r).2.frame = q.frame := by
  constructor
  · refine h.matches_probe disk none r ?_
    change q.touchedNames (q.contains disk r).1 ⊆ q.passingNames
    rw [hmiss]
    exact List.Subset.refl _
  · refine (frame_probe disk none r q).trans ?_
    change answered q.frame r (q.contains disk r).1 = q.frame
    rw [hmiss]
    rfl

/-- When both find a result, trees that match do so but for names of linked nodes. -/
theorem Matches.found (h : Matches names q₂ q₂') (hnext : (q₂.next disk₂).1 = .ok (some r)) :
    Matches (names ∩ (q₂.next disk₂).2.linkedNames) (q₂.next disk₂).2 (q₂'.next disk₂).2 := by
  obtain ⟨houtcome, hstep, -⟩ := h.next disk₂
  have hcurrent : Current r (q₂.next disk₂).2 := next_current (Prod.ext hnext rfl)
  have hcurrent' : Current r (q₂'.next disk₂).2 := next_current (Prod.ext (houtcome.trans hnext) rfl)
  exact hstep.current hcurrent hcurrent' (List.Subset.refl _)

/-- When both are at the end of a pass, they match but for names that are left of it. -/
theorem Matches.ended (h : Matches names q₂ q₂') (hframe : q₂'.frame = q₂.frame)
    (hused : q.Used store disk disk₂ q₂ ∧ q.Used store disk disk₂ q₂') (hdisk : store.SoundOn disk)
    (hq : Fresh store.handle q) (hreset : q.reset = q) (hphase : q₂.phase ≠ .exhausted)
    (hnext : (q₂.next disk₂).1 = .ok none) :
    Matches (names ∩ (q₂.next disk₂).2.leftNames) (q₂.next disk₂).2 (q₂'.next disk₂).2 := by
  obtain ⟨houtcome, hstep, -⟩ := h.next disk₂
  have hphase' : q₂'.phase ≠ .exhausted := by
    unfold Query.phase
    rwa [hframe]
  have hspent := hused.1.spent hdisk hq hreset hphase hnext
  have hspent' := hused.2.spent hdisk hq hreset hphase' (houtcome.trans hnext)
  exact hstep.spent hspent hspent' (List.Subset.refl _)

theorem Used.missed (h : q.Used store disk disk₁ q₁) (hdisk : store.SoundOn disk)
    (hq : Fresh store.handle q) (hreset : q.reset = q) (hmiss : (q₁.contains disk₁ r).1 = .ok false) :
    Missed store q disk₁ q₁ (q₁.contains disk₁ r).2 := by
  obtain ⟨-, ⟨c, -, hstage⟩, hreset₁⟩ := h.stage_of_fresh hdisk hq hreset
  obtain ⟨s, hover⟩ := hstage.tracked.over
  obtain ⟨hmatches, hframe⟩ := hover.matches_missed hmiss
  rw [← passingNames_reset, hreset₁] at hmatches
  refine ⟨fun disk₂ q₂ q₂' htogether => ?_, fun disk₂ q₂ q₂' htogether r' hfound disk₃ q₃ q₃' hmore => ?_,
    fun disk₂ q₂ q₂' htogether hphase hended disk₃ q₃ q₃' hmore => ?_, hmatches.reset_eq,
    Unbranched.passingNames_eq⟩
  all_goals obtain ⟨hmatches₂, hframe₂⟩ := htogether.matches hmatches hframe
  · exact hmatches₂.sameBut hframe₂
  · -- What matches just after the step, but for fewer names, does so from then on.
    obtain ⟨hused, -⟩ := htogether.used h (h.contains r)
    obtain ⟨-, -, hreset₂⟩ := hused.next.stage_of_fresh hdisk hq hreset
    have hstep := hmatches₂.found hfound
    rw [← linkedNames_reset, hreset₂] at hstep
    obtain ⟨hmatches₃, hframe₃⟩ := hmore.matches hstep ((hmatches₂.next disk₂).2.2 hframe₂)
    exact hmatches₃.sameBut hframe₃
  · have hused := htogether.used h (h.contains r)
    have hstep := hmatches₂.ended hframe₂ hused hdisk hq hreset hphase hended
    obtain ⟨hmatches₃, hframe₃⟩ := hmore.matches hstep ((hmatches₂.next disk₂).2.2 hframe₂)
    exact hmatches₃.sameBut hframe₃

end Together

end Query

namespace Store

/-- When a tree that was put together says that it has not a given result, it is left as it was but for
the results of parts that were asked before the one that said no. -/
theorem Reached.after_miss {store : Store} {disk disk' : Disk} {q q' : Query} {r : Ref}
    (h : store.Reached disk) (hq : q.Composed store.handle) (hused : q.Used store disk disk' q')
    (hmiss : (q'.contains disk' r).1 = .ok false) :
    Query.Missed store q disk' q' (q'.contains disk' r).2 :=
  hused.missed h.sound hq.fresh.1 hq.fresh.2 hmiss

/-- In the middle of a pass all nodes have the node that is asked for, and the list has not. -/
theorem after_miss_first_quad : ∃ (store : Store) (disk : Disk),
    Store.create {} "db" {} = .ok (store, disk) ∧
      let now := store.after disk (.add {} ⟨"alice", "follows", "bob", ""⟩)
      let q := Query.both
        [(Query.nodes store.handle 0).mapTags (·.add "x"), (Query.ofList [.node ⟨3⟩]).mapTags (·.add "y")]
      let midway := (q.next now).2
      midway.phase = .iterating ∧ (midway.contains now (.node ⟨1⟩)).1 = .ok false ∧
        q.passingNames = ["x"] ∧ q.linkedNames = [] ∧
          Query.Missed store q now midway (midway.contains now (.node ⟨1⟩)).2 := by
  have hcreate : Store.create {} "db" {} = .ok (_, _) := rfl
  refine ⟨_, _, hcreate, ?_⟩
  intro now q midway
  have hreached : Store.Reached _ now := .wrote _ (.created hcreate) (admitsOne_created hcreate)
  have hq : q.Composed _ := .built (.both (List.forall_mem_cons.2
    ⟨.mapTags _ (.nodes 0), List.forall_mem_singleton.2 (.mapTags _ (.ofList _))⟩))
  have hmiss : (midway.contains now (.node ⟨1⟩)).1 = .ok false := by decide +kernel
  exact ⟨by decide +kernel, hmiss, rfl, rfl, hreached.after_miss hq (.next .start) hmiss⟩

/-- A list that has the node which is asked for binds its name to it, though another list has it not and
the answer is no. -/
theorem bound_despite_miss : ∃ (store : Store) (disk : Disk),
    Store.create {} "db" {} = .ok (store, disk) ∧
      let now := store.after disk (.add {} ⟨"alice", "follows", "bob", ""⟩)
      let q := Query.both [(Query.ofList [.node ⟨1⟩]).mapTags (·.add "x"), .ofList [.node ⟨3⟩]]
      let asked := q.contains now (.node ⟨1⟩)
      store.Reached now ∧ q.Composed store.handle ∧ asked.1 = .ok false ∧ asked.2.result = none ∧
        (q.bind ∅).get? "x" = none ∧ (asked.2.bind ∅).get? "x" = some (.node ⟨1⟩) := by
  have hcreate : Store.create {} "db" {} = .ok (_, _) := rfl
  refine ⟨_, _, hcreate, ?_⟩
  intro now q asked
  refine ⟨.wrote _ (.created hcreate) (admitsOne_created hcreate), .built (.both (List.forall_mem_cons.2
    ⟨.mapTags _ (.ofList _), List.forall_mem_singleton.2 (.ofList _)⟩)), ?_⟩
  decide +kernel

end Store

end GraphStore
