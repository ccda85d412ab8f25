import GraphStore.Proofs.Intersection
import GraphStore.Proofs.Run

/-!
# Passes

* `Query.Fresh` : a tree whose pass has not begun;
* `Query.Pass` : asking for results until there are no more;
* `Query.pass_upcoming` : a pass that has begun yields what is upcoming;
* `Query.mem_upcoming`, `Query.upcoming_nodup` : at the beginning that is the meaning of the tree,
  each result once;
* `Query.Fresh.pass` : a pass yields just what the tree means.
-/

namespace GraphStore

variable {disk : Disk} {handle : Handle} {now c : Contents} {s : Snapshot} {r : Ref}

/-! ## The first step -/

theorem Frame.running {frame : Frame} (h : frame.phase = .unstarted) :
    frame.isExhausted = false := by
  unfold isExhausted
  rw [h]
  rfl

/-- A cursor that has not begun takes the snapshot that it could as well be given. -/
theorem Cursor.next_setSnapshot {cursor : Cursor} (htake : disk.take handle = .ok s)
    (hstart : cursor.AtStart) (hover : cursor.Over (· = none) handle) :
    (cursor.setSnapshot (some s)).next disk = cursor.next disk := by
  obtain ⟨hbuffer, hresume, hexhausted⟩ := hstart
  have hview : cursor.view disk none = .ok s := by
    unfold view
    rw [hover.snapshot, hover.handle_eq]
    exact htake
  have hview' : (cursor.setSnapshot (some s)).view disk none = .ok s := rfl
  unfold next
  rw [hview, hview']
  unfold setSnapshot
  simp only [hbuffer, hexhausted]

namespace Query

variable {q q' : Query} {results : List Ref} {last : Query}

/-- A tree whose pass has not begun. -/
structure Fresh (handle : Handle) (q : Query) : Prop where
  atStart : AtStart q
  wellFormed : q.WellFormed
  idle : Over (· = none) handle q

/-- The tree with the snapshot that its first step takes. A tree of listed values takes none. -/
def begun (s : Snapshot) (q : Query) : Query :=
  if q.handle?.isSome then q.setSnapshot (some s) else q

theorem bare_begun (s : Snapshot) (q : Query) : (q.begun s).bare = q.bare := by
  unfold begun
  split
  · exact bare_setSnapshot _ q
  · rfl

theorem reset_begun (s : Snapshot) (q : Query) : (q.begun s).reset = q.reset :=
  reset_of_bare (bare_begun s q)

theorem WellFormed.begun (h : q.WellFormed) (s : Snapshot) : (q.begun s).WellFormed :=
  .of_bare (bare_begun s q ▸ h.bare)

theorem Over.begun {P : Option Snapshot → Prop} (h : Over P handle q) (c : Contents) :
    Over (Keeps handle c) handle (q.begun ⟨handle, c⟩) := by
  unfold Query.begun
  split
  · exact h.setSnapshot rfl
  · next hhandle =>
    rw [Option.not_isSome_iff_eq_none] at hhandle
    exact over_of_handle?_eq_none hhandle

theorem Fresh.begun (h : Fresh handle q) (c : Contents) :
    AtStart (q.begun ⟨handle, c⟩) ∧ (q.begun ⟨handle, c⟩).WellFormed ∧
      Over (Keeps handle c) handle (q.begun ⟨handle, c⟩) :=
  ⟨.of_bare (bare_begun _ q ▸ h.atStart.bare), h.wellFormed.begun _, h.idle.begun c⟩

theorem nextWithin_begun_links {frame : Frame} {pageSize : Nat} {direction : Direction}
    {primary : Query} (htake : disk.take handle = .ok s) (hphase : frame.phase = .unstarted) (n : Nat) :
    nextWithin disk n ((Query.links frame handle pageSize direction primary none none).begun s) =
      nextWithin disk n (.links frame handle pageSize direction primary none none) := by
  cases n with
  | zero => rfl
  | succ n =>
    change advance disk _ (.links frame handle pageSize direction (primary.setSnapshot (some s))
      none (some s)) = advance disk _ _
    unfold advance
    simp only [Frame.running hphase, htake]
    rfl

theorem nextWithin_begun_inter {P : Option Snapshot → Prop} {frame : Frame} {children : List Query}
    {driver : Option Nat} (htake : disk.take handle = .ok s) (hphase : frame.phase = .unstarted)
    (hover : Over P handle (.inter frame children driver none)) (n : Nat) :
    nextWithin disk n ((Query.inter frame children driver none).begun s) =
      nextWithin disk n (.inter frame children driver none) := by
  cases n with
  | zero => rfl
  | succ n =>
    unfold begun
    split
    · next hhandle =>
      have hfirst : firstHandle? children = some handle := by
        rcases hover.handle? with hnone | hsome
        · rw [hnone] at hhandle
          cases hhandle
        · exact hsome
      have hne : children.isEmpty = false := by
        cases children with
        | nil => cases hfirst
        | cons => rfl
      have hne' : (setSnapshotAll (some s) children).isEmpty = false := by
        rw [setSnapshotAll_eq, List.isEmpty_map, hne]
      change advance disk _ (.inter frame (setSnapshotAll (some s) children) driver
        (some s)) = advance disk _ _
      unfold advance
      simp only [Frame.running hphase, hne, hne', hfirst, htake]
      rfl
    · rfl

/-- The first step is one from the tree that was given its snapshot. -/
theorem nextWithin_begun (htake : disk.take handle = .ok s) (h : Fresh handle q) (n : Nat) :
    nextWithin disk n (q.begun s) = nextWithin disk n q := by
  obtain ⟨hstart, -, hover⟩ := h
  cases hstart with
  | @all frame category cursor hphase hcursor =>
    cases hover with
    | all hcursorOver =>
      cases n with
      | zero => rfl
      | succ n =>
        have hnext := Cursor.next_setSnapshot htake hcursor hcursorOver
        change advance disk _ (.all frame category (cursor.setSnapshot (some s))) = advance disk _ _
        rw [advance, advance, hnext, Frame.running hphase, if_neg (by decide), if_neg (by decide)]
  | fixed => rfl
  | @position scan hphase hcursor =>
    cases hover with
    | position hcursorOver =>
      cases n with
      | zero => rfl
      | succ n =>
        have hnext : (scan.setSnapshot (some s)).next disk = scan.next disk := by
          unfold Scan.next Scan.setSnapshot
          simp only
          rw [Cursor.next_setSnapshot htake hcursor hcursorOver, Frame.running hphase,
            if_neg (by decide), if_neg (by decide)]
        change advance disk _ (.position (scan.setSnapshot (some s))) = advance disk _ _
        rw [advance, advance, hnext]
  | links hphase =>
    cases hover with
    | links hsnapshot =>
      subst hsnapshot
      exact nextWithin_begun_links htake hphase n
  | @inter frame children driver snapshot hphase =>
    by_cases hreads : firstHandle? children = none
    · unfold begun
      rw [if_neg (by rw [handle?, hreads]; exact Bool.false_ne_true)]
    · cases hover with
      | inter hchildren hsnapshot =>
        obtain rfl := hsnapshot hreads
        exact nextWithin_begun_inter htake hphase (.inter hchildren hsnapshot) n

/-! ## Passes -/

/-- The bounds that a tree computes in its pass are those of the contents that it keeps. -/
theorem bounds_of_keeps (hc : c.Sound) (hkeeps : Over (Keeps handle c) handle q)
    (hwf : q.WellFormed) :
    q.supply disk none = q.supplyIn c ∧ q.turns disk none = q.turnsIn c :=
  bounds_eq hc hkeeps.sees hwf (.inl rfl)

/-- Before its pass they are those of the last committed contents. -/
theorem Fresh.bounds (hc : c.Sound) (hview : disk.view handle = .ok c) (h : Fresh handle q) :
    q.supply disk none = q.supplyIn c ∧ q.turns disk none = q.turnsIn c :=
  bounds_eq hc (h.idle.sees_taken (Disk.take_of_view hview)) h.wellFormed (.inl rfl)

/-- A step of a tree that keeps its snapshot has turns enough. -/
theorem next_within (hc : c.Sound) (hnow : disk.view handle = .ok now)
    (hkeeps : Over (Keeps handle c) handle q) (hwf : q.WellFormed) :
    ∃ n, nextWithin disk n q = some (q.next disk) ∧ Stepped handle now c q (q.next disk) := by
  obtain ⟨out, hout, hstepped⟩ := nextWithin_spec hc hnow (q.turnsIn c) q hkeeps hwf (Nat.le_refl _)
  refine ⟨q.turnsIn c, ?_⟩
  unfold next
  rw [(bounds_of_keeps hc hkeeps hwf).2, hout]
  exact ⟨rfl, hstepped⟩

theorem next_spec (hc : c.Sound) (hnow : disk.view handle = .ok now)
    (hkeeps : Over (Keeps handle c) handle q) (hwf : q.WellFormed) :
    Stepped handle now c q (q.next disk) := by
  obtain ⟨_, -, hstepped⟩ := next_within hc hnow hkeeps hwf
  exact hstepped

/-- A tree whose turns are those of one that keeps its snapshot steps as that one does. -/
theorem next_eq_of_turns (hc : c.Sound) (hnow : disk.view handle = .ok now)
    (hkeeps : Over (Keeps handle c) handle q) (hwf : q.WellFormed)
    (hturns : q'.turns disk none = q.turns disk none)
    (hsteps : ∀ n, nextWithin disk n q' = nextWithin disk n q) : q'.next disk = q.next disk := by
  obtain ⟨out, hout, -⟩ := nextWithin_spec hc hnow _ q hkeeps hwf (Nat.le_refl _)
  rw [← (bounds_of_keeps hc hkeeps hwf).2] at hout
  unfold next
  rw [hturns, hsteps, hout]
  rfl

theorem bounds_begun (c : Contents) (s : Snapshot) (q : Query) :
    (q.begun s).supplyIn c = q.supplyIn c ∧ (q.begun s).turnsIn c = q.turnsIn c := by
  rw [← (bounds_bare c (q.begun s)).1, ← (bounds_bare c (q.begun s)).2, bare_begun]
  exact bounds_bare c q

theorem next_begun (hc : c.Sound) (hview : disk.view handle = .ok c) (h : Fresh handle q) :
    (q.begun ⟨handle, c⟩).next disk = q.next disk := by
  obtain ⟨-, hwf, hkeeps⟩ := h.begun c
  have hturns : q.turns disk none = (q.begun ⟨handle, c⟩).turns disk none := by
    rw [(h.bounds hc hview).2, (bounds_of_keeps hc hkeeps hwf).2, (bounds_begun c _ q).2]
  exact (next_eq_of_turns hc hview hkeeps hwf hturns
    fun n => (nextWithin_begun (Disk.take_of_view hview) h n).symm).symm

/-- Asking for results until there are no more. -/
inductive Pass (disk : Disk) : Query → List Ref → Query → Prop
  | ended {q last : Query} : q.next disk = (.ok none, last) → Pass disk q [] last
  | found {q q' last : Query} {r : Ref} {results : List Ref} :
      q.next disk = (.ok (some r), q') → Pass disk q' results last → Pass disk q (r :: results) last

theorem Pass.congr (h : Pass disk q results last) (hnext : q'.next disk = q.next disk) :
    Pass disk q' results last := by
  cases h with
  | ended h => exact .ended (hnext.trans h)
  | found h hrest => exact .found (hnext.trans h) hrest

/-- A pass yields what is upcoming. -/
theorem pass_upcoming (hc : c.Sound) (hnow : disk.view handle = .ok now)
    (hkeeps : Over (Keeps handle c) handle q) (hwf : q.WellFormed) :
    ∃ last, Pass disk q (q.upcoming now c) last := by
  induction hlist : q.upcoming now c generalizing q with
  | nil =>
    have hstepped := next_spec hc hnow hkeeps hwf
    generalize hnext : q.next disk = out at hstepped
    cases hstepped with
    | found h =>
      have hcons := h.upcoming
      rw [hlist] at hcons
      cases hcons
    | ended => exact ⟨_, .ended hnext⟩
  | cons r tail ih =>
    have hstepped := next_spec hc hnow hkeeps hwf
    generalize hnext : q.next disk = out at hstepped
    cases hstepped with
    | found h =>
      have hcons := h.upcoming
      rw [hlist] at hcons
      cases hcons
      obtain ⟨last, hpass⟩ := ih h.keeps h.wellFormed rfl
      exact ⟨last, .found hnext hpass⟩
    | ended h =>
      have hnil := h.upcoming
      rw [hlist] at hnil
      cases hnil

/-! ## What comes -/

theorem forall_iff_others {children : List Query} {d : Nat} {child : Query} {p : Query → Prop}
    (h : children[d]? = some child) :
    (∀ q ∈ children, p q) ↔ p child ∧ ∀ q ∈ others (some d) children, p q := by
  obtain ⟨hd, rfl⟩ := List.getElem?_eq_some_iff.1 h
  have hperm : children.Perm (children[d] :: others (some d) children) :=
    (List.getElem_cons_eraseIdx_perm hd).symm
  rw [← List.forall_mem_cons]
  exact forall_congr' fun q => imp_congr_left hperm.mem_iff

theorem mem_rest_ofCategory (hc : c.Sound) (category : Category) :
    r ∈ (Source.ofCategory category).rest c none ↔
      r.category = category ∧ c.isLiveRef r = true := by
  cases category with
  | nodes =>
    refine (Source.mem_rest_nodes hc).trans ⟨?_, fun h => ?_⟩
    · rintro ⟨id, hid, rfl⟩
      exact ⟨rfl, hid⟩
    · cases r with
      | node id => exact ⟨id, h.2, rfl⟩
      | quad key => cases h.1
  | quads =>
    refine (Source.mem_rest_quads hc).trans ⟨?_, fun h => ?_⟩
    · rintro ⟨key, hkey, rfl⟩
      exact ⟨rfl, hkey⟩
    · cases r with
      | node id => cases h.1
      | quad key => exact ⟨key, h.2, rfl⟩

theorem mem_flatMap_linkedTo (hc : c.Sound) {direction : Direction} {results : List Ref} :
    r ∈ results.flatMap (linkedTo c direction) ↔
      ∃ key, c.isLive key = true ∧ .node (key.get direction) ∈ results ∧ r = .quad key := by
  rw [List.mem_flatMap]
  constructor
  · rintro ⟨p, hp, hr⟩
    cases p with
    | node id =>
      obtain ⟨key, hlive, rfl, rfl⟩ := (mem_linkedTo hc).1 hr
      exact ⟨key, hlive, hp, rfl⟩
    | quad key => cases hr
  · rintro ⟨key, hlive, hp, rfl⟩
    exact ⟨_, hp, (mem_linkedTo hc).2 ⟨key, hlive, rfl, rfl⟩⟩

/-- An intersection with children has a driver, or will choose one. -/
theorem exists_driver (now c : Contents) {children : List Query} {driver : Option Nat}
    (hne : children ≠ []) (hdriver : ∀ d ∈ driver, d < children.length) :
    ∃ child, children[driver.getD (driverIn now c children)]? = some child := by
  refine ⟨_, List.getElem?_eq_getElem ?_⟩
  cases driver with
  | none => exact driverIn_lt hne
  | some d => exact hdriver d rfl

/-- At the beginning of a pass the meaning of the tree is upcoming. -/
theorem mem_upcoming (hc : c.Sound) (hwf : q.WellFormed) (hstart : AtStart q) :
    r ∈ q.upcoming now c ↔ q.member c r = true := by
  induction q using induct generalizing r with
  | all frame category cursor =>
    cases hstart with
    | all hphase hcursor =>
    cases hwf with
    | all hsource =>
      unfold upcoming member
      rw [Frame.running hphase, if_neg (by decide), hcursor.upcoming, hsource,
        mem_rest_ofCategory hc, Bool.and_eq_true, decide_eq_true_eq]
  | fixed frame values index =>
    cases hstart with
    | fixed hphase =>
      unfold upcoming member
      rw [Frame.running hphase, if_neg (by decide), List.drop_zero, List.contains_iff_mem]
  | position scan =>
    cases hstart with
    | position hphase hcursor =>
    cases hwf with
    | position hscan =>
      unfold upcoming member Scan.upcoming
      rw [Frame.running hphase, if_neg (by decide), hcursor.upcoming, hscan.source,
        Source.mem_rest_entries hc hscan.length_stem]
      cases r with
      | node id => simp [Ref.asQuad?]
      | quad key => simp [Ref.asQuad?, hscan.stem_eq_iff, and_comm]
  | links frame handle pageSize direction primary inner snapshot ih =>
    cases hstart with
    | links hphase hprimary =>
    cases hwf with
    | links hprimaryWf _ =>
      unfold upcoming member
      rw [Frame.running hphase, if_neg (by decide), Option.map_none, Option.getD_none,
        List.nil_append, mem_flatMap_linkedTo hc]
      cases r with
      | node id =>
        refine ⟨?_, by rintro ⟨⟩⟩
        rintro ⟨_, _, _, ⟨⟩⟩
      | quad key =>
        change _ ↔ (c.isLive key && primary.member c (.node (key.get direction))) = true
        rw [Bool.and_eq_true, ← ih hprimaryWf hprimary]
        constructor
        · rintro ⟨_, hlive, hp, ⟨⟩⟩
          exact ⟨hlive, hp⟩
        · rintro ⟨hlive, hp⟩
          exact ⟨key, hlive, hp, rfl⟩
  | inter frame children driver snapshot ih =>
    cases hstart with
    | inter hphase hchildren =>
    cases hwf with
    | inter hwfs hdriver =>
      by_cases hne : children = []
      · subst hne
        unfold upcoming
        rw [Frame.running hphase, if_neg (by decide)]
        constructor <;> rintro ⟨⟩
      · obtain ⟨child, hchild⟩ := exists_driver now c hne hdriver
        have hmem := List.mem_of_getElem? hchild
        conv_rhs => unfold member
        unfold upcoming
        rw [Frame.running hphase, if_neg (by decide), memberAll_eq, Bool.and_eq_true,
          List.all_eq_true, forall_iff_others hchild, Bool.not_eq_true',
          List.isEmpty_eq_false_iff]
        simp only [upcomingAll_eq, List.getElem?_map, hchild, Option.map_some, Option.getD_some,
          List.mem_filter, List.all_eq_true, ih child hmem (hwfs child hmem) (hchildren child hmem)]
        exact ⟨fun h => ⟨hne, h⟩, And.right⟩

theorem linkedTo_nodup (direction : Direction) (p : Ref) : (linkedTo c direction p).Nodup := by
  cases p with
  | node id => exact Source.rest_nodup _ c
  | quad key => exact List.nodup_nil

theorem nodup_flatMap_linkedTo (hc : c.Sound) {direction : Direction} {results : List Ref}
    (h : results.Nodup) : (results.flatMap (linkedTo c direction)).Nodup := by
  rw [List.nodup_flatMap]
  refine ⟨fun p _ => linkedTo_nodup direction p, h.imp ?_⟩
  -- A quad tells the node that it is linked to.
  intro p p' hne r hr hr'
  cases p with
  | quad key => cases hr
  | node id =>
    cases p' with
    | quad key => cases hr'
    | node id' =>
      obtain ⟨key, -, rfl, rfl⟩ := (mem_linkedTo hc).1 hr
      obtain ⟨key', -, rfl, hkey⟩ := (mem_linkedTo hc).1 hr'
      cases hkey
      exact hne rfl

/-- No result comes twice. -/
theorem upcoming_nodup (hc : c.Sound) (hwf : q.WellFormed) (hstart : AtStart q) :
    (q.upcoming now c).Nodup := by
  induction q using induct with
  | all frame category cursor =>
    cases hstart with
    | all hphase hcursor =>
      unfold upcoming
      rw [Frame.running hphase, if_neg (by decide), hcursor.upcoming]
      exact Source.rest_nodup _ c
  | fixed frame values index =>
    cases hstart with
    | fixed hphase =>
    cases hwf with
    | fixed hnodup =>
      unfold upcoming
      rw [Frame.running hphase, if_neg (by decide), List.drop_zero]
      exact hnodup
  | position scan =>
    cases hstart with
    | position hphase hcursor =>
      unfold upcoming Scan.upcoming
      rw [Frame.running hphase, if_neg (by decide), hcursor.upcoming]
      exact Source.rest_nodup _ c
  | links frame handle pageSize direction primary inner snapshot ih =>
    cases hstart with
    | links hphase hprimary =>
    cases hwf with
    | links hprimaryWf _ =>
      unfold upcoming
      rw [Frame.running hphase, if_neg (by decide), Option.map_none, Option.getD_none,
        List.nil_append]
      exact nodup_flatMap_linkedTo hc (ih hprimaryWf hprimary)
  | inter frame children driver snapshot ih =>
    cases hstart with
    | inter hphase hchildren =>
    cases hwf with
    | inter hwfs _ =>
      unfold upcoming
      rw [Frame.running hphase, if_neg (by decide), upcomingAll_eq]
      simp only [List.getElem?_map]
      cases hchild : children[driver.getD (driverIn now c children)]? with
      | none => exact List.nodup_nil
      | some child =>
        have hmem := List.mem_of_getElem? hchild
        exact (ih child hmem (hwfs child hmem) (hchildren child hmem)).filter _

/-- A pass over a fresh tree yields what is upcoming once it has its snapshot, which is just what the
tree means. -/
theorem Fresh.pass_begun (hc : c.Sound) (hview : disk.view handle = .ok c) (h : Fresh handle q) :
    (∃ last, Pass disk q ((q.begun ⟨handle, c⟩).upcoming c c) last) ∧
      ((q.begun ⟨handle, c⟩).upcoming c c).Nodup ∧
        ∀ r, r ∈ (q.begun ⟨handle, c⟩).upcoming c c ↔ Denotes c q r := by
  obtain ⟨hstart, hwf, hkeeps⟩ := h.begun c
  obtain ⟨last, hpass⟩ := pass_upcoming hc hview hkeeps hwf
  refine ⟨⟨last, hpass.congr (next_begun hc hview h).symm⟩, upcoming_nodup hc hwf hstart,
    fun r => ?_⟩
  rw [mem_upcoming hc hwf hstart, member_of_bare (bare_begun _ _), member_iff hc]

theorem Fresh.pass (hc : c.Sound) (hview : disk.view handle = .ok c) (h : Fresh handle q) :
    ∃ results last, Pass disk q results last ∧ results.Nodup ∧
      ∀ r, r ∈ results ↔ Denotes c q r := by
  obtain ⟨⟨last, hpass⟩, hresults⟩ := h.pass_begun hc hview
  exact ⟨_, last, hpass, hresults⟩

end Query

end GraphStore
