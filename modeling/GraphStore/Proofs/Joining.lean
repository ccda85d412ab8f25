import GraphStore.Proofs.Membership
import GraphStore.Proofs.Optimize

/-!
# Children that read contents of their own

A child that joins an intersection in the middle of its pass takes its own snapshot, at its own first
step, and so reads other contents than the children that were there.

* `Query.Joined` : where such a child is;
* `Query.probeAll_joined` : each child answers by the contents that it reads;
* `Query.chooseDriver_joined`, `Query.Joined.readied` : any of them can become the driver;
* `Query.advanceDriver_draws` : what a driver finds and all others have;
* `Query.common_of_has` : one child that reads the contents of the pass makes this a result in them.
-/

namespace GraphStore

variable {disk : Disk} {handle : Handle} {now c c' : Contents} {r : Ref}

namespace Query

variable {q q' q'' : Query} {n d : Nat} {frame : Frame} {child child' : Query}
  {children children' : List Query} {driver : Option Nat} {snapshot : Option Snapshot}

/-! ## One tree in two contents -/

/-- What a tree means depends on the contents through what is live only. -/
theorem member_of_isLiveRef (hc : c.Sound) (hc' : c'.Sound)
    (hlive : c'.isLiveRef r = true → c.isLiveRef r = true) (h : q.member c' r = true) :
    q.member c r = true := by
  induction q using induct generalizing r with
  | all frame category cursor =>
    unfold member at h ⊢
    rw [Bool.and_eq_true] at h ⊢
    exact ⟨h.1, hlive h.2⟩
  | fixed => exact h
  | position scan =>
    cases r with
    | node id => exact h
    | quad key =>
      change (scan.fits key && c'.isLive key) = true at h
      change (scan.fits key && c.isLive key) = true
      rw [Bool.and_eq_true] at h ⊢
      exact ⟨h.1, hlive h.2⟩
  | links frame h' pageSize direction primary inner snapshot ih =>
    cases r with
    | node id => exact h
    | quad key =>
      change (c'.isLive key && primary.member c' (.node (key.get direction))) = true at h
      change (c.isLive key && primary.member c (.node (key.get direction))) = true
      rw [Bool.and_eq_true] at h ⊢
      obtain ⟨hkey', hprimary⟩ := h
      have hkey : c.isLive key = true := hlive hkey'
      refine ⟨hkey, ih (fun hnode => ?_) hprimary⟩
      obtain ⟨hblank, -⟩ := hc'.isLiveNode_iff.1 hnode
      exact hc.isLiveNode_iff.2 ⟨hblank, key, hkey, QuadKey.mem_ids.2 ⟨direction, rfl⟩⟩
  | inter frame children driver snapshot ih =>
    obtain ⟨hne, hall⟩ := member_inter_iff.1 h
    exact member_inter_iff.2 ⟨hne, fun q hq => ih q hq hlive (hall q hq)⟩

theorem exists_reads (h : (firstHandle? children).isSome = true) :
    ∃ q ∈ children, q.handle?.isSome = true := by
  rw [firstHandle?_eq, List.findSome?_isSome_iff] at h
  obtain ⟨handle?, hmem, hsome⟩ := h
  obtain ⟨q, hq, rfl⟩ := List.mem_map.1 hmem
  exact ⟨q, hq, hsome⟩

/-- All results of a tree that reads the store are live. -/
theorem yieldsLive_of_reads (h : q.handle?.isSome = true) : q.yieldsLive = true := by
  induction q using induct with
  | all | position | links => rfl
  | fixed => cases h
  | inter frame children driver snapshot ih =>
    obtain ⟨q, hq, hreads⟩ := exists_reads h
    unfold yieldsLive
    rw [anyYieldsLive_eq, List.any_eq_true]
    exact ⟨q, hq, ih q hq hreads⟩

theorem Over.exists_snapshot {P P' : Option Snapshot → Prop} (h : Over P handle q)
    (h' : Over P' handle q) (hreads : q.handle?.isSome = true) : ∃ s, P s ∧ P' s := by
  cases h with
  | all h =>
    cases h' with
    | all h' => exact ⟨_, h.snapshot, h'.snapshot⟩
  | fixed => cases hreads
  | position h =>
    cases h' with
    | position h' => exact ⟨_, h.snapshot, h'.snapshot⟩
  | links hs =>
    cases h' with
    | links hs' => exact ⟨_, hs, hs'⟩
  | inter _ hs =>
    have hne := Option.isSome_iff_ne_none.1 hreads
    cases h' with
    | inter _ hs' => exact ⟨_, hs hne, hs' hne⟩

/-! ## Children with contents of their own -/

/-- `q'` is `q` up to results, and keeps the snapshots that `q` keeps. -/
structure Alike (handle : Handle) (q q' : Query) : Prop where
  bare : q'.bare = q.bare
  stays : ∀ P, Over P handle q → Over P handle q'

theorem Asked.alike {found : Bool} (h : Asked handle r found q q') : Alike handle q q' :=
  ⟨h.bare, h.stays⟩

theorem Alike.refl (q : Query) : Alike handle q q := ⟨rfl, fun _ h => h⟩

theorem Alike.trans (h : Alike handle q q') (h' : Alike handle q' q'') : Alike handle q q'' :=
  ⟨h'.bare.trans h.bare, fun P hP => h'.stays P (h.stays P hP)⟩

theorem Alike.reads (h : Alike handle q q') (hreads : q.handle?.isSome = true) :
    q'.handle?.isSome = true := by
  rwa [← handle?_reset, reset_of_bare h.bare, handle?_reset]

theorem Alike.fresh (h : Alike handle q q') (hq : Fresh handle q) : Fresh handle q' :=
  ⟨.of_bare (h.bare ▸ hq.atStart.bare), .of_bare (h.bare ▸ hq.wellFormed.bare), h.stays _ hq.idle⟩

/-- A tree in the middle of a pass over given contents, or at its beginning with its snapshot: what is
upcoming are results in these contents, each once. -/
structure Reading (handle : Handle) (c : Contents) (q : Query) : Prop where
  sound : c.Sound
  keeps : Over (Keeps handle c) handle q
  wellFormed : q.WellFormed
  ready : q.Ready
  nodup : ∀ now, (q.upcoming now c).Nodup
  means : ∀ now, ∀ r ∈ q.upcoming now c, q.member c r = true

theorem Reading.of_atStart (hc : c.Sound) (hkeeps : Over (Keeps handle c) handle q)
    (hwf : q.WellFormed) (hstart : AtStart q) : Reading handle c q where
  sound := hc
  keeps := hkeeps
  wellFormed := hwf
  ready := .inl hstart
  nodup _ := upcoming_nodup hc hwf hstart
  means _ _ := (mem_upcoming hc hwf hstart).1

theorem Fresh.reading (h : Fresh handle q) (hc : c.Sound) :
    Reading handle c (q.begun ⟨handle, c⟩) := by
  obtain ⟨hstart, hwf, hkeeps⟩ := h.begun c
  exact .of_atStart hc hkeeps hwf hstart

theorem Reading.alike (h : Reading handle c q) (halike : Alike handle q q') :
    Reading handle c q' := by
  have hkeeps := halike.stays _ h.keeps
  have hwf : q'.WellFormed := .of_bare (halike.bare ▸ h.wellFormed.bare)
  rcases h.ready with hstart | hunderway
  · exact .of_atStart h.sound hkeeps hwf (.of_bare (halike.bare ▸ hstart.bare))
  · have hunderway' : Underway q' := .of_bare (halike.bare ▸ hunderway.bare)
    have hupcoming (now : Contents) : q'.upcoming now c = q.upcoming now c :=
      hunderway.upcoming_eq hunderway' halike.bare now now c
    refine ⟨h.sound, hkeeps, hwf, .inr hunderway', fun now => hupcoming now ▸ h.nodup now,
      fun now r hr => ?_⟩
    rw [member_of_bare halike.bare]
    exact h.means now r (hupcoming now ▸ hr)

theorem Reading.found (h : Reading handle c q) (hn : nextWithin disk n q = some (.ok (some r), q'))
    (hfound : Found handle now c q r q') :
    Reading handle c q' ∧ Underway q' ∧ q.member c r = true := by
  cases nextWithin_left disk n _ _ hn with
  | found _ hready =>
    have hunderway := hready h.ready
    have hupcoming (now' : Contents) : q.upcoming now c = r :: q'.upcoming now' c := by
      rw [hfound.upcoming, hunderway.upcoming_eq hunderway rfl now now' c]
    refine ⟨⟨h.sound, hfound.keeps, hfound.wellFormed, .inr hunderway, fun now' => ?_,
      fun now' p hp => ?_⟩, hunderway, ?_⟩
    · have hnodup := h.nodup now
      rw [hupcoming now'] at hnodup
      exact hnodup.of_cons
    · rw [member_of_reset hfound.reset]
      exact h.means now p (by rw [hupcoming now']; exact List.mem_cons_of_mem _ hp)
    · exact h.means now r (by rw [hfound.upcoming]; exact List.mem_cons_self)

/-- A child of an intersection that gained some: it has joined and waits for its first step, or it
reads contents of its own, those committed at that step. -/
inductive Joined (handle : Handle) (q : Query) : Prop
  | waiting : Fresh handle q → Joined handle q
  | reading {c : Contents} : Reading handle c q → Joined handle q

theorem Joined.alike (h : Joined handle q) (halike : Alike handle q q') : Joined handle q' := by
  cases h with
  | waiting h => exact .waiting (halike.fresh h)
  | reading h => exact .reading (h.alike halike)

/-- The contents that a child reads, now or because it keeps a snapshot of them. -/
theorem Joined.sees (h : Joined handle q) (hnow : now.Sound) (hview : disk.view handle = .ok now) :
    ∃ c, c.Sound ∧ Over (Sees disk handle c) handle q := by
  cases h with
  | waiting h =>
    exact ⟨now, hnow, h.idle.sees_taken (Disk.take_of_view hview)⟩
  | reading h => exact ⟨_, h.sound, h.keeps.sees⟩

/-- A tree has a result in contents that it reads. -/
def Has (disk : Disk) (handle : Handle) (q : Query) (r : Ref) : Prop :=
  ∃ c, c.Sound ∧ Over (Sees disk handle c) handle q ∧ q.member c r = true

theorem Has.alike (h : Has disk handle q r) (halike : Alike handle q q') : Has disk handle q' r := by
  obtain ⟨c, hc, hsees, hmember⟩ := h
  exact ⟨c, hc, halike.stays _ hsees, (member_of_bare halike.bare).trans hmember⟩

theorem Reading.has (h : Reading handle c q) (hmember : q.member c r = true) :
    Has disk handle q r :=
  ⟨c, h.sound, h.keeps.sees, hmember⟩

/-- Children that read contents of their own answer each by these. -/
theorem probeAll_joined (hnow : now.Sound) (hview : disk.view handle = .ok now) {qs : List Query}
    (h : ∀ q ∈ qs, Joined handle q) (r : Ref) (skip : Option Nat) :
    ∃ answer qs', probeAll disk none r skip qs = (.ok answer, qs') ∧
      List.Forall₂ (Alike handle) qs qs' ∧
      (answer = true → ∀ q ∈ others skip qs, Has disk handle q r) := by
  induction qs generalizing skip with
  | nil =>
    refine ⟨true, [], rfl, .nil, fun _ => ?_⟩
    cases skip <;> exact nofun
  | cons q rest ih =>
    obtain ⟨hq, hrest⟩ := List.forall_mem_cons.1 h
    by_cases hskip : skip = some 0
    · subst hskip
      obtain ⟨answer, rest', hanswer, halike, hhas⟩ := ih hrest none
      refine ⟨answer, q :: rest', ?_, .cons (.refl q) halike, hhas⟩
      unfold probeAll
      rw [if_pos rfl, hanswer]
    · obtain ⟨c, hc, hsees⟩ := hq.sees hnow hview
      obtain ⟨q', hq', hasked⟩ := probe_spec hc hsees (.inl rfl) r
      rw [others_cons hskip]
      cases hmember : q.member c r with
      | false =>
        rw [hmember] at hq'
        refine ⟨false, q' :: rest, ?_, .cons hasked.alike ?_,
          fun htrue => absurd htrue Bool.false_ne_true⟩
        · unfold probeAll
          rw [if_neg hskip, hq']
        · exact List.forall₂_same.2 fun q _ => .refl q
      | true =>
        rw [hmember] at hq'
        obtain ⟨answer, rest', hanswer, halike, hhas⟩ := ih hrest (skip.map (· - 1))
        refine ⟨answer, q' :: rest', ?_, .cons hasked.alike halike, fun htrue => ?_⟩
        · unfold probeAll
          rw [if_neg hskip, hq']
          simp only
          rw [hanswer]
        · exact List.forall_mem_cons.2 ⟨⟨c, hc, hsees, hmember⟩, hhas htrue⟩

/-! ### Children up to results -/

theorem forall_alike {p : Query → Prop} (h : List.Forall₂ (Alike handle) children children')
    (hp : ∀ q q', Alike handle q q' → p q → p q') (hall : ∀ q ∈ children, p q) :
    ∀ q ∈ children', p q := by
  induction h with
  | nil => exact nofun
  | cons halike _ ih =>
    obtain ⟨hq, hrest⟩ := List.forall_mem_cons.1 hall
    exact List.forall_mem_cons.2 ⟨hp _ _ halike hq, ih hrest⟩

theorem exists_alike {p : Query → Prop} (h : List.Forall₂ (Alike handle) children children')
    (hp : ∀ q q', Alike handle q q' → p q → p q') (hex : ∃ q ∈ children, p q) :
    ∃ q ∈ children', p q := by
  induction h with
  | nil => exact hex
  | cons halike _ ih =>
    obtain ⟨q, hq, hpq⟩ := hex
    rcases List.mem_cons.1 hq with rfl | hq
    · exact ⟨_, List.mem_cons_self, hp _ _ halike hpq⟩
    · obtain ⟨q', hq', hpq'⟩ := ih ⟨q, hq, hpq⟩
      exact ⟨q', List.mem_cons_of_mem _ hq', hpq'⟩

section Lists

variable {α : Type} {R S T : α → α → Prop} {l l' l'' : List α}

theorem map_eq_of_forall₂ {β : Type} {f : α → β} (h : List.Forall₂ (fun a a' => f a' = f a) l l') :
    l'.map f = l.map f := by
  induction h with
  | nil => rfl
  | cons hhead _ ih => rw [List.map_cons, List.map_cons, hhead, ih]

theorem forall₂_set {a a' : α} (h : List.Forall₂ R l l') (ha : R a a') (i : Nat) :
    List.Forall₂ R (l.set i a) (l'.set i a') := by
  induction h generalizing i with
  | nil => exact .nil
  | cons hhead htail ih =>
    cases i with
    | zero => exact .cons ha htail
    | succ i => exact .cons hhead (ih i)

theorem forall₂_comp (h : List.Forall₂ (fun a a' => ∀ a'', S a' a'' → T a a'') l l')
    (h' : List.Forall₂ S l' l'') : List.Forall₂ T l l'' := by
  induction h generalizing l'' with
  | nil =>
    cases h' with
    | nil => exact .nil
  | cons hhead _ ih =>
    cases h' with
    | cons hhead' htail' => exact .cons (hhead _ hhead') (ih htail')

end Lists

/-! ## What all children have -/

/-- One child that reads the contents of the pass makes all results live in them, so that what all
children have, each in its own contents, all have in these. -/
theorem common_of_has (hc : c.Sound) (hhas : ∀ q ∈ children, Has disk handle q r)
    (hanchored : ∃ q ∈ children, q.handle?.isSome = true ∧ Over (Keeps handle c) handle q) :
    Common c children r := by
  obtain ⟨anchor, hanchor, hreads, hkeeps⟩ := hanchored
  obtain ⟨c', -, hsees, hmember⟩ := hhas anchor hanchor
  obtain rfl : c' = c := by
    obtain ⟨s, hs, hs'⟩ := hkeeps.exists_snapshot hsees hreads
    rcases hs' with hs' | ⟨hs', -⟩
    · rw [hs'] at hs
      exact congrArg Snapshot.contents (Option.some.inj hs)
    · rw [hs'] at hs
      cases hs
  have hlive := isLiveRef_of_member (yieldsLive_of_reads hreads) hmember
  refine ⟨List.ne_nil_of_mem hanchor, fun q hq => ?_⟩
  obtain ⟨c'', hc'', -, hmember''⟩ := hhas q hq
  exact member_of_isLiveRef hc hc'' (fun _ => hlive) hmember''

/-! ## The driver -/

theorem sizes_joined (hnow : now.Sound) (hview : disk.view handle = .ok now) {qs : List Query}
    (h : ∀ q ∈ qs, Joined handle q) :
    ∃ hints, sizes disk qs = .ok hints ∧ hints.length = qs.length := by
  induction qs with
  | nil => exact ⟨[], rfl, rfl⟩
  | cons q rest ih =>
    obtain ⟨hq, hrest⟩ := List.forall_mem_cons.1 h
    obtain ⟨c, -, hsees⟩ := hq.sees hnow hview
    obtain ⟨hints, hhints, hlength⟩ := ih hrest
    refine ⟨q.sizeIn now c :: hints, ?_, congrArg Nat.succ hlength⟩
    unfold sizes
    rw [size_eq hsees hview, hhints]
    rfl

/-- An intersection can choose a driver whatever its children read. -/
theorem chooseDriver_joined (hnow : now.Sound) (hview : disk.view handle = .ok now)
    (h : ∀ q ∈ children, Joined handle q) (hne : children ≠ []) :
    ∃ d, chooseDriver disk children = .ok d ∧ d < children.length := by
  obtain ⟨hints, hhints, hlength⟩ := sizes_joined hnow hview h
  have hne' : hints ≠ [] := by
    rintro rfl
    exact hne (List.eq_nil_of_length_eq_zero hlength.symm)
  refine ⟨_, ?_, hlength ▸ findIdx_smallest_lt hne'⟩
  unfold chooseDriver
  rw [hhints]
  rfl

theorem bounds_le (disk : Disk) (imposed : Option Snapshot) {qs : List Query} (hq : q ∈ qs) :
    q.turns disk imposed ≤ turnsAll disk imposed qs ∧
      q.supply disk imposed ≤ supplyAll disk imposed qs := by
  rw [turnsAll_eq, supplyAll_eq]
  exact ⟨List.le_sum_of_mem (List.mem_map_of_mem hq), List.le_sum_of_mem (List.mem_map_of_mem hq)⟩

/-- `child₁` is `child` about to drive an intersection: it reads contents of its own, and its steps are
those of `child`. -/
structure Readied (disk : Disk) (handle : Handle) (c : Contents) (child child₁ : Query) : Prop where
  reading : Reading handle c child₁
  reset : child₁.reset = child.reset
  keeps : ∀ c', child.handle?.isSome = true → Over (Keeps handle c') handle child →
    Over (Keeps handle c') handle child₁
  steps : ∀ n, nextWithin disk n child₁ = nextWithin disk n child
  bounds : child₁.supplyIn c = child.supply disk none ∧ child₁.turnsIn c = child.turns disk none

theorem Reading.readied (h : Reading handle c child) (disk : Disk) :
    Readied disk handle c child child where
  reading := h
  reset := rfl
  keeps _ _ hkeeps := hkeeps
  steps _ := rfl
  bounds := by
    obtain ⟨hsupply, hturns⟩ := bounds_of_keeps h.sound h.keeps h.wellFormed
    exact ⟨hsupply.symm, hturns.symm⟩

theorem Fresh.readied (h : Fresh handle child) (hnow : now.Sound)
    (hview : disk.view handle = .ok now) :
    Readied disk handle now child (child.begun ⟨handle, now⟩) where
  reading := h.reading hnow
  reset := reset_begun _ child
  keeps c' hreads hkeeps := by
    obtain ⟨s, hs, hs'⟩ := hkeeps.exists_snapshot h.idle hreads
    rw [hs'] at hs
    cases hs
  steps n := nextWithin_begun (Disk.take_of_view hview) h n
  bounds := by
    obtain ⟨hsupply, hturns⟩ := h.bounds hnow hview
    rw [hsupply, hturns]
    exact bounds_begun now _ child

/-- A child that joined gets ready on contents of its own, with all of what it has there to come. -/
theorem Joined.readied (h : Joined handle child) (hnow : now.Sound)
    (hview : disk.view handle = .ok now) : ∃ c' child₁, Readied disk handle c' child child₁ := by
  cases h with
  | waiting h => exact ⟨now, _, h.readied hnow hview⟩
  | reading h => exact ⟨_, child, h.readied disk⟩

theorem Readied.carries {child₁ : Query} (h : Readied disk handle c' child child₁)
    (hreading : Reading handle c' child') (hreset : child'.reset = child₁.reset)
    (hreads : child.handle?.isSome = true) (hkeeps : Over (Keeps handle c) handle child) :
    child'.handle?.isSome = true ∧ Over (Keeps handle c) handle child' := by
  have hreads₁ : child₁.handle?.isSome = true := by rwa [← handle?_reset, h.reset, handle?_reset]
  obtain ⟨s, hs, hs'⟩ := (h.keeps c hreads hkeeps).exists_snapshot h.reading.keeps hreads₁
  obtain rfl : c = c' := congrArg Snapshot.contents (Option.some.inj (hs.symm.trans hs'))
  refine ⟨?_, hreading.keeps⟩
  rwa [← handle?_reset, hreset, handle?_reset]

/-- A driver that is ready steps as it would have. -/
theorem Readied.advanceDriver_eq {child₁ : Query} (h : Readied disk handle c child child₁)
    (hchild : children[d]? = some child) (n : Nat) :
    advanceDriver disk (nextWithin disk n) frame (children.set d child₁) d snapshot =
      advanceDriver disk (nextWithin disk n) frame children d snapshot := by
  unfold advanceDriver
  rw [List.getElem?_set_self (List.getElem?_eq_some_iff.1 hchild).1, hchild]
  simp only [Option.map_some, h.steps, List.set_set]

/-! ## One step of the driver -/

/-- An intersection that keeps its snapshot steps its driver. -/
theorem advance_held {next : Query → Option (Outcome × Query)} (hrunning : frame.isExhausted = false)
    (hne : children ≠ []) (s : Snapshot) :
    advance disk next (.inter frame children driver (some s)) =
      advanceInter disk next frame children driver (some s) := by
  have hempty : children.isEmpty = false := List.isEmpty_eq_false_iff.2 hne
  unfold advance
  simp only [hrunning, hempty]
  rfl

inductive Draws (disk : Disk) (handle : Handle) (now c : Contents) (children : List Query) (d : Nat)
    (frame : Frame) (child : Query) (snapshot : Option Snapshot) : Outcome × Query → Prop
  | ended {q : Query} : q.phase = .exhausted → Draws disk handle now c children d frame child snapshot
      (.ok none, q)
  | found {r : Ref} {child' : Query} {children' : List Query} :
      List.Forall₂ (Alike handle) (children.set d child') children' →
      children'[d]? = some child' → child'.reset = child.reset → Reading handle c child' →
      Underway child' → (∃ rejected, child.upcoming now c = rejected ++ r :: child'.upcoming now c) →
      (∀ q ∈ children', Has disk handle q r) →
        Draws disk handle now c children d frame child snapshot
          (.ok (some r), .inter (frame.advance r) children' (some d) snapshot)

/-- Drawing goes on from children that were asked for a result of the driver which they do not all
have. -/
theorem Draws.after {out : Outcome × Query} (halike : List.Forall₂ (Alike handle)
      (children.set d child') children') (hreset : child'.reset = child.reset)
    (hupcoming : child.upcoming now c = r :: child'.upcoming now c)
    (h : Draws disk handle now c children' d frame child' snapshot out) :
    Draws disk handle now c children d frame child snapshot out := by
  cases h with
  | ended hphase => exact .ended hphase
  | @found p child'' children'' halike' hafter hreset' hreading hunderway hrest hhas =>
    obtain ⟨rejected, hrest⟩ := hrest
    have halikeSet := forall₂_set halike (.refl child'') d
    rw [List.set_set] at halikeSet
    have hall := forall₂_comp (halikeSet.imp fun _ _ h _ => h.trans) halike'
    exact .found hall hafter (hreset'.trans hreset) hreading hunderway
      ⟨r :: rejected, by rw [hupcoming, hrest]; rfl⟩ hhas

theorem probeAll_found (hnow : now.Sound) (hview : disk.view handle = .ok now)
    (hjoined : ∀ q ∈ children, Joined handle q) (hlt : d < children.length)
    (hreading : Reading handle c child') (hmember : child'.member c r = true) :
    ∃ answer children',
      probeAll disk none r (some d) (children.set d child') = (.ok answer, children') ∧
      List.Forall₂ (Alike handle) (children.set d child') children' ∧
      children'[d]? = some child' ∧ (∀ q ∈ children', Joined handle q) ∧
      (answer = true → ∀ q ∈ children', Has disk handle q r) := by
  have hset : (children.set d child')[d]? = some child' := List.getElem?_set_self hlt
  have hjoined' := forall_set (d := d) hjoined (.reading hreading)
  obtain ⟨answer, children', hanswer, halike, hhas⟩ := probeAll_joined hnow hview hjoined' r (some d)
  refine ⟨answer, children', hanswer, halike, ?_,
    forall_alike halike (fun _ _ h hq => hq.alike h) hjoined', fun htrue => ?_⟩
  · have hskip := probeAll_skip disk none r (children.set d child') d
    rwa [hanswer, hset] at hskip
  · refine forall_alike halike (fun _ _ h hq => hq.alike h) ?_
    rw [forall_iff_others hset]
    exact ⟨hreading.has hmember, hhas htrue⟩

/-- The driver steps until all others have what it found, or to the end of its pass. -/
theorem advanceDriver_draws (hnow : now.Sound) (hview : disk.view handle = .ok now)
    (hrunning : frame.isExhausted = false) (s : Snapshot) (n : Nat)
    (hjoined : ∀ q ∈ children, Joined handle q) (hchild : children[d]? = some child)
    (hreading : Reading handle c child) (hturns : child.turnsIn c + child.supplyIn c ≤ n) :
    ∃ out, advanceDriver disk (nextWithin disk n) frame children d (some s) = some out ∧
      Draws disk handle now c children d frame child (some s) out := by
  induction n generalizing children child with
  | zero =>
    have hpos := child.turnsIn_pos c
    omega
  | succ n ih =>
    obtain ⟨out, hout, hstepped⟩ := nextWithin_spec hreading.sound hview (n + 1) child hreading.keeps
      hreading.wellFormed (by omega)
    unfold advanceDriver
    rw [hchild]
    simp only [Option.map_some]
    rw [hout]
    cases hstepped with
    | ended hended =>
      simp only [Option.bind_eq_bind, Option.bind_some, setSnapshotAll_eq]
      exact ⟨_, rfl, .ended rfl⟩
    | @found r child' hfound =>
      obtain ⟨hreading', hunderway, hmember⟩ := hreading.found hout hfound
      obtain ⟨answer, children', hanswer, halike, hafter, hjoined', hhas⟩ :=
        probeAll_found hnow hview hjoined (List.getElem?_eq_some_iff.1 hchild).1 hreading'
          ((member_of_reset hfound.reset).trans hmember)
      simp only [Option.bind_eq_bind, Option.bind_some]
      rw [hanswer]
      cases answer with
      | true =>
        exact ⟨_, rfl, .found halike hafter hfound.reset hreading' hunderway ⟨[], hfound.upcoming⟩
          (hhas rfl)⟩
      | false =>
        -- the turn that rejects a candidate leaves the driver less to supply, so `n` still suffices
        have hsupply := hfound.supply
        have hturns' := hfound.turns
        have hadvance : nextWithin disk (n + 1) (.inter frame children' (some d) (some s)) =
            advanceDriver disk (nextWithin disk n) frame children' d (some s) :=
          advance_held hrunning (List.ne_nil_of_mem (List.mem_of_getElem? hafter)) s
        obtain ⟨out, hout, hdraws⟩ := ih hjoined' hafter hreading' (by omega)
        exact ⟨out, hadvance.trans hout, hdraws.after halike hfound.reset hfound.upcoming⟩

end Query

end GraphStore
