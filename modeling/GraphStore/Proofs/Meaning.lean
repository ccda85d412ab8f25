import GraphStore.Proofs.Tree

/-!
# What queries mean

* `Query.Denotes` : the results a query has in given contents;
* `Query.member` : the same as a test (`Query.member_iff`);
* `Sees` : the contents that a part reads, now or because it keeps a snapshot;
* `Query.probe_spec` : being asked for a result, a query answers by its meaning, and changes in
  results only.
-/

namespace GraphStore

namespace Query

/-! ## Meaning -/

/-- The results of a query. -/
inductive Denotes (c : Contents) : Query → Ref → Prop
  | node {frame cursor key id} :
      c.isLive key = true → id ∈ key.ids → id.isBlank = false →
        Denotes c (.all frame .nodes cursor) (.node id)
  | quad {frame cursor key} :
      c.isLive key = true → Denotes c (.all frame .quads cursor) (.quad key)
  | value {frame values index r} : r ∈ values → Denotes c (.fixed frame values index) r
  | scanned {scan key} :
      c.isLive key = true → (∀ b ∈ scan.bound, key.get b.1 = b.2) →
        Denotes c (.position scan) (.quad key)
  | linked {frame handle pageSize direction primary inner snapshot key} :
      c.isLive key = true → Denotes c primary (.node (key.get direction)) →
        Denotes c (.links frame handle pageSize direction primary inner snapshot) (.quad key)
  | common {frame children driver snapshot r} :
      children ≠ [] → (∀ q ∈ children, Denotes c q r) →
        Denotes c (.inter frame children driver snapshot) r

mutual

def member (c : Contents) : Query → Ref → Bool
  | .all _ category _, r => decide (r.category = category) && c.isLiveRef r
  | .fixed _ values _, r => values.contains r
  | .position scan, r => r.asQuad?.any fun key => scan.fits key && c.isLive key
  | .links _ _ _ direction primary _ _, r =>
    r.asQuad?.any fun key => c.isLive key && primary.member c (.node (key.get direction))
  | .inter _ children _ _, r => !children.isEmpty && memberAll c children r

def memberAll (c : Contents) : List Query → Ref → Bool
  | [], _ => true
  | q :: rest, r => q.member c r && memberAll c rest r

end

variable {c : Contents} {q : Query} {r : Ref}

theorem memberAll_eq (c : Contents) (qs : List Query) (r : Ref) :
    memberAll c qs r = qs.all fun q => q.member c r := by
  induction qs with
  | nil => rfl
  | cons q rest ih => rw [memberAll, ih, List.all_cons]

/-- The test agrees with the meaning. -/
theorem member_iff (hc : c.Sound) : q.member c r = true ↔ Denotes c q r := by
  induction q using induct generalizing r with
  | all frame category cursor =>
    unfold member
    rw [Bool.and_eq_true, decide_eq_true_eq]
    constructor
    · rintro ⟨rfl, hlive⟩
      cases r with
      | node id =>
        obtain ⟨hblank, key, hkey, hid⟩ := hc.isLiveNode_iff.1 hlive
        exact .node hkey hid hblank
      | quad key => exact .quad hlive
    · intro h
      cases h with
      | node hkey hid hblank => exact ⟨rfl, hc.isLiveNode_iff.2 ⟨hblank, _, hkey, hid⟩⟩
      | quad hkey => exact ⟨rfl, hkey⟩
  | fixed frame values index =>
    unfold member
    rw [List.contains_iff_mem]
    constructor
    · exact .value
    · intro h
      cases h with
      | value hr => exact hr
  | position scan =>
    have hfits (key : QuadKey) :
        scan.fits key = true ↔ ∀ b ∈ scan.bound, key.get b.1 = b.2 := by
      unfold Scan.fits
      simp only [List.all_eq_true, beq_iff_eq]
    unfold member
    cases r with
    | node id => exact ⟨nofun, nofun⟩
    | quad key =>
      change (scan.fits key && c.isLive key) = true ↔ _
      rw [Bool.and_eq_true, hfits]
      constructor
      · exact fun ⟨hbound, hkey⟩ => .scanned hkey hbound
      · intro h
        cases h with
        | scanned hkey hbound => exact ⟨hbound, hkey⟩
  | links frame handle pageSize direction primary inner snapshot ih =>
    unfold member
    cases r with
    | node id => exact ⟨nofun, nofun⟩
    | quad key =>
      change (c.isLive key && primary.member c (.node (key.get direction))) = true ↔ _
      rw [Bool.and_eq_true, ih]
      constructor
      · exact fun ⟨hkey, hprimary⟩ => .linked hkey hprimary
      · intro h
        cases h with
        | linked hkey hprimary => exact ⟨hkey, hprimary⟩
  | inter frame children driver snapshot ih =>
    unfold member
    rw [memberAll_eq, Bool.and_eq_true, List.all_eq_true, Bool.not_eq_true',
      List.isEmpty_eq_false_iff]
    constructor
    · exact fun ⟨hne, hall⟩ => .common hne fun q hq => (ih q hq).1 (hall q hq)
    · intro h
      cases h with
      | common hne hall => exact ⟨hne, fun q hq => (ih q hq).2 (hall q hq)⟩

/-- There are children, and all of them have a result. -/
def Common (c : Contents) (children : List Query) (r : Ref) : Prop :=
  children ≠ [] ∧ ∀ q ∈ children, q.member c r = true

theorem member_inter_iff {frame : Frame} {children : List Query} {driver : Option Nat}
    {snapshot : Option Snapshot} :
    member c (.inter frame children driver snapshot) r = true ↔ Common c children r := by
  conv_lhs => unfold member
  unfold Common
  rw [memberAll_eq, Bool.and_eq_true, List.all_eq_true, Bool.not_eq_true',
    List.isEmpty_eq_false_iff]

theorem member_inter_map {f : Query → Query} {children : List Query}
    (h : ∀ q ∈ children, (f q).member c r = q.member c r) {frame frame' : Frame}
    {driver driver' : Option Nat} {snapshot snapshot' : Option Snapshot} :
    member c (.inter frame' (children.map f) driver' snapshot') r =
      member c (.inter frame children driver snapshot) r := by
  unfold member
  rw [memberAll_eq, memberAll_eq, List.isEmpty_map, List.all_map]
  refine congrArg (!children.isEmpty && ·) ?_
  rw [Bool.eq_iff_iff, List.all_eq_true, List.all_eq_true]
  exact forall₂_congr fun q hq => by rw [Function.comp_apply, h q hq]

theorem member_bare (c : Contents) (q : Query) : q.bare.member c r = q.member c r := by
  induction q using induct generalizing r with
  | all | fixed | position => rfl
  | links frame handle pageSize direction primary inner snapshot ih =>
    unfold bare member
    simp only [ih]
  | inter frame children driver snapshot ih =>
    unfold bare
    rw [bareAll_eq]
    exact member_inter_map fun q hq => ih q hq

theorem member_reset (c : Contents) (q : Query) : q.reset.member c r = q.member c r := by
  induction q using induct generalizing r with
  | all | fixed | position => rfl
  | links frame handle pageSize direction primary inner snapshot ih =>
    unfold reset member
    simp only [ih]
  | inter frame children driver snapshot ih =>
    unfold reset
    rw [resetAll_eq]
    exact member_inter_map fun q hq => ih q hq

theorem member_of_bare {q q' : Query} (h : q'.bare = q.bare) : q'.member c r = q.member c r := by
  rw [← member_bare, h, member_bare]

theorem member_of_reset {q q' : Query} (h : q'.reset = q.reset) :
    q'.member c r = q.member c r := by
  rw [← member_reset, h, member_reset]

end Query

/-! ## Membership -/

/-- The contents that a part reads: it keeps a snapshot of them, or they are the last committed
ones. -/
def Sees (disk : Disk) (handle : Handle) (c : Contents) (snapshot : Option Snapshot) : Prop :=
  snapshot = some ⟨handle, c⟩ ∨ snapshot = none ∧ disk.take handle = .ok ⟨handle, c⟩

variable {disk : Disk} {handle : Handle} {c : Contents} {imposed : Option Snapshot} {r : Ref}

theorem Cursor.Over.view {cursor : Cursor} (h : cursor.Over (Sees disk handle c) handle)
    (himposed : imposed = none ∨ imposed = some ⟨handle, c⟩) :
    cursor.view disk imposed = .ok ⟨handle, c⟩ := by
  unfold Cursor.view
  rcases himposed with rfl | rfl
  · rcases h.snapshot with hs | ⟨hs, htake⟩
    · rw [hs]
      rfl
    · rw [hs, h.handle_eq]
      exact htake
  · rfl

theorem Cursor.Over.contents {cursor : Cursor} (h : cursor.Over (Sees disk handle c) handle)
    (himposed : imposed = none ∨ imposed = some ⟨handle, c⟩) :
    cursor.contents disk imposed = .ok c := by
  unfold Cursor.contents
  rw [h.view himposed]
  rfl

namespace Query

/-- `q'` is `q` after it was asked for a result. -/
structure Asked (handle : Handle) (r : Ref) (found : Bool) (q q' : Query) : Prop where
  bare : q'.bare = q.bare
  stays : ∀ P, Over P handle q → Over P handle q'
  settled : found = true → Settled r q'

/-- The children of an intersection that do not drive it. -/
def others (driver : Option Nat) (children : List Query) : List Query :=
  match driver with
  | none => children
  | some d => children.eraseIdx d

structure AskedAll (handle : Handle) (r : Ref) (found : Bool) (skip : Option Nat)
    (qs qs' : List Query) : Prop where
  bare : qs'.map Query.bare = qs.map Query.bare
  stays : ∀ P, (∀ q ∈ qs, Over P handle q) → ∀ q ∈ qs', Over P handle q
  settled : found = true → (∀ d ∈ skip, ∀ q ∈ qs[d]?, Settled r q) → ∀ q ∈ qs', Settled r q
  skipped : ∀ d ∈ skip, qs'[d]? = qs[d]?

/-- However its tree is read, a query answers by its meaning and changes in results only. -/
def Probes (disk : Disk) (handle : Handle) (c : Contents) (q : Query) : Prop :=
  ∀ ⦃imposed : Option Snapshot⦄, imposed = none ∨ imposed = some ⟨handle, c⟩ → ∀ r : Ref,
    ∃ q', q.probe disk imposed r = (.ok (q.member c r), q') ∧ Asked handle r (q.member c r) q q'

section Asked

variable {found : Bool} {frame : Frame} {pageSize : Nat} {direction : Direction} {key : QuadKey}
  {primary primary' q q' : Query} {inner : Option Scan} {children children' : List Query}
  {driver : Option Nat} {snapshot : Option Snapshot}

theorem bare_answer (frame : Frame) (r : Ref) (found : Bool) :
    (frame.answer r found).bare = frame.bare := by
  cases found <;> rfl

theorem result_answer (frame : Frame) (r : Ref) : (frame.answer r true).result = some r :=
  rfl

theorem Asked.unchanged : Asked handle r false q q :=
  ⟨rfl, fun _ hP => hP, nofun⟩

theorem Asked.wellFormed (h : Asked handle r found q q') (hq : q.WellFormed) : q'.WellFormed :=
  .of_bare (h.bare ▸ hq.bare)

theorem Asked.reset (h : Asked handle r found q q') : q'.reset = q.reset := reset_of_bare h.bare

theorem Asked.links (h : Asked handle (.node (key.get direction)) found primary primary') :
    Asked handle (.quad key) found
      (.links frame handle pageSize direction primary inner snapshot)
      (.links (frame.answer (.quad key) found) handle pageSize direction primary' inner
        snapshot) := by
  refine ⟨?_, fun P hP => ?_, fun hfound => ?_⟩
  · unfold Query.bare
    rw [bare_answer, h.bare]
  · cases hP with
    | links hs hprimary hinner => exact .links hs (h.stays P hprimary) hinner
  · refine .links ?_ (h.settled hfound)
    rw [hfound, result_answer]

theorem Asked.inter (h : AskedAll handle r found none children children') :
    Asked handle r found (.inter frame children driver snapshot)
      (.inter (frame.answer r found) children' driver snapshot) := by
  refine ⟨?_, fun P hP => ?_, fun hfound => ?_⟩
  · unfold Query.bare
    rw [bare_answer, bareAll_eq, bareAll_eq, h.bare]
  · cases hP with
    | inter hchildren hs =>
      refine .inter (h.stays P hchildren) ?_
      rwa [firstHandle?_reset (map_reset_bare h.bare)]
  · refine .inter ?_ (h.settled hfound (by rintro _ ⟨⟩))
    rw [hfound, result_answer]

/-- A tree that kept no snapshot releases the one that it took to answer. -/
theorem Asked.release (h : Asked handle r found q q')
    (hnone : ∀ P, Over P handle q → q.handle? ≠ none → P none) :
    Asked handle r found q (q'.setSnapshot none) := by
  refine ⟨?_, fun P hP => ?_, fun hfound => (h.settled hfound).setSnapshot none⟩
  · rw [bare_setSnapshot, h.bare]
  · cases hhandle : q.handle? with
    | some _ => exact (h.stays P hP).setSnapshot (hnone P hP (by rw [hhandle]; nofun))
    | none =>
      refine over_of_handle?_eq_none ?_
      rw [handle?_setSnapshot, ← handle?_reset, ← reset_bare, h.bare, reset_bare, handle?_reset,
        hhandle]

end Asked

theorem others_cons {skip : Option Nat} (hskip : skip ≠ some 0) (q : Query) (rest : List Query) :
    others skip (q :: rest) = q :: others (skip.map (· - 1)) rest := by
  cases skip with
  | none => rfl
  | some d =>
    cases d with
    | zero => exact absurd rfl hskip
    | succ d => rfl

/-- Several queries answer by their meanings if each of them does. -/
theorem probeAll_spec {qs : List Query} (hprobe : ∀ q ∈ qs, Probes disk handle c q)
    (himposed : imposed = none ∨ imposed = some ⟨handle, c⟩) (skip : Option Nat) :
    ∃ qs', probeAll disk imposed r skip qs =
      (.ok ((others skip qs).all fun q => q.member c r), qs') ∧
      AskedAll handle r ((others skip qs).all fun q => q.member c r) skip qs qs' := by
  induction qs generalizing skip with
  | nil =>
    refine ⟨[], ?_, rfl, fun _ _ => nofun, fun _ _ => nofun, fun _ _ => rfl⟩
    cases skip <;> rfl
  | cons q rest ih =>
    obtain ⟨hq, hrest⟩ := List.forall_mem_cons.1 hprobe
    by_cases hskip : skip = some 0
    · subst hskip
      obtain ⟨rest', hrest', hasked⟩ := ih hrest none
      refine ⟨q :: rest', ?_, ?_, fun P hP => ?_, fun hfound hs => ?_, fun d hd => ?_⟩
      · unfold probeAll
        rw [if_pos rfl, hrest']
        rfl
      · rw [List.map_cons, List.map_cons, hasked.bare]
      · obtain ⟨hPq, hPrest⟩ := List.forall_mem_cons.1 hP
        exact List.forall_mem_cons.2 ⟨hPq, hasked.stays P hPrest⟩
      · exact List.forall_mem_cons.2 ⟨hs 0 rfl q rfl, hasked.settled hfound nofun⟩
      · obtain rfl := Option.some.inj hd
        rfl
    · obtain ⟨q', hq', hasked⟩ := hq himposed r
      rw [others_cons hskip, List.all_cons]
      cases hmember : q.member c r with
      | false =>
        refine ⟨q' :: rest, ?_, ?_, fun P hP => ?_, nofun, fun d hd => ?_⟩
        · unfold probeAll
          rw [if_neg hskip, hq', hmember]
          rfl
        · rw [List.map_cons, List.map_cons, hasked.bare]
        · obtain ⟨hPq, hPrest⟩ := List.forall_mem_cons.1 hP
          exact List.forall_mem_cons.2 ⟨hasked.stays P hPq, hPrest⟩
        · cases d with
          | zero => exact absurd hd hskip
          | succ d => rfl
      | true =>
        obtain ⟨rest', hrest', haskedRest⟩ := ih hrest (skip.map (· - 1))
        refine ⟨q' :: rest', ?_, ?_, fun P hP => ?_, fun hfound hs => ?_, fun d hd => ?_⟩
        · unfold probeAll
          rw [if_neg hskip, hq', hmember]
          simp only
          rw [hrest']
          rfl
        · rw [List.map_cons, List.map_cons, hasked.bare, haskedRest.bare]
        · obtain ⟨hPq, hPrest⟩ := List.forall_mem_cons.1 hP
          exact List.forall_mem_cons.2 ⟨hasked.stays P hPq, haskedRest.stays P hPrest⟩
        · refine List.forall_mem_cons.2 ⟨hasked.settled hmember, haskedRest.settled hfound ?_⟩
          intro d hd p hp
          obtain ⟨d', rfl, rfl⟩ := Option.map_eq_some_iff.1 hd
          cases d' with
          | zero => exact absurd rfl hskip
          | succ d' => exact hs (d' + 1) rfl p hp
        · cases d with
          | zero => exact absurd hd hskip
          | succ d => exact haskedRest.skipped d (by rw [Option.mem_def.1 hd]; rfl)

theorem Probes.links {frame : Frame} {pageSize : Nat} {direction : Direction} {primary : Query}
    {inner : Option Scan} {snapshot : Option Snapshot} (hsees : Sees disk handle c snapshot)
    (hprimary : Probes disk handle c primary) :
    Probes disk handle c
      (.links frame handle pageSize direction primary inner snapshot) := by
  intro imposed himposed r
  unfold probe member
  cases r with
  | node id => exact ⟨_, rfl, .unchanged⟩
  | quad key =>
    simp only [Ref.asQuad?, Option.any_some]
    have hview : imposed.or snapshot = some ⟨handle, c⟩ ∨
        imposed.or snapshot = none ∧ snapshot = none ∧ disk.take handle = .ok ⟨handle, c⟩ := by
      rcases himposed with rfl | rfl
      · rcases hsees with rfl | ⟨rfl, htake⟩
        · exact .inl rfl
        · exact .inr ⟨rfl, rfl, htake⟩
      · exact .inl rfl
    rcases hview with hview | ⟨hview, rfl, htake⟩
    · -- The tree reads a snapshot, which its parts keep.
      rw [hview]
      simp only
      cases hlive : c.isLive key with
      | false => exact ⟨_, rfl, .unchanged⟩
      | true =>
        obtain ⟨primary', hanswer, hasked⟩ := hprimary himposed (.node (key.get direction))
        rw [if_pos rfl, hanswer, Bool.true_and]
        exact ⟨_, rfl, hasked.links⟩
    · -- It takes one for this answer, and no part keeps it.
      rw [hview, htake]
      simp only
      have hnone (P) (hP : Over P handle
          (.links frame handle pageSize direction primary inner none)) : P none := by
        cases hP with
        | links hs _ _ => exact hs
      cases hlive : c.isLive key with
      | false => exact ⟨_, rfl, Asked.unchanged.release fun P hP _ => hnone P hP⟩
      | true =>
        obtain ⟨primary', hanswer, hasked⟩ := hprimary (.inr rfl) (.node (key.get direction))
        rw [if_pos rfl, hanswer, Bool.true_and]
        exact ⟨_, rfl, hasked.links.release fun P hP _ => hnone P hP⟩

/-- Children that share a snapshot take one through their handle, or need none. -/
theorem Over.exists_taken {frame : Frame} {children : List Query} {driver : Option Nat}
    (h : Over (Sees disk handle c) handle (.inter frame children driver none)) :
    ∃ taken : Option Snapshot, (firstHandle? children).mapM disk.take = .ok taken ∧
      (taken = none ∨ taken = some ⟨handle, c⟩) := by
  rcases h.handle? with hhandle | hhandle
  · have hfirst : firstHandle? children = none := hhandle
    refine ⟨none, ?_, .inl rfl⟩
    rw [hfirst]
    rfl
  · have hfirst : firstHandle? children = some handle := hhandle
    cases h with
    | inter _ hsees =>
      rcases hsees (by rw [hfirst]; nofun) with hs | ⟨-, htake⟩
      · cases hs
      · refine ⟨some ⟨handle, c⟩, ?_, .inr rfl⟩
        rw [hfirst, Option.mapM_some, htake]
        rfl

theorem Probes.inter {frame : Frame} {children : List Query} {driver : Option Nat}
    {snapshot : Option Snapshot} (hchildren : ∀ q ∈ children, Probes disk handle c q)
    (hover : Over (Sees disk handle c) handle (.inter frame children driver snapshot)) :
    Probes disk handle c (.inter frame children driver snapshot) := by
  intro imposed himposed r
  unfold probe member
  cases hempty : children.isEmpty with
  | true => exact ⟨_, rfl, .unchanged⟩
  | false =>
    rw [if_neg (by decide), memberAll_eq, Bool.not_false, Bool.true_and]
    split
    · -- The tree reads a snapshot, which its parts keep.
      obtain ⟨children', hanswer, hasked⟩ := probeAll_spec (r := r) hchildren himposed none
      rw [hanswer]
      exact ⟨_, rfl, .inter hasked⟩
    · next hunseen =>
      -- It takes one for this answer, unless all parts are lists, and no part keeps it.
      have hsnapshot : snapshot = none := by
        cases snapshot with
        | none => rfl
        | some s => cases imposed <;> simp at hunseen
      subst hsnapshot
      obtain ⟨taken, htaken, hseen⟩ := hover.exists_taken
      obtain ⟨children', hanswer, hasked⟩ := probeAll_spec (r := r) hchildren hseen none
      rw [htaken]
      simp only
      rw [hanswer]
      refine ⟨_, rfl, (Asked.inter hasked).release fun P hP hne => ?_⟩
      cases hP with
      | inter _ hs => exact hs hne

/-- Being asked for a result, a query answers by its meaning and changes in results only. -/
theorem probe_spec (hc : c.Sound) {q : Query} (hover : Over (Sees disk handle c) handle q) :
    Probes disk handle c q := by
  induction q using induct with
  | all frame category cursor =>
    intro imposed himposed r
    cases hover with
    | all hcursor =>
      unfold probe member
      split
      · next hcategory =>
        rw [hcursor.contents himposed, hcategory, decide_eq_true rfl, Bool.true_and]
        refine ⟨_, rfl, ?_, fun P hP => ?_, fun hfound => ?_⟩
        · cases c.isLiveRef r <;> rfl
        · cases hP with
          | all hP => exact .all hP
        · rw [hfound]
          exact .all rfl
      · next hcategory =>
        rw [decide_eq_false hcategory, Bool.false_and]
        exact ⟨_, rfl, .unchanged⟩
  | fixed frame values index =>
    intro imposed _ r
    unfold probe member
    refine ⟨_, rfl, ?_, fun P _ => .fixed, fun hfound => ?_⟩
    · cases values.contains r <;> rfl
    · rw [hfound]
      exact .fixed rfl
  | position scan =>
    intro imposed himposed r
    cases hover with
    | position hcursor =>
      unfold probe member Scan.contains
      cases r with
      | node id => exact ⟨_, rfl, .unchanged⟩
      | quad key =>
        simp only [Ref.asQuad?, Option.any_some]
        split
        · next hfits =>
          rw [hcursor.contents himposed, hfits, Bool.true_and]
          simp only [hc.hasEntry]
          refine ⟨_, rfl, ?_, fun P hP => ?_, fun hfound => ?_⟩
          · cases c.isLive key <;> rfl
          · cases hP with
            | position hP => exact .position hP
          · rw [hfound]
            exact .position rfl
        · next hfits =>
          rw [Bool.eq_false_iff.2 hfits, Bool.false_and]
          exact ⟨_, rfl, .unchanged⟩
  | links frame h pageSize direction primary inner snapshot ih =>
    cases hover with
    | links hsees hprimary _ => exact .links hsees (ih hprimary)
  | inter frame children driver snapshot ih =>
    refine .inter (fun q hq => ih q hq ?_) hover
    cases hover with
    | inter hchildren _ => exact hchildren q hq

/-! ### The other children -/

variable {children children' : List Query} {child : Query} {d : Nat}

theorem others_map (skip : Option Nat) (qs : List Query) :
    others skip (qs.map bare) = (others skip qs).map bare := by
  cases skip with
  | none => rfl
  | some d => exact List.eraseIdx_map _ _ _

theorem others_set (qs : List Query) : others (some d) (qs.set d child') = others (some d) qs :=
  List.eraseIdx_set_eq

theorem others_bare (skip : Option Nat) (h : children'.map bare = children.map bare) :
    (others skip children').map bare = (others skip children).map bare := by
  rw [← others_map, h, others_map]

theorem all_member_bare (h : children'.map bare = children.map bare) :
    (children'.all fun q => q.member c r) = children.all fun q => q.member c r := by
  have hmembers (qs : List Query) : (qs.all fun q => q.member c r) =
      (qs.map bare).all fun q => q.member c r := by
    rw [List.all_map]
    exact congrArg qs.all (funext fun q => (member_bare c q).symm)
  rw [hmembers, h, ← hmembers]

end Query

end GraphStore
