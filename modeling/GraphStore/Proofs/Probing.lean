import GraphStore.Proofs.Bindings
import GraphStore.Proofs.Rows

/-!
# Passes with answers in between

* `Query.upcoming_bare` : what is upcoming depends neither on results nor on snapshots, so that
  answers do not change it;
* `Query.Current` : all parts of a tree, but for those below links, have one result, as every step
  leaves them (`Query.StepsTo.current`);
* `Query.linkedNames` : the names of the nodes that quads are linked to;
* `Query.Current.get?_bind` : all other names are bound as in the row of the result;
* `Store.Reached.pass_probed` : so answers in a pass change neither its results nor, but for those
  names, the bindings;
* `Store.stale_link` : an answer does change what such a name is bound to for a later result.
-/

namespace GraphStore

namespace Scan

variable {disk : Disk} {r : Ref} {scan scan' : Scan}

theorem contains_current {imposed : Option Snapshot}
    (h : scan.contains disk imposed r = (.ok true, scan')) : scan'.frame.result = some r := by
  unfold contains at h
  split at h
  · cases h
  · split at h
    · split at h
      · cases h
      · obtain ⟨hfound, rfl⟩ := Prod.mk.inj h
        rw [Except.ok.inj hfound]
        rfl
    · cases h

end Scan

namespace Query

variable {disk : Disk} {handle : Handle} {now c : Contents} {q q' : Query} {r : Ref}

/-! ## Upcoming results -/

/-- What is upcoming depends neither on results nor on snapshots. -/
theorem upcoming_bare (now c : Contents) (q : Query) :
    q.bare.upcoming now c = q.upcoming now c := by
  induction q using induct with
  | all | fixed | position =>
    unfold bare upcoming
    rfl
  | links frame handle pageSize direction primary inner snapshot ih =>
    have hinner : (inner.map Scan.bare).map (Scan.upcoming c) = inner.map (Scan.upcoming c) := by
      cases inner <;> rfl
    unfold bare upcoming
    rw [isExhausted_frame_bare, ih, hinner]
  | inter frame children driver snapshot ih =>
    have hchildren : upcomingAll now c (children.map bare) = upcomingAll now c children := by
      rw [upcomingAll_eq, upcomingAll_eq, List.map_map]
      exact List.map_congr_left ih
    have hothers (d : Nat) (r : Ref) : ((others (some d) (children.map bare)).all fun q =>
        q.member c r) = (others (some d) children).all fun q => q.member c r := by
      rw [others_map, List.all_map]
      exact congrArg (others (some d) children).all (funext fun q => member_bare c q)
    unfold bare upcoming
    simp only [isExhausted_frame_bare, bareAll_eq, driverIn_bare, hchildren, hothers]

theorem upcoming_eq_of_bare (h : q'.bare = q.bare) : q'.upcoming now c = q.upcoming now c := by
  rw [← upcoming_bare, h, upcoming_bare]

theorem Tracked.next_upcoming (hc : c.Sound) (hview : disk.view handle = .ok c)
    (h : Tracked handle c q) :
    (∃ r q', q.next disk = (.ok (some r), q') ∧ q.upcoming c c = r :: q'.upcoming c c ∧
      Tracked handle c q' ∧ q'.reset = q.reset) ∨
    ∃ q', q.next disk = (.ok none, q') ∧ q.upcoming c c = [] := by
  cases hphase : q.frame.isExhausted with
  | true => exact .inr ⟨q, next_of_exhausted hphase, upcoming_of_exhausted hphase⟩
  | false =>
    obtain ⟨c', q₁, n, hc', hbare, -, hstepped⟩ := h.turn hc hc hview hphase
    obtain rfl := or_self_iff.1 hc'
    rw [← upcoming_eq_of_bare hbare]
    generalize q.next disk = out at hstepped ⊢
    cases hstepped with
    | found hfound =>
      exact .inl ⟨_, _, rfl, hfound.upcoming, .running hfound.keeps hfound.wellFormed,
        hfound.reset.trans (reset_of_bare hbare)⟩
    | ended hended => exact .inr ⟨_, rfl, hended.upcoming⟩

/-! ## Current results -/

/-- All parts of a tree, but for those below links, have the result. -/
inductive Current (r : Ref) : Query → Prop
  | all {frame category cursor} : frame.result = some r → Current r (.all frame category cursor)
  | fixed {frame values index} : frame.result = some r → Current r (.fixed frame values index)
  | position {scan} : scan.frame.result = some r → Current r (.position scan)
  | links {frame handle pageSize direction primary inner snapshot} :
      frame.result = some r →
        Current r (.links frame handle pageSize direction primary inner snapshot)
  | inter {frame children driver snapshot} :
      frame.result = some r → (∀ q ∈ children, Current r q) →
        Current r (.inter frame children driver snapshot)

theorem Current.setSnapshot (h : Current r q) (snapshot : Option Snapshot) :
    Current r (q.setSnapshot snapshot) := by
  induction h with
  | all h => exact .all h
  | fixed h => exact .fixed h
  | position h => exact .position h
  | links h => exact .links h
  | inter h _ ih =>
    refine .inter h ?_
    rw [setSnapshotAll_eq]
    exact List.forall_mem_map.2 ih

def ConfirmsCurrent (disk : Disk) (q : Query) : Prop :=
  ∀ imposed r q', q.probe disk imposed r = (.ok true, q') → Current r q'

theorem probeAll_current {imposed : Option Snapshot} {skip : Option Nat} {qs qs' : List Query}
    (hqs : ∀ q ∈ qs, ConfirmsCurrent disk q)
    (h : probeAll disk imposed r skip qs = (.ok true, qs'))
    (hskip : ∀ d ∈ skip, ∀ q ∈ qs[d]?, Current r q) : ∀ q ∈ qs', Current r q := by
  induction qs generalizing skip qs' with
  | nil =>
    cases h
    rintro _ ⟨⟩
  | cons q rest ih =>
    obtain ⟨hq, hrest⟩ := List.forall_mem_cons.1 hqs
    unfold probeAll at h
    split at h
    · next hzero =>
      subst hzero
      rcases hanswer : probeAll disk imposed r none rest with ⟨answer, rest'⟩
      rw [hanswer] at h
      cases h
      exact List.forall_mem_cons.2 ⟨hskip 0 rfl q rfl, ih hrest hanswer (by rintro _ ⟨⟩)⟩
    · next hzero =>
      rcases hprobe : q.probe disk imposed r with ⟨error | _ | _, q'⟩
      · rw [hprobe] at h
        cases h
      · rw [hprobe] at h
        cases h
      · rcases hanswer : probeAll disk imposed r (skip.map (· - 1)) rest with ⟨answer, rest'⟩
        rw [hprobe] at h
        simp only [hanswer] at h
        cases h
        refine List.forall_mem_cons.2 ⟨hq _ _ _ hprobe, ih hrest hanswer fun d hd p hp => ?_⟩
        obtain ⟨d', rfl, rfl⟩ := Option.map_eq_some_iff.1 hd
        cases d' with
        | zero => exact absurd rfl hzero
        | succ d' => exact hskip (d' + 1) rfl p hp

theorem confirmsCurrent (disk : Disk) (q : Query) : ConfirmsCurrent disk q := by
  induction q using induct with
  | all frame category cursor =>
    intro imposed r q' h
    unfold probe at h
    split at h
    · split at h
      · cases h
      · obtain ⟨hfound, rfl⟩ := Prod.mk.inj h
        rw [Except.ok.inj hfound]
        exact .all rfl
    · cases h
  | fixed frame values index =>
    intro imposed r q' h
    obtain ⟨hfound, rfl⟩ := Prod.mk.inj h
    rw [Except.ok.inj hfound]
    exact .fixed rfl
  | position scan =>
    intro imposed r q' h
    unfold probe at h
    rcases hanswer : scan.contains disk imposed r with ⟨answer, scan'⟩
    rw [hanswer] at h
    cases h
    exact .position (Scan.contains_current hanswer)
  | links frame handle pageSize direction primary inner snapshot _ =>
    intro imposed r q' h
    unfold probe at h
    split at h
    · cases h
    · split at h
      · split at h
        · obtain ⟨hanswer, rfl⟩ := Prod.mk.inj h
          rw [hanswer]
          exact .links rfl
        · cases h
      · split at h
        · cases h
        · simp only at h
          split at h
          · obtain ⟨hanswer, rfl⟩ := Prod.mk.inj h
            rw [hanswer]
            exact .links rfl
          · cases h
  | inter frame children driver snapshot ih =>
    intro imposed r q' h
    unfold probe at h
    split at h
    · cases h
    · split at h
      · rcases hanswer : probeAll disk imposed r none children with ⟨answer, children'⟩
        rw [hanswer] at h
        cases h
        exact .inter rfl (probeAll_current ih hanswer (by rintro _ ⟨⟩))
      · split at h
        · cases h
        · next taken _ =>
          rcases hanswer : probeAll disk taken r none children with ⟨answer, children'⟩
          rw [hanswer] at h
          cases h
          refine .inter rfl ?_
          rw [setSnapshotAll_eq]
          exact List.forall_mem_map.2 fun q hq =>
            (probeAll_current ih hanswer (by rintro _ ⟨⟩) q hq).setSnapshot none

/-- A step that finds a result leaves a tree with it. -/
theorem StepsTo.current {out : Outcome × Query} (h : StepsTo disk q out) :
    out.1 = .ok (some r) → Current r out.2 := by
  induction h with
  | exhausted | refused | listedAll | primaryFailed | primaryEnded | empty | undecided | driverFailed
  | driverEnded | unanswered => exact nofun
  | begun _ _ _ _ ih | linkedAll _ _ _ ih | primaryNode _ _ _ _ ih | primaryQuad _ _ _ _ ih
  | chosen _ _ _ _ ih | rejected _ _ _ _ _ _ ih => exact ih
  | all =>
    rintro rfl
    exact .all rfl
  | listed =>
    intro h
    cases h
    exact .fixed rfl
  | position =>
    rintro rfl
    exact .position rfl
  | linked =>
    rintro rfl
    exact .links rfl
  | @confirmed frame children d snapshot child r' child' children' _ hchild _ hprobe hdriver =>
    intro h
    cases h
    refine .inter rfl (probeAll_current (fun q _ => confirmsCurrent disk q) hprobe ?_)
    rintro _ ⟨⟩ q hq
    rw [List.getElem?_set_self (List.getElem?_eq_some_iff.1 hchild).1] at hq
    obtain rfl := Option.some.inj hq
    exact hdriver rfl

theorem next_current (h : q.next disk = (.ok (some r), q')) : Current r q' := by
  unfold Query.next at h
  cases hout : nextWithin disk (q.turns disk none) q with
  | none =>
    rw [hout] at h
    cases h
  | some out =>
    rw [hout] at h
    obtain rfl : out = (.ok (some r), q') := h
    exact (nextWithin_stepsTo disk _ q _ hout).current rfl

/-! ## Names -/

mutual

/-- The names that are bound to results of a tree or of its parts. -/
def plainNames : Query → List String
  | .all frame .. | .fixed frame .. => frame.tags.plain
  | .position scan => scan.frame.tags.plain
  | .links frame _ _ _ primary _ _ => frame.tags.plain ++ primary.plainNames
  | .inter frame children _ _ => frame.tags.plain ++ plainNamesAll children

def plainNamesAll : List Query → List String
  | [] => []
  | q :: rest => q.plainNames ++ plainNamesAll rest

end

mutual

/-- The names that are bound to nodes which quads are linked to, and to results below those. -/
def linkedNames : Query → List String
  | .all .. | .fixed .. | .position _ => []
  | .links _ _ _ _ primary _ _ => primary.plainNames
  | .inter _ children _ _ => linkedNamesAll children

def linkedNamesAll : List Query → List String
  | [] => []
  | q :: rest => q.linkedNames ++ linkedNamesAll rest

end

theorem plainNamesAll_eq (qs : List Query) : plainNamesAll qs = qs.flatMap plainNames := by
  induction qs with
  | nil => rfl
  | cons q rest ih => rw [plainNamesAll, ih, List.flatMap_cons]

theorem linkedNamesAll_eq (qs : List Query) : linkedNamesAll qs = qs.flatMap linkedNames := by
  induction qs with
  | nil => rfl
  | cons q rest ih => rw [linkedNamesAll, ih, List.flatMap_cons]

theorem plainNames_reset (q : Query) : q.reset.plainNames = q.plainNames := by
  induction q using induct with
  | all | fixed | position => rfl
  | links frame handle pageSize direction primary inner snapshot ih =>
    unfold reset plainNames
    rw [ih]
    rfl
  | inter frame children driver snapshot ih =>
    unfold reset plainNames
    rw [resetAll_eq, plainNamesAll_eq, plainNamesAll_eq, List.flatMap_map]
    exact congrArg _ (List.flatMap_congr ih)

theorem linkedNames_reset (q : Query) : q.reset.linkedNames = q.linkedNames := by
  induction q using induct with
  | all | fixed | position => rfl
  | links frame handle pageSize direction primary inner snapshot ih => exact plainNames_reset primary
  | inter frame children driver snapshot ih =>
    unfold reset linkedNames
    rw [resetAll_eq, linkedNamesAll_eq, linkedNamesAll_eq, List.flatMap_map]
    exact List.flatMap_congr ih

variable {name : String}

/-- Whatever it is bound to before, a tree binds a name as a list of bindings does. -/
def BindsAs (name : String) (q : Query) (row : List (String × Ref)) : Prop :=
  ∀ b b' : Bindings, b.get? name = b'.get? name →
    (q.bind b).get? name = (Bindings.write b' row).get? name

def BindsAsRow (name : String) (q : Query) (r : Ref) : Prop :=
  ∀ b b' : Bindings, b.get? name = b'.get? name →
    (q.bind b).get? name = (Bindings.write b' (q.row r)).get? name

theorem bindsAsRow_frame {frame : Frame} (h : frame.result = some r ∨ name ∉ frame.tags.plain)
    {b b' : Bindings} (hb : b.get? name = b'.get? name) :
    (frame.bind b).get? name = (Bindings.write b' (frame.tags.row r)).get? name := by
  unfold Frame.bind
  rw [← Tags.bind_eq_write, Tags.get?_bind]
  rcases h with h | h
  · rw [h, Tags.get?_bind, hb]
  · unfold Tags.bind Tags.value
    simp only
    rw [Tags.get?_foldl_entries, if_neg h, Option.or_none]
    cases frame.result with
    | none => exact congrArg _ hb
    | some v =>
      simp only
      rw [Tags.get?_foldl_plain, if_neg h, hb]

/-- Trees that bind a name as given lists do, one for each, bind it together as these lists in order. -/
theorem bindsAs_all {qs : List Query} {rows : Query → List (String × Ref)}
    (h : ∀ q ∈ qs, BindsAs name q (rows q)) {b b' : Bindings} (hb : b.get? name = b'.get? name) :
    (bindAll qs b).get? name = (Bindings.write b' (qs.flatMap rows)).get? name := by
  induction qs generalizing b b' with
  | nil => exact hb
  | cons q rest ih =>
    obtain ⟨hq, hrest⟩ := List.forall_mem_cons.1 h
    unfold bindAll
    rw [List.flatMap_cons, Bindings.write_append]
    exact ih hrest (hq _ _ hb)

theorem bindsAsRow_all {qs : List Query} (h : ∀ q ∈ qs, BindsAsRow name q r) {b b' : Bindings}
    (hb : b.get? name = b'.get? name) :
    (bindAll qs b).get? name = (Bindings.write b' (rowAll qs r)).get? name := by
  rw [rowAll_eq]
  exact bindsAs_all h hb

theorem bindsAsRow_of_not_plain (hr : q.member c r = true) (h : name ∉ q.plainNames) :
    BindsAsRow name q r := by
  induction q using induct generalizing r with
  | all | fixed | position => exact fun b b' hb => bindsAsRow_frame (.inr h) hb
  | links frame handle pageSize direction primary inner snapshot ih =>
    intro b b' hb
    unfold plainNames at h
    rw [List.mem_append, not_or] at h
    have hframe := bindsAsRow_frame (r := r) (.inr h.1) hb
    unfold bind row
    rw [Bindings.write_append]
    cases r with
    | node id => cases hr
    | quad key =>
      have hkey : (c.isLive key && primary.member c (.node (key.get direction))) = true := hr
      rw [Bool.and_eq_true] at hkey
      exact ih hkey.2 h.2 _ _ hframe
  | inter frame children driver snapshot ih =>
    intro b b' hb
    unfold plainNames at h
    rw [plainNamesAll_eq, List.mem_append, not_or, List.mem_flatMap] at h
    obtain ⟨-, hall⟩ := member_inter_iff.1 hr
    have hframe := bindsAsRow_frame (r := r) (.inr h.1) hb
    unfold bind row
    rw [Bindings.write_append]
    exact bindsAsRow_all (fun q hq => ih q hq (hall q hq) fun hname => h.2 ⟨q, hq, hname⟩) hframe

/-- A tree with a result binds all names but those of linked nodes as the row of the result. -/
theorem Current.bindsAsRow (h : Current r q) (hr : q.member c r = true)
    (hname : name ∉ q.linkedNames) : BindsAsRow name q r := by
  induction h with
  | all h | fixed h | position h => exact fun b b' hb => bindsAsRow_frame (.inl h) hb
  | @links frame handle pageSize direction primary inner snapshot h =>
    intro b b' hb
    have hframe := bindsAsRow_frame (.inl h) hb
    unfold bind row
    rw [Bindings.write_append]
    cases r with
    | node id => cases hr
    | quad key =>
      have hkey : (c.isLive key && primary.member c (.node (key.get direction))) = true := hr
      rw [Bool.and_eq_true] at hkey
      exact bindsAsRow_of_not_plain hkey.2 hname _ _ hframe
  | @inter frame children driver snapshot h _ ih =>
    intro b b' hb
    unfold linkedNames at hname
    rw [linkedNamesAll_eq, List.mem_flatMap] at hname
    obtain ⟨-, hall⟩ := member_inter_iff.1 hr
    have hframe := bindsAsRow_frame (.inl h) hb
    unfold bind row
    rw [Bindings.write_append]
    exact bindsAsRow_all (fun q hq => ih q hq (hall q hq) fun h => hname ⟨q, hq, h⟩) hframe

/-! ## Passes with answers -/

def askAll (disk : Disk) (q : Query) (refs : List Ref) : Query :=
  refs.foldl (fun q r => (q.contains disk r).2) q

/-- Asking for results until there are no more, where before the `i`-th step the tree is asked for the
values `asked i`. Each result comes with the tree just after the step. -/
inductive Probed (disk : Disk) (asked : Nat → List Ref) : Nat → Query → List (Ref × Query) → Prop
  | ended {i : Nat} {q last : Query} :
      (q.askAll disk (asked i)).next disk = (.ok none, last) → Probed disk asked i q []
  | found {i : Nat} {q q' : Query} {r : Ref} {rows : List (Ref × Query)} :
      (q.askAll disk (asked i)).next disk = (.ok (some r), q') →
        Probed disk asked (i + 1) q' rows → Probed disk asked i q ((r, q') :: rows)

theorem Tracked.askAll (hc : c.Sound) (hview : disk.view handle = .ok c) (h : Tracked handle c q)
    (refs : List Ref) :
    Tracked handle c (q.askAll disk refs) ∧ (q.askAll disk refs).bare = q.bare := by
  unfold Query.askAll
  induction refs generalizing q with
  | nil => exact ⟨h, rfl⟩
  | cons r rest ih =>
    obtain ⟨q', hanswer, hasked⟩ := contains_spec hc hview h r
    obtain ⟨htracked, hbare⟩ := ih (h.asked hasked)
    rw [List.foldl_cons, hanswer]
    exact ⟨htracked, hbare.trans hasked.bare⟩

/-- Whatever it is asked for, a tree finds what is upcoming, and has each result just after it was
found. -/
theorem Tracked.probed (hc : c.Sound) (hview : disk.view handle = .ok c) (h : Tracked handle c q)
    (asked : Nat → List Ref) (i : Nat) :
    ∃ rows, Probed disk asked i q rows ∧ rows.map Prod.fst = q.upcoming c c ∧
      ∀ e ∈ rows, Current e.1 e.2 ∧ e.2.reset = q.reset := by
  induction hlist : q.upcoming c c generalizing q i with
  | nil =>
    obtain ⟨htracked, hbare⟩ := h.askAll hc hview (asked i)
    rcases htracked.next_upcoming hc hview with ⟨r, q', -, hupcoming, -⟩ | ⟨last, hnext, -⟩
    · rw [upcoming_eq_of_bare hbare, hlist] at hupcoming
      cases hupcoming
    · exact ⟨[], .ended hnext, rfl, nofun⟩
  | cons r tail ih =>
    obtain ⟨htracked, hbare⟩ := h.askAll hc hview (asked i)
    rcases htracked.next_upcoming hc hview with ⟨r', q', hnext, hupcoming, hq', hreset⟩ | ⟨_, -, hnil⟩
    · rw [upcoming_eq_of_bare hbare, hlist] at hupcoming
      cases hupcoming
      obtain ⟨rows, hrows, hresults, hall⟩ := ih hq' (i + 1) rfl
      have hsame := hreset.trans (reset_of_bare hbare)
      refine ⟨(r, q') :: rows, .found hnext hrows, congrArg (r :: ·) hresults, ?_⟩
      refine List.forall_mem_cons.2 ⟨⟨next_current hnext, hsame⟩, fun e he => ?_⟩
      obtain ⟨hcurrent, hreset'⟩ := hall e he
      exact ⟨hcurrent, hreset'.trans hsame⟩
    · rw [upcoming_eq_of_bare hbare, hlist] at hnil
      cases hnil

/-- Whatever a fresh tree is asked for in its pass, it finds what is upcoming, and all names but those
of linked nodes are bound as in the rows of the results. -/
theorem Fresh.probed (hc : c.Sound) (hview : disk.view handle = .ok c) (h : Fresh handle q)
    (asked : Nat → List Ref) :
    ∃ rows, Probed disk asked 0 q rows ∧ rows.map Prod.fst = q.upcoming c c ∧
      ∀ e ∈ rows, ∀ name ∉ q.linkedNames, ∀ b : Bindings,
        (e.2.bind b).get? name = (Bindings.write b (q.row e.1)).get? name := by
  obtain ⟨rows, hrows, hresults, hall⟩ := (Tracked.fresh h).probed hc hview asked 0
  refine ⟨rows, hrows, hresults, fun e he name hname b => ?_⟩
  obtain ⟨hcurrent, hreset⟩ := hall e he
  have hupcoming : e.1 ∈ q.upcoming c c := hresults ▸ List.mem_map_of_mem he
  have hmember : e.2.member c e.1 = true := by
    rw [member_of_reset hreset]
    exact (mem_upcoming hc h.wellFormed h.atStart).1 hupcoming
  have hlinked : name ∉ e.2.linkedNames := by
    rwa [← linkedNames_reset, hreset, linkedNames_reset]
  rw [hcurrent.bindsAsRow hmember hlinked b b rfl, ← row_reset, hreset, row_reset]

end Query

namespace Store

/-- Whatever a tree is asked for between the steps of a pass, it yields the same results in the same
order, and for each of them all names but those of linked nodes are bound as without the answers. -/
theorem Reached.pass_probed {store : Store} {disk : Disk} {q : Query} (h : store.Reached disk)
    (hq : q.Built store.handle) (asked : Nat → List Ref) :
    ∃ rows rows₀, q.Probed disk asked 0 rows ∧ q.Probed disk (fun _ => []) 0 rows₀ ∧
      rows.map Prod.fst = rows₀.map Prod.fst ∧
        ∀ e ∈ rows, ∀ e₀ ∈ rows₀, e.1 = e₀.1 → ∀ name ∉ q.linkedNames, ∀ b : Bindings,
          (e.2.bind b).get? name = (e₀.2.bind b).get? name := by
  obtain ⟨c, hview, hc⟩ := h.sound
  obtain ⟨rows, hrows, hresults, hbind⟩ := hq.fresh.probed hc hview asked
  obtain ⟨rows₀, hrows₀, hresults₀, hbind₀⟩ := hq.fresh.probed hc hview fun _ => []
  refine ⟨rows, rows₀, hrows, hrows₀, hresults.trans hresults₀.symm, ?_⟩
  intro e he e₀ he₀ hsame name hname b
  rw [hbind e he name hname, hbind₀ e₀ he₀ name hname, hsame]

theorem pass_probed_first_quad : ∃ (store : Store) (disk : Disk),
    Store.create {} "db" {} = .ok (store, disk) ∧
      let now := store.after disk (.add {} ⟨"alice", "follows", "bob", ""⟩)
      let q := Query.linksTo store.handle 7 ((Query.ofList [.node ⟨1⟩]).mapTags (·.add "who")) .subject
      let r := Ref.quad ⟨⟨1⟩, ⟨2⟩, ⟨3⟩, ⟨0⟩⟩
      q.linkedNames = ["who"] ∧
        ∃ rows rows₀, q.Probed now (fun _ => [r, .node ⟨1⟩]) 0 rows ∧ q.Probed now (fun _ => []) 0 rows₀ ∧
          rows.map Prod.fst = rows₀.map Prod.fst ∧
            ∀ e ∈ rows, ∀ e₀ ∈ rows₀, e.1 = e₀.1 → ∀ name ∉ q.linkedNames, ∀ b : Bindings,
              (e.2.bind b).get? name = (e₀.2.bind b).get? name := by
  have hcreate : Store.create {} "db" {} = .ok (_, _) := rfl
  refine ⟨_, _, hcreate, ?_⟩
  intro now q r
  have hreached : Store.Reached _ now := .wrote _ (.created hcreate) (admitsOne_created hcreate)
  exact ⟨rfl, hreached.pass_probed (.linksTo 7 _ (.mapTags _ (.ofList _))) _⟩

/-- Between two quads of one node, being asked for a quad of another node changes what the name of
linked nodes is bound to: the second quad comes with the other node. -/
theorem stale_link : ∃ (store : Store) (disk : Disk),
    Store.create {} "db" {} = .ok (store, disk) ∧
      let one := store.after disk (.add {} ⟨"alice", "follows", "bob", ""⟩)
      let two := store.after one (.add {} ⟨"alice", "follows", "carol", ""⟩)
      let now := store.after two (.add {} ⟨"dave", "follows", "bob", ""⟩)
      let q := Query.linksTo store.handle 7
        ((Query.ofList [.node ⟨1⟩, .node ⟨5⟩]).mapTags (·.add "x")) .subject
      let first := (q.next now).2
      let plain := first.next now
      let probed := (first.contains now (.quad ⟨⟨5⟩, ⟨2⟩, ⟨3⟩, ⟨0⟩⟩)).2.next now
      store.Reached now ∧ q.Built store.handle ∧
        plain.1 = .ok (some (.quad ⟨⟨1⟩, ⟨2⟩, ⟨4⟩, ⟨0⟩⟩)) ∧ probed.1 = plain.1 ∧
          (plain.2.bind ∅).get? "x" = some (.node ⟨1⟩) ∧
            (probed.2.bind ∅).get? "x" = some (.node ⟨5⟩) := by
  have hcreate : Store.create {} "db" {} = .ok (_, _) := rfl
  refine ⟨_, _, hcreate, ?_⟩
  intro one two now q first plain probed
  have hone : Store.Reached _ one := .wrote _ (.created hcreate) (admitsOne_created hcreate)
  have htwo : Store.Reached _ two := .wrote _ hone (admitsOne_of_hasRoom (by decide +kernel))
  have hnow : Store.Reached _ now := .wrote _ htwo (admitsOne_of_hasRoom (by decide +kernel))
  refine ⟨hnow, .linksTo 7 _ (.mapTags _ (.ofList _)), ?_⟩
  decide +kernel

end Store

end GraphStore
