import GraphStore.Proofs.Consistency
import GraphStore.Writer

/-!
# Runs of writes

* `WriteCall`, `Store.after` : one call, and the disk after it, whatever it answered;
* `Store.Admits` : no counter is at its limit when the call moves it;
* `Store.Reached` : a disk after any number of calls on a store that was created empty;
* `Store.apply_of_valid` : a write, told by the contents before it;
* `Store.Settles` : what a call that writes one quad leaves;
* `Store.Later` : a disk after any number of further calls;
* `Disk.Transacted` : a disk after any transactions, each committed or aborted;
* `Store.Reached.sound` : the contents are sound after every run.
-/

namespace GraphStore

variable {store : Store} {disk disk' : Disk} {handle : Handle} {c c' : Contents} {q : Quad}
  {kind : ChangeKind} {tick : Bool} {path : String} {config : Config}

/-! ## Committed contents -/

theorem Disk.take_eq_ok_iff {snapshot : Snapshot} : disk.take handle = .ok snapshot ↔
    snapshot.handle = handle ∧ disk.isClosed handle = false ∧
      disk.files.get? handle.location = some (.store snapshot.contents) := by
  obtain ⟨handle', contents⟩ := snapshot
  unfold Disk.take Disk.snapshot
  cases disk.isClosed handle with
  | true =>
    refine ⟨fun h => ?_, fun h => ?_⟩
    · cases h
    · cases h.2.1
  | false =>
    rw [if_neg (by decide)]
    rcases disk.files.get? handle.location with _ | (c | _ | _)
    all_goals simp [Except.mapError]
    exact fun _ => eq_comm

theorem Disk.view_eq_ok_iff : disk.view handle = .ok c ↔
    disk.isClosed handle = false ∧ disk.files.get? handle.location = some (.store c) := by
  unfold Disk.view
  cases h : disk.take handle with
  | ok snapshot =>
    obtain ⟨-, hopen, hfile⟩ := Disk.take_eq_ok_iff.1 h
    simp [Except.map, hopen, hfile]
  | error error =>
    refine ⟨nofun, fun hview => ?_⟩
    have htake : disk.take handle = .ok ⟨handle, c⟩ := Disk.take_eq_ok_iff.2 ⟨rfl, hview⟩
    rw [htake] at h
    cases h

theorem Disk.take_of_view (h : disk.view handle = .ok c) : disk.take handle = .ok ⟨handle, c⟩ :=
  Disk.take_eq_ok_iff.2 ⟨rfl, Disk.view_eq_ok_iff.1 h⟩

theorem Disk.beginWrite_of_view (h : disk.view handle = .ok c) :
    disk.beginWrite handle = .ok ⟨handle, c⟩ := by
  obtain ⟨hopen, hfile⟩ := Disk.view_eq_ok_iff.1 h
  unfold Disk.beginWrite Disk.snapshot
  rw [hopen, hfile]
  rfl

theorem Disk.view_commit (h : disk.view handle = .ok c) (c' : Contents) :
    (disk.commit ⟨handle, c'⟩).view handle = .ok c' := by
  refine Disk.view_eq_ok_iff.2 ⟨(Disk.view_eq_ok_iff.1 h).1, ?_⟩
  unfold Disk.commit FileTree.put FileTree.get?
  simp only
  rw [Table.get?_insert, if_pos rfl]

/-- `disk'` is `disk` after any transactions, each of which changes the contents as `Changes` tells, and is
committed or aborted. -/
inductive Disk.Transacted (Changes : Contents → Contents → Prop) (handle : Handle) (disk : Disk) :
    Disk → Prop
  | start : Transacted Changes handle disk disk
  | committed {disk' : Disk} {txn : Transaction} {c' : Contents} :
      Transacted Changes handle disk disk' → disk'.beginWrite handle = .ok txn →
        Changes txn.contents c' →
          Transacted Changes handle disk (disk'.commit { txn with contents := c' })
  | aborted {disk' : Disk} {txn : Transaction} {c' : Contents} :
      Transacted Changes handle disk disk' → disk'.beginWrite handle = .ok txn →
        Changes txn.contents c' → Transacted Changes handle disk disk'

/-- What every change keeps, holds of all committed contents. -/
theorem Disk.Transacted.keeps {P : Contents → Prop} {Changes : Contents → Contents → Prop}
    (h : Transacted Changes handle disk disk') (hview : disk.view handle = .ok c) (hc : P c)
    (hkeeps : ∀ c c', P c → Changes c c' → P c') : ∃ c', disk'.view handle = .ok c' ∧ P c' := by
  induction h with
  | start => exact ⟨c, hview, hc⟩
  | committed _ hbegin hchanges ih =>
    obtain ⟨c₁, hview₁, hc₁⟩ := ih
    rw [Disk.beginWrite_of_view hview₁] at hbegin
    cases hbegin
    exact ⟨_, Disk.view_commit hview₁ _, hkeeps _ _ hc₁ hchanges⟩
  | aborted _ _ _ ih => exact ih

theorem Store.view_create (h : Store.create disk path config = .ok (store, disk')) :
    disk'.view store.handle = .ok {} := by
  unfold Store.create Disk.createFile at h
  cases hplace : disk.files.locate? path with
  | none =>
    rw [hplace] at h
    cases h
  | some place =>
    rw [hplace] at h
    simp only at h
    split at h
    · cases h
    · cases h
      refine Disk.view_eq_ok_iff.2 ⟨?_, ?_⟩
      · simp [Disk.isClosed]
      · simp [FileTree.put, FileTree.get?]

/-! ## One write -/

namespace Store

def settle (store : Store) (disk : Disk) : Change × Contents → Disk
  | (.rolledBack, _) => disk
  | (_, c) => disk.commit ⟨store.handle, c⟩

theorem apply_of_not_valid (h : q.isValid = false) :
    store.apply disk kind q tick = .error (.invalidQuad q) := by
  unfold apply
  rw [h]
  rfl

theorem apply_of_valid (hview : disk.view store.handle = .ok c) (hvalid : q.isValid = true) :
    store.apply disk kind q tick = match c.apply kind q tick with
      | .error corruption => .error (.corrupt corruption)
      | .ok r => .ok (r.1, store.settle disk r) := by
  unfold apply
  rw [hvalid, Disk.beginWrite_of_view hview]
  simp only [Bool.not_true, Except.mapError, bind, Except.bind]
  rcases c.apply kind q tick with corruption | ⟨_ | _ | _, c'⟩ <;> rfl

theorem apply_eq (hview : disk.view store.handle = .ok c) (hvalid : q.isValid = true)
    {r : Change × Contents} (h : c.apply kind q tick = .ok r) :
    store.apply disk kind q tick = .ok (r.1, store.settle disk r) := by
  rw [apply_of_valid hview hvalid, h]

/-- A write is refused, or comes to what it makes of the contents before it. -/
theorem apply_cases (hview : disk.view store.handle = .ok c) :
    (∃ error, store.apply disk kind q tick = .error error) ∨
      ∃ r, q.isValid = true ∧ c.apply kind q tick = .ok r ∧
        store.apply disk kind q tick = .ok (r.1, store.settle disk r) := by
  cases hvalid : q.isValid with
  | false => exact .inl ⟨_, apply_of_not_valid hvalid⟩
  | true =>
    rw [apply_of_valid hview hvalid]
    cases c.apply kind q tick with
    | error corruption => exact .inl ⟨_, rfl⟩
    | ok r => exact .inr ⟨r, rfl, rfl, rfl⟩

def settled (c : Contents) : Change × Contents → Contents
  | (.rolledBack, _) => c
  | (_, c') => c'

theorem view_settled (hview : disk.view store.handle = .ok c) (r : Change × Contents) :
    (store.settle disk r).view store.handle = .ok (settled c r) := by
  obtain ⟨_ | _ | _, c'⟩ := r
  · exact Disk.view_commit hview c'
  · exact Disk.view_commit hview c'
  · exact hview

theorem view_settle (hview : disk.view store.handle = .ok c)
    (h : Contents.Wrote c q tick kind change c') :
    (store.settle disk (change, c')).view store.handle = .ok c' := by
  rw [view_settled hview]
  cases h <;> rfl

/-! ## Calls -/

inductive WriteCall where
  | add (options : WriteOptions) (q : Quad)
  | remove (options : WriteOptions) (q : Quad)
  | addAll (options : WriteOptions) (quads : List Quad)

/-- The disk that a call leaves: the one it answers, or the old one. -/
def answered {ε α : Type} (disk : Disk) : Except ε (α × Disk) → Disk
  | .ok (_, disk') => disk'
  | .error _ => disk

def after (store : Store) (disk : Disk) : WriteCall → Disk
  | .add options q => answered disk (store.add disk options q)
  | .remove options q => answered disk (store.remove disk options q)
  | .addAll options quads => (store.addAll disk options quads).2

/-- A write of one quad finds no counter at its limit, past which the 64-bit counters wrap. -/
def AdmitsOne (store : Store) (disk : Disk) (kind : ChangeKind) (q : Quad) : Prop :=
  q.isValid = true → ∀ c, disk.view store.handle = .ok c → c.Fits kind q

def AdmitsAll (store : Store) (options : WriteOptions) : Disk → List Quad → Prop
  | _, [] => True
  | disk, q :: rest => store.AdmitsOne disk .add q ∧
      ∀ outcome disk', store.add disk options q = .ok (outcome, disk') →
        store.AdmitsAll options disk' rest

/-- A call finds no counter at its limit. -/
def Admits (store : Store) (disk : Disk) : WriteCall → Prop
  | .add _ q => store.AdmitsOne disk .add q
  | .remove _ q => store.AdmitsOne disk .remove q
  | .addAll options quads => store.AdmitsAll options disk quads

/-- A disk after any number of calls on a store that was created empty. -/
inductive Reached (store : Store) : Disk → Prop
  | created {disk₀ disk : Disk} {path : String} {config : Config} :
      Store.create disk₀ path config = .ok (store, disk) → Reached store disk
  | wrote {disk : Disk} (call : WriteCall) :
      Reached store disk → store.Admits disk call → Reached store (store.after disk call)

/-- `disk'` is `disk` after any number of further calls. -/
inductive Later (store : Store) (disk : Disk) : Disk → Prop
  | now : Later store disk disk
  | wrote {disk' : Disk} (call : WriteCall) :
      Later store disk disk' → store.Admits disk' call → Later store disk (store.after disk' call)

/-! ## What calls answer -/

def addAnswer (q : Quad) : Change × Disk → Except WriteError (AddOutcome × Disk)
  | (.applied h, disk) => .ok (.added h, disk)
  | (.noop h, disk) => .ok (.duplicate h, disk)
  | (.rolledBack, _) => .error (.duplicate q)

def removeAnswer (q : Quad) : Change × Disk → Except WriteError (RemoveOutcome × Disk)
  | (.applied h, disk) => .ok (.removed h, disk)
  | (.noop h, disk) => .ok (.missing h, disk)
  | (.rolledBack, _) => .error (.missing q)

theorem add_of_apply {options : WriteOptions} {r : Change × Disk}
    (h : store.apply disk .add q options.ignoreDuplicate = .ok r) :
    store.add disk options q = addAnswer q r := by
  unfold add
  rw [h]
  obtain ⟨_ | _ | _, _⟩ := r <;> rfl

theorem remove_of_apply {options : WriteOptions} {r : Change × Disk}
    (h : store.apply disk .remove q options.ignoreMissing = .ok r) :
    store.remove disk options q = removeAnswer q r := by
  unfold remove
  rw [h]
  obtain ⟨_ | _ | _, _⟩ := r <;> rfl

theorem add_of_error {options : WriteOptions} {error : StoreError}
    (h : store.apply disk .add q options.ignoreDuplicate = .error error) :
    store.add disk options q = .error (.apply q error) := by
  unfold add
  rw [h]

theorem remove_of_error {options : WriteOptions} {error : StoreError}
    (h : store.apply disk .remove q options.ignoreMissing = .error error) :
    store.remove disk options q = .error (.apply q error) := by
  unfold remove
  rw [h]

theorem add_of_not_valid (options : WriteOptions) (h : q.isValid = false) :
    store.add disk options q = .error (.apply q (.invalidQuad q)) :=
  add_of_error (apply_of_not_valid h)

theorem remove_of_not_valid (options : WriteOptions) (h : q.isValid = false) :
    store.remove disk options q = .error (.apply q (.invalidQuad q)) :=
  remove_of_error (apply_of_not_valid h)

theorem answered_addAnswer (disk : Disk) (r : Change × Contents) :
    answered disk (addAnswer q (r.1, store.settle disk r)) = store.settle disk r := by
  obtain ⟨_ | _ | _, _⟩ := r <;> rfl

theorem answered_removeAnswer (disk : Disk) (r : Change × Contents) :
    answered disk (removeAnswer q (r.1, store.settle disk r)) = store.settle disk r := by
  obtain ⟨_ | _ | _, _⟩ := r <;> rfl

/-- What a call that writes one quad leaves: the disk as it was, or with what the write came to. -/
inductive Settles (store : Store) (disk : Disk) (c : Contents) (kind : ChangeKind) (q : Quad)
    (tick : Bool) : Disk → Prop
  | refused : Settles store disk c kind q tick disk
  | wrote {r : Change × Contents} : q.isValid = true → c.apply kind q tick = .ok r →
      Settles store disk c kind q tick (store.settle disk r)

theorem settles_add (hview : disk.view store.handle = .ok c) (options : WriteOptions) (q : Quad) :
    store.Settles disk c .add q options.ignoreDuplicate
      (answered disk (store.add disk options q)) := by
  rcases apply_cases hview with ⟨error, happly⟩ | ⟨r, hvalid, hr, happly⟩
  · rw [add_of_error happly]
    exact .refused
  · rw [add_of_apply happly, answered_addAnswer]
    exact .wrote hvalid hr

theorem settles_remove (hview : disk.view store.handle = .ok c) (options : WriteOptions)
    (q : Quad) :
    store.Settles disk c .remove q options.ignoreMissing
      (answered disk (store.remove disk options q)) := by
  rcases apply_cases hview with ⟨error, happly⟩ | ⟨r, hvalid, hr, happly⟩
  · rw [remove_of_error happly]
    exact .refused
  · rw [remove_of_apply happly, answered_removeAnswer]
    exact .wrote hvalid hr

/-! ## What calls keep -/

theorem Settles.view (h : store.Settles disk c kind q tick disk')
    (hview : disk.view store.handle = .ok c) : ∃ c', disk'.view store.handle = .ok c' := by
  cases h with
  | refused => exact ⟨c, hview⟩
  | wrote => exact ⟨_, view_settled hview _⟩

/-- Whatever a call writes, the store stays readable. -/
theorem view_after (hview : disk.view store.handle = .ok c) (call : WriteCall) :
    ∃ c', (store.after disk call).view store.handle = .ok c' := by
  cases call with
  | add options q => exact (settles_add hview options q).view hview
  | remove options q => exact (settles_remove hview options q).view hview
  | addAll options quads =>
    suffices h : ∀ done, ∃ c', (store.addAllFrom options done disk quads).2.view store.handle =
      .ok c' from h []
    induction quads generalizing disk c with
    | nil => exact fun _ => ⟨c, hview⟩
    | cons q rest ih =>
      intro done
      have hstep := (settles_add hview options q).view hview
      unfold Store.addAllFrom
      cases hq : store.add disk options q with
      | ok answer =>
        rw [hq] at hstep
        obtain ⟨c', hview'⟩ := hstep
        exact ih hview' _
      | error error => exact ⟨c, hview⟩

/-- The disk holds sound contents of the store. -/
def SoundOn (store : Store) (disk : Disk) : Prop :=
  ∃ c, disk.view store.handle = .ok c ∧ c.Sound

theorem Settles.sound (h : store.Settles disk c kind q tick disk')
    (hview : disk.view store.handle = .ok c) (hc : c.Sound)
    (hfits : q.isValid = true → c.Fits kind q) : store.SoundOn disk' := by
  cases h with
  | refused => exact ⟨c, hview, hc⟩
  | wrote hvalid happly =>
    obtain ⟨change, c', happly', hwrote, hc'⟩ := hc.apply hvalid (hfits hvalid) tick
    rw [happly'] at happly
    cases happly
    exact ⟨c', view_settle hview hwrote, hc'⟩

theorem SoundOn.add (h : store.SoundOn disk) (options : WriteOptions)
    (hadmits : store.AdmitsOne disk .add q) :
    store.SoundOn (answered disk (store.add disk options q)) := by
  obtain ⟨c, hview, hc⟩ := h
  exact (settles_add hview options q).sound hview hc fun hvalid => hadmits hvalid c hview

theorem SoundOn.remove (h : store.SoundOn disk) (options : WriteOptions)
    (hadmits : store.AdmitsOne disk .remove q) :
    store.SoundOn (answered disk (store.remove disk options q)) := by
  obtain ⟨c, hview, hc⟩ := h
  exact (settles_remove hview options q).sound hview hc fun hvalid => hadmits hvalid c hview

/-- What each add keeps, a batch keeps, which stops with what it has. -/
theorem addAllFrom_keeps {P : Disk → Prop} {options : WriteOptions} {quads : List Quad}
    (hadd : ∀ disk q, P disk → store.AdmitsOne disk .add q →
      P (answered disk (store.add disk options q)))
    (h : P disk) (hadmits : store.AdmitsAll options disk quads) (done : List AddOutcome) :
    P (store.addAllFrom options done disk quads).2 := by
  induction quads generalizing disk done with
  | nil => exact h
  | cons q rest ih =>
    have hstep := hadd disk q h hadmits.1
    unfold Store.addAllFrom
    cases hq : store.add disk options q with
    | ok answer =>
      obtain ⟨outcome, disk'⟩ := answer
      rw [hq] at hstep
      exact ih hstep (hadmits.2 outcome disk' hq) _
    | error error => exact h

theorem SoundOn.addAllFrom {quads : List Quad} (h : store.SoundOn disk) (options : WriteOptions)
    (hadmits : store.AdmitsAll options disk quads) (done : List AddOutcome) :
    store.SoundOn (store.addAllFrom options done disk quads).2 :=
  addAllFrom_keeps (fun _ _ h hadmits => h.add options hadmits) h hadmits done

theorem SoundOn.after {call : WriteCall} (h : store.SoundOn disk)
    (hadmits : store.Admits disk call) : store.SoundOn (store.after disk call) := by
  cases call with
  | add options q => exact h.add options hadmits
  | remove options q => exact h.remove options hadmits
  | addAll options quads => exact h.addAllFrom options hadmits []

theorem Later.sound (h : store.Later disk disk') (hdisk : store.SoundOn disk) :
    store.SoundOn disk' := by
  induction h with
  | now => exact hdisk
  | wrote call _ hadmits ih => exact ih.after hadmits

/-- The contents are sound after every run. -/
theorem Reached.sound (h : store.Reached disk) : store.SoundOn disk := by
  induction h with
  | created hcreate => exact ⟨{}, view_create hcreate, Contents.sound_empty⟩
  | wrote call _ hadmits ih => exact ih.after hadmits

/-- After every run, each table holds what the live quads make of it. -/
theorem Reached.consistent (h : store.Reached disk) :
    ∃ c Q, disk.view store.handle = .ok c ∧ Contents.Consistent c Q := by
  obtain ⟨c, hview, hc⟩ := h.sound
  exact ⟨c, c.liveKeys, hview, hc.consistent_liveKeys⟩

theorem admitsOne_created (h : Store.create disk path config = .ok (store, disk')) :
    store.AdmitsOne disk' kind q := fun _ c hview => by
  rw [view_create h] at hview
  cases hview
  exact ⟨by decide, fun _ => Contents.roomFor_of_lt (by rw [Quad.values, List.length_map]; decide)⟩

/-- Whether the counters are so far from their limits that any write is admitted. -/
def hasRoom (store : Store) (disk : Disk) : Bool :=
  match disk.view store.handle with
  | .ok c => (c.counter .horizon).toNat + 1 < 2 ^ 64 && c.nextId.val.toNat + 4 < 2 ^ 64
  | .error _ => true

theorem admitsOne_of_hasRoom (h : store.hasRoom disk = true) : store.AdmitsOne disk kind q := by
  intro _ c hview
  unfold hasRoom at h
  rw [hview, Bool.and_eq_true, decide_eq_true_eq, decide_eq_true_eq] at h
  refine ⟨h.1, fun _ => Contents.roomFor_of_lt ?_⟩
  rw [Quad.values, List.length_map]
  exact h.2

theorem consistent_first_quad : ∃ (store : Store) (disk : Disk),
    Store.create {} "db" {} = .ok (store, disk) ∧
      ∃ c Q, (store.after disk (.add {} ⟨"alice", "follows", "bob", ""⟩)).view store.handle = .ok c ∧
        Contents.Consistent c Q :=
  have hcreate : Store.create {} "db" {} = .ok (_, _) := rfl
  ⟨_, _, hcreate, Reached.consistent (.wrote (.add {} ⟨"alice", "follows", "bob", ""⟩)
    (.created hcreate) (admitsOne_created hcreate))⟩

end Store

end GraphStore
