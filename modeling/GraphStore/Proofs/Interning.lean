import GraphStore.Proofs.Run

/-!
# Interned values over time

* `Contents.SameNames`, `Contents.Remembers` : contents with the same interned values, and with
  further ones;
* `Contents.Naming.apply` : a write keeps the tables of interned values inverse and forgets none;
* `Store.WriteStep`, `Store.transact` : a write transaction that interns values, or a call;
* `Store.Transacted` : a disk after any number of these, as long as there are ids left;
* `Store.Interning` : what the committed tables say, how lookups read them, and what leaves them;
* `Store.interning_stable` : so it is after any transactions, and no later one changes the id of a
  value.
-/

namespace GraphStore

namespace Contents

variable {c c' c'' : Contents} {q : Quad} {key : QuadKey} {kind : ChangeKind} {tick effect : Bool}

/-! ## What changes the tables -/

/-- `c'` has the interned values of `c`, and no others. -/
structure SameNames (c c' : Contents) : Prop where
  ids : c'.ids = c.ids
  names : c'.names = c.names
  nextId : c'.counter .nextId = c.counter .nextId

namespace SameNames

theorem refl (c : Contents) : SameNames c c := ⟨rfl, rfl, rfl⟩

theorem trans (h : SameNames c c') (h' : SameNames c' c'') : SameNames c c'' :=
  ⟨h'.ids.trans h.ids, h'.names.trans h.names, h'.nextId.trans h.nextId⟩

theorem setCounter {i : Counter} (hi : i ≠ .nextId) (c : Contents) (n : UInt64) :
    SameNames c (c.setCounter i n) :=
  ⟨rfl, rfl, by rw [counter_setCounter, if_neg hi.symm]⟩

theorem naming (h : SameNames c c') (hc : Naming c) : Naming c' := hc.congr h.ids h.names h.nextId

end SameNames

theorem sameNames_record (c : Contents) (key : QuadKey) (h : Horizon) :
    SameNames c (c.record key h).2 := by
  unfold record
  split <;> exact ⟨rfl, rfl, rfl⟩

theorem sameNames_forget (c : Contents) (key : QuadKey) : SameNames c (c.forget key).2 := by
  unfold forget
  split <;> exact ⟨rfl, rfl, rfl⟩

/-- What the change of each index keeps, changing all of them keeps. -/
theorem forIndexes_keeps {R : Contents → Contents → Prop} (hrefl : ∀ c, R c c)
    (htrans : ∀ c₁ c₂ c₃, R c₁ c₂ → R c₂ c₃ → R c₁ c₃)
    {change : Contents → Index → Bool × Contents} (h : ∀ c index, R c (change c index).2)
    (indexes : List Index) (c : Contents) : R c (forIndexes change indexes c).2 := by
  induction indexes generalizing c with
  | nil => exact hrefl c
  | cons index rest ih => exact htrans _ _ _ (h c index) (ih (change c index).2)

theorem sameNames_addEntries (c : Contents) (key : QuadKey) : SameNames c (c.addEntries key).2 := by
  refine forIndexes_keeps .refl (fun _ _ _ h h' => h.trans h') (fun c index => ?_) Index.all c
  unfold addEntry
  split <;> exact ⟨rfl, rfl, rfl⟩

theorem sameNames_removeEntries (c : Contents) (key : QuadKey) :
    SameNames c (c.removeEntries key).2 := by
  refine forIndexes_keeps .refl (fun _ _ _ h h' => h.trans h') (fun c index => ?_) Index.all c
  unfold removeEntry
  split <;> exact ⟨rfl, rfl, rfl⟩

theorem sameNames_shiftMembers (c : Contents) (key : QuadKey) (distance : Int) :
    SameNames c (c.shiftMembers key distance) := by
  refine ⟨?_, ?_, counter_shiftMembers (by decide) c key distance⟩
  all_goals rw [shiftMembers_eq]

/-- Adding a quad interns its values, and no others. -/
theorem sameNames_addQuad {h : Horizon} (hadd : c.addQuad q h = .ok (effect, c')) :
    SameNames (c.internQuad q).2 c' := by
  unfold addQuad at hadd
  simp only at hadd
  have hrecord := sameNames_record (c.internQuad q).2 (c.internQuad q).1 h
  split at hadd
  · next hr =>
    cases hadd
    rwa [hr] at hrecord
  · next c₁ hr =>
    rw [hr] at hrecord
    split at hadd
    · cases hadd
      exact ((hrecord.trans (sameNames_addEntries c₁ _)).trans (sameNames_shiftMembers _ _ _)).trans
        (.setCounter (by decide) _ _)
    · cases hadd

theorem sameNames_removeQuad (hremove : c.removeQuad q = .ok (effect, c')) : SameNames c c' := by
  unfold removeQuad at hremove
  split at hremove
  · cases hremove
    exact .refl c
  · next key _ =>
    have hforget := sameNames_forget c key
    split at hremove
    · next hr =>
      cases hremove
      rwa [hr] at hforget
    · next c₁ hr =>
      rw [hr] at hforget
      simp only at hremove
      split at hremove
      · cases hremove
        exact ((hforget.trans (sameNames_removeEntries c₁ _)).trans
          (sameNames_shiftMembers _ _ _)).trans (.setCounter (by decide) _ _)
      · cases hremove

/-! ## Contents that remember -/

/-- What is interned in `c` is interned in `c'`, under the same id. -/
structure Remembers (c c' : Contents) : Prop where
  ids : ∀ v id, c.ids.get? v = some id → c'.ids.get? v = some id
  names : ∀ id v, c.names.get? id = some v → c'.names.get? id = some v

namespace Remembers

theorem refl (c : Contents) : Remembers c c := ⟨fun _ _ h => h, fun _ _ h => h⟩

theorem trans (h : Remembers c c') (h' : Remembers c' c'') : Remembers c c'' :=
  ⟨fun v id hv => h'.ids v id (h.ids v id hv), fun id v hid => h'.names id v (h.names id v hid)⟩

end Remembers

theorem Interns.remembers (h : Interns c c') : Remembers c c' := ⟨h.ids, h.names⟩

theorem SameNames.remembers (h : SameNames c c') : Remembers c c' :=
  ⟨fun _ _ hv => by rwa [h.ids], fun _ _ hid => by rwa [h.names]⟩

def internAll (c : Contents) (values : List String) : Contents :=
  values.foldl (fun c v => (c.intern v).2) c

theorem Naming.internAll {values : List String} (h : Naming c) (hroom : c.RoomFor values) :
    Naming (c.internAll values) ∧ Remembers c (c.internAll values) := by
  induction values generalizing c with
  | nil => exact ⟨h, .refl c⟩
  | cons v rest ih =>
    obtain ⟨hnaming, hrest⟩ := ih (h.intern hroom.1) hroom.2
    exact ⟨hnaming, (h.interns v).remembers.trans hrest⟩

/-- The ids of values are those from 1 below the counter, none if that was never moved. -/
theorem Naming.assigned_iff (h : Naming c) (id : NodeId) :
    (∃ v, c.ids.get? v = some id) ↔ 0 < id.val ∧ id.val < c.counter .nextId := by
  have hassigned := h.assigned id
  simp only [Option.isSome_iff_exists, ← h.inverse] at hassigned
  rw [hassigned]
  simp only [UInt64.lt_iff_toNat_lt, nextId_toNat, UInt64.toNat_zero]
  omega

/-- A write leaves the contents it found, or what it attempted and a horizon. -/
theorem settled_of_apply {r : Change × Contents} (h : c.apply kind q tick = .ok r) :
    Store.settled c r = c ∨
      ∃ effect c', c.attempt kind q = .ok (effect, c') ∧ SameNames c' (Store.settled c r) := by
  cases hattempt : c.attempt kind q with
  | error corruption =>
    rw [apply_eq_attempt, hattempt] at h
    cases h
  | ok attempted =>
    obtain ⟨effect, c'⟩ := attempted
    rw [apply_of_attempt hattempt] at h
    have hclock : SameNames c' (c'.setCounter .horizon c.nextHorizon.val) :=
      .setCounter (by decide) c' _
    cases effect with
    | true =>
      cases h
      exact .inr ⟨true, c', rfl, hclock⟩
    | false =>
      cases tick with
      | true =>
        cases h
        exact .inr ⟨false, c', rfl, hclock⟩
      | false =>
        cases h
        exact .inl rfl

theorem sameNames_apply_remove {r : Change × Contents} (h : c.apply .remove q tick = .ok r) :
    SameNames c (Store.settled c r) := by
  rcases settled_of_apply h with hsame | ⟨effect, c', hremove, hnames⟩
  · rw [hsame]
    exact .refl c
  · exact (sameNames_removeQuad hremove).trans hnames

/-- A write keeps the tables of interned values inverse, and forgets no value. -/
theorem Naming.apply {r : Change × Contents} (hc : Naming c)
    (hroom : kind = .add → c.RoomFor q.values) (h : c.apply kind q tick = .ok r) :
    Naming (Store.settled c r) ∧ Remembers c (Store.settled c r) := by
  cases kind with
  | remove =>
    have hnames := sameNames_apply_remove h
    exact ⟨hnames.naming hc, hnames.remembers⟩
  | add =>
    rcases settled_of_apply h with hsame | ⟨effect, c', hadd, hnames⟩
    · rw [hsame]
      exact ⟨hc, .refl c⟩
    · obtain ⟨hnaming, hinterns, -⟩ := hc.internQuad (hroom rfl)
      have hrest := (sameNames_addQuad hadd).trans hnames
      exact ⟨hrest.naming hnaming, hinterns.remembers.trans hrest.remembers⟩

end Contents

/-! ## Transactions -/

namespace Store

variable {store : Store} {disk disk₀ disk' created later : Disk} {c c' : Contents} {q : Quad}
  {kind : ChangeKind} {tick : Bool} {path : String} {config : Config}

/-- A write transaction that interns values and is then committed or aborted, or the transactions of a
call, one for each quad. -/
inductive WriteStep where
  | intern (values : List String) (commits : Bool)
  | call (call : WriteCall)

/-- The disk after a step. What was interned is thrown away with an aborted transaction. -/
def transact (store : Store) (disk : Disk) : WriteStep → Disk
  | .intern values commits =>
    match disk.beginWrite store.handle with
    | .ok txn =>
      if commits then disk.commit { txn with contents := txn.contents.internAll values } else disk
    | .error _ => disk
  | .call call => store.after disk call

/-- There are ids left for values, past which the 64-bit counter of ids wraps. -/
def RoomFor (store : Store) (disk : Disk) (values : List String) : Prop :=
  ∀ c, disk.view store.handle = .ok c → c.RoomFor values

def RoomForAll (store : Store) (options : WriteOptions) : Disk → List Quad → Prop
  | _, [] => True
  | disk, q :: rest => (q.isValid = true → store.RoomFor disk q.values) ∧
      ∀ outcome disk', store.add disk options q = .ok (outcome, disk') →
        store.RoomForAll options disk' rest

def HasRoom (store : Store) (disk : Disk) : WriteStep → Prop
  | .intern values commits => commits = true → store.RoomFor disk values
  | .call (.add _ q) => q.isValid = true → store.RoomFor disk q.values
  | .call (.remove _ _) => True
  | .call (.addAll options quads) => store.RoomForAll options disk quads

/-- `disk'` is `disk` after any number of steps. -/
inductive Transacted (store : Store) (disk : Disk) : Disk → Prop
  | now : Transacted store disk disk
  | next {disk' : Disk} (step : WriteStep) :
      Transacted store disk disk' → store.HasRoom disk' step →
        Transacted store disk (store.transact disk' step)

/-- `disk` holds contents with inverse tables that remember what `c` has interned. -/
def KeepsNames (store : Store) (c : Contents) (disk : Disk) : Prop :=
  ∃ c', disk.view store.handle = .ok c' ∧ c'.Naming ∧ c.Remembers c'

namespace KeepsNames

theorem trans (h : store.KeepsNames c disk)
    (hstep : ∀ c', disk.view store.handle = .ok c' → c'.Naming → store.KeepsNames c' disk') :
    store.KeepsNames c disk' := by
  obtain ⟨c', hview, hc', hremembers⟩ := h
  obtain ⟨c'', hview', hc'', hremembers'⟩ := hstep c' hview hc'
  exact ⟨c'', hview', hc'', hremembers.trans hremembers'⟩

theorem of_settles (h : store.Settles disk c kind q tick disk')
    (hview : disk.view store.handle = .ok c) (hc : c.Naming)
    (hroom : kind = .add → q.isValid = true → c.RoomFor q.values) : store.KeepsNames c disk' := by
  cases h with
  | refused => exact ⟨c, hview, hc, .refl c⟩
  | wrote hvalid happly =>
    exact ⟨_, view_settled hview _, hc.apply (fun hkind => hroom hkind hvalid) happly⟩

theorem add (hview : disk.view store.handle = .ok c) (hc : c.Naming) (options : WriteOptions)
    (hroom : q.isValid = true → store.RoomFor disk q.values) :
    store.KeepsNames c (answered disk (store.add disk options q)) :=
  of_settles (settles_add hview options q) hview hc fun _ hvalid => hroom hvalid c hview

theorem addAllFrom {quads : List Quad} (hview : disk.view store.handle = .ok c) (hc : c.Naming)
    (options : WriteOptions) (hroom : store.RoomForAll options disk quads)
    (done : List AddOutcome) :
    store.KeepsNames c (store.addAllFrom options done disk quads).2 := by
  induction quads generalizing disk c done with
  | nil => exact ⟨c, hview, hc, .refl c⟩
  | cons q rest ih =>
    have hstep := add hview hc options hroom.1
    unfold Store.addAllFrom
    cases hadd : store.add disk options q with
    | ok answer =>
      obtain ⟨outcome, disk'⟩ := answer
      rw [hadd] at hstep
      exact hstep.trans fun c' hview' hc' => ih hview' hc' (hroom.2 outcome disk' hadd) _
    | error error => exact ⟨c, hview, hc, .refl c⟩

/-- No step changes or drops the id of a value. -/
theorem transact {step : WriteStep} (hview : disk.view store.handle = .ok c) (hc : c.Naming)
    (hroom : store.HasRoom disk step) : store.KeepsNames c (store.transact disk step) := by
  match step, hroom with
  | .intern values commits, hroom =>
    unfold Store.transact
    rw [Disk.beginWrite_of_view hview]
    cases commits with
    | true => exact ⟨_, Disk.view_commit hview _, hc.internAll (hroom rfl c hview)⟩
    | false => exact ⟨c, hview, hc, .refl c⟩
  | .call (.add options q), hroom => exact add hview hc options hroom
  | .call (.addAll options quads), hroom => exact addAllFrom hview hc options hroom []
  | .call (.remove options q), _ =>
    exact of_settles (settles_remove hview options q) hview hc (by rintro ⟨⟩)

end KeepsNames

theorem Transacted.keeps (h : store.Transacted disk disk') (hview : disk.view store.handle = .ok c)
    (hc : c.Naming) : store.KeepsNames c disk' := by
  induction h with
  | now => exact ⟨c, hview, hc, .refl c⟩
  | next step _ hroom ih => exact ih.trans fun c' hview' hc' => .transact hview' hc' hroom

/-! ## The tables of a committed state -/

/-- The tables of interned values in the committed contents of a disk, how the lookups of the store
read them, and which transactions leave them as they are. -/
structure Interning (store : Store) (disk : Disk) (c : Contents) : Prop where
  inverse : ∀ v id, c.ids.get? v = some id ↔ c.names.get? id = some v
  assigned : ∀ id, (∃ v, c.ids.get? v = some id) ↔ 0 < id.val ∧ id.val < c.counter .nextId
  nonempty : c.ids.get? "" = none
  idOf_nameOf : ∀ id, id = .blank ∨ 0 < id.val ∧ id.val < c.counter .nextId →
    (store.nameOf disk id >>= store.idOf disk) = .ok id
  nameOf_idOf : ∀ v, v = "" ∨ (∃ id, c.ids.get? v = some id) →
    (store.idOf disk v >>= store.nameOf disk) = .ok v
  aborted : ∀ values,
    (store.transact disk (.intern values false)).view store.handle = .ok c
  refused : ∀ options q error, store.add disk options q = .error error →
    (store.transact disk (.call (.add options q))).view store.handle = .ok c
  removed : ∀ options q, ∃ c',
    (store.transact disk (.call (.remove options q))).view store.handle = .ok c' ∧
      c.SameNames c'

theorem idOf_eq_ok_iff (hview : disk.view store.handle = .ok c) {v : String} {id : NodeId} :
    store.idOf disk v = .ok id ↔ c.idOf? v = some id := by
  unfold idOf
  rw [hview]
  simp only [bind, Except.bind]
  cases c.idOf? v with
  | some found => simp [pure, Except.pure]
  | none => simp [throw, throwThe, MonadExceptOf.throw]

theorem nameOf_eq_ok_iff (hview : disk.view store.handle = .ok c) {v : String} {id : NodeId} :
    store.nameOf disk id = .ok v ↔ c.nameOf? id = some v := by
  unfold nameOf
  rw [hview]
  change nameIn c id = .ok v ↔ _
  unfold nameIn
  cases c.nameOf? id <;> simp

theorem Settles.sameNames (h : store.Settles disk c .remove q tick disk')
    (hview : disk.view store.handle = .ok c) :
    ∃ c', disk'.view store.handle = .ok c' ∧ c.SameNames c' := by
  cases h with
  | refused => exact ⟨c, hview, .refl c⟩
  | wrote _ happly => exact ⟨_, view_settled hview _, Contents.sameNames_apply_remove happly⟩

/-- What holds of the tables at any time, and of the store that reads them. -/
theorem interning (hview : disk.view store.handle = .ok c) (hc : c.Naming) :
    store.Interning disk c where
  inverse := hc.inverse
  assigned := hc.assigned_iff
  nonempty := hc.nonempty
  idOf_nameOf id hid := by
    obtain ⟨v, hv⟩ : ∃ v, c.nameOf? id = some v := by
      unfold Contents.nameOf?
      rcases hid with rfl | hid
      · exact ⟨"", rfl⟩
      · obtain ⟨v, hv⟩ := (hc.assigned_iff id).2 hid
        rw [if_neg fun e => absurd (NodeId.isBlank_iff.1 e ▸ hid.1) (by decide)]
        exact ⟨v, (hc.inverse v id).1 hv⟩
    rw [(nameOf_eq_ok_iff hview).2 hv]
    exact (idOf_eq_ok_iff hview).2 (hc.idOf?_eq_some_iff.2 hv)
  nameOf_idOf v hv := by
    obtain ⟨id, hid⟩ : ∃ id, c.idOf? v = some id := by
      unfold Contents.idOf?
      split
      · exact ⟨_, rfl⟩
      · exact hv.resolve_left ‹_›
    rw [(idOf_eq_ok_iff hview).2 hid]
    exact (nameOf_eq_ok_iff hview).2 (hc.idOf?_eq_some_iff.1 hid)
  aborted values := by
    unfold transact
    rw [Disk.beginWrite_of_view hview]
    exact hview
  refused options q error herror := by
    change (answered disk (store.add disk options q)).view store.handle = .ok c
    rw [herror]
    exact hview
  removed options q := (settles_remove hview options q).sameNames hview

/-- After any write transactions the tables of interned values are inverse, with the ids from 1
below the next one; whatever is interned then keeps its id after any further ones. -/
theorem interning_stable (hcreate : Store.create disk₀ path config = .ok (store, created))
    (h : store.Transacted created disk) (hlater : store.Transacted disk later) :
    ∃ c c', disk.view store.handle = .ok c ∧ later.view store.handle = .ok c' ∧
      store.Interning disk c ∧ c.Remembers c' := by
  obtain ⟨c, hview, hc, -⟩ := h.keeps (view_create hcreate) Contents.naming_empty
  obtain ⟨c', hview', -, hremembers⟩ := hlater.keeps hview hc
  exact ⟨c, c', hview, hview', interning hview hc, hremembers⟩

/-- The id of a value outlives the last quad that held it. -/
theorem interning_stable_first_quad : ∃ (store : Store) (created : Disk),
    Store.create {} "db" {} = .ok (store, created) ∧
      let disk := store.transact created (.call (.add {} ⟨"alice", "follows", "bob", ""⟩))
      let later := store.transact disk (.call (.remove {} ⟨"alice", "follows", "bob", ""⟩))
      ∃ c c', disk.view store.handle = .ok c ∧ later.view store.handle = .ok c' ∧
        store.Interning disk c ∧ c.Remembers c' := by
  have hcreate : Store.create {} "db" {} = .ok (_, _) := rfl
  refine ⟨_, _, hcreate, interning_stable hcreate (.next _ .now fun _ c hview => ?_)
    (.next _ .now trivial)⟩
  rw [view_create hcreate] at hview
  cases hview
  exact Contents.roomFor_of_lt (by rw [Quad.values, List.length_map]; decide)

end Store

end GraphStore
