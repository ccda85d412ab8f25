import GraphStore.Proofs.Effects
import GraphStore.Proofs.Interning

/-!
# Batches

* `Contents.Carries` : contents with all interned values and live quads of others; adding a quad leaves
  such, and the quad live, whatever the tables held before (`Contents.addQuad_carries`);
* `Store.Adds` : quads added one by one, each on the disk that the one before left;
* `Store.Adds.duplicate_of_holds` : what is live is a duplicate from then on;
* `Store.InTurn`, `Store.Stopped` : what such adds answer, and why the next one fails;
* `Store.addAll_eq_prefix` : a batch comes to its adds up to the first that fails.
-/

namespace GraphStore

namespace Contents

variable {c c' c'' : Contents} {q : Quad} {key : QuadKey} {h : Horizon} {effect tick : Bool}
  {change : Change}

/-! ## What adding keeps -/

/-- `c'` has the interned values of `c`, and its live quads. -/
structure Carries (c c' : Contents) : Prop where
  ids : ∀ v id, c.ids.get? v = some id → c'.ids.get? v = some id
  live : ∀ key, c.isLive key = true → c'.isLive key = true

namespace Carries

theorem refl (c : Contents) : Carries c c := ⟨fun _ _ h => h, fun _ h => h⟩

theorem trans (h : Carries c c') (h' : Carries c' c'') : Carries c c'' :=
  ⟨fun v id hv => h'.ids v id (h.ids v id hv), fun key hkey => h'.live key (h.live key hkey)⟩

theorem of_eq (hids : c'.ids = c.ids) (hquads : c'.quads = c.quads) : Carries c c' := by
  refine ⟨fun v id hv => by rwa [hids], fun key hkey => ?_⟩
  rwa [isLive_eq, hquads]

theorem holds (h : Carries c c') (hq : c.Holds q) : c'.Holds q := by
  obtain ⟨key, hkey, hlive⟩ := hq
  exact ⟨key, keyOf?_mono h.ids hkey, h.live key hlive⟩

end Carries

theorem carries_intern (c : Contents) (v : String) : Carries c (c.intern v).2 := by
  cases hv : c.idOf? v with
  | some id =>
    rw [intern_of_some hv]
    exact .refl c
  | none =>
    have hget : c.ids.get? v = none := by
      unfold idOf? at hv
      split at hv
      · cases hv
      · exact hv
    rw [intern_of_none hv]
    refine ⟨fun w id hw => ?_, fun _ hlive => hlive⟩
    rw [Table.get?_insert, if_neg (fun e => by rw [e, hget] at hw; cases hw), hw]

/-- A quad is interned under its key, even where ids are assigned a second time. -/
theorem carries_internQuad (c : Contents) (q : Quad) :
    Carries c (c.internQuad q).2 ∧ (c.internQuad q).2.keyOf? q = some (c.internQuad q).1 := by
  have h₁ := carries_intern c q.subject
  have h₂ := carries_intern (c.intern q.subject).2 q.predicate
  have h₃ := carries_intern ((c.intern q.subject).2.intern q.predicate).2 q.object
  have h₄ := carries_intern
    (((c.intern q.subject).2.intern q.predicate).2.intern q.object).2 q.label
  refine ⟨((h₁.trans h₂).trans h₃).trans h₄, keyOf?_eq_some_iff_get.2 fun d => ?_⟩
  cases d with
  | subject => exact idOf?_mono ((h₂.trans h₃).trans h₄).ids (idOf?_intern c _)
  | predicate => exact idOf?_mono (h₃.trans h₄).ids (idOf?_intern _ _)
  | object => exact idOf?_mono h₄.ids (idOf?_intern _ _)
  | label => exact idOf?_intern _ _

theorem carries_addEntries (c : Contents) (key : QuadKey) : Carries c (c.addEntries key).2 := by
  refine forIndexes_keeps .refl (fun _ _ _ h h' => h.trans h') (fun c index => ?_) Index.all c
  unfold addEntry
  split <;> exact .of_eq rfl rfl

theorem carries_retain (c : Contents) (key : QuadKey) : Carries c (c.retain key) := by
  unfold retain
  rw [shiftMembers_eq]
  exact .of_eq rfl rfl

theorem carries_setCounter (c : Contents) (i : Counter) (n : UInt64) :
    Carries c (c.setCounter i n) := .of_eq rfl rfl

theorem addQuad_carries (hadd : c.addQuad q h = .ok (effect, c')) : Carries c c' ∧ c'.Holds q := by
  obtain ⟨hinterned, hkey⟩ := carries_internQuad c q
  unfold addQuad record at hadd
  simp only at hadd
  generalize c.internQuad q = interned at hadd hinterned hkey
  obtain ⟨key, c₁⟩ := interned
  simp only at hadd hinterned hkey
  cases hlive : c₁.addedAt? key with
  | some old =>
    simp only [hlive] at hadd
    cases hadd
    exact ⟨hinterned, key, hkey, by rw [isLive, hlive]; rfl⟩
  | none =>
    simp only [hlive] at hadd
    split at hadd
    · cases hadd
      let c₂ : Contents := { c₁ with quads := c₁.quads.insert key.toBytes h }
      have hrecorded : Carries c₁ c₂ := by
        refine ⟨fun _ _ hv => hv, fun k hk => ?_⟩
        rw [isLive_eq] at hk ⊢
        rw [Table.contains_insert, hk, Bool.or_true]
      have hlive₂ : c₂.Holds q := by
        refine ⟨key, hkey, ?_⟩
        rw [isLive_eq, Table.contains_insert, decide_eq_true rfl, Bool.true_or]
      have hrest : Carries c₂ (((c₂.addEntries key).2.retain key).shiftCounter .size 1) :=
        ((carries_addEntries c₂ key).trans (carries_retain _ key)).trans (carries_setCounter _ _ _)
      exact ⟨(hinterned.trans hrecorded).trans hrest, hrest.holds hlive₂⟩
    · cases hadd

/-- A write that adds a quad takes the next horizon, or is rolled back. -/
theorem apply_add_cases (happly : c.apply .add q tick = .ok (change, c')) :
    Carries c c' ∧ (change = .rolledBack ∨
      (change = .applied c.nextHorizon ∨ change = .noop c.nextHorizon) ∧ c'.Holds q ∧
        c'.counter .horizon = c.nextHorizon.val) := by
  cases hattempt : c.attempt .add q with
  | error corruption =>
    rw [apply_eq_attempt, hattempt] at happly
    cases happly
  | ok attempted =>
    obtain ⟨effect, c₁⟩ := attempted
    obtain ⟨hcarries, hholds⟩ := addQuad_carries hattempt
    have hset := carries_setCounter c₁ .horizon c.nextHorizon.val
    have hhorizon : (c₁.setCounter .horizon c.nextHorizon.val).counter .horizon =
        c.nextHorizon.val := by rw [counter_setCounter, if_pos rfl]
    rw [apply_of_attempt hattempt] at happly
    cases effect with
    | true =>
      cases happly
      exact ⟨hcarries.trans hset, .inr ⟨.inl rfl, hset.holds hholds, hhorizon⟩⟩
    | false =>
      cases tick with
      | true =>
        cases happly
        exact ⟨hcarries.trans hset, .inr ⟨.inr rfl, hset.holds hholds, hhorizon⟩⟩
      | false =>
        cases happly
        exact ⟨.refl c, .inl rfl⟩

theorem apply_add_of_holds (hq : c.Holds q) (tick : Bool) : c.apply .add q tick =
    .ok (if tick then (.noop c.nextHorizon, c.setCounter .horizon c.nextHorizon.val)
      else (.rolledBack, c)) := by
  have hattempt : c.attempt .add q = .ok (false, c) := addQuad_of_holds hq _
  exact apply_of_attempt hattempt

theorem val_nextHorizon_add (c : Contents) (n : Nat) :
    c.nextHorizon.val + .ofNat n = c.counter .horizon + .ofNat (n + 1) := by
  rw [Nat.add_comm n, UInt64.ofNat_add, ← UInt64.add_assoc]
  rfl

end Contents

namespace Store

variable {store : Store} {options : WriteOptions} {disk disk' : Disk} {c : Contents} {q : Quad}
  {quads rest before : List Quad} {outcome : AddOutcome} {outcomes : List AddOutcome}
  {cause : WriteError}

/-! ## One add -/

theorem view_of_apply {kind : ChangeKind} {tick : Bool} {r : Change × Disk}
    (h : store.apply disk kind q tick = .ok r) :
    q.isValid = true ∧ ∃ c, disk.view store.handle = .ok c := by
  unfold apply at h
  cases hvalid : q.isValid with
  | false =>
    rw [hvalid] at h
    cases h
  | true =>
    rw [hvalid] at h
    unfold Disk.beginWrite at h
    cases hsnapshot : disk.snapshot store.handle with
    | error error =>
      rw [hsnapshot] at h
      cases error <;> cases h
    | ok snapshot =>
      refine ⟨rfl, snapshot.contents, ?_⟩
      unfold Disk.view Disk.take
      rw [hsnapshot]
      rfl

structure AddOk (store : Store) (disk : Disk) (q : Quad) (outcome : AddOutcome) (disk' : Disk)
    (c c' : Contents) : Prop where
  valid : q.isValid = true
  before : disk.view store.handle = .ok c
  after : disk'.view store.handle = .ok c'
  carries : c.Carries c'
  holds : c'.Holds q
  outcome : outcome.horizon = c.nextHorizon
  horizon : c'.counter .horizon = c.nextHorizon.val

theorem addOk_of_add (h : store.add disk options q = .ok (outcome, disk')) :
    ∃ c c', store.AddOk disk q outcome disk' c c' := by
  cases happly : store.apply disk .add q options.ignoreDuplicate with
  | error error =>
    rw [add_of_error happly] at h
    cases h
  | ok r =>
    obtain ⟨hvalid, c, hview⟩ := view_of_apply happly
    rw [add_of_apply happly] at h
    rw [apply_of_valid hview hvalid] at happly
    cases hr : c.apply .add q options.ignoreDuplicate with
    | error corruption =>
      rw [hr] at happly
      cases happly
    | ok attempted =>
      obtain ⟨change, c'⟩ := attempted
      obtain ⟨hcarries, hchange⟩ := Contents.apply_add_cases hr
      rw [hr] at happly
      cases happly
      have hsettled := view_settled hview (change, c')
      rcases hchange with rfl | ⟨rfl | rfl, hholds, hhorizon⟩
      · cases h
      all_goals
        cases h
        exact ⟨c, c', hvalid, hview, hsettled, hcarries, hholds, rfl, hhorizon⟩

theorem add_of_holds (hvalid : q.isValid = true) (hview : disk.view store.handle = .ok c)
    (hq : c.Holds q) (options : WriteOptions) :
    if options.ignoreDuplicate then
      ∃ disk', store.add disk options q = .ok (.duplicate c.nextHorizon, disk')
    else store.add disk options q = .error (.duplicate q) := by
  have happly := apply_eq hview hvalid (Contents.apply_add_of_holds hq options.ignoreDuplicate)
  rw [add_of_apply happly]
  cases options.ignoreDuplicate with
  | true => exact ⟨_, rfl⟩
  | false => rfl

/-! ## Adds one by one -/

/-- Each of the quads is accepted, on the disk that the one before left. -/
inductive Adds (store : Store) (options : WriteOptions) :
    Disk → List Quad → List AddOutcome → Disk → Prop
  | nil {disk : Disk} : Adds store options disk [] [] disk
  | cons {disk disk' disk'' : Disk} {q : Quad} {rest : List Quad} {outcome : AddOutcome}
      {outcomes : List AddOutcome} :
      store.add disk options q = .ok (outcome, disk') →
        Adds store options disk' rest outcomes disk'' →
          Adds store options disk (q :: rest) (outcome :: outcomes) disk''

theorem Adds.length_eq (h : store.Adds options disk quads outcomes disk') :
    outcomes.length = quads.length := by
  induction h with
  | nil => rfl
  | cons _ _ ih => exact congrArg Nat.succ ih

/-- Adding quads forgets none, and moves the horizon by one for each. -/
theorem Adds.carries (h : store.Adds options disk quads outcomes disk')
    (hview : disk.view store.handle = .ok c) : ∃ c', disk'.view store.handle = .ok c' ∧
      c.Carries c' ∧ c'.counter .horizon = c.counter .horizon + .ofNat quads.length := by
  induction h generalizing c with
  | nil => exact ⟨c, hview, .refl c, (UInt64.add_zero _).symm⟩
  | @cons disk _ _ q rest _ _ hadd _ ih =>
    obtain ⟨c₀, c₁, hok⟩ := addOk_of_add hadd
    obtain rfl := Except.ok.inj (hok.before.symm.trans hview)
    obtain ⟨c', hview', hcarries, hhorizon⟩ := ih hok.after
    refine ⟨c', hview', hok.carries.trans hcarries, ?_⟩
    rw [hhorizon, hok.horizon, List.length_cons, Contents.val_nextHorizon_add]

theorem Adds.holds (h : store.Adds options disk quads outcomes disk') (hq : q ∈ quads) :
    q.isValid = true ∧ ∃ c', disk'.view store.handle = .ok c' ∧ c'.Holds q := by
  induction h with
  | nil => cases hq
  | cons hadd hrest ih =>
    rcases List.mem_cons.1 hq with rfl | hq
    · obtain ⟨c₀, c₁, hok⟩ := addOk_of_add hadd
      obtain ⟨c', hview', hcarries, -⟩ := hrest.carries hok.after
      exact ⟨hok.valid, c', hview', hcarries.holds hok.holds⟩
    · exact ih hq

/-- The outcomes take the horizons after the one the adds found, in order. -/
theorem Adds.horizon_eq (h : store.Adds options disk quads outcomes disk')
    (hview : disk.view store.handle = .ok c) {i : Nat} (hi : outcomes[i]? = some outcome) :
    outcome.horizon.val = c.counter .horizon + .ofNat (i + 1) := by
  induction h generalizing c i with
  | nil => cases hi
  | cons hadd _ ih =>
    obtain ⟨c₀, c₁, hok⟩ := addOk_of_add hadd
    obtain rfl := Except.ok.inj (hok.before.symm.trans hview)
    cases i with
    | zero =>
      obtain rfl := Option.some.inj hi
      rw [hok.outcome]
      rfl
    | succ i => rw [ih hok.after hi, hok.horizon, Contents.val_nextHorizon_add]

/-- A quad that is live, or was added before, is a duplicate. -/
theorem Adds.duplicate_of_holds (h : store.Adds options disk quads outcomes disk')
    (hview : disk.view store.handle = .ok c) (hq : c.Holds q) {i : Nat}
    (hi : quads[i]? = some q) : ∃ h, outcomes[i]? = some (.duplicate h) := by
  induction h generalizing c i with
  | nil => cases hi
  | cons hadd _ ih =>
    obtain ⟨c₀, c₁, hok⟩ := addOk_of_add hadd
    obtain rfl := Except.ok.inj (hok.before.symm.trans hview)
    cases i with
    | zero =>
      obtain rfl := Option.some.inj hi
      have hduplicate := add_of_holds hok.valid hview hq options
      split at hduplicate
      · obtain ⟨disk', hadd'⟩ := hduplicate
        rw [hadd] at hadd'
        cases hadd'
        exact ⟨_, rfl⟩
      · rw [hadd] at hduplicate
        cases hduplicate
    | succ i => exact ih hok.after (hok.carries.holds hq) hi

theorem Adds.duplicate_of_repeated (h : store.Adds options disk quads outcomes disk') {i j : Nat}
    (hij : i < j) (hi : quads[i]? = some q) (hj : quads[j]? = some q) :
    ∃ h, outcomes[j]? = some (.duplicate h) := by
  induction h generalizing i j with
  | nil => cases hi
  | cons hadd hrest ih =>
    cases j with
    | zero => exact absurd hij (Nat.not_lt_zero i)
    | succ j =>
      cases i with
      | zero =>
        obtain rfl := Option.some.inj hi
        obtain ⟨c₀, c₁, hok⟩ := addOk_of_add hadd
        exact hrest.duplicate_of_holds hok.after hok.holds hj
      | succ i => exact ih (Nat.lt_of_succ_lt_succ hij) hi hj

/-- What is accepted first leads to a state that any calls can reach, and admits what comes next. -/
theorem Adds.standing (h : store.Adds options disk before outcomes disk')
    (hdisk : store.Standing disk) (hadmits : store.AdmitsAll options disk (before ++ rest)) :
    store.Standing disk' ∧ store.AdmitsAll options disk' rest := by
  induction h with
  | nil => exact ⟨hdisk, hadmits⟩
  | @cons disk disk₁ _ q _ _ _ hadd _ ih =>
    have hafter : store.after disk (.add options q) = disk₁ := by
      simp only [after, hadd, answered]
    exact ih (hafter ▸ .wrote (.add options q) hdisk hadmits.1) (hadmits.2 _ _ hadd)

/-! ## Failures -/

/-- Why adding a quad fails. -/
inductive Refused (store : Store) (disk : Disk) (options : WriteOptions) (q : Quad) :
    WriteError → Prop
  | invalid : (q.subject = "" ∨ q.predicate = "" ∨ q.object = "") →
      Refused store disk options q (.apply q (.invalidQuad q))
  | closed : store.isClosed disk = true → Refused store disk options q (.apply q .closed)
  | duplicate {c : Contents} : options.ignoreDuplicate = false →
      disk.committed? store.handle = some c → c.Holds q →
        Refused store disk options q (.duplicate q)

theorem Standing.refused (h : store.Standing disk) (hadmits : store.AdmitsOne disk .add q)
    (hadd : store.add disk options q = .error cause) : store.Refused disk options q cause := by
  obtain ⟨c, hcommitted, hwrites⟩ := h.writes .add q options.ignoreDuplicate hadmits
  cases happly : store.apply disk .add q options.ignoreDuplicate with
  | error error =>
    rw [add_of_error happly] at hadd
    cases hadd
    rcases (hwrites.failed error happly).1 with rfl | rfl
    · exact .invalid ((hwrites.invalid disk).1 happly)
    · exact .closed (hwrites.closed.1 happly).2
  | ok r =>
    obtain ⟨change, disk'⟩ := r
    rw [add_of_apply happly] at hadd
    cases change with
    | applied | noop => cases hadd
    | rolledBack =>
      cases hadd
      obtain ⟨hstrict, hholds, -⟩ := hwrites.rolledBack disk' happly
      exact .duplicate hstrict hcommitted hholds

/-! ## Batches -/

/-- What is answered where the quads are added one by one, and each of them is accepted. -/
structure InTurn (store : Store) (options : WriteOptions) (disk : Disk) (quads : List Quad)
    (outcomes : List AddOutcome) (disk' : Disk) : Prop where
  adds : store.Adds options disk quads outcomes disk'
  length : outcomes.length = quads.length
  horizons : ∀ c, disk.view store.handle = .ok c →
    (∀ (i : Nat) outcome, outcomes[i]? = some outcome →
      outcome.horizon.val = c.counter .horizon + .ofNat (i + 1)) ∧
    ∃ c', disk'.view store.handle = .ok c' ∧
      c'.counter .horizon = c.counter .horizon + .ofNat quads.length
  repeated : ∀ (i j : Nat) (q : Quad), i < j → quads[i]? = some q → quads[j]? = some q →
    ∃ h, outcomes[j]? = some (.duplicate h)

/-- How adding quads one by one ends at a quad that is not accepted, after others that are. -/
structure Stopped (store : Store) (options : WriteOptions) (disk : Disk) (before : List Quad)
    (q : Quad) (rest : List Quad) (disk' : Disk) (cause : WriteError) : Prop where
  add : store.add disk' options q = .error cause
  /-- The store error underneath the failure of the batch is that of the one add. -/
  storeError : ∀ applied, (WriteError.batch applied cause).storeError? = cause.storeError?
  /-- A quad that comes a second time fails where duplicates are not ignored, and as one. -/
  repeated : q ∈ before → options.ignoreDuplicate = false ∧ cause = .duplicate q
  /-- On a store that was only written to and closed, no add fails for another reason than these. -/
  refused : store.Standing disk → store.AdmitsAll options disk (before ++ q :: rest) →
    store.Refused disk' options q cause

theorem Adds.inTurn (h : store.Adds options disk quads outcomes disk') :
    store.InTurn options disk quads outcomes disk' := by
  refine ⟨h, h.length_eq, fun c hview => ⟨fun i outcome hi => h.horizon_eq hview hi, ?_⟩,
    fun i j q hij hi hj => h.duplicate_of_repeated hij hi hj⟩
  obtain ⟨c', hview', -, hhorizon⟩ := h.carries hview
  exact ⟨c', hview', hhorizon⟩

theorem Adds.stopped (h : store.Adds options disk before outcomes disk')
    (hadd : store.add disk' options q = .error cause) :
    store.Stopped options disk before q rest disk' cause := by
  refine ⟨hadd, fun _ => rfl, fun hq => ?_, fun hdisk hadmits => ?_⟩
  · obtain ⟨hvalid, c, hview, hholds⟩ := h.holds hq
    have hduplicate := add_of_holds hvalid hview hholds options
    split at hduplicate
    · obtain ⟨disk'', hadd'⟩ := hduplicate
      rw [hadd] at hadd'
      cases hadd'
    · next hstrict =>
      rw [hadd] at hduplicate
      exact ⟨Bool.eq_false_iff.2 hstrict, Except.error.inj hduplicate⟩
  · obtain ⟨hstanding, hrest⟩ := h.standing hdisk hadmits
    exact hstanding.refused hrest.1 hadd

/-- A batch in progress adds its quads in turn, up to the first that is not accepted. -/
theorem addAllFrom_cases (store : Store) (options : WriteOptions) (disk : Disk) (quads : List Quad)
    (done : List AddOutcome) :
    (∃ outcomes disk', store.addAllFrom options done disk quads = (.ok (done.reverse ++ outcomes), disk') ∧
      store.Adds options disk quads outcomes disk') ∨
    ∃ before q rest outcomes disk' cause, quads = before ++ q :: rest ∧
      store.addAllFrom options done disk quads =
        (.error (.batch (done.length + before.length) cause), disk') ∧
      store.Adds options disk before outcomes disk' ∧ store.add disk' options q = .error cause := by
  induction quads generalizing disk done with
  | nil => exact .inl ⟨[], disk, by rw [List.append_nil]; rfl, .nil⟩
  | cons q rest ih =>
    unfold addAllFrom
    cases hadd : store.add disk options q with
    | error cause => exact .inr ⟨[], q, rest, [], disk, cause, rfl, rfl, .nil, hadd⟩
    | ok answer =>
      obtain ⟨outcome, disk₁⟩ := answer
      simp only
      rcases ih disk₁ (outcome :: done) with ⟨outcomes, disk', hall, hadds⟩ |
        ⟨before, q', rest', outcomes, disk', cause, rfl, hall, hadds, hfailed⟩
      · refine .inl ⟨outcome :: outcomes, disk', ?_, .cons hadd hadds⟩
        rw [hall, List.reverse_cons, List.append_assoc]
        rfl
      · refine .inr ⟨q :: before, q', rest', outcome :: outcomes, disk', cause, rfl, ?_,
          .cons hadd hadds, hfailed⟩
        rw [hall, List.length_cons, List.length_cons, Nat.add_right_comm, Nat.add_assoc]

/-- A batch comes to adding its quads one by one. If all are accepted it answers their outcomes. If one
is not, it answers how many came before it and why it failed; these are committed, and nothing else. -/
theorem addAll_eq_prefix (store : Store) (disk : Disk) (options : WriteOptions)
    (quads : List Quad) :
    (∃ outcomes disk', store.addAll disk options quads = (.ok outcomes, disk') ∧
      store.InTurn options disk quads outcomes disk') ∨
    ∃ before q rest outcomes disk' cause, quads = before ++ q :: rest ∧
      store.addAll disk options quads = (.error (.batch before.length cause), disk') ∧
      store.InTurn options disk before outcomes disk' ∧
      store.Stopped options disk before q rest disk' cause := by
  rcases addAllFrom_cases store options disk quads [] with ⟨outcomes, disk', hall, hadds⟩ |
    ⟨before, q, rest, outcomes, disk', cause, hquads, hall, hadds, hadd⟩
  · exact .inl ⟨outcomes, disk', hall, hadds.inTurn⟩
  · refine .inr ⟨before, q, rest, outcomes, disk', cause, hquads, ?_, hadds.inTurn,
      hadds.stopped hadd⟩
    rw [List.length_nil, Nat.zero_add] at hall
    exact hall

/-- A quad that comes twice, and one that is not valid. -/
example :
    let q : Quad := ⟨"alice", "follows", "bob", ""⟩
    let invalid : Quad := ⟨"", "follows", "bob", ""⟩
    let batch (options : WriteOptions) := (Store.create {} "db" {}).map fun (store, disk) =>
      let (answer, disk) := store.addAll disk options [q, q, invalid, q]
      (answer, store.horizon disk)
    batch {} = .ok (.error (.batch 2 (.apply invalid (.invalidQuad invalid))), .ok ⟨2⟩) ∧
      batch ⟨false, true⟩ = .ok (.error (.batch 1 (.duplicate q)), .ok ⟨1⟩) := by
  decide +kernel

end Store

end GraphStore
