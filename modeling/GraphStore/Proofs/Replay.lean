import GraphStore.Proofs.Materialize

/-!
# Horizons as a log

* `LogEntry` : one write with its answer, and the horizon it took, if it was accepted;
* `Store.Logged` : a run of calls on a new store, with all its writes in order; of a batch these are the
  ones that it answers for (`Store.logAll_of_ok`, `Store.logAll_of_error`);
* `Store.ReplayedOn` : the store's horizons are those of the log, which every call keeps
  (`Store.ReplayedOn.after`);
* `Store.LiveSince` : a call that does not remove a live quad leaves its horizon alone;
* `Store.Replays` : the accepted writes are numbered from one on, and every live quad tells the number
  of the write that added it;
* `Store.Logged.replays` : so it is after every run.
-/

namespace GraphStore

variable {store : Store} {disk disk' : Disk} {c c' : Contents} {q q' : Quad} {key key' : QuadKey}
  {kind : ChangeKind} {tick : Bool} {change : Change} {h h' : Horizon}

/-! ## Logs -/

inductive LogEntry where
  | add (q : Quad) (answer : Except WriteError AddOutcome)
  | remove (q : Quad) (answer : Except WriteError RemoveOutcome)

namespace LogEntry

def horizon? : LogEntry → Option Horizon
  | add _ answer => answer.toOption.map AddOutcome.horizon
  | remove _ answer => answer.toOption.map RemoveOutcome.horizon

/-- The ways in which a write is rejected. -/
inductive Rejected : LogEntry → Prop
  | invalidAdd {q : Quad} : q.isValid = false → Rejected (add q (.error (.apply q (.invalidQuad q))))
  | invalidRemove {q : Quad} :
      q.isValid = false → Rejected (remove q (.error (.apply q (.invalidQuad q))))
  | duplicate {q : Quad} : Rejected (add q (.error (.duplicate q)))
  | missing {q : Quad} : Rejected (remove q (.error (.missing q)))

theorem Rejected.horizon? {entry : LogEntry} (h : entry.Rejected) : entry.horizon? = none := by
  cases h <;> rfl

def ofChange (q : Quad) : ChangeKind → Change × Disk → LogEntry
  | .add, r => add q ((Store.addAnswer q r).map Prod.fst)
  | .remove, r => remove q ((Store.removeAnswer q r).map Prod.fst)

def numbers (log : List LogEntry) : List Nat := (log.filterMap horizon?).map (·.val.toNat)

def accepted (log : List LogEntry) : Nat := log.countP (·.horizon?.isSome)

theorem length_numbers (log : List LogEntry) : (numbers log).length = accepted log := by
  unfold numbers accepted
  rw [List.length_map, List.length_filterMap_eq_countP]

end LogEntry

variable {log : List LogEntry} {entry : LogEntry}

/-- The last write that added a quad took this horizon. -/
def LastAdded (log : List LogEntry) (q : Quad) (h : Horizon) : Prop :=
  ∃ before after, log = before ++ .add q (.ok (.added h)) :: after ∧
    ∀ h', LogEntry.add q (.ok (.added h')) ∉ after

theorem lastAdded_append_self (log : List LogEntry) (q : Quad) (h : Horizon) :
    LastAdded (log ++ [.add q (.ok (.added h))]) q h :=
  ⟨log, [], rfl, fun _ => List.not_mem_nil⟩

theorem LastAdded.append (hlast : LastAdded log q h)
    (hother : ∀ h', entry ≠ .add q (.ok (.added h'))) : LastAdded (log ++ [entry]) q h := by
  obtain ⟨before, after, rfl, hafter⟩ := hlast
  refine ⟨before, after ++ [entry], by simp, fun h' hmem => ?_⟩
  rcases List.mem_append.1 hmem with hmem | hmem
  · exact hafter h' hmem
  · exact hother h' (List.mem_singleton.1 hmem).symm

theorem LastAdded.unique (hnodup : (LogEntry.numbers log).Nodup) (hlast : LastAdded log q h)
    (hlast' : LastAdded log q' h) : q = q' := by
  obtain ⟨before, after, rfl, -⟩ := hlast
  obtain ⟨before', after', hlog, -⟩ := hlast'
  have hmem : LogEntry.add q' (.ok (.added h)) ∈ before ++ .add q (.ok (.added h)) :: after := by
    rw [hlog]
    exact List.mem_append_right _ List.mem_cons_self
  have hnumber {entries : List LogEntry} (hentry : LogEntry.add q' (.ok (.added h)) ∈ entries) :
      h ∈ entries.filterMap LogEntry.horizon? := List.mem_filterMap.2 ⟨_, hentry, rfl⟩
  have htaken : (LogEntry.add q (.ok (.added h))).horizon? = some h := rfl
  unfold LogEntry.numbers at hnodup
  rw [List.filterMap_append, List.filterMap_cons_some htaken] at hnodup
  obtain ⟨-, hafter, hbefore⟩ := List.nodup_append.1 hnodup.of_map
  rw [List.mem_append, List.mem_cons] at hmem
  -- If the other entry were another one, the number would occur twice.
  rcases hmem with hmem | hmem | hmem
  · exact absurd rfl (hbefore h (hnumber hmem) h List.mem_cons_self)
  · cases hmem
    rfl
  · exact absurd (hnumber hmem) (List.nodup_cons.1 hafter).1

theorem LastAdded.mem_numbers (hlast : LastAdded log q h) : h.val.toNat ∈ LogEntry.numbers log := by
  obtain ⟨before, after, rfl, -⟩ := hlast
  refine List.mem_map.2 ⟨h, List.mem_filterMap.2 ⟨.add q (.ok (.added h)), ?_, rfl⟩, rfl⟩
  exact List.mem_append_right _ List.mem_cons_self

namespace Contents

/-! ## One write -/

/-- The horizons of the contents are those of a log. -/
structure Replayed (c : Contents) (log : List LogEntry) : Prop where
  numbered : LogEntry.numbers log = List.range' 1 (c.counter .horizon).toNat
  recorded : ∀ q key h, c.keyOf? q = some key → c.addedAt? key = some h → LastAdded log q h
  rejected : ∀ entry ∈ log, entry.horizon? = none → entry.Rejected

theorem replayed_empty : Replayed {} [] where
  numbered := rfl
  recorded _ _ _ _ := nofun
  rejected _ := nofun

theorem Replayed.accepted_eq (hlog : Replayed c log) :
    LogEntry.accepted log = (c.counter .horizon).toNat := by
  rw [← LogEntry.length_numbers, hlog.numbered, List.length_range']

theorem Replayed.refused (hlog : Replayed c log) (hentry : entry.Rejected) :
    Replayed c (log ++ [entry]) where
  numbered := by
    rw [← hlog.numbered]
    unfold LogEntry.numbers
    rw [List.filterMap_append, List.filterMap_cons_none hentry.horizon?, List.filterMap_nil,
      List.append_nil]
  recorded q key h hkey hadded := (hlog.recorded q key h hkey hadded).append fun h' e => by
    have hnone := hentry.horizon?
    rw [e] at hnone
    cases hnone
  rejected entry' hmem hnone := by
    rcases List.mem_append.1 hmem with hmem | hmem
    · exact hlog.rejected entry' hmem hnone
    · exact List.mem_singleton.1 hmem ▸ hentry

/-- An accepted write takes the next number. -/
theorem Replayed.accept (hlog : Replayed c log) (hfits : (c.counter .horizon).toNat + 1 < 2 ^ 64)
    (hentry : entry.horizon? = some c.nextHorizon)
    (hhorizon : c'.counter .horizon = c.nextHorizon.val)
    (hrecorded : ∀ q key h, c'.keyOf? q = some key → c'.addedAt? key = some h →
      LastAdded (log ++ [entry]) q h) : Replayed c' (log ++ [entry]) where
  numbered := by
    have hnumbers : LogEntry.numbers (log ++ [entry]) =
        LogEntry.numbers log ++ [c.nextHorizon.val.toNat] := by
      unfold LogEntry.numbers
      rw [List.filterMap_append, List.filterMap_cons_some hentry, List.filterMap_nil, List.map_append,
        List.map_singleton]
    rw [hnumbers, hlog.numbered, hhorizon, toNat_nextHorizon hfits, List.range'_1_concat, Nat.add_comm]
  recorded := hrecorded
  rejected entry' hmem hnone := by
    rcases List.mem_append.1 hmem with hmem | hmem
    · exact hlog.rejected entry' hmem hnone
    · rw [List.mem_singleton.1 hmem, hentry] at hnone
      cases hnone

/-- A key that is not new was live before, under the same quad. -/
theorem Added.keyOf?_of_ne (hadded : Added c c' q key) (hc : Sound c) (hc' : Sound c')
    (hkey' : c'.keyOf? q' = some key') (hlive : c'.addedAt? key' = some h) (hne : key' ≠ key) :
    c.keyOf? q' = some key' ∧ c.addedAt? key' = some h := by
  rw [hadded.addedAt?, if_neg hne] at hlive
  obtain ⟨q₀, -, hq₀⟩ := hc.keyOf? (Option.isSome_of_mem hlive)
  obtain rfl := hc'.naming.keyOf?_inj hkey' (keyOf?_mono hadded.ids hq₀)
  exact ⟨hq₀, hlive⟩

theorem Replayed.wrote (hlog : Replayed c log) (hc : Sound c) (hc' : Sound c')
    (hfits : (c.counter .horizon).toNat + 1 < 2 ^ 64) (hwrote : Wrote c q tick kind change c')
    (disk : Disk) : Replayed c' (log ++ [.ofChange q kind (change, disk)]) := by
  cases hwrote with
  | @added _ key _ hadded =>
    refine hlog.accept hfits rfl hadded.horizon fun q' key' h hkey' hlive => ?_
    by_cases hkey : key' = key
    · -- The quad itself, which now is live at the number that it has just taken.
      subst hkey
      obtain rfl : q' = q := hc'.naming.keyOf?_inj hkey' hadded.keyOf
      rw [hadded.addedAt?, if_pos rfl] at hlive
      exact Option.some.inj hlive ▸ lastAdded_append_self log q' _
    · obtain ⟨hkey₀, hlive₀⟩ := hadded.keyOf?_of_ne hc hc' hkey' hlive hkey
      refine (hlog.recorded q' key' h hkey₀ hlive₀).append fun h' e => hkey ?_
      cases e
      exact Option.some.inj (hkey'.symm.trans hadded.keyOf)
  | @removed _ key hkey hlive hremoved =>
    refine hlog.accept hfits rfl hremoved.horizon fun q' key' h hkey' hlive' => ?_
    rw [hremoved.keyOf?] at hkey'
    rw [hremoved.addedAt?] at hlive'
    split at hlive'
    · cases hlive'
    · exact (hlog.recorded q' key' h hkey' hlive').append nofun
  | ticked hmoot htick =>
    have hsame : (c.setCounter .horizon c.nextHorizon.val).counter .horizon = c.nextHorizon.val := by
      rw [counter_setCounter, if_pos rfl]
    have hother (q' : Quad) (h : Horizon) :
        LogEntry.ofChange q kind (.noop c.nextHorizon, disk) ≠ .add q' (.ok (.added h)) := by
      cases kind <;> rintro ⟨⟩
    refine hlog.accept hfits ?_ hsame fun q' key' h hkey hlive =>
      (hlog.recorded q' key' h hkey hlive).append fun h' => hother q' h'
    cases kind <;> rfl
  | rolledBack hmoot htick =>
    cases kind with
    | add => exact hlog.refused .duplicate
    | remove => exact hlog.refused .missing

/-- A write that does not remove a live quad leaves its key and horizon alone. -/
theorem Wrote.addedAt? (hwrote : Wrote c q tick kind change c') (hc : Sound c)
    (hkey : c.keyOf? q' = some key) (hlive : c.addedAt? key = some h)
    (hspares : kind = .remove → q ≠ q') :
    c'.keyOf? q' = some key ∧ c'.addedAt? key = some h := by
  cases hwrote with
  | @added _ key' _ hadded =>
    have hne : key ≠ key' := fun e => by
      have hdead := hadded.dead
      rw [← e, Contents.isLive, hlive] at hdead
      cases hdead
    exact ⟨keyOf?_mono hadded.ids hkey, by rw [hadded.addedAt?, if_neg hne, hlive]⟩
  | @removed _ key' hkey' _ hremoved =>
    have hne : key ≠ key' := fun e =>
      hspares rfl (hc.naming.keyOf?_inj (e ▸ hkey') hkey)
    exact ⟨by rw [hremoved.keyOf?, hkey], by rw [hremoved.addedAt?, if_neg hne, hlive]⟩
  | ticked => exact ⟨hkey, hlive⟩
  | rolledBack => exact ⟨hkey, hlive⟩

end Contents

namespace Store

/-! ## Runs -/

/-- The writes of a batch, up to the first that fails. -/
def logAll (store : Store) (options : WriteOptions) : Disk → List Quad → List LogEntry
  | _, [] => []
  | disk, q :: rest =>
    match store.add disk options q with
    | .ok (outcome, disk) => .add q (.ok outcome) :: logAll store options disk rest
    | .error error => [.add q (.error error)]

def entries (store : Store) (disk : Disk) : WriteCall → List LogEntry
  | .add options q => [.add q ((store.add disk options q).map Prod.fst)]
  | .remove options q => [.remove q ((store.remove disk options q).map Prod.fst)]
  | .addAll options quads => store.logAll options disk quads

/-- `disk` is reached by calls on a store that was created empty, and `log` lists their writes. -/
inductive Logged (store : Store) : Disk → List LogEntry → Prop
  | created {disk₀ disk : Disk} {path : String} {config : Config} :
      Store.create disk₀ path config = .ok (store, disk) → Logged store disk []
  | wrote {disk : Disk} {log : List LogEntry} (call : WriteCall) :
      Logged store disk log → store.Admits disk call →
        Logged store (store.after disk call) (log ++ store.entries disk call)

theorem logAll_of_ok {options : WriteOptions} {quads : List Quad} {done outcomes : List AddOutcome}
    (h : (store.addAllFrom options done disk quads).1 = .ok outcomes) :
    ∃ added, outcomes = done.reverse ++ added ∧ added.length = quads.length ∧
      store.logAll options disk quads = List.zipWith (fun q o => .add q (.ok o)) quads added := by
  induction quads generalizing disk done with
  | nil =>
    obtain rfl := Except.ok.inj h
    exact ⟨[], (List.append_nil _).symm, rfl, rfl⟩
  | cons q rest ih =>
    unfold addAllFrom at h
    unfold logAll
    cases hadd : store.add disk options q with
    | error error =>
      rw [hadd] at h
      cases h
    | ok answer =>
      obtain ⟨outcome, disk'⟩ := answer
      rw [hadd] at h
      obtain ⟨added, houtcomes, hlength, hlog⟩ := ih h
      refine ⟨outcome :: added, ?_, congrArg Nat.succ hlength, ?_⟩
      · rw [houtcomes, List.reverse_cons, List.append_assoc]
        rfl
      · rw [List.zipWith_cons_cons, ← hlog]

/-- A batch that fails tells how many of its writes were accepted, and why the next was not. -/
theorem logAll_of_error {options : WriteOptions} {quads : List Quad} {done : List AddOutcome}
    {error : WriteError} (h : (store.addAllFrom options done disk quads).1 = .error error) :
    ∃ before q cause, error = .batch (done.length + before.length) cause ∧
      store.logAll options disk quads = before ++ [.add q (.error cause)] ∧
        ∀ entry ∈ before, entry.horizon?.isSome = true := by
  induction quads generalizing disk done with
  | nil => cases h
  | cons q rest ih =>
    unfold addAllFrom at h
    unfold logAll
    cases hadd : store.add disk options q with
    | error cause =>
      rw [hadd] at h
      obtain rfl := Except.error.inj h
      exact ⟨[], q, cause, rfl, rfl, List.forall_mem_nil _⟩
    | ok answer =>
      obtain ⟨outcome, disk'⟩ := answer
      rw [hadd] at h
      obtain ⟨before, q', cause, rfl, hlog, hbefore⟩ := ih h
      refine ⟨.add q (.ok outcome) :: before, q', cause, ?_, ?_, ?_⟩
      · rw [List.length_cons, List.length_cons, Nat.add_right_comm, Nat.add_assoc]
      · rw [List.cons_append, ← hlog]
      · exact List.forall_mem_cons.2 ⟨rfl, hbefore⟩

def ReplayedOn (store : Store) (disk : Disk) (log : List LogEntry) : Prop :=
  ∃ c, disk.view store.handle = .ok c ∧ c.Sound ∧ c.Replayed log

theorem ReplayedOn.add (h : store.ReplayedOn disk log) (options : WriteOptions)
    (hadmits : store.AdmitsOne disk .add q) :
    store.ReplayedOn (answered disk (store.add disk options q))
      (log ++ [.add q ((store.add disk options q).map Prod.fst)]) := by
  obtain ⟨c, hview, hc, hlog⟩ := h
  cases hvalid : q.isValid with
  | false =>
    rw [add_of_not_valid options hvalid]
    exact ⟨c, hview, hc, hlog.refused (.invalidAdd hvalid)⟩
  | true =>
    have hfits := hadmits hvalid c hview
    obtain ⟨change, c', happly, hwrote, hc'⟩ := hc.apply hvalid hfits options.ignoreDuplicate
    rw [add_of_apply (apply_eq hview hvalid happly), answered_addAnswer]
    exact ⟨c', view_settle hview hwrote, hc', hlog.wrote hc hc' hfits.1 hwrote _⟩

theorem ReplayedOn.remove (h : store.ReplayedOn disk log) (options : WriteOptions)
    (hadmits : store.AdmitsOne disk .remove q) :
    store.ReplayedOn (answered disk (store.remove disk options q))
      (log ++ [.remove q ((store.remove disk options q).map Prod.fst)]) := by
  obtain ⟨c, hview, hc, hlog⟩ := h
  cases hvalid : q.isValid with
  | false =>
    rw [remove_of_not_valid options hvalid]
    exact ⟨c, hview, hc, hlog.refused (.invalidRemove hvalid)⟩
  | true =>
    have hfits := hadmits hvalid c hview
    obtain ⟨change, c', happly, hwrote, hc'⟩ := hc.apply hvalid hfits options.ignoreMissing
    rw [remove_of_apply (apply_eq hview hvalid happly), answered_removeAnswer]
    exact ⟨c', view_settle hview hwrote, hc', hlog.wrote hc hc' hfits.1 hwrote _⟩

theorem ReplayedOn.addAllFrom {quads : List Quad} (h : store.ReplayedOn disk log)
    (options : WriteOptions) (hadmits : store.AdmitsAll options disk quads) (done : List AddOutcome) :
    store.ReplayedOn (store.addAllFrom options done disk quads).2
      (log ++ store.logAll options disk quads) := by
  induction quads generalizing disk log done with
  | nil => rwa [logAll, List.append_nil]
  | cons q rest ih =>
    have hstep := h.add options hadmits.1
    unfold Store.addAllFrom logAll
    cases hadd : store.add disk options q with
    | ok answer =>
      obtain ⟨outcome, disk'⟩ := answer
      rw [hadd] at hstep
      have hrest := ih hstep (hadmits.2 outcome disk' hadd) (outcome :: done)
      rwa [List.append_assoc] at hrest
    | error error =>
      rw [hadd] at hstep
      exact hstep

theorem ReplayedOn.after {call : WriteCall} (h : store.ReplayedOn disk log)
    (hadmits : store.Admits disk call) :
    store.ReplayedOn (store.after disk call) (log ++ store.entries disk call) := by
  cases call with
  | add options q => exact h.add options hadmits
  | remove options q => exact h.remove options hadmits
  | addAll options quads => exact h.addAllFrom options hadmits []

/-- Every run has a log. -/
theorem Reached.logged (h : store.Reached disk) : ∃ log, store.Logged disk log := by
  induction h with
  | created hcreate => exact ⟨[], .created hcreate⟩
  | wrote call _ hadmits ih =>
    obtain ⟨log, hlogged⟩ := ih
    exact ⟨_, hlogged.wrote call hadmits⟩

theorem Logged.replayedOn (h : store.Logged disk log) : store.ReplayedOn disk log := by
  induction h with
  | created hcreate => exact ⟨{}, view_create hcreate, Contents.sound_empty, Contents.replayed_empty⟩
  | wrote call _ hadmits ih => exact ih.after hadmits

/-! ## Live quads -/

def WriteCall.Spares (q : Quad) : WriteCall → Prop
  | .remove _ q' => q' ≠ q
  | _ => True

def LiveSince (store : Store) (q : Quad) (key : QuadKey) (h : Horizon) (disk : Disk) : Prop :=
  ∃ c, disk.view store.handle = .ok c ∧ c.Sound ∧ c.keyOf? q = some key ∧ c.addedAt? key = some h

theorem LiveSince.write (hsince : store.LiveSince q key h disk)
    (hsettles : ∀ c, disk.view store.handle = .ok c → store.Settles disk c kind q' tick disk')
    (hadmits : store.AdmitsOne disk kind q') (hspares : kind = .remove → q' ≠ q) :
    store.LiveSince q key h disk' := by
  obtain ⟨c, hview, hc, hkey, hlive⟩ := hsince
  cases hsettles c hview with
  | refused => exact ⟨c, hview, hc, hkey, hlive⟩
  | wrote hvalid happly =>
    obtain ⟨change, c', happly', hwrote, hc'⟩ := hc.apply hvalid (hadmits hvalid c hview) tick
    rw [happly'] at happly
    cases happly
    exact ⟨c', view_settle hview hwrote, hc', hwrote.addedAt? hc hkey hlive hspares⟩

/-- A live quad keeps its horizon until it is removed. -/
theorem LiveSince.after {call : WriteCall} (hsince : store.LiveSince q key h disk)
    (hadmits : store.Admits disk call) (hspares : call.Spares q) :
    store.LiveSince q key h (store.after disk call) := by
  cases call with
  | add options q' =>
    exact hsince.write (fun c hview => settles_add hview options q') hadmits nofun
  | remove options q' =>
    exact hsince.write (fun c hview => settles_remove hview options q') hadmits fun _ => hspares
  | addAll options quads =>
    exact addAllFrom_keeps (fun _ q' hsince hadmits =>
      hsince.write (fun c hview => settles_add hview options q') hadmits nofun) hsince hadmits []

theorem quadHorizon_eq_ok_iff (hview : disk.view store.handle = .ok c) :
    store.quadHorizon disk key = .ok h ↔ c.addedAt? key = some h := by
  unfold quadHorizon
  rw [hview]
  simp only [bind, Except.bind]
  cases c.addedAt? key with
  | none => exact ⟨nofun, nofun⟩
  | some h' => rw [Option.some.injEq]; exact ⟨Except.ok.inj, congrArg Except.ok⟩

/-! ## The log -/

/-- The horizons of a store are those of its log. -/
structure Replays (store : Store) (disk : Disk) (log : List LogEntry) : Prop where
  /-- The accepted writes are numbered 1, 2, 3, … in the order they were made. -/
  numbered : LogEntry.numbers log = List.range' 1 (LogEntry.accepted log)
  rejected : ∀ entry ∈ log, entry.horizon? = none → entry.Rejected
  horizon : ∃ h, store.horizon disk = .ok h ∧ h.val.toNat = LogEntry.accepted log
  /-- A live quad tells the number of the write that added it last. -/
  recorded : ∀ q, store.containsQuad disk q = .ok true → ∃ key h,
    store.keyOf? disk q = .ok (some key) ∧ store.quadHorizon disk key = .ok h ∧
      LastAdded log q h ∧ 1 ≤ h.val.toNat ∧ h.val.toNat ≤ LogEntry.accepted log
  /-- It keeps it whatever is added, itself again or others, and whatever else is removed. -/
  kept : ∀ q key h call, store.keyOf? disk q = .ok (some key) → store.quadHorizon disk key = .ok h →
    store.Admits disk call → call.Spares q → store.quadHorizon (store.after disk call) key = .ok h
  distinct : ∀ q q' key key' h, store.keyOf? disk q = .ok (some key) →
    store.keyOf? disk q' = .ok (some key') → store.quadHorizon disk key = .ok h →
      store.quadHorizon disk key' = .ok h → q = q'

/-- After every run, the horizons number the accepted writes, and tell for each live quad which of them
added it. -/
theorem Logged.replays (hlogged : store.Logged disk log) : store.Replays disk log := by
  obtain ⟨c, hview, hc, hlog⟩ := hlogged.replayedOn
  have hnumbered : LogEntry.numbers log = List.range' 1 (LogEntry.accepted log) := by
    rw [hlog.accepted_eq, hlog.numbered]
  have hlast {q : Quad} {key : QuadKey} {h : Horizon} (hkey : store.keyOf? disk q = .ok (some key))
      (hh : store.quadHorizon disk key = .ok h) :
      c.keyOf? q = some key ∧ c.addedAt? key = some h ∧ LastAdded log q h := by
    have hkey' := Except.ok.inj ((keyOf?_eq hview q).symm.trans hkey)
    have hlive := (quadHorizon_eq_ok_iff hview).1 hh
    exact ⟨hkey', hlive, hlog.recorded q key h hkey' hlive⟩
  refine ⟨hnumbered, hlog.rejected, ⟨⟨c.counter .horizon⟩, ?_, hlog.accepted_eq.symm⟩,
    fun q hcontains => ?_, fun q key h call hkey hh hadmits hspares => ?_,
    fun q q' key key' h hkey hkey' hh hh' => ?_⟩
  · unfold Store.horizon
    rw [hview]
    rfl
  · rw [containsQuad_eq hview, Except.ok.injEq, Option.any_eq_true] at hcontains
    obtain ⟨key, hkey, hlive⟩ := hcontains
    obtain ⟨h, hlive⟩ := Option.isSome_iff_exists.1 hlive
    have hrecorded := hlog.recorded q key h hkey hlive
    have hmem := hrecorded.mem_numbers
    rw [hnumbered, List.mem_range'_1] at hmem
    exact ⟨key, h, by rw [keyOf?_eq hview, hkey], (quadHorizon_eq_ok_iff hview).2 hlive, hrecorded,
      hmem.1, by omega⟩
  · obtain ⟨hkey', hlive, -⟩ := hlast hkey hh
    obtain ⟨c', hview', -, -, hlive'⟩ :=
      LiveSince.after ⟨c, hview, hc, hkey', hlive⟩ hadmits hspares
    exact (quadHorizon_eq_ok_iff hview').2 hlive'
  · obtain ⟨-, -, hlast₁⟩ := hlast hkey hh
    obtain ⟨-, -, hlast₂⟩ := hlast hkey' hh'
    refine hlast₁.unique ?_ hlast₂
    rw [hnumbered]
    exact List.nodup_range'

/-- A quad that is added, added again, missed by a remove that minds, removed, and added once more. -/
theorem replays_first_quads : ∃ (store : Store) (disk : Disk),
    Store.create {} "db" {} = .ok (store, disk) ∧
      let q : Quad := ⟨"alice", "follows", "bob", ""⟩
      let one := store.after disk (.addAll {} [q, q])
      let two := store.after one (.remove ⟨true, false⟩ ⟨"bob", "follows", "alice", ""⟩)
      let three := store.after two (.remove {} q)
      let log := ((([] ++ store.entries disk (.addAll {} [q, q])) ++
        store.entries one (.remove ⟨true, false⟩ ⟨"bob", "follows", "alice", ""⟩)) ++
          store.entries two (.remove {} q)) ++ store.entries three (.add {} q)
      log.map LogEntry.horizon? = [some ⟨1⟩, some ⟨2⟩, none, some ⟨3⟩, some ⟨4⟩] ∧
        store.Replays (store.after three (.add {} q)) log := by
  have hcreate : Store.create {} "db" {} = .ok (_, _) := rfl
  refine ⟨_, _, hcreate, ?_⟩
  intro q one two three log
  refine ⟨by decide +kernel, Logged.replays ?_⟩
  refine .wrote _ (.wrote _ (.wrote _ (.wrote _ (.created hcreate) ?_) ?_) ?_) ?_
  · refine ⟨admitsOne_created hcreate, fun outcome disk' hadd => ⟨?_, fun _ _ _ => trivial⟩⟩
    obtain rfl : _ = disk' := congrArg (answered {}) hadd
    exact admitsOne_of_hasRoom (by decide +kernel)
  · exact admitsOne_of_hasRoom (by decide +kernel)
  · exact admitsOne_of_hasRoom (by decide +kernel)
  · exact admitsOne_of_hasRoom (by decide +kernel)

end Store

end GraphStore
