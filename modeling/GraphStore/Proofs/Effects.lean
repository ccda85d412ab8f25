import GraphStore.Proofs.Refinement

/-!
# What one write changes

* `Disk.committed?` : the last committed contents of a file, whether its handle still works or not;
* `Store.Standing` : a disk after any calls on a new store, which may have been closed at any time;
* `Contents.OneMore` : all counters of one state are those of another with one quad more;
* `Contents.Effect` : what a write that finds something to do leaves;
* `Store.Writes` : when a write fails, and what it changes in each case;
* `Store.Standing.writes` : so it is for every write.
-/

namespace GraphStore

variable {store : Store} {disk disk' : Disk} {handle : Handle} {c c' : Contents} {q : Quad}
  {key : QuadKey} {kind : ChangeKind} {tick : Bool} {change : Change} {h : Horizon}

namespace Contents

/-! ## One quad more -/

/-- `c'` counts what `c` counts and one quad more: whatever belongs to the quad is one higher, and
nothing else differs. -/
structure OneMore (c c' : Contents) (key : QuadKey) : Prop where
  size : (c'.counter .size).toNat = (c.counter .size).toNat + 1
  entries : ∀ index b, (c'.indexes.get index).contains b = true ↔
    b = index.entry key ∨ (c.indexes.get index).contains b = true
  counts : ∀ index stem, (c'.entryCount index stem).toNat =
    (c.entryCount index stem).toNat + if stem = index.stem key then 1 else 0
  degrees : ∀ id, (c'.degree id).toNat = (c.degree id).toNat + if id ∈ key.members then 1 else 0
  /-- The nodes that become live are the members that no other quad holds. -/
  nodes : (c'.counter .nodes).toNat =
    (c.counter .nodes).toNat + key.members.countP fun id => c.degree id = 0

theorem Sound.toNat_degree_eq (hc : Sound c) (id : NodeId) :
    (c.degree id).toNat = if id.isBlank then 0 else holders c.liveKeys id := by
  split
  · next hblank =>
    unfold degree Table.getD
    rw [NodeId.isBlank_iff.1 hblank, hc.counted.get?_blank]
    rfl
  · next hblank => exact hc.counted.toNat_degree (Bool.eq_false_iff.2 hblank)

theorem Sound.degree_eq_zero_iff (hc : Sound c) {id : NodeId} :
    c.degree id = 0 ↔ ¬ c.degrees.contains id = true := by
  rw [← hc.counted.isLiveNode, isLiveNode, decide_eq_true_eq, UInt64.pos_iff_ne_zero, not_not]

/-- The live nodes are those of the quad that is new, and those that were live before. -/
theorem Sound.degrees_keys_perm (hc : Sound c) (hc' : Sound c')
    (hperm : c'.liveKeys.Perm (key :: c.liveKeys)) : c'.degrees.keys.Perm
      (key.members.filter (fun id => c.degree id = 0) ++ c.degrees.keys) := by
  refine (List.perm_ext_iff_of_nodup c'.degrees.keys_nodup ?_).2 fun id => ?_
  · refine List.Nodup.append (key.members_nodup.filter _) c.degrees.keys_nodup fun id hid hid' => ?_
    rw [List.mem_filter, decide_eq_true_eq] at hid
    exact hc.degree_eq_zero_iff.1 hid.2 (Table.mem_keys.1 hid')
  · rw [List.mem_append, List.mem_filter, Table.mem_keys, Table.mem_keys, decide_eq_true_eq,
      hc.degree_eq_zero_iff, hc'.counted.mem_degrees, QuadKey.mem_members]
    have hlive : c.degrees.contains id = true ↔ _ := hc.counted.mem_degrees
    simp only [hperm.mem_iff, List.exists_mem_cons_iff, hlive]
    tauto

/-- Counters that are in step with the live quads differ by one quad if these do. -/
theorem Sound.oneMore (hc : Sound c) (hc' : Sound c')
    (hperm : c'.liveKeys.Perm (key :: c.liveKeys)) : OneMore c c' key where
  size := by rw [hc'.size, hc.size, hperm.length_eq, List.length_cons]
  entries index b := by
    rw [(hc'.filed index).entries, (hc.filed index).entries]
    simp only [hperm.mem_iff, List.exists_mem_cons_iff]
    exact or_congr_left eq_comm
  counts index stem := by
    rw [hc'.toNat_entryCount, hc.toNat_entryCount, filedUnder, hperm.countP_eq, List.countP_cons]
    simp only [beq_iff_eq, @eq_comm _ stem]
    rfl
  degrees id := by
    rw [hc'.toNat_degree_eq, hc.toNat_degree_eq, holders, hperm.countP_eq, List.countP_cons]
    simp only [QuadKey.mem_members, decide_eq_true_eq]
    cases id.isBlank <;> simp [holders]
  nodes := by
    rw [hc'.counted.nodes, hc.counted.nodes, ← Table.length_keys, ← Table.length_keys,
      (hc.degrees_keys_perm hc' hperm).length_eq, List.length_append, List.countP_eq_length_filter,
      Nat.add_comm]

/-! ## Writes that have an effect -/

/-- What a write at `h` leaves if it finds something to do: one key enters the live quads or leaves
them, all others keep their horizons, and the counters move by just that quad. -/
inductive Effect (c : Contents) (q : Quad) (h : Horizon) : ChangeKind → Contents → Prop
  | entered {c' : Contents} {key : QuadKey} :
      c'.keyOf? q = some key → c.quads.get? key.toBytes = none →
        (∀ b, c'.quads.get? b = if b = key.toBytes then some h else c.quads.get? b) →
          OneMore c c' key → Effect c q h .add c'
  | left {c' : Contents} {key : QuadKey} :
      c.keyOf? q = some key → c.quads.get? key.toBytes ≠ none →
        (∀ b, c'.quads.get? b = if b = key.toBytes then none else c.quads.get? b) →
          c'.ids = c.ids → c'.names = c.names → OneMore c' c key → Effect c q h .remove c'

theorem Added.effect (hadded : Added c c' q key) (hc : Sound c) (hc' : Sound c') :
    Effect c q c.nextHorizon .add c' := by
  have hperm := liveKeys_insert_perm hadded.quads hadded.dead
  refine .entered hadded.keyOf ?_ (fun b => ?_) (hc.oneMore hc' hperm)
  · simpa only [Contents.isLive, Contents.addedAt?, Option.isSome_eq_false_iff, Option.isNone_iff_eq_none]
      using hadded.dead
  · rw [hadded.quads, Table.get?_insert]

theorem Removed.effect (hremoved : Removed c c' key) (hc : Sound c) (hc' : Sound c')
    (hkey : c.keyOf? q = some key) (hlive : c.isLive key = true) :
    Effect c q h .remove c' := by
  have hperm := liveKeys_erase_perm hremoved.quads hlive
  refine .left hkey ?_ (fun b => ?_) hremoved.ids hremoved.names (hc'.oneMore hc hperm)
  · exact Option.isSome_iff_ne_none.1 hlive
  · rw [hremoved.quads, Table.get?_erase]

end Contents

/-! ## Committed contents -/

def Disk.committed? (disk : Disk) (handle : Handle) : Option Contents :=
  match disk.files.get? handle.location with
  | some (.store c) => some c
  | _ => none

theorem Disk.committed?_eq_some_iff : disk.committed? handle = some c ↔
    disk.files.get? handle.location = some (.store c) := by
  unfold Disk.committed?
  split
  · next c₁ e => rw [e, Option.some.injEq, Option.some.injEq, FileKind.store.injEq]
  · next hnot => exact ⟨nofun, fun e => absurd e (hnot c)⟩

theorem Disk.view_eq_ok_iff_committed : disk.view handle = .ok c ↔
    disk.isClosed handle = false ∧ disk.committed? handle = some c := by
  rw [Disk.view_eq_ok_iff, Disk.committed?_eq_some_iff]

namespace Store

/-- A disk after any calls on a store that was created empty. The store may have been closed. -/
inductive Standing (store : Store) : Disk → Prop
  | created {disk₀ disk : Disk} {path : String} {config : Config} :
      Store.create disk₀ path config = .ok (store, disk) → Standing store disk
  | wrote {disk : Disk} (call : WriteCall) :
      Standing store disk → store.Admits disk call → Standing store (store.after disk call)
  | closed {disk : Disk} : Standing store disk → Standing store (store.close disk)

theorem apply_of_isClosed (hvalid : q.isValid = true) (hclosed : disk.isClosed store.handle = true) :
    store.apply disk kind q tick = .error .closed := by
  unfold apply Disk.beginWrite Disk.snapshot
  rw [hvalid, if_pos hclosed]
  rfl

/-- A closed store refuses every write. -/
theorem exists_apply_of_isClosed (hclosed : disk.isClosed store.handle = true) (kind : ChangeKind)
    (q : Quad) (tick : Bool) : ∃ error, store.apply disk kind q tick = .error error := by
  cases hvalid : q.isValid with
  | false => exact ⟨_, apply_of_not_valid hvalid⟩
  | true => exact ⟨_, apply_of_isClosed hvalid hclosed⟩

theorem after_of_isClosed (hclosed : disk.isClosed store.handle = true) (call : WriteCall) :
    store.after disk call = disk := by
  cases call with
  | add options q =>
    obtain ⟨error, happly⟩ :=
      exists_apply_of_isClosed hclosed .add q options.ignoreDuplicate
    simp only [after, add_of_error happly, answered]
  | remove options q =>
    obtain ⟨error, happly⟩ :=
      exists_apply_of_isClosed hclosed .remove q options.ignoreMissing
    simp only [after, remove_of_error happly, answered]
  | addAll options quads =>
    cases quads with
    | nil => rfl
    | cons q rest =>
      obtain ⟨error, happly⟩ :=
        exists_apply_of_isClosed hclosed .add q options.ignoreDuplicate
      simp only [after, addAll, addAllFrom, add_of_error happly]

theorem committed?_close (store : Store) (disk : Disk) :
    (store.close disk).committed? handle = disk.committed? handle := by
  unfold close Disk.close
  split <;> rfl

/-- The committed contents are sound, also those of a store that was closed. -/
theorem Standing.sound (h : store.Standing disk) :
    ∃ c, disk.committed? store.handle = some c ∧ c.Sound := by
  induction h with
  | created hcreate =>
    have hview := Disk.view_eq_ok_iff_committed.1 (view_create hcreate)
    exact ⟨{}, hview.2, Contents.sound_empty⟩
  | @wrote disk call _ hadmits ih =>
    obtain ⟨c, hcommitted, hc⟩ := ih
    -- On a closed store a call changes nothing; else it keeps soundness as in any run.
    cases hclosed : disk.isClosed store.handle with
    | true =>
      rw [after_of_isClosed hclosed]
      exact ⟨c, hcommitted, hc⟩
    | false =>
      have hview := Disk.view_eq_ok_iff_committed.2 ⟨hclosed, hcommitted⟩
      obtain ⟨c', hview', hc'⟩ := SoundOn.after ⟨c, hview, hc⟩ hadmits
      exact ⟨c', (Disk.view_eq_ok_iff_committed.1 hview').2, hc'⟩
  | closed _ ih => rwa [committed?_close]

/-! ## Writes -/

/-- When a write to the contents `c` fails, and what it changes. Each answer tells what made it. -/
structure Writes (store : Store) (disk : Disk) (c : Contents) (kind : ChangeKind) (q : Quad)
    (tick : Bool) : Prop where
  invalid : ∀ disk, store.apply disk kind q tick = .error (.invalidQuad q) ↔
    q.subject = "" ∨ q.predicate = "" ∨ q.object = ""
  closed : store.apply disk kind q tick = .error .closed ↔
    (q.subject ≠ "" ∧ q.predicate ≠ "" ∧ q.object ≠ "") ∧ store.isClosed disk = true
  failed : ∀ error, store.apply disk kind q tick = .error error →
    (error = .invalidQuad q ∨ error = .closed) ∧
      (answered disk (store.apply disk kind q tick)).committed? store.handle = some c
  rolledBack : ∀ disk', store.apply disk kind q tick = .ok (.rolledBack, disk') →
    tick = false ∧ c.Moot q kind ∧ disk'.committed? store.handle = some c
  noop : ∀ h disk', store.apply disk kind q tick = .ok (.noop h, disk') →
    tick = true ∧ c.Moot q kind ∧ h.val.toNat = (c.counter .horizon).toNat + 1 ∧
      disk'.committed? store.handle = some (c.setCounter .horizon h.val)
  applied : ∀ h disk', store.apply disk kind q tick = .ok (.applied h, disk') →
    ¬ c.Moot q kind ∧ h.val.toNat = (c.counter .horizon).toNat + 1 ∧
      ∃ c', disk'.committed? store.handle = some c' ∧ c'.counter .horizon = h.val ∧
        c.Effect q h kind c'

theorem isValid_eq_true_iff :
    q.isValid = true ↔ q.subject ≠ "" ∧ q.predicate ≠ "" ∧ q.object ≠ "" := by
  unfold Quad.isValid
  simp only [Bool.and_eq_true, bne_iff_ne, and_assoc]

theorem isValid_eq_false_iff :
    q.isValid = false ↔ q.subject = "" ∨ q.predicate = "" ∨ q.object = "" := by
  rw [← Bool.not_eq_true, isValid_eq_true_iff]
  tauto

theorem apply_eq_invalidQuad_iff (disk : Disk) :
    store.apply disk kind q tick = .error (.invalidQuad q) ↔
      q.subject = "" ∨ q.predicate = "" ∨ q.object = "" := by
  rw [← isValid_eq_false_iff]
  refine ⟨fun happly => ?_, apply_of_not_valid⟩
  by_contra hvalid
  unfold apply at happly
  rw [Bool.not_eq_false] at hvalid
  rw [hvalid] at happly
  cases hbegin : disk.beginWrite store.handle with
  | error error =>
    rw [hbegin] at happly
    cases error <;> cases happly
  | ok txn =>
    rw [hbegin] at happly
    simp only [Bool.not_true, Except.mapError, bind, Except.bind] at happly
    generalize txn.contents.apply kind q tick = r at happly
    rcases r with corruption | ⟨_ | _ | _, c'⟩ <;> cases happly

theorem writes_of_error {error : StoreError} (hcommitted : disk.committed? store.handle = some c)
    (happly : store.apply disk kind q tick = .error error)
    (hclosed : error = .closed ↔ q.isValid = true ∧ store.isClosed disk = true)
    (honly : error = .invalidQuad q ∨ error = .closed) : store.Writes disk c kind q tick where
  invalid := apply_eq_invalidQuad_iff
  closed := by rw [happly, ← isValid_eq_true_iff, ← hclosed, Except.error.injEq]
  failed error' h := by
    rw [happly] at h
    cases h
    rw [happly]
    exact ⟨honly, hcommitted⟩
  rolledBack := by rw [happly]; nofun
  noop := by rw [happly]; nofun
  applied := by rw [happly]; nofun

theorem writes_of_wrote (hview : disk.view store.handle = .ok c) (hc : c.Sound) (hc' : c'.Sound)
    (hfits : c.Fits kind q)
    (happly : store.apply disk kind q tick = .ok (change, store.settle disk (change, c')))
    (hwrote : Contents.Wrote c q tick kind change c') : store.Writes disk c kind q tick := by
  have hopen : store.isClosed disk = false := (Disk.view_eq_ok_iff_committed.1 hview).1
  have hcommitted := (Disk.view_eq_ok_iff_committed.1 (view_settle hview hwrote)).2
  have hnext := Contents.toNat_nextHorizon hfits.1
  refine ⟨apply_eq_invalidQuad_iff, ?_, by rw [happly]; nofun, fun disk' h => ?_,
    fun h disk' h' => ?_, fun h disk' h' => ?_⟩
  · rw [happly, hopen]
    exact ⟨nofun, nofun⟩
  · rw [happly] at h
    cases h
    cases hwrote with
    | rolledBack hmoot htick => exact ⟨htick, hmoot, hcommitted⟩
  · rw [happly] at h'
    cases h'
    cases hwrote with
    | ticked hmoot htick => exact ⟨htick, hmoot, hnext, hcommitted⟩
  · rw [happly] at h'
    cases h'
    cases hwrote with
    | added hnot hadded =>
      exact ⟨hnot, hnext, c', hcommitted, hadded.horizon, hadded.effect hc hc'⟩
    | removed hkey hlive hremoved =>
      exact ⟨fun hmoot => hmoot ⟨_, hkey, hlive⟩, hnext, c', hcommitted, hremoved.horizon,
        hremoved.effect hc hc' hkey hlive⟩

/-- A write fails only for an invalid quad or on a closed store, and changes nothing then. Otherwise it
changes the horizon alone, or one quad with all that counts it. -/
theorem Standing.writes (h : store.Standing disk) (kind : ChangeKind) (q : Quad) (tick : Bool)
    (hadmits : store.AdmitsOne disk kind q) :
    ∃ c, disk.committed? store.handle = some c ∧ store.Writes disk c kind q tick := by
  obtain ⟨c, hcommitted, hc⟩ := h.sound
  refine ⟨c, hcommitted, ?_⟩
  cases hvalid : q.isValid with
  | false =>
    exact writes_of_error hcommitted (apply_of_not_valid hvalid) (by simp [hvalid]) (.inl rfl)
  | true =>
    cases hclosed : disk.isClosed store.handle with
    | true =>
      exact writes_of_error hcommitted (apply_of_isClosed hvalid hclosed)
        (by simp [hvalid, isClosed, hclosed]) (.inr rfl)
    | false =>
      have hview := Disk.view_eq_ok_iff_committed.2 ⟨hclosed, hcommitted⟩
      have hfits := hadmits hvalid c hview
      obtain ⟨change, c', happly, hwrote, hc'⟩ := hc.apply hvalid hfits tick
      exact writes_of_wrote hview hc hc' hfits (apply_eq hview hvalid happly) hwrote

/-- A quad that is added a second time, and one that is removed from a closed store. -/
theorem writes_first_quad : ∃ (store : Store) (disk : Disk),
    Store.create {} "db" {} = .ok (store, disk) ∧
      let q : Quad := ⟨"alice", "follows", "bob", ""⟩
      let now := store.after disk (.add {} q)
      (∃ c, now.committed? store.handle = some c ∧ store.Writes now c .add q true ∧
        (store.apply now .add q true).map Prod.fst = .ok (.noop ⟨2⟩)) ∧
      ∃ c, (store.close now).committed? store.handle = some c ∧
        store.Writes (store.close now) c .remove q true ∧
        (store.apply (store.close now) .remove q true).map Prod.fst = .error .closed := by
  have hcreate : Store.create {} "db" {} = .ok (_, _) := rfl
  refine ⟨_, _, hcreate, ?_⟩
  intro q now
  have hnow : Store.Standing _ now := .wrote _ (.created hcreate) (admitsOne_created hcreate)
  obtain ⟨c, hcommitted, hwrites⟩ :=
    hnow.writes .add q true (admitsOne_of_hasRoom (by decide +kernel))
  obtain ⟨c', hcommitted', hwrites'⟩ :=
    hnow.closed.writes .remove q true (admitsOne_of_hasRoom (by decide +kernel))
  exact ⟨⟨c, hcommitted, hwrites, by decide +kernel⟩, c', hcommitted', hwrites', by decide +kernel⟩

end Store

end GraphStore
