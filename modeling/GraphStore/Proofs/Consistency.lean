import GraphStore.Contents.Change
import GraphStore.Proofs.Counting

/-!
# What every write keeps

* `Contents.liveKeys` : the keys of the live quads;
* `Contents.Sound` : all tables are in step with them;
* `Contents.Consistent` : what that says table by table, which `Contents.Sound.consistent_liveKeys` proves;
* `Contents.Fits` : a write does not exhaust ids or horizons;
* `Contents.Wrote` : what a write comes to, and the contents it leaves;
* `Contents.apply_wrote` : a write of a valid quad to sound contents succeeds, comes to one of
  these, and leaves sound contents.
-/

namespace GraphStore.Contents

variable {c c' : Contents} {q : Quad} {key : QuadKey} {kind : ChangeKind} {h : Horizon}

/-! ## Live keys -/

/-- The keys of the live quads. -/
def liveKeys (c : Contents) : List QuadKey := c.quads.keys.filterMap QuadKey.ofBytes?

theorem isLive_eq (c : Contents) (key : QuadKey) :
    c.isLive key = c.quads.contains key.toBytes := rfl

theorem mem_liveKeys : key ∈ c.liveKeys ↔ c.isLive key = true := by
  unfold liveKeys
  rw [List.mem_filterMap, isLive_eq, ← Table.mem_keys]
  simp only [QuadKey.ofBytes?_eq_some_iff, exists_eq_right]

theorem liveKeys_nodup (c : Contents) : c.liveKeys.Nodup := by
  refine List.Nodup.filterMap (fun a b k ha hb => ?_) c.quads.keys_nodup
  rw [Option.mem_def, QuadKey.ofBytes?_eq_some_iff] at ha hb
  exact ha.trans hb.symm

theorem liveKeys_insert_perm (hquads : c'.quads = c.quads.insert key.toBytes h)
    (hdead : c.isLive key = false) : c'.liveKeys.Perm (key :: c.liveKeys) := by
  have hnone : c.quads.get? key.toBytes = none := by
    rw [isLive_eq, Table.contains] at hdead
    simpa using hdead
  have hperm := ((Table.entries_insert_perm h hnone).map Prod.fst).filterMap QuadKey.ofBytes?
  rw [List.map_cons, List.filterMap_cons_some (QuadKey.ofBytes?_toBytes key)] at hperm
  unfold liveKeys
  rwa [hquads]

theorem liveKeys_erase_perm (hquads : c'.quads = c.quads.erase key.toBytes)
    (hlive : c.isLive key = true) : c.liveKeys.Perm (key :: c'.liveKeys) := by
  obtain ⟨h, hsome⟩ := Option.isSome_iff_exists.1 hlive
  have hperm := ((Table.perm_cons_erase hsome).map Prod.fst).filterMap QuadKey.ofBytes?
  rw [List.map_cons, List.filterMap_cons_some (QuadKey.ofBytes?_toBytes key), ← hquads] at hperm
  exact hperm

/-! ## Soundness -/

/-- All tables are in step with the live keys. -/
structure Sound (c : Contents) : Prop where
  naming : Naming c
  encoded : ∀ b, c.quads.contains b = true → ∃ key : QuadKey, b = key.toBytes
  named : ∀ key ∈ c.liveKeys, ∃ q : Quad, q.isValid = true ∧ c.quadOf? key = some q
  filed : ∀ index, Filed c index c.liveKeys
  countsStems : CountsStems c
  counted : Counted c c.liveKeys
  size : (c.counter .size).toNat = c.liveKeys.length
  bounded : c.liveKeys.length ≤ (c.counter .horizon).toNat

theorem sound_empty : Sound {} where
  naming := naming_empty
  encoded := nofun
  named := nofun
  filed index := by
    refine ⟨fun b => ⟨fun h => ?_, nofun⟩, fun _ _ => rfl⟩
    cases index <;> cases h
  countsStems := nofun
  counted := ⟨fun _ => by split <;> rfl, rfl⟩
  size := rfl
  bounded := Nat.le_refl 0

/-! ### Table by table -/

def Interned (c : Contents) (id : NodeId) : Prop :=
  ∃ v, v ≠ "" ∧ c.ids.get? v = some id ∧ c.names.get? id = some v

/-- Every table of the contents holds what a list of keys makes of it. -/
structure Consistent (c : Contents) (Q : List QuadKey) : Prop where
  distinct : Q.Nodup
  quads : ∀ b, c.quads.contains b = true ↔ ∃ key ∈ Q, b = key.toBytes
  entries : ∀ index b, (c.indexes.get index).contains b = true ↔
    ∃ key ∈ Q, b = index.stem key ++ key.toBytes
  /-- The entries under each stem are counted, and there are no counts of zero. -/
  counts : ∀ index stem, stem.length = index.stemWidth →
    (c.counts.get? (index.countKey stem)).map UInt64.toNat = tally? (filedUnder Q index stem)
  countsStems : CountsStems c
  /-- The quads that hold a node are counted, and there are no degrees of zero. -/
  degrees : ∀ id, (c.degrees.get? id).map UInt64.toNat =
    if id.isBlank then none else tally? (holders Q id)
  size : (c.counter .size).toNat = Q.length
  nodes : (c.counter .nodes).toNat = c.degrees.size
  interned : ∀ key ∈ Q, ∀ d, d ≠ .label → (key.get d).isBlank = false ∧ c.Interned (key.get d)
  label : ∀ key ∈ Q, key.label.isBlank = true ∨ c.Interned key.label

theorem Naming.interned (h : Naming c) {id : NodeId} {v : String} (hid : id.isBlank = false)
    (hv : c.nameOf? id = some v) : c.Interned id := by
  unfold nameOf? at hv
  rw [hid, if_neg (by decide)] at hv
  have hget := (h.inverse v id).2 hv
  refine ⟨v, fun e => ?_, hget, hv⟩
  rw [e, h.nonempty] at hget
  cases hget

theorem isValid_get {d : Direction} (hq : q.isValid = true) (hd : d ≠ .label) : q.get d ≠ "" := by
  unfold Quad.isValid at hq
  simp only [Bool.and_eq_true, bne_iff_ne] at hq
  cases d with
  | subject => exact hq.1.1
  | predicate => exact hq.1.2
  | object => exact hq.2
  | label => exact absurd rfl hd

theorem Sound.consistent_liveKeys (h : Sound c) : Consistent c c.liveKeys where
  distinct := c.liveKeys_nodup
  quads b := by
    constructor
    · intro hb
      obtain ⟨key, rfl⟩ := h.encoded b hb
      exact ⟨key, mem_liveKeys.2 hb, rfl⟩
    · rintro ⟨key, hkey, rfl⟩
      exact mem_liveKeys.1 hkey
  entries index b := by
    rw [(h.filed index).entries]
    exact exists_congr fun key => and_congr_right fun _ => eq_comm
  counts index := (h.filed index).counts
  countsStems := h.countsStems
  degrees := h.counted.degrees
  size := h.size
  nodes := h.counted.nodes
  interned key hkey d hd := by
    obtain ⟨q, hvalid, hq⟩ := h.named key hkey
    have hname := quadOf?_eq_some_iff_get.1 hq d
    have hblank : (key.get d).isBlank = false := Bool.eq_false_iff.2 fun hblank => by
      unfold nameOf? at hname
      rw [if_pos hblank] at hname
      exact isValid_get hvalid hd (Option.some.inj hname).symm
    exact ⟨hblank, h.naming.interned hblank hname⟩
  label key hkey := by
    obtain ⟨q, -, hq⟩ := h.named key hkey
    cases hblank : key.label.isBlank with
    | true => exact .inl rfl
    | false => exact .inr (h.naming.interned hblank (quadOf?_eq_some_iff_get.1 hq .label))

/-! ### Point reads -/

theorem Sound.hasEntry (h : Sound c) (index : Index) (key : QuadKey) :
    c.hasEntry index key = c.isLive key := by
  rw [Bool.eq_iff_iff, (h.filed index).hasEntry, mem_liveKeys]

/-- The entries under any stem are counted, whatever its width. -/
theorem Sound.toNat_entryCount (hc : Sound c) (index : Index) (stem : Bytes) :
    (c.entryCount index stem).toNat = filedUnder c.liveKeys index stem := by
  by_cases hstem : stem.length = index.stemWidth
  · exact (hc.filed index).entryCount hstem
  · have hcount : c.counts.get? (index.countKey stem) = none := by
      rw [← Option.not_isSome_iff_eq_none]
      intro hcontains
      obtain ⟨index', stem', hwidth, e⟩ := hc.countsStems _ hcontains
      obtain ⟨rfl, rfl⟩ := Index.countKey_inj.1 e
      exact hstem hwidth
    have hfiled : filedUnder c.liveKeys index stem = 0 := by
      unfold filedUnder
      rw [List.countP_eq_zero]
      intro key _ e
      rw [beq_iff_eq] at e
      exact hstem (e ▸ index.length_stem key)
    unfold entryCount Table.getD
    rw [hcount, hfiled]
    rfl

/-- The live nodes are those that live quads hold, apart from the empty label. -/
theorem Sound.isLiveNode_iff (h : Sound c) {id : NodeId} : c.isLiveNode id = true ↔
    id.isBlank = false ∧ ∃ key, c.isLive key = true ∧ id ∈ key.ids := by
  rw [h.counted.isLiveNode, h.counted.mem_degrees]
  simp only [mem_liveKeys]

/-! ### Soundness of parts -/

theorem Naming.congr (h : Naming c) (hids : c'.ids = c.ids) (hnames : c'.names = c.names)
    (hnext : c'.counter .nextId = c.counter .nextId) : Naming c' where
  inverse := by rw [hids, hnames]; exact h.inverse
  nonempty := by rw [hids]; exact h.nonempty
  assigned := by
    unfold Contents.nextId
    rw [hnames, hnext]
    exact h.assigned

theorem Filed.congr {index : Index} {Q : List QuadKey} (h : Filed c index Q)
    (hindexes : c'.indexes = c.indexes) (hcounts : c'.counts = c.counts) : Filed c' index Q where
  entries := by rw [hindexes]; exact h.entries
  counts := by rw [hcounts]; exact h.counts

theorem Counted.congr {Q : List QuadKey} (h : Counted c Q) (hdegrees : c'.degrees = c.degrees)
    (hnodes : c'.counter .nodes = c.counter .nodes) : Counted c' Q where
  degrees := by rw [hdegrees]; exact h.degrees
  nodes := by rw [hdegrees, hnodes]; exact h.nodes

theorem quadOf?_congr (hnames : c'.names = c.names) (key : QuadKey) :
    c'.quadOf? key = c.quadOf? key := by
  unfold quadOf? nameOf?
  rw [hnames]

theorem Sound.keyOf? (h : Sound c) (hlive : c.isLive key = true) :
    ∃ q : Quad, q.isValid = true ∧ c.keyOf? q = some key := by
  obtain ⟨q, hq, hkey⟩ := h.named key (mem_liveKeys.2 hlive)
  exact ⟨q, hq, h.naming.keyOf?_eq_some_iff.2 hkey⟩

theorem Sound.setHorizon (h : Sound c) {n : UInt64} (hn : (c.counter .horizon).toNat ≤ n.toNat) :
    Sound (c.setCounter .horizon n) := by
  have hother (i : Counter) (hi : i ≠ .horizon) :
      (c.setCounter .horizon n).counter i = c.counter i := by
    rw [counter_setCounter, if_neg hi]
  refine ⟨h.naming.congr rfl rfl (hother _ nofun), h.encoded, h.named,
    fun index => (h.filed index).congr rfl rfl, h.countsStems, h.counted.congr rfl (hother _ nofun),
    ?_, ?_⟩
  · rw [hother .size nofun]
    exact h.size
  · rw [counter_setCounter, if_pos rfl]
    exact Nat.le_trans h.bounded hn

/-! ## Writes -/

def Holds (c : Contents) (q : Quad) : Prop := ∃ key, c.keyOf? q = some key ∧ c.isLive key = true

/-- The horizon of the next write. -/
def nextHorizon (c : Contents) : Horizon := (Horizon.mk (c.counter .horizon)).next

/-- A write of a quad finds a horizon, and an add finds ids for its values. -/
def Fits (c : Contents) (kind : ChangeKind) (q : Quad) : Prop :=
  (c.counter .horizon).toNat + 1 < 2 ^ 64 ∧ (kind = .add → c.RoomFor q.values)

theorem toNat_nextHorizon (hfits : (c.counter .horizon).toNat + 1 < 2 ^ 64) :
    c.nextHorizon.val.toNat = (c.counter .horizon).toNat + 1 :=
  Horizon.toNat_next hfits

theorem roomFor_of_lt {values : List String}
    (h : c.nextId.val.toNat + values.length < 2 ^ 64) : c.RoomFor values := by
  induction values generalizing c with
  | nil => trivial
  | cons v rest ih =>
    have hnext := nextId_toNat c
    rw [List.length_cons] at h
    refine ⟨fun _ => by omega, ih ?_⟩
    cases hv : c.idOf? v with
    | some id =>
      rw [intern_of_some hv]
      simp only
      omega
    | none =>
      have hnext' := nextId_toNat (c.intern v).2
      have hcounter : (c.intern v).2.counter .nextId = c.nextId.val + 1 := by
        rw [intern_of_none hv]
        exact (counter_setCounter c .nextId .nextId _).trans (if_pos rfl)
      have hsucc : (c.nextId.val + 1).toNat = c.nextId.val.toNat + 1 := by
        rw [UInt64.toNat_add]
        exact Nat.mod_eq_of_lt (by simp only [UInt64.reduceToNat]; omega)
      rw [hcounter, hsucc] at hnext'
      omega

/-- `c'` is `c` with one more quad. -/
structure Added (c c' : Contents) (q : Quad) (key : QuadKey) : Prop where
  dead : c.isLive key = false
  keyOf : c'.keyOf? q = some key
  ids : ∀ v id, c.ids.get? v = some id → c'.ids.get? v = some id
  names : ∀ id v, c.names.get? id = some v → c'.names.get? id = some v
  quads : c'.quads = c.quads.insert key.toBytes c.nextHorizon
  horizon : c'.counter .horizon = c.nextHorizon.val

/-- `c'` is `c` without one quad. -/
structure Removed (c c' : Contents) (key : QuadKey) : Prop where
  ids : c'.ids = c.ids
  names : c'.names = c.names
  quads : c'.quads = c.quads.erase key.toBytes
  horizon : c'.counter .horizon = c.nextHorizon.val

/-- A write that has nothing to do: the quad to add is live, the one to remove is not. -/
def Moot (c : Contents) (q : Quad) : ChangeKind → Prop
  | .add => c.Holds q
  | .remove => ¬ c.Holds q

/-- What a write comes to, and the contents it leaves. -/
inductive Wrote (c : Contents) (q : Quad) (tick : Bool) :
    ChangeKind → Change → Contents → Prop
  | added {c' : Contents} {key : QuadKey} :
      ¬ c.Holds q → Added c c' q key → Wrote c q tick .add (.applied c.nextHorizon) c'
  | removed {c' : Contents} {key : QuadKey} :
      c.keyOf? q = some key → c.isLive key = true → Removed c c' key →
        Wrote c q tick .remove (.applied c.nextHorizon) c'
  | ticked {kind : ChangeKind} :
      c.Moot q kind → tick = true →
        Wrote c q tick kind (.noop c.nextHorizon) (c.setCounter .horizon c.nextHorizon.val)
  | rolledBack {kind : ChangeKind} :
      c.Moot q kind → tick = false → Wrote c q tick kind .rolledBack c

/-! ### The last steps of a write -/

/-- The contents once the members of a key, the size and the horizon have moved. -/
def close (c : Contents) (key : QuadKey) (distance : Int) (h : Horizon) : Contents :=
  ((c.shiftMembers key distance).shiftCounter .size distance).setCounter .horizon h.val

theorem close_eq (c : Contents) (key : QuadKey) (distance : Int) (h : Horizon) :
    c.close key distance h = { c with
      degrees := (c.close key distance h).degrees
      counters := (c.close key distance h).counters } := by
  unfold close shiftCounter setCounter
  rw [shiftMembers_eq]

theorem names_close (c : Contents) (key : QuadKey) (distance : Int) (h : Horizon) :
    (c.close key distance h).names = c.names := by
  rw [close_eq]

theorem ids_close (c : Contents) (key : QuadKey) (distance : Int) (h : Horizon) :
    (c.close key distance h).ids = c.ids := by
  rw [close_eq]

theorem quads_close (c : Contents) (key : QuadKey) (distance : Int) (h : Horizon) :
    (c.close key distance h).quads = c.quads := by
  rw [close_eq]

theorem horizon_close (c : Contents) (key : QuadKey) (distance : Int) (h : Horizon) :
    (c.close key distance h).counter .horizon = h.val := by
  unfold close
  rw [counter_setCounter, if_pos rfl]

/-- The last steps of a write make contents sound that are filed for their live keys. -/
theorem close_sound {distance : Int} (hnaming : Naming c)
    (hencoded : ∀ b, c.quads.contains b = true → ∃ key : QuadKey, b = key.toBytes)
    (hnamed : ∀ key ∈ c.liveKeys, ∃ q : Quad, q.isValid = true ∧ c.quadOf? key = some q)
    (hfiled : ∀ index, Filed c index c.liveKeys) (hstems : CountsStems c)
    (hcounted : Counted (c.shiftMembers key distance) c.liveKeys)
    (hsize : (shifted (c.counter .size) distance).toNat = c.liveKeys.length)
    (hbounded : c.liveKeys.length ≤ h.val.toNat) : Sound (c.close key distance h) := by
  have hindexes : (c.close key distance h).indexes = c.indexes := by rw [close_eq]
  have hcounts : (c.close key distance h).counts = c.counts := by rw [close_eq]
  have hquads := quads_close c key distance h
  have hlive : (c.close key distance h).liveKeys = c.liveKeys := by
    unfold liveKeys
    rw [hquads]
  refine ⟨hnaming.congr (ids_close _ _ _ _) (names_close _ _ _ _) ?_, ?_, fun key hkey => ?_,
    fun index => ?_, ?_, ?_, ?_, ?_⟩
  · unfold close shiftCounter
    rw [counter_setCounter, if_neg (by decide), counter_setCounter, if_neg (by decide),
      counter_shiftMembers (by decide)]
  · rwa [hquads]
  · rw [quadOf?_congr (names_close _ _ _ _)]
    exact hnamed key (hlive ▸ hkey)
  · rw [hlive]
    exact (hfiled index).congr hindexes hcounts
  · unfold CountsStems
    rw [hcounts]
    exact hstems
  · rw [hlive]
    refine hcounted.congr rfl ?_
    unfold close shiftCounter
    rw [counter_setCounter, if_neg (by decide), counter_setCounter, if_neg (by decide)]
  · rw [hlive, ← hsize]
    unfold close shiftCounter
    rw [counter_setCounter, if_neg (by decide), counter_setCounter, if_pos rfl,
      counter_shiftMembers (by decide)]
  · rwa [hlive, horizon_close]

/-! ### Adding -/

theorem addQuad_of_holds (hq : c.Holds q) (h : Horizon) : c.addQuad q h = .ok (false, c) := by
  obtain ⟨key, hkey, hlive⟩ := hq
  obtain ⟨added, hadded⟩ := Option.isSome_iff_exists.1 hlive
  unfold addQuad record
  simp only [internQuad_of_keyOf? hkey, hadded]

/-- The key that a quad is interned under is new if the quad is not live. -/
theorem Sound.internQuad_dead (hc : Sound c) (hq : ¬ c.Holds q) (hroom : c.RoomFor q.values) :
    c.isLive (c.internQuad q).1 = false := by
  obtain ⟨hnaming, hinterns, hkey⟩ := hc.naming.internQuad hroom
  refine Bool.eq_false_iff.2 fun hlive => hq ⟨_, ?_, hlive⟩
  obtain ⟨q', -, hq'⟩ := hc.keyOf? hlive
  have hsame := hnaming.keyOf?_eq_some_iff.1 hkey
  rw [hinterns.quadOf? (hc.naming.keyOf?_eq_some_iff.1 hq')] at hsame
  exact Option.some.inj hsame ▸ hq'

theorem Sound.addQuad (hc : Sound c) (hq : ¬ c.Holds q) (hvalid : q.isValid = true)
    (hfits : c.Fits .add q) : ∃ c' key, c.addQuad q c.nextHorizon = .ok (true, c') ∧
      Added c (c'.setCounter .horizon c.nextHorizon.val) q key ∧
      Sound (c'.setCounter .horizon c.nextHorizon.val) := by
  obtain ⟨hhorizon, hroom⟩ := hfits
  have hroom := hroom rfl
  have hlen : c.liveKeys.length + 1 < 2 ^ 64 :=
    Nat.lt_of_le_of_lt (Nat.succ_le_succ hc.bounded) hhorizon
  have hdead := hc.internQuad_dead hq hroom
  obtain ⟨hnaming, hinterns, hkey⟩ := hc.naming.internQuad hroom
  generalize hintern : c.internQuad q = r at hdead hnaming hinterns hkey
  obtain ⟨key, c₁⟩ := r
  simp only at hdead hnaming hinterns hkey
  have hdead₁ : c₁.addedAt? key = none := by
    unfold addedAt?
    rw [hinterns.quads]
    simpa [isLive_eq, Table.contains] using hdead
  have hfresh : key ∉ c.liveKeys := fun hmem => by
    rw [mem_liveKeys, hdead] at hmem
    cases hmem
  let c₂ : Contents := { c₁ with quads := c₁.quads.insert key.toBytes c.nextHorizon }
  obtain ⟨hcount, hfiled, hreindexed⟩ := addEntries_filed (c := c₂)
    (fun index => (hc.filed index).congr hinterns.indexes hinterns.counts) hfresh hlen
  generalize hentries : c₂.addEntries key = s at hcount hfiled hreindexed
  obtain ⟨n, c₃⟩ := s
  simp only at hcount hfiled hreindexed
  have hcounter₃ (i : Counter) : c₃.counter i = c₁.counter i := by
    unfold Contents.counter
    rw [hreindexed.counters]
  have hquads : c₃.quads = c.quads.insert key.toBytes c.nextHorizon := by
    rw [hreindexed.quads, ← hinterns.quads]
  have hperm := liveKeys_insert_perm hquads hdead
  have hadd : c.addQuad q c.nextHorizon =
      .ok (true, (c₃.retain key).shiftCounter .size 1) := by
    unfold Contents.addQuad record
    simp only [hintern, hdead₁]
    change (if (c₂.addEntries key).1 = _ then _ else _) = _
    rw [hentries, if_pos hcount]
  have hkey₃ : (c₃.close key 1 c.nextHorizon).keyOf? q = some key := by
    rw [keyOf?_eq_some_iff_get] at hkey ⊢
    intro d
    unfold idOf?
    rw [ids_close, hreindexed.ids]
    exact hkey d
  refine ⟨_, key, hadd, ⟨hdead, hkey₃, fun v id hv => ?_, fun id v hv => ?_, ?_, ?_⟩, ?_⟩
  · change (c₃.close key 1 c.nextHorizon).ids.get? v = _
    rw [ids_close, hreindexed.ids]
    exact hinterns.ids v id hv
  · change (c₃.close key 1 c.nextHorizon).names.get? id = _
    rw [names_close, hreindexed.names]
    exact hinterns.names id v hv
  · exact (quads_close _ _ _ _).trans hquads
  · exact horizon_close _ _ _ _
  · refine close_sound (hnaming.congr hreindexed.ids hreindexed.names (hcounter₃ _))
      (fun b hb => ?_) (fun k hk => ?_) (fun index => (hfiled index).perm hperm.symm)
      (hreindexed.countsStems ?_) (Counted.perm ?_ hperm.symm) ?_ ?_
    · rw [hquads, Table.contains_insert, Bool.or_eq_true, decide_eq_true_eq] at hb
      rcases hb with rfl | hb
      · exact ⟨key, rfl⟩
      · exact hc.encoded b hb
    · rw [quadOf?_congr hreindexed.names]
      rcases List.mem_cons.1 (hperm.mem_iff.1 hk) with rfl | hk
      · exact ⟨q, hvalid, hnaming.keyOf?_eq_some_iff.1 hkey⟩
      · obtain ⟨q', hvalid', hq'⟩ := hc.named k hk
        exact ⟨q', hvalid', hinterns.quadOf? hq'⟩
    · unfold CountsStems
      rw [show c₂.counts = c.counts from hinterns.counts]
      exact hc.countsStems
    · exact retain_counted (hc.counted.congr (hreindexed.degrees.trans hinterns.degrees)
        ((hcounter₃ _).trans (hinterns.counter _ (by decide)))) key hlen
    · rw [hcounter₃, hinterns.counter .size (by decide), hperm.length_eq, List.length_cons, ← hc.size]
      exact toNat_shifted_one (by rw [hc.size]; exact hlen)
    · rw [hperm.length_eq, toNat_nextHorizon hhorizon, List.length_cons]
      exact Nat.succ_le_succ hc.bounded

/-! ### Removing -/

theorem removeQuad_of_not_holds (hq : ¬ c.Holds q) : c.removeQuad q = .ok (false, c) := by
  unfold removeQuad
  split
  · rfl
  · next key hkey =>
    have hdead : c.addedAt? key = none := by
      rw [← Option.not_isSome_iff_eq_none]
      exact fun hlive => hq ⟨key, hkey, hlive⟩
    unfold forget
    rw [hdead]

theorem Sound.removeQuad (hc : Sound c) (hkey : c.keyOf? q = some key)
    (hlive : c.isLive key = true) (hhorizon : (c.counter .horizon).toNat + 1 < 2 ^ 64) :
    ∃ c', c.removeQuad q = .ok (true, c') ∧
      Removed c (c'.setCounter .horizon c.nextHorizon.val) key ∧
      Sound (c'.setCounter .horizon c.nextHorizon.val) := by
  obtain ⟨added, hadded⟩ := Option.isSome_iff_exists.1 hlive
  let c₂ : Contents := { c with quads := c.quads.erase key.toBytes }
  have hperm : c.liveKeys.Perm (key :: c₂.liveKeys) := liveKeys_erase_perm rfl hlive
  obtain ⟨hcount, hfiled, hreindexed⟩ := removeEntries_filed (c := c₂)
    (fun index => ((hc.filed index).perm hperm).congr rfl rfl) (hperm.nodup c.liveKeys_nodup)
  generalize hentries : c₂.removeEntries key = s at hcount hfiled hreindexed
  obtain ⟨n, c₃⟩ := s
  simp only at hcount hfiled hreindexed
  have hcounter₃ (i : Counter) : c₃.counter i = c.counter i := by
    unfold Contents.counter
    rw [hreindexed.counters]
  have hlive₃ : c₃.liveKeys = c₂.liveKeys := by
    unfold liveKeys
    rw [hreindexed.quads]
  have hremove : c.removeQuad q = .ok (true, (c₃.release key).shiftCounter .size (-1)) := by
    unfold Contents.removeQuad forget
    simp only [hkey, hadded]
    change (if (c₂.removeEntries key).1 = _ then _ else _) = _
    rw [hentries, if_pos hcount]
  have hlength : c.liveKeys.length = c₂.liveKeys.length + 1 := hperm.length_eq
  refine ⟨_, hremove, ⟨(ids_close _ _ _ _).trans hreindexed.ids,
    (names_close _ _ _ _).trans hreindexed.names, (quads_close _ _ _ _).trans hreindexed.quads,
    horizon_close _ _ _ _⟩, ?_⟩
  refine close_sound (hc.naming.congr hreindexed.ids hreindexed.names (hcounter₃ _))
    (fun b hb => ?_) (fun k hk => ?_) (fun index => hlive₃ ▸ hfiled index)
    (hreindexed.countsStems hc.countsStems) ?_ ?_ ?_
  · rw [hreindexed.quads, Table.contains_erase, Bool.and_eq_true] at hb
    exact hc.encoded b hb.2
  · rw [quadOf?_congr hreindexed.names]
    rw [hlive₃] at hk
    exact hc.named k (hperm.mem_iff.2 (List.mem_cons_of_mem _ hk))
  · rw [hlive₃]
    exact release_counted ((hc.counted.congr hreindexed.degrees (hcounter₃ _)).perm hperm)
  · rw [hcounter₃, hlive₃, toNat_shifted_neg_one, hc.size]
    omega
  · rw [hlive₃, toNat_nextHorizon hhorizon]
    have := hc.bounded
    omega

/-! ### Any write -/

/-- A write before it takes its horizon: whether it had an effect, and the contents it left. -/
def attempt (c : Contents) (kind : ChangeKind) (q : Quad) : Except Corruption (Bool × Contents) :=
  match kind with
  | .add => c.addQuad q c.nextHorizon
  | .remove => c.removeQuad q

/-- A write is the attempt, and then its horizon. -/
theorem apply_eq_attempt (c : Contents) (kind : ChangeKind) (q : Quad) (tick : Bool) :
    c.apply kind q tick = c.attempt kind q >>= fun r =>
      if r.1 then .ok (.applied c.nextHorizon, r.2.setCounter .horizon c.nextHorizon.val)
      else if tick then .ok (.noop c.nextHorizon, r.2.setCounter .horizon c.nextHorizon.val)
      else .ok (.rolledBack, c) := by
  cases kind <;> rfl

theorem apply_of_attempt {effect tick : Bool} (h : c.attempt kind q = .ok (effect, c')) :
    c.apply kind q tick = .ok (
      if effect then (.applied c.nextHorizon, c'.setCounter .horizon c.nextHorizon.val)
      else if tick then (.noop c.nextHorizon, c'.setCounter .horizon c.nextHorizon.val)
      else (.rolledBack, c)) := by
  rw [apply_eq_attempt, h]
  cases effect <;> cases tick <;> rfl

/-- A write of a valid quad to sound contents succeeds and leaves sound contents. -/
theorem Sound.apply (hc : Sound c) (hvalid : q.isValid = true) (hfits : c.Fits kind q)
    (tick : Bool) :
    ∃ change c', c.apply kind q tick = .ok (change, c') ∧ Wrote c q tick kind change c' ∧
      Sound c' := by
  -- A write without effect leaves the contents it was given, up to the horizon.
  have hmoot (hm : c.Moot q kind) (hattempt : c.attempt kind q = .ok (false, c)) :
      ∃ change c', c.apply kind q tick = .ok (change, c') ∧ Wrote c q tick kind change c' ∧
        Sound c' := by
    rw [apply_of_attempt hattempt]
    cases tick with
    | true =>
      refine ⟨_, _, rfl, .ticked hm rfl, hc.setHorizon ?_⟩
      rw [toNat_nextHorizon hfits.1]
      exact Nat.le_succ _
    | false => exact ⟨_, _, rfl, .rolledBack hm rfl, hc⟩
  cases kind with
  | add =>
    by_cases hq : c.Holds q
    · exact hmoot hq (addQuad_of_holds hq _)
    · obtain ⟨c', key, hadd, hadded, hsound⟩ := hc.addQuad hq hvalid hfits
      exact ⟨_, _, apply_of_attempt hadd, .added hq hadded, hsound⟩
  | remove =>
    by_cases hq : c.Holds q
    · obtain ⟨key, hkey, hlive⟩ := hq
      obtain ⟨c', hremove, hremoved, hsound⟩ := hc.removeQuad hkey hlive hfits.1
      exact ⟨_, _, apply_of_attempt hremove, .removed hkey hlive hremoved,
        hsound⟩
    · exact hmoot hq (removeQuad_of_not_holds hq)

end GraphStore.Contents
