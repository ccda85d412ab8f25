import GraphStore.Model
import GraphStore.Proofs.Run

/-!
# Stores and the reference model

* `Contents.model` : the live quads by value, and the horizon;
* `Contents.Wrote.model_add`, `Contents.Wrote.model_remove` : a write does to it what the model does;
* `Contents.Sound.toNat_degree`, `Contents.Sound.size_degrees` : degrees count the same on both sides;
* `Store.Shows` : all reads of a store agree with a model;
* `Store.AddsAs`, `Store.RemovesAs` : so do the answers and effects of writes.
-/

namespace GraphStore

/-! ## Degrees of the model -/

theorem Quad.mem_values {q : Quad} {v : String} : v ∈ q.values ↔ ∃ d, q.get d = v := by
  unfold values
  rw [List.mem_map]
  refine exists_congr fun d => and_iff_right ?_
  cases d <;> decide

theorem Quad.mem_members {q : Quad} {v : String} : v ∈ q.members ↔ v ∈ q.values ∧ v ≠ "" := by
  unfold members
  rw [SortedSet.mem_keys_ofList, List.mem_filter, bne_iff_ne]

namespace Model

variable {m : Model} {v : String}

def tallied (t : Table String Nat) (values : List String) : Table String Nat :=
  values.foldl (fun t v => t.insert v (t.getD v 0 + 1)) t

theorem getD_tallied (t : Table String Nat) (values : List String) (v : String) :
    (tallied t values).getD v 0 = t.getD v 0 + values.count v := by
  induction values generalizing t with
  | nil => rfl
  | cons w rest ih =>
    change (tallied (t.insert w (t.getD w 0 + 1)) rest).getD v 0 = _
    rw [ih, Table.getD_insert, List.count_cons]
    by_cases hw : v = w
    · subst hw
      simp
      omega
    · simp [hw, Ne.symm hw]

theorem contains_tallied (t : Table String Nat) (values : List String) (v : String) :
    (tallied t values).contains v = true ↔ v ∈ values ∨ t.contains v = true := by
  induction values generalizing t with
  | nil => simp [tallied]
  | cons w rest ih =>
    change (tallied (t.insert w (t.getD w 0 + 1)) rest).contains v = true ↔ _
    rw [ih, Table.contains_insert, Bool.or_eq_true, decide_eq_true_eq, List.mem_cons]
    tauto

theorem count_flatMap_members (quads : List Quad) (v : String) :
    (quads.flatMap Quad.members).count v = quads.countP fun q => decide (v ∈ q.members) := by
  induction quads with
  | nil => rfl
  | cons q rest ih =>
    have hnodup : q.members.Nodup := Table.keys_nodup _
    rw [List.flatMap_cons, List.count_append, ih, List.countP_cons, Nat.add_comm]
    by_cases hv : v ∈ q.members
    · simp [hv, List.count_eq_one_of_mem hnodup hv]
    · simp [hv, List.count_eq_zero_of_not_mem hv]

theorem getD_degrees (m : Model) (v : String) :
    m.degrees.getD v 0 = m.quads.keys.countP fun q => decide (v ∈ q.members) := by
  rw [← count_flatMap_members]
  have hcount := getD_tallied ∅ (m.quads.keys.flatMap Quad.members) v
  rwa [show (∅ : Table String Nat).getD v 0 = 0 from rfl, Nat.zero_add] at hcount

theorem contains_degrees : m.degrees.contains v = true ↔ ∃ q, m.contains q = true ∧ v ∈ q.members := by
  have := contains_tallied ∅ (m.quads.keys.flatMap Quad.members) v
  unfold degrees tallied at *
  rw [this, List.mem_flatMap]
  simp only [Table.mem_keys, contains, Table.contains, Table.get?_empty]
  simp

end Model

namespace Contents

variable {c c' : Contents} {q q' : Quad} {key : QuadKey} {kind : ChangeKind} {tick : Bool}
  {change : Change} {v : String} {id : NodeId}

/-- The live quads by value, and the horizon. -/
def model (c : Contents) : Model where
  quads := .ofList (c.liveKeys.filterMap c.quadOf?)
  horizon := ⟨c.counter .horizon⟩

/-! ## Live quads by value -/

theorem Sound.contains_model (h : Sound c) : c.model.contains q = true ↔ c.Holds q := by
  unfold Model.contains model Holds
  rw [SortedSet.contains_ofList, List.mem_filterMap]
  refine exists_congr fun key => ?_
  rw [mem_liveKeys, h.naming.keyOf?_eq_some_iff, and_comm]

theorem Sound.quads_nodup (h : Sound c) : (c.liveKeys.filterMap c.quadOf?).Nodup := by
  refine c.liveKeys_nodup.filterMap fun a b q ha hb => ?_
  rw [Option.mem_def, ← h.naming.keyOf?_eq_some_iff] at ha hb
  exact Option.some.inj (ha.symm.trans hb)

theorem Sound.keys_model_perm (h : Sound c) :
    c.model.quads.keys.Perm (c.liveKeys.filterMap c.quadOf?) :=
  SortedSet.keys_ofList_perm h.quads_nodup

theorem Sound.size_model (h : Sound c) : c.model.quads.size = c.liveKeys.length := by
  rw [← Table.length_keys, h.keys_model_perm.length_eq, List.length_filterMap_eq_countP,
    List.countP_eq_length]
  intro key hkey
  obtain ⟨q, -, hq⟩ := h.named key hkey
  rw [hq]
  rfl

theorem Sound.model_eq (h : Sound c) {m : Model} (hm : ∀ q, m.contains q = true ↔ c.Holds q)
    (hhorizon : m.horizon = ⟨c.counter .horizon⟩) : c.model = m := by
  obtain ⟨quads, horizon⟩ := m
  have hquads : c.model.quads = quads := SortedSet.ext_contains fun q =>
    Bool.eq_iff_iff.2 (h.contains_model.trans (hm q).symm)
  have hh : c.model.horizon = horizon := hhorizon.symm
  rw [← hquads, ← hh]

/-! ## What writes do to it -/

theorem keyOf?_mono (hids : ∀ v id, c.ids.get? v = some id → c'.ids.get? v = some id)
    (hq : c.keyOf? q = some key) : c'.keyOf? q = some key := by
  rw [keyOf?_eq_some_iff_get] at hq ⊢
  exact fun d => idOf?_mono hids (hq d)

theorem Added.addedAt? (h : Added c c' q key) (k : QuadKey) :
    c'.addedAt? k = if k = key then some c.nextHorizon else c.addedAt? k := by
  unfold Contents.addedAt?
  rw [h.quads, Table.get?_insert]
  simp only [QuadKey.toBytes_inj]

theorem Added.isLive (h : Added c c' q key) (k : QuadKey) :
    c'.isLive k = true ↔ k = key ∨ c.isLive k = true := by
  rw [isLive_eq, h.quads, Table.contains_insert, Bool.or_eq_true, decide_eq_true_eq,
    QuadKey.toBytes_inj, isLive_eq]

theorem Added.holds (h : Added c c' q key) (hc : Sound c) (hc' : Sound c') :
    c'.Holds q' ↔ q' = q ∨ c.Holds q' := by
  constructor
  · rintro ⟨k, hkey, hlive⟩
    rcases (h.isLive k).1 hlive with rfl | hlive
    · have hq := hc'.naming.keyOf?_eq_some_iff.1 h.keyOf
      rw [hc'.naming.keyOf?_eq_some_iff.1 hkey] at hq
      exact .inl (Option.some.inj hq)
    · obtain ⟨q₀, -, hq₀⟩ := hc.keyOf? hlive
      have hq := hc'.naming.keyOf?_eq_some_iff.1 (keyOf?_mono h.ids hq₀)
      rw [hc'.naming.keyOf?_eq_some_iff.1 hkey] at hq
      exact .inr ⟨k, Option.some.inj hq ▸ hq₀, hlive⟩
  · rintro (rfl | ⟨k, hkey, hlive⟩)
    · exact ⟨key, h.keyOf, (h.isLive key).2 (.inl rfl)⟩
    · exact ⟨k, keyOf?_mono h.ids hkey, (h.isLive k).2 (.inr hlive)⟩

theorem Removed.keyOf? (h : Removed c c' key) (q : Quad) : c'.keyOf? q = c.keyOf? q := by
  unfold Contents.keyOf? Contents.idOf?
  rw [h.ids]

theorem Removed.addedAt? (h : Removed c c' key) (k : QuadKey) :
    c'.addedAt? k = if k = key then none else c.addedAt? k := by
  unfold Contents.addedAt?
  rw [h.quads, Table.get?_erase]
  simp only [QuadKey.toBytes_inj]

theorem Removed.isLive (h : Removed c c' key) (k : QuadKey) :
    c'.isLive k = true ↔ k ≠ key ∧ c.isLive k = true := by
  rw [isLive_eq, h.quads, Table.contains_erase, Bool.and_eq_true, Bool.not_eq_true',
    decide_eq_false_iff_not, QuadKey.toBytes_inj, isLive_eq]

theorem Removed.holds (h : Removed c c' key) (hc : Sound c) (hq : c.keyOf? q = some key) :
    c'.Holds q' ↔ q' ≠ q ∧ c.Holds q' := by
  unfold Holds
  simp only [h.keyOf?, h.isLive]
  constructor
  · rintro ⟨k, hkey, hne, hlive⟩
    exact ⟨fun e => hne (Option.some.inj (hkey.symm.trans (e ▸ hq))), k, hkey, hlive⟩
  · rintro ⟨hne, k, hkey, hlive⟩
    refine ⟨k, hkey, fun e => hne ?_, hlive⟩
    rw [e, hc.naming.keyOf?_eq_some_iff] at hkey
    rw [hc.naming.keyOf?_eq_some_iff, hkey] at hq
    exact Option.some.inj hq

theorem Wrote.model_add (h : Wrote c q tick .add change c') (hc : Sound c) (hc' : Sound c')
    (hchange : change ≠ .rolledBack) : c'.model = (c.model.add q).2 := by
  have hcontains (q' : Quad) :
      (c.model.add q).2.contains q' = true ↔ q' = q ∨ c.Holds q' := by
    unfold Model.add Model.contains
    rw [SortedSet.contains_add, Bool.or_eq_true, decide_eq_true_eq]
    exact or_congr_right hc.contains_model
  cases h with
  | added hq hadded =>
    refine hc'.model_eq (fun q' => (hcontains q').trans (hadded.holds hc hc').symm) ?_
    rw [hadded.horizon]
    rfl
  | ticked hq =>
    refine hc'.model_eq (fun q' => (hcontains q').trans ?_) ?_
    · exact or_iff_right_of_imp fun e => e ▸ hq
    · rw [counter_setCounter, if_pos rfl]
      rfl
  | rolledBack => exact absurd rfl hchange

theorem Wrote.model_remove (h : Wrote c q tick .remove change c') (hc : Sound c) (hc' : Sound c')
    (hchange : change ≠ .rolledBack) : c'.model = (c.model.remove q).2 := by
  have hcontains (q' : Quad) :
      (c.model.remove q).2.contains q' = true ↔ q' ≠ q ∧ c.Holds q' := by
    unfold Model.remove Model.contains
    rw [Table.contains_erase, Bool.and_eq_true, Bool.not_eq_true', decide_eq_false_iff_not]
    exact and_congr_right fun _ => hc.contains_model
  cases h with
  | removed hkey hlive hremoved =>
    refine hc'.model_eq (fun q' => (hcontains q').trans (hremoved.holds hc hkey).symm) ?_
    rw [hremoved.horizon]
    rfl
  | ticked hq =>
    refine hc'.model_eq (fun q' => (hcontains q').trans ?_) ?_
    · exact and_iff_right_of_imp fun hq' e => hq (e ▸ hq')
    · rw [counter_setCounter, if_pos rfl]
      rfl
  | rolledBack => exact absurd rfl hchange

/-! ## Degrees -/

theorem Naming.mem_ids_iff (h : Naming c) (hq : c.quadOf? key = some q)
    (hv : c.idOf? v = some id) : id ∈ key.ids ↔ v ∈ q.values := by
  rw [QuadKey.mem_ids, Quad.mem_values]
  refine exists_congr fun d => ?_
  have hd := quadOf?_eq_some_iff_get.1 hq d
  constructor
  · rintro rfl
    rw [h.idOf?_eq_some_iff, hd] at hv
    exact Option.some.inj hv
  · rintro rfl
    rw [h.idOf?_eq_some_iff.2 hd] at hv
    exact Option.some.inj hv

/-- The degree of an id is that of its value. -/
theorem Sound.toNat_degree (h : Sound c) (hv : c.idOf? v = some id) (hne : v ≠ "") :
    (c.degree id).toNat = c.model.degrees.getD v 0 := by
  have hget : c.ids.get? v = some id := by rwa [idOf?, if_neg hne] at hv
  have hblank : id.isBlank = false := Bool.eq_false_iff.2 fun e => by
    have hpos := h.naming.pos hget
    rw [NodeId.isBlank_iff.1 e] at hpos
    exact absurd hpos (by decide)
  rw [h.counted.toNat_degree hblank, Model.getD_degrees, h.keys_model_perm.countP_eq,
    List.countP_filterMap]
  unfold holders
  refine List.countP_congr fun key hkey => ?_
  obtain ⟨q, -, hq⟩ := h.named key hkey
  have hmem := h.naming.mem_ids_iff hq hv
  simp [hq, Quad.mem_members, hne, hmem]

/-- There are as many live nodes as values with a degree. -/
theorem Sound.size_degrees (h : Sound c) : c.degrees.size = c.model.degrees.size := by
  have hlength : (c.degrees.keys.filterMap c.nameOf?).length = c.degrees.keys.length := by
    rw [List.length_filterMap_eq_countP, List.countP_eq_length]
    intro id hid
    rw [Table.mem_keys, h.counted.mem_degrees] at hid
    obtain ⟨-, key, hkey, hmem⟩ := hid
    obtain ⟨q, -, hq⟩ := h.named key hkey
    obtain ⟨d, rfl⟩ := QuadKey.mem_ids.1 hmem
    rw [quadOf?_eq_some_iff_get.1 hq d]
    rfl
  have hperm : (c.degrees.keys.filterMap c.nameOf?).Perm c.model.degrees.keys := by
    refine (List.perm_ext_iff_of_nodup ?_ (Table.keys_nodup _)).2 fun v => ?_
    · refine (Table.keys_nodup _).filterMap fun a b v ha hb => ?_
      rw [Option.mem_def, ← h.naming.idOf?_eq_some_iff] at ha hb
      exact Option.some.inj (ha.symm.trans hb)
    · rw [List.mem_filterMap, Table.mem_keys, Model.contains_degrees]
      simp only [Table.mem_keys, h.counted.mem_degrees]
      constructor
      · rintro ⟨id, ⟨hblank, key, hkey, hmem⟩, hv⟩
        obtain ⟨q, -, hq⟩ := h.named key hkey
        refine ⟨q, h.contains_model.2 ⟨key, h.naming.keyOf?_eq_some_iff.2 hq, mem_liveKeys.1 hkey⟩,
          Quad.mem_members.2 ⟨?_, fun e => ?_⟩⟩
        · exact (h.naming.mem_ids_iff hq (h.naming.idOf?_eq_some_iff.2 hv)).1 hmem
        · rw [← h.naming.idOf?_eq_some_iff, e, idOf?, if_pos rfl] at hv
          rw [← Option.some.inj hv] at hblank
          exact absurd hblank (by decide)
      · rintro ⟨q, hq, hv⟩
        obtain ⟨key, hkey, hlive⟩ := h.contains_model.1 hq
        obtain ⟨hv, hne⟩ := Quad.mem_members.1 hv
        obtain ⟨d, rfl⟩ := Quad.mem_values.1 hv
        have hid := keyOf?_eq_some_iff_get.1 hkey d
        have hname := h.naming.idOf?_eq_some_iff.1 hid
        refine ⟨key.get d, ⟨Bool.eq_false_iff.2 fun e => ?_, key, mem_liveKeys.2 hlive,
          QuadKey.mem_ids.2 ⟨d, rfl⟩⟩, hname⟩
        rw [nameOf?, if_pos e] at hname
        exact hne (Option.some.inj hname).symm
  rw [← Table.length_keys, ← Table.length_keys, ← hlength, hperm.length_eq]

end Contents

/-! ## The store -/

namespace Store

variable {store : Store} {disk disk' : Disk} {c : Contents} {m : Model} {q : Quad}
  {options : WriteOptions}

def model (store : Store) (disk : Disk) : Except StoreError Model :=
  (disk.view store.handle).map Contents.model

/-- All reads of a store agree with a model. -/
structure Shows (store : Store) (disk : Disk) (m : Model) : Prop where
  size : (store.size disk).map UInt64.toNat = .ok m.quads.size
  nodeCount : (store.nodeCount disk).map UInt64.toNat = .ok m.degrees.size
  horizon : store.horizon disk = .ok m.horizon
  contains : ∀ q, store.containsQuad disk q = .ok (m.contains q)
  degree : ∀ v id, v ≠ "" → store.idOf disk v = .ok id →
    (store.degree disk id).map UInt64.toNat = .ok (m.degrees.getD v 0)

/-- An add answers and does what it would in a model. -/
structure AddsAs (store : Store) (disk : Disk) (m : Model) (options : WriteOptions) (q : Quad) :
    Prop where
  added : (∃ h disk', store.add disk options q = .ok (.added h, disk')) ↔
    q.isValid = true ∧ m.contains q = false
  duplicate : options.ignoreDuplicate = true →
    ((∃ h disk', store.add disk options q = .ok (.duplicate h, disk')) ↔ m.contains q = true)
  duplicateError : options.ignoreDuplicate = false →
    (store.add disk options q = .error (.duplicate q) ↔ m.contains q = true)
  invalid : store.add disk options q = .error (.apply q (.invalidQuad q)) ↔ q.isValid = false
  accepted : ∀ outcome disk', store.add disk options q = .ok (outcome, disk') →
    store.model disk' = .ok (m.add q).2
  rejected : ∀ error, store.add disk options q = .error error →
    store.model (store.after disk (.add options q)) = .ok m

structure RemovesAs (store : Store) (disk : Disk) (m : Model) (options : WriteOptions)
    (q : Quad) : Prop where
  removed : (∃ h disk', store.remove disk options q = .ok (.removed h, disk')) ↔
    m.contains q = true
  missing : options.ignoreMissing = true →
    ((∃ h disk', store.remove disk options q = .ok (.missing h, disk')) ↔
      q.isValid = true ∧ m.contains q = false)
  missingError : options.ignoreMissing = false →
    (store.remove disk options q = .error (.missing q) ↔
      q.isValid = true ∧ m.contains q = false)
  invalid : store.remove disk options q = .error (.apply q (.invalidQuad q)) ↔ q.isValid = false
  accepted : ∀ outcome disk', store.remove disk options q = .ok (outcome, disk') →
    store.model disk' = .ok (m.remove q).2
  rejected : ∀ error, store.remove disk options q = .error error →
    store.model (store.after disk (.remove options q)) = .ok m

/-! ### Reads -/

theorem size_eq (hview : disk.view store.handle = .ok c) :
    store.size disk = .ok (c.counter .size) := by
  unfold size
  rw [hview]
  rfl

theorem nodeCount_eq (hview : disk.view store.handle = .ok c) :
    store.nodeCount disk = .ok (c.counter .nodes) := by
  unfold nodeCount
  rw [hview]
  rfl

theorem degree_eq (hview : disk.view store.handle = .ok c) (id : NodeId) :
    store.degree disk id = .ok (c.degree id) := by
  unfold degree
  rw [hview]
  rfl

theorem containsQuad_eq (hview : disk.view store.handle = .ok c) (q : Quad) :
    store.containsQuad disk q = .ok ((c.keyOf? q).any c.isLive) := by
  unfold containsQuad keyOf?
  rw [hview]
  change store.isLiveLater disk (c.keyOf? q) = _
  unfold isLiveLater
  rw [hview]
  cases c.keyOf? q <;> rfl

theorem shows_model (hview : disk.view store.handle = .ok c) (hc : c.Sound) :
    store.Shows disk c.model where
  size := by
    rw [size_eq hview, hc.size_model, ← hc.size]
    rfl
  nodeCount := by
    rw [nodeCount_eq hview, ← hc.size_degrees, ← hc.counted.nodes]
    rfl
  horizon := by
    unfold Store.horizon
    rw [hview]
    rfl
  contains q := by
    rw [containsQuad_eq hview]
    refine congrArg Except.ok (Bool.eq_iff_iff.2 ?_)
    rw [hc.contains_model, Option.any_eq_true]
    exact Iff.rfl
  degree v id hne hid := by
    rw [degree_eq hview]
    unfold Store.idOf at hid
    rw [hview] at hid
    simp only [bind, Except.bind] at hid
    split at hid
    · next id' hv =>
      cases hid
      rw [← hc.toNat_degree hv hne]
      rfl
    · cases hid

/-! ### Writes -/

theorem model_of_view (hview : disk.view store.handle = .ok c) :
    store.model disk = .ok c.model := by
  unfold model
  rw [hview]
  rfl

theorem isValid_of_holds (hc : c.Sound) (hq : c.Holds q) : q.isValid = true := by
  obtain ⟨key, hkey, hlive⟩ := hq
  obtain ⟨q', hvalid, hq'⟩ := hc.named key (Contents.mem_liveKeys.2 hlive)
  rw [hc.naming.keyOf?_eq_some_iff, hq'] at hkey
  rwa [← Option.some.inj hkey]

theorem addsAs_model (hview : disk.view store.handle = .ok c) (hc : c.Sound)
    (hadmits : store.AdmitsOne disk .add q) (options : WriteOptions) :
    store.AddsAs disk c.model options q := by
  have hcontains := hc.contains_model (q := q)
  cases hvalid : q.isValid with
  | false =>
    have hnot : c.model.contains q = false := Bool.eq_false_iff.2 fun e => by
      rw [isValid_of_holds hc (hcontains.1 e)] at hvalid
      cases hvalid
    have hadd : store.add disk options q = _ := add_of_not_valid options hvalid
    refine ⟨?_, ?_, ?_, ?_, ?_, ?_⟩
    all_goals simp [hadd, hvalid, hnot, after, answered, model_of_view hview]
  | true =>
    obtain ⟨change, c', happly, hwrote, hc'⟩ := hc.apply hvalid (hadmits hvalid c hview)
      options.ignoreDuplicate
    have hadd := add_of_apply (apply_eq hview hvalid happly)
    have hmodel := model_of_view (view_settle hview hwrote)
    have hsame := model_of_view hview
    have heffect := hwrote.model_add hc hc'
    cases hwrote with
    | added hq =>
      have hnot := Bool.eq_false_iff.2 (mt hcontains.1 hq)
      rw [heffect nofun] at hmodel
      refine ⟨?_, ?_, ?_, ?_, ?_, ?_⟩
      all_goals simp_all [addAnswer]
    | ticked hq htick =>
      have hyes := hcontains.2 hq
      rw [heffect nofun] at hmodel
      refine ⟨?_, ?_, ?_, ?_, ?_, ?_⟩
      all_goals simp_all [addAnswer]
    | rolledBack hq htick =>
      have hyes := hcontains.2 hq
      refine ⟨?_, ?_, ?_, ?_, ?_, ?_⟩
      all_goals simp_all [addAnswer, after, answered]

theorem removesAs_model (hview : disk.view store.handle = .ok c) (hc : c.Sound)
    (hadmits : store.AdmitsOne disk .remove q) (options : WriteOptions) :
    store.RemovesAs disk c.model options q := by
  have hcontains := hc.contains_model (q := q)
  cases hvalid : q.isValid with
  | false =>
    have hnot : c.model.contains q = false := Bool.eq_false_iff.2 fun e => by
      rw [isValid_of_holds hc (hcontains.1 e)] at hvalid
      cases hvalid
    have hremove : store.remove disk options q = _ := remove_of_not_valid options hvalid
    refine ⟨?_, ?_, ?_, ?_, ?_, ?_⟩
    all_goals simp [hremove, hvalid, hnot, after, answered, model_of_view hview]
  | true =>
    obtain ⟨change, c', happly, hwrote, hc'⟩ := hc.apply hvalid (hadmits hvalid c hview)
      options.ignoreMissing
    have hremove := remove_of_apply (apply_eq hview hvalid happly)
    have hmodel := model_of_view (view_settle hview hwrote)
    have hsame := model_of_view hview
    have heffect := hwrote.model_remove hc hc'
    cases hwrote with
    | removed hkey hlive =>
      have hyes := hcontains.2 ⟨_, hkey, hlive⟩
      rw [heffect nofun] at hmodel
      refine ⟨?_, ?_, ?_, ?_, ?_, ?_⟩
      all_goals simp_all [removeAnswer]
    | ticked hq htick =>
      have hnot := Bool.eq_false_iff.2 (mt hcontains.1 hq)
      rw [heffect nofun] at hmodel
      refine ⟨?_, ?_, ?_, ?_, ?_, ?_⟩
      all_goals simp_all [removeAnswer]
    | rolledBack hq htick =>
      have hnot := Bool.eq_false_iff.2 (mt hcontains.1 hq)
      refine ⟨?_, ?_, ?_, ?_, ?_, ?_⟩
      all_goals simp_all [removeAnswer, after, answered]

/-- After every run, a store reads, answers and changes as the model it stands for. -/
theorem Reached.refines_model (h : store.Reached disk) :
    ∃ m, store.model disk = .ok m ∧ store.Shows disk m ∧
      (∀ options q, store.AdmitsOne disk .add q → store.AddsAs disk m options q) ∧
      (∀ options q, store.AdmitsOne disk .remove q → store.RemovesAs disk m options q) := by
  obtain ⟨c, hview, hc⟩ := h.sound
  exact ⟨c.model, model_of_view hview, shows_model hview hc,
    fun options _ hadmits => addsAs_model hview hc hadmits options,
    fun options _ hadmits => removesAs_model hview hc hadmits options⟩

theorem refines_model_first_quad : ∃ (store : Store) (disk : Disk),
    Store.create {} "db" {} = .ok (store, disk) ∧
      store.AdmitsOne disk .add ⟨"alice", "follows", "bob", ""⟩ ∧
      ∃ m, store.model (store.after disk (.add {} ⟨"alice", "follows", "bob", ""⟩)) = .ok m ∧
        store.Shows (store.after disk (.add {} ⟨"alice", "follows", "bob", ""⟩)) m :=
  have hcreate : Store.create {} "db" {} = .ok (_, _) := rfl
  have hadmits := admitsOne_created hcreate
  have ⟨m, hm, hshows, _, _⟩ := Reached.refines_model
    (.wrote (.add {} ⟨"alice", "follows", "bob", ""⟩) (.created hcreate) hadmits)
  ⟨_, _, hcreate, hadmits, m, hm, hshows⟩

end Store

end GraphStore
