import GraphStore.Contents.Degree
import GraphStore.Proofs.Filing
import GraphStore.Proofs.Naming
import Mathlib.Data.List.Nodup
import Mathlib.Data.List.Perm.Subperm

/-!
# Degrees

The degrees are counted for a list of keys when each node has the number of listed keys that hold
it, and the counter of live nodes is their number (`Contents.Counted`).

* `Contents.shiftDegrees_spec` : the degrees of several nodes moved at once;
* `Contents.CountsNodes` : degrees are kept of live nodes, and a counter has the number of them, which
  every change keeps;
* `Contents.retain_counted`, `Contents.release_counted` : one key more or less.
-/

namespace GraphStore

theorem QuadKey.mem_members {key : QuadKey} {id : NodeId} :
    id ∈ key.members ↔ id ∈ key.ids ∧ id.isBlank = false := by
  unfold members
  rw [SortedSet.mem_keys_ofList, List.mem_filter, Bool.not_eq_true']

theorem QuadKey.members_nodup (key : QuadKey) : key.members.Nodup := Table.keys_nodup _

namespace Contents

variable {c c' : Contents} {key : QuadKey} {Q Q' : List QuadKey} {id : NodeId}
  {degrees : Table NodeId UInt64}

/-! ## Tables of degrees -/

def Positive (degrees : Table NodeId UInt64) : Prop := ∀ id, degrees.get? id ≠ some 0

def kept? (n : UInt64) : Option UInt64 := if n = 0 then none else some n

theorem kept?_ne_zero (n : UInt64) : kept? n ≠ some 0 := by
  unfold kept?
  split
  · nofun
  · next hne => exact fun e => hne (Option.some.inj e)

theorem getD_kept? (n : UInt64) : (kept? n).getD 0 = n := by
  unfold kept?
  split
  · next hzero => exact hzero.symm
  · rfl

theorem Positive.get? (h : Positive degrees) (id : NodeId) :
    degrees.get? id = kept? (degrees.getD id 0) := by
  unfold kept? Table.getD
  cases hid : degrees.get? id with
  | none => rfl
  | some n =>
    rw [Option.getD_some, if_neg]
    rintro rfl
    exact h id hid

theorem get?_withDegree (h : Positive degrees) (id id' : NodeId) (after : UInt64) :
    (withDegree degrees id (degrees.getD id 0) after).get? id' =
      if id' = id then kept? after else degrees.get? id' := by
  unfold withDegree
  by_cases hafter : after = 0
  · subst hafter
    rw [if_neg (by simp)]
    split
    · rw [Table.get?_erase]
      rfl
    · next hzero =>
      rw [ne_eq, not_not] at hzero
      split
      · next e => rw [e, h.get?, hzero]
      · rfl
  · rw [if_pos hafter, Table.get?_insert, kept?, if_neg hafter]

theorem Positive.withDegree (h : Positive degrees) (id : NodeId) (after : UInt64) :
    Positive (withDegree degrees id (degrees.getD id 0) after) := fun id' => by
  rw [get?_withDegree h]
  split
  · exact kept?_ne_zero after
  · exact h id'

theorem size_withDegree (h : Positive degrees) (id : NodeId) (after : UInt64) :
    ((withDegree degrees id (degrees.getD id 0) after).size : Int) =
      degrees.size + liveShift (degrees.getD id 0) after := by
  have hget := h.get? id
  unfold Contents.withDegree liveShift kept? at *
  by_cases hafter : after = 0 <;> by_cases hbefore : degrees.getD id 0 = 0
  · simp [hafter, hbefore]
  · rw [if_neg hbefore] at hget
    have := Table.size_erase_of_some hget
    simp [hafter, hbefore]
    omega
  · rw [if_pos hbefore] at hget
    have := Table.size_insert_of_none after hget
    simp [hafter, hbefore, this]
  · rw [if_neg hbefore] at hget
    have := Table.size_insert_of_some after hget
    simp [hafter, hbefore, this]

/-- Degrees moved for distinct nodes: each of them moves once, and the shift is the change in the
number of nodes. -/
theorem shiftDegrees_spec (distance : Int) {ids : List NodeId} (h : Positive degrees)
    (hnodup : ids.Nodup) :
    (∀ id, (shiftDegrees distance degrees ids).1.get? id =
      if id ∈ ids then kept? (shifted (degrees.getD id 0) distance) else degrees.get? id) ∧
    ((shiftDegrees distance degrees ids).1.size : Int) =
      degrees.size + (shiftDegrees distance degrees ids).2 := by
  induction ids generalizing degrees with
  | nil => exact ⟨fun _ => rfl, (Int.add_zero _).symm⟩
  | cons i rest ih =>
    obtain ⟨hi, hnodup⟩ := List.nodup_cons.1 hnodup
    let after := shifted (degrees.getD i 0) distance
    have hpos := h.withDegree i after
    obtain ⟨hget, hsize⟩ := ih hpos hnodup
    have hfirst := size_withDegree h i after
    have hlookup := get?_withDegree h i
    have hstep : shiftDegrees distance degrees (i :: rest) =
        ((shiftDegrees distance (withDegree degrees i (degrees.getD i 0) after) rest).1,
          liveShift (degrees.getD i 0) after +
            (shiftDegrees distance (withDegree degrees i (degrees.getD i 0) after) rest).2) := rfl
    rw [hstep]
    refine ⟨fun id => ?_, by simp only [hsize, hfirst]; omega⟩
    simp only [hget, hlookup, List.mem_cons]
    by_cases hid : id = i
    · subst hid
      simp [hi, after]
    · have hother : (withDegree degrees i (degrees.getD i 0) after).getD id 0 =
          degrees.getD id 0 := by
        have hget := hlookup id after
        rw [if_neg hid] at hget
        exact congrArg (Option.getD · 0) hget
      simp [hid, hother]

theorem size_lt_of_blank {β : Type} {t : Table NodeId β} (h : t.get? .blank = none) :
    t.size < 2 ^ 64 := by
  have hsub : t.keys.map (·.val.toNat) ⊆ List.range' 1 (2 ^ 64 - 1) := fun n hn => by
    obtain ⟨id, hid, rfl⟩ := List.mem_map.1 hn
    have hlt := id.val.toNat_lt
    have hne : id.val.toNat ≠ 0 := fun e => by
      have hblank : id = .blank := congrArg NodeId.mk (UInt64.toNat_inj.1 e)
      rw [Table.mem_keys, Table.contains, hblank, h] at hid
      cases hid
    rw [List.mem_range'_1]
    omega
  have hnodup : (t.keys.map (·.val.toNat)).Nodup :=
    List.Nodup.map (fun a b e => congrArg NodeId.mk (UInt64.toNat_inj.1 e)) t.keys_nodup
  have hle := (List.subperm_of_subset hnodup hsub).length_le
  rw [List.length_map, Table.length_keys, List.length_range'] at hle
  omega

/-! ## Live nodes counted -/

/-- No entry is of the blank node or has degree zero, and a counter has the number of entries. -/
structure CountsNodes (c : Contents) : Prop where
  positive : Positive c.degrees
  blank : c.degrees.get? .blank = none
  nodes : (c.counter .nodes).toNat = c.degrees.size

theorem Positive.contains_iff (h : Positive c.degrees) :
    c.degrees.contains id = true ↔ c.degree id ≠ 0 := by
  have hget : c.degrees.get? id = kept? (c.degree id) := h.get? id
  unfold Table.contains
  rw [hget, kept?]
  split
  · next hzero => simp [hzero]
  · next hne => simpa using hne

theorem Positive.isLiveNode (h : Positive c.degrees) :
    c.isLiveNode id = true ↔ c.degrees.contains id = true := by
  unfold Contents.isLiveNode
  rw [h.contains_iff, decide_eq_true_eq, UInt64.pos_iff_ne_zero]

theorem toNat_shifted_size {n : UInt64} {size : Nat} {distance : Int}
    (h : (size : Int) = n.toNat + distance) (hlt : size < 2 ^ 64) :
    (shifted n distance).toNat = size := by
  have hsize : UInt64.size = 2 ^ 64 := rfl
  unfold shifted
  rw [← h, Int.toNat_natCast, UInt64.toNat_ofNat_of_lt' (by omega)]
  omega

theorem get?_shiftMembers (h : Positive c.degrees) (key : QuadKey) (distance : Int) (id : NodeId) :
    (c.shiftMembers key distance).degrees.get? id =
      if id ∈ key.members then kept? (shifted (c.degree id) distance) else c.degrees.get? id := by
  obtain ⟨hget, -⟩ := shiftDegrees_spec distance h key.members_nodup
  unfold shiftMembers
  simp only
  split <;> exact hget id

theorem CountsNodes.shiftMembers (h : CountsNodes c) (key : QuadKey) (distance : Int) :
    CountsNodes (c.shiftMembers key distance) := by
  have hget := get?_shiftMembers h.positive key distance
  have hblank : (c.shiftMembers key distance).degrees.get? .blank = none := by
    rw [hget, if_neg fun hmem => Bool.noConfusion (QuadKey.mem_members.1 hmem).2, h.blank]
  refine ⟨fun id => ?_, hblank, ?_⟩
  · rw [hget]
    split
    · exact kept?_ne_zero _
    · exact h.positive id
  · have hlt := size_lt_of_blank hblank
    obtain ⟨-, hsize⟩ := shiftDegrees_spec distance h.positive key.members_nodup
    rw [← h.nodes] at hsize
    unfold Contents.shiftMembers at hlt ⊢
    simp only at hlt ⊢
    split at hlt
    · next hzero =>
      rw [if_pos hzero]
      change (c.counter .nodes).toNat = (shiftDegrees distance c.degrees key.members).1.size
      omega
    · next hne =>
      rw [if_neg hne]
      unfold shiftCounter
      rw [counter_setCounter, if_pos rfl]
      exact toNat_shifted_size hsize hlt

/-! ## Keys counted -/

/-- The number of listed keys that hold a node. -/
def holders (Q : List QuadKey) (id : NodeId) : Nat := Q.countP fun k => decide (id ∈ k.ids)

/-- The degrees count the listed keys, and a counter the live nodes. -/
structure Counted (c : Contents) (Q : List QuadKey) : Prop where
  degrees : ∀ id, (c.degrees.get? id).map UInt64.toNat =
    if id.isBlank then none else tally? (holders Q id)
  nodes : (c.counter .nodes).toNat = c.degrees.size

theorem Counted.perm (h : Counted c Q) (hQ : Q.Perm Q') : Counted c Q' where
  degrees id := by
    rw [h.degrees]
    unfold holders
    rw [hQ.countP_eq]
  nodes := h.nodes

theorem Counted.get?_blank (h : Counted c Q) : c.degrees.get? .blank = none := by
  have := h.degrees .blank
  simpa [NodeId.isBlank, NodeId.blank] using this

theorem Counted.positive (h : Counted c Q) : Positive c.degrees := fun id e => by
  have hid := h.degrees id
  rw [e] at hid
  split at hid
  · cases hid
  · unfold tally? at hid
    split at hid
    · cases hid
    · next hne => exact hne (Option.some.inj hid).symm

theorem Counted.toNat_degree (h : Counted c Q) (hid : id.isBlank = false) :
    (c.degree id).toNat = holders Q id := by
  have hdegree := congrArg (Option.getD · 0) (h.degrees id)
  rw [hid, if_neg (by decide), getD_tally?] at hdegree
  rw [← hdegree]
  unfold Contents.degree Table.getD
  cases c.degrees.get? id <;> rfl

theorem Counted.mem_degrees (h : Counted c Q) :
    c.degrees.contains id = true ↔ id.isBlank = false ∧ ∃ key ∈ Q, id ∈ key.ids := by
  have hget := h.degrees id
  have hcontains : c.degrees.contains id = ((c.degrees.get? id).map UInt64.toNat).isSome := by
    unfold Table.contains
    cases c.degrees.get? id <;> rfl
  rw [hcontains, hget]
  cases id.isBlank with
  | true => simp
  | false =>
    have hpos : 0 < holders Q id ↔ ∃ key ∈ Q, id ∈ key.ids := by
      unfold holders
      rw [List.countP_pos_iff]
      simp
    rw [if_neg (by decide), ← hpos, tally?]
    split
    · next e => simp [e]
    · next e => simp [Nat.pos_of_ne_zero e]

theorem Counted.isLiveNode (h : Counted c Q) :
    c.isLiveNode id = true ↔ c.degrees.contains id = true := h.positive.isLiveNode

theorem Counted.countsNodes (h : Counted c Q) : CountsNodes c := ⟨h.positive, h.get?_blank, h.nodes⟩

/-- The degrees of a key's members moved, given what that makes of the number of holders. -/
theorem shiftMembers_counted (h : Counted c Q) (key : QuadKey) (distance : Int)
    (hmember : ∀ id, id ∈ key.members →
      (shifted (c.degree id) distance).toNat = holders Q' id)
    (hother : ∀ id, id ∉ key.ids → holders Q' id = holders Q id) :
    Counted (c.shiftMembers key distance) Q' := by
  refine ⟨fun id => ?_, (h.countsNodes.shiftMembers key distance).nodes⟩
  rw [get?_shiftMembers h.positive]
  by_cases hblank : id.isBlank = true
  · have hnot : id ∉ key.members := fun hm => by
      rw [QuadKey.mem_members, hblank] at hm
      cases hm.2
    rw [if_neg hnot, if_pos hblank, NodeId.isBlank_iff.1 hblank, h.get?_blank]
    rfl
  · rw [if_neg hblank]
    by_cases hid : id ∈ key.ids
    · have hmem : id ∈ key.members := QuadKey.mem_members.2 ⟨hid, by simpa using hblank⟩
      rw [if_pos hmem, kept?, map_toNat_ite]
      exact congrArg tally? (hmember id hmem)
    · rw [if_neg (fun hm => hid (QuadKey.mem_members.1 hm).1), h.degrees, if_neg hblank,
        hother id hid]

theorem retain_counted (h : Counted c Q) (key : QuadKey) (hlen : Q.length + 1 < 2 ^ 64) :
    Counted (c.retain key) (key :: Q) := by
  refine shiftMembers_counted h key 1 (fun id hid => ?_) fun id hid => ?_
  · obtain ⟨hid, hblank⟩ := QuadKey.mem_members.1 hid
    have hdegree := h.toNat_degree hblank
    have hle : holders Q id ≤ Q.length := List.countP_le_length
    rw [toNat_shifted_one (by omega), hdegree]
    exact (List.countP_cons_of_pos (by simpa using hid)).symm
  · exact List.countP_cons_of_neg (by simpa using hid)

theorem release_counted (h : Counted c (key :: Q)) : Counted (c.release key) Q := by
  refine shiftMembers_counted h key (-1) (fun id hid => ?_) fun id hid => ?_
  · obtain ⟨hid, hblank⟩ := QuadKey.mem_members.1 hid
    rw [toNat_shifted_neg_one, h.toNat_degree hblank]
    unfold holders
    rw [List.countP_cons_of_pos (by simpa using hid), Nat.add_sub_cancel]
  · exact (List.countP_cons_of_neg (by simpa using hid)).symm

theorem shiftMembers_eq (c : Contents) (key : QuadKey) (distance : Int) :
    c.shiftMembers key distance = { c with
      degrees := (c.shiftMembers key distance).degrees
      counters := (c.shiftMembers key distance).counters } := by
  unfold shiftMembers
  simp only
  split <;> rfl

theorem counter_shiftMembers {i : Counter} (hi : i ≠ .nodes) (c : Contents) (key : QuadKey)
    (distance : Int) : (c.shiftMembers key distance).counter i = c.counter i := by
  unfold shiftMembers
  simp only
  split
  · rfl
  · unfold shiftCounter
    rw [counter_setCounter, if_neg hi]
    rfl

end Contents

end GraphStore
