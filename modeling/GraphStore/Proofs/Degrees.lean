import GraphStore.Proofs.Paging
import GraphStore.Proofs.Run

/-!
# Degrees under any use

Quads are counted for their members and counted off again in any order and number, whether or not they
are live.

* `DegreeCall`, `Contents.Recounts` : any number of such calls;
* `Contents.CountsNodes.recounts` : none of them parts the degrees from the counter of live nodes;
* `Contents.degrees_release_retain` : counted and counted off again, a quad leaves the degrees as they
  were;
* `Contents.KeepsCount` : what the degrees and the counter tell at any time
  (`Store.Reached.keepsCount_transacted`).
-/

namespace GraphStore

/-! ## Calls -/

/-- A quad counted for each of its members, or counted off. -/
inductive DegreeCall where
  | retain (key : QuadKey)
  | release (key : QuadKey)
deriving Repr, DecidableEq

theorem shifted_one_ne_zero (n : UInt64) : shifted n 1 ≠ 0 := by
  intro hzero
  have hlt := n.toNat_lt
  have hsize : UInt64.size = 2 ^ 64 := rfl
  have htoNat := congrArg UInt64.toNat hzero
  unfold shifted at htoNat
  rw [UInt64.toNat_ofNat_of_lt' (by omega), UInt64.toNat_zero] at htoNat
  omega

theorem shifted_neg_one_eq_zero_iff {n : UInt64} : shifted n (-1) = 0 ↔ n = 0 ∨ n = 1 := by
  rw [← UInt64.toNat_inj, ← UInt64.toNat_inj, ← UInt64.toNat_inj, toNat_shifted_neg_one,
    UInt64.toNat_zero, UInt64.toNat_one]
  omega

theorem shifted_neg_one_shifted_one {n : UInt64} (h : n.toNat + 1 < 2 ^ 64) :
    shifted (shifted n 1) (-1) = n := by
  rw [← UInt64.toNat_inj, toNat_shifted_neg_one, toNat_shifted_one h, Nat.add_sub_cancel]

namespace Contents

variable {c c' : Contents} {key : QuadKey} {id : NodeId}

def recounted (c : Contents) : DegreeCall → Contents
  | .retain key => c.retain key
  | .release key => c.release key

inductive Recounts (c : Contents) : Contents → Prop
  | none : Recounts c c
  | call {c' : Contents} (call : DegreeCall) : Recounts c c' → Recounts c (c'.recounted call)

/-! ## What calls keep -/

theorem CountsNodes.retain (hc : c.CountsNodes) (key : QuadKey) : (c.retain key).CountsNodes :=
  hc.shiftMembers key 1

theorem CountsNodes.release (hc : c.CountsNodes) (key : QuadKey) : (c.release key).CountsNodes :=
  hc.shiftMembers key (-1)

theorem CountsNodes.recounts (h : Recounts c c') (hc : c.CountsNodes) : c'.CountsNodes := by
  induction h with
  | none => exact hc
  | call call _ ih =>
    cases call with
    | retain key => exact ih.retain key
    | release key => exact ih.release key

/-- The degree of each member moves once, and no other. -/
theorem degree_shiftMembers (h : Positive c.degrees) (key : QuadKey) (distance : Int) (id : NodeId) :
    (c.shiftMembers key distance).degree id =
      if id ∈ key.members then shifted (c.degree id) distance else c.degree id := by
  unfold degree Table.getD
  rw [get?_shiftMembers h]
  split
  · exact getD_kept? _
  · rfl

theorem contains_retain (hc : c.CountsNodes) :
    (c.retain key).degrees.contains id = true ↔
      id ∈ key.members ∨ c.degrees.contains id = true := by
  rw [(hc.retain key).positive.contains_iff, hc.positive.contains_iff, Contents.retain,
    degree_shiftMembers hc.positive]
  split
  · next hmem => exact iff_of_true (shifted_one_ne_zero _) (.inl hmem)
  · next hmem => rw [or_iff_right hmem]

theorem contains_release (hc : c.CountsNodes) :
    (c.release key).degrees.contains id = true ↔
      c.degrees.contains id = true ∧ ¬(id ∈ key.members ∧ c.degree id = 1) := by
  rw [(hc.release key).positive.contains_iff, hc.positive.contains_iff, Contents.release,
    degree_shiftMembers hc.positive]
  split
  · next hmem => rw [ne_eq, shifted_neg_one_eq_zero_iff, not_or, and_iff_right hmem]
  · next hmem => rw [and_iff_left fun h => hmem h.1]

/-- The nodes that get an entry are the members that had none. -/
theorem size_retain (hc : c.CountsNodes) (key : QuadKey) :
    (c.retain key).degrees.size = key.members.countP (c.degree · = 0) + c.degrees.size := by
  rw [List.countP_eq_length_filter]
  refine Table.size_eq_add (key.members_nodup.filter _) (fun id hid => ?_) fun id => ?_
  · rw [List.mem_filter, decide_eq_true_eq] at hid
    exact Bool.eq_false_iff.2 fun hcontains => hc.positive.contains_iff.1 hcontains hid.2
  · rw [contains_retain hc, List.mem_filter, hc.positive.contains_iff, decide_eq_true_eq]
    by_cases hzero : c.degree id = 0
    · simp [hzero]
    · simp [hzero]

/-- The nodes that lose their entry are the members of degree one. -/
theorem size_release (hc : c.CountsNodes) (key : QuadKey) :
    c.degrees.size = key.members.countP (c.degree · = 1) + (c.release key).degrees.size := by
  rw [List.countP_eq_length_filter]
  refine Table.size_eq_add (key.members_nodup.filter _) (fun id hid => ?_) fun id => ?_
  · rw [List.mem_filter, decide_eq_true_eq] at hid
    exact Bool.eq_false_iff.2 fun hcontains => ((contains_release hc).1 hcontains).2 hid
  · rw [contains_release hc, List.mem_filter, hc.positive.contains_iff, decide_eq_true_eq]
    by_cases hone : id ∈ key.members ∧ c.degree id = 1
    · simp [hone]
    · simp [hone]

theorem degrees_release_retain (hc : c.CountsNodes)
    (hbelow : ∀ id ∈ key.members, (c.degree id).toNat + 1 < 2 ^ 64) :
    ((c.retain key).release key).degrees = c.degrees := by
  have hretain := hc.retain key
  have hrelease := hretain.release key
  have hdegree (id : NodeId) : ((c.retain key).release key).degree id = c.degree id := by
    rw [Contents.release, degree_shiftMembers hretain.positive, Contents.retain,
      degree_shiftMembers hc.positive]
    split
    · next hmem => exact shifted_neg_one_shifted_one (hbelow id hmem)
    · rfl
  refine Table.ext_get? fun id => ?_
  rw [hrelease.positive.get?, hc.positive.get?]
  exact congrArg kept? (hdegree id)

/-! ## Counts and reads -/

/-- The degrees are those of the live nodes, and the counter is their number, which it follows through
every call without being held at a limit. -/
structure KeepsCount (c : Contents) : Prop where
  nonzero : ∀ id, c.degrees.get? id ≠ some 0
  unblank : c.degrees.get? .blank = none
  nodes : (c.counter .nodes).toNat = c.degrees.size
  retained : ∀ key, ((c.retain key).counter .nodes).toNat =
    key.members.countP (c.degree · = 0) + (c.counter .nodes).toNat
  released : ∀ key, (c.counter .nodes).toNat =
    key.members.countP (c.degree · = 1) + ((c.release key).counter .nodes).toNat
  isLiveNode : ∀ id, c.isLiveNode id = true ↔ c.degrees.contains id = true
  /-- A page from the beginning that is not cut off has the live nodes, in order. -/
  page : ∀ limit, c.degrees.size ≤ limit → ∃ (page : Page) (ids : List NodeId),
    c.livePage? none limit = .ok page ∧ page.values = ids.map NodeId.toBytes ∧
      ids.Pairwise (fun a b => compare a b = .lt) ∧ ∀ id, id ∈ ids ↔ c.isLiveNode id = true
  /-- Counted and counted off again, a quad leaves no trace. -/
  restored : ∀ key, (∀ id ∈ key.members, (c.degree id).toNat + 1 < 2 ^ 64) →
    ((c.retain key).release key).degrees = c.degrees ∧
      ((c.retain key).release key).counter .nodes = c.counter .nodes

theorem exists_livePage? (c : Contents) {limit : Nat} (hlimit : c.degrees.size ≤ limit) :
    ∃ page, c.livePage? none limit = .ok page ∧ page.values = c.degrees.keys.map NodeId.toBytes := by
  have hwidth : ∀ b ∈ Source.nodes.encoded c none, b.length = NodeId.width := by
    rw [Source.encoded_nodes_eq]
    exact List.forall_mem_map.2 fun id _ => id.length_toBytes
  obtain ⟨page, hpage, hvalues⟩ := Source.page?_values hwidth limit
  rw [Source.encoded_nodes_eq, List.take_of_length_le] at hvalues
  · exact ⟨page, hpage, hvalues⟩
  · rwa [List.length_map, Table.length_keys]

theorem CountsNodes.keepsCount (hc : c.CountsNodes) : c.KeepsCount where
  nonzero := hc.positive
  unblank := hc.blank
  nodes := hc.nodes
  retained key := by rw [(hc.retain key).nodes, hc.nodes, size_retain hc]
  released key := by rw [(hc.release key).nodes, hc.nodes, ← size_release hc]
  isLiveNode _ := hc.positive.isLiveNode
  page limit hlimit := by
    obtain ⟨page, hpage, hvalues⟩ := c.exists_livePage? hlimit
    refine ⟨page, c.degrees.keys, hpage, hvalues, c.degrees.keys_pairwise, fun id => ?_⟩
    rw [Table.mem_keys, hc.positive.isLiveNode]
  restored key hbelow := by
    have hdegrees := degrees_release_retain hc hbelow
    refine ⟨hdegrees, UInt64.toNat_inj.1 ?_⟩
    rw [((hc.retain key).release key).nodes, hc.nodes, hdegrees]

end Contents

namespace Store

open Contents

/-- Whatever is counted or counted off in a store, new or already written to, in transactions that are
committed or aborted, the counter is the number of live nodes, which are those with a degree: after the
transactions, and at any time in another one. -/
theorem Reached.keepsCount_transacted {store : Store} {reached disk : Disk}
    (hreached : store.Reached reached) (h : Disk.Transacted Recounts store.handle reached disk) :
    ∃ c, disk.view store.handle = .ok c ∧ c.KeepsCount ∧ ∀ c', Recounts c c' → c'.KeepsCount := by
  obtain ⟨c₀, hview₀, hc₀⟩ := hreached.sound
  obtain ⟨c, hview, hc⟩ := h.keeps hview₀ hc₀.counted.countsNodes
    fun _ _ hc hrecounts => hc.recounts hrecounts
  exact ⟨c, hview, hc.keepsCount, fun c' hrecounts => (hc.recounts hrecounts).keepsCount⟩

/-- One quad is counted and another, which holds two of its members, is counted off; then an abort
forgets a call. -/
theorem keepsCount_unbalanced : ∃ (store : Store) (disk : Disk),
    Store.create {} "db" {} = .ok (store, disk) ∧
      let changed := (({} : Contents).recounted (.retain ⟨⟨1⟩, ⟨2⟩, ⟨1⟩, ⟨0⟩⟩)).recounted
        (.release ⟨⟨2⟩, ⟨1⟩, ⟨3⟩, ⟨4⟩⟩)
      let now := disk.commit ⟨store.handle, changed⟩
      Disk.Transacted Recounts store.handle disk now ∧
        ∃ c, now.view store.handle = .ok c ∧ c.KeepsCount ∧
          ∀ c', Recounts c c' → c'.KeepsCount := by
  have hcreate : Store.create {} "db" {} = .ok (_, _) := rfl
  refine ⟨_, _, hcreate, ?_⟩
  intro changed now
  have hrecounts : Recounts {} changed := .call _ (.call _ .none)
  have htransacted : Disk.Transacted Recounts _ _ now :=
    .aborted (.committed .start (Disk.beginWrite_of_view (view_create hcreate)) hrecounts)
      (Disk.beginWrite_of_view (Disk.view_commit (view_create hcreate) _))
      (.call (.release ⟨⟨5⟩, ⟨6⟩, ⟨7⟩, ⟨8⟩⟩) .none)
  exact ⟨htransacted, Reached.keepsCount_transacted (.created hcreate) htransacted⟩

end Store

end GraphStore
