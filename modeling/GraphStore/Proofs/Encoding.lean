import GraphStore.Index
import Mathlib.Algebra.Group.Nat.Defs
import Mathlib.Data.List.Induction
import Mathlib.Data.Option.Basic

/-!
# Encodings

Ids, keys and index entries are told apart by their bytes.

* `NodeId.ofBytes?_eq_some_iff`, `QuadKey.ofBytes?_eq_some_iff` : the bytes that read back as an id
  or a key are its encoding;
* `Index.stem_eq` : a stem is the ids at the positions of the index, encoded side by side;
* `Index.entry_inj`, `Index.countKey_inj` : entries and count keys are told apart.
-/

namespace GraphStore

/-! ## Numbers -/

theorem Bytes.value_append_singleton (bytes : Bytes) (b : UInt8) :
    Bytes.value (bytes ++ [b]) = 256 * bytes.value + b.toNat := by
  unfold Bytes.value
  rw [List.foldl_append]
  rfl

theorem Bytes.value_bigEndian (width n : Nat) :
    (Bytes.bigEndian width n).value = n % 256 ^ width := by
  induction width generalizing n with
  | zero => rw [pow_zero, Nat.mod_one]; rfl
  | succ width ih =>
    rw [Bytes.bigEndian, Bytes.value_append_singleton, ih, pow_succ', Nat.mod_mul, UInt8.toNat_ofNat']
    omega

theorem Bytes.bigEndian_value (bytes : Bytes) : bigEndian bytes.length bytes.value = bytes := by
  induction bytes using List.reverseRecOn with
  | nil => rfl
  | append_singleton rest b ih =>
    have hdiv : (256 * value rest + b.toNat) / 256 = value rest := by
      have := b.toNat_lt
      omega
    have hlast : UInt8.ofNat (256 * value rest + b.toNat) = b := by
      rw [UInt8.ofNat_eq_iff_mod_eq_toNat, Nat.mul_add_mod]
      exact Nat.mod_eq_of_lt b.toNat_lt
    rw [value_append_singleton, List.length_append, List.length_singleton, bigEndian, hdiv, ih,
      hlast]

theorem Bytes.value_lt (bytes : Bytes) : bytes.value < 256 ^ bytes.length := by
  have h := congrArg value bytes.bigEndian_value
  rw [value_bigEndian] at h
  rw [← h]
  exact Nat.mod_lt _ (Nat.pow_pos (by decide))

/-! ## Ids -/

namespace NodeId

@[simp] theorem length_toBytes (id : NodeId) : id.toBytes.length = width :=
  Bytes.length_bigEndian _ _

@[simp] theorem ofBytes?_toBytes (id : NodeId) : ofBytes? id.toBytes = some id := by
  unfold ofBytes?
  rw [if_pos id.length_toBytes, toBytes, Bytes.value_bigEndian]
  have hlt : id.val.toNat < 256 ^ width := id.val.toNat_lt
  rw [Nat.mod_eq_of_lt hlt, UInt64.ofNat_toNat]

theorem ofBytes?_eq_some_iff {bytes : Bytes} {id : NodeId} :
    ofBytes? bytes = some id ↔ bytes = id.toBytes := by
  constructor
  · intro h
    unfold ofBytes? at h
    split at h
    · next hlen =>
      obtain rfl := Option.some.inj h
      have hlt : bytes.value < UInt64.size := by
        have := bytes.value_lt
        rwa [hlen] at this
      rw [toBytes, UInt64.toNat_ofNat_of_lt' hlt, ← hlen, Bytes.bigEndian_value]
    · cases h
  · rintro rfl
    exact ofBytes?_toBytes id

theorem toBytes_inj {a b : NodeId} : a.toBytes = b.toBytes ↔ a = b := by
  refine ⟨fun h => ?_, congrArg _⟩
  have := congrArg ofBytes? h
  simpa using this

/-- Encoded ids side by side are told apart, as all have the same width. -/
theorem flatMap_toBytes_inj {a b : List NodeId} (h : a.length = b.length) :
    a.flatMap toBytes = b.flatMap toBytes ↔ a = b := by
  refine ⟨fun heq => ?_, fun e => e ▸ rfl⟩
  induction a generalizing b with
  | nil => exact (List.length_eq_zero_iff.1 h.symm).symm
  | cons x rest ih =>
    cases b with
    | nil => cases h
    | cons y rest' =>
      rw [List.flatMap_cons, List.flatMap_cons] at heq
      obtain ⟨hxy, hrest⟩ := List.append_inj heq (by simp)
      rw [toBytes_inj.1 hxy, ih (Nat.succ.inj h) hrest]

theorem isBlank_iff {id : NodeId} : id.isBlank = true ↔ id = blank := by
  unfold isBlank blank
  cases id
  simp

end NodeId

/-! ## Keys -/

namespace QuadKey

theorem toBytes_eq (key : QuadKey) : key.toBytes =
    key.subject.toBytes ++ (key.predicate.toBytes ++ (key.object.toBytes ++ key.label.toBytes)) := by
  simp [toBytes, ids, Direction.all, get]

@[simp] theorem length_toBytes (key : QuadKey) : key.toBytes.length = width := by
  rw [toBytes_eq]
  simp [width, NodeId.width]

@[simp] theorem ofBytes?_toBytes (key : QuadKey) : ofBytes? key.toBytes = some key := by
  obtain ⟨s, p, o, l⟩ := key
  have hs : s.toBytes.length = 8 := s.length_toBytes
  have hp : p.toBytes.length = 8 := p.length_toBytes
  have ho : o.toBytes.length = 8 := o.length_toBytes
  have hl : l.toBytes.length = 8 := l.length_toBytes
  have h0 : ((toBytes ⟨s, p, o, l⟩).drop (0 * NodeId.width)).take NodeId.width = s.toBytes := by
    rw [toBytes_eq]
    exact List.take_left' hs
  have h1 : ((toBytes ⟨s, p, o, l⟩).drop (1 * NodeId.width)).take NodeId.width = p.toBytes := by
    rw [toBytes_eq, List.drop_left' (by rw [hs]; rfl)]
    exact List.take_left' hp
  have h2 : ((toBytes ⟨s, p, o, l⟩).drop (2 * NodeId.width)).take NodeId.width = o.toBytes := by
    rw [toBytes_eq, ← List.append_assoc, List.drop_left' (by rw [List.length_append, hs, hp]; rfl)]
    exact List.take_left' ho
  have h3 : ((toBytes ⟨s, p, o, l⟩).drop (3 * NodeId.width)).take NodeId.width = l.toBytes := by
    rw [toBytes_eq, ← List.append_assoc, ← List.append_assoc,
      List.drop_left' (by rw [List.length_append, List.length_append, hs, hp, ho]; rfl)]
    exact List.take_of_length_le (by rw [hl]; exact Nat.le_refl 8)
  simp only [ofBytes?, h0, h1, h2, h3, length_toBytes, NodeId.ofBytes?_toBytes]
  rfl

theorem ofBytes?_eq_some_iff {bytes : Bytes} {key : QuadKey} :
    ofBytes? bytes = some key ↔ bytes = key.toBytes := by
  constructor
  · intro h
    unfold ofBytes? guard at h
    split at h
    case isFalse => cases h
    next hlen =>
    simp only [bind, Option.bind_eq_some_iff, Option.pure_def, Option.some.injEq] at h
    obtain ⟨-, -, s, hs, p, hp, o, ho, l, hl, rfl⟩ := h
    rw [NodeId.ofBytes?_eq_some_iff] at hs hp ho hl
    have hrest (i : Nat) : bytes.drop (i * NodeId.width) =
        (bytes.drop (i * NodeId.width)).take NodeId.width ++ bytes.drop ((i + 1) * NodeId.width) := by
      rw [Nat.succ_mul, ← List.drop_drop, List.take_append_drop]
    have hlast : (bytes.drop (3 * NodeId.width)).take NodeId.width = bytes.drop (3 * NodeId.width) :=
      List.take_of_length_le (by rw [List.length_drop, hlen]; decide)
    rw [toBytes_eq, ← hs, ← hp, ← ho, ← hl, hlast, ← hrest 2, ← hrest 1, ← hrest 0, Nat.zero_mul,
      List.drop_zero]
  · rintro rfl
    exact ofBytes?_toBytes key

theorem toBytes_inj {a b : QuadKey} : a.toBytes = b.toBytes ↔ a = b := by
  refine ⟨fun h => ?_, congrArg _⟩
  have := congrArg ofBytes? h
  simpa using this

theorem mem_ids {key : QuadKey} {id : NodeId} : id ∈ key.ids ↔ ∃ d, key.get d = id := by
  unfold ids
  rw [List.mem_map]
  constructor
  · rintro ⟨d, -, h⟩
    exact ⟨d, h⟩
  · rintro ⟨d, h⟩
    exact ⟨d, by cases d <;> decide, h⟩

end QuadKey

/-! ## Entries -/

namespace Index

@[simp] theorem length_stem (index : Index) (key : QuadKey) :
    (index.stem key).length = index.stemWidth := by
  cases index <;> simp [stem, stemWidth, directions, NodeId.width]

theorem stem_eq (index : Index) (key : QuadKey) :
    index.stem key = (index.directions.map key.get).flatMap NodeId.toBytes := by
  rw [List.flatMap_map]
  rfl

theorem entry_inj {index : Index} {a b : QuadKey} : index.entry a = index.entry b ↔ a = b := by
  refine ⟨fun h => ?_, congrArg _⟩
  have hlen : (index.stem a).length = (index.stem b).length := by simp
  exact QuadKey.toBytes_inj.1 (List.append_inj h hlen).2

theorem prefix_entry_iff {index : Index} {bytes : Bytes} {key : QuadKey}
    (h : bytes.length = index.stemWidth) : bytes <+: index.entry key ↔ index.stem key = bytes := by
  constructor
  · rintro ⟨rest, hrest⟩
    exact ((List.append_inj hrest (by simp [h])).1).symm
  · rintro rfl
    exact List.prefix_append _ _

theorem tag_inj {i j : Index} : i.tag = j.tag ↔ i = j := by
  cases i <;> cases j <;> decide

theorem countKey_inj {i j : Index} {a b : Bytes} :
    i.countKey a = j.countKey b ↔ i = j ∧ a = b := by
  unfold countKey
  rw [List.cons.injEq, tag_inj]

theorem mem_all (index : Index) : index ∈ all := by
  cases index <;> decide

theorem all_nodup : all.Nodup := by decide

theorem directions_ofDirection (d : Direction) : (ofDirection d).directions = [d] := by
  cases d <;> rfl

end Index

/-! ## Horizons -/

theorem Horizon.toNat_next {h : Horizon} (hlt : h.val.toNat + 1 < 2 ^ 64) :
    h.next.val.toNat = h.val.toNat + 1 := by
  unfold next
  rw [UInt64.toNat_add]
  exact Nat.mod_eq_of_lt hlt

end GraphStore
