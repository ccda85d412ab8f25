import GraphStore.Proofs.ByteOrder

/-!
# Laws of the encodings

Tables are read by ranges of bytes, resumed after a key, and counted by what a key begins with.
That rests on the encodings alone.

* `LawfulEncoding` : the byte strings of one width are encodings, each of one value, in the order of
  the values;
* `NodeId.lawfulEncoding`, `QuadKey.lawfulEncoding` : ids are ordered as numbers, keys as the lists of
  their four numbers;
* `Index.LawfulEntries` : entries tell keys apart, begin with the ids they are filed under, and keep
  the order of the keys under these;
* `encodings_lawful` : all of this, and the keys under which entries are counted.
-/

namespace GraphStore

/-! ## Values of one width -/

/-- The byte strings of a width encode values, each exactly one, and are ordered as the ranks of these
are. -/
structure LawfulEncoding {α β : Type} [Ord α] [LT β] (width : Nat) (encode : α → Bytes)
    (decode? : Bytes → Option α) (rank : α → β) : Prop where
  compare_eq_lt : ∀ a b, compare a b = .lt ↔ rank a < rank b
  encode_lt : ∀ a b, encode a < encode b ↔ rank a < rank b
  decode?_encode : ∀ a, decode? (encode a) = some a
  isSome_decode? : ∀ bytes, (decode? bytes).isSome = true ↔ bytes.length = width
  encode_decode? : ∀ bytes a, decode? bytes = some a → encode a = bytes

section LawfulEncoding

variable {α β : Type} [Ord α] [LT β] {width : Nat} {encode : α → Bytes}
  {decode? : Bytes → Option α} {rank : α → β}

/-- An encoding that keeps the order is lawful if what decodes is what was encoded, and every byte
string of the width was. -/
theorem LawfulEncoding.of_surjective (hrank : ∀ a b, compare a b = .lt ↔ rank a < rank b)
    (hcompare : ∀ a b, compare (encode a) (encode b) = compare a b)
    (hlength : ∀ a, (encode a).length = width)
    (hdecode : ∀ {bytes a}, decode? bytes = some a ↔ bytes = encode a)
    (hsurjective : ∀ bytes : Bytes, bytes.length = width → ∃ a, encode a = bytes) :
    LawfulEncoding width encode decode? rank where
  compare_eq_lt := hrank
  encode_lt a b := by rw [← list_compare_eq_lt, hcompare, hrank]
  decode?_encode _ := hdecode.2 rfl
  isSome_decode? bytes := by
    rw [Option.isSome_iff_exists]
    constructor
    · rintro ⟨a, ha⟩
      rw [hdecode.1 ha, hlength]
    · intro h
      obtain ⟨a, rfl⟩ := hsurjective bytes h
      exact ⟨a, hdecode.2 rfl⟩
  encode_decode? _ _ h := (hdecode.1 h).symm

end LawfulEncoding

/-! ## Ids -/

namespace NodeId

theorem exists_toBytes {bytes : Bytes} (h : bytes.length = width) :
    ∃ id : NodeId, id.toBytes = bytes := by
  refine ⟨⟨.ofNat bytes.value⟩, (ofBytes?_eq_some_iff.1 ?_).symm⟩
  rw [ofBytes?, if_pos h]

/-- A byte string that is long enough begins with an encoded id. -/
theorem exists_toBytes_append {bytes : Bytes} {n : Nat} (h : bytes.length = width + n) :
    ∃ (id : NodeId) (rest : Bytes), id.toBytes ++ rest = bytes ∧ rest.length = n := by
  have htake : (bytes.take width).length = width := by
    rw [List.length_take]
    omega
  obtain ⟨id, hid⟩ := exists_toBytes htake
  refine ⟨id, bytes.drop width, ?_, ?_⟩
  · rw [hid, List.take_append_drop]
  · rw [List.length_drop]
    omega

theorem compare_eq_lt_iff {a b : NodeId} : compare a b = .lt ↔ a.val.toNat < b.val.toNat := by
  rw [compare_toNat, Std.compare_eq_lt]

theorem lawfulEncoding : LawfulEncoding 8 toBytes ofBytes? (·.val.toNat) :=
  .of_surjective (fun _ _ => compare_eq_lt_iff) compare_toBytes length_toBytes
    ofBytes?_eq_some_iff fun _ => exists_toBytes

/-- A carry into the next byte keeps the order. -/
example : toBytes ⟨255⟩ < toBytes ⟨256⟩ := by decide

end NodeId

/-! ## Keys -/

namespace QuadKey

def numbers (key : QuadKey) : List Nat :=
  [key.subject.val.toNat, key.predicate.val.toNat, key.object.val.toNat, key.label.val.toNat]

theorem compare_numbers (a b : QuadKey) : compare a b = compare a.numbers b.numbers := by
  change QuadKey.order a b = _
  unfold QuadKey.order numbers
  simp only [compareLex, compareOn, NodeId.compare_toNat, List.compare_cons_cons,
    List.compare_nil_nil, Ordering.then_eq]

theorem compare_eq_lt_iff {a b : QuadKey} : compare a b = .lt ↔ a.numbers < b.numbers := by
  rw [compare_numbers, list_compare_eq_lt]

theorem exists_toBytes {bytes : Bytes} (h : bytes.length = width) :
    ∃ key : QuadKey, key.toBytes = bytes := by
  have hwidth : width = NodeId.width + (NodeId.width + (NodeId.width + NodeId.width)) := rfl
  obtain ⟨subject, _, rfl, hsubject⟩ := NodeId.exists_toBytes_append (h.trans hwidth)
  obtain ⟨predicate, _, rfl, hpredicate⟩ := NodeId.exists_toBytes_append hsubject
  obtain ⟨object, _, rfl, hobject⟩ := NodeId.exists_toBytes_append hpredicate
  obtain ⟨label, rfl⟩ := NodeId.exists_toBytes hobject
  exact ⟨⟨subject, predicate, object, label⟩, toBytes_eq _⟩

theorem lawfulEncoding : LawfulEncoding 32 toBytes ofBytes? numbers :=
  .of_surjective (fun _ _ => compare_eq_lt_iff) compare_toBytes length_toBytes
    ofBytes?_eq_some_iff fun _ => exists_toBytes

end QuadKey

/-! ## Entries -/

namespace Index

def Agrees : Index → QuadKey → QuadKey → Prop
  | subject, a, b => a.subject = b.subject
  | predicate, a, b => a.predicate = b.predicate
  | object, a, b => a.object = b.object
  | label, a, b => a.label = b.label
  | subjectPredicate, a, b => a.subject = b.subject ∧ a.predicate = b.predicate

/-- The entries of an index tell keys apart and begin with the ids at its positions. After these
comes the encoded key, so that under one stem the entries are sorted as the keys. -/
structure LawfulEntries (index : Index) : Prop where
  entry_inj : ∀ a b, index.entry a = index.entry b ↔ a = b
  begins : ∀ key key', index.stem key' <+: index.entry key ↔ index.Agrees key key'
  sorted : ∀ stem a b, stem.length = index.stemWidth → stem <+: index.entry a →
    stem <+: index.entry b → (index.entry a < index.entry b ↔ a.numbers < b.numbers)
  decodes : ∀ key, QuadKey.ofBytes? ((index.entry key).drop index.stemWidth) = some key

theorem stem_eq_iff {index : Index} {a b : QuadKey} :
    index.stem a = index.stem b ↔ index.Agrees a b := by
  rw [stem_eq, stem_eq, NodeId.flatMap_toBytes_inj (by simp), List.map_inj_left]
  cases index <;> simp [directions, Agrees, QuadKey.get]

theorem drop_entry (index : Index) (key : QuadKey) :
    (index.entry key).drop index.stemWidth = key.toBytes :=
  List.drop_left' (index.length_stem key)

theorem entry_lt_iff {index : Index} {a b : QuadKey} (h : index.stem a = index.stem b) :
    index.entry a < index.entry b ↔ a.numbers < b.numbers := by
  unfold entry
  rw [h, ← list_compare_eq_lt, Bytes.compare_append_left, list_compare_eq_lt]
  exact QuadKey.lawfulEncoding.encode_lt a b

theorem lawfulEntries (index : Index) : index.LawfulEntries where
  entry_inj _ _ := entry_inj
  begins key key' := by rw [prefix_entry_iff (index.length_stem key'), stem_eq_iff]
  sorted stem a b hstem ha hb := by
    rw [prefix_entry_iff hstem] at ha hb
    exact entry_lt_iff (ha.trans hb.symm)
  decodes key := by rw [drop_entry, QuadKey.ofBytes?_toBytes]

end Index

/-- Encoded ids and keys are told apart and keep their order, also in the entries of every index. -/
theorem encodings_lawful :
    LawfulEncoding 8 NodeId.toBytes NodeId.ofBytes? (·.val.toNat) ∧
      LawfulEncoding 32 QuadKey.toBytes QuadKey.ofBytes? QuadKey.numbers ∧
      (∀ index : Index, index.LawfulEntries) ∧
      ∀ (i j : Index) (a b : Bytes), i.countKey a = j.countKey b ↔ i = j ∧ a = b :=
  ⟨NodeId.lawfulEncoding, QuadKey.lawfulEncoding, Index.lawfulEntries,
    fun _ _ _ _ => Index.countKey_inj⟩

end GraphStore
