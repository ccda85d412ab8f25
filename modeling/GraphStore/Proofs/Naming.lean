import GraphStore.Contents.Naming
import GraphStore.Proofs.Encoding
import GraphStore.Proofs.Lookup

/-!
# Interning

The two tables of interned values are inverse, and ids are assigned in order from 1.

* `Contents.Naming` : what holds of the tables and the counter at any time;
* `Contents.Interns` : contents that differ in further interned values only;
* `Contents.Naming.internQuad` : interning a quad keeps both, as long as there are ids left
  (`Contents.RoomFor`);
* `Contents.keyOf?_eq_some_iff` : keys and quads name each other.
-/

namespace GraphStore.Contents

variable {c c' c'' : Contents} {id : NodeId} {v : String} {q : Quad} {key : QuadKey}

/-! ## Counters -/

theorem Counter.text_inj {i j : Counter} : i.text = j.text ↔ i = j := by
  cases i <;> cases j <;> decide

theorem counter_setCounter (c : Contents) (i j : Counter) (n : UInt64) :
    (c.setCounter i n).counter j = if j = i then n else c.counter j := by
  unfold setCounter counter
  rw [Table.getD_insert]
  simp only [Counter.text_inj]

/-! ## The tables -/

/-- Interned values and assigned ids are paired, and ids are assigned in order from 1. -/
structure Naming (c : Contents) : Prop where
  inverse : ∀ v id, c.ids.get? v = some id ↔ c.names.get? id = some v
  nonempty : c.ids.get? "" = none
  assigned : ∀ id, (c.names.get? id).isSome = true ↔ 0 < id.val ∧ id.val < c.nextId.val

theorem naming_empty : Naming {} where
  inverse _ _ := ⟨nofun, nofun⟩
  nonempty := rfl
  assigned id := by
    refine ⟨nofun, fun ⟨hpos, hlt⟩ => ?_⟩
    have hfirst : (nextId {}).val = 1 := by decide
    rw [hfirst, UInt64.lt_iff_toNat_lt] at hlt
    rw [UInt64.lt_iff_toNat_lt] at hpos
    simp only [UInt64.reduceToNat] at hlt hpos
    omega

theorem Naming.pos (h : Naming c) (hv : c.ids.get? v = some id) : 0 < id.val :=
  ((h.assigned id).1 (by rw [(h.inverse v id).1 hv]; rfl)).1

/-- The empty value and the blank id aside, an id is that of a value if it was assigned to it. -/
theorem Naming.idOf?_eq_some_iff (h : Naming c) : c.idOf? v = some id ↔ c.nameOf? id = some v := by
  unfold idOf? nameOf?
  by_cases hid : id.isBlank = true
  · obtain rfl := NodeId.isBlank_iff.1 hid
    rw [if_pos hid]
    split
    · next hv => simp [hv]
    · next hv =>
      refine ⟨fun hget => absurd (h.pos hget) (by decide), fun e => ?_⟩
      exact absurd (Option.some.inj e).symm hv
  · rw [if_neg hid, ← h.inverse]
    split
    · next hv =>
      subst hv
      rw [h.nonempty]
      refine ⟨fun e => absurd (Option.some.inj e).symm fun e' => hid (NodeId.isBlank_iff.2 e'), ?_⟩
      intro e
      cases e
    · rfl

/-! ## The quad of a key -/

def quadOf? (c : Contents) (key : QuadKey) : Option Quad := do
  return {
    subject := ← c.nameOf? key.subject
    predicate := ← c.nameOf? key.predicate
    object := ← c.nameOf? key.object
    label := ← c.nameOf? key.label }

theorem keyOf?_eq_some_iff_get :
    c.keyOf? q = some key ↔ ∀ d, c.idOf? (q.get d) = some (key.get d) := by
  unfold keyOf?
  simp only [bind, Option.bind_eq_some_iff, Option.pure_def, Option.some.injEq]
  constructor
  · rintro ⟨s, hs, p, hp, o, ho, l, hl, rfl⟩ d
    cases d <;> assumption
  · intro h
    exact ⟨_, h .subject, _, h .predicate, _, h .object, _, h .label, rfl⟩

theorem quadOf?_eq_some_iff_get :
    c.quadOf? key = some q ↔ ∀ d, c.nameOf? (key.get d) = some (q.get d) := by
  unfold quadOf?
  simp only [bind, Option.bind_eq_some_iff, Option.pure_def, Option.some.injEq]
  constructor
  · rintro ⟨s, hs, p, hp, o, ho, l, hl, rfl⟩ d
    cases d <;> assumption
  · intro h
    exact ⟨_, h .subject, _, h .predicate, _, h .object, _, h .label, rfl⟩

/-- Keys and quads name each other. -/
theorem Naming.keyOf?_eq_some_iff (h : Naming c) :
    c.keyOf? q = some key ↔ c.quadOf? key = some q := by
  rw [keyOf?_eq_some_iff_get, quadOf?_eq_some_iff_get]
  exact forall_congr' fun _ => h.idOf?_eq_some_iff

theorem Naming.keyOf?_inj (h : Naming c) {q' : Quad} (hq : c.keyOf? q = some key)
    (hq' : c.keyOf? q' = some key) : q = q' := by
  rw [h.keyOf?_eq_some_iff] at hq hq'
  exact Option.some.inj (hq.symm.trans hq')

/-! ## Interning -/

/-- `c'` has the interned values of `c`, perhaps more, and otherwise the contents of `c`. -/
structure Interns (c c' : Contents) : Prop where
  ids : ∀ v id, c.ids.get? v = some id → c'.ids.get? v = some id
  names : ∀ id v, c.names.get? id = some v → c'.names.get? id = some v
  counter : ∀ i, i ≠ .nextId → c'.counter i = c.counter i
  degrees : c'.degrees = c.degrees
  quads : c'.quads = c.quads
  counts : c'.counts = c.counts
  indexes : c'.indexes = c.indexes
  others : c'.others = c.others

theorem Interns.refl (c : Contents) : Interns c c :=
  ⟨fun _ _ h => h, fun _ _ h => h, fun _ _ => rfl, rfl, rfl, rfl, rfl, rfl⟩

theorem Interns.trans (h : Interns c c') (h' : Interns c' c'') : Interns c c'' where
  ids v id hv := h'.ids v id (h.ids v id hv)
  names id v hv := h'.names id v (h.names id v hv)
  counter i hi := (h'.counter i hi).trans (h.counter i hi)
  degrees := h'.degrees.trans h.degrees
  quads := h'.quads.trans h.quads
  counts := h'.counts.trans h.counts
  indexes := h'.indexes.trans h.indexes
  others := h'.others.trans h.others

theorem idOf?_mono (hids : ∀ v id, c.ids.get? v = some id → c'.ids.get? v = some id)
    (hv : c.idOf? v = some id) : c'.idOf? v = some id := by
  unfold Contents.idOf? at hv ⊢
  split
  · next e => rwa [if_pos e] at hv
  · next e => exact hids v id (by rwa [if_neg e] at hv)

theorem Interns.idOf? (h : Interns c c') (hv : c.idOf? v = some id) : c'.idOf? v = some id :=
  idOf?_mono h.ids hv

theorem Interns.nameOf? (h : Interns c c') (hv : c.nameOf? id = some v) :
    c'.nameOf? id = some v := by
  unfold Contents.nameOf? at hv ⊢
  split
  · next e => rwa [if_pos e] at hv
  · next e => exact h.names id v (by rwa [if_neg e] at hv)

theorem Interns.quadOf? (h : Interns c c') (hq : c.quadOf? key = some q) :
    c'.quadOf? key = some q :=
  quadOf?_eq_some_iff_get.2 fun d => h.nameOf? (quadOf?_eq_some_iff_get.1 hq d)

/-- Whenever one of the values needs an id, the counter of ids is below its limit. -/
def RoomFor (c : Contents) : List String → Prop
  | [] => True
  | v :: rest => (c.idOf? v = none → (c.counter .nextId).toNat + 1 < 2 ^ 64) ∧
      RoomFor (c.intern v).2 rest

theorem intern_of_some (h : c.idOf? v = some id) : c.intern v = (id, c) := by
  unfold intern
  rw [h]

theorem intern_of_none (h : c.idOf? v = none) : c.intern v =
    (c.nextId, { c.setCounter .nextId (c.nextId.val + 1) with
      ids := c.ids.insert v c.nextId, names := c.names.insert c.nextId v }) := by
  unfold intern
  rw [h]
  rfl

theorem Naming.names_nextId (h : Naming c) : c.names.get? c.nextId = none := by
  rw [← Option.not_isSome_iff_eq_none, h.assigned]
  exact fun ⟨_, hlt⟩ => UInt64.lt_irrefl _ hlt

theorem nextId_toNat (c : Contents) :
    c.nextId.val.toNat = max (c.counter .nextId).toNat 1 := by
  unfold nextId
  rw [UInt64.toNat_max]
  rfl

/-- The contents after the next id was assigned to a value that had none. -/
theorem Naming.assign (h : Naming c) (hv : c.idOf? v = none)
    (hroom : (c.counter .nextId).toNat + 1 < 2 ^ 64) : Naming (c.intern v).2 := by
  have hne : v ≠ "" := fun e => by simp [idOf?, e] at hv
  have hget : c.ids.get? v = none := by simpa [idOf?, hne] using hv
  have hnext := nextId_toNat c
  have hsucc : (c.nextId.val + 1).toNat = c.nextId.val.toNat + 1 := by
    rw [UInt64.toNat_add]
    exact Nat.mod_eq_of_lt (by simp only [UInt64.reduceToNat]; omega)
  have hnew := h.names_nextId
  rw [intern_of_none hv]
  refine ⟨fun w id => ?_, ?_, fun id => ?_⟩
  · rw [Table.get?_insert, Table.get?_insert]
    by_cases hw : w = v <;> by_cases hid : id = c.nextId
    · rw [if_pos hw, if_pos hid, hw, hid]
      exact ⟨fun _ => rfl, fun _ => rfl⟩
    · rw [if_pos hw, if_neg hid, ← h.inverse, hw, hget]
      exact ⟨fun e => absurd (Option.some.inj e).symm hid, nofun⟩
    · rw [if_neg hw, if_pos hid, h.inverse, hid, hnew]
      exact ⟨nofun, fun e => absurd (Option.some.inj e).symm hw⟩
    · rw [if_neg hw, if_neg hid, h.inverse]
  · rw [Table.get?_insert, if_neg (Ne.symm hne), h.nonempty]
  · have hnext' := nextId_toNat (c.intern v).2
    rw [intern_of_none hv] at hnext'
    have hcounter := counter_setCounter c .nextId .nextId (c.nextId.val + 1)
    rw [if_pos rfl] at hcounter
    change _ = max ((c.setCounter .nextId (c.nextId.val + 1)).counter .nextId).toNat 1 at hnext'
    rw [hcounter, hsucc] at hnext'
    rw [Table.get?_insert, UInt64.lt_iff_toNat_lt, UInt64.lt_iff_toNat_lt, hnext']
    split
    · next e =>
      subst e
      simp only [Option.isSome_some, true_iff, UInt64.reduceToNat]
      omega
    · next e =>
      have hval : id.val.toNat ≠ c.nextId.val.toNat := fun e' =>
        e (congrArg NodeId.mk (UInt64.toNat_inj.1 e'))
      rw [h.assigned, UInt64.lt_iff_toNat_lt, UInt64.lt_iff_toNat_lt]
      simp only [UInt64.reduceToNat]
      omega

theorem Naming.intern (h : Naming c)
    (hroom : c.idOf? v = none → (c.counter .nextId).toNat + 1 < 2 ^ 64) :
    Naming (c.intern v).2 := by
  cases hv : c.idOf? v with
  | some id => rwa [intern_of_some hv]
  | none => exact h.assign hv (hroom hv)

theorem Naming.interns (h : Naming c) (v : String) : Interns c (c.intern v).2 := by
  cases hv : c.idOf? v with
  | some id =>
    rw [intern_of_some hv]
    exact Interns.refl c
  | none =>
    have hget : c.ids.get? v = none := by
      unfold Contents.idOf? at hv
      split at hv
      · cases hv
      · exact hv
    have hnew := h.names_nextId
    rw [intern_of_none hv]
    refine ⟨fun w id hw => ?_, fun id w hw => ?_, fun i hi => ?_, rfl, rfl, rfl, rfl, rfl⟩
    · rw [Table.get?_insert, if_neg (fun e => by rw [e, hget] at hw; cases hw), hw]
    · rw [Table.get?_insert, if_neg (fun e => by rw [e, hnew] at hw; cases hw), hw]
    · exact (counter_setCounter c .nextId i _).trans (if_neg hi)

theorem idOf?_intern (c : Contents) (v : String) :
    (c.intern v).2.idOf? v = some (c.intern v).1 := by
  cases hv : c.idOf? v with
  | some id => rwa [intern_of_some hv]
  | none =>
    have hne : v ≠ "" := fun e => by simp [idOf?, e] at hv
    rw [intern_of_none hv]
    simp [idOf?, hne]

/-! ## Interning a quad -/

/-- The key of a quad with its values interned in the resulting contents. -/
theorem Naming.internQuad (h : Naming c) (hroom : c.RoomFor q.values) :
    Naming (c.internQuad q).2 ∧ Interns c (c.internQuad q).2 ∧
      (c.internQuad q).2.keyOf? q = some (c.internQuad q).1 := by
  obtain ⟨hs, hp, ho, hl, -⟩ := hroom
  have n₁ := h.intern hs
  have n₂ := n₁.intern hp
  have n₃ := n₂.intern ho
  have n₄ := n₃.intern hl
  have i₁ := h.interns q.subject
  have i₂ := n₁.interns q.predicate
  have i₃ := n₂.interns q.object
  have i₄ := n₃.interns q.label
  refine ⟨n₄, ((i₁.trans i₂).trans i₃).trans i₄, keyOf?_eq_some_iff_get.2 fun d => ?_⟩
  cases d with
  | subject => exact ((i₂.trans i₃).trans i₄).idOf? (idOf?_intern c _)
  | predicate => exact (i₃.trans i₄).idOf? (idOf?_intern _ _)
  | object => exact i₄.idOf? (idOf?_intern _ _)
  | label => exact idOf?_intern _ _

theorem internQuad_of_keyOf? (h : c.keyOf? q = some key) : c.internQuad q = (key, c) := by
  rw [keyOf?_eq_some_iff_get] at h
  have hs : c.intern q.subject = (key.subject, c) := intern_of_some (h .subject)
  have hp : c.intern q.predicate = (key.predicate, c) := intern_of_some (h .predicate)
  have ho : c.intern q.object = (key.object, c) := intern_of_some (h .object)
  have hl : c.intern q.label = (key.label, c) := intern_of_some (h .label)
  simp only [Contents.internQuad, hs, hp, ho, hl]

end GraphStore.Contents
