import GraphStore.Contents
import GraphStore.Proofs.Lookup

/-!
# Ranges of keys with one beginning

* `Bytes.prefix_iff_lt_upperBound` : from a byte string on, those below its upper bound are the ones
  that begin with it;
* `Contents.mem_stemRange` : a range read under a stem finds the keys that begin with it;
* `Contents.stemRange_after` : resuming after one of them finds the later ones.
-/

namespace GraphStore

/-! ## Byte strings -/

namespace Bytes

theorem isLE_of_prefix {p k : Bytes} (h : p <+: k) : (compare p k).isLE = true := by
  induction p generalizing k with
  | nil => cases k <;> rfl
  | cons b rest ih =>
    obtain ⟨tail, rfl⟩ := h
    simpa using ih (List.prefix_append rest tail)

/-- A byte string at or after another that is not empty has a first byte, which is at least as
large. -/
theorem cons_of_isLE {b : UInt8} {rest k : Bytes} (h : (compare (b :: rest) k).isLE = true) :
    ∃ c tail, k = c :: tail ∧ (b < c ∨ b = c ∧ (compare rest tail).isLE = true) := by
  cases k with
  | nil => cases h
  | cons c tail =>
    refine ⟨c, tail, rfl, ?_⟩
    rw [List.compare_cons_cons] at h
    cases hbc : compare b c with
    | lt => exact .inl (Std.compare_eq_lt.1 hbc)
    | eq =>
      rw [hbc] at h
      exact .inr ⟨Std.LawfulEqOrd.eq_of_compare hbc, h⟩
    | gt =>
      rw [hbc] at h
      cases h

theorem le_max (b : UInt8) : b ≤ 255 := UInt8.le_iff_toNat_le.2 (Nat.le_of_lt_succ b.toNat_lt)

theorem lt_add_one_iff {b c : UInt8} (h : b < 255) : c < b + 1 ↔ c ≤ b := by
  have hb : b.toNat < 255 := UInt8.lt_iff_toNat_lt.1 h
  have hsucc : (b + 1).toNat = b.toNat + 1 := by
    rw [UInt8.toNat_add]
    exact Nat.mod_eq_of_lt (by simp only [UInt8.reduceToNat]; omega)
  rw [UInt8.lt_iff_toNat_lt, UInt8.le_iff_toNat_le, hsucc]
  omega

theorem upperBound_cons (b : UInt8) (rest : Bytes) : upperBound (b :: rest) =
    match upperBound rest with
    | some bound => some (b :: bound)
    | none => if b < 255 then some [b + 1] else none := rfl

theorem prefix_of_upperBound_eq_none {p k : Bytes} (h : upperBound p = none)
    (hle : (compare p k).isLE = true) : p <+: k := by
  induction p generalizing k with
  | nil => exact List.nil_prefix
  | cons b rest ih =>
    obtain ⟨c, tail, rfl, hbc⟩ := cons_of_isLE hle
    rw [upperBound_cons] at h
    split at h
    · cases h
    · next hrest =>
      split at h
      · cases h
      · next hb =>
        -- no byte is larger than the largest one, so the first bytes agree
        rcases hbc with hlt | ⟨rfl, htail⟩
        · exact absurd (UInt8.lt_of_lt_of_le hlt (le_max c)) hb
        · exact List.cons_prefix_cons.2 ⟨rfl, ih hrest htail⟩

/-- From a byte string on, those below its upper bound are the ones that begin with it. -/
theorem prefix_iff_lt_upperBound {p k bound : Bytes} (h : upperBound p = some bound)
    (hle : (compare p k).isLE = true) : p <+: k ↔ compare k bound = .lt := by
  induction p generalizing k bound with
  | nil => cases h
  | cons b rest ih =>
    obtain ⟨c, tail, rfl, hbc⟩ := cons_of_isLE hle
    rw [upperBound_cons] at h
    split at h
    · next bound' hrest =>
      obtain rfl := Option.some.inj h
      rw [List.cons_prefix_cons, List.compare_cons_cons]
      rcases hbc with hlt | ⟨rfl, htail⟩
      · have hgt : compare c b = .gt := Std.compare_eq_gt.2 hlt
        simp [hgt, UInt8.ne_of_lt hlt]
      · simp [ih hrest htail]
    · next hrest =>
      split at h
      · next hb =>
        obtain rfl := Option.some.inj h
        rw [List.cons_prefix_cons, List.compare_cons_cons]
        rcases hbc with hlt | ⟨rfl, htail⟩
        · have hge : ¬ c < b + 1 := fun hc =>
            UInt8.lt_irrefl _ (UInt8.lt_of_lt_of_le hlt ((lt_add_one_iff hb).1 hc))
          have hne : b ≠ c := UInt8.ne_of_lt hlt
          cases hcb : compare c (b + 1) with
          | lt => exact absurd (Std.compare_eq_lt.1 hcb) hge
          | eq => cases tail <;> simp [hne]
          | gt => simp [hne]
        · have hlt : compare b (b + 1) = .lt :=
            Std.compare_eq_lt.2 ((lt_add_one_iff hb).2 (UInt8.le_refl b))
          simp [hlt, prefix_of_upperBound_eq_none hrest htail]
      · cases h

end Bytes

/-! ## Range reads -/

namespace Contents

def stemStart (stem : Bytes) : Option Bytes → Bound Bytes
  | some value => .excluded (stem ++ value)
  | none => if stem = [] then .unbounded else .included stem

def stemEnd (stem : Bytes) : Bound Bytes :=
  match Bytes.upperBound stem with
  | some bound => .excluded bound
  | none => .unbounded

/-- The entries under a stem, from a resume point on. -/
def stemRange {β : Type} (table : Table Bytes β) (stem : Bytes) (after : Option Bytes) :
    List (Bytes × β) :=
  table.between (stemStart stem after) (stemEnd stem)

variable {β : Type} {table : Table Bytes β} {stem : Bytes}

theorem keysUnder_eq (table : Table Bytes β) (stem : Bytes) (after : Option Bytes) (limit : Nat) :
    keysUnder table stem after limit = ((stemRange table stem after).take limit).map Prod.fst := by
  cases after <;> rfl

theorem stemStart_below {k : Bytes} :
    (stemStart stem none).below k = true ↔ (compare stem k).isLE = true := by
  rw [stemStart]
  split
  · next h =>
    subst h
    exact ⟨fun _ => Bytes.isLE_of_prefix List.nil_prefix, fun _ => rfl⟩
  · rfl

theorem stemEnd_above {k : Bytes} (hle : (compare stem k).isLE = true) :
    (stemEnd stem).above k = true ↔ stem <+: k := by
  unfold stemEnd
  split
  · next bound h =>
    rw [Bytes.prefix_iff_lt_upperBound h hle]
    simp [Bound.above]
  · next h => exact ⟨fun _ => Bytes.prefix_of_upperBound_eq_none h hle, fun _ => rfl⟩

theorem mem_stemRange {e : Bytes × β} :
    e ∈ stemRange table stem none ↔ table.get? e.1 = some e.2 ∧ stem <+: e.1 := by
  unfold stemRange
  rw [Table.mem_between, stemStart_below]
  refine and_congr_right fun _ => ⟨fun ⟨hle, h⟩ => (stemEnd_above hle).1 h, fun h => ?_⟩
  exact ⟨Bytes.isLE_of_prefix h, (stemEnd_above (Bytes.isLE_of_prefix h)).2 h⟩

theorem isLE_of_stemStart {after : Option Bytes} {k : Bytes}
    (h : (stemStart stem after).below k = true) : (compare stem k).isLE = true := by
  cases after with
  | none => exact stemStart_below.1 h
  | some value =>
    have hlt : compare (stem ++ value) k = .lt := by simpa [stemStart, Bound.below] using h
    have hle : (compare stem (stem ++ value)).isLE = true :=
      Bytes.isLE_of_prefix (List.prefix_append _ _)
    exact Std.TransCmp.isLE_trans hle (by rw [hlt]; rfl)

theorem stemRange_subset (table : Table Bytes β) (stem : Bytes) (after : Option Bytes) :
    stemRange table stem after ⊆ stemRange table stem none := by
  intro e he
  obtain ⟨hget, hlo, hhi⟩ := Table.mem_between.1 he
  exact Table.mem_between.2 ⟨hget, stemStart_below.2 (isLE_of_stemStart hlo), hhi⟩

theorem stemRange_after {after : Option Bytes} {before rest : List (Bytes × β)} {value : Bytes}
    {v : β} (h : stemRange table stem after = before ++ (stem ++ value, v) :: rest) :
    stemRange table stem (some value) = rest :=
  Table.between_after h

end Contents

end GraphStore
