import GraphStore.Proofs.ByteOrder
import GraphStore.Proofs.StemRange
import Mathlib.Data.List.Induction
import Mathlib.Order.Bounds.Defs

/-!
# Tight upper bounds

The upper bound of a byte string is the string without the largest bytes at its end, and with one
more in the last byte that is left.

* `Bytes.upperBound_append_singleton` : a last byte is passed over or incremented;
* `Bytes.upperBound_eq_none_iff` : which byte strings have no upper bound;
* `Bytes.prefix_iff_range` : the range from a byte string to its upper bound is what begins with it;
* `Bytes.upperBound_tight` : no smaller bound would do.
-/

namespace GraphStore

namespace Bytes

/-! ## The last byte -/

/-- A largest byte at the end is passed over, any other is incremented. -/
theorem upperBound_append_singleton (p : Bytes) (b : UInt8) :
    upperBound (p ++ [b]) = if b < 255 then some (p ++ [b + 1]) else upperBound p := by
  induction p with
  | nil => rfl
  | cons first rest ih =>
    rw [List.cons_append, upperBound_cons, ih]
    by_cases hb : b < 255
    · rw [if_pos hb, if_pos hb]
      rfl
    · rw [if_neg hb, if_neg hb, upperBound_cons]

/-- Only a run of largest bytes has no upper bound. -/
theorem upperBound_eq_none_iff {p : Bytes} : upperBound p = none ↔ ∀ b ∈ p, b = 255 := by
  induction p using List.reverseRecOn with
  | nil => exact ⟨fun _ => nofun, fun _ => rfl⟩
  | append_singleton rest b ih =>
    rw [upperBound_append_singleton]
    split
    · next hlt =>
      refine ⟨nofun, fun hall => ?_⟩
      rw [hall b (by simp)] at hlt
      exact absurd hlt (by decide)
    · next hge =>
      have hb : b = 255 := UInt8.le_antisymm (le_max b) (UInt8.not_lt.1 hge)
      rw [ih]
      simp [or_imp, hb]

/-! ## The range up to the bound -/

theorem prefix_iff_range {p k bound : Bytes} (h : upperBound p = some bound) :
    p <+: k ↔ p ≤ k ∧ k < bound := by
  constructor
  · intro hk
    have hle := isLE_of_prefix hk
    have hlt := (prefix_iff_lt_upperBound h hle).1 hk
    exact ⟨Std.isLE_compare.1 hle, Std.compare_eq_lt.1 hlt⟩
  · intro ⟨hle, hlt⟩
    exact (prefix_iff_lt_upperBound h (Std.isLE_compare.2 hle)).2 (Std.compare_eq_lt.2 hlt)

/-- What is above all byte strings that begin with `p` is after `p` and not one of them. -/
theorem le_and_not_prefix_of_above {p b : Bytes} (h : ∀ k, p <+: k → k < b) : p ≤ b ∧ ¬ p <+: b :=
  ⟨List.not_lt.1 (List.lt_asymm (h p List.prefix_rfl)), fun hb => List.lt_irrefl b (h b hb)⟩

theorem isLeast_upperBound {p bound : Bytes} (h : upperBound p = some bound) :
    IsLeast {b | ∀ k, p <+: k → k < b} bound := by
  refine ⟨fun k hk => ((prefix_iff_range h).1 hk).2, fun b hb => ?_⟩
  obtain ⟨hle, hnot⟩ := le_and_not_prefix_of_above hb
  by_contra hlt
  exact hnot ((prefix_iff_range h).2 ⟨hle, List.not_le.1 hlt⟩)

/-- The byte strings that begin with `p` are those from `p` up to the bound, and no smaller bound is
above all of them. -/
structure TightBound (p : Bytes) (bound : Option Bytes) : Prop where
  range : ∀ e, bound = some e → ∀ k, p ≤ k ∧ k < e ↔ p <+: k
  least : ∀ e, bound = some e → IsLeast {b | ∀ k, p <+: k → k < b} e
  unbounded : bound = none → ∀ k, p ≤ k → p <+: k
  /-- Without a bound, no byte string is above all that begin with `p`. -/
  nothingAbove : bound = none → ¬ ∃ b, ∀ k, p <+: k → k < b
  none_iff : bound = none ↔ ∀ b ∈ p, b = 255

theorem upperBound_tight (p : Bytes) : TightBound p (upperBound p) where
  range _ h _ := (prefix_iff_range h).symm
  least _ h := isLeast_upperBound h
  unbounded h _ hle := prefix_of_upperBound_eq_none h (Std.isLE_compare.2 hle)
  nothingAbove h := by
    rintro ⟨b, hb⟩
    obtain ⟨hle, hnot⟩ := le_and_not_prefix_of_above hb
    exact hnot (prefix_of_upperBound_eq_none h (Std.isLE_compare.2 hle))
  none_iff := upperBound_eq_none_iff

example : upperBound [1, 255, 255] = some [2] := by decide

end Bytes

end GraphStore
