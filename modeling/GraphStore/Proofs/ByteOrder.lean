import GraphStore.Proofs.Encoding

/-!
# The order of encodings

Byte strings are compared bytewise, and an encoding puts the high bytes first, so that tables keyed by
bytes are sorted the way ids and keys are.

* `list_compare_eq_lt` : lists are compared position by position, as `<` compares them;
* `Bytes.compare_append` : strings with beginnings of one length are compared by these first;
* `Bytes.compare_bigEndian` : encoded numbers are ordered as the numbers;
* `NodeId.compare_toBytes`, `QuadKey.compare_toBytes` : encoded ids and keys are ordered as the ids and
  keys are.
-/

namespace GraphStore

/-! ## Lists -/

theorem list_compare_eq_lt {α : Type} [Ord α] [LT α] [LE α] [Std.LawfulOrderOrd α]
    [Std.LawfulOrderLT α] [Std.LawfulEqOrd α] {a b : List α} : compare a b = .lt ↔ a < b := by
  induction a generalizing b with
  | nil => cases b <;> simp
  | cons first rest ih =>
    cases b with
    | nil => simp
    | cons first' rest' =>
      rw [List.compare_cons_cons, Ordering.then_eq_lt, ih, List.cons_lt_cons_iff,
        Std.compare_eq_lt, Std.compare_eq_iff_eq]

/-! ## Byte strings -/

namespace Bytes

/-- The order of tables keyed by byte strings is the order of these as lists. -/
instance : Std.LawfulOrderOrd Bytes where
  isLE_compare a b := by
    have hswap : compare a b = .gt ↔ compare b a = .lt := Std.OrientedCmp.gt_iff_lt
    rw [← List.not_lt, ← list_compare_eq_lt, Ordering.isLE_iff_ne_gt, hswap]
  isGE_compare a b := by
    rw [← List.not_lt, ← list_compare_eq_lt, Ordering.isGE_iff_ne_lt]

theorem compare_append {a b x y : Bytes} (h : a.length = b.length) :
    compare (a ++ x) (b ++ y) = (compare a b).then (compare x y) := by
  induction a generalizing b with
  | nil =>
    obtain rfl := List.length_eq_zero_iff.1 h.symm
    rfl
  | cons first rest ih =>
    cases b with
    | nil => cases h
    | cons first' rest' =>
      rw [List.cons_append, List.cons_append, List.compare_cons_cons, List.compare_cons_cons,
        ih (Nat.succ.inj h), Ordering.then_assoc]

@[simp] theorem compare_append_left (a x y : Bytes) : compare (a ++ x) (a ++ y) = compare x y := by
  rw [compare_append rfl, Std.ReflOrd.compare_self]
  rfl

/-! ### Numbers -/

theorem compare_toNat (a b : UInt8) : compare a b = compare a.toNat b.toNat := by
  simp only [compare, compareOfLessAndEq, UInt8.lt_iff_toNat_lt, ← UInt8.toNat_inj]

/-- Numbers are compared by their quotients, and then by their remainders. -/
theorem compare_div_mod (m n d : Nat) :
    (compare (m / d) (n / d)).then (compare (m % d) (n % d)) = compare m n := by
  have hm := Nat.div_add_mod m d
  have hn := Nat.div_add_mod n d
  rcases Nat.lt_trichotomy (m / d) (n / d) with hlt | heq | hgt
  · have hlt' : m < n := Nat.lt_of_div_lt_div hlt
    rw [Nat.compare_eq_lt.2 hlt, Nat.compare_eq_lt.2 hlt']
    rfl
  · rw [Nat.compare_eq_eq.2 heq, Ordering.eq_then, Nat.compare_eq_ite_lt, Nat.compare_eq_ite_lt]
    rw [heq] at hm
    have hlt : m % d < n % d ↔ m < n := by omega
    have hgt : n % d < m % d ↔ n < m := by omega
    simp only [hlt, hgt]
  · have hgt' : n < m := Nat.lt_of_div_lt_div hgt
    rw [Nat.compare_eq_gt.2 hgt, Nat.compare_eq_gt.2 hgt']
    rfl

theorem compare_bigEndian {width m n : Nat} (hm : m < 256 ^ width) (hn : n < 256 ^ width) :
    compare (bigEndian width m) (bigEndian width n) = compare m n := by
  induction width generalizing m n with
  | zero =>
    rw [Nat.lt_one_iff.1 hm, Nat.lt_one_iff.1 hn]
    rfl
  | succ width ih =>
    have hm' : m / 256 < 256 ^ width := Nat.div_lt_of_lt_mul (by rwa [← Nat.pow_succ'])
    have hn' : n / 256 < 256 ^ width := Nat.div_lt_of_lt_mul (by rwa [← Nat.pow_succ'])
    have hlast : compare [UInt8.ofNat m] [UInt8.ofNat n] = compare (m % 256) (n % 256) := by
      rw [List.compare_cons_cons, compare_toNat, UInt8.toNat_ofNat', UInt8.toNat_ofNat']
      exact Ordering.then_eq
    rw [bigEndian, bigEndian, compare_append (by simp), ih hm' hn', hlast]
    exact compare_div_mod m n 256

end Bytes

/-! ## Ids and keys -/

theorem NodeId.compare_toNat (a b : NodeId) : compare a b = compare a.val.toNat b.val.toNat := by
  change compare a.val b.val = _
  simp only [compare, compareOfLessAndEq, UInt64.lt_iff_toNat_lt, ← UInt64.toNat_inj]

theorem NodeId.compare_toBytes (a b : NodeId) : compare a.toBytes b.toBytes = compare a b := by
  rw [compare_toNat]
  exact Bytes.compare_bigEndian a.val.toNat_lt b.val.toNat_lt

theorem QuadKey.compare_toBytes (a b : QuadKey) : compare a.toBytes b.toBytes = compare a b := by
  rw [toBytes_eq, toBytes_eq]
  simp only [Bytes.compare_append, NodeId.length_toBytes, NodeId.compare_toBytes]
  rfl

end GraphStore
