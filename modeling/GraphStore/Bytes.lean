/-!
# Byte strings

* `Bytes` : byte strings, ordered bytewise with a proper beginning first;
* `Bytes.bigEndian width n` : the `width` low bytes of `n`, most significant first;
* `Bytes.value` : the number a big-endian byte string denotes;
* `Bytes.upperBound p` : the least byte string above everything that starts with `p`.
-/

namespace GraphStore

abbrev Bytes := List UInt8

namespace Bytes

/-- The `width` low bytes of `n`, most significant first. -/
def bigEndian : Nat → Nat → Bytes
  | 0, _ => []
  | width + 1, n => bigEndian width (n / 256) ++ [UInt8.ofNat n]

/-- The number denoted by a byte string, most significant byte first. -/
def value (bytes : Bytes) : Nat :=
  bytes.foldl (fun n b => 256 * n + b.toNat) 0

/-- The least byte string greater than every byte string that starts with the given one. There
is none above the empty string or a run of largest bytes. -/
def upperBound : Bytes → Option Bytes
  | [] => none
  | b :: rest =>
    match upperBound rest with
    | some bound => some (b :: bound)
    | none => if b < 255 then some [b + 1] else none

@[simp] theorem length_bigEndian (width n : Nat) : (bigEndian width n).length = width := by
  induction width generalizing n with
  | zero => rfl
  | succ width ih => simp [bigEndian, ih]

end Bytes

end GraphStore
