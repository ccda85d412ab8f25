import GraphStore.Bytes

/-!
# Pages of fixed-width values

* `Page` : bytes cut into values of `stride` bytes each, without a rest;
* `Page.ofBytes?`, `Page.append` : the two ways to obtain one, with their errors (`PageError`);
* `Page.values` : the values in order;
* `Page.get?` : the value at an index, none past the end;
* `Page.slice?` : the bytes at the offsets an index has as words, which are left to wrap around;
* `Page.checkedSlice?` : the same where a word that overflows stops the program.
-/

namespace GraphStore

inductive PageError where
  | zeroStride
  | uneven (stride : UInt64) (length : Nat)
  | wrongWidth (stride : UInt64) (width : Nat)
deriving Repr, DecidableEq

def PageError.message : PageError → String
  | zeroStride => "invalid stride"
  | uneven stride length =>
    "page of " ++ toString length ++ " bytes is not congruent with stride " ++
      toString stride.toNat
  | wrongWidth stride width =>
    "value of " ++ toString width ++ " bytes does not match stride " ++ toString stride.toNat

/-- Bytes that hold whole values of `stride` bytes, back to back. -/
structure Page where
  stride : UInt64
  bytes : Bytes
  stride_pos : 0 < stride.toNat
  stride_dvd : stride.toNat ∣ bytes.length

namespace Page

def ofBytes? (stride : UInt64) (bytes : Bytes) : Except PageError Page :=
  if pos : 0 < stride.toNat then
    if dvd : bytes.length % stride.toNat = 0 then
      .ok ⟨stride, bytes, pos, Nat.dvd_of_mod_eq_zero dvd⟩
    else
      .error (.uneven stride bytes.length)
  else
    .error .zeroStride

def empty? (stride : UInt64) : Except PageError Page := ofBytes? stride []

def width (p : Page) : Nat := p.stride.toNat

def byteSize (p : Page) : Nat := p.bytes.length

def size (p : Page) : Nat := p.byteSize / p.width

def isEmpty (p : Page) : Bool := p.bytes.isEmpty

/-- The first `count` runs of `width` bytes. -/
def chunks (width : Nat) : Nat → Bytes → List Bytes
  | 0, _ => []
  | count + 1, bytes => bytes.take width :: chunks width count (bytes.drop width)

def values (p : Page) : List Bytes := chunks p.width p.size p.bytes

/-- The bytes from `start` up to `stop`, if they all exist. -/
def cut? (p : Page) (start stop : Nat) : Option Bytes :=
  if start ≤ stop ∧ stop ≤ p.byteSize then some ((p.bytes.drop start).take (stop - start))
  else none

/-- The value at an index; an offset that no word can hold is past the end. -/
def get? (p : Page) (i : UInt64) : Option Bytes :=
  let start := i.toNat * p.width
  let stop := start + p.width
  if stop < UInt64.size then p.cut? start stop else none

/-- The bytes at the offsets of an index. Both are words that are left to wrap around, so there is no
failure but at bytes that do not exist. -/
def slice? (p : Page) (i : UInt64) : Option Bytes :=
  let start := i * p.stride
  let stop := start + p.stride
  p.cut? start.toNat stop.toNat

/-- The same in a program with overflow checks, where an offset that no word can hold is a failure,
too. -/
def checkedSlice? (p : Page) (i : UInt64) : Option Bytes :=
  if i.toNat * p.width + p.width < UInt64.size then p.slice? i else none

def last? (p : Page) : Option Bytes :=
  if p.size = 0 then none else p.slice? (.ofNat (p.size - 1))

def append (p : Page) (value : Bytes) : Except PageError Page :=
  if h : value.length = p.width then
    .ok { p with
      bytes := p.bytes ++ value
      stride_dvd := by
        rw [List.length_append, h]
        exact Nat.dvd_add p.stride_dvd (Nat.dvd_refl _) }
  else
    .error (.wrongWidth p.stride value.length)

def appendAll (p : Page) (values : List Bytes) : Except PageError Page :=
  values.foldlM append p

end Page

end GraphStore
