import GraphStore.Bytes
import GraphStore.Quad

/-!
# Node ids and quad keys

* `NodeId` : the number a value is interned as; `NodeId.blank` stands for the empty label;
* `QuadKey` : the four ids of a stored quad;
* `toBytes` / `ofBytes?` : fixed-width encodings whose byte order is the order of ids and keys;
* `Ref` : a node or a quad, as queries yield them;
* `Horizon` : a position in the log of processed writes.
-/

namespace GraphStore

/-! ## Node ids -/

/-- The number a node value is interned as. -/
structure NodeId where
  val : UInt64
deriving Repr, DecidableEq, Inhabited

namespace NodeId

def width : Nat := 8

/-- The id of the empty label. No value is ever interned as it. -/
def blank : NodeId := ⟨0⟩

def isBlank (id : NodeId) : Bool := id.val == 0

/-- The encoding, most significant byte first. -/
def toBytes (id : NodeId) : Bytes := Bytes.bigEndian width id.val.toNat

/-- The id encoded by exactly `width` bytes. -/
def ofBytes? (bytes : Bytes) : Option NodeId :=
  if bytes.length = width then some ⟨.ofNat bytes.value⟩ else none

def text (id : NodeId) : String := "n" ++ toString id.val.toNat

instance : Ord NodeId := ⟨compareOn val⟩

instance : Std.TransOrd NodeId := inferInstanceAs <| Std.TransCmp (compareOn val)

instance : Std.LawfulEqOrd NodeId where
  eq_of_compare := by
    intro ⟨a⟩ ⟨b⟩ h
    have h : compare a b = .eq := h
    exact congrArg NodeId.mk (Std.LawfulEqOrd.eq_of_compare h)

end NodeId

/-! ## Quad keys -/

/-- The identity of a stored quad: the ids of its four values. -/
structure QuadKey where
  subject : NodeId
  predicate : NodeId
  object : NodeId
  label : NodeId
deriving Repr, DecidableEq, Inhabited

namespace QuadKey

def width : Nat := 4 * NodeId.width

def get (key : QuadKey) : Direction → NodeId
  | .subject => key.subject
  | .predicate => key.predicate
  | .object => key.object
  | .label => key.label

def ids (key : QuadKey) : List NodeId := Direction.all.map key.get

def toBytes (key : QuadKey) : Bytes := key.ids.flatMap NodeId.toBytes

def ofBytes? (bytes : Bytes) : Option QuadKey := do
  guard (bytes.length = width)
  let id (i : Nat) := NodeId.ofBytes? ((bytes.drop (i * NodeId.width)).take NodeId.width)
  return ⟨← id 0, ← id 1, ← id 2, ← id 3⟩

def text (key : QuadKey) : String := "(" ++ " ".intercalate (key.ids.map NodeId.text) ++ ")"

/-- Keys are ordered by subject, then predicate, object and label. -/
protected def order : QuadKey → QuadKey → Ordering :=
  compareLex (compareOn subject) <| compareLex (compareOn predicate) <|
    compareLex (compareOn object) (compareOn label)

instance : Ord QuadKey := ⟨QuadKey.order⟩

instance : Std.TransOrd QuadKey :=
  inferInstanceAs <| Std.TransCmp <| compareLex (compareOn subject) <|
    compareLex (compareOn predicate) <| compareLex (compareOn object) (compareOn label)

instance : Std.LawfulEqOrd QuadKey where
  eq_of_compare := by
    intro a b h
    obtain ⟨_, _, _, _⟩ := a
    obtain ⟨_, _, _, _⟩ := b
    have h : QuadKey.order _ _ = .eq := h
    simp only [QuadKey.order, compareLex, compareOn, Ordering.then_eq_eq,
      Std.LawfulEqOrd.compare_eq_iff_eq] at h
    obtain ⟨rfl, rfl, rfl, rfl⟩ := h
    rfl

end QuadKey

/-! ## References -/

inductive Category where
  | nodes
  | quads
deriving Repr, DecidableEq, Inhabited

def Category.text : Category → String
  | nodes => "nodes"
  | quads => "quads"

inductive Ref where
  | node (id : NodeId)
  | quad (key : QuadKey)
deriving Repr, DecidableEq, Inhabited

namespace Ref

def asNode? : Ref → Option NodeId
  | node id => some id
  | quad _ => none

def asQuad? : Ref → Option QuadKey
  | node _ => none
  | quad key => some key

def category : Ref → Category
  | node _ => .nodes
  | quad _ => .quads

def text : Ref → String
  | node id => id.text
  | quad key => key.text

/-- Nodes come before quads. -/
protected def order : Ref → Ref → Ordering
  | node a, node b => compare a b
  | node _, quad _ => .lt
  | quad _, node _ => .gt
  | quad a, quad b => compare a b

instance : Ord Ref := ⟨Ref.order⟩

instance : Std.TransOrd Ref where
  eq_swap := by
    rintro (a | a) (b | b)
    · exact @Std.OrientedCmp.eq_swap NodeId compare _ a b
    · rfl
    · rfl
    · exact @Std.OrientedCmp.eq_swap QuadKey compare _ a b
  isLE_trans := by
    rintro (a | a) (b | b) (d | d) hab hbd
    · exact @Std.TransCmp.isLE_trans NodeId compare _ a b d hab hbd
    · rfl
    · cases hbd
    · rfl
    · cases hab
    · cases hab
    · cases hbd
    · exact @Std.TransCmp.isLE_trans QuadKey compare _ a b d hab hbd

instance : Std.LawfulEqOrd Ref where
  eq_of_compare := by
    rintro (a | a) (b | b) h
    · exact congrArg node (Std.LawfulEqOrd.eq_of_compare (a := a) (b := b) h)
    · cases h
    · cases h
    · exact congrArg quad (Std.LawfulEqOrd.eq_of_compare (a := a) (b := b) h)

def sort (refs : List Ref) : List Ref := refs.mergeSort (fun a b => (compare a b).isLE)

end Ref

/-! ## Horizons -/

/-- A position in the log of processed writes. -/
structure Horizon where
  val : UInt64 := 0
deriving Repr, DecidableEq, Inhabited

namespace Horizon

def next (h : Horizon) : Horizon := ⟨h.val + 1⟩

def text (h : Horizon) : String := toString h.val.toNat

end Horizon

end GraphStore
