/-!
# Sorted tables

* `Table α β` : a finite map from keys to values, held as a list of entries with strictly
  increasing keys, so two tables are equal exactly when their entry lists are;
* `Table.get?`, `Table.insert`, `Table.erase` : point operations;
* `Table.between lo hi` : the entries inside a range, in key order (`Bound`);
* `Table.ofList` : later entries replace earlier ones;
* `SortedSet α` : a table without values.
-/

namespace GraphStore

/-- A finite map whose entries are kept in strictly increasing key order. -/
structure Table (α β : Type) [Ord α] where
  entries : List (α × β) := []
  sorted : entries.Pairwise (fun a b => compare a.1 b.1 = .lt) := by exact List.Pairwise.nil

inductive Bound (α : Type) where
  | unbounded
  | included (key : α)
  | excluded (key : α)
deriving Repr, DecidableEq

namespace Bound

variable {α : Type} [Ord α]

/-- Whether `k` lies on the upper side of the bound. -/
def below (k : α) : Bound α → Bool
  | unbounded => true
  | included b => (compare b k).isLE
  | excluded b => (compare b k).isLT

/-- Whether `k` lies on the lower side of the bound. -/
def above (k : α) : Bound α → Bool
  | unbounded => true
  | included b => (compare k b).isLE
  | excluded b => (compare k b).isLT

end Bound

namespace Table

variable {α β : Type} [Ord α]

/-! ## Operations on entry lists -/

def find (k : α) : List (α × β) → Option β
  | [] => none
  | (k', v) :: rest => if compare k k' = .eq then some v else find k rest

/-- Entries with `v` filed under `k`, at its place in the order. -/
def put (k : α) (v : β) : List (α × β) → List (α × β)
  | [] => [(k, v)]
  | (k', v') :: rest =>
    match compare k k' with
    | .lt => (k, v) :: (k', v') :: rest
    | .eq => (k, v) :: rest
    | .gt => (k', v') :: put k v rest

def drop (k : α) (entries : List (α × β)) : List (α × β) :=
  entries.filter (fun e => compare k e.1 != .eq)

theorem mem_put {k : α} {v : β} {e : α × β} {l : List (α × β)} (h : e ∈ put k v l) :
    e = (k, v) ∨ e ∈ l := by
  induction l with
  | nil => simpa [put] using h
  | cons hd rest ih =>
    obtain ⟨k', v'⟩ := hd
    rw [put] at h
    split at h
    · simpa using h
    · rcases List.mem_cons.1 h with h | h
      · exact .inl h
      · exact .inr (List.mem_cons_of_mem _ h)
    · rcases List.mem_cons.1 h with h | h
      · exact .inr (h ▸ List.mem_cons_self)
      · exact (ih h).imp_right (List.mem_cons_of_mem _)

theorem put_sorted [Std.TransOrd α] (k : α) (v : β) {l : List (α × β)}
    (h : l.Pairwise (fun a b => compare a.1 b.1 = .lt)) :
    (put k v l).Pairwise (fun a b => compare a.1 b.1 = .lt) := by
  induction l with
  | nil => exact List.pairwise_singleton _ _
  | cons hd rest ih =>
    obtain ⟨k', v'⟩ := hd
    obtain ⟨hhd, hrest⟩ := List.pairwise_cons.1 h
    rw [put]
    split
    · rename_i hlt
      refine List.pairwise_cons.2 ⟨fun e he => ?_, h⟩
      rcases List.mem_cons.1 he with rfl | he
      · exact hlt
      · exact Std.TransCmp.lt_trans hlt (hhd e he)
    · rename_i heq
      exact List.pairwise_cons.2 ⟨fun e he => Std.TransCmp.lt_of_eq_of_lt heq (hhd e he), hrest⟩
    · rename_i hgt
      refine List.pairwise_cons.2 ⟨fun e he => ?_, ih hrest⟩
      rcases mem_put he with rfl | he
      · exact Std.OrientedCmp.lt_of_gt hgt
      · exact hhd e he

/-! ## Tables -/

instance : EmptyCollection (Table α β) := ⟨{}⟩

instance : Inhabited (Table α β) := ⟨∅⟩

@[ext] theorem ext {t u : Table α β} (h : t.entries = u.entries) : t = u := by
  cases t; cases u; cases h; rfl

instance [DecidableEq α] [DecidableEq β] : DecidableEq (Table α β) := fun _ _ =>
  decidable_of_iff _ ⟨ext, congrArg _⟩

def get? (t : Table α β) (k : α) : Option β := find k t.entries

def contains (t : Table α β) (k : α) : Bool := (t.get? k).isSome

def getD (t : Table α β) (k : α) (fallback : β) : β := (t.get? k).getD fallback

def size (t : Table α β) : Nat := t.entries.length

def keys (t : Table α β) : List α := t.entries.map Prod.fst

def insert [Std.TransOrd α] (t : Table α β) (k : α) (v : β) : Table α β :=
  ⟨put k v t.entries, put_sorted k v t.sorted⟩

def erase (t : Table α β) (k : α) : Table α β :=
  ⟨drop k t.entries, t.sorted.filter _⟩

/-- The entries between two bounds, in key order. -/
def between (t : Table α β) (lo hi : Bound α) : List (α × β) :=
  t.entries.filter (fun e => lo.below e.1 && hi.above e.1)

/-- The table of the listed entries; a later one replaces an earlier one of its key. -/
def ofList [Std.TransOrd α] (entries : List (α × β)) : Table α β :=
  entries.foldl (fun t e => t.insert e.1 e.2) ∅

end Table

/-- A finite set with its members in increasing order. -/
abbrev SortedSet (α : Type) [Ord α] := Table α Unit

namespace SortedSet

variable {α : Type} [Ord α]

def add [Std.TransOrd α] (s : SortedSet α) (k : α) : SortedSet α := s.insert k ()

def ofList [Std.TransOrd α] (members : List α) : SortedSet α := members.foldl add ∅

end SortedSet

end GraphStore
