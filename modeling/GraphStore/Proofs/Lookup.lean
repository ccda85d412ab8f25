import GraphStore.Table
import Mathlib.Data.List.Perm.Basic

/-!
# Lookups in sorted tables

A table is what its lookups say (`Table.ext_get?`).

* `Table.get?_insert`, `Table.get?_erase` : reading after a write;
* `Table.entries_insert_perm`, `Table.perm_cons_erase` : what a write does to the entries, up to
  their order, from which sizes and counts follow;
* `Table.between_after` : a range read that resumes after an entry continues where an earlier one
  stopped.
-/

-- The lemmas share one set of assumptions on keys, met by every key type of a store file.
set_option linter.unusedSectionVars false

namespace GraphStore.Table

variable {α β : Type} [Ord α] [Std.LawfulEqOrd α]

theorem compare_eq_iff {a b : α} : compare a b = .eq ↔ a = b :=
  Std.LawfulEqOrd.compare_eq_iff_eq

theorem ne_of_compare_lt {a b : α} (h : compare a b = .lt) : a ≠ b := fun e => by
  simp [compare_eq_iff.2 e] at h

variable [Std.TransOrd α] [DecidableEq α]

/-! ## Entry lists -/

theorem find_put (k k' : α) (v : β) (l : List (α × β)) :
    find k' (put k v l) = if k' = k then some v else find k' l := by
  induction l with
  | nil => simp only [put, find, compare_eq_iff]
  | cons hd rest ih =>
    obtain ⟨k₀, v₀⟩ := hd
    rw [put]
    split
    · simp only [find, compare_eq_iff]
    · next heq =>
      obtain rfl := compare_eq_iff.1 heq
      simp only [find, compare_eq_iff]
      split <;> rfl
    · next hgt =>
      have hne : k ≠ k₀ := fun e => by simp [compare_eq_iff.2 e] at hgt
      simp only [find, compare_eq_iff, ih]
      by_cases hk : k' = k₀
      · rw [if_pos hk, if_neg (fun e => hne (e.symm.trans hk)), if_pos hk]
      · rw [if_neg hk, if_neg hk]

theorem find_drop (k k' : α) (l : List (α × β)) :
    find k' (drop k l) = if k' = k then none else find k' l := by
  induction l with
  | nil => simp [drop, find]
  | cons hd rest ih =>
    obtain ⟨k₀, v₀⟩ := hd
    unfold drop at ih ⊢
    by_cases hk : k = k₀
    · subst hk
      rw [List.filter_cons_of_neg (by simp), ih]
      simp only [find, compare_eq_iff]
      split <;> rfl
    · rw [List.filter_cons_of_pos (by simp [hk])]
      simp only [find, compare_eq_iff, ih]
      by_cases hk' : k' = k₀
      · rw [if_pos hk', if_neg (fun e => hk (e.symm.trans hk')), if_pos hk']
      · rw [if_neg hk', if_neg hk']

theorem find_eq_some_iff {k : α} {v : β} {l : List (α × β)}
    (h : l.Pairwise (fun a b => compare a.1 b.1 = .lt)) : find k l = some v ↔ (k, v) ∈ l := by
  induction l with
  | nil => simp [find]
  | cons hd rest ih =>
    obtain ⟨k₀, v₀⟩ := hd
    obtain ⟨hhd, hrest⟩ := List.pairwise_cons.1 h
    simp only [find, compare_eq_iff, List.mem_cons, Prod.mk.injEq]
    split
    · next heq =>
      subst heq
      constructor
      · rintro h
        exact .inl ⟨rfl, (Option.some.inj h).symm⟩
      · rintro (⟨-, rfl⟩ | hmem)
        · rfl
        · exact absurd (hhd _ hmem) (by simp)
    · next hne => simp [hne, ih hrest]

theorem put_perm {k : α} (v : β) {l : List (α × β)} (h : find k l = none) :
    (put k v l).Perm ((k, v) :: l) := by
  induction l with
  | nil => exact List.Perm.refl _
  | cons hd rest ih =>
    obtain ⟨k₀, v₀⟩ := hd
    simp only [find] at h
    split at h
    · cases h
    · next hne =>
      rw [put]
      split
      · exact List.Perm.refl _
      · next heq => exact absurd heq hne
      · exact ((ih h).cons _).trans (.swap _ _ _)

theorem perm_cons_drop {k : α} {v : β} {l : List (α × β)}
    (h : l.Pairwise (fun a b => compare a.1 b.1 = .lt)) (hk : find k l = some v) :
    l.Perm ((k, v) :: drop k l) := by
  induction l with
  | nil => simp [find] at hk
  | cons hd rest ih =>
    obtain ⟨k₀, v₀⟩ := hd
    obtain ⟨hhd, hrest⟩ := List.pairwise_cons.1 h
    simp only [find] at hk
    unfold drop at ih ⊢
    split at hk
    · next heq =>
      obtain rfl := compare_eq_iff.1 heq
      obtain rfl := Option.some.inj hk
      have hkeep : rest.filter (fun e => compare k e.1 != .eq) = rest :=
        List.filter_eq_self.2 fun e he => by simp [hhd e he]
      rw [List.filter_cons_of_neg (by simp), hkeep]
    · next hne =>
      rw [List.filter_cons_of_pos (by simpa using hne)]
      exact ((ih hrest hk).cons _).trans (.swap _ _ _)

/-! ## Reading after a write -/

variable (t : Table α β) (k k' : α) (v : β)

@[simp] theorem get?_empty : (∅ : Table α β).get? k = none := rfl

theorem get?_insert : (t.insert k v).get? k' = if k' = k then some v else t.get? k' :=
  find_put k k' v t.entries

@[simp] theorem get?_insert_self : (t.insert k v).get? k = some v := by
  rw [get?_insert, if_pos rfl]

theorem get?_erase : (t.erase k).get? k' = if k' = k then none else t.get? k' :=
  find_drop k k' t.entries

theorem getD_insert (fallback : β) :
    (t.insert k v).getD k' fallback = if k' = k then v else t.getD k' fallback := by
  unfold getD
  rw [get?_insert]
  split <;> rfl

theorem contains_insert : (t.insert k v).contains k' = (decide (k' = k) || t.contains k') := by
  unfold contains
  rw [get?_insert]
  by_cases h : k' = k <;> simp [h]

theorem contains_erase : (t.erase k).contains k' = (!decide (k' = k) && t.contains k') := by
  unfold contains
  rw [get?_erase]
  by_cases h : k' = k <;> simp [h]

variable {t k k' v}

/-! ## Entries and keys -/

theorem mem_entries : (k, v) ∈ t.entries ↔ t.get? k = some v :=
  (find_eq_some_iff t.sorted).symm

theorem mem_keys : k ∈ t.keys ↔ t.contains k = true := by
  unfold keys contains
  rw [List.mem_map, Option.isSome_iff_exists]
  constructor
  · rintro ⟨⟨_, v⟩, he, rfl⟩
    exact ⟨v, mem_entries.1 he⟩
  · rintro ⟨v, hv⟩
    exact ⟨(k, v), mem_entries.2 hv, rfl⟩

theorem keys_pairwise (t : Table α β) : t.keys.Pairwise (fun a b => compare a b = .lt) :=
  List.pairwise_map.2 t.sorted

theorem keys_nodup (t : Table α β) : t.keys.Nodup :=
  t.keys_pairwise.imp ne_of_compare_lt

theorem length_keys (t : Table α β) : t.keys.length = t.size := List.length_map _

theorem size_eq_add {u : Table α β} {more : List α} (hmore : more.Nodup)
    (hnew : ∀ k ∈ more, t.contains k = false)
    (h : ∀ k, u.contains k = true ↔ k ∈ more ∨ t.contains k = true) :
    u.size = more.length + t.size := by
  have hnodup : (more ++ t.keys).Nodup := by
    refine List.nodup_append.2 ⟨hmore, t.keys_nodup, fun k hk k' hkeys e => ?_⟩
    rw [← e, mem_keys, hnew k hk] at hkeys
    cases hkeys
  have hperm : u.keys.Perm (more ++ t.keys) := by
    refine (List.perm_ext_iff_of_nodup u.keys_nodup hnodup).2 fun k => ?_
    rw [mem_keys, h, List.mem_append, mem_keys]
  rw [← length_keys, hperm.length_eq, List.length_append, length_keys]

theorem entries_nodup (t : Table α β) : t.entries.Nodup :=
  t.sorted.imp fun h e => ne_of_compare_lt h (congrArg Prod.fst e)

theorem ext_get? {t u : Table α β} (h : ∀ k, t.get? k = u.get? k) : t = u := by
  apply ext
  have hperm : t.entries.Perm u.entries :=
    (List.perm_ext_iff_of_nodup t.entries_nodup u.entries_nodup).2 fun ⟨k, v⟩ => by
      rw [mem_entries, mem_entries, h]
  refine List.Perm.eq_of_pairwise (fun a b _ _ hab hba => ?_) t.sorted u.sorted hperm
  exact absurd hba (by simp [Std.OrientedCmp.gt_of_lt hab])

theorem entries_insert_perm (v : β) (h : t.get? k = none) :
    (t.insert k v).entries.Perm ((k, v) :: t.entries) :=
  put_perm v h

theorem perm_cons_erase (h : t.get? k = some v) :
    t.entries.Perm ((k, v) :: (t.erase k).entries) :=
  perm_cons_drop t.sorted h

theorem size_insert_of_none (v : β) (h : t.get? k = none) :
    (t.insert k v).size = t.size + 1 :=
  (entries_insert_perm v h).length_eq

theorem size_erase_of_some (h : t.get? k = some v) : (t.erase k).size + 1 = t.size :=
  (perm_cons_erase h).length_eq.symm

theorem size_insert_of_some {v : β} (w : β) (h : t.get? k = some v) :
    (t.insert k w).size = t.size := by
  have herase : ((t.erase k).insert k w) = t.insert k w :=
    ext_get? fun k' => by simp only [get?_insert, get?_erase]; split <;> rfl
  rw [← herase, size_insert_of_none w (by rw [get?_erase, if_pos rfl]), size_erase_of_some h]

theorem erase_of_not_contains (h : t.contains k = false) : t.erase k = t := by
  refine ext_get? fun k' => ?_
  rw [get?_erase]
  split
  · next e =>
    have hnone : t.get? k = none := by simpa [contains] using h
    rw [e, hnone]
  · rfl

/-! ## Ranges -/

theorem mem_between {lo hi : Bound α} {e : α × β} :
    e ∈ t.between lo hi ↔ t.get? e.1 = some e.2 ∧ lo.below e.1 = true ∧ hi.above e.1 = true := by
  unfold between
  rw [List.mem_filter, Bool.and_eq_true, ← mem_entries]

theorem between_unbounded (t : Table α β) : t.between .unbounded .unbounded = t.entries :=
  List.filter_eq_self.2 fun _ _ => rfl

theorem between_pairwise (t : Table α β) (lo hi : Bound α) :
    (t.between lo hi).Pairwise (fun a b => compare a.1 b.1 = .lt) :=
  t.sorted.filter _

theorem length_between_le (t : Table α β) (lo hi : Bound α) :
    (t.between lo hi).length ≤ t.size :=
  List.length_filter_le _ _

theorem below_of_lt {lo : Bound α} {a b : α} (ha : lo.below a = true) (h : compare a b = .lt) :
    lo.below b = true := by
  cases lo with
  | unbounded => rfl
  | included c =>
    have := Std.TransCmp.lt_of_isLE_of_lt ha h
    simp [Bound.below, this]
  | excluded c =>
    have hc : compare c a = .lt := by simpa [Bound.below] using ha
    simp [Bound.below, Std.TransCmp.lt_trans hc h]

/-- After an entry of a range comes the rest of the range. -/
theorem between_after {lo hi : Bound α} {before after : List (α × β)} {e : α × β}
    (h : t.between lo hi = before ++ e :: after) : t.between (.excluded e.1) hi = after := by
  have he : e ∈ t.between lo hi := h ▸ List.mem_append_right _ List.mem_cons_self
  have hsorted := t.between_pairwise lo hi
  rw [h, List.pairwise_append, List.pairwise_cons] at hsorted
  obtain ⟨-, ⟨hafter, -⟩, hbefore⟩ := hsorted
  have hrange : t.between (.excluded e.1) hi =
      (t.between lo hi).filter (fun x => (Bound.excluded e.1).below x.1) := by
    unfold between
    rw [List.filter_filter]
    refine List.filter_congr fun x _ => ?_
    by_cases hx : (Bound.excluded e.1).below x.1 = true
    · have hlt : compare e.1 x.1 = .lt := by simpa [Bound.below] using hx
      rw [hx, below_of_lt (mem_between.1 he).2.1 hlt, Bool.true_and, Bool.true_and]
    · rw [Bool.eq_false_iff.2 hx, Bool.false_and, Bool.false_and]
  have hnone : before.filter (fun x => (Bound.excluded e.1).below x.1) = [] :=
    List.filter_eq_nil_iff.2 fun x hx => by
      have hlt := hbefore x hx e List.mem_cons_self
      simp [Bound.below, Std.OrientedCmp.gt_of_lt hlt]
  have hall : after.filter (fun x => (Bound.excluded e.1).below x.1) = after :=
    List.filter_eq_self.2 fun x hx => by simp [Bound.below, hafter x hx]
  rw [hrange, h, List.filter_append, hnone, List.filter_cons_of_neg, hall, List.nil_append]
  simp [Bound.below]

end GraphStore.Table

/-! ## Sets -/

namespace GraphStore.SortedSet

variable {α : Type} [Ord α] [Std.LawfulEqOrd α] [Std.TransOrd α] [DecidableEq α]

theorem contains_add (s : SortedSet α) (k k' : α) :
    (s.add k).contains k' = (decide (k' = k) || s.contains k') :=
  Table.contains_insert s k k' ()

theorem ext_contains {s u : SortedSet α} (h : ∀ k, s.contains k = u.contains k) : s = u :=
  Table.ext_get? fun k => by
    have := h k
    unfold Table.contains at this
    cases hs : s.get? k <;> cases hu : u.get? k <;> simp_all

theorem add_of_contains {s : SortedSet α} {k : α} (h : s.contains k = true) : s.add k = s := by
  refine ext_contains fun k' => ?_
  rw [contains_add]
  by_cases hk : k' = k
  · simp [hk, h]
  · simp [hk]

theorem size_add {s : SortedSet α} {k : α} (h : s.contains k = false) :
    (s.add k).size = s.size + 1 :=
  Table.size_insert_of_none () (by simpa [Table.contains] using h)

theorem size_erase {s : SortedSet α} {k : α} (h : s.contains k = true) :
    (s.erase k).size + 1 = s.size := by
  obtain ⟨v, hv⟩ := Option.isSome_iff_exists.1 h
  exact Table.size_erase_of_some hv

theorem contains_foldl_add (members : List α) (s : SortedSet α) (k : α) :
    (members.foldl add s).contains k = true ↔ k ∈ members ∨ s.contains k = true := by
  induction members generalizing s with
  | nil => simp
  | cons m rest ih =>
    rw [List.foldl_cons, ih, contains_add, Bool.or_eq_true, decide_eq_true_eq, List.mem_cons]
    tauto

@[simp] theorem contains_ofList (members : List α) (k : α) :
    (ofList members).contains k = true ↔ k ∈ members := by
  unfold ofList
  rw [contains_foldl_add]
  simp [Table.contains]

theorem mem_keys_ofList {members : List α} {k : α} : k ∈ (ofList members).keys ↔ k ∈ members := by
  rw [Table.mem_keys, contains_ofList]

theorem keys_ofList_perm {members : List α} (h : members.Nodup) :
    (ofList members).keys.Perm members :=
  (List.perm_ext_iff_of_nodup (Table.keys_nodup _) h).2 fun _ => mem_keys_ofList

end GraphStore.SortedSet
