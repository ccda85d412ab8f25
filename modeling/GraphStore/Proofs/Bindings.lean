import GraphStore.Proofs.Tree
import Mathlib.Algebra.GroupWithZero.Nat
import Mathlib.Algebra.Order.BigOperators.Group.List
import Mathlib.Algebra.Order.Group.Nat

/-!
# Bindings of results

* `Tags.value` : what a query binds a name to, when it has a result;
* `Condensed` : values of which some were overridden by others;
* `Query.carriers` : the number of queries of a tree that a name is attached to;
* `Query.written` : what the queries along the paths to a result bind a name to, in order;
* `Query.Settled.get?_bind` : of these the last stays.
-/

namespace GraphStore

variable {name : String} {r : Ref} {b : Bindings}

/-! ## Names of one query -/

namespace Tags

variable {tags other : Tags}

def carries (tags : Tags) (name : String) : Bool :=
  tags.plain.contains name || tags.fixed.contains name

def value (tags : Tags) (name : String) (r : Ref) : Option Ref :=
  (tags.fixed.get? name).or (if name ∈ tags.plain then some r else none)

theorem isSome_value (tags : Tags) (name : String) (r : Ref) :
    (tags.value name r).isSome = tags.carries name := by
  unfold value carries Table.contains
  rw [Option.isSome_or, Bool.or_comm]
  refine congrArg (· || _) ?_
  by_cases h : name ∈ tags.plain <;> simp [h]

theorem get?_foldl_insert {l : List (String × Ref)} {v : Ref}
    (h : ∀ e ∈ l, e.1 = name → e.2 = v) (t : Table String Ref) :
    (l.foldl (fun t e => t.insert e.1 e.2) t).get? name =
      if name ∈ l.map Prod.fst then some v else t.get? name := by
  induction l generalizing t with
  | nil => rfl
  | cons e rest ih =>
    obtain ⟨he, hrest⟩ := List.forall_mem_cons.1 h
    rw [List.foldl_cons, ih hrest, Table.get?_insert, List.map_cons]
    by_cases hname : name = e.1
    · simp [hname, he hname.symm]
    · rw [if_neg hname]
      exact if_congr (by simp [hname]) rfl rfl

theorem get?_foldl_entries (u t : Table String Ref) :
    (u.entries.foldl (fun t e => t.insert e.1 e.2) t).get? name =
      (u.get? name).or (t.get? name) := by
  cases hget : u.get? name with
  | none =>
    have hnot : name ∉ u.entries.map Prod.fst := fun hmem => by
      have hcontains := Table.mem_keys.1 hmem
      unfold Table.contains at hcontains
      rw [hget] at hcontains
      cases hcontains
    rw [get?_foldl_insert (v := .node .blank), if_neg hnot, Option.none_or]
    exact fun e he hname => absurd (hname ▸ List.mem_map_of_mem he) hnot
  | some v =>
    have hmem := Table.mem_entries.2 hget
    rw [get?_foldl_insert (v := v), if_pos (List.mem_map_of_mem hmem), Option.some_or]
    rintro ⟨k, w⟩ he rfl
    exact Option.some.inj ((Table.mem_entries.1 he).symm.trans hget)

theorem get?_foldl_plain (names : List String) (r : Ref) (b : Bindings) :
    (names.foldl (fun b name => b.insert name r) b).get? name =
      if name ∈ names then some r else b.get? name := by
  induction names generalizing b with
  | nil => rfl
  | cons n rest ih =>
    rw [List.foldl_cons, ih, Table.get?_insert]
    by_cases hn : name = n <;> simp [hn]

/-- What is bound for a result is a name's value, or what it was bound to before. -/
theorem get?_bind (tags : Tags) (r : Ref) (b : Bindings) :
    (tags.bind (some r) b).get? name = (tags.value name r).or (b.get? name) := by
  unfold bind value
  simp only
  rw [get?_foldl_entries, get?_foldl_plain]
  by_cases hname : name ∈ tags.plain <;> simp [hname]

theorem mem_plain_foldl_add (names : List String) (tags : Tags) :
    name ∈ (names.foldl add tags).plain ↔ name ∈ tags.plain ∨ name ∈ names := by
  induction names generalizing tags with
  | nil => simp
  | cons n rest ih =>
    have hadd : name ∈ (tags.add n).plain ↔ name ∈ tags.plain ∨ name = n := by
      unfold add
      split
      · next hn =>
        refine ⟨.inl, ?_⟩
        rintro (hname | rfl)
        · exact hname
        · exact hn
      · simp
    rw [List.foldl_cons, ih, hadd, List.mem_cons, or_assoc]

theorem fixed_foldl_add (names : List String) (tags : Tags) :
    (names.foldl add tags).fixed = tags.fixed := by
  induction names generalizing tags with
  | nil => rfl
  | cons n rest ih =>
    rw [List.foldl_cons, ih]
    unfold add
    split <;> rfl

theorem addAllFixed_eq (bound : List (String × Ref)) (tags : Tags) :
    tags.addAllFixed bound =
      { tags with fixed := bound.foldl (fun t e => t.insert e.1 e.2) tags.fixed } := by
  unfold addAllFixed
  induction bound generalizing tags with
  | nil => rfl
  | cons e rest ih => rw [List.foldl_cons, ih]; rfl

/-- Merged tags bind a constant of either, the other one's first, and else the result. -/
theorem value_merge (tags other : Tags) (name : String) (r : Ref) :
    (tags.merge other).value name r = ((other.fixed.get? name).or (tags.fixed.get? name)).or
      (if name ∈ tags.plain ∨ name ∈ other.plain then some r else none) := by
  have hplain : name ∈ (tags.merge other).plain ↔ name ∈ tags.plain ∨ name ∈ other.plain := by
    unfold merge
    rw [addAllFixed_eq]
    exact mem_plain_foldl_add _ _
  have hfixed : (tags.merge other).fixed.get? name =
      (other.fixed.get? name).or (tags.fixed.get? name) := by
    unfold merge
    rw [addAllFixed_eq, get?_foldl_entries, fixed_foldl_add]
  unfold value
  simp only [hplain, hfixed]

theorem value_empty_merge (tags : Tags) (name : String) (r : Ref) :
    (({} : Tags).merge tags).value name r = tags.value name r := by
  have hfixed : (({} : Tags).fixed).get? name = none := rfl
  rw [value_merge, hfixed, Option.or_none]
  simp [value]

theorem value_addAllFixed (tags listed : Tags) (v r : Ref) :
    ((tags.addAllFixed (listed.plain.map fun name => (name, v))).addAllFixed
      listed.fixed.entries).value name r = (listed.value name v).or (tags.value name r) := by
  have hplain : (listed.plain.map fun name => (name, v)).map Prod.fst = listed.plain := by
    rw [List.map_map]
    exact List.map_id _
  have hconstant : ∀ e ∈ listed.plain.map fun name => (name, v), e.1 = name → e.2 = v := by
    intro e he _
    obtain ⟨n, -, rfl⟩ := List.mem_map.1 he
    rfl
  rw [addAllFixed_eq, addAllFixed_eq]
  unfold value
  simp only
  rw [get?_foldl_entries, get?_foldl_insert hconstant, hplain]
  by_cases hname : name ∈ listed.plain <;> simp [hname, Option.or_assoc]

end Tags

/-! ## Overridden values -/

/-- `l'` is `l` after some values were overridden by others of them. -/
structure Condensed (l l' : List Ref) : Prop where
  subset : l' ⊆ l
  length_le : l'.length ≤ l.length
  eq_nil : l' = [] → l = []

namespace Condensed

variable {l l' l'' k k' : List Ref}

theorem refl (l : List Ref) : Condensed l l := ⟨List.Subset.refl l, Nat.le_refl _, id⟩

theorem trans (h : Condensed l l') (h' : Condensed l' l'') : Condensed l l'' :=
  ⟨List.Subset.trans h'.subset h.subset, Nat.le_trans h'.length_le h.length_le, fun hl => h.eq_nil (h'.eq_nil hl)⟩

theorem of_perm (h : l'.Perm l) : Condensed l l' :=
  ⟨h.subset, Nat.le_of_eq h.length_eq, fun hl => (hl ▸ h).nil_eq.symm⟩

theorem append (h : Condensed l l') (hk : Condensed k k') : Condensed (l ++ k) (l' ++ k') where
  subset := List.append_subset_of_subset_of_subset (List.subset_append_of_subset_left _ h.subset)
    (List.subset_append_of_subset_right _ hk.subset)
  length_le := by
    rw [List.length_append, List.length_append]
    exact Nat.add_le_add h.length_le hk.length_le
  eq_nil := by
    intro hnil
    rw [List.append_eq_nil_iff] at hnil ⊢
    exact ⟨h.eq_nil hnil.1, hk.eq_nil hnil.2⟩

theorem flatMap {α : Type} {f g : α → List Ref} {xs : List α} (h : ∀ x ∈ xs, Condensed (f x) (g x)) :
    Condensed (xs.flatMap f) (xs.flatMap g) := by
  induction xs with
  | nil => exact refl []
  | cons x rest ih =>
    obtain ⟨hx, hrest⟩ := List.forall_mem_cons.1 h
    rw [List.flatMap_cons, List.flatMap_cons]
    exact hx.append (ih hrest)

theorem eq_of_length_le_one (h : Condensed l l') (hlength : l.length ≤ 1) : l' = l := by
  rcases l with _ | ⟨v, _ | ⟨w, rest⟩⟩
  · exact List.subset_nil.1 h.subset
  · rcases l' with _ | ⟨v', _ | ⟨w', rest'⟩⟩
    · exact absurd (h.eq_nil rfl) nofun
    · rw [List.mem_singleton.1 (h.subset List.mem_cons_self)]
    · exact absurd h.length_le (by simp)
  · simp at hlength

/-- The last value stays, or it was overridden by another one. -/
theorem getLast? (h : Condensed l l') : l'.getLast? = l.getLast? ∨
    ∃ v ∈ l, ∃ w ∈ l, v ≠ w ∧ l.getLast? = some v ∧ l'.getLast? = some w := by
  cases hl' : l'.getLast? with
  | none =>
    rw [List.getLast?_eq_none_iff] at hl'
    rw [h.eq_nil hl']
    exact .inl rfl
  | some w =>
    have hw : w ∈ l := h.subset (List.mem_of_getLast? hl')
    cases hl : l.getLast? with
    | none =>
      rw [List.getLast?_eq_none_iff.1 hl] at hw
      cases hw
    | some v =>
      by_cases heq : v = w
      · exact .inl (by rw [heq])
      · exact .inr ⟨v, List.mem_of_getLast? hl, w, hw, heq, rfl, rfl⟩

end Condensed

/-- Of two values for a result merged tags keep one. -/
theorem condensed_merge (tags other : Tags) (name : String) (r : Ref) :
    Condensed ((tags.value name r).toList ++ (other.value name r).toList)
      ((tags.merge other).value name r).toList := by
  rw [Tags.value_merge]
  unfold Tags.value
  have hsome (v w : Ref) : Condensed [v, w] [w] := ⟨by simp, by simp, by simp⟩
  have hsome' (v w : Ref) : Condensed [v, w] [v] := ⟨by simp, by simp, by simp⟩
  by_cases hname : name ∈ tags.plain <;> by_cases hother : name ∈ other.plain <;>
    cases tags.fixed.get? name <;> cases other.fixed.get? name <;>
      simp [hname, hother, Condensed.refl, hsome, hsome']

theorem condensed_or (a b : Option Ref) : Condensed (a.toList ++ b.toList) (b.or a).toList := by
  cases b with
  | none => exact .of_perm (by simp)
  | some w =>
    cases a with
    | none => exact .refl _
    | some v => exact ⟨by simp, by simp, by simp⟩

/-! ## Names along a tree -/

namespace Query

variable {q q' : Query}

mutual

/-- The number of queries of a tree that a name is attached to. -/
def carriers (name : String) : Query → Nat
  | .all frame .. | .fixed frame .. => (frame.tags.carries name).toNat
  | .position scan => (scan.frame.tags.carries name).toNat
  | .links frame _ _ _ primary _ _ => (frame.tags.carries name).toNat + primary.carriers name
  | .inter frame children _ _ => (frame.tags.carries name).toNat + carriersAll name children

def carriersAll (name : String) : List Query → Nat
  | [] => 0
  | q :: rest => q.carriers name + carriersAll name rest

end

mutual

/-- The values a name is bound to along the paths to a result, in order. -/
def written (name : String) : Query → Ref → List Ref
  | .all frame .., r | .fixed frame .., r => (frame.tags.value name r).toList
  | .position scan, r => (scan.frame.tags.value name r).toList
  | .links frame _ _ direction primary _ _, r =>
    (frame.tags.value name r).toList ++
      r.asQuad?.elim [] fun key => primary.written name (.node (key.get direction))
  | .inter frame children _ _, r => (frame.tags.value name r).toList ++ writtenAll name children r

def writtenAll (name : String) : List Query → Ref → List Ref
  | [], _ => []
  | q :: rest, r => q.written name r ++ writtenAll name rest r

end

theorem carriersAll_eq (name : String) (qs : List Query) :
    carriersAll name qs = (qs.map (carriers name)).sum := by
  induction qs with
  | nil => rfl
  | cons q rest ih => rw [carriersAll, ih, List.map_cons, List.sum_cons]

theorem writtenAll_eq (name : String) (qs : List Query) (r : Ref) :
    writtenAll name qs r = qs.flatMap fun q => q.written name r := by
  induction qs with
  | nil => rfl
  | cons q rest ih => rw [writtenAll, ih, List.flatMap_cons]

theorem length_value (tags : Tags) (name : String) (r : Ref) :
    (tags.value name r).toList.length = (tags.carries name).toNat := by
  rw [← Tags.isSome_value tags name r]
  cases tags.value name r <;> rfl

/-- Each query that carries a name writes it once at most. -/
theorem length_written_le (name : String) (q : Query) (r : Ref) :
    (q.written name r).length ≤ q.carriers name := by
  induction q using induct generalizing r with
  | all | fixed | position => exact Nat.le_of_eq (length_value _ _ _)
  | links frame handle pageSize direction primary inner snapshot ih =>
    unfold written carriers
    rw [List.length_append, length_value]
    refine Nat.add_le_add_left ?_ _
    cases r with
    | node id => exact Nat.zero_le _
    | quad key => exact ih _
  | inter frame children driver snapshot ih =>
    unfold written carriers
    rw [List.length_append, length_value, writtenAll_eq, carriersAll_eq, List.length_flatMap]
    exact Nat.add_le_add_left (List.sum_le_sum fun q hq => ih q hq r) _

theorem written_reset (name : String) (q : Query) : q.reset.written name r = q.written name r := by
  induction q using induct generalizing r with
  | all | fixed | position => rfl
  | links frame handle pageSize direction primary inner snapshot ih =>
    unfold reset written
    simp only [ih]
    rfl
  | inter frame children driver snapshot ih =>
    unfold reset written
    rw [resetAll_eq, writtenAll_eq, writtenAll_eq, List.flatMap_map]
    exact congrArg _ (List.flatMap_congr fun q hq => ih q hq)

theorem get?_bindAll {qs : List Query}
    (h : ∀ q ∈ qs, ∀ b : Bindings,
      (q.bind b).get? name = (q.written name r).getLast?.or (b.get? name)) (b : Bindings) :
    (bindAll qs b).get? name = (writtenAll name qs r).getLast?.or (b.get? name) := by
  induction qs generalizing b with
  | nil => rfl
  | cons q rest ih =>
    obtain ⟨hq, hrest⟩ := List.forall_mem_cons.1 h
    unfold bindAll writtenAll
    rw [ih hrest, hq, List.getLast?_append, Option.or_assoc]

theorem get?_bind_frame {frame : Frame} (h : frame.result = some r) (b : Bindings) :
    (frame.bind b).get? name = (frame.tags.value name r).toList.getLast?.or (b.get? name) := by
  unfold Frame.bind
  rw [h, Tags.get?_bind]
  cases frame.tags.value name r <;> rfl

/-- Of the values a name is bound to the last stays. -/
theorem Settled.get?_bind (h : Settled r q) (b : Bindings) :
    (q.bind b).get? name = (q.written name r).getLast?.or (b.get? name) := by
  induction h generalizing b with
  | all h | fixed h | position h => exact get?_bind_frame h b
  | links h _ ih =>
    unfold bind written
    rw [ih, get?_bind_frame h, List.getLast?_append, Option.or_assoc]
    rfl
  | inter h _ ih =>
    unfold bind written
    rw [get?_bindAll ih, get?_bind_frame h, List.getLast?_append, Option.or_assoc]

/-- Trees that write the same values bind the same. -/
theorem Settled.bind_eq (h : Settled r q) (h' : Settled r q')
    (hwritten : ∀ name, q'.written name r = q.written name r) (b : Bindings) :
    q'.bind b = q.bind b :=
  Table.ext_get? fun name => by rw [h'.get?_bind, h.get?_bind, hwritten]

end Query

end GraphStore
