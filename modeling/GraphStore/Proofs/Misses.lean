import GraphStore.Proofs.Matching

/-!
# What answers change

* `Query.Over.matches_setSnapshot` : a tree that holds a snapshot throughout stays as it is when it is
  given this snapshot;
* `Query.passingNames` : the names of parts that are asked before another one, which may still say no;
* `Query.Over.matches_probe` : an answer changes a tree only in results of parts, and a no only in those of
  parts with passing names.
-/

namespace GraphStore.Query

variable {disk : Disk} {handle : Handle} {imposed s : Option Snapshot} {q q' : Query}
  {qs : List Query} {r : Ref} {names : List String}

/-! ## Snapshots that are there already -/

/-- A tree that holds a snapshot in all parts that read the store stays as it is when it is given this
snapshot. -/
theorem Over.matches_setSnapshot (h : Over (· = s) handle q) (names : List String) :
    Matches names q (q.setSnapshot s) := by
  induction h with
  | @all frame category cursor h =>
    unfold Query.setSnapshot
    rw [Cursor.setSnapshot_eq_self_iff.2 h.snapshot]
    exact .refl names _
  | fixed => exact .refl names _
  | @position scan h =>
    unfold Query.setSnapshot
    rw [Scan.setSnapshot_eq_self_iff.2 h.snapshot]
    exact .refl names _
  | @links frame pageSize direction primary inner snapshot hs _ hinner ih =>
    have hsame : inner.map (·.setSnapshot s) = inner := by
      cases inner with
      | none => rfl
      | some scan => exact congrArg some (Scan.setSnapshot_eq_self_iff.2 (hinner scan rfl).snapshot)
    unfold Query.setSnapshot
    rw [hsame, ← hs]
    exact .links (.refl names frame) (hs ▸ ih)
  | inter _ hs ih =>
    unfold Query.setSnapshot
    rw [setSnapshotAll_eq]
    refine .inter (.refl names _) ?_ fun hne => (hs hne).symm
    rw [List.forall₂_map_right_iff]
    exact List.forall₂_same.2 ih

/-- What matches a tree without snapshots does so when it lets go of its own. -/
theorem Matches.release (h : Matches names q q') (hq : Over (· = none) handle q) :
    Matches names q (q'.setSnapshot none) :=
  (hq.matches_setSnapshot names).trans (h.setSnapshot none)

/-! ## Names that an answer touches -/

mutual

/-- The names that are bound to results of parts which are asked before another one: of all children
of an intersection but the last, and of what is asked so in the last. -/
def passingNames : Query → List String
  | .all .. | .fixed .. | .position _ => []
  | .links _ _ _ _ primary _ _ => primary.passingNames
  | .inter _ children _ _ => passingNamesAll children

def passingNamesAll : List Query → List String
  | [] => []
  | q :: rest => (if rest.isEmpty then q.passingNames else q.plainNames) ++ passingNamesAll rest

end

/-- The names that are bound to results which an answer can change. -/
def touchedNames (q : Query) : Except StoreError Bool → List String
  | .ok false => q.passingNames
  | .ok true | .error _ => q.plainNames

def touchedNamesAll (qs : List Query) : Except StoreError Bool → List String
  | .ok false => passingNamesAll qs
  | .ok true | .error _ => plainNamesAll qs

theorem passingNamesAll_subset (h : ∀ q ∈ qs, q.passingNames ⊆ q.plainNames) :
    passingNamesAll qs ⊆ plainNamesAll qs := by
  induction qs with
  | nil => exact List.Subset.refl _
  | cons q rest ih =>
    obtain ⟨hq, hrest⟩ := List.forall_mem_cons.1 h
    unfold passingNamesAll plainNamesAll
    refine List.append_subset.2 ⟨?_, List.subset_append_of_subset_right _ (ih hrest)⟩
    split
    · exact List.subset_append_of_subset_left _ hq
    · exact List.subset_append_left _ _

theorem passingNames_subset (q : Query) : q.passingNames ⊆ q.plainNames := by
  induction q using induct with
  | all | fixed | position => exact List.nil_subset _
  | links frame handle pageSize direction primary inner snapshot ih =>
    exact List.subset_append_of_subset_right _ ih
  | inter frame children driver snapshot ih =>
    exact List.subset_append_of_subset_right _ (passingNamesAll_subset ih)

theorem passingNames_reset (q : Query) : q.reset.passingNames = q.passingNames := by
  induction q using induct with
  | all | fixed | position => rfl
  | links frame handle pageSize direction primary inner snapshot ih => exact ih
  | inter frame children driver snapshot ih =>
    unfold reset passingNames
    induction children with
    | nil => rfl
    | cons q rest ihrest =>
      obtain ⟨hq, hrest⟩ := List.forall_mem_cons.1 ih
      have hempty : (resetAll rest).isEmpty = rest.isEmpty := by cases rest <;> rfl
      unfold resetAll passingNamesAll
      rw [ihrest hrest, hempty, hq, plainNames_reset]

theorem Unbranched.passingNames_eq (h : q.Unbranched) : q.passingNames = [] := by
  induction h with
  | all | fixed | position | none => rfl
  | links _ ih => exact ih
  | only _ ih => exact (List.append_nil _).trans ih

theorem touchedNamesAll_cons {answer : Except StoreError Bool} (h : answer = .ok false → qs ≠ []) :
    touchedNamesAll (q :: qs) answer = q.plainNames ++ touchedNamesAll qs answer := by
  rcases answer with error | _ | _
  · rfl
  · have hne : qs.isEmpty = false := Bool.eq_false_iff.2 fun hempty => h rfl (List.isEmpty_iff.1 hempty)
    unfold touchedNamesAll
    rw [passingNamesAll, hne]
    rfl
  · rfl

theorem probeAll_touches (names : List String)
    (hqs : ∀ q ∈ qs, ∀ names, q.touchedNames (q.probe disk imposed r).1 ⊆ names →
      Matches names q (q.probe disk imposed r).2)
    (hnames : touchedNamesAll qs (probeAll disk imposed r none qs).1 ⊆ names) :
    List.Forall₂ (Matches names) qs (probeAll disk imposed r none qs).2 := by
  induction qs with
  | nil => exact .nil
  | cons q rest ih =>
    obtain ⟨hq, hrest⟩ := List.forall_mem_cons.1 hqs
    have hsame : List.Forall₂ (Matches names) rest rest := List.forall₂_same.2 fun q _ => .refl names q
    have hasked := hq names
    unfold probeAll at hnames ⊢
    rw [if_neg (by simp)] at hnames ⊢
    generalize q.probe disk imposed r = out at hasked hnames ⊢
    obtain ⟨answer, q'⟩ := out
    rcases answer with error | _ | _
    · exact .cons (hasked (List.append_subset.1 hnames).1) hsame
    · -- The one that says no is the last one asked, but others may come after it.
      refine .cons (hasked fun name hname => hnames ?_) hsame
      refine List.mem_append_left _ ?_
      split
      · exact hname
      · exact passingNames_subset q hname
    · change touchedNamesAll (q :: rest) (probeAll disk imposed r none rest).1 ⊆ names at hnames
      rw [touchedNamesAll_cons] at hnames
      · exact .cons (hasked (List.append_subset.1 hnames).1) (ih hrest (List.append_subset.1 hnames).2)
      · -- Some query says no only if there is one.
        rintro hno rfl
        cases hno

section Touched

variable {frame : Frame} {pageSize : Nat} {direction : Direction} {primary : Query}
  {inner : Option Scan} {children : List Query} {driver : Option Nat} {snapshot : Option Snapshot}
  {answer : Except StoreError Bool}

theorem matches_answered (r : Ref) (h : answer = .ok true → frame.tags.plain ⊆ names) :
    frame.Matches names (answered frame r answer) := by
  rcases answer with error | _ | _
  · exact .refl names frame
  · exact .refl names frame
  · exact ⟨rfl, rfl, .inr (h rfl)⟩

theorem plainNames_subset (h : q.touchedNames answer ⊆ names) (hanswer : answer = .ok true) :
    q.plainNames ⊆ names := by
  subst hanswer
  exact h

theorem touchedNames_links
    (h : touchedNames (.links frame handle pageSize direction primary inner snapshot) answer ⊆ names) :
    (answer = .ok true → frame.tags.plain ⊆ names) ∧ primary.touchedNames answer ⊆ names := by
  rcases answer with error | _ | _
  · exact ⟨nofun, (List.append_subset.1 h).2⟩
  · exact ⟨nofun, h⟩
  · exact ⟨fun _ => (List.append_subset.1 h).1, (List.append_subset.1 h).2⟩

theorem touchedNames_inter (h : touchedNames (.inter frame children driver snapshot) answer ⊆ names) :
    (answer = .ok true → frame.tags.plain ⊆ names) ∧ touchedNamesAll children answer ⊆ names := by
  rcases answer with error | _ | _
  · exact ⟨nofun, (List.append_subset.1 h).2⟩
  · exact ⟨nofun, h⟩
  · exact ⟨fun _ => (List.append_subset.1 h).1, (List.append_subset.1 h).2⟩

end Touched

/-- Whatever it is asked for, a tree that holds the same snapshot in all parts that read the store changes
only in results of parts that bind none but the touched names. -/
theorem Over.matches_probe (h : Over (· = s) handle q) (disk : Disk) (imposed : Option Snapshot)
    (r : Ref) (hnames : q.touchedNames (q.probe disk imposed r).1 ⊆ names) :
    Matches names q (q.probe disk imposed r).2 := by
  have hover := h
  induction h generalizing imposed r names with
  | @all frame category cursor =>
    have hyes := plainNames_subset hnames
    unfold Query.probe at hyes ⊢
    split
    · next hcategory =>
      rw [if_pos hcategory] at hyes
      cases hcontents : cursor.contents disk imposed with
      | error error => exact .refl names _
      | ok c =>
        rw [hcontents] at hyes
        exact .all (matches_answered r hyes)
    · exact .refl names _
  | fixed => exact .fixed (matches_answered r (plainNames_subset hnames))
  | @position scan _ =>
    have hyes := plainNames_subset hnames
    unfold Query.probe Scan.contains at hyes ⊢
    cases r with
    | node => exact .refl names _
    | quad key =>
      simp only at hyes ⊢
      split
      · next hfits =>
        rw [if_pos hfits] at hyes
        cases hcontents : scan.cursor.contents disk imposed with
        | error error => exact .refl names _
        | ok c =>
          rw [hcontents] at hyes
          exact .position (matches_answered (.quad key) hyes)
      · exact .refl names _
  | @links frame pageSize direction primary inner snapshot hs hprimary hinner ih =>
    unfold Query.probe at hnames ⊢
    cases hkey : r.asQuad? with
    | none => exact .refl names _
    | some key =>
      cases hsnapshot : imposed.or snapshot with
      | some s' =>
        simp only [hkey, hsnapshot] at hnames ⊢
        split
        · next hlive =>
          rw [if_pos hlive] at hnames
          obtain ⟨hframe, hbelow⟩ := touchedNames_links hnames
          exact .links (matches_answered r hframe) (ih imposed _ hbelow hprimary)
        · exact .refl names _
      | none =>
        -- The tree holds no snapshot, and lets go of the one that it takes.
        obtain rfl : s = none := hs.symm.trans (Option.or_eq_none_iff.1 hsnapshot).2
        cases htake : disk.take handle with
        | error error =>
          simp only
          exact .refl names _
        | ok s' =>
          simp only [hkey, hsnapshot, htake] at hnames ⊢
          split
          · next hlive =>
            rw [if_pos hlive] at hnames
            obtain ⟨hframe, hbelow⟩ := touchedNames_links hnames
            have hasked := ih (some s') _ hbelow hprimary
            exact (Matches.links (matches_answered r hframe) hasked).release hover
          · exact (Matches.refl names _).release hover
  | @inter frame children driver snapshot hchildren hs ih =>
    have hall (imposed : Option Snapshot) := probeAll_touches names fun q hq names hnames =>
      ih q hq imposed r hnames (hchildren q hq)
    unfold Query.probe at hnames ⊢
    split
    · exact .refl names _
    · next hne =>
      rw [if_neg hne] at hnames
      split
      · next hseen =>
        rw [if_pos hseen] at hnames
        obtain ⟨hframe, hbelow⟩ := touchedNames_inter hnames
        exact .inter (matches_answered r hframe) (hall imposed hbelow) fun _ => rfl
      · next hunseen =>
        rw [if_neg hunseen] at hnames
        have hnone : Over (· = none) handle (.inter frame children driver snapshot) := by
          rw [Option.not_isSome_iff_eq_none, Option.or_eq_none_iff] at hunseen
          cases hfirst : firstHandle? children with
          | none => exact over_of_handle?_eq_none hfirst
          | some _ =>
            obtain rfl : s = none := (hs (by rw [hfirst]; nofun)).symm.trans hunseen.2
            exact hover
        cases htaken : (firstHandle? children).mapM disk.take with
        | error error => exact .refl names _
        | ok taken =>
          simp only [htaken] at hnames ⊢
          obtain ⟨hframe, hbelow⟩ := touchedNames_inter hnames
          exact (Matches.inter (matches_answered r hframe) (hall taken hbelow) fun _ => rfl).release hnone

end GraphStore.Query
