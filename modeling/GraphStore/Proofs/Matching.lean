import GraphStore.Proofs.Exhaustion
import GraphStore.Proofs.Joining

/-!
# Trees that match

Two trees match but for some names if they differ at most in the results of parts that bind none but
these names.

* `Query.Matches` : the relation, an equivalence, with one case per form of a tree;
* `Query.Matches.size`, `Query.Matches.supply`, `Query.Matches.turns` : matching trees have the same sizes
  and bounds;
* `Query.Matches.bindSame` : they bind all other names in the same way;
* `Query.Matches.current`, `Query.Matches.spent` : once both have a result, or none on the way to the next
  one, they match but for fewer names.
-/

namespace GraphStore

section Lists

variable {α : Type} {R : α → α → Prop} {l l' : List α}

theorem forall₂_imp_mem {S : α → α → Prop} (h : List.Forall₂ R l l')
    (himp : ∀ a ∈ l, ∀ a' ∈ l', R a a' → S a a') : List.Forall₂ S l l' := by
  induction h with
  | nil => exact .nil
  | cons hhead _ ih =>
    refine .cons (himp _ List.mem_cons_self _ List.mem_cons_self hhead) (ih fun a ha a' ha' => ?_)
    exact himp a (List.mem_cons_of_mem _ ha) a' (List.mem_cons_of_mem _ ha')

theorem forall₂_getElem? (h : List.Forall₂ R l l') (i : Nat) : Option.Rel R l[i]? l'[i]? := by
  induction h generalizing i with
  | nil => exact .none
  | cons hhead _ ih =>
    cases i with
    | zero => exact .some hhead
    | succ i => exact ih i

end Lists

variable {names names' : List String} {r : Ref} {name : String}

/-! ## Frames -/

structure Frame.Matches (names : List String) (frame frame' : Frame) : Prop where
  tags : frame'.tags = frame.tags
  phase : frame'.phase = frame.phase
  result : frame'.result = frame.result ∨ frame.tags.plain ⊆ names

namespace Frame.Matches

variable {frame frame' : Frame}

theorem refl (names : List String) (frame : Frame) : frame.Matches names frame := ⟨rfl, rfl, .inl rfl⟩

theorem symm (h : frame.Matches names frame') : frame'.Matches names frame := by
  refine ⟨h.tags.symm, h.phase.symm, ?_⟩
  rw [h.tags]
  exact h.result.imp Eq.symm id

theorem trans {frame'' : Frame} (h : frame.Matches names frame') (h' : frame'.Matches names frame'') :
    frame.Matches names frame'' := by
  refine ⟨h'.tags.trans h.tags, h'.phase.trans h.phase, ?_⟩
  rcases h.result with hresult | hplain
  · exact h'.result.imp (·.trans hresult) fun hplain => h.tags ▸ hplain
  · exact .inr hplain

theorem isExhausted (h : frame.Matches names frame') : frame'.isExhausted = frame.isExhausted := by
  unfold Frame.isExhausted
  rw [h.phase]

theorem advance (h : frame.Matches names frame') (r : Ref) :
    (frame.advance r).Matches names (frame'.advance r) := ⟨h.tags, rfl, .inl rfl⟩

theorem exhaust (h : frame.Matches names frame') : frame.exhaust.Matches names frame'.exhaust :=
  ⟨h.tags, rfl, .inl rfl⟩

theorem after (h : frame.Matches names frame') (outcome : Outcome) :
    (frame.after outcome).Matches names (frame'.after outcome) := by
  rcases outcome with error | _ | r
  · exact h
  · exact h.exhaust
  · exact h.advance r

theorem answer (h : frame.Matches names frame') (r : Ref) (found : Bool) :
    (frame.answer r found).Matches names (frame'.answer r found) := by
  cases found with
  | false => exact h
  | true => exact ⟨h.tags, h.phase, .inl rfl⟩

theorem answered (h : frame.Matches names frame') (r : Ref) {answer answer' : Except StoreError Bool}
    (hanswer : answer' = answer) :
    (Query.answered frame r answer).Matches names (Query.answered frame' r answer') := by
  subst hanswer
  cases answer' with
  | error => exact h
  | ok found => exact h.answer r found

theorem reset_eq (h : frame.Matches names frame') : frame'.reset = frame.reset := by
  unfold Frame.reset
  rw [h.tags]

/-- Frames that have the same result or bind none but some names match but for these. -/
theorem inter (h : frame.Matches names frame')
    (hnames : frame'.result = frame.result ∨ frame.tags.plain ⊆ names') :
    frame.Matches (names ∩ names') frame' := by
  refine ⟨h.tags, h.phase, ?_⟩
  rcases h.result with hresult | hplain
  · exact .inl hresult
  · refine hnames.imp id fun hplain' name hname => ?_
    exact List.mem_inter_iff.2 ⟨hplain hname, hplain' hname⟩

theorem get?_bind (h : frame.Matches names frame') (hname : name ∉ names) {b b' : Bindings}
    (hb : b'.get? name = b.get? name) : (frame'.bind b').get? name = (frame.bind b).get? name := by
  rcases h.result with hresult | hplain
  · cases hcase : frame.result with
    | none =>
      rw [Query.get?_bind_constants (.inl (hresult.trans hcase)) hb,
        Query.get?_bind_constants (.inl hcase) rfl,
        h.tags]
    | some r =>
      rw [Query.bindsAsRow_frame (.inl (hresult.trans hcase)) hb,
        Query.bindsAsRow_frame (.inl hcase) rfl, h.tags]
  · have hfree : name ∉ frame.tags.plain := fun hmem => hname (hplain hmem)
    rw [Query.get?_bind_constants (.inr (h.tags ▸ hfree)) hb,
      Query.get?_bind_constants (.inr hfree) rfl, h.tags]

end Frame.Matches

namespace Query

variable {disk : Disk} {q q' : Query} {qs qs' : List Query} {imposed : Option Snapshot}

/-! ## Trees -/

/-- The trees are the same, but for the results of parts that bind none but the given names. An
intersection of listed values only may keep any snapshot. -/
inductive Matches (names : List String) : Query → Query → Prop
  | all {frame frame' category cursor} : frame.Matches names frame' →
      Matches names (.all frame category cursor) (.all frame' category cursor)
  | fixed {frame frame' values index} : frame.Matches names frame' →
      Matches names (.fixed frame values index) (.fixed frame' values index)
  | position {frame frame' index bound cursor} : frame.Matches names frame' →
      Matches names (.position ⟨frame, index, bound, cursor⟩) (.position ⟨frame', index, bound, cursor⟩)
  | links {frame frame' handle pageSize direction primary primary' inner snapshot} :
      frame.Matches names frame' → Matches names primary primary' →
        Matches names (.links frame handle pageSize direction primary inner snapshot)
          (.links frame' handle pageSize direction primary' inner snapshot)
  | inter {frame frame' children children' driver snapshot snapshot'} :
      frame.Matches names frame' → List.Forall₂ (Matches names) children children' →
        (firstHandle? children ≠ none → snapshot' = snapshot) →
          Matches names (.inter frame children driver snapshot) (.inter frame' children' driver snapshot')

/-- Induction over matching trees, with a hypothesis for every two children. -/
theorem Matches.induct {motive : ∀ q q', Matches names q q' → Prop}
    (all : ∀ {frame frame' category cursor} (h : frame.Matches names frame'),
      motive (.all frame category cursor) (.all frame' category cursor) (.all h))
    (fixed : ∀ {frame frame' values index} (h : frame.Matches names frame'),
      motive (.fixed frame values index) (.fixed frame' values index) (.fixed h))
    (position : ∀ {frame frame' index bound cursor} (h : frame.Matches names frame'),
      motive (.position ⟨frame, index, bound, cursor⟩) (.position ⟨frame', index, bound, cursor⟩)
        (.position h))
    (links : ∀ {frame frame' handle pageSize direction primary primary' inner snapshot}
      (h : frame.Matches names frame') (hprimary : Matches names primary primary'),
      motive primary primary' hprimary →
        motive (.links frame handle pageSize direction primary inner snapshot)
          (.links frame' handle pageSize direction primary' inner snapshot) (.links h hprimary))
    (inter : ∀ {frame frame' children children' driver snapshot snapshot'}
      (h : frame.Matches names frame') (hchildren : List.Forall₂ (Matches names) children children')
      (hsnapshot : firstHandle? children ≠ none → snapshot' = snapshot),
      List.Forall₂ (fun q q' => ∃ h, motive q q' h) children children' →
        motive (.inter frame children driver snapshot) (.inter frame' children' driver snapshot')
          (.inter h hchildren hsnapshot))
    {q q' : Query} (h : Matches names q q') : motive q q' h := by
  induction q using Query.induct generalizing q' with
  | all =>
    cases h with
    | all h => exact all h
  | fixed =>
    cases h with
    | fixed h => exact fixed h
  | position =>
    cases h with
    | position h => exact position h
  | links frame handle pageSize direction primary inner snapshot ih =>
    cases h with
    | links h hprimary => exact links h hprimary (ih hprimary)
  | inter frame children driver snapshot ih =>
    cases h with
    | inter h hchildren hsnapshot =>
      refine inter h hchildren hsnapshot ?_
      exact forall₂_imp_mem hchildren fun q hq _ _ h => ⟨h, ih q hq h⟩

theorem Matches.refl (names : List String) (q : Query) : Matches names q q := by
  induction q using Query.induct with
  | all => exact .all (.refl _ _)
  | fixed => exact .fixed (.refl _ _)
  | position => exact .position (.refl _ _)
  | links _ _ _ _ _ _ _ ih => exact .links (.refl _ _) ih
  | inter _ _ _ _ ih => exact .inter (.refl _ _) (List.forall₂_same.2 ih) fun _ => rfl

theorem Matches.frame (h : Matches names q q') : q.frame.Matches names q'.frame := by
  cases h with
  | all h | fixed h | position h | links h _ | inter h _ _ => exact h

theorem Matches.handle? (h : Matches names q q') : q'.handle? = q.handle? := by
  induction h using Matches.induct with
  | all | fixed | position | links => rfl
  | inter _ _ _ ih =>
    unfold Query.handle?
    rw [firstHandle?_eq, firstHandle?_eq, map_eq_of_forall₂ (ih.imp fun _ _ h => h.2)]

theorem firstHandle?_matches (h : List.Forall₂ (Matches names) qs qs') :
    firstHandle? qs' = firstHandle? qs := by
  rw [firstHandle?_eq, firstHandle?_eq, map_eq_of_forall₂ (h.imp fun _ _ h => h.handle?)]

theorem Matches.symm (h : Matches names q q') : Matches names q' q := by
  induction h using Matches.induct with
  | all h => exact .all h.symm
  | fixed h => exact .fixed h.symm
  | position h => exact .position h.symm
  | links h _ ih => exact .links h.symm ih
  | inter h hchildren hsnapshot ih =>
    refine .inter h.symm (ih.flip.imp fun _ _ h => h.2) fun hne => (hsnapshot ?_).symm
    rwa [← firstHandle?_matches hchildren]

theorem Matches.trans {q'' : Query} (h : Matches names q q') (h' : Matches names q' q'') :
    Matches names q q'' := by
  induction h using Matches.induct generalizing q'' with
  | all h =>
    cases h' with
    | all h' => exact .all (h.trans h')
  | fixed h =>
    cases h' with
    | fixed h' => exact .fixed (h.trans h')
  | position h =>
    cases h' with
    | position h' => exact .position (h.trans h')
  | links h _ ih =>
    cases h' with
    | links h' hprimary' => exact .links (h.trans h') (ih hprimary')
  | inter h hchildren hsnapshot ih =>
    cases h' with
    | inter h' hchildren' hsnapshot' =>
      refine .inter (h.trans h') ?_ fun hne => (hsnapshot' ?_).trans (hsnapshot hne)
      · exact forall₂_comp (ih.imp fun _ q' h _ (h' : Matches names q' _) => h.2 h') hchildren'
      · rwa [firstHandle?_matches hchildren]

theorem Matches.setSnapshot (h : Matches names q q') (snapshot : Option Snapshot) :
    Matches names (q.setSnapshot snapshot) (q'.setSnapshot snapshot) := by
  induction h using Matches.induct with
  | all h => exact .all h
  | fixed h => exact .fixed h
  | position h => exact .position h
  | links h _ ih => exact .links h ih
  | inter h _ _ ih =>
    unfold Query.setSnapshot
    rw [setSnapshotAll_eq, setSnapshotAll_eq]
    refine .inter h ?_ fun _ => rfl
    rw [List.forall₂_map_left_iff, List.forall₂_map_right_iff]
    exact ih.imp fun _ _ h => h.2

theorem setSnapshotAll_matches (h : List.Forall₂ (Matches names) qs qs') (snapshot : Option Snapshot) :
    List.Forall₂ (Matches names) (setSnapshotAll snapshot qs) (setSnapshotAll snapshot qs') := by
  rw [setSnapshotAll_eq, setSnapshotAll_eq, List.forall₂_map_left_iff, List.forall₂_map_right_iff]
  exact h.imp fun _ _ h => h.setSnapshot snapshot

theorem Matches.reset_eq (h : Matches names q q') : q'.reset = q.reset := by
  induction h using Matches.induct with
  | all h | fixed h =>
    unfold reset
    rw [h.reset_eq]
  | position h =>
    unfold reset Scan.reset
    simp only [h.reset_eq]
  | links h _ ih =>
    unfold reset
    rw [h.reset_eq, ih]
  | inter h _ _ ih =>
    unfold reset
    rw [h.reset_eq, resetAll_eq, resetAll_eq, map_eq_of_forall₂ (ih.imp fun _ _ h => h.2)]

/-! ### Sizes and bounds -/

theorem sizes_congr (h : List.Forall₂ (fun q q' => q'.size disk = q.size disk) qs qs') :
    sizes disk qs' = sizes disk qs := by
  induction h with
  | nil => rfl
  | cons hhead _ ih =>
    unfold sizes
    rw [hhead, ih]

theorem Matches.size (h : Matches names q q') (disk : Disk) : q'.size disk = q.size disk := by
  induction h using Matches.induct with
  | all | fixed | position => rfl
  | links _ hprimary ih =>
    cases hprimary with
    | fixed => rfl
    | all | position | links | inter =>
      unfold Query.size
      rw [ih]
  | inter _ _ _ ih =>
    unfold Query.size
    rw [sizes_congr (ih.imp fun _ _ h => h.2)]

theorem chooseDriver_matches (h : List.Forall₂ (Matches names) qs qs') (disk : Disk) :
    chooseDriver disk qs' = chooseDriver disk qs := by
  unfold chooseDriver
  rw [sizes_congr (h.imp fun _ _ h => h.size disk)]

/-- Which snapshot an intersection of listed values only keeps does not matter to its children. -/
theorem imposedBelow_matches {snapshot snapshot' : Option Snapshot}
    (h : List.Forall₂ (Matches names) qs qs') (hs : firstHandle? qs ≠ none → snapshot' = snapshot)
    (disk : Disk) (imposed : Option Snapshot) :
    imposedBelow disk imposed snapshot' (firstHandle? qs') =
      imposedBelow disk imposed snapshot (firstHandle? qs) := by
  rw [firstHandle?_matches h]
  cases hfirst : firstHandle? qs with
  | none =>
    unfold imposedBelow
    cases imposed.or snapshot' <;> cases imposed.or snapshot <;> rfl
  | some handle => rw [hs (by rw [hfirst]; exact Option.some_ne_none _)]

theorem Matches.supply (h : Matches names q q') (disk : Disk) (imposed : Option Snapshot) :
    q'.supply disk imposed = q.supply disk imposed := by
  induction h using Matches.induct generalizing imposed with
  | all | fixed | position => rfl
  | links _ _ ih =>
    unfold Query.supply
    simp only [ih]
  | inter _ hchildren hsnapshot ih =>
    unfold Query.supply
    rw [imposedBelow_matches hchildren hsnapshot, supplyAll_eq, supplyAll_eq,
      map_eq_of_forall₂ (ih.imp fun _ _ h => h.2 _)]

theorem Matches.turns (h : Matches names q q') (disk : Disk) (imposed : Option Snapshot) :
    q'.turns disk imposed = q.turns disk imposed := by
  induction h using Matches.induct generalizing imposed with
  | all | fixed | position => rfl
  | links _ hprimary ih =>
    unfold Query.turns
    simp only [ih, hprimary.supply]
  | inter _ hchildren hsnapshot ih =>
    unfold Query.turns
    simp only [imposedBelow_matches hchildren hsnapshot, supplyAll_eq, turnsAll_eq]
    rw [map_eq_of_forall₂ (ih.imp fun _ _ h => h.2 _),
      map_eq_of_forall₂ (hchildren.imp fun _ _ h => h.supply disk _)]

/-! ### Bindings -/

def BindSame (name : String) (q q' : Query) : Prop :=
  ∀ b b' : Bindings, b'.get? name = b.get? name → (q'.bind b').get? name = (q.bind b).get? name

theorem bindSame_all (h : List.Forall₂ (BindSame name) qs qs') {b b' : Bindings}
    (hb : b'.get? name = b.get? name) :
    (bindAll qs' b').get? name = (bindAll qs b).get? name := by
  induction h generalizing b b' with
  | nil => exact hb
  | cons hhead _ ih => exact ih (hhead _ _ hb)

theorem Matches.bindSame (h : Matches names q q') (hname : name ∉ names) : BindSame name q q' := by
  induction h using Matches.induct with
  | all h | fixed h | position h => exact fun b b' hb => h.get?_bind hname hb
  | links h _ ih => exact fun b b' hb => ih _ _ (h.get?_bind hname hb)
  | inter h _ _ ih =>
    exact fun b b' hb => bindSame_all (ih.imp fun _ _ h => h.2) (h.get?_bind hname hb)

/-! ### Other names -/

/-- Matching trees are so but for names that their parts bind. -/
theorem Matches.inter_plain (h : Matches names q q') (hnames : q.plainNames ⊆ names') :
    Matches (names ∩ names') q q' := by
  induction h using Matches.induct with
  | all h => exact .all (h.inter (.inr hnames))
  | fixed h => exact .fixed (h.inter (.inr hnames))
  | position h => exact .position (h.inter (.inr hnames))
  | links h _ ih =>
    unfold plainNames at hnames
    rw [List.append_subset] at hnames
    exact .links (h.inter (.inr hnames.1)) (ih hnames.2)
  | inter h _ hsnapshot ih =>
    unfold plainNames at hnames
    rw [List.append_subset, plainNamesAll_eq] at hnames
    refine .inter (h.inter (.inr hnames.1)) (forall₂_imp_mem ih fun q hq _ _ h => h.2 ?_) hsnapshot
    exact fun name hname => hnames.2 (List.mem_flatMap.2 ⟨q, hq, hname⟩)

/-- Once both have a result, matching trees differ below links only. -/
theorem Matches.current (h : Matches names q q') (hq : Current r q) (hq' : Current r q')
    (hnames : q.linkedNames ⊆ names') : Matches (names ∩ names') q q' := by
  have hresult {frame frame' : Frame} (hframe : frame.result = some r)
      (hframe' : frame'.result = some r) : frame'.result = frame.result := hframe'.trans hframe.symm
  induction h using Matches.induct with
  | all h =>
    cases hq with
    | all hq =>
    cases hq' with
    | all hq' => exact .all (h.inter (.inl (hresult hq hq')))
  | fixed h =>
    cases hq with
    | fixed hq =>
    cases hq' with
    | fixed hq' => exact .fixed (h.inter (.inl (hresult hq hq')))
  | position h =>
    cases hq with
    | position hq =>
    cases hq' with
    | position hq' => exact .position (h.inter (.inl (hresult hq hq')))
  | links h hprimary _ =>
    cases hq with
    | links hq =>
    cases hq' with
    | links hq' => exact .links (h.inter (.inl (hresult hq hq'))) (hprimary.inter_plain hnames)
  | inter h _ hsnapshot ih =>
    unfold linkedNames at hnames
    rw [linkedNamesAll_eq] at hnames
    cases hq with
    | inter hq hqs =>
    cases hq' with
    | inter hq' hqs' =>
      refine .inter (h.inter (.inl (hresult hq hq'))) ?_ hsnapshot
      refine forall₂_imp_mem ih fun q hmem q' hmem' h => h.2 (hqs q hmem) (hqs' q' hmem') ?_
      exact fun name hname => hnames (List.mem_flatMap.2 ⟨q, hmem, hname⟩)

theorem leftNames_child {driver : Option Nat} {qs : List Query} {i : Nat} (hq : qs[i]? = some q) :
    (if driver.getD i = i then q.leftNames else q.plainNames) ⊆ leftNamesFrom driver 0 qs := by
  intro name hname
  by_contra hnot
  have hchild := not_mem_leftNamesFrom hnot hq
  rw [Nat.zero_add] at hchild
  exact hchild hname

/-- Where neither has a result on the way to the next one, matching trees differ off that way only. -/
theorem Matches.spent (h : Matches names q q') (hq : q.Spent) (hq' : q'.Spent)
    (hnames : q.leftNames ⊆ names') : Matches (names ∩ names') q q' := by
  have hresult {frame frame' : Frame} (hframe : frame.result = none) (hframe' : frame'.result = none) :
      frame'.result = frame.result := hframe'.trans hframe.symm
  induction h using Matches.induct with
  | all h => exact .all (h.inter (.inl (hresult hq.frame hq'.frame)))
  | fixed h => exact .fixed (h.inter (.inl (hresult hq.frame hq'.frame)))
  | position h => exact .position (h.inter (.inl (hresult hq.frame hq'.frame)))
  | links h _ ih =>
    cases hq with
    | links hq hprimary =>
    cases hq' with
    | links hq' hprimary' =>
      exact .links (h.inter (.inl (hresult hq hq'))) (ih hprimary hprimary' hnames)
  | @inter frame frame' children children' driver _ _ h hchildren hsnapshot ih =>
    cases hq with
    | inter hq hqs =>
    cases hq' with
    | inter hq' hqs' =>
      refine .inter (h.inter (.inl (hresult hq hq'))) ?_ hsnapshot
      refine List.forall₂_iff_get.2 ⟨hchildren.length_eq, fun i hi hi' => ?_⟩
      have hget : children[i]? = some children[i] := List.getElem?_eq_getElem hi
      have hget' : children'[i]? = some children'[i] := List.getElem?_eq_getElem hi'
      have hleft : (if driver.getD i = i then children[i].leftNames else children[i].plainNames) ⊆
          names' := List.Subset.trans (leftNames_child hget) hnames
      obtain ⟨hmatches, hih⟩ := ih.get hi hi'
      split at hleft
      · next hdrives => exact hih (hqs i _ hget hdrives) (hqs' i _ hget' hdrives) hleft
      · exact Matches.inter_plain hmatches hleft

end Query

end GraphStore
