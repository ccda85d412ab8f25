import GraphStore.Proofs.Bindings
import GraphStore.Proofs.Construction
import GraphStore.Proofs.History
import GraphStore.Query.Optimize

/-!
# Simplified queries

* `Query.assemble`, `Query.fuse?_eq_some` : what an intersection is simplified to;
* `Query.member_optimize` : a simplified tree means the same;
* `Query.Fresh.optimize` : it has not begun either;
* `Query.Fresh.agree` : trees of one meaning have the same results and answers;
* `Query.written_optimize` : the names that are bound for a result have moved, and of several values
  for one name some may be overridden;
* `Store.Reached.equivalent_optimize` : with distinct names both have the same results, answers and
  bindings.
-/

namespace GraphStore

namespace Query

variable {disk : Disk} {handle : Handle} {c : Contents} {q q' : Query} {r : Ref} {name : String}
  {frame : Frame} {tags : Tags} {children kept : List Query} {driver : Option Nat}
  {snapshot : Option Snapshot}

/-! ## The parts of a simplification -/

theorem optimizeAll_eq (qs : List Query) :
    (optimizeAll qs).1 = qs.map fun q => q.optimize.1 := by
  induction qs with
  | nil => rfl
  | cons q rest ih =>
    rw [List.map_cons, ← ih]
    rfl

/-- The intersection of the children, or the only one with the names of both. -/
def assemble (tags : Tags) : List Query → Query
  | [only] => only.mapTags (·.merge tags)
  | kept => .inter { tags } kept none none

theorem simplifyInter_eq (frame : Frame) (children : List Query) (changed : Bool) :
    (simplifyInter frame children changed).1 =
      assemble (dropRedundant frame.tags children).1
        ((fuse? (dropRedundant frame.tags children).2).getD
          (dropRedundant frame.tags children).2) := by
  rcases hdrop : dropRedundant frame.tags children with ⟨tags, kept⟩
  unfold simplifyInter
  rw [hdrop]
  simp only
  cases fuse? kept with
  | none => rcases kept with _ | ⟨only, _ | ⟨second, rest⟩⟩ <;> rfl
  | some fused => rcases fused with _ | ⟨only, _ | ⟨second, rest⟩⟩ <;> rfl

/-! ### Fused scans -/

theorem scanOf?_eq_some {direction : Direction} {scan : Scan} {id : NodeId}
    (h : q.scanOf? direction = some (scan, id)) :
    q = .position scan ∧ scan.bound = [(direction, id)] := by
  unfold scanOf? at h
  split at h
  · next scan' =>
    obtain ⟨id', hsingle, he⟩ := Option.map_eq_some_iff.1 h
    cases he
    unfold Scan.single? at hsingle
    split at hsingle
    · next d id' hbound =>
      split at hsingle
      · next hd =>
        cases hsingle
        exact ⟨rfl, hd ▸ hbound⟩
      · cases hsingle
    · cases hsingle
  · cases h

theorem scanOf?_ne {direction direction' : Direction} (hne : direction ≠ direction')
    (h : (q.scanOf? direction).isSome = true) : q.scanOf? direction' = none := by
  obtain ⟨⟨scan, id⟩, hscan⟩ := Option.isSome_iff_exists.1 h
  obtain ⟨rfl, hbound⟩ := scanOf?_eq_some hscan
  cases h' : scanOf? direction' (.position scan) with
  | none => rfl
  | some found =>
    obtain ⟨scan', id'⟩ := found
    obtain ⟨hposition, hbound'⟩ := scanOf?_eq_some h'
    cases hposition
    rw [hbound] at hbound'
    cases hbound'
    exact absurd rfl hne

theorem findSome?_perm {α β : Type} {f : α → Option β} {l : List α} {b : β}
    (h : l.findSome? f = some b) :
    ∃ a, f a = some b ∧ l.Perm (a :: l.eraseP fun a => (f a).isSome) := by
  induction l with
  | nil => cases h
  | cons a rest ih =>
    rw [List.findSome?_cons] at h
    cases hf : f a with
    | some b' =>
      rw [hf] at h
      cases h
      refine ⟨a, hf, ?_⟩
      rw [List.eraseP_cons_of_pos (by rw [hf]; rfl)]
    | none =>
      rw [hf] at h
      obtain ⟨a', ha', hperm⟩ := ih h
      refine ⟨a', ha', ?_⟩
      rw [List.eraseP_cons_of_neg (by rw [hf]; exact Bool.false_ne_true)]
      exact (hperm.cons a).trans (.swap _ _ _)

theorem findSome?_eraseP {α β γ : Type} {f : α → Option β} {g : α → Option γ}
    (h : ∀ a, (f a).isSome = true → g a = none) (l : List α) :
    (l.eraseP fun a => (f a).isSome).findSome? g = l.findSome? g := by
  induction l with
  | nil => rfl
  | cons a rest ih =>
    rw [List.eraseP_cons]
    cases ha : (f a).isSome with
    | true => rw [cond_true, List.findSome?_cons, h a ha]
    | false => rw [cond_false, List.findSome?_cons, List.findSome?_cons, ih]

def fused (s p : Scan) (subject predicate : NodeId) : Query :=
  .position { Scan.subjectPredicate s.cursor.handle s.cursor.pageSize subject predicate with
    frame := { tags := (({} : Tags).merge s.frame.tags).merge p.frame.tags } }

theorem fuse?_eq_some (h : fuse? children = some kept) : ∃ s p subject predicate rest,
    children.Perm (.position s :: .position p :: rest) ∧ s.bound = [(.subject, subject)] ∧
      p.bound = [(.predicate, predicate)] ∧ kept = rest ++ [fused s p subject predicate] := by
  unfold fuse? at h
  simp only [Option.bind_eq_bind, Option.bind_eq_some_iff, Prod.exists] at h
  obtain ⟨s, subject, hs, p, predicate, hp, hkept⟩ := h
  cases hkept
  have hne (q : Query) := scanOf?_ne (q := q) (show Direction.subject ≠ .predicate by decide)
  obtain ⟨a, ha, hperm⟩ := findSome?_perm hs
  rw [← findSome?_eraseP hne] at hp
  obtain ⟨a', ha', hperm'⟩ := findSome?_perm hp
  obtain ⟨rfl, hbound⟩ := scanOf?_eq_some ha
  obtain ⟨rfl, hbound'⟩ := scanOf?_eq_some ha'
  exact ⟨s, p, subject, predicate, _, hperm.trans (hperm'.cons _), hbound, hbound', rfl⟩

/-- What scans of two scans, renamed queries and intersections have if their parts do, a simplified
intersection has if its children do. -/
theorem simplifyInter_closed {motive : Query → Prop} {changed : Bool}
    (hfused : ∀ {s : Scan}, motive (.position s) → ∀ (p : Scan) (subject predicate : NodeId),
      motive (fused s p subject predicate))
    (hnamed : ∀ {q : Query} (change : Tags → Tags), motive q → motive (q.mapTags change))
    (hinter : ∀ {kept : List Query} (tags : Tags), (∀ q ∈ kept, motive q) →
      motive (.inter { tags } kept none none))
    (h : ∀ q ∈ children, motive q) : motive (simplifyInter frame children changed).1 := by
  have hassemble {kept : List Query} (tags : Tags) (hkept : ∀ q ∈ kept, motive q) :
      motive (assemble tags kept) := by
    rcases kept with _ | ⟨only, _ | ⟨second, rest⟩⟩
    · exact hinter tags hkept
    · exact hnamed (·.merge tags) (hkept only List.mem_cons_self)
    · exact hinter tags hkept
  have hkept : ∀ q ∈ (dropRedundant frame.tags children).2, motive q :=
    fun q hq => h q (List.mem_filter.1 hq).1
  rw [simplifyInter_eq]
  cases hfuse : fuse? (dropRedundant frame.tags children).2 with
  | none => exact hassemble _ hkept
  | some fusedKept =>
    obtain ⟨s, p, subject, predicate, rest, hperm, -, -, rfl⟩ := fuse?_eq_some hfuse
    refine hassemble _ fun q hq => ?_
    rcases List.mem_append.1 hq with hq | hq
    · exact hkept q (hperm.mem_iff.2 (List.mem_cons_of_mem _ (List.mem_cons_of_mem _ hq)))
    · rw [List.mem_singleton.1 hq]
      exact hfused (hkept _ (hperm.mem_iff.2 List.mem_cons_self)) p subject predicate

/-! ## Meaning -/

theorem exists_of_firstCategory {qs : List Query} {category : Category}
    (h : firstCategory qs = some category) : ∃ q ∈ qs, q.category = some category := by
  induction qs with
  | nil => cases h
  | cons q rest ih =>
    rw [firstCategory, Option.or_eq_some_iff] at h
    rcases h with hq | ⟨-, hrest⟩
    · exact ⟨q, List.mem_cons_self, hq⟩
    · obtain ⟨q', hq', hcategory⟩ := ih hrest
      exact ⟨q', List.mem_cons_of_mem _ hq', hcategory⟩

theorem anyYieldsLive_eq (qs : List Query) : anyYieldsLive qs = qs.any yieldsLive := by
  induction qs with
  | nil => rfl
  | cons q rest ih => rw [anyYieldsLive, ih, List.any_cons]

theorem category_of_member {category : Category} (h : q.category = some category)
    (hr : q.member c r = true) : r.category = category := by
  induction q using induct with
  | all frame category' cursor =>
    cases h
    unfold member at hr
    rw [Bool.and_eq_true, decide_eq_true_eq] at hr
    exact hr.1
  | fixed frame values index =>
    have hmem : r ∈ values := List.contains_iff_mem.1 hr
    cases values with
    | nil => cases hmem
    | cons first rest =>
      have hlist : (if rest.all (·.category == first.category) then some first.category
        else none) = some category := h
      split at hlist
      · next hall =>
        cases hlist
        rcases List.mem_cons.1 hmem with rfl | hrest
        · rfl
        · exact eq_of_beq (List.all_eq_true.1 hall r hrest)
      · cases hlist
  | position scan =>
    cases h
    cases r with
    | node id => cases hr
    | quad key => rfl
  | links =>
    cases h
    cases r with
    | node id => cases hr
    | quad key => rfl
  | inter frame children driver snapshot ih =>
    obtain ⟨q, hq, hcategory⟩ := exists_of_firstCategory h
    exact ih q hq hcategory ((member_inter_iff.1 hr).2 q hq)

theorem isLiveRef_of_member (h : q.yieldsLive = true) (hr : q.member c r = true) :
    c.isLiveRef r = true := by
  induction q using induct with
  | all frame category cursor =>
    unfold member at hr
    rw [Bool.and_eq_true] at hr
    exact hr.2
  | fixed => cases h
  | position scan =>
    cases r with
    | node id => cases hr
    | quad key =>
      have hkey : (scan.fits key && c.isLive key) = true := hr
      rw [Bool.and_eq_true] at hkey
      exact hkey.2
  | links frame handle pageSize direction primary =>
    cases r with
    | node id => cases hr
    | quad key =>
      have hkey : (c.isLive key && primary.member c (.node (key.get direction))) = true := hr
      rw [Bool.and_eq_true] at hkey
      exact hkey.1
  | inter frame children driver snapshot ih =>
    unfold yieldsLive at h
    rw [anyYieldsLive_eq, List.any_eq_true] at h
    obtain ⟨q, hq, hlive⟩ := h
    exact ih q hq hlive ((member_inter_iff.1 hr).2 q hq)

/-- A query that yields live results of one category has no others than a query of everything in it. -/
theorem member_all_of_member {category : Category} (hcategory : q.category = some category)
    (hlive : q.yieldsLive = true) (hr : q.member c r = true) (frame : Frame) (cursor : Cursor) :
    member c (.all frame category cursor) r = true := by
  unfold member
  rw [category_of_member hcategory hr, isLiveRef_of_member hlive hr, decide_eq_true rfl]
  rfl

theorem mem_constrained {category : Category} : category ∈ constrained children ↔
    ∃ p ∈ children, p.allCategory? = none ∧ p.yieldsLive = true ∧ p.category = some category := by
  unfold constrained
  simp only [List.mem_filterMap, List.mem_filter, Bool.and_eq_true, Option.isNone_iff_eq_none,
    and_assoc]

theorem allCategory?_eq_some {category : Category} (h : q.allCategory? = some category) :
    ∃ frame cursor, q = .all frame category cursor := by
  cases q with
  | all frame category' cursor =>
    cases h
    exact ⟨frame, cursor, rfl⟩
  | fixed | position | links | inter => cases h

/-- A query of everything is redundant if another child, which stays, restricts its category to
live results. -/
theorem redundant_cases (tags : Tags) (h : isRedundant (constrained children) q = true) :
    ∃ frame category cursor, q = .all frame category cursor ∧
      ∃ p ∈ (dropRedundant tags children).2, p.yieldsLive = true ∧
        p.category = some category := by
  obtain ⟨category, hall, hmem⟩ := (Option.any_eq_true _ _).1 h
  obtain ⟨frame, cursor, rfl⟩ := allCategory?_eq_some hall
  obtain ⟨p, hp, hnone, hlive, hcategory⟩ := mem_constrained.1 (List.contains_iff_mem.1 hmem)
  refine ⟨frame, category, cursor, rfl, p, List.mem_filter.2 ⟨hp, ?_⟩, hlive, hcategory⟩
  unfold isRedundant
  rw [hnone]
  rfl

/-- Without its redundant children an intersection has the same results. -/
theorem common_dropRedundant (tags : Tags) (children : List Query) :
    Common c (dropRedundant tags children).2 r ↔ Common c children r := by
  have hkept {q : Query} : q ∈ (dropRedundant tags children).2 ↔
      q ∈ children ∧ isRedundant (constrained children) q = false := by
    unfold dropRedundant
    rw [List.mem_filter, Bool.not_eq_true']
  constructor
  · rintro ⟨hne, hall⟩
    obtain ⟨q₀, hq₀⟩ := List.exists_mem_of_ne_nil _ hne
    refine ⟨List.ne_nil_of_mem (hkept.1 hq₀).1, fun q hq => ?_⟩
    cases hredundant : isRedundant (constrained children) q with
    | false => exact hall q (hkept.2 ⟨hq, hredundant⟩)
    | true =>
      obtain ⟨frame, category, cursor, rfl, p, hp, hlive, hcategory⟩ :=
        redundant_cases tags hredundant
      exact member_all_of_member hcategory hlive (hall p hp) frame cursor
  · rintro ⟨hne, hall⟩
    refine ⟨?_, fun q hq => hall q (hkept.1 hq).1⟩
    obtain ⟨q, hq⟩ := List.exists_mem_of_ne_nil _ hne
    cases hredundant : isRedundant (constrained children) q with
    | false => exact List.ne_nil_of_mem (hkept.2 ⟨hq, hredundant⟩)
    | true =>
      obtain ⟨-, -, -, -, p, hp, -⟩ := redundant_cases tags hredundant
      exact List.ne_nil_of_mem hp

theorem member_fused {s p : Scan} {subject predicate : NodeId}
    (hs : s.bound = [(.subject, subject)]) (hp : p.bound = [(.predicate, predicate)]) :
    (fused s p subject predicate).member c r = true ↔
      member c (.position s) r = true ∧ member c (.position p) r = true := by
  cases r with
  | node id => exact ⟨nofun, fun h => nomatch h.1⟩
  | quad key =>
    unfold fused member
    simp only [Ref.asQuad?, Option.any_some, Scan.fits, hs, hp, Scan.subjectPredicate, Scan.start]
    simp only [List.all_cons, List.all_nil, Bool.and_eq_true, Bool.and_true]
    tauto

/-- With two of its scans fused an intersection has the same results. -/
theorem common_fuse (h : fuse? children = some kept) : Common c kept r ↔ Common c children r := by
  obtain ⟨s, p, subject, predicate, rest, hperm, hs, hp, rfl⟩ := fuse?_eq_some h
  have hne : children ≠ [] := fun h => by
    rw [h] at hperm
    exact absurd hperm.nil_eq nofun
  simp only [Common, hperm.mem_iff, List.mem_append, List.mem_cons, List.not_mem_nil, or_false, or_imp,
    forall_and, forall_eq, member_fused hs hp]
  constructor
  · rintro ⟨-, hrest, hs, hp⟩
    exact ⟨hne, hs, hp, hrest⟩
  · rintro ⟨-, hs, hp, hrest⟩
    exact ⟨by simp, hrest, hs, hp⟩

theorem member_mapTags (change : Tags → Tags) (q : Query) :
    (q.mapTags change).member c r = q.member c r := by
  cases q <;> rfl

theorem member_assemble (tags : Tags) (kept : List Query) :
    (assemble tags kept).member c r = true ↔ Common c kept r := by
  rcases kept with _ | ⟨only, _ | ⟨second, rest⟩⟩
  · exact member_inter_iff
  · unfold assemble Common
    rw [member_mapTags, List.forall_mem_singleton]
    exact ⟨fun h => ⟨nofun, h⟩, And.right⟩
  · exact member_inter_iff

theorem member_foldLinks {pageSize : Nat} {direction : Direction} {primary : Query}
    {inner : Option Scan} {snapshot : Option Snapshot}
    (h : foldLinks? frame handle pageSize direction primary = some q) :
    q.member c r = member c (.links frame handle pageSize direction primary inner snapshot) r := by
  unfold foldLinks? at h
  split at h
  · cases h
    cases r with
    | node id => rfl
    | quad key => simp [member, Ref.asQuad?]
  · next listed id index =>
    cases h
    cases r with
    | node id => rfl
    | quad key =>
      simp [member, Ref.asQuad?, Scan.fits, Scan.ofDirection, Scan.start, beq_eq_decide,
        Bool.and_comm]
  · cases h

/-- A simplified tree means the same. -/
theorem member_optimize (c : Contents) (q : Query) :
    q.optimize.1.member c r = q.member c r := by
  induction q using induct generalizing r with
  | all | fixed | position => rfl
  | links frame handle pageSize direction primary inner snapshot ih =>
    unfold optimize
    split
    · next q' hfold => exact member_foldLinks hfold
    · unfold member
      simp only [ih]
  | inter frame children driver snapshot ih =>
    have hmap : member c (.inter frame (children.map fun q => q.optimize.1) driver snapshot) r =
        member c (.inter frame children driver snapshot) r :=
      member_inter_map fun q hq => ih q hq
    unfold optimize
    simp only
    rw [simplifyInter_eq, ← hmap, Bool.eq_iff_iff, member_assemble, member_inter_iff,
      optimizeAll_eq]
    refine Iff.trans ?_ (common_dropRedundant frame.tags _)
    cases hfuse : fuse? (dropRedundant frame.tags (children.map fun q => q.optimize.1)).2 with
    | none => rfl
    | some kept => exact common_fuse hfuse

/-! ## Progress -/

theorem Fresh.child (h : Fresh handle (.inter frame children driver snapshot)) :
    ∀ q ∈ children, Fresh handle q := by
  obtain ⟨hstart, hwf, hover⟩ := h
  cases hstart with
  | inter _ hstarts =>
  cases hwf with
  | inter hwfs _ =>
  cases hover with
  | inter hovers _ => exact fun q hq => ⟨hstarts q hq, hwfs q hq, hovers q hq⟩

theorem Fresh.primary {pageSize : Nat} {direction : Direction} {primary : Query}
    {inner : Option Scan} {h : Handle}
    (hq : Fresh handle (.links frame h pageSize direction primary inner snapshot)) :
    h = handle ∧ frame.phase = .unstarted ∧ Fresh handle primary := by
  obtain ⟨hstart, hwf, hover⟩ := hq
  cases hstart with
  | links hphase hprimary =>
  cases hwf with
  | links hprimaryWf _ =>
  cases hover with
  | links _ hprimaryOver _ => exact ⟨rfl, hphase, hprimary, hprimaryWf, hprimaryOver⟩

theorem fresh_foldLinks {pageSize : Nat} {direction : Direction} {primary : Query}
    (h : foldLinks? frame handle pageSize direction primary = some q) : Fresh handle q := by
  unfold foldLinks? at h
  split at h
  · cases h
    exact ⟨.fixed rfl, .fixed List.nodup_nil, .fixed⟩
  · cases h
    refine ⟨.position rfl (start_atStart _ _ _), .position ?_, .position ⟨rfl, rfl⟩⟩
    exact ⟨(Scan.ofDirection_wellFormed handle pageSize direction _).directions, rfl⟩
  · cases h

theorem Fresh.fused {s : Scan} (h : Fresh handle (.position s)) (p : Scan)
    (subject predicate : NodeId) : Fresh handle (fused s p subject predicate) := by
  cases h.idle with
  | position hcursor =>
    exact ⟨.position rfl (start_atStart _ _ _), .position ⟨rfl, rfl⟩,
      .position ⟨hcursor.handle_eq, rfl⟩⟩

theorem Fresh.optimize (h : Fresh handle q) : Fresh handle q.optimize.1 := by
  induction q using induct with
  | all | fixed | position => exact h
  | links frame handle' pageSize direction primary inner snapshot ih =>
    obtain ⟨rfl, hphase, hprimary⟩ := h.primary
    unfold Query.optimize
    split
    · next q' hfold => exact fresh_foldLinks hfold
    · obtain ⟨hstart, hwf, hover⟩ := ih hprimary
      exact ⟨.links rfl hstart, .links hwf (by rintro _ ⟨⟩), .links rfl hover (by rintro _ ⟨⟩)⟩
  | inter frame children driver snapshot ih =>
    have hchildren : ∀ q ∈ children.map fun q => q.optimize.1, Fresh handle q := by
      intro q hq
      obtain ⟨q', hq', rfl⟩ := List.mem_map.1 hq
      exact ih q' hq' (h.child q' hq')
    unfold Query.optimize
    simp only
    rw [optimizeAll_eq]
    exact simplifyInter_closed (fun hs => hs.fused) (fun _ hq => hq.mapTags _)
      (fun _ hkept => .inter rfl (by rintro _ ⟨⟩) hkept) hchildren

/-! ## Names -/

theorem condensed_foldl_merge (tags : Tags) (qs : List Query) :
    Condensed ((tags.value name r).toList ++ qs.flatMap fun q => (q.tags.value name r).toList)
      ((qs.foldl (fun tags q => tags.merge q.tags) tags).value name r).toList := by
  induction qs generalizing tags with
  | nil => exact .of_perm (by rw [List.flatMap_nil, List.append_nil]; rfl)
  | cons q rest ih =>
    rw [List.flatMap_cons, ← List.append_assoc, List.foldl_cons]
    exact ((condensed_merge tags q.tags name r).append (.refl _)).trans (ih _)

theorem written_inter {driver : Option Nat} {snapshot : Option Snapshot} :
    written name (.inter frame children driver snapshot) r =
      (frame.tags.value name r).toList ++ children.flatMap fun q => q.written name r := by
  rw [← writtenAll_eq]
  rfl

/-- The names of redundant children are written by the intersection itself. -/
theorem written_dropRedundant :
    Condensed (written name (.inter frame children driver snapshot) r)
      (written name (.inter { tags := (dropRedundant frame.tags children).1 }
        (dropRedundant frame.tags children).2 none none) r) := by
  let dropped := children.filter (isRedundant (constrained children))
  let kept := children.filter (!isRedundant (constrained children) ·)
  have hsplit : ((dropped.flatMap fun q => q.written name r) ++
      kept.flatMap fun q => q.written name r).Perm (children.flatMap fun q => q.written name r) := by
    rw [← List.flatMap_append]
    exact (List.filter_append_perm _ children).flatMap_right _
  have hdropped : (dropped.flatMap fun q => q.written name r) =
      dropped.flatMap fun q => (q.tags.value name r).toList := by
    refine List.flatMap_congr fun q hq => ?_
    obtain ⟨frame, category, cursor, rfl, -⟩ :=
      redundant_cases frame.tags (List.mem_filter.1 hq).2
    rfl
  rw [written_inter, written_inter]
  refine (Condensed.of_perm (hsplit.append_left _)).trans ?_
  rw [hdropped, ← List.append_assoc]
  exact (condensed_foldl_merge frame.tags dropped).append (.refl _)

theorem written_fuse (hfuse : fuse? children = some kept) :
    Condensed (written name (.inter frame children driver snapshot) r)
      (written name (.inter frame kept driver snapshot) r) := by
  obtain ⟨s, p, subject, predicate, rest, hperm, -, -, rfl⟩ := fuse?_eq_some hfuse
  have hfused : Condensed ((s.frame.tags.value name r).toList ++ (p.frame.tags.value name r).toList)
      ((fused s p subject predicate).written name r) := by
    have hboth := condensed_merge (({} : Tags).merge s.frame.tags) p.frame.tags name r
    rw [Tags.value_empty_merge] at hboth
    exact hboth
  have hchildren := hperm.flatMap_right fun q => q.written name r
  rw [List.flatMap_cons, List.flatMap_cons, ← List.append_assoc] at hchildren
  rw [written_inter, written_inter, List.flatMap_append, List.flatMap_singleton]
  refine .append (.refl _) ?_
  exact (Condensed.of_perm (List.perm_append_comm.trans hchildren.symm)).trans
    (.append (.refl _) hfused)

theorem written_mapTags (name : String) (q : Query) (r : Ref) :
    ∃ below, ∀ change : Tags → Tags,
      (q.mapTags change).written name r = ((change q.tags).value name r).toList ++ below := by
  cases q with
  | all | fixed | position => exact ⟨[], fun _ => (List.append_nil _).symm⟩
  | links | inter => exact ⟨_, fun _ => rfl⟩

theorem mapTags_id (q : Query) : (q.mapTags fun tags => tags) = q := by
  cases q <;> rfl

theorem written_assemble :
    Condensed (written name (.inter { tags } kept none none) r)
      ((assemble tags kept).written name r) := by
  rcases kept with _ | ⟨only, _ | ⟨second, rest⟩⟩
  · exact .refl _
  · obtain ⟨below, hbelow⟩ := written_mapTags name only r
    have honly := hbelow fun tags => tags
    rw [mapTags_id] at honly
    rw [written_inter, List.flatMap_singleton, honly, ← List.append_assoc]
    unfold assemble
    rw [hbelow]
    exact ((Condensed.of_perm List.perm_append_comm).trans
      (condensed_merge only.tags tags name r)).append (.refl _)
  · exact .refl _

/-- Links that become a leaf write the names of both, as long as they have the result. -/
theorem written_foldLinks {pageSize : Nat} {direction : Direction} {primary : Query}
    {inner : Option Scan} (hfold : foldLinks? frame handle pageSize direction primary = some q)
    (hr : member c (.links frame handle pageSize direction primary inner snapshot) r = true) :
    Condensed (written name (.links frame handle pageSize direction primary inner snapshot) r)
      (q.written name r) := by
  cases r with
  | node id => cases hr
  | quad key =>
    have hprimary : (c.isLive key && primary.member c (.node (key.get direction))) = true := hr
    rw [Bool.and_eq_true] at hprimary
    unfold foldLinks? at hfold
    split at hfold
    · exact absurd hprimary.2 Bool.false_ne_true
    · next listed id index =>
      cases hfold
      have hmem : Ref.node (key.get direction) ∈ [Ref.node id] :=
        List.contains_iff_mem.1 hprimary.2
      obtain rfl : key.get direction = id := Ref.node.inj (List.mem_singleton.1 hmem)
      have hlinks : written name (.links frame handle pageSize direction
          (.fixed listed [.node (key.get direction)] index) inner snapshot) (.quad key) =
            (frame.tags.value name (.quad key)).toList ++
              (listed.tags.value name (.node (key.get direction))).toList := rfl
      rw [hlinks]
      unfold written
      simp only
      rw [Tags.value_addAllFixed, Tags.value_empty_merge]
      exact condensed_or _ _
    · cases hfold

/-- In a simplified tree a name is written as before, but for values that others override. -/
theorem written_optimize (hr : q.member c r = true) :
    Condensed (q.written name r) (q.optimize.1.written name r) := by
  induction q using induct generalizing r with
  | all | fixed | position => exact .refl _
  | links frame handle pageSize direction primary inner snapshot ih =>
    unfold optimize
    split
    · next q' hfold => exact written_foldLinks hfold hr
    · unfold written
      refine .append (.refl _) ?_
      cases r with
      | node id => exact .refl _
      | quad key =>
        have hkey : (c.isLive key && primary.member c (.node (key.get direction))) = true := hr
        rw [Bool.and_eq_true] at hkey
        exact ih hkey.2
  | inter frame children driver snapshot ih =>
    obtain ⟨-, hall⟩ := member_inter_iff.1 hr
    have hmap : Condensed (written name (.inter frame children driver snapshot) r)
        (written name (.inter frame (children.map fun q => q.optimize.1) driver snapshot) r) := by
      rw [written_inter, written_inter, List.flatMap_map]
      exact .append (.refl _) (.flatMap fun q hq => ih q hq (hall q hq))
    have hdropped := hmap.trans written_dropRedundant
    unfold optimize
    simp only
    rw [simplifyInter_eq, optimizeAll_eq]
    cases hfuse : fuse? (dropRedundant frame.tags (children.map fun q => q.optimize.1)).2 with
    | none => exact hdropped.trans written_assemble
    | some kept => exact (hdropped.trans (written_fuse hfuse)).trans written_assemble

/-! ## Trees of one meaning -/

/-- Full passes have the same results, and at any time the answers are the same. -/
structure Agree (disk : Disk) (q q' : Query) : Prop where
  results : ∃ results results' last last', Pass disk q results last ∧
    Pass disk q' results' last' ∧ results'.Perm results
  answers : ∀ r q₁ q₁', Visits disk q q₁ → Visits disk q' q₁' →
    ∃ found, (q₁.contains disk r).1 = .ok found ∧ (q₁'.contains disk r).1 = .ok found

theorem Fresh.agree (hc : c.Sound) (hview : disk.view handle = .ok c) (h : Fresh handle q)
    (h' : Fresh handle q') (hmember : ∀ r, q'.member c r = q.member c r) : q.Agree disk q' where
  results := by
    obtain ⟨results, last, hpass, hnodup, hresults⟩ := h.pass hc hview
    obtain ⟨results', last', hpass', hnodup', hresults'⟩ := h'.pass hc hview
    refine ⟨results, results', last, last', hpass, hpass',
      (List.perm_ext_iff_of_nodup hnodup' hnodup).2 fun r => ?_⟩
    rw [hresults, hresults', ← member_iff hc, hmember, member_iff hc]
  answers := by
    intro r q₁ q₁' hvisits hvisits'
    obtain ⟨q₂, hanswer, -⟩ := hvisits.contains_eq hc hview h r
    obtain ⟨q₂', hanswer', -⟩ := hvisits'.contains_eq hc hview h' r
    rw [hmember] at hanswer'
    exact ⟨_, congrArg Prod.fst hanswer, congrArg Prod.fst hanswer'⟩

/-! ## Simplified trees -/

/-- Each name is attached to one query of the tree at most. -/
def Distinct (q : Query) : Prop := ∀ name, q.carriers name ≤ 1

/-- The same results in a full pass, the same answers at any time, and the same bindings for each
result, however it was reached. -/
structure Equivalent (disk : Disk) (q q' : Query) : Prop where
  results : ∃ results results' last last', Pass disk q results last ∧
    Pass disk q' results' last' ∧ results'.Perm results
  answers : ∀ r q₁ q₁', Visits disk q q₁ → Visits disk q' q₁' →
    ∃ found, (q₁.contains disk r).1 = .ok found ∧ (q₁'.contains disk r).1 = .ok found
  bindings : ∀ r q₁ q₁', Reaches disk q r q₁ → Reaches disk q' r q₁' →
    ∀ b, q₁'.bind b = q₁.bind b

/-- A tree with distinct names is equivalent to the one it is simplified to. -/
theorem Fresh.equivalent (hc : c.Sound) (hview : disk.view handle = .ok c)
    (h : Fresh handle q) (hdistinct : q.Distinct) : q.Equivalent disk q.optimize.1 where
  results := (h.agree hc hview h.optimize fun _ => member_optimize c q).results
  answers := (h.agree hc hview h.optimize fun _ => member_optimize c q).answers
  bindings := by
    intro r q₁ q₁' hreaches hreaches' b
    obtain ⟨hmember, hsettled, hreset⟩ := hreaches.settled hc hview h
    obtain ⟨-, hsettled', hreset'⟩ := hreaches'.settled hc hview h.optimize
    refine hsettled.bind_eq hsettled' (fun name => ?_) b
    have hlength := Nat.le_trans (length_written_le name q r) (hdistinct name)
    rw [← written_reset, hreset', written_reset, ← written_reset name q₁, hreset, written_reset]
    exact (written_optimize hmember).eq_of_length_le_one hlength

end Query

/-- On a store that was only written to, a tree put together with distinct names is equivalent to
the one it is simplified to. -/
theorem Store.Reached.equivalent_optimize {store : Store} {disk : Disk} {q : Query}
    (h : store.Reached disk) (hq : q.Built store.handle) (hdistinct : q.Distinct) :
    q.Equivalent disk q.optimize.1 := by
  obtain ⟨c, hview, hc⟩ := h.sound
  exact hq.fresh.equivalent hc hview hdistinct

theorem Store.equivalent_optimize_first_quad : ∃ (store : Store) (disk : Disk),
    Store.create {} "db" {} = .ok (store, disk) ∧
      Query.Equivalent (store.after disk (.add {} ⟨"alice", "follows", "bob", ""⟩))
        (.both [(Query.quads store.handle 0).mapTags (·.add "quad"),
          (Query.quadsAt store.handle 7 .subject ⟨1⟩).mapTags (·.add "subject"),
          .quadsAt store.handle 7 .predicate ⟨2⟩])
        (Query.optimize (.both [(Query.quads store.handle 0).mapTags (·.add "quad"),
          (Query.quadsAt store.handle 7 .subject ⟨1⟩).mapTags (·.add "subject"),
          .quadsAt store.handle 7 .predicate ⟨2⟩])).1 :=
  have hcreate : Store.create {} "db" {} = .ok (_, _) := rfl
  have hreached := Reached.wrote (.add {} ⟨"alice", "follows", "bob", ""⟩) (.created hcreate)
    (admitsOne_created hcreate)
  ⟨_, _, hcreate, Reached.equivalent_optimize hreached
    (.both (List.forall_mem_cons.2 ⟨.mapTags _ (.quads 0), List.forall_mem_cons.2
      ⟨.mapTags _ (.quadsAt 7 _ _), List.forall_mem_singleton.2 (.quadsAt 7 _ _)⟩⟩))
    (fun name => by
      by_cases hquad : name = "quad"
      · subst hquad
        decide
      · have hplain : ["quad"].contains name = false := by simpa using hquad
        change (false || false).toNat + ((["quad"].contains name || false).toNat +
          ((["subject"].contains name || false).toNat + ((false || false).toNat + 0))) ≤ 1
        rw [hplain]
        cases ["subject"].contains name <;> decide)⟩

end GraphStore
