import GraphStore.Proofs.Pass

/-!
# Putting queries together

* `Query.Built` : the trees that can be put together over one handle, which are fresh;
* `Query.Rearranged` : the same tree with other page sizes, orders of children and drivers, which
  means the same;
* `Store.Reached.pass_denotes` : a pass over a store that was only written to yields each result that
  the tree means once, and nothing else, however the tree is arranged.
-/

namespace GraphStore

namespace Query

variable {handle : Handle} {c : Contents} {q q' : Query} {r : Ref}

/-! ## Trees put together -/

/-- A tree put together over one handle. -/
inductive Built (handle : Handle) : Query → Prop
  | nodes (pageSize : Nat) : Built handle (.nodes handle pageSize)
  | quads (pageSize : Nat) : Built handle (.quads handle pageSize)
  | ofList (values : List Ref) : Built handle (.ofList values)
  | quadsAt (pageSize : Nat) (direction : Direction) (id : NodeId) :
      Built handle (.quadsAt handle pageSize direction id)
  | linksTo {primary : Query} (pageSize : Nat) (direction : Direction) :
      Built handle primary → Built handle (.linksTo handle pageSize primary direction)
  | both {children : List Query} : (∀ q ∈ children, Built handle q) → Built handle (.both children)
  | addValue {q : Query} (value : Ref) : Built handle q → Built handle (q.addValue value)
  | addChild {q child : Query} :
      Built handle q → Built handle child → Built handle (q.addChild child)
  | mapTags {q : Query} (change : Tags → Tags) : Built handle q → Built handle (q.mapTags change)

theorem start_atStart (handle : Handle) (source : Source) (pageSize : Nat) :
    (Cursor.start handle source pageSize).AtStart :=
  ⟨rfl, rfl, rfl⟩

theorem addValue_nodup {values : List Ref} (h : values.Nodup) (value : Ref) :
    (if value ∈ values then values else values ++ [value]).Nodup := by
  split
  · exact h
  · next hvalue => exact List.nodup_append_comm.1 (List.nodup_cons.2 ⟨hvalue, h⟩)

theorem ofList_nodup (values : List Ref) :
    (values.foldl (fun vs v => if v ∈ vs then vs else vs ++ [v]) []).Nodup := by
  suffices h : ∀ vs : List Ref, vs.Nodup →
      (values.foldl (fun vs v => if v ∈ vs then vs else vs ++ [v]) vs).Nodup from h [] List.nodup_nil
  induction values with
  | nil => exact fun _ h => h
  | cons v rest ih => exact fun vs h => ih _ (addValue_nodup h v)

theorem Fresh.linksTo (h : Fresh handle q) (pageSize : Nat) (direction : Direction) :
    Fresh handle (.linksTo handle pageSize q direction) where
  atStart := .links rfl h.atStart
  wellFormed := .links h.wellFormed (by rintro _ ⟨⟩)
  idle := .links rfl h.idle (by rintro _ ⟨⟩)

theorem Fresh.inter {frame : Frame} {children : List Query} {driver : Option Nat}
    (hphase : frame.phase = .unstarted) (hdriver : ∀ d ∈ driver, d < children.length)
    (h : ∀ q ∈ children, Fresh handle q) : Fresh handle (.inter frame children driver none) where
  atStart := .inter hphase fun q hq => (h q hq).atStart
  wellFormed := .inter (fun q hq => (h q hq).wellFormed) hdriver
  idle := .inter (fun q hq => (h q hq).idle) fun _ => rfl

theorem Fresh.addValue (h : Fresh handle q) (value : Ref) : Fresh handle (q.addValue value) := by
  cases q with
  | all | position | links | inter => exact h
  | fixed frame values index =>
    obtain ⟨hstart, hwf, -⟩ := h
    cases hstart with
    | fixed hphase =>
    cases hwf with
    | fixed hnodup => exact ⟨.fixed hphase, .fixed (addValue_nodup hnodup value), .fixed⟩

/-- The snapshot that an intersection keeps. -/
def held : Query → Option Snapshot
  | .inter _ _ _ snapshot => snapshot
  | _ => none

theorem Fresh.addChild (h : Fresh handle q) (hheld : q.held = none) {child : Query}
    (hchild : Fresh handle child) : Fresh handle (q.addChild child) := by
  cases q with
  | all | fixed | position | links => exact h
  | inter frame children driver snapshot =>
    obtain rfl : snapshot = none := hheld
    obtain ⟨hstart, hwf, hover⟩ := h
    cases hstart with
    | inter hphase hstarts =>
    cases hwf with
    | inter hwfs _ =>
    cases hover with
    | inter hovers _ =>
      refine .inter hphase (by rintro _ ⟨⟩) fun q hq => ?_
      rcases List.mem_append.1 hq with hq | hq
      · exact ⟨hstarts q hq, hwfs q hq, hovers q hq⟩
      · rw [List.mem_singleton.1 hq]
        exact hchild

theorem Fresh.mapTags (h : Fresh handle q) (change : Tags → Tags) :
    Fresh handle (q.mapTags change) := by
  obtain ⟨hstart, hwf, hover⟩ := h
  refine ⟨?_, ?_, ?_⟩
  · cases hstart with
    | all hphase hcursor => exact .all hphase hcursor
    | fixed hphase => exact .fixed hphase
    | position hphase hcursor => exact .position hphase hcursor
    | links hphase hprimary => exact .links hphase hprimary
    | inter hphase hchildren => exact .inter hphase hchildren
  · cases hwf with
    | all hsource => exact .all hsource
    | fixed hnodup => exact .fixed hnodup
    | position hscan => exact .position ⟨hscan.directions, hscan.source⟩
    | links hprimary hinner => exact .links hprimary hinner
    | inter hchildren hdriver => exact .inter hchildren hdriver
  · cases hover with
    | all hcursor => exact .all hcursor
    | fixed => exact .fixed
    | position hcursor => exact .position hcursor
    | links hsnapshot hprimary hinner => exact .links hsnapshot hprimary hinner
    | inter hchildren hsnapshot => exact .inter hchildren hsnapshot

/-- An intersection keeps no snapshot, not even one of listed values only. -/
theorem Built.held (h : Built handle q) : q.held = none := by
  induction h with
  | nodes | quads | ofList | quadsAt | linksTo | both => rfl
  | @addValue q _ _ ih =>
    cases q with
    | all | position | links | fixed => rfl
    | inter => exact ih
  | @addChild q _ _ _ ih _ =>
    cases q with
    | all | fixed | position | links => rfl
    | inter => exact ih
  | @mapTags q _ _ ih =>
    cases q with
    | all | fixed | position | links => rfl
    | inter => exact ih

theorem Built.fresh (h : Built handle q) : Fresh handle q := by
  induction h with
  | nodes pageSize => exact ⟨.all rfl (start_atStart _ _ _), .all rfl, .all ⟨rfl, rfl⟩⟩
  | quads pageSize => exact ⟨.all rfl (start_atStart _ _ _), .all rfl, .all ⟨rfl, rfl⟩⟩
  | ofList values => exact ⟨.fixed rfl, .fixed (ofList_nodup values), .fixed⟩
  | quadsAt pageSize direction id =>
    exact ⟨.position rfl (start_atStart _ _ _),
      .position (Scan.ofDirection_wellFormed _ _ _ _), .position ⟨rfl, rfl⟩⟩
  | linksTo pageSize direction _ ih => exact ih.linksTo pageSize direction
  | both _ ih => exact .inter rfl (by rintro _ ⟨⟩) ih
  | addValue value _ ih => exact ih.addValue value
  | addChild hq _ ih ihchild => exact ih.addChild hq.held ihchild
  | mapTags change _ ih => exact ih.mapTags change

/-! ## Trees arranged in another way -/

/-- The same tree with other page sizes, its children in another order, and other drivers. -/
inductive Rearranged : Query → Query → Prop
  | all {frame category cursor} (pageSize : Nat) :
      Rearranged (.all frame category cursor)
        (.all frame category (.start cursor.handle cursor.source pageSize))
  | fixed {frame values index} : Rearranged (.fixed frame values index) (.fixed frame values index)
  | position {scan} (pageSize : Nat) :
      Rearranged (.position scan)
        (.position { scan with cursor := .start scan.cursor.handle scan.cursor.source pageSize })
  | links {frame handle pageSize direction primary primary'} (pageSize' : Nat) :
      Rearranged primary primary' →
        Rearranged (.links frame handle pageSize direction primary none none)
          (.links frame handle pageSize' direction primary' none none)
  | inter {frame driver driver'} {children children' : List Query}
      (arranged : Fin children.length → Query) :
      (∀ i, Rearranged children[i] (arranged i)) → children'.Perm (List.ofFn arranged) →
        (∀ d ∈ driver', d < children'.length) →
          Rearranged (.inter frame children driver none) (.inter frame children' driver' none)

theorem Rearranged.fresh (h : Rearranged q q') (hq : Fresh handle q) : Fresh handle q' := by
  induction h with
  | fixed => exact hq
  | all pageSize =>
    obtain ⟨hstart, hwf, hover⟩ := hq
    cases hstart with
    | all hphase _ =>
    cases hwf with
    | all hsource =>
    cases hover with
    | all hcursor =>
      exact ⟨.all hphase (start_atStart _ _ _), .all hsource, .all ⟨hcursor.handle_eq, rfl⟩⟩
  | position pageSize =>
    obtain ⟨hstart, hwf, hover⟩ := hq
    cases hstart with
    | position hphase _ =>
    cases hwf with
    | position hscan =>
    cases hover with
    | position hcursor =>
      exact ⟨.position hphase (start_atStart _ _ _), .position ⟨hscan.directions, hscan.source⟩,
        .position ⟨hcursor.handle_eq, rfl⟩⟩
  | links pageSize' _ ih =>
    obtain ⟨hstart, hwf, hover⟩ := hq
    cases hstart with
    | links hphase hprimary =>
    cases hwf with
    | links hprimaryWf _ =>
    cases hover with
    | links _ hprimaryOver _ =>
      obtain ⟨hstart', hwf', hover'⟩ := ih ⟨hprimary, hprimaryWf, hprimaryOver⟩
      exact ⟨.links hphase hstart', .links hwf' (by rintro _ ⟨⟩),
        .links rfl hover' (by rintro _ ⟨⟩)⟩
  | inter arranged _ hperm hdriver ih =>
    obtain ⟨hstart, hwf, hover⟩ := hq
    cases hstart with
    | inter hphase hstarts =>
    cases hwf with
    | inter hwfs _ =>
    cases hover with
    | inter hovers _ =>
      refine .inter hphase hdriver fun q hq => ?_
      obtain ⟨i, rfl⟩ := List.mem_ofFn.1 (hperm.mem_iff.1 hq)
      have hmem := List.getElem_mem i.isLt
      exact ih i ⟨hstarts _ hmem, hwfs _ hmem, hovers _ hmem⟩

theorem Rearranged.member (h : Rearranged q q') : q'.member c r = q.member c r := by
  induction h generalizing r with
  | all | fixed | position => rfl
  | links pageSize' _ ih =>
    unfold Query.member
    simp only [ih]
  | @inter frame driver driver' children children' arranged _ hperm hdriver ih =>
    have hempty : children'.isEmpty = children.isEmpty := by
      rw [Bool.eq_iff_iff, List.isEmpty_iff_length_eq_zero, List.isEmpty_iff_length_eq_zero,
        hperm.length_eq, List.length_ofFn]
    have hall : (children'.all fun q => q.member c r) = children.all fun q => q.member c r := by
      rw [Bool.eq_iff_iff, List.all_eq_true, List.all_eq_true]
      constructor
      · intro h q hq
        obtain ⟨i, hi, rfl⟩ := List.mem_iff_getElem.1 hq
        have hmem : arranged ⟨i, hi⟩ ∈ children' := hperm.mem_iff.2 (List.mem_ofFn.2 ⟨⟨i, hi⟩, rfl⟩)
        exact (ih ⟨i, hi⟩).symm.trans (h _ hmem)
      · intro h q hq
        obtain ⟨i, rfl⟩ := List.mem_ofFn.1 (hperm.mem_iff.1 hq)
        exact (ih i).trans (h _ (List.getElem_mem i.isLt))
    unfold Query.member
    rw [memberAll_eq, memberAll_eq, hempty, hall]

end Query

/-! ## Results of trees put together -/

/-- A pass yields each result that the tree means once, and nothing else, however the tree is
arranged. -/
theorem Store.Reached.pass_denotes {store : Store} {disk : Disk} {q q' : Query}
    (h : store.Reached disk) (hq : q.Built store.handle) (harranged : Query.Rearranged q q') :
    ∃ c, disk.view store.handle = .ok c ∧ ∃ results last, Query.Pass disk q' results last ∧
      results.Nodup ∧ ∀ r, r ∈ results ↔ q.Denotes c r := by
  obtain ⟨c, hview, hc⟩ := h.sound
  obtain ⟨results, last, hpass, hnodup, hresults⟩ :=
    (harranged.fresh hq.fresh).pass hc hview
  refine ⟨c, hview, results, last, hpass, hnodup, fun r => ?_⟩
  rw [hresults, ← Query.member_iff hc, harranged.member, Query.member_iff hc]

theorem Store.pass_denotes_first_quad : ∃ (store : Store) (disk : Disk),
    Store.create {} "db" {} = .ok (store, disk) ∧
      ∃ c, (store.after disk (.add {} ⟨"alice", "follows", "bob", ""⟩)).view store.handle = .ok c ∧
        ∃ results last,
          Query.Pass (store.after disk (.add {} ⟨"alice", "follows", "bob", ""⟩))
            (.inter {} [.quadsAt store.handle 7 .subject ⟨1⟩, .quads store.handle 0] (some 1) none)
            results last ∧ results.Nodup ∧ ∀ r, r ∈ results ↔
              (Query.both [.quads store.handle 3, .quadsAt store.handle 3 .subject ⟨1⟩]).Denotes c r :=
  have hcreate : Store.create {} "db" {} = .ok (_, _) := rfl
  have hreached := Reached.wrote (.add {} ⟨"alice", "follows", "bob", ""⟩) (.created hcreate)
    (admitsOne_created hcreate)
  ⟨_, _, hcreate, Reached.pass_denotes hreached
    (.both (List.forall_mem_cons.2 ⟨.quads 3, List.forall_mem_singleton.2 (.quadsAt 3 _ _)⟩))
    (.inter (fun i => if i = 0 then .quads _ 0 else .quadsAt _ 7 .subject ⟨1⟩)
      (Fin.forall_fin_two.2 ⟨.all 0, .position 7⟩) (.swap _ _ _) (by decide))⟩

end GraphStore
