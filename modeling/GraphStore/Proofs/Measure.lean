import GraphStore.Proofs.Meaning
import Mathlib.Algebra.GroupWithZero.Nat

/-!
# Sizes and bounds of queries

What a query says about its size and progress depends on the contents it reads and on nothing else.

* `Query.sizeIn`, `Query.driverIn` : the size of a query, and the driver an intersection chooses;
* `Query.supplyIn`, `Query.turnsIn` : the bounds on results to come and on turns of a step;
* `Query.size_eq`, `Query.chooseDriver_eq`, `Query.bounds_eq` : these are what the query computes.
-/

namespace GraphStore.Query

variable {disk : Disk} {handle : Handle} {c now : Contents} {imposed : Option Snapshot} {q : Query}

/-! ## Sizes -/

mutual

/-- The size of a query; links from a fixed list are counted in the last committed contents. -/
def sizeIn (now c : Contents) : Query → SizeHint
  | .all _ category _ =>
    .exactly (c.counter (match category with | .nodes => .nodes | .quads => .size))
  | .fixed _ values _ => .exactly (.ofNat values.length)
  | .position scan => .exactly (c.entryCount scan.index scan.stem)
  | .links _ _ _ direction (.fixed _ values _) _ _ => .exactly (now.linkCount direction values)
  | .links _ _ _ _ primary _ _ =>
    .about (.ofNat (min (UInt64.size - 1) ((primary.sizeIn now c).value.toNat * fanOut)))
  | .inter _ children _ _ => .common (sizesIn now c children)
termination_by structural q => q

def sizesIn (now c : Contents) : List Query → List SizeHint
  | [] => []
  | q :: rest => q.sizeIn now c :: sizesIn now c rest
termination_by structural qs => qs

end

def driverIn (now c : Contents) (children : List Query) : Nat :=
  (sizesIn now c children).findIdx fun hint =>
    hint.value == SizeHint.smallest (sizesIn now c children)

theorem sizesIn_eq (now c : Contents) (qs : List Query) :
    sizesIn now c qs = qs.map (sizeIn now c) := by
  induction qs with
  | nil => rfl
  | cons q rest ih => rw [sizesIn, ih, List.map_cons]

theorem size_links {frame : Frame} {h : Handle} {pageSize : Nat} {direction : Direction}
    {inner : Option Scan} {snapshot : Option Snapshot} (hq : ∀ f vs i, q ≠ .fixed f vs i) :
    size disk (.links frame h pageSize direction q inner snapshot) = (do
      let hint ← q.size disk
      return .about (.ofNat (min (UInt64.size - 1) (hint.value.toNat * fanOut)))) := by
  cases q with
  | fixed f vs i => exact absurd rfl (hq f vs i)
  | all | position | links | inter => rfl

theorem sizes_eq {qs : List Query} (h : ∀ q ∈ qs, q.size disk = .ok (q.sizeIn now c)) :
    sizes disk qs = .ok (sizesIn now c qs) := by
  induction qs with
  | nil => rfl
  | cons q rest ih =>
    obtain ⟨hq, hrest⟩ := List.forall_mem_cons.1 h
    unfold sizes sizesIn
    rw [hq, ih hrest]
    rfl

theorem size_eq (hover : Over (Sees disk handle c) handle q) (hnow : disk.view handle = .ok now) :
    q.size disk = .ok (q.sizeIn now c) := by
  induction hover with
  | all h =>
    unfold size sizeIn
    rw [h.contents (.inl rfl)]
    rfl
  | fixed => rfl
  | position h =>
    unfold size sizeIn Scan.size
    rw [h.contents (.inl rfl)]
    rfl
  | @links frame pageSize direction primary inner snapshot _ _ _ ih =>
    cases primary with
    | fixed =>
      unfold size sizeIn
      rw [hnow]
      rfl
    | all | position | links | inter =>
      rw [size_links (by rintro _ _ _ ⟨⟩), ih]
      rfl
  | @inter frame children driver snapshot _ _ ih =>
    have hsizes := sizes_eq ih
    unfold size sizeIn
    rw [hsizes]
    rfl

/-- The driver that an intersection chooses is the one that `driverIn` tells. -/
theorem chooseDriver_eq {children : List Query}
    (hover : ∀ q ∈ children, Over (Sees disk handle c) handle q)
    (hnow : disk.view handle = .ok now) :
    chooseDriver disk children = .ok (driverIn now c children) := by
  unfold chooseDriver
  rw [sizes_eq fun q hq => size_eq (hover q hq) hnow]
  rfl

/-! ### The smallest size -/

theorem foldl_min_attained (hints : List SizeHint) (n : UInt64) :
    hints.foldl (fun n hint => min n hint.value) n = n ∨
      ∃ hint ∈ hints, hint.value = hints.foldl (fun n hint => min n hint.value) n := by
  induction hints generalizing n with
  | nil => exact .inl rfl
  | cons hint rest ih =>
    rw [List.foldl_cons]
    rcases ih (min n hint.value) with hmin | ⟨h, hh, hvalue⟩
    · rw [hmin]
      rcases Std.min_eq_or (a := n) (b := hint.value) with hn | hhint
      · exact .inl hn
      · exact .inr ⟨hint, List.mem_cons_self, hhint.symm⟩
    · exact .inr ⟨h, List.mem_cons_of_mem _ hh, hvalue⟩

theorem foldl_min_le (hints : List SizeHint) (n : UInt64) :
    hints.foldl (fun n hint => min n hint.value) n ≤ n ∧
      ∀ hint ∈ hints, hints.foldl (fun n hint => min n hint.value) n ≤ hint.value := by
  induction hints generalizing n with
  | nil => exact ⟨UInt64.le_refl n, nofun⟩
  | cons hint rest ih =>
    obtain ⟨hn, hrest⟩ := ih (min n hint.value)
    rw [List.foldl_cons]
    refine ⟨UInt64.le_trans hn Std.min_le_left, List.forall_mem_cons.2 ⟨?_, hrest⟩⟩
    exact UInt64.le_trans hn Std.min_le_right

theorem findIdx_smallest_lt {hints : List SizeHint} (hne : hints ≠ []) :
    (hints.findIdx fun hint => hint.value == SizeHint.smallest hints) < hints.length := by
  rw [List.findIdx_lt_length]
  simp only [beq_iff_eq]
  rcases foldl_min_attained hints maxWord with hmax | hattained
  · obtain ⟨hint, hhint⟩ := List.exists_mem_of_ne_nil hints hne
    have hle := (foldl_min_le hints maxWord).2 hint hhint
    have hmaxWord : hint.value ≤ maxWord := by
      have hlt := hint.value.toNat_lt
      have hmaxNat : maxWord.toNat = 2 ^ 64 - 1 := rfl
      rw [UInt64.le_iff_toNat_le]
      omega
    rw [hmax] at hle
    refine ⟨hint, hhint, ?_⟩
    unfold SizeHint.smallest
    rw [hmax]
    exact UInt64.le_antisymm hmaxWord hle
  · exact hattained

theorem driverIn_lt {children : List Query} (hne : children ≠ []) :
    driverIn now c children < children.length := by
  have hlength : (sizesIn now c children).length = children.length := by
    rw [sizesIn_eq, List.length_map]
  rw [← hlength]
  refine findIdx_smallest_lt ?_
  rw [sizesIn_eq]
  exact fun h => hne (List.map_eq_nil_iff.1 h)

/-! ## Bounds -/

mutual

/-- A bound on the number of results still to come. -/
def supplyIn (c : Contents) : Query → Nat
  | .all _ _ cursor => (cursor.upcoming c).length
  | .fixed _ values index => values.length - index
  | .position scan => (scan.cursor.upcoming c).length
  | .links _ _ _ direction primary inner _ =>
    primary.supplyIn c * (c.indexes.get (.ofDirection direction)).size +
      (inner.map fun scan => (scan.cursor.upcoming c).length).getD 0
  | .inter _ children _ _ => supplyAllIn c children

def supplyAllIn (c : Contents) : List Query → Nat
  | [] => 0
  | q :: rest => q.supplyIn c + supplyAllIn c rest

end

mutual

/-- A bound on the number of turns of a step, one inside the other. -/
def turnsIn (c : Contents) : Query → Nat
  | .all .. | .fixed .. | .position _ => 1
  | .links _ _ _ _ primary inner _ =>
    primary.turnsIn c + 2 * primary.supplyIn c + (if inner.isSome then 3 else 2)
  | .inter _ children _ _ => turnsAllIn c children + supplyAllIn c children + 1

def turnsAllIn (c : Contents) : List Query → Nat
  | [] => 0
  | q :: rest => q.turnsIn c + turnsAllIn c rest

end

theorem turnsIn_links {frame : Frame} {pageSize : Nat} {direction : Direction} {primary : Query}
    {snapshot : Option Snapshot} :
    turnsIn c (.links frame handle pageSize direction primary none snapshot) =
      primary.turnsIn c + 2 * primary.supplyIn c + 2 := rfl

theorem turnsIn_links_scan {frame : Frame} {pageSize : Nat} {direction : Direction}
    {primary : Query} {scan : Scan} {snapshot : Option Snapshot} :
    turnsIn c (.links frame handle pageSize direction primary (some scan) snapshot) =
      primary.turnsIn c + 2 * primary.supplyIn c + 3 := rfl

theorem turnsIn_pos (c : Contents) (q : Query) : 0 < q.turnsIn c := by
  cases q with
  | all | fixed | position => exact Nat.one_pos
  | links =>
    unfold turnsIn
    split <;> omega
  | inter => exact Nat.succ_pos _

theorem supplyAllIn_eq (c : Contents) (qs : List Query) :
    supplyAllIn c qs = (qs.map (supplyIn c)).sum := by
  induction qs with
  | nil => rfl
  | cons q rest ih => rw [supplyAllIn, ih, List.map_cons, List.sum_cons]

theorem turnsAllIn_eq (c : Contents) (qs : List Query) :
    turnsAllIn c qs = (qs.map (turnsIn c)).sum := by
  induction qs with
  | nil => rfl
  | cons q rest ih => rw [turnsAllIn, ih, List.map_cons, List.sum_cons]

theorem supplyAll_eq (disk : Disk) (imposed : Option Snapshot) (qs : List Query) :
    supplyAll disk imposed qs = (qs.map (supply disk imposed)).sum := by
  induction qs with
  | nil => rfl
  | cons q rest ih => rw [supplyAll, ih, List.map_cons, List.sum_cons]

theorem turnsAll_eq (disk : Disk) (imposed : Option Snapshot) (qs : List Query) :
    turnsAll disk imposed qs = (qs.map (turns disk imposed)).sum := by
  induction qs with
  | nil => rfl
  | cons q rest ih => rw [turnsAll, ih, List.map_cons, List.sum_cons]

/-- The snapshot imposed on the parts of a tree is none or that of the contents read. -/
theorem imposedBelow_eq {snapshot : Option Snapshot} {handle? : Option Handle}
    (hhandle : handle? = none ∨ handle? = some handle)
    (hsees : handle? ≠ none → Sees disk handle c snapshot)
    (himposed : imposed = none ∨ imposed = some ⟨handle, c⟩) :
    imposedBelow disk imposed snapshot handle? = none ∨
      imposedBelow disk imposed snapshot handle? = some ⟨handle, c⟩ := by
  rcases himposed with rfl | rfl
  · rcases hhandle with rfl | rfl
    · left
      cases snapshot <;> rfl
    · rcases hsees nofun with rfl | ⟨rfl, htake⟩
      · exact .inl rfl
      · right
        unfold imposedBelow
        simp only [Option.or_none, htake]
        rfl
  · right
    unfold imposedBelow
    cases handle? <;> rfl

theorem entriesIn_eq {snapshot : Option Snapshot} (hsees : Sees disk handle c snapshot)
    (himposed : imposed = none ∨ imposed = some ⟨handle, c⟩) (index : Index) :
    entriesIn disk imposed snapshot handle index = (c.indexes.get index).size := by
  unfold entriesIn
  rcases himposed with rfl | rfl
  · rcases hsees with rfl | ⟨rfl, htake⟩
    · rfl
    · rw [htake]
      rfl
  · rfl

theorem boundsAll_eq {qs : List Query} (h : ∀ q ∈ qs,
      q.supply disk imposed = q.supplyIn c ∧ q.turns disk imposed = q.turnsIn c) :
    supplyAll disk imposed qs = supplyAllIn c qs ∧ turnsAll disk imposed qs = turnsAllIn c qs := by
  rw [supplyAll_eq, supplyAllIn_eq, turnsAll_eq, turnsAllIn_eq]
  exact ⟨congrArg List.sum (List.map_congr_left fun q hq => (h q hq).1),
    congrArg List.sum (List.map_congr_left fun q hq => (h q hq).2)⟩

/-- The bounds that a query computes are those in the contents it reads. -/
theorem bounds_eq (hc : c.Sound) (hover : Over (Sees disk handle c) handle q)
    (hwf : q.WellFormed) (himposed : imposed = none ∨ imposed = some ⟨handle, c⟩) :
    q.supply disk imposed = q.supplyIn c ∧ q.turns disk imposed = q.turnsIn c := by
  induction hover generalizing imposed with
  | all h =>
    cases hwf with
    | all hsource =>
      unfold supply supplyIn
      refine ⟨Cursor.remaining_eq hc ?_ (h.contents himposed), rfl⟩
      rw [hsource]
      exact Source.ofCategory_wellFormed _
  | fixed => exact ⟨rfl, rfl⟩
  | position h =>
    cases hwf with
    | position hscan =>
      unfold supply supplyIn
      exact ⟨Cursor.remaining_eq hc hscan.sourceWellFormed (h.contents himposed), rfl⟩
  | @links frame pageSize direction primary inner snapshot hsees _ hinner ih =>
    cases hwf with
    | links hprimary hscans =>
      have hbelow := imposedBelow_eq (.inr rfl) (fun _ => hsees) himposed
      obtain ⟨hsupply, hturns⟩ := ih hprimary hbelow
      unfold supply supplyIn turns turnsIn
      simp only
      rw [hsupply, hturns, entriesIn_eq hsees himposed]
      refine ⟨congrArg (_ + Option.getD · 0) ?_, rfl⟩
      cases inner with
      | none => rfl
      | some scan =>
        have hremaining := Cursor.remaining_eq hc (hscans scan rfl).1.sourceWellFormed
          ((hinner scan rfl).contents hbelow)
        exact congrArg some hremaining
  | @inter frame children driver snapshot hchildren hsees ih =>
    cases hwf with
    | inter hwfs _ =>
      have hover : Over (Sees disk handle c) handle (.inter frame children driver snapshot) :=
        .inter hchildren hsees
      have hhandle : firstHandle? children = none ∨ firstHandle? children = some handle :=
        hover.handle?
      have hbelow := imposedBelow_eq hhandle hsees himposed
      have hall := boundsAll_eq fun q hq => ih q hq (hwfs q hq) hbelow
      unfold supply supplyIn turns turnsIn
      simp only
      rw [hall.1, hall.2]
      exact ⟨rfl, rfl⟩

/-! ## Trees that differ in results and snapshots -/

theorem sizeIn_bare (now c : Contents) (q : Query) : q.bare.sizeIn now c = q.sizeIn now c := by
  induction q using induct with
  | all | fixed | position => rfl
  | links frame handle pageSize direction primary inner snapshot ih =>
    cases primary with
    | fixed => rfl
    | all | position | links | inter =>
      have hprimary := congrArg (fun hint : SizeHint => SizeHint.about
        (.ofNat (min (UInt64.size - 1) (hint.value.toNat * fanOut)))) ih
      exact hprimary
  | inter frame children driver snapshot ih =>
    unfold bare sizeIn
    rw [bareAll_eq, sizesIn_eq, sizesIn_eq, List.map_map]
    exact congrArg SizeHint.common (List.map_congr_left ih)

theorem driverIn_bare (now c : Contents) (children : List Query) :
    driverIn now c (children.map bare) = driverIn now c children := by
  have hsizes : sizesIn now c (children.map bare) = sizesIn now c children := by
    rw [sizesIn_eq, sizesIn_eq, List.map_map]
    exact List.map_congr_left fun q _ => sizeIn_bare now c q
  unfold driverIn
  rw [hsizes]

theorem bounds_bare (c : Contents) (q : Query) :
    q.bare.supplyIn c = q.supplyIn c ∧ q.bare.turnsIn c = q.turnsIn c := by
  induction q using induct with
  | all | fixed | position => exact ⟨rfl, rfl⟩
  | links frame handle pageSize direction primary inner snapshot ih =>
    unfold bare supplyIn turnsIn
    rw [ih.1, ih.2, Option.map_map, Option.isSome_map]
    exact ⟨rfl, rfl⟩
  | inter frame children driver snapshot ih =>
    unfold bare supplyIn turnsIn
    rw [bareAll_eq, supplyAllIn_eq, supplyAllIn_eq, turnsAllIn_eq, turnsAllIn_eq, List.map_map,
      List.map_map]
    have hsupply : children.map (supplyIn c ∘ bare) = children.map (supplyIn c) :=
      List.map_congr_left fun q hq => (ih q hq).1
    have hturns : children.map (turnsIn c ∘ bare) = children.map (turnsIn c) :=
      List.map_congr_left fun q hq => (ih q hq).2
    rw [hsupply, hturns]
    exact ⟨rfl, rfl⟩

theorem boundsAll_bare (c : Contents) {children children' : List Query}
    (h : children'.map bare = children.map bare) :
    supplyAllIn c children' = supplyAllIn c children ∧
      turnsAllIn c children' = turnsAllIn c children := by
  have hsupply (qs : List Query) : supplyAllIn c qs = ((qs.map bare).map (supplyIn c)).sum := by
    rw [supplyAllIn_eq, List.map_map]
    exact congrArg List.sum (List.map_congr_left fun q _ => (bounds_bare c q).1.symm)
  have hturns (qs : List Query) : turnsAllIn c qs = ((qs.map bare).map (turnsIn c)).sum := by
    rw [turnsAllIn_eq, List.map_map]
    exact congrArg List.sum (List.map_congr_left fun q _ => (bounds_bare c q).2.symm)
  rw [hsupply, hturns, h, ← hsupply, ← hturns]
  exact ⟨rfl, rfl⟩

end GraphStore.Query
