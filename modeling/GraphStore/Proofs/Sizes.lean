import GraphStore.Proofs.Resuming

/-!
# Exact sizes

* `Query.Composed` : the trees that can be put together over one handle, with scans of the composite
  index and simplified trees;
* `Query.Exact` : the trees whose size is no estimate (`Query.exact_sizeIn`);
* `Query.length_all`, `Query.length_scan`, `Query.length_links` : results are as many as the
  counters say;
* `Query.Exact.counted` : an exact size is the number of results;
* `Store.Reached.size_exact` : so it is for what a pass yields, after every run and any use of a tree.
-/

namespace GraphStore

namespace Query

variable {disk disk' : Disk} {handle : Handle} {c now : Contents} {q q' : Query} {r : Ref}
  {results : List Ref} {direction : Direction}

/-! ## Trees of any make -/

/-- A tree over one handle, with scans of a subject and a predicate among its leaves, any part of which
may have been simplified. -/
inductive Composed (handle : Handle) : Query → Prop
  | built {q : Query} : Built handle q → Composed handle q
  | subjectPredicate (pageSize : Nat) (subject predicate : NodeId) :
      Composed handle (.position (.subjectPredicate handle pageSize subject predicate))
  | linksTo {primary : Query} (pageSize : Nat) (direction : Direction) :
      Composed handle primary → Composed handle (.linksTo handle pageSize primary direction)
  | both {children : List Query} :
      (∀ q ∈ children, Composed handle q) → Composed handle (.both children)
  | addValue {q : Query} (value : Ref) : Composed handle q → Composed handle (q.addValue value)
  | addChild {q child : Query} :
      Composed handle q → Composed handle child → Composed handle (q.addChild child)
  | mapTags {q : Query} (change : Tags → Tags) :
      Composed handle q → Composed handle (q.mapTags change)
  | optimize {q : Query} : Composed handle q → Composed handle q.optimize.1

theorem held_of_reset_eq (h : q.reset = q) : q.held = none := by
  rw [← h]
  cases q <;> rfl

theorem Composed.fresh (h : Composed handle q) : Fresh handle q ∧ q.reset = q := by
  induction h with
  | built h => exact ⟨h.fresh, h.reset_eq⟩
  | subjectPredicate pageSize subject predicate =>
    exact ⟨⟨.position rfl (start_atStart _ _ _), .position ⟨rfl, rfl⟩, .position ⟨rfl, rfl⟩⟩, rfl⟩
  | linksTo pageSize direction _ ih =>
    exact ⟨ih.1.linksTo pageSize direction, reset_linksTo ih.2 pageSize direction⟩
  | both _ ih =>
    exact ⟨.inter rfl (by rintro _ ⟨⟩) fun q hq => (ih q hq).1, reset_both fun q hq => (ih q hq).2⟩
  | addValue value _ ih => exact ⟨ih.1.addValue value, reset_addValue ih.2 value⟩
  | addChild _ _ ih ihchild =>
    exact ⟨ih.1.addChild (held_of_reset_eq ih.2) ihchild.1, reset_addChild ih.2 ihchild.2⟩
  | mapTags change _ ih => exact ⟨ih.1.mapTags change, by rw [reset_mapTags, ih.2]⟩
  | optimize _ ih => exact ⟨ih.1.optimize, by rw [← reset_optimize, ih.2]⟩

/-! ## Sizes that are no estimate -/

/-- A tree whose size is no estimate: a leaf, links from a list, an intersection of nothing, or one of
a single such tree. -/
inductive Exact : Query → Prop
  | all {frame category cursor} : Exact (.all frame category cursor)
  | fixed {frame values index} : Exact (.fixed frame values index)
  | position {scan} : Exact (.position scan)
  | links {frame handle pageSize direction listFrame values index inner snapshot} :
      Exact (.links frame handle pageSize direction (.fixed listFrame values index) inner snapshot)
  | none {frame driver snapshot} : Exact (.inter frame [] driver snapshot)
  | only {frame child driver snapshot} :
      Exact child → Exact (.inter frame [child] driver snapshot)

theorem exact_sizeIn (now c : Contents) (q : Query) :
    (q.sizeIn now c).exact = true ↔ q.Exact := by
  induction q using induct with
  | all => exact ⟨fun _ => .all, fun _ => rfl⟩
  | fixed => exact ⟨fun _ => .fixed, fun _ => rfl⟩
  | position => exact ⟨fun _ => .position, fun _ => rfl⟩
  | links frame handle pageSize direction primary inner snapshot ih =>
    cases primary with
    | fixed => exact ⟨fun _ => .links, fun _ => rfl⟩
    | all | position | links | inter => exact ⟨nofun, nofun⟩
  | inter frame children driver snapshot ih =>
    rcases children with _ | ⟨child, _ | ⟨second, rest⟩⟩
    · exact ⟨fun _ => .none, fun _ => rfl⟩
    · refine (ih child List.mem_cons_self).trans ⟨.only, fun h => ?_⟩
      cases h with
      | only hchild => exact hchild
    · exact ⟨nofun, nofun⟩

theorem sizeIn_reset (now c : Contents) (q : Query) : q.reset.sizeIn now c = q.sizeIn now c := by
  induction q using induct with
  | all | fixed | position => rfl
  | links frame handle pageSize direction primary inner snapshot ih =>
    cases primary with
    | fixed => rfl
    | all | position | links | inter =>
      exact congrArg (fun hint : SizeHint => SizeHint.about
        (.ofNat (min (UInt64.size - 1) (hint.value.toNat * fanOut)))) ih
  | inter frame children driver snapshot ih =>
    unfold reset sizeIn
    rw [resetAll_eq, sizesIn_eq, sizesIn_eq, List.map_map]
    exact congrArg SizeHint.common (List.map_congr_left ih)

/-! ## Counting results -/

theorem length_eq_of_mem_iff {l : List Ref} (hnodup : results.Nodup) (hl : l.Nodup)
    (h : ∀ r, r ∈ results ↔ r ∈ l) : results.length = l.length :=
  ((List.perm_ext_iff_of_nodup hnodup hl).2 h).length_eq

/-- The live quads with a property, listed once each, are as many as live keys have it. -/
theorem length_eq_countP {p : QuadKey → Bool} (hnodup : results.Nodup)
    (h : ∀ r, r ∈ results ↔ ∃ key, c.isLive key = true ∧ p key = true ∧ r = .quad key) :
    results.length = c.liveKeys.countP p := by
  rw [List.countP_eq_length_filter, ← List.length_map (f := Ref.quad)]
  refine length_eq_of_mem_iff hnodup ?_ fun r => ?_
  · exact (c.liveKeys_nodup.filter p).map fun _ _ => Ref.quad.inj
  · simp only [h, List.mem_map, List.mem_filter, Contents.mem_liveKeys, and_assoc, eq_comm]

theorem length_linkedTo (hc : c.Sound) (direction : Direction) (id : NodeId) :
    (linkedTo c direction (.node id)).length =
      (c.entryCount (.ofDirection direction) id.toBytes).toNat := by
  rw [hc.toNat_entryCount]
  refine length_eq_countP (linkedTo_nodup direction _) fun r => (mem_linkedTo hc).trans ?_
  have hstem (key : QuadKey) : (Index.ofDirection direction).stem key = (key.get direction).toBytes := by
    cases direction <;> simp [Index.stem, Index.directions, Index.ofDirection]
  simp only [hstem, beq_iff_eq, NodeId.toBytes_inj]

/-- The count of links from a list is the number of quads they lead to. -/
theorem linkCount_eq (hc : c.Sound) (direction : Direction) (values : List Ref) :
    c.linkCount direction values = .ofNat (values.flatMap (linkedTo c direction)).length := by
  suffices h : ∀ n : UInt64, (values.filterMap Ref.asNode?).foldl
      (fun n id => n + c.entryCount (.ofDirection direction) id.toBytes) n =
        n + .ofNat (values.flatMap (linkedTo c direction)).length from
    (h 0).trans (UInt64.zero_add _)
  induction values with
  | nil => exact fun n => (UInt64.add_zero n).symm
  | cons v rest ih =>
    intro n
    cases v with
    | quad key => exact ih n
    | node id =>
      have hcount : c.entryCount (.ofDirection direction) id.toBytes =
          .ofNat (linkedTo c direction (.node id)).length := by
        rw [length_linkedTo hc, UInt64.ofNat_toNat]
      rw [List.flatMap_cons, List.length_append, UInt64.ofNat_add, ← hcount, ← UInt64.add_assoc]
      exact ih _

theorem length_all (hc : c.Sound) {frame : Frame} {category : Category} {cursor : Cursor}
    (hnodup : results.Nodup)
    (h : ∀ r, r ∈ results ↔ (Query.all frame category cursor).member c r = true) :
    ((Query.all frame category cursor).sizeIn now c).value.toNat = results.length := by
  cases category with
  | nodes =>
    change (c.counter .nodes).toNat = _
    rw [hc.counted.nodes, ← Table.length_keys, ← List.length_map (f := Ref.node)]
    refine (length_eq_of_mem_iff hnodup ?_ fun r => (h r).trans ?_).symm
    · exact c.degrees.keys_nodup.map fun _ _ => Ref.node.inj
    · cases r <;> simp [member, Ref.category, Contents.isLiveRef, hc.counted.isLiveNode,
        Table.mem_keys]
  | quads =>
    change (c.counter .size).toNat = _
    rw [hc.size, length_eq_countP (p := fun _ => true) hnodup fun r => (h r).trans ?_,
      List.countP_true]
    cases r <;> simp [member, Ref.category, Contents.isLiveRef]

theorem length_scan (hc : c.Sound) {scan : Scan} (hscan : scan.WellFormed) (hnodup : results.Nodup)
    (h : ∀ r, r ∈ results ↔ (Query.position scan).member c r = true) :
    (c.entryCount scan.index scan.stem).toNat = results.length := by
  rw [hc.toNat_entryCount, length_eq_countP (p := scan.fits) hnodup fun r => (h r).trans ?_]
  · exact List.countP_congr fun key _ => by rw [beq_iff_eq, hscan.stem_eq_iff]
  · cases r <;> simp [member, Ref.asQuad?, and_comm]

/-- The quads that a list leads to are fewer than words, and counted node by node. -/
theorem length_links (hc : c.Sound) {values : List Ref} (hvalues : values.Nodup)
    (hnodup : results.Nodup)
    (h : ∀ r, r ∈ results ↔
      ∃ key, c.isLive key = true ∧ .node (key.get direction) ∈ values ∧ r = .quad key) :
    (c.linkCount direction values).toNat = results.length := by
  have hlength : results.length = (values.flatMap (linkedTo c direction)).length :=
    length_eq_of_mem_iff hnodup (nodup_flatMap_linkedTo hc hvalues) fun r =>
      (h r).trans (mem_flatMap_linkedTo hc).symm
  have hle : results.length ≤ c.liveKeys.length := by
    rw [length_eq_countP (c := c) (p := fun key => values.contains (.node (key.get direction)))
      hnodup fun r => (h r).trans (by simp only [List.contains_iff_mem])]
    exact List.countP_le_length
  have hlt : c.liveKeys.length < 2 ^ 64 := hc.size ▸ UInt64.toNat_lt _
  rw [linkCount_eq hc, ← hlength, UInt64.toNat_ofNat_of_lt' (Nat.lt_of_le_of_lt hle hlt)]

/-- A hint tells a number of results. That of a list of values, which reads no store, may be too large
for a word. -/
structure Counts (hint : SizeHint) (q : Query) (n : Nat) : Prop where
  value : hint.value = .ofNat n
  fits : q.handle?.isSome = true → n < 2 ^ 64

theorem counts_of_toNat {hint : SizeHint} {n : Nat} (h : hint.value.toNat = n) :
    Counts hint q n :=
  ⟨by rw [← h, UInt64.ofNat_toNat], fun _ => h ▸ UInt64.toNat_lt _⟩

theorem Counts.toNat {hint : SizeHint} {n : Nat} (h : Counts hint q n)
    (hfits : n < 2 ^ 64 ∨ q.handle?.isSome = true) : hint.value.toNat = n := by
  rw [h.value, UInt64.toNat_ofNat_of_lt' (hfits.elim id h.fits)]

/-- An exact size is the number of results. -/
theorem Exact.counted (hexact : q.Exact) (hc : c.Sound) (hwf : q.WellFormed)
    (hnodup : results.Nodup) (hresults : ∀ r, r ∈ results ↔ q.member c r = true) :
    Counts (q.sizeIn c c) q results.length := by
  -- Each leaf reads one counter; an intersection of one child has its results and its size.
  induction hexact with
  | all => exact counts_of_toNat (length_all hc hnodup hresults)
  | @fixed frame values index =>
    cases hwf with
    | fixed hvalues =>
      have hlength : results.length = values.length :=
        length_eq_of_mem_iff hnodup hvalues fun r => (hresults r).trans List.contains_iff_mem
      exact ⟨congrArg UInt64.ofNat hlength.symm, by rintro ⟨⟩⟩
  | position =>
    cases hwf with
    | position hscan => exact counts_of_toNat (length_scan hc hscan hnodup hresults)
  | links =>
    cases hwf with
    | links hprimary _ =>
    cases hprimary with
    | fixed hvalues =>
      refine counts_of_toNat (length_links hc hvalues hnodup fun r => (hresults r).trans ?_)
      cases r <;> simp [member, Ref.asQuad?]
  | none =>
    have hnil : results = [] := List.eq_nil_iff_forall_not_mem.2 fun r hr => by
      cases (hresults r).1 hr
    subst hnil
    exact ⟨rfl, by rintro ⟨⟩⟩
  | @only frame child driver snapshot _ ih =>
    cases hwf with
    | inter hwfs _ =>
      obtain ⟨hvalue, hfits⟩ := ih (hwfs child List.mem_cons_self) fun r =>
        (hresults r).trans (by simp [member, memberAll])
      refine ⟨hvalue, fun hhandle => hfits ?_⟩
      simpa [handle?, firstHandle?] using hhandle

/-- What `q'` hints at is the number of results that a pass of `q` yields, unless it is an estimate. -/
structure Hints (disk : Disk) (q q' : Query) (hint : SizeHint) (results : List Ref) : Prop where
  size : q'.size disk = .ok hint
  /-- The form of a tree decides whether its size is an estimate. -/
  exact : hint.exact = true ↔ q.Exact
  /-- A list of values, which reads no store, may be longer than a word can tell. -/
  counted : hint.exact = true → results.length < 2 ^ 64 ∨ q.handle?.isSome = true →
    hint.value.toNat = results.length

/-- In no pass a tree counts what is committed. -/
theorem Used.hints {store : Store} (h : q.Used store disk disk' q') (hdisk : store.SoundOn disk)
    (hq : q.Composed store.handle) (hphase : q'.phase ≠ .iterating) :
    ∃ hint results last, Pass disk' q results last ∧ Hints disk' q q' hint results := by
  obtain ⟨hfresh, hsame⟩ := hq.fresh
  obtain ⟨⟨now, hview, hnow⟩, ⟨c, -, hstage⟩, hreset⟩ := h.stage_of_fresh hdisk hfresh hsame
  obtain ⟨-, hover⟩ := hstage.resting hphase
  have hsize := size_eq (hover.sees_taken (Disk.take_of_view hview)) hview
  rw [← sizeIn_reset, hreset] at hsize
  obtain ⟨results, last, hpass, hnodup, hresults⟩ := hfresh.pass hnow hview
  have hexact := exact_sizeIn now now q
  refine ⟨q.sizeIn now now, results, last, hpass, hsize, hexact, fun h => ?_⟩
  exact ((hexact.1 h).counted hnow hfresh.wellFormed hnodup fun r =>
    (hresults r).trans (member_iff hnow).symm).toNat

end Query

namespace Store

/-- After every run and any use of a tree that is in no pass, a size that is no estimate is the number
of results that a pass over the last committed contents yields. -/
theorem Reached.size_exact {store : Store} {disk disk' : Disk} {q q' : Query}
    (h : store.Reached disk) (hq : q.Composed store.handle) (hused : q.Used store disk disk' q')
    (hphase : q'.phase ≠ .iterating) :
    ∃ hint results last, Query.Pass disk' q results last ∧ Query.Hints disk' q q' hint results :=
  hused.hints h.sound hq hphase

/-- Links from a list of a live node, a quad and an id that was never assigned, alone in an
intersection. -/
theorem size_exact_first_quad : ∃ (store : Store) (disk : Disk),
    Store.create {} "db" {} = .ok (store, disk) ∧
      let now := store.after disk (.add {} ⟨"alice", "follows", "bob", ""⟩)
      let values := [.node ⟨1⟩, .quad ⟨⟨1⟩, ⟨2⟩, ⟨3⟩, ⟨0⟩⟩, .node ⟨9⟩]
      let q := Query.both [.linksTo store.handle 0 (.ofList values) .subject]
      q.size now = .ok (.exactly 1) ∧ ∃ results last, Query.Pass now q results last ∧
        Query.Hints now q q (.exactly 1) results := by
  have hcreate : Store.create {} "db" {} = .ok (_, _) := rfl
  refine ⟨_, _, hcreate, ?_⟩
  intro now values q
  have hreached : Store.Reached _ now := .wrote _ (.created hcreate) (admitsOne_created hcreate)
  have hq : q.Composed _ :=
    .built (.both (List.forall_mem_singleton.2 (.linksTo 0 .subject (.ofList values))))
  have hsize : q.size now = .ok (.exactly 1) := by decide +kernel
  obtain ⟨hint, results, last, hpass, hhints⟩ := hreached.size_exact hq .start (by decide)
  obtain rfl : hint = .exactly 1 := Except.ok.inj (hhints.size.symm.trans hsize)
  exact ⟨hsize, results, last, hpass, hhints⟩

end Store

end GraphStore
