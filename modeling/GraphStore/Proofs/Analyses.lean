import GraphStore.Proofs.Optimize

/-!
# What the form of a query tells

Before a query is simplified its form is read: of which category its results are, and whether all of
them are live.

* `Query.Occurs` : what live quads are made of, which is what is live (`Query.occurs_iff`);
* `Query.Foretells` : the results of a pass are as the form tells;
* `Query.SparesAll` : next to a child that tells enough, a query of everything can go;
* `Store.Reached.form_tells` : so it is for every tree over a store that was only written to.
-/

namespace GraphStore

namespace Query

variable {disk : Disk} {handle : Handle} {c : Contents} {q : Query} {r : Ref} {frame : Frame}
  {children kept : List Query} {driver : Option Nat} {snapshot : Option Snapshot}

/-! ## Results -/

/-- What occurs in live quads: a node that one of them holds, or one of them. -/
inductive Occurs (c : Contents) : Ref → Prop
  | node {key : QuadKey} {id : NodeId} :
      c.isLive key = true → id ∈ key.ids → id.isBlank = false → Occurs c (.node id)
  | quad {key : QuadKey} : c.isLive key = true → Occurs c (.quad key)

theorem occurs_iff (hc : c.Sound) : Occurs c r ↔ c.isLiveRef r = true := by
  constructor
  · intro h
    cases h with
    | node hkey hid hblank => exact hc.isLiveNode_iff.2 ⟨hblank, _, hkey, hid⟩
    | quad hkey => exact hkey
  · intro h
    cases r with
    | node id =>
      obtain ⟨hblank, key, hkey, hid⟩ := hc.isLiveNode_iff.1 h
      exact .node hkey hid hblank
    | quad key => exact .quad h

/-- The results are as the form of the query tells. -/
structure Foretells (c : Contents) (q : Query) (results : List Ref) : Prop where
  category : ∀ category, q.category = some category → ∀ r ∈ results, r.category = category
  live : q.yieldsLive = true → ∀ r ∈ results, Occurs c r

theorem Fresh.foretells (hc : c.Sound) (hview : disk.view handle = .ok c) (h : Fresh handle q) :
    ∃ results last, Pass disk q results last ∧ q.Foretells c results := by
  obtain ⟨results, last, hpass, -, hresults⟩ := h.pass hc hview
  refine ⟨results, last, hpass, fun category hcategory r hr => ?_, fun hlive r hr => ?_⟩
  · exact category_of_member hcategory ((member_iff hc).2 ((hresults r).1 hr))
  · exact (occurs_iff hc).2 (isLiveRef_of_member hlive ((member_iff hc).2 ((hresults r).1 hr)))

/-! ## Needless children -/

/-- A query of everything is needless next to a query that yields live results of its category. -/
theorem common_eraseIdx {i : Nat} {allFrame : Frame} {category : Category} {cursor : Cursor}
    {p : Query} (hi : children[i]? = some (.all allFrame category cursor))
    (hp : p ∈ children.eraseIdx i) (hcategory : p.category = some category)
    (hlive : p.yieldsLive = true) : Common c (children.eraseIdx i) r ↔ Common c children r := by
  have hsplit := forall_iff_others (p := fun q => q.member c r = true) hi
  constructor
  · rintro ⟨-, hall⟩
    exact ⟨List.ne_nil_of_mem (List.mem_of_getElem? hi),
      hsplit.2 ⟨member_all_of_member hcategory hlive (hall p hp) allFrame cursor, hall⟩⟩
  · rintro ⟨-, hall⟩
    exact ⟨List.ne_nil_of_mem hp, (hsplit.1 hall).2⟩

theorem Fresh.agree_inter (hc : c.Sound) (hview : disk.view handle = .ok c)
    (h : Fresh handle (.inter frame children driver snapshot)) (hkept : ∀ q ∈ kept, q ∈ children)
    (hcommon : ∀ r, Common c kept r ↔ Common c children r) :
    Agree disk (.inter frame children driver snapshot) (.inter frame kept none none) := by
  have hphase : frame.phase = .unstarted := by
    cases h.atStart with
    | inter hphase => exact hphase
  have hfresh : Fresh handle (.inter frame kept none none) :=
    .inter hphase (by rintro _ ⟨⟩) fun q hq => h.child q (hkept q hq)
  refine h.agree hc hview hfresh fun r => ?_
  rw [Bool.eq_iff_iff, member_inter_iff, member_inter_iff]
  exact hcommon r

/-- In an intersection queries of everything can go. -/
structure SparesAll (disk : Disk) (q : Query) : Prop where
  /-- One of them can, if any other child yields live results of its category. -/
  one : ∀ frame children driver snapshot i allFrame category cursor p,
    q = .inter frame children driver snapshot → children[i]? = some (.all allFrame category cursor) →
      p ∈ children.eraseIdx i → p.category = some category → p.yieldsLive = true →
        q.Agree disk (.inter frame (children.eraseIdx i) none none)
  /-- All that a simplification takes away can go at once. -/
  redundant : ∀ frame children driver snapshot, q = .inter frame children driver snapshot →
    q.Agree disk (.inter frame (dropRedundant frame.tags children).2 none none)

theorem Fresh.sparesAll (hc : c.Sound) (hview : disk.view handle = .ok c) (h : Fresh handle q) :
    q.SparesAll disk where
  one := by
    rintro frame children driver snapshot i allFrame category cursor p rfl hi hp hcategory hlive
    exact h.agree_inter hc hview (fun q hq => List.mem_of_mem_eraseIdx hq) fun r =>
      common_eraseIdx hi hp hcategory hlive
  redundant := by
    rintro frame children driver snapshot rfl
    exact h.agree_inter hc hview (fun q hq => (List.mem_filter.1 hq).1) fun r =>
      common_dropRedundant frame.tags children

end Query

namespace Store

open Query

/-- On a store that was only written to, the form of a tree tells of the results of a pass over it, and
so which children of an intersection can go. -/
theorem Reached.form_tells {store : Store} {disk : Disk} {q : Query} (h : store.Reached disk)
    (hq : q.Built store.handle) : ∃ c results last, disk.view store.handle = .ok c ∧
      Pass disk q results last ∧ q.Foretells c results ∧ q.SparesAll disk := by
  obtain ⟨c, hview, hc⟩ := h.sound
  obtain ⟨results, last, hpass, hforetells⟩ := hq.fresh.foretells hc hview
  exact ⟨c, results, last, hview, hpass, hforetells, hq.fresh.sparesAll hc hview⟩

theorem form_tells_first_quad : ∃ (store : Store) (disk : Disk),
    Store.create {} "db" {} = .ok (store, disk) ∧
      let now := store.after disk (.add {} ⟨"alice", "follows", "bob", ""⟩)
      let listed := Query.ofList [.quad ⟨⟨1⟩, ⟨2⟩, ⟨3⟩, ⟨0⟩⟩, .quad ⟨⟨1⟩, ⟨2⟩, ⟨1⟩, ⟨0⟩⟩]
      let scanned := Query.quadsAt store.handle 0 .subject ⟨1⟩
      let q := Query.both [listed, .quads store.handle 0, scanned]
      q.category = some .quads ∧ q.yieldsLive = true ∧
        (∃ c results last, now.view store.handle = .ok c ∧ Pass now q results last ∧
          q.Foretells c results ∧ q.SparesAll now) ∧
        q.Agree now (.both [listed, scanned]) := by
  have hcreate : Store.create {} "db" {} = .ok (_, _) := rfl
  refine ⟨_, _, hcreate, ?_⟩
  intro now listed scanned q
  have hreached : Store.Reached _ now := .wrote _ (.created hcreate) (admitsOne_created hcreate)
  have hbuilt : q.Built _ := .both (List.forall_mem_cons.2 ⟨.ofList _,
    List.forall_mem_cons.2 ⟨.quads 0, List.forall_mem_singleton.2 (.quadsAt 0 _ _)⟩⟩)
  obtain ⟨c, results, last, hview, hpass, hforetells, hspares⟩ := hreached.form_tells hbuilt
  refine ⟨rfl, rfl, ⟨c, results, last, hview, hpass, hforetells, hspares⟩, ?_⟩
  exact hspares.one _ _ _ _ 1 _ _ _ scanned rfl rfl (List.mem_cons_of_mem _ List.mem_cons_self) rfl rfl

end Store

end GraphStore
