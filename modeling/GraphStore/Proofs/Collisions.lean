import GraphStore.Proofs.Optimize

/-!
# Names of several queries

A name that several queries of a tree carry is bound by the last of them. Simplifying a tree moves
names, and with them the order in which they are bound.

* `Store.Reached.bindings_optimize` : a simplified tree binds the same names, each to a value that
  the original writes for the result; it is another value than the original's only if that one
  writes two different values;
* `Store.overridden_first_quad` : an intersection of one child, whose constant overrides the name of
  the child once it is simplified.
-/

namespace GraphStore

namespace Query

variable {disk : Disk} {handle : Handle} {c : Contents} {q q₁ q₁' : Query} {r : Ref}

theorem Fresh.getLast?_written (hc : c.Sound) (hview : disk.view handle = .ok c)
    (h : Fresh handle q) (hreaches : Reaches disk q r q₁)
    (hreaches' : Reaches disk q.optimize.1 r q₁') (b : Bindings) (name : String) :
    (q₁.bind b).get? name = (q.written name r).getLast?.or (b.get? name) ∧
      (q₁'.bind b).get? name = (q.optimize.1.written name r).getLast?.or (b.get? name) ∧
        Condensed (q.written name r) (q.optimize.1.written name r) := by
  obtain ⟨hmember, hsettled, hreset⟩ := hreaches.settled hc hview h
  obtain ⟨-, hsettled', hreset'⟩ := hreaches'.settled hc hview h.optimize
  have hwritten : q₁.written name r = q.written name r := by
    rw [← written_reset, hreset, written_reset]
  have hwritten' : q₁'.written name r = q.optimize.1.written name r := by
    rw [← written_reset, hreset', written_reset]
  rw [hsettled.get?_bind, hsettled'.get?_bind, hwritten, hwritten']
  exact ⟨rfl, rfl, written_optimize hmember⟩

end Query

/-- For a result that both reach, a tree and the one it is simplified to bind a name to the same
value, or to two different values that the tree writes for the name. -/
theorem Store.Reached.bindings_optimize {store : Store} {disk : Disk} {q q₁ q₁' : Query} {r : Ref}
    (h : store.Reached disk) (hq : q.Built store.handle) (hreaches : Query.Reaches disk q r q₁)
    (hreaches' : Query.Reaches disk q.optimize.1 r q₁') (b : Bindings) (name : String) :
    (q₁'.bind b).get? name = (q₁.bind b).get? name ∨
      ∃ v ∈ q.written name r, ∃ w ∈ q.written name r, v ≠ w ∧
        (q₁.bind b).get? name = some v ∧ (q₁'.bind b).get? name = some w := by
  obtain ⟨c, hview, hc⟩ := h.sound
  obtain ⟨hbound, hbound', hcondensed⟩ :=
    hq.fresh.getLast?_written hc hview hreaches hreaches' b name
  rw [hbound, hbound']
  rcases hcondensed.getLast? with hsame | ⟨v, hv, w, hw, hne, hlast, hlast'⟩
  · exact .inl (by rw [hsame])
  · rw [hlast, hlast']
    exact .inr ⟨v, hv, w, hw, hne, rfl, rfl⟩

/-- All quads, as the only child of an intersection that binds the name of the child to a node. -/
def Query.overriding (handle : Handle) : Query :=
  (Query.both [(Query.quads handle 0).mapTags (·.add "x")]).mapTags (·.addFixed "x" (.node ⟨1⟩))

theorem Query.Reaches.of_next {disk : Disk} {q : Query} {r : Ref}
    (h : (q.next disk).1 = .ok (some r)) : Query.Reaches disk q r (q.next disk).2 :=
  .found (.now (Prod.ext h rfl))

theorem Query.built_overriding (handle : Handle) : (Query.overriding handle).Built handle :=
  .mapTags _ (.both (List.forall_mem_singleton.2 (.mapTags _ (.quads 0))))

theorem Store.bindings_optimize_first_quad : ∃ (store : Store) (disk : Disk),
    Store.create {} "db" {} = .ok (store, disk) ∧
      let now := store.after disk (.add {} ⟨"alice", "follows", "bob", ""⟩)
      let q := Query.overriding store.handle
      let r := Ref.quad ⟨⟨1⟩, ⟨2⟩, ⟨3⟩, ⟨0⟩⟩
      ((q.optimize.1.next now).2.bind ∅).get? "x" = ((q.next now).2.bind ∅).get? "x" ∨
        ∃ v ∈ q.written "x" r, ∃ w ∈ q.written "x" r, v ≠ w ∧
          ((q.next now).2.bind ∅).get? "x" = some v ∧
            ((q.optimize.1.next now).2.bind ∅).get? "x" = some w := by
  have hcreate : Store.create {} "db" {} = .ok (_, _) := rfl
  refine ⟨_, _, hcreate, ?_⟩
  intro now q r
  have hreached := Reached.wrote (.add {} ⟨"alice", "follows", "bob", ""⟩) (.created hcreate)
    (admitsOne_created hcreate)
  exact hreached.bindings_optimize (Query.built_overriding _)
    (.of_next (by decide +kernel)) (.of_next (by decide +kernel)) ∅ "x"

/-- The child binds its name last, to the quad. In the simplified tree, which is the child with the
names of both, the constant of the intersection comes last. -/
theorem Store.overridden_first_quad : ∃ (store : Store) (disk : Disk),
    Store.create {} "db" {} = .ok (store, disk) ∧
      let now := store.after disk (.add {} ⟨"alice", "follows", "bob", ""⟩)
      let found := (Query.overriding store.handle).next now
      let found' := (Query.overriding store.handle).optimize.1.next now
      let r := Ref.quad ⟨⟨1⟩, ⟨2⟩, ⟨3⟩, ⟨0⟩⟩
      store.Reached now ∧ (Query.overriding store.handle).Built store.handle ∧
        found.1 = .ok (some r) ∧ found'.1 = .ok (some r) ∧
          (found.2.bind ∅).get? "x" = some r ∧ (found'.2.bind ∅).get? "x" = some (.node ⟨1⟩) := by
  have hcreate : Store.create {} "db" {} = .ok (_, _) := rfl
  refine ⟨_, _, hcreate, ?_⟩
  intro now found found' r
  refine ⟨.wrote _ (.created hcreate) (admitsOne_created hcreate), Query.built_overriding _, ?_⟩
  decide +kernel

end GraphStore
