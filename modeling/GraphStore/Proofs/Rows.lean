import GraphStore.Proofs.Lifetime

/-!
# Rows of results

* `Query.row` : what a tree binds for a result, in order, told by the tree and the result alone;
* `Query.Settled.bind_eq_write` : a tree whose paths belong to a result binds its row;
* `Store.Reached.bind_eq_row` : so a result has the same bindings however it was reached, whichever
  children drive the intersections, and whatever was asked before.
-/

namespace GraphStore

/-- The bindings with further ones, of which the later override the earlier. -/
def Bindings.write (b : Bindings) (row : List (String × Ref)) : Bindings :=
  row.foldl (fun b e => b.insert e.1 e.2) b

/-- The bindings of one query for its result, the constants last. -/
def Tags.row (tags : Tags) (r : Ref) : List (String × Ref) :=
  tags.plain.map (fun name => (name, r)) ++ tags.fixed.entries

theorem Bindings.write_append (b : Bindings) (row row' : List (String × Ref)) :
    b.write (row ++ row') = (b.write row).write row' :=
  List.foldl_append

theorem Tags.bind_eq_write (tags : Tags) (r : Ref) (b : Bindings) :
    tags.bind (some r) b = b.write (tags.row r) := by
  unfold row
  rw [Bindings.write_append]
  unfold Bindings.write
  rw [List.foldl_map]
  rfl

namespace Query

variable {disk : Disk} {handle : Handle} {c : Contents} {q q' : Query} {r : Ref}

/-! ## Rows -/

mutual

/-- The bindings of a tree for a result: its own, and then for links those of the primary for the
node the result is linked to, and for an intersection those of all children in order. -/
def row : Query → Ref → List (String × Ref)
  | .all frame .., r | .fixed frame .., r => frame.tags.row r
  | .position scan, r => scan.frame.tags.row r
  | .links frame _ _ direction primary _ _, r =>
    frame.tags.row r ++ r.asQuad?.elim [] fun key => primary.row (.node (key.get direction))
  | .inter frame children _ _, r => frame.tags.row r ++ rowAll children r

def rowAll : List Query → Ref → List (String × Ref)
  | [], _ => []
  | q :: rest, r => q.row r ++ rowAll rest r

end

theorem rowAll_eq (qs : List Query) (r : Ref) : rowAll qs r = qs.flatMap fun q => q.row r := by
  induction qs with
  | nil => rfl
  | cons q rest ih => rw [rowAll, ih, List.flatMap_cons]

theorem row_reset (q : Query) (r : Ref) : q.reset.row r = q.row r := by
  induction q using induct generalizing r with
  | all | fixed | position => rfl
  | links frame handle pageSize direction primary inner snapshot ih =>
    unfold reset row
    simp only [ih]
    rfl
  | inter frame children driver snapshot ih =>
    unfold reset row
    rw [resetAll_eq, rowAll_eq, rowAll_eq, List.flatMap_map]
    exact congrArg _ (List.flatMap_congr fun q hq => ih q hq r)

theorem bind_frame {frame : Frame} (h : frame.result = some r) (b : Bindings) :
    frame.bind b = b.write (frame.tags.row r) := by
  unfold Frame.bind
  rw [h, Tags.bind_eq_write]

theorem bindAll_eq_rowAll {qs : List Query} (h : ∀ q ∈ qs, ∀ b, q.bind b = Bindings.write b (q.row r))
    (b : Bindings) : bindAll qs b = b.write (rowAll qs r) := by
  induction qs generalizing b with
  | nil => rfl
  | cons q rest ih =>
    obtain ⟨hq, hrest⟩ := List.forall_mem_cons.1 h
    unfold bindAll rowAll
    rw [ih hrest, hq, Bindings.write_append]

/-- A tree whose paths belong to a result binds the row of the result. -/
theorem Settled.bind_eq_write (h : Settled r q) (b : Bindings) : q.bind b = b.write (q.row r) := by
  induction h generalizing b with
  | all h | fixed h | position h => exact bind_frame h b
  | links h _ ih =>
    unfold bind row
    rw [ih, bind_frame h, Bindings.write_append]
    rfl
  | inter h _ ih =>
    unfold bind row
    rw [bindAll_eq_rowAll ih, bind_frame h, Bindings.write_append]

/-! ## Results of a pass -/

theorem Pass.yields {results : List Ref} {last : Query} (h : Pass disk q results last)
    (hr : r ∈ results) : ∃ q', Yields disk q r q' := by
  induction h with
  | ended => cases hr
  | found hnext _ ih =>
    rcases List.mem_cons.1 hr with rfl | hr
    · exact ⟨_, .now hnext⟩
    · obtain ⟨q', hq'⟩ := ih hr
      exact ⟨q', .later hnext hq'⟩

/-- What a pass yields is what the tree means. -/
theorem Fresh.yields_iff (hc : c.Sound) (hview : disk.view handle = .ok c) (h : Fresh handle q) :
    (∃ q', Yields disk q r q') ↔ q.member c r = true := by
  constructor
  · rintro ⟨q', hq'⟩
    exact (Reaches.found hq').settled hc hview h |>.1
  · intro hmember
    obtain ⟨results, last, hpass, -, hresults⟩ := h.pass hc hview
    exact hpass.yields ((hresults r).2 ((member_iff hc).1 hmember))

theorem Reaches.bind_eq_write (hc : c.Sound) (hview : disk.view handle = .ok c)
    (hq : Fresh handle q) (h : Reaches disk q r q') (b : Bindings) :
    q'.bind b = b.write (q.reset.row r) := by
  obtain ⟨-, hsettled, hreset⟩ := h.settled hc hview hq
  rw [hsettled.bind_eq_write, ← row_reset, hreset]

end Query

/-! ## Rows of trees put together -/

/-- Let `q₀` be a tree that was put together, before its pass: its intersections may have chosen any
drivers, and its parts may hold any results that they were asked for. A result that its pass yields is
one that a copy confirms, and with either the row of the result is bound. -/
theorem Store.Reached.bind_eq_row {store : Store} {disk : Disk} {q q₀ : Query}
    (h : store.Reached disk) (hq : q.Built store.handle) (hfresh : q₀.Fresh store.handle)
    (hsame : q₀.reset = q) (r : Ref) :
    ((∃ q', Query.Yields disk q₀ r q') ↔ (q₀.copy.contains disk r).1 = .ok true) ∧
      (∀ q', Query.Yields disk q₀ r q' → ∀ b, q'.bind b = Bindings.write b (q.row r)) ∧
        ∀ q', q₀.copy.contains disk r = (.ok true, q') →
          ∀ b, q'.bind b = Bindings.write b (q.row r) := by
  obtain ⟨c, hview, hc⟩ := h.sound
  have hcopy : q₀.copy = q := (Query.copy_eq_reset q₀).trans hsame
  rw [hcopy]
  refine ⟨?_, fun q' hyields b => ?_, fun q' hanswer b => ?_⟩
  · obtain ⟨q', hanswer, -⟩ := Query.contains_spec hc hview (.fresh hq.fresh) r
    have hmember : q₀.member c r = q.member c r := by
      rw [← Query.member_reset, hsame]
    rw [hfresh.yields_iff hc hview, hmember, hanswer]
    exact ⟨fun h => congrArg Except.ok h, Except.ok.inj⟩
  · have hbind := (Query.Reaches.found hyields).bind_eq_write hc hview hfresh b
    rwa [hsame] at hbind
  · have hbind := (Query.Reaches.confirmed .start hanswer).bind_eq_write hc hview hq.fresh b
    rwa [hq.reset_eq] at hbind

theorem Store.bind_eq_row_first_quad : ∃ (store : Store) (disk : Disk),
    Store.create {} "db" {} = .ok (store, disk) ∧
      let now := store.after disk (.add {} ⟨"alice", "follows", "bob", ""⟩)
      let children := [(Query.quads store.handle 0).mapTags (·.add "quad"),
        .linksTo store.handle 7 ((Query.ofList [.node ⟨1⟩]).mapTags (·.add "who")) .subject]
      let q₀ := Query.inter {} children (some 1) none
      let r := Ref.quad ⟨⟨1⟩, ⟨2⟩, ⟨3⟩, ⟨0⟩⟩
      (q₀.copy.contains now r).1 = .ok true ∧ ∃ q', Query.Yields now q₀ r q' ∧
        ∀ b, q'.bind b = Bindings.write b [("quad", r), ("who", .node ⟨1⟩)] := by
  have hcreate : Store.create {} "db" {} = .ok (_, _) := rfl
  refine ⟨_, _, hcreate, ?_⟩
  intro now children q₀ r
  have hreached : Store.Reached _ now := .wrote _ (.created hcreate) (admitsOne_created hcreate)
  have hchildren : ∀ q ∈ children, q.Built _ := List.forall_mem_cons.2
    ⟨.mapTags _ (.quads 0), List.forall_mem_singleton.2 (.linksTo 7 _ (.mapTags _ (.ofList _)))⟩
  have hfresh : q₀.Fresh _ := .inter rfl (by decide) fun q hq => (hchildren q hq).fresh
  obtain ⟨hyielded, hbind, -⟩ := hreached.bind_eq_row (.both hchildren) hfresh rfl r
  have hcontains : (q₀.copy.contains now r).1 = .ok true := by decide +kernel
  obtain ⟨q', hq'⟩ := hyielded.2 hcontains
  exact ⟨hcontains, q', hq', hbind q' hq'⟩

end GraphStore
