import GraphStore.Proofs.Checking
import GraphStore.Simulation.Run

/-!
# Simulated runs

* `Generator.next_mem_values` : generated quads hold values of the pools;
* `Contents.NamesWithin` : only values of a list are interned, so that ids do not run out;
* `Model.after`, `Tally.after` : what an operation does to the model and the tally;
* `SimulationState.Accords` : what holds after every operation, however the dice fall;
* `SimulationState.Accords.write_eq` : a write of the simulation does what the model tells;
* `simulate_accords` : a run finds no difference, and its tally adds up.
-/

namespace GraphStore

/-! ## What is generated -/

namespace Dice

theorem mem_of_pick? {α : Type} {dice dice' : Dice} {items : List α} {item : α}
    (h : dice.pick? items = (some item, dice')) : item ∈ items :=
  List.mem_of_getElem? (congrArg Prod.fst h)

theorem pick_mem (dice : Dice) {items : List String} (h : items ≠ []) :
    (dice.pick items).1 ∈ items := by
  have hlt : dice.draws.place dice.used items.length % items.length < items.length :=
    Nat.mod_lt _ (List.length_pos_iff.2 h)
  change (items[_]?).getD "" ∈ items
  rw [List.getElem?_eq_getElem hlt]
  exact List.getElem_mem hlt

end Dice

namespace Generator

variable {config : OperationConfig} {live : List Quad}

theorem nodes_ne_nil (config : OperationConfig) : nodes config ≠ [] := by
  unfold nodes
  simp only [ne_eq, List.map_eq_nil_iff, List.range_eq_nil]
  omega

theorem length_values (config : OperationConfig) :
    (values config).length = max config.poolSize 1 + 5 := by
  simp [values, nodes, predicates, labels]

theorem mem_values_of_node {v : String} (h : v ∈ nodes config) : v ∈ values config := by
  simp [values, h]

theorem mem_values_of_predicate {v : String} (h : v ∈ predicates) : v ∈ values config := by
  simp [values, h]

theorem mem_values_of_label {v : String} (h : v ∈ labels) : v ∈ values config := by
  simp [values, h]

theorem empty_mem_values (config : OperationConfig) : "" ∈ values config := by
  simp [values]

theorem quad_mem_values (config : OperationConfig) (dice : Dice) (d : Direction) :
    (quad config dice).1.get d ∈ values config := by
  have hempty := empty_mem_values config
  have hnode (dice : Dice) : (dice.pick (nodes config)).1 ∈ values config :=
    mem_values_of_node (dice.pick_mem (nodes_ne_nil config))
  have hpredicate (dice : Dice) : (dice.pick predicates).1 ∈ values config :=
    mem_values_of_predicate (dice.pick_mem (by decide))
  have hlabel (dice : Dice) : (dice.pick labels).1 ∈ values config :=
    mem_values_of_label (dice.pick_mem (by decide))
  unfold quad
  simp only
  -- Whatever the three coins show, each value was picked from its pool or is empty.
  split <;> split <;> try split
  all_goals cases d
  all_goals first
    | exact hempty
    | exact hnode _
    | exact hpredicate _
    | exact hlabel _

theorem target_mem_values (hlive : ∀ q ∈ live, ∀ d, q.get d ∈ values config) (dice : Dice)
    (d : Direction) : (target config live dice).1.get d ∈ values config := by
  unfold target
  split
  · exact quad_mem_values config dice d
  · simp only
    split
    · split
      · next h => exact hlive _ (Dice.mem_of_pick? h) d
      · exact quad_mem_values config _ d
    · exact quad_mem_values config _ d

theorem next_mem_values {generator : Generator}
    (hlive : ∀ q ∈ live, ∀ d, q.get d ∈ values generator.config) (d : Direction) :
    (generator.next live).1.quad.get d ∈ values generator.config := by
  unfold next
  simp only
  split
  · exact target_mem_values hlive _ d
  · exact quad_mem_values _ _ d

theorem config_next (generator : Generator) (live : List Quad) :
    (generator.next live).2.config = generator.config := by
  unfold next
  simp only
  split <;> rfl

end Generator

/-! ## Values of a pool -/

namespace Contents

variable {c c' : Contents} {q : Quad} {kind : ChangeKind} {tick : Bool} {pool : List String}
  {v : String}

def NamesWithin (c : Contents) (pool : List String) : Prop :=
  ∀ v id, c.ids.get? v = some id → v ∈ pool

theorem namesWithin_empty (pool : List String) : NamesWithin {} pool := nofun

namespace NamesWithin

theorem congr (h : c.NamesWithin pool) (hsame : c.SameNames c') : c'.NamesWithin pool := by
  intro v id hv
  rw [hsame.ids] at hv
  exact h v id hv

theorem intern (h : c.NamesWithin pool) (hv : v ∈ pool) : (c.intern v).2.NamesWithin pool := by
  cases hid : c.idOf? v with
  | some id =>
    rw [intern_of_some hid]
    exact h
  | none =>
    intro w id hw
    rw [intern_of_none hid, Table.get?_insert] at hw
    split at hw
    · next e => exact e ▸ hv
    · exact h w id hw

theorem internQuad (h : c.NamesWithin pool) (hq : ∀ d, q.get d ∈ pool) :
    (c.internQuad q).2.NamesWithin pool :=
  (((h.intern (hq .subject)).intern (hq .predicate)).intern (hq .object)).intern (hq .label)

theorem apply {r : Change × Contents} (h : c.NamesWithin pool) (hq : ∀ d, q.get d ∈ pool)
    (happly : c.apply kind q tick = .ok r) : (Store.settled c r).NamesWithin pool := by
  cases kind with
  | remove => exact h.congr (sameNames_apply_remove happly)
  | add =>
    rcases settled_of_apply happly with hsame | ⟨effect, c', hadd, hnames⟩
    · rw [hsame]
      exact h
    · exact ((h.internQuad hq).congr (sameNames_addQuad hadd)).congr hnames

end NamesWithin

/-- No more ids are assigned than there are values in the pool. -/
theorem Naming.nextId_le (hc : c.Naming) (h : c.NamesWithin pool) :
    c.nextId.val.toNat ≤ pool.length + 1 := by
  have hlt : c.nextId.val.toNat < 2 ^ 64 := c.nextId.val.toNat_lt
  let id (i : Nat) : NodeId := ⟨.ofNat (i + 1)⟩
  have hid : ∀ i ∈ List.range (c.nextId.val.toNat - 1), (id i).val.toNat = i + 1 := by
    intro i hi
    rw [List.mem_range] at hi
    exact Nat.mod_eq_of_lt (by omega)
  have hname : ∀ i ∈ List.range (c.nextId.val.toNat - 1), ∃ v, c.ids.get? v = some (id i) := by
    intro i hi
    have hassigned : (c.names.get? (id i)).isSome = true := by
      rw [hc.assigned, UInt64.lt_iff_toNat_lt, UInt64.lt_iff_toNat_lt, hid i hi]
      rw [List.mem_range] at hi
      exact ⟨Nat.succ_pos i, by omega⟩
    obtain ⟨v, hv⟩ := Option.isSome_iff_exists.1 hassigned
    exact ⟨v, (hc.inverse v _).2 hv⟩
  choose! name hget using hname
  -- Different ids have different names, all of them from the pool.
  have hnodup : ((List.range (c.nextId.val.toNat - 1)).map name).Nodup := by
    refine List.nodup_range.map_on fun i hi j hj hsame => ?_
    have hi' := hget i hi
    rw [hsame, hget j hj] at hi'
    have hids := hid j hj
    rw [Option.some.inj hi', hid i hi] at hids
    omega
  have hsubset : (List.range (c.nextId.val.toNat - 1)).map name ⊆ pool := by
    intro v hv
    obtain ⟨i, hi, rfl⟩ := List.mem_map.1 hv
    exact h _ _ (hget i hi)
  have hle := (hnodup.subperm hsubset).length_le
  rw [List.length_map, List.length_range] at hle
  omega

theorem NamesWithin.of_holds (h : c.NamesWithin pool) (hempty : "" ∈ pool) (hq : c.Holds q)
    (d : Direction) : q.get d ∈ pool := by
  obtain ⟨key, hkey, -⟩ := hq
  have hid := keyOf?_eq_some_iff_get.1 hkey d
  unfold idOf? at hid
  split at hid
  · next e =>
    rw [e]
    exact hempty
  · exact h _ _ hid

end Contents

/-! ## What an operation does to the model -/

def Operation.call : Operation → Store.WriteCall
  | .add q => .add {} q
  | .remove q => .remove {} q

/-- The model after an operation. A quad that is not valid leaves it as it is. -/
def Model.after (m : Model) (op : Operation) : Model :=
  if op.quad.isValid then
    match op with
    | .add q => (m.add q).2
    | .remove q => (m.remove q).2
  else m

def Tally.after (tally : Tally) (m : Model) (op : Operation) : Tally :=
  if op.quad.isValid then
    match op, m.contains op.quad with
    | .add _, false => { tally with added := tally.added + 1 }
    | .remove _, true => { tally with removed := tally.removed + 1 }
    | _, _ => { tally with noops := tally.noops + 1 }
  else { tally with rejected := tally.rejected + 1 }

section Tally

variable {tally : Tally} {m : Model} {op : Operation}

theorem Tally.total_after : (tally.after m op).total = tally.total + 1 := by
  unfold Tally.after Tally.total
  split
  · split <;> simp only <;> omega
  · simp only
    omega

/-- The quads added but not removed are as many as are live. -/
theorem Tally.size_after (h : m.quads.size + tally.removed = tally.added) :
    (m.after op).quads.size + (tally.after m op).removed = (tally.after m op).added := by
  unfold Tally.after Model.after
  split
  · cases op with
    | add q =>
      cases hq : m.contains q with
      | false =>
        have hsize := SortedSet.size_add (s := m.quads) hq
        simp only [Operation.quad, hq, Model.add, hsize]
        omega
      | true =>
        have hsame := SortedSet.add_of_contains (s := m.quads) hq
        simp only [Operation.quad, hq, Model.add, hsame]
        exact h
    | remove q =>
      cases hq : m.contains q with
      | false =>
        have hsame := Table.erase_of_not_contains (t := m.quads) hq
        simp only [Operation.quad, hq, Model.remove, hsame]
        exact h
      | true =>
        have hsize := SortedSet.size_erase (s := m.quads) hq
        simp only [Operation.quad, hq, Model.remove]
        omega
  · exact h

/-- The horizon moves with every operation but the rejected ones. -/
theorem Tally.horizon_after (hlt : m.horizon.val.toNat + 1 < 2 ^ 64) :
    (m.after op).horizon.val.toNat + (tally.after m op).rejected =
      m.horizon.val.toNat + tally.rejected + 1 := by
  have hnext := Horizon.toNat_next hlt
  unfold Tally.after Model.after
  split
  · cases op with
    | add q =>
      cases hq : m.contains q <;> simp [Operation.quad, hq, Model.add, hnext] <;> omega
    | remove q =>
      cases hq : m.contains q <;> simp [Operation.quad, hq, Model.remove, hnext] <;> omega
  · simp only
    omega

end Tally

/-! ## What an operation does to the store -/

section Write

variable {s : SimulationState} {q : Quad}

/-- An add is answered as the model has it, and the store then stands for the model after it. -/
theorem SimulationState.write_add (h : s.store.AddsAs s.disk s.model {} q) (n : Nat) :
    s.write n (.add q) = { s with
      disk := s.store.after s.disk (.add {} q)
      model := s.model.after (.add q)
      tally := s.tally.after s.model (.add q) } ∧
    s.store.model (s.store.after s.disk (.add {} q)) = .ok (s.model.after (.add q)) := by
  unfold SimulationState.write Model.after Tally.after Store.after
  cases hvalid : q.isValid with
  | false =>
    have hadd := h.invalid.2 hvalid
    refine ⟨?_, ?_⟩
    · simp [hadd, hvalid, Operation.quad, reject, WriteError.storeError?, Store.answered]
    · simpa [hvalid, Operation.quad, Store.after] using h.rejected _ hadd
  | true =>
    cases hq : s.model.contains q with
    | false =>
      obtain ⟨horizon, disk', hadd⟩ := h.added.2 ⟨hvalid, hq⟩
      refine ⟨?_, ?_⟩
      · simp [hadd, hvalid, hq, Operation.quad, Model.add, Store.answered]
      · simpa [hadd, hvalid, Operation.quad, Store.answered] using h.accepted _ _ hadd
    | true =>
      obtain ⟨horizon, disk', hadd⟩ := (h.duplicate rfl).2 hq
      refine ⟨?_, ?_⟩
      · simp [hadd, hvalid, hq, Operation.quad, Model.add, Store.answered]
      · simpa [hadd, hvalid, Operation.quad, Store.answered] using h.accepted _ _ hadd

theorem SimulationState.write_remove (h : s.store.RemovesAs s.disk s.model {} q) (n : Nat) :
    s.write n (.remove q) = { s with
      disk := s.store.after s.disk (.remove {} q)
      model := s.model.after (.remove q)
      tally := s.tally.after s.model (.remove q) } ∧
    s.store.model (s.store.after s.disk (.remove {} q)) = .ok (s.model.after (.remove q)) := by
  unfold SimulationState.write Model.after Tally.after Store.after
  cases hvalid : q.isValid with
  | false =>
    have hremove := h.invalid.2 hvalid
    refine ⟨?_, ?_⟩
    · simp [hremove, hvalid, Operation.quad, reject, WriteError.storeError?, Store.answered]
    · simpa [hvalid, Operation.quad, Store.after] using h.rejected _ hremove
  | true =>
    cases hq : s.model.contains q with
    | false =>
      obtain ⟨horizon, disk', hremove⟩ := (h.missing rfl).2 ⟨hvalid, hq⟩
      refine ⟨?_, ?_⟩
      · simp [hremove, hvalid, hq, Operation.quad, Model.remove, Store.answered]
      · simpa [hremove, hvalid, Operation.quad, Store.answered] using h.accepted _ _ hremove
    | true =>
      obtain ⟨horizon, disk', hremove⟩ := h.removed.2 hq
      refine ⟨?_, ?_⟩
      · simp [hremove, hvalid, hq, Operation.quad, Model.remove, Store.answered]
      · simpa [hremove, hvalid, Operation.quad, Store.answered] using h.accepted _ _ hremove

end Write

/-! ## Runs -/

namespace SimulationState

variable {s : SimulationState} {config : OperationConfig} {n count : Nat} {op : Operation}

@[simp] theorem found_nil (s : SimulationState) (k : Nat) : s.found k [] = s := by
  simp [found]

/-- The state after a number of operations: the store was only written to and stands for the model,
and the tally adds up. -/
structure Accords (config : OperationConfig) (n : Nat) (s : SimulationState) : Prop where
  settings : s.generator.config = config
  reached : s.store.Reached s.disk
  model : s.store.model s.disk = .ok s.model
  names : ∀ c, s.disk.view s.store.handle = .ok c → c.NamesWithin (Generator.values config)
  quiet : s.violations = []
  total : s.tally.total = n
  live : s.model.quads.size + s.tally.removed = s.tally.added
  clock : s.model.horizon.val.toNat + s.tally.rejected = n

namespace Accords

theorem exists_view (h : s.Accords config n) : ∃ c, s.disk.view s.store.handle = .ok c ∧ c.Sound ∧
    s.model = c.model := by
  obtain ⟨c, hview, hc⟩ := h.reached.sound
  have hmodel := h.model
  rw [Store.model_of_view hview] at hmodel
  exact ⟨c, hview, hc, (Except.ok.inj hmodel).symm⟩

theorem live_mem_values (h : s.Accords config n) :
    ∀ q ∈ s.model.quads.keys, ∀ d, q.get d ∈ Generator.values config := by
  intro q hq d
  obtain ⟨c, hview, hc, hmodel⟩ := h.exists_view
  rw [hmodel, Table.mem_keys] at hq
  exact (h.names c hview).of_holds (Generator.empty_mem_values config) (hc.contains_model.1 hq) d

/-- Neither horizons nor ids run out. -/
theorem admits (h : s.Accords config n) (hn : n + 1 < 2 ^ 64) (hpool : config.poolSize < 2 ^ 63)
    (op : Operation) : s.store.Admits s.disk op.call := by
  obtain ⟨c, hview, hc, hmodel⟩ := h.exists_view
  have hhorizon : (c.counter .horizon).toNat + 1 < 2 ^ 64 := by
    have hclock := h.clock
    rw [hmodel] at hclock
    change (c.counter .horizon).toNat + _ = n at hclock
    omega
  have hids := hc.naming.nextId_le (h.names c hview)
  rw [Generator.length_values] at hids
  have hadmits (kind : ChangeKind) (q : Quad) : s.store.AdmitsOne s.disk kind q := by
    intro _ c' hview'
    obtain rfl : c = c' := Except.ok.inj (hview.symm.trans hview')
    refine ⟨hhorizon, fun _ => Contents.roomFor_of_lt ?_⟩
    rw [Quad.values, List.length_map]
    change _ + 4 < _
    omega
  cases op with
  | add q => exact hadmits .add q
  | remove q => exact hadmits .remove q

theorem checkCounters_eq (h : s.Accords config n) : checkCounters s.store s.disk s.model = [] := by
  obtain ⟨c, hview, hc, hmodel⟩ := h.exists_view
  rw [hmodel]
  exact checkCounters_model hview hc

theorem compareContents_eq (h : s.Accords config n) (k : Nat) : s.compareContents k = s := by
  obtain ⟨c, hview, hc, hmodel⟩ := h.exists_view
  have hpasses := checkContents_model hview hc (Generator.values s.generator.config)
  rw [← hmodel] at hpasses
  unfold compareContents
  rw [hpasses, found_nil]

/-- A write does to a state what the model tells. -/
theorem write_eq (h : s.Accords config n) (hadmits : s.store.Admits s.disk op.call) (k : Nat) :
    s.write k op = { s with
      disk := s.store.after s.disk op.call
      model := s.model.after op
      tally := s.tally.after s.model op } ∧
    s.store.model (s.store.after s.disk op.call) = .ok (s.model.after op) := by
  obtain ⟨c, hview, hc, hmodel⟩ := h.exists_view
  cases op with
  | add q =>
    have hadds := Store.addsAs_model hview hc hadmits {}
    rw [← hmodel] at hadds
    exact write_add hadds k
  | remove q =>
    have hremoves := Store.removesAs_model hview hc hadmits {}
    rw [← hmodel] at hremoves
    exact write_remove hremoves k

/-- No write interns a value that is not in the pools. -/
theorem names_after (h : s.Accords config n) (hop : ∀ d, op.quad.get d ∈ Generator.values config)
    {c : Contents} (hview : (s.store.after s.disk op.call).view s.store.handle = .ok c) :
    c.NamesWithin (Generator.values config) := by
  obtain ⟨c₀, hview₀, -, -⟩ := h.exists_view
  have hkeeps {kind : ChangeKind} {tick : Bool} {disk : Disk}
      (hsettles : s.store.Settles s.disk c₀ kind op.quad tick disk)
      (hview : disk.view s.store.handle = .ok c) : c.NamesWithin (Generator.values config) := by
    cases hsettles with
    | refused => exact h.names c hview
    | @wrote r _ happly =>
      rw [Store.view_settled hview₀] at hview
      cases hview
      exact (h.names c₀ hview₀).apply hop happly
  cases op with
  | add q => exact hkeeps (Store.settles_add hview₀ {} q) hview
  | remove q => exact hkeeps (Store.settles_remove hview₀ {} q) hview

theorem write (h : s.Accords config n) (hn : n + 1 < 2 ^ 64) (hpool : config.poolSize < 2 ^ 63)
    (hop : ∀ d, op.quad.get d ∈ Generator.values config) (k : Nat) :
    (s.write k op).Accords config (n + 1) := by
  have hadmits := h.admits hn hpool op
  obtain ⟨hwrite, hmodel⟩ := h.write_eq hadmits k
  rw [hwrite]
  refine ⟨h.settings, .wrote _ h.reached hadmits, hmodel, fun _ => h.names_after hop, h.quiet, ?_,
    Tally.size_after h.live, ?_⟩
  · rw [Tally.total_after, h.total]
  · have hclock := h.clock
    rw [Tally.horizon_after (by omega), hclock]

/-- An operation and the checks that follow it keep the state as it should be. -/
theorem step (h : s.Accords config n) (hn : n + 1 < 2 ^ 64) (hpool : config.poolSize < 2 ^ 63)
    (interval k : Nat) : (s.step interval k).Accords config (n + 1) := by
  have hsettings := h.settings
  subst hsettings
  have hop := Generator.next_mem_values h.live_mem_values
  have hconfig := s.generator.config_next s.model.quads.keys
  unfold SimulationState.step
  generalize s.generator.next s.model.quads.keys = drawn at hop hconfig
  obtain ⟨op, generator⟩ := drawn
  simp only at hop hconfig ⊢
  have hdrawn : Accords s.generator.config n { s with generator } := { h with settings := hconfig }
  have hwrote := hdrawn.write hn hpool hop k
  -- The checks find nothing, and leave the state as the write did.
  rw [hwrote.checkCounters_eq, found_nil, hwrote.compareContents_eq, ite_self]
  exact hwrote

theorem steps (h : s.Accords config n) (hn : n + count < 2 ^ 64)
    (hpool : config.poolSize < 2 ^ 63) (interval k : Nat) :
    (SimulationState.steps interval k count s).Accords config (n + count) := by
  induction count generalizing s n k with
  | zero => exact h
  | succ count ih =>
    have hstep := h.step (by omega) hpool interval k
    have hrest := ih hstep (by omega) (k + 1)
    rw [Nat.add_right_comm] at hrest
    exact hrest

end Accords

end SimulationState

/-- A run finds no difference between the store and the model, whatever is generated and however the
dice fall: the store stands for the model at its end, every operation is counted once, the quads added
but not removed are live, and all operations but the rejected ones have moved the horizon. Operations
are numbered in a word, and the pool fits into memory. -/
theorem simulate_accords (config : SimulationConfig) (draws : Draws) (count : Nat)
    (hcount : count < 2 ^ 64) (hpool : config.operations.poolSize < 2 ^ 63) :
    ∃ s, simulate config draws count = .ok s ∧ s.violations = [] ∧
      s.tally.total = count ∧
      s.model.quads.size + s.tally.removed = s.tally.added ∧
      s.model.horizon.val.toNat + s.tally.rejected = count ∧
      s.store.model s.disk = .ok s.model := by
  obtain ⟨store, disk, hcreate⟩ : ∃ store disk,
      Store.create {} "quads" (({} : Config).withPageSize config.pageSize) = .ok (store, disk) :=
    ⟨_, _, rfl⟩
  let start : SimulationState :=
    { store, disk, generator := .ofDraws config.operations draws }
  have hstart : start.Accords config.operations 0 := by
    refine ⟨rfl, .created hcreate, ?_, fun c hview => ?_, rfl, rfl, rfl, rfl⟩
    · rw [Store.model_of_view (Store.view_create hcreate)]
      rfl
    · rw [Store.view_create hcreate] at hview
      cases hview
      exact Contents.namesWithin_empty _
  have hend : (start.steps config.checkInterval 0 count).Accords config.operations (0 + count) :=
    hstart.steps (by omega) hpool config.checkInterval 0
  rw [Nat.zero_add] at hend
  refine ⟨_, ?_, hend.quiet, hend.total, hend.live, hend.clock, hend.model⟩
  unfold simulate
  rw [hcreate]
  exact congrArg Except.ok (hend.compareContents_eq count)

/-- A run over a pool of one value and pages of no size, in which every fourth coin shows heads. -/
theorem simulate_accords_small : ∃ s,
    simulate { operations := { poolSize := 1 }, pageSize := 0, checkInterval := 2 }
      ⟨fun draw _ => decide (draw % 4 = 3), fun draw bound => draw % bound⟩ 8 = .ok s ∧
    s.violations = [] ∧ s.tally.total = 8 ∧
    s.model.quads.size + s.tally.removed = s.tally.added ∧
    s.model.horizon.val.toNat + s.tally.rejected = 8 ∧
    s.store.model s.disk = .ok s.model :=
  simulate_accords _ _ 8 (by decide) (by decide)

end GraphStore
