import GraphStore.Check
import GraphStore.Proofs.Interning
import GraphStore.Proofs.Optimize
import GraphStore.Proofs.Refinement

/-!
# Checks of a store against the model

* `Query.Fresh.gatherAll` : reading off all results of a tree ends, and reads off each of them once;
* `mergeSort_eq_of_perm` : lists with the same members are the same once they are sorted;
* `Check.quadsOf_eq`, `Check.refsOf_optimize` : what the scans of a check yield;
* `Check.Passes` : a check that finds nothing, however it was put together;
* `checkCounters_model`, `checkContents_model` : sound contents pass both checks against the model
  they stand for.
-/

namespace GraphStore

variable {store : Store} {disk : Disk} {handle : Handle} {c : Contents}

/-! ## Sorted lists -/

section Sorting

variable {α : Type} [Ord α] [Std.TransOrd α]

theorem mergeSort_pairwise (l : List α) :
    (l.mergeSort fun a b => (compare a b).isLE).Pairwise fun a b => (compare a b).isLE = true := by
  refine List.pairwise_mergeSort ?_ ?_ l
  · intro a b d hab hbd
    exact @Std.TransCmp.isLE_trans α compare _ a b d hab hbd
  · intro a b
    have hswap := @Std.OrientedCmp.eq_swap α compare _ a b
    rw [hswap]
    cases compare b a <;> rfl

theorem mergeSort_eq_of_perm [Std.LawfulEqOrd α] {l l' : List α} (h : l.Perm l')
    (hsorted : l'.Pairwise fun a b => (compare a b).isLE = true) :
    (l.mergeSort fun a b => (compare a b).isLE) = l' := by
  refine List.Perm.eq_of_pairwise (fun a b _ _ hab hba => ?_) (mergeSort_pairwise l) hsorted
    ((List.mergeSort_perm l _).trans h)
  have hswap := @Std.OrientedCmp.eq_swap α compare _ a b
  refine Std.LawfulEqOrd.eq_of_compare ?_
  rw [hswap] at hab ⊢
  cases hba' : compare b a <;> simp_all

end Sorting

/-! ## Reading off results -/

namespace Query

variable {q last : Query} {results : List Ref} {r : Ref}

/-- There are no more results than the tree has room for. -/
theorem length_upcoming_le (hc : c.Sound) (hview : disk.view handle = .ok c)
    (hkeeps : Over (Keeps handle c) handle q) (hwf : q.WellFormed) :
    (q.upcoming c c).length ≤ q.supplyIn c := by
  induction hlist : q.upcoming c c generalizing q with
  | nil => exact Nat.zero_le _
  | cons r tail ih =>
    have hstepped := next_spec hc hview hkeeps hwf
    generalize q.next disk = out at hstepped
    cases hstepped with
    | found h =>
      have hcons := h.upcoming
      rw [hlist] at hcons
      cases hcons
      have hle := ih h.keeps h.wellFormed rfl
      have hlt := h.supply
      rw [List.length_cons]
      omega
    | ended h =>
      have hnil := h.upcoming
      rw [hlist] at hnil
      cases hnil

/-- Reading off the results of a pass, with time enough, reads off each of them. -/
theorem gather_pass {α : Type} {read : Query → Ref → Except StoreError α} {f : Ref → α}
    (h : Pass disk q results last) (hread : ∀ q, ∀ r ∈ results, read q r = .ok (f r)) {limit : Nat}
    (hlimit : results.length < limit) :
    gather disk read limit q = (.ok (results.map f), last) := by
  induction h generalizing limit with
  | ended hnext =>
    obtain ⟨n, rfl⟩ := Nat.exists_eq_succ_of_ne_zero (Nat.ne_of_gt hlimit)
    rw [Nat.succ_eq_add_one, gather, hnext]
    rfl
  | @found q q' last r results hnext _ ih =>
    obtain ⟨n, rfl⟩ := Nat.exists_eq_succ_of_ne_zero (Nat.ne_zero_of_lt hlimit)
    have hrest : gather disk read n q' = (.ok (results.map f), last) :=
      ih (fun q p hp => hread q p (List.mem_cons_of_mem _ hp)) (Nat.lt_of_succ_lt_succ hlimit)
    rw [Nat.succ_eq_add_one, gather, hnext]
    simp only
    rw [hread q' r List.mem_cons_self, hrest]
    rfl

/-- What is read off all results of a tree is read off each once. -/
theorem Fresh.gatherAll {α : Type} {read : Query → Ref → Except StoreError α} {f : Ref → α}
    (hc : c.Sound) (hview : disk.view handle = .ok c) (h : Fresh handle q)
    (hread : ∀ q', ∀ r, q.Denotes c r → read q' r = .ok (f r)) :
    ∃ results : List Ref, results.Nodup ∧ (∀ r, r ∈ results ↔ q.Denotes c r) ∧
      (q.gatherAll disk read).1 = .ok (results.map f) := by
  obtain ⟨⟨last, hpass⟩, hnodup, hresults⟩ := h.pass_begun hc hview
  obtain ⟨-, hwf, hkeeps⟩ := h.begun c
  refine ⟨_, hnodup, hresults, ?_⟩
  have hsupply : (q.begun ⟨handle, c⟩).supplyIn c = q.supplyIn c := (bounds_begun c _ q).1
  have hlength := length_upcoming_le hc hview hkeeps hwf
  unfold Query.gatherAll
  rw [(h.bounds hc hview).1,
    gather_pass hpass (fun q' r hr => hread q' r ((hresults r).1 hr)) (by omega)]

end Query

/-! ## Scans of a check -/

theorem Store.quad_eq {key : QuadKey} {q : Quad} (hview : disk.view store.handle = .ok c)
    (hlive : c.isLive key = true) (hq : c.quadOf? key = some q) :
    store.quad disk (.quad key) = .ok q := by
  have hname (d : Direction) : Store.nameIn c (key.get d) = .ok (q.get d) := by
    unfold Store.nameIn
    rw [Contents.quadOf?_eq_some_iff_get.1 hq d]
  have hs : Store.nameIn c key.subject = .ok q.subject := hname .subject
  have hp : Store.nameIn c key.predicate = .ok q.predicate := hname .predicate
  have ho : Store.nameIn c key.object = .ok q.object := hname .object
  have hl : Store.nameIn c key.label = .ok q.label := hname .label
  unfold Store.quad Store.quadIn
  simp only [hview, bind, Except.bind, hlive, if_true, hs, hp, ho, hl]
  rfl

/-- A value that was never interned is in no live quad. -/
theorem Contents.Sound.contains_degrees_eq_false (hc : c.Sound) {v : String}
    (hid : c.idOf? v = none) : c.model.degrees.contains v = false := by
  refine Bool.eq_false_iff.2 fun hv => ?_
  obtain ⟨q, hq, hmem⟩ := Model.contains_degrees.1 hv
  obtain ⟨key, hkey, -⟩ := hc.contains_model.1 hq
  obtain ⟨d, rfl⟩ := Quad.mem_values.1 (Quad.mem_members.1 hmem).1
  rw [Contents.keyOf?_eq_some_iff_get.1 hkey d] at hid
  cases hid

namespace Check

variable {q : Query} {p : Quad → Bool}

def Selects (c : Contents) (q : Query) (p : Quad → Bool) : Prop :=
  ∀ r, q.Denotes c r ↔ ∃ key x, r = .quad key ∧ c.isLive key = true ∧ c.quadOf? key = some x ∧
    p x = true

/-- A scan of live quads yields those of the model, in order. -/
theorem quadsOf_eq (hc : c.Sound) (hview : disk.view store.handle = .ok c)
    (hq : q.Fresh store.handle) (hp : Selects c q p) :
    quadsOf store disk q = .ok (c.model.quads.keys.filter p) := by
  let f : Ref → Quad := fun r => (r.asQuad?.bind c.quadOf?).getD default
  have hquad {key : QuadKey} {x : Quad} (hx : c.quadOf? key = some x) : f (.quad key) = x := by
    change (c.quadOf? key).getD default = x
    rw [hx]
    rfl
  have hread : ∀ _ : Query, ∀ r, q.Denotes c r → store.quad disk r = .ok (f r) := by
    intro _ r hr
    obtain ⟨key, x, rfl, hlive, hx, -⟩ := (hp r).1 hr
    rw [Store.quad_eq hview hlive hx, hquad hx]
  obtain ⟨results, hnodup, hresults, hgather⟩ := hq.gatherAll hc hview hread
  have hperm : (results.map f).Perm (c.model.quads.keys.filter p) := by
    refine (List.perm_ext_iff_of_nodup ?_ ((Table.keys_nodup _).filter _)).2 fun x => ?_
    · refine hnodup.map_on fun r hr r' hr' hsame => ?_
      obtain ⟨key, x, rfl, -, hx, -⟩ := (hp r).1 ((hresults r).1 hr)
      obtain ⟨key', x', rfl, -, hx', -⟩ := (hp r').1 ((hresults r').1 hr')
      rw [hquad hx, hquad hx'] at hsame
      subst hsame
      rw [← hc.naming.keyOf?_eq_some_iff] at hx hx'
      rw [Option.some.inj (hx.symm.trans hx')]
    · rw [List.mem_map, List.mem_filter, Table.mem_keys]
      constructor
      · rintro ⟨r, hr, rfl⟩
        obtain ⟨key, x, rfl, hlive, hx, hpx⟩ := (hp r).1 ((hresults r).1 hr)
        rw [hquad hx]
        exact ⟨hc.contains_model.2 ⟨key, hc.naming.keyOf?_eq_some_iff.2 hx, hlive⟩, hpx⟩
      · rintro ⟨hholds, hpx⟩
        obtain ⟨key, hkey, hlive⟩ := hc.contains_model.1 hholds
        have hx := hc.naming.keyOf?_eq_some_iff.1 hkey
        exact ⟨.quad key, (hresults _).2 ((hp _).2 ⟨key, x, rfl, hlive, hx, hpx⟩), hquad hx⟩
  have hsorted : (c.model.quads.keys.filter p).Pairwise fun a b => (compare a b).isLE = true :=
    ((Table.keys_pairwise _).filter _).imp fun h => by rw [h]; rfl
  unfold quadsOf Quad.sort
  rw [hgather]
  exact congrArg Except.ok (mergeSort_eq_of_perm hperm hsorted)

theorem selects_quads (hc : c.Sound) (handle : Handle) (pageSize : Nat) :
    Selects c (.quads handle pageSize) fun _ => true := by
  intro r
  constructor
  · intro h
    cases h with
    | @quad _ _ key hlive =>
      obtain ⟨x, -, hx⟩ := hc.named key (Contents.mem_liveKeys.2 hlive)
      exact ⟨key, x, rfl, hlive, hx, rfl⟩
  · rintro ⟨key, x, rfl, hlive, -⟩
    exact .quad hlive

theorem selects_quadsAt (hc : c.Sound) (handle : Handle) (pageSize : Nat) {direction : Direction}
    {value : String} {id : NodeId} (hid : c.idOf? value = some id) :
    Selects c (.quadsAt handle pageSize direction id) fun x => x.get direction == value := by
  have hget {key : QuadKey} {x : Quad} (hx : c.quadOf? key = some x) :
      key.get direction = id ↔ (x.get direction == value) = true := by
    have hname := Contents.quadOf?_eq_some_iff_get.1 hx direction
    rw [hc.naming.idOf?_eq_some_iff] at hid
    rw [beq_iff_eq]
    constructor
    · rintro rfl
      rw [hname] at hid
      exact Option.some.inj hid
    · rintro rfl
      rw [← hc.naming.idOf?_eq_some_iff] at hname hid
      exact Option.some.inj (hname.symm.trans hid)
  intro r
  constructor
  · intro h
    cases h with
    | @scanned _ key hlive hbound =>
      obtain ⟨x, -, hx⟩ := hc.named key (Contents.mem_liveKeys.2 hlive)
      exact ⟨key, x, rfl, hlive, hx, (hget hx).1 (hbound (direction, id) List.mem_cons_self)⟩
  · rintro ⟨key, x, rfl, hlive, hx, hvalue⟩
    exact .scanned hlive (List.forall_mem_singleton.2 ((hget hx).2 hvalue))

theorem refsOf_optimize (hc : c.Sound) (hview : disk.view handle = .ok c) (hq : q.Fresh handle) :
    ∃ refs, refsOf disk q = .ok refs ∧ refsOf disk q.optimize.1 = .ok refs := by
  obtain ⟨results, hnodup, hresults, hdrain⟩ :=
    hq.gatherAll (α := Ref) hc hview fun _ r _ => (rfl : Except.ok r = Except.ok (id r))
  obtain ⟨results', hnodup', hresults', hdrain'⟩ :=
    hq.optimize.gatherAll (α := Ref) hc hview fun _ r _ => (rfl : Except.ok r = Except.ok (id r))
  have hperm : results'.Perm results := by
    refine (List.perm_ext_iff_of_nodup hnodup' hnodup).2 fun r => ?_
    rw [hresults, hresults', ← Query.member_iff hc, Query.member_optimize, Query.member_iff hc]
  rw [List.map_id'] at hdrain hdrain'
  refine ⟨Ref.sort results, ?_, ?_⟩
  · unfold refsOf Query.drain
    rw [hdrain]
    rfl
  · unfold refsOf Query.drain
    rw [hdrain']
    exact congrArg Except.ok (mergeSort_eq_of_perm
      (hperm.trans (List.mergeSort_perm results _).symm) (mergeSort_pairwise results))

/-! ## Checks that pass -/

/-- A check finds no difference, and answers a value. -/
def Passes {α : Type} (check : CheckM α) (answer : α) : Prop :=
  ∀ found, check.run.run found = (.ok answer, found)

section Passes

variable {α β : Type} {a : α} {b : β}

theorem Passes.bind {check : CheckM α} {next : α → CheckM β} (h : Passes check a)
    (hnext : Passes (next a) b) : Passes (check >>= next) b := by
  intro found
  rw [ExceptT.run_bind, StateT.run_bind, h found]
  exact hnext found

theorem passes_pure (a : α) : Passes (pure a) a := fun _ => rfl

theorem passes_read {read : Except StoreError α} (h : read = .ok a) : Passes (liftM read) a := by
  subst h
  exact fun _ => rfl

theorem passes_expect {condition : Bool} (h : condition = true) (description : String) :
    Passes (expect condition description) () := by
  unfold expect
  rw [if_pos h]
  exact passes_pure ()

theorem passes_forIn {xs : List α} {body : α → PUnit → CheckM (ForInStep PUnit)}
    (h : ∀ x ∈ xs, Passes (body x ()) (.yield ())) : Passes (forIn xs PUnit.unit body) () := by
  induction xs with
  | nil => exact passes_pure ()
  | cons x rest ih =>
    obtain ⟨hx, hrest⟩ := List.forall_mem_cons.1 h
    rw [List.forIn_cons]
    exact hx.bind (ih hrest)

theorem passes_if {condition : Prop} [Decidable condition] {check : CheckM Unit}
    (h : condition → Passes check ()) : Passes (if condition then check else pure ()) () := by
  split
  · next hcondition => exact h hcondition
  · exact passes_pure ()

theorem violations_eq_nil {check : CheckM Unit} (h : Passes check ()) (what : String) :
    violations what check = [] := by
  unfold violations
  rw [h []]

end Passes

/-! ## Checks against the model -/

theorem sampleQueries_built (store : Store) (id : NodeId) :
    ∀ q ∈ sampleQueries store id, Query.Built store.handle q := by
  have hnode : Query.Built store.handle (.ofList [.node id]) := .ofList _
  have hlinks := hnode.linksTo store.pageSize .object
  simp only [sampleQueries, List.forall_mem_cons]
  refine ⟨.both ?_, .both ?_, nofun⟩
  · simp only [List.forall_mem_cons]
    exact ⟨.nodes _, hnode, nofun⟩
  · simp only [List.forall_mem_cons]
    exact ⟨.quads _, hlinks, .quadsAt _ _ _, nofun⟩

section Model

variable {v : String} {id : NodeId} (hc : c.Sound) (hview : disk.view store.handle = .ok c)

include hc hview

theorem counters_passes : Passes (counters store disk c.model) () := by
  unfold counters
  refine (passes_read (Store.shows_model hview hc).horizon).bind ?_
  refine (passes_expect (beq_self_eq_true _) _).bind ?_
  refine (passes_read (Store.size_eq hview)).bind ?_
  refine (passes_expect ?_ _).bind ?_
  · rw [hc.size, hc.size_model, beq_self_eq_true]
  refine (passes_read (Store.nodeCount_eq hview)).bind (passes_expect ?_ _)
  rw [hc.counted.nodes, hc.size_degrees, beq_self_eq_true]

theorem simplified_passes {q : Query} (hq : q.Built store.handle) (v : String) :
    Passes (simplified disk v q) () := by
  obtain ⟨refs, hbefore, hafter⟩ := refsOf_optimize hc hview hq.fresh
  unfold simplified
  refine (passes_read hbefore).bind ((passes_read hafter).bind (passes_expect ?_ _))
  exact beq_self_eq_true _

theorem interned_passes (hid : c.idOf? v = some id) :
    Passes (interned store disk c.model v id) () := by
  unfold interned
  -- What follows the check of the degree, which is not made for the empty value.
  extract_lets rest
  have hrest : Passes (rest ()) () := by
    refine (passes_forIn fun direction _ => ?_).bind (passes_if fun _ => ?_)
    · have hscan := quadsOf_eq hc hview (Query.Built.quadsAt store.pageSize direction id).fresh
        (selects_quadsAt hc store.handle store.pageSize hid)
      refine (passes_read hscan).bind ((passes_expect ?_ _).bind (passes_pure _))
      exact beq_self_eq_true _
    · refine (passes_forIn fun q hq => ?_).bind (passes_pure _)
      exact (simplified_passes hc hview (sampleQueries_built store id q hq) v).bind (passes_pure _)
  by_cases hv : v ≠ ""
  · rw [if_pos hv]
    refine (passes_read (Store.degree_eq hview id)).bind ((passes_expect ?_ _).bind hrest)
    rw [hc.toNat_degree hid hv, beq_self_eq_true]
  · rw [if_neg hv]
    exact hrest

theorem value_passes (v : String) : Passes (value store disk c.model v) () := by
  unfold value
  cases hid : c.idOf? v with
  | some id =>
    rw [(Store.idOf_eq_ok_iff hview).2 hid]
    exact interned_passes hc hview hid
  | none =>
    have hmissing : store.idOf disk v = .error (.notFound (.value v)) := by
      unfold Store.idOf
      rw [hview]
      simp only [bind, Except.bind, hid]
      rfl
    rw [hmissing]
    refine passes_expect ?_ _
    rw [hc.contains_degrees_eq_false hid]
    rfl

theorem contents_passes (values : List String) :
    Passes (contents store disk c.model values) () := by
  have hscan := quadsOf_eq hc hview (Query.Built.quads store.pageSize).fresh
    (selects_quads hc store.handle store.pageSize)
  rw [List.filter_true] at hscan
  unfold contents
  refine (passes_read hscan).bind ((passes_expect (beq_self_eq_true _) _).bind ?_)
  refine (passes_forIn fun v _ => ?_).bind ((passes_forIn fun q hq => ?_).bind (passes_pure _))
  · exact (value_passes hc hview v).bind (passes_pure _)
  · refine (passes_read ((Store.shows_model hview hc).contains q)).bind ?_
    exact (passes_expect (Table.mem_keys.1 hq) _).bind (passes_pure _)

end Model

end Check

/-- Sound contents pass the check of counters against the model they stand for. -/
theorem checkCounters_model (hview : disk.view store.handle = .ok c) (hc : c.Sound) :
    checkCounters store disk c.model = [] :=
  Check.violations_eq_nil (Check.counters_passes hc hview) _

/-- Sound contents pass the check of contents, over any values, against the model they stand for. -/
theorem checkContents_model (hview : disk.view store.handle = .ok c) (hc : c.Sound)
    (values : List String) : checkContents store disk c.model values = [] :=
  Check.violations_eq_nil (Check.contents_passes hc hview values) _

end GraphStore
