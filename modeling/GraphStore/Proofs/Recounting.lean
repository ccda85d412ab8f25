import GraphStore.Proofs.Restart
import GraphStore.Proofs.Sizes

/-!
# Sizes in the middle of a pass

* `Query.recounts` : the trees whose size takes in links from a list, which are counted anew each time;
* `Query.sizeIn_of_recounts_eq_false` : of the other trees only the contents of the pass tell the size;
* `Query.InPass.size_eq` : so does a size in the middle of a pass, but for such links;
* `Store.Reached.size_inPass` : whatever is written during a pass, the size of a tree that counts no such
  links stays the hint that its first step left, and is the number of results unless it is an estimate;
* `Store.recounted_first_quad` : the size of links from a list follows the writes.
-/

namespace GraphStore

namespace Query

variable {store : Store} {disk disk' : Disk} {now c : Contents} {q q' : Query}
  {results found : List Ref}

/-! ## Links counted anew -/

mutual

/-- Whether the size of a query takes in links from a list, which are counted in what is committed last
even when a pass has a snapshot. -/
def recounts : Query → Bool
  | .all .. | .fixed .. | .position _ => false
  | .links _ _ _ _ (.fixed ..) _ _ => true
  | .links _ _ _ _ primary _ _ => primary.recounts
  | .inter _ children _ _ => anyRecounts children
termination_by structural q => q

def anyRecounts : List Query → Bool
  | [] => false
  | q :: rest => q.recounts || anyRecounts rest
termination_by structural qs => qs

end

theorem anyRecounts_eq (qs : List Query) : anyRecounts qs = qs.any recounts := by
  induction qs with
  | nil => rfl
  | cons q rest ih => rw [anyRecounts, ih, List.any_cons]

/-- A size that counts no links from a list depends on the contents of the pass alone. -/
theorem sizeIn_of_recounts_eq_false (h : q.recounts = false) (now c : Contents) :
    q.sizeIn now c = q.sizeIn c c := by
  induction q using induct with
  | all | fixed | position => rfl
  | links frame handle pageSize direction primary inner snapshot ih =>
    cases primary with
    | fixed => cases h
    | all | position | links | inter =>
      exact congrArg (fun hint : SizeHint => SizeHint.about
        (.ofNat (min (UInt64.size - 1) (hint.value.toNat * fanOut)))) (ih h)
  | inter frame children driver snapshot ih =>
    have hchildren : anyRecounts children = false := h
    rw [anyRecounts_eq, List.any_eq_false] at hchildren
    unfold sizeIn
    rw [sizesIn_eq, sizesIn_eq]
    exact congrArg SizeHint.common
      (List.map_congr_left fun q hq => ih q hq (Bool.eq_false_iff.2 (hchildren q hq)))

/-- A size that is no estimate counts links from a list only, if it counts any. -/
theorem Exact.sizeIn_of_recounts (hexact : q.Exact) (h : q.recounts = true) (now c : Contents) :
    q.sizeIn now c = q.sizeIn now now := by
  induction hexact with
  | all | fixed | position | none => cases h
  | links => rfl
  | @only frame child driver snapshot _ ih =>
    have hchild : (child.recounts || false) = true := h
    rw [Bool.or_false] at hchild
    exact ih hchild

/-! ## Points of a pass -/

theorem InPass.of_next {r : Ref} (h : (q.next disk).1 = .ok (some r)) :
    q.InPass store disk [r] disk (q.next disk).2 :=
  .first (Prod.ext h rfl)

/-- In the middle of a pass the links from a list are counted in what is committed then, and all else in
the contents that the pass reads. -/
theorem InPass.size_eq (h : q.InPass store disk found disk' q') (hc : c.Sound)
    (hview : disk.view store.handle = .ok c) (hq : Fresh store.handle q) :
    ∃ now, disk'.view store.handle = .ok now ∧ q'.size disk' = .ok (q.sizeIn now c) := by
  obtain ⟨⟨now, hnow⟩, hmidway⟩ := h.midway hc hview hq
  have hsees : Over (Sees disk' store.handle c) store.handle q' :=
    hmidway.keeps.sees
  refine ⟨now, hnow, (Query.size_eq hsees hnow).trans ?_⟩
  rw [← sizeIn_reset, hmidway.reset, sizeIn_reset]

/-- The size of `q'`, which is `q` in the middle of a pass over given contents. The hint is that of the
tree before its first step. -/
structure SizedInPass (store : Store) (c : Contents) (results : List Ref) (hint : SizeHint) (q : Query)
    (disk : Disk) (q' : Query) : Prop where
  /-- It can be told at any time: links from a list are counted in what is committed, and all else in
  the contents of the pass. -/
  told : ∃ now, disk.view store.handle = .ok now ∧ q'.size disk = .ok (q.sizeIn now c)
  /-- As long as nothing was committed, and whatever was if no such links are counted, it is the same
  hint, and the number of results of the pass unless it is an estimate. -/
  same : q.recounts = false ∨ disk.view store.handle = .ok c → Hints disk q q' hint results
  /-- If it is no estimate and counts such links, it is the size of a tree that is in no pass. -/
  anew : q.recounts = true → q.Exact → q'.size disk = q.size disk

theorem Isolated.sizedInPass (hc : c.Sound) (hview : disk.view store.handle = .ok c)
    (hq : Fresh store.handle q) (hisolated : q.Isolated store disk c results)
    (h : q.InPass store disk found disk' q') :
    SizedInPass store c results (q.sizeIn c c) q disk' q' := by
  obtain ⟨now, hnow, hsize⟩ := h.size_eq hc hview hq
  refine ⟨⟨now, hnow, hsize⟩, fun hsame => ?_, fun hrecounts hexact => ?_⟩
  · have hhint : q.sizeIn now c = q.sizeIn c c := by
      rcases hsame with hrecounts | hcommitted
      · exact sizeIn_of_recounts_eq_false hrecounts now c
      · rw [Except.ok.inj (hnow.symm.trans hcommitted)]
    obtain ⟨hnodup, hresults⟩ := hisolated.denotes
    have hexact := exact_sizeIn c c q
    refine ⟨hsize.trans (congrArg Except.ok hhint), hexact, fun h => ?_⟩
    exact ((hexact.1 h).counted hc hq.wellFormed hnodup fun r =>
      (hresults r).trans (member_iff hc).symm).toNat
  · have hidle : Over (Sees disk' store.handle now) store.handle q :=
      hq.idle.sees_taken (Disk.take_of_view hnow)
    rw [hsize, Query.size_eq hidle hnow, hexact.sizeIn_of_recounts hrecounts]

end Query

namespace Store

open Query

/-- From the first step of a pass to the one that ends it the size of a tree does not follow what is
written, except where it counts links from a list. -/
theorem Reached.size_inPass {store : Store} {disk₀ disk : Disk} {q₀ q : Query}
    (h : store.Reached disk₀) (hq₀ : q₀.Composed store.handle) (hused : q₀.Used store disk₀ disk q)
    (hphase : q.phase = .unstarted) :
    ∃ c results hint, disk.view store.handle = .ok c ∧ q.Isolated store disk c results ∧
      q.size disk = .ok hint ∧ ∀ found disk' q', q.InPass store disk found disk' q' →
        SizedInPass store c results hint q disk' q' := by
  obtain ⟨hfresh₀, hreset₀⟩ := hq₀.fresh
  have hfresh := hused.fresh_of_fresh h.sound hfresh₀ hreset₀ hphase
  obtain ⟨⟨c, hview, hc⟩, -, -⟩ := hused.stage_of_fresh h.sound hfresh₀ hreset₀
  obtain ⟨results, hisolated⟩ := hfresh.isolated hc hview
  have hidle : Over (Sees disk store.handle c) store.handle q :=
    hfresh.idle.imp fun _ hs => .inr ⟨hs, Disk.take_of_view hview⟩
  exact ⟨c, results, q.sizeIn c c, hview, hisolated, Query.size_eq hidle hview,
    fun found disk' q' hin => hisolated.sizedInPass hc hview hfresh hin⟩

/-- Of the quads of a store in which one is added during the pass, that of a subject is counted from a
scan. -/
theorem size_inPass_first_quad : ∃ (store : Store) (disk : Disk),
    Store.create {} "db" {} = .ok (store, disk) ∧
      let now := store.after disk (.add {} ⟨"alice", "follows", "bob", ""⟩)
      let later := store.after now (.add {} ⟨"alice", "follows", "carol", ""⟩)
      let q := Query.both [.quadsAt store.handle 0 .subject ⟨1⟩]
      let midway := (q.next now).2
      q.recounts = false ∧ q.Exact ∧ midway.size later = .ok (.exactly 1) ∧
        q.size later = .ok (.exactly 2) ∧ ∃ c results hint, now.view store.handle = .ok c ∧
          q.Isolated store now c results ∧ q.size now = .ok hint ∧
            ∀ found disk' q', q.InPass store now found disk' q' →
              SizedInPass store c results hint q disk' q' := by
  have hcreate : Store.create {} "db" {} = .ok (_, _) := rfl
  refine ⟨_, _, hcreate, ?_⟩
  intro now later q midway
  have hreached : Store.Reached _ now := .wrote _ (.created hcreate) (admitsOne_created hcreate)
  have hq : q.Composed _ := .built (.both (List.forall_mem_singleton.2 (.quadsAt 0 .subject ⟨1⟩)))
  refine ⟨rfl, .only .position, by decide +kernel, by decide +kernel, ?_⟩
  exact hreached.size_inPass hq .start rfl

/-- The size of links from a list counts a quad that was added in the middle of the pass, and that the
pass does not yield. -/
theorem recounted_first_quad : ∃ (store : Store) (disk : Disk),
    Store.create {} "db" {} = .ok (store, disk) ∧
      let now := store.after disk (.add {} ⟨"alice", "follows", "bob", ""⟩)
      let later := store.after now (.add {} ⟨"alice", "follows", "carol", ""⟩)
      let q := Query.linksTo store.handle 1 (.ofList [.node ⟨1⟩]) .subject
      let midway := (q.next now).2
      let found := [Ref.quad ⟨⟨1⟩, ⟨2⟩, ⟨3⟩, ⟨0⟩⟩]
      store.Reached now ∧ q.Composed store.handle ∧ q.InPass store now found now midway ∧
        q.InPass store now found later midway ∧ midway.size now = .ok (.exactly 1) ∧
          midway.size later = .ok (.exactly 2) ∧ (midway.next later).1 = .ok none := by
  have hcreate : Store.create {} "db" {} = .ok (_, _) := rfl
  refine ⟨_, _, hcreate, ?_⟩
  intro now later q midway found
  have hfound : (q.next now).1 = .ok (some (.quad ⟨⟨1⟩, ⟨2⟩, ⟨3⟩, ⟨0⟩⟩)) := by decide +kernel
  refine ⟨.wrote _ (.created hcreate) (admitsOne_created hcreate),
    .built (.linksTo 1 .subject (.ofList _)), .of_next hfound,
    .wrote (.add {} ⟨"alice", "follows", "carol", ""⟩) (.of_next hfound), ?_⟩
  decide +kernel

end Store

end GraphStore
