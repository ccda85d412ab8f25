import GraphStore.Proofs.Resuming

/-!
# Progress of simplification

* `Query.outline` : the definition of a tree, node by node, without handles, progress and snapshots;
* `Query.nodeCount_optimize_le` : a simplified tree has no more nodes, and fewer if it is another one;
* `Query.reset_optimize_of_unchanged` : otherwise it is the same tree, up to progress;
* `Query.optimize_progress` : so repeated simplification comes to an end.
-/

namespace GraphStore

/-! ## Definitions of trees -/

/-- What one node of a tree asks for. -/
inductive Form where
  | all (category : Category)
  | fixed (values : List Ref)
  | position (index : Index) (bound : List (Direction × NodeId))
  | links (direction : Direction)
  | inter
deriving Repr, DecidableEq

/-- The definition of a tree: the names and the form of its root, and the definitions of its parts, in
order. -/
inductive Outline where
  | node (tags : Tags) (form : Form) (parts : List Outline)

namespace Outline

mutual

def nodes : Outline → Nat
  | .node _ _ parts => 1 + nodesAll parts

def nodesAll : List Outline → Nat
  | [] => 0
  | o :: rest => o.nodes + nodesAll rest

end

theorem nodes_pos (o : Outline) : 0 < o.nodes := by
  cases o
  unfold nodes
  omega

end Outline

namespace Query

variable {q : Query} {frame : Frame} {tags : Tags} {children kept : List Query}

mutual

def outline : Query → Outline
  | .all frame category _ => .node frame.tags (.all category) []
  | .fixed frame values _ => .node frame.tags (.fixed values) []
  | .position scan => .node scan.frame.tags (.position scan.index scan.bound) []
  | .links frame _ _ direction primary _ _ =>
    .node frame.tags (.links direction) [primary.outline]
  | .inter frame children _ _ => .node frame.tags .inter (outlineAll children)

def outlineAll : List Query → List Outline
  | [] => []
  | q :: rest => q.outline :: outlineAll rest

end

theorem outlineAll_eq (qs : List Query) : outlineAll qs = qs.map outline := by
  induction qs with
  | nil => rfl
  | cons q rest ih => rw [outlineAll, ih, List.map_cons]

theorem outline_reset (q : Query) : q.reset.outline = q.outline := by
  induction q using induct with
  | all | fixed | position => rfl
  | links frame handle pageSize direction primary inner snapshot ih =>
    unfold reset outline
    rw [ih]
    rfl
  | inter frame children driver snapshot ih =>
    unfold reset outline
    rw [resetAll_eq, outlineAll_eq, outlineAll_eq, List.map_map]
    exact congrArg (Outline.node _ _) (List.map_congr_left ih)

/-- The number of nodes of a tree. -/
def nodeCount (q : Query) : Nat := q.outline.nodes

def nodeCounts (qs : List Query) : Nat := (qs.map nodeCount).sum

theorem nodeCount_pos (q : Query) : 0 < q.nodeCount := q.outline.nodes_pos

theorem nodeCount_links (frame : Frame) (handle : Handle) (pageSize : Nat) (direction : Direction)
    (primary : Query) (inner : Option Scan) (snapshot : Option Snapshot) :
    (links frame handle pageSize direction primary inner snapshot).nodeCount =
      1 + primary.nodeCount := rfl

theorem nodeCount_inter (frame : Frame) (children : List Query) (driver : Option Nat)
    (snapshot : Option Snapshot) :
    (inter frame children driver snapshot).nodeCount = 1 + nodeCounts children := by
  have hall (qs : List Query) : Outline.nodesAll (outlineAll qs) = nodeCounts qs := by
    induction qs with
    | nil => rfl
    | cons q rest ih =>
      rw [outlineAll, Outline.nodesAll, ih]
      rfl
  exact congrArg (1 + ·) (hall children)

theorem nodeCount_mapTags (change : Tags → Tags) (q : Query) :
    (q.mapTags change).nodeCount = q.nodeCount := by
  cases q <;> rfl

@[simp] theorem nodeCounts_nil : nodeCounts [] = 0 := rfl

@[simp] theorem nodeCounts_cons (q : Query) (qs : List Query) :
    nodeCounts (q :: qs) = q.nodeCount + nodeCounts qs := rfl

@[simp] theorem nodeCounts_append (qs qs' : List Query) :
    nodeCounts (qs ++ qs') = nodeCounts qs + nodeCounts qs' := by
  unfold nodeCounts
  rw [List.map_append, List.sum_append]

theorem nodeCounts_perm {qs qs' : List Query} (h : qs.Perm qs') : nodeCounts qs = nodeCounts qs' :=
  (h.map nodeCount).sum_eq

/-! ## Fewer nodes -/

theorem nodeCounts_filter_le (p : Query → Bool) (qs : List Query) :
    nodeCounts (qs.filter p) + (decide ((qs.filter p).length < qs.length)).toNat ≤ nodeCounts qs := by
  induction qs with
  | nil => exact Nat.le_refl 0
  | cons q rest ih =>
    have hpos := q.nodeCount_pos
    cases hq : p q with
    | true =>
      rw [List.filter_cons_of_pos hq, nodeCounts_cons, nodeCounts_cons]
      simp only [List.length_cons, Nat.add_lt_add_iff_right]
      omega
    | false =>
      rw [List.filter_cons_of_neg (by simp [hq]), nodeCounts_cons]
      have hlast := Bool.toNat_le (decide ((rest.filter p).length < (q :: rest).length))
      omega

theorem nodeCounts_fuse (h : fuse? children = some kept) :
    nodeCounts kept + 1 = nodeCounts children := by
  obtain ⟨s, p, subject, predicate, rest, hperm, -, -, rfl⟩ := fuse?_eq_some h
  have hone (scan : Scan) : (position scan).nodeCount = 1 := rfl
  have hfused : (fused s p subject predicate).nodeCount = 1 := rfl
  simp only [nodeCounts_perm hperm, nodeCounts_append, nodeCounts_cons, nodeCounts_nil, hone, hfused]
  omega

theorem nodeCount_assemble (tags : Tags) (kept : List Query) :
    (assemble tags kept).nodeCount + (decide (kept.length = 1)).toNat = 1 + nodeCounts kept := by
  rcases kept with _ | ⟨only, _ | ⟨second, rest⟩⟩
  · rfl
  · unfold assemble
    rw [nodeCount_mapTags, nodeCounts_cons, nodeCounts_nil, List.length_singleton,
      decide_eq_true rfl, Bool.toNat_true]
    omega
  · have hmany : ¬ (only :: second :: rest).length = 1 := by simp
    rw [decide_eq_false hmany, Bool.toNat_false, Nat.add_zero]
    exact nodeCount_inter { tags } (only :: second :: rest) none none

/-- Whether a simplified intersection is another query than before. -/
theorem simplifyInter_snd (frame : Frame) (children : List Query) (changed : Bool) :
    (simplifyInter frame children changed).2 =
      (decide (((fuse? (dropRedundant frame.tags children).2).getD
          (dropRedundant frame.tags children).2).length = 1) ||
        (changed || decide ((dropRedundant frame.tags children).2.length < children.length) ||
          (fuse? (dropRedundant frame.tags children).2).isSome)) := by
  rcases hdrop : dropRedundant frame.tags children with ⟨tags, kept⟩
  unfold simplifyInter
  rw [hdrop]
  simp only
  cases fuse? kept with
  | none => rcases kept with _ | ⟨only, _ | ⟨second, rest⟩⟩ <;> rfl
  | some fused => rcases fused with _ | ⟨only, _ | ⟨second, rest⟩⟩ <;> simp

theorem toNat_or_le (a b : Bool) : (a || b).toNat ≤ a.toNat + b.toNat := by
  cases a <;> cases b <;> decide

theorem nodeCount_simplifyInter_le (frame : Frame) (children : List Query) (changed : Bool) :
    (simplifyInter frame children changed).1.nodeCount +
      (simplifyInter frame children changed).2.toNat ≤ 1 + nodeCounts children + changed.toNat := by
  have hdropped : nodeCounts (dropRedundant frame.tags children).2 +
      (decide ((dropRedundant frame.tags children).2.length < children.length)).toNat ≤
        nodeCounts children :=
    nodeCounts_filter_le (!isRedundant (constrained children) ·) children
  rw [simplifyInter_eq, simplifyInter_snd]
  generalize (dropRedundant frame.tags children).1 = tags at *
  generalize (dropRedundant frame.tags children).2 = kept at *
  have hfused : nodeCounts ((fuse? kept).getD kept) + (fuse? kept).isSome.toNat = nodeCounts kept := by
    cases h : fuse? kept with
    | none => rfl
    | some fused => exact nodeCounts_fuse h
  have hassembled := nodeCount_assemble tags ((fuse? kept).getD kept)
  cases hone : decide (((fuse? kept).getD kept).length = 1) with
  | true =>
    -- an intersection of one child is a node itself, which pays for any other change
    rw [hone] at hassembled
    rw [Bool.true_or]
    omega
  | false =>
    have hchanged := toNat_or_le (changed || decide (kept.length < children.length))
      (fuse? kept).isSome
    have hchanged' := toNat_or_le changed (decide (kept.length < children.length))
    rw [hone, Bool.toNat_false] at hassembled
    rw [Bool.false_or]
    omega

theorem optimizeAll_snd (qs : List Query) : (optimizeAll qs).2 = qs.any fun q => q.optimize.2 := by
  induction qs with
  | nil => rfl
  | cons q rest ih =>
    rw [List.any_cons, ← ih]
    rfl

/-- What simplifying takes from each of several trees, it takes from all. -/
theorem nodeCounts_optimizeAll_le (h : ∀ q ∈ children,
    q.optimize.1.nodeCount + q.optimize.2.toNat ≤ q.nodeCount) :
    nodeCounts (optimizeAll children).1 + (optimizeAll children).2.toNat ≤ nodeCounts children := by
  induction children with
  | nil => exact Nat.le_refl 0
  | cons q rest ih =>
    obtain ⟨hq, hrest⟩ := List.forall_mem_cons.1 h
    have hrest := ih hrest
    have hor := toNat_or_le q.optimize.2 (optimizeAll rest).2
    change q.optimize.1.nodeCount + nodeCounts (optimizeAll rest).1 +
      (q.optimize.2 || (optimizeAll rest).2).toNat ≤ q.nodeCount + nodeCounts rest
    omega

theorem nodeCount_foldLinks {handle : Handle} {pageSize : Nat} {direction : Direction}
    {primary : Query} (h : foldLinks? frame handle pageSize direction primary = some q) :
    q.nodeCount = 1 := by
  unfold foldLinks? at h
  split at h
  · cases h
    rfl
  · cases h
    rfl
  · cases h

/-- A simplified tree has no more nodes, and fewer if it is another one. -/
theorem nodeCount_optimize_le (q : Query) :
    q.optimize.1.nodeCount + q.optimize.2.toNat ≤ q.nodeCount := by
  induction q using induct with
  | all | fixed | position => exact Nat.le_refl 1
  | links frame handle pageSize direction primary inner snapshot ih =>
    rw [nodeCount_links]
    unfold optimize
    split
    · next q hfold =>
      have hpos := primary.nodeCount_pos
      change q.nodeCount + 1 ≤ _
      rw [nodeCount_foldLinks hfold]
      omega
    · simp only [nodeCount_links]
      omega
  | inter frame children driver snapshot ih =>
    have hchildren := nodeCounts_optimizeAll_le ih
    have hinter := nodeCount_simplifyInter_le frame (optimizeAll children).1 (optimizeAll children).2
    rw [nodeCount_inter]
    unfold optimize
    simp only
    omega

/-! ## No change -/

/-- An intersection that is not another one has all its children, and its names. -/
theorem simplifyInter_of_unchanged {changed : Bool}
    (h : (simplifyInter frame children changed).2 = false) : changed = false ∧
      (simplifyInter frame children changed).1 = .inter { tags := frame.tags } children none none := by
  rw [simplifyInter_snd] at h
  simp only [Bool.or_eq_false_iff, decide_eq_false_iff_not, Option.isSome_eq_false_iff,
    Option.isNone_iff_eq_none] at h
  obtain ⟨hmany, ⟨hchanged, hdropped⟩, hfused⟩ := h
  have hkept : children.filter (!isRedundant (constrained children) ·) = children :=
    List.filter_eq_self.2 <| List.length_filter_eq_length_iff.1 <|
      Nat.le_antisymm (List.length_filter_le _ _) (Nat.le_of_not_lt hdropped)
  have hnone : children.filter (isRedundant (constrained children)) = [] :=
    List.filter_eq_nil_iff.2 fun q hq => by simpa using List.filter_eq_self.1 hkept q hq
  have hdrop : dropRedundant frame.tags children = (frame.tags, children) := by
    unfold dropRedundant
    simp only
    rw [hkept, hnone]
    rfl
  rw [hdrop] at hfused hmany
  refine ⟨hchanged, ?_⟩
  rw [simplifyInter_eq, hdrop]
  simp only at hfused hmany ⊢
  rw [hfused] at hmany ⊢
  rcases children with _ | ⟨only, _ | ⟨second, rest⟩⟩
  · rfl
  · exact absurd rfl hmany
  · rfl

/-- A tree that is not another one is the same, up to progress. -/
theorem reset_optimize_of_unchanged (h : q.optimize.2 = false) : q.optimize.1.reset = q.reset := by
  induction q using induct with
  | all | fixed | position => rfl
  | links frame handle pageSize direction primary inner snapshot ih =>
    unfold optimize at h ⊢
    split at h
    · cases h
    · exact congrArg (Query.links frame.reset handle pageSize direction · none none) (ih h)
  | inter frame children driver snapshot ih =>
    unfold optimize at h ⊢
    simp only at h ⊢
    obtain ⟨hchildren, hsame⟩ := simplifyInter_of_unchanged h
    rw [optimizeAll_snd, List.any_eq_false] at hchildren
    rw [hsame, optimizeAll_eq]
    unfold reset
    rw [resetAll_eq, resetAll_eq, List.map_map]
    refine congrArg (Query.inter frame.reset · none none) (List.map_congr_left fun q hq => ?_)
    exact ih q hq (Bool.eq_false_iff.2 (hchildren q hq))

/-- A tree reports no change just when its definition is the same. -/
theorem optimize_unchanged_iff (q : Query) :
    q.optimize.2 = false ↔ q.optimize.1.outline = q.outline := by
  constructor
  · intro h
    rw [← outline_reset, reset_optimize_of_unchanged h, outline_reset]
  · intro h
    have hle := q.nodeCount_optimize_le
    unfold nodeCount at hle
    rw [h] at hle
    cases hchanged : q.optimize.2 with
    | false => rfl
    | true =>
      rw [hchanged, Bool.toNat_true] at hle
      omega

/-! ## Round after round -/

def rounds (q : Query) : Nat → Query
  | 0 => q
  | n + 1 => (q.rounds n).optimize.1

theorem snd_optimize_of_reset {q' : Query} (h : q'.reset = q.reset) :
    q'.optimize.2 = false ↔ q.optimize.2 = false := by
  have hdefinition : q'.outline = q.outline := by
    rw [← outline_reset q', h, outline_reset]
  have hsimplified : q'.optimize.1.outline = q.optimize.1.outline := by
    rw [← outline_reset q'.optimize.1, ← reset_optimize, h, reset_optimize, outline_reset]
  rw [optimize_unchanged_iff, optimize_unchanged_iff, hdefinition, hsimplified]

theorem rounds_unchanged {k n : Nat} (hk : (q.rounds k).optimize.2 = false) (hn : k ≤ n) :
    (q.rounds n).reset = (q.rounds k).reset ∧ (q.rounds n).optimize.2 = false := by
  induction n, hn using Nat.le_induction with
  | base => exact ⟨rfl, hk⟩
  | succ n _ ih =>
    obtain ⟨hreset, hunchanged⟩ := ih
    have hnext : (q.rounds (n + 1)).reset = (q.rounds n).reset :=
      reset_optimize_of_unchanged hunchanged
    exact ⟨hnext.trans hreset, (snd_optimize_of_reset hnext).2 hunchanged⟩

/-- After some rounds one was without change, or each has taken a node. -/
theorem unchanged_or_fewer (q : Query) (n : Nat) :
    (∃ k < n, (q.rounds k).optimize.2 = false) ∨ (q.rounds n).nodeCount + n ≤ q.nodeCount := by
  induction n with
  | zero => exact .inr (Nat.le_refl _)
  | succ n ih =>
    rcases ih with ⟨k, hk, hunchanged⟩ | hfewer
    · exact .inl ⟨k, Nat.lt_succ_of_lt hk, hunchanged⟩
    · cases hchanged : (q.rounds n).optimize.2 with
      | false => exact .inl ⟨n, Nat.lt_succ_self n, hchanged⟩
      | true =>
        have hle := (q.rounds n).nodeCount_optimize_le
        rw [hchanged, Bool.toNat_true] at hle
        right
        change (q.rounds n).optimize.1.nodeCount + (n + 1) ≤ _
        omega

/-- Simplifying reports no change just when the definition of the tree is the same, and otherwise leaves a
tree of fewer nodes. So after fewer rounds than the tree has nodes no round changes it any more. -/
theorem optimize_progress (q : Query) :
    (q.optimize.2 = false ↔ q.optimize.1.outline = q.outline) ∧
      (q.optimize.2 = true → q.optimize.1.outline.nodes < q.outline.nodes) ∧
      ∃ k < q.outline.nodes, ∀ n, k ≤ n →
        (q.rounds n).optimize.2 = false ∧ (q.rounds n).outline = (q.rounds k).outline := by
  refine ⟨q.optimize_unchanged_iff, fun hchanged => ?_, ?_⟩
  · have hle := q.nodeCount_optimize_le
    rw [hchanged, Bool.toNat_true] at hle
    exact hle
  · rcases q.unchanged_or_fewer q.nodeCount with ⟨k, hk, hunchanged⟩ | hfewer
    · refine ⟨k, hk, fun n hn => ?_⟩
      obtain ⟨hreset, hunchanged'⟩ := rounds_unchanged hunchanged hn
      exact ⟨hunchanged', by rw [← outline_reset, hreset, outline_reset]⟩
    · have hpos := (q.rounds q.nodeCount).nodeCount_pos
      omega

end Query

end GraphStore
