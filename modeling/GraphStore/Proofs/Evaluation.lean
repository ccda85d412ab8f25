import GraphStore.Proofs.Tree
import GraphStore.Query.Next

/-!
# Steps as a relation

* `Query.awaits?` : what a step first has to take a snapshot of;
* `Query.StepsTo` : what a step comes to, with one case for each way that a turn can go;
* `Query.nextWithin_stepsTo` : a step in any number of turns comes to what the relation says, so that
  what all steps have in common is proved by one induction over its cases.
-/

namespace GraphStore

namespace Query

/-- The handle of the snapshot that a step takes first. Leaves leave that to their cursors. -/
def awaits? : Query → Option Handle
  | .links _ handle _ _ _ _ none => some handle
  | .inter _ children _ none => firstHandle? children
  | _ => none

def Proceeds (q : Query) : Prop := q.frame.isExhausted = false ∧ q.awaits? = none

/-- What a step comes to. The steps of children, and the turns that follow in the same step, come to
something in the same way. -/
inductive StepsTo (disk : Disk) : Query → Outcome × Query → Prop
  -- A pass that has ended stays so; one that has not begun takes a snapshot for the whole tree.
  | exhausted {q} : q.frame.isExhausted = true → StepsTo disk q (.ok none, q)
  | refused {q handle error} :
      q.frame.isExhausted = false → q.awaits? = some handle → disk.take handle = .error error →
        StepsTo disk q (.error error, q)
  | begun {q handle s out} :
      q.frame.isExhausted = false → q.awaits? = some handle → disk.take handle = .ok s →
        StepsTo disk (q.setSnapshot (some s)) out → StepsTo disk q out
  -- Leaves read their cursor or their list.
  | all {frame category cursor outcome cursor'} :
      frame.isExhausted = false → cursor.next disk = (outcome, cursor') →
        StepsTo disk (.all frame category cursor)
          (outcome, .all (frame.after outcome) category cursor')
  | listed {frame values index r} :
      frame.isExhausted = false → values[index]? = some r →
        StepsTo disk (.fixed frame values index)
          (.ok (some r), .fixed (frame.advance r) values (index + 1))
  | listedAll {frame values index} :
      frame.isExhausted = false → values[index]? = none →
        StepsTo disk (.fixed frame values index) (.ok none, .fixed frame.exhaust values index)
  | position {scan outcome cursor} :
      scan.frame.isExhausted = false → scan.cursor.next disk = (outcome, cursor) →
        StepsTo disk (.position scan)
          (outcome, .position { scan with frame := scan.frame.after outcome, cursor })
  -- Links scan the quads of one node after another.
  | linked {frame handle pageSize direction primary scan s outcome scan'} :
      frame.isExhausted = false → scan.next disk = (outcome, scan') → outcome ≠ .ok none →
        StepsTo disk (.links frame handle pageSize direction primary (some scan) (some s))
          (outcome, .links (frame.after outcome) handle pageSize direction primary (some scan')
            (some s))
  | linkedAll {frame handle pageSize direction primary scan s scan' out} :
      frame.isExhausted = false → scan.next disk = (.ok none, scan') →
      StepsTo disk (.links frame handle pageSize direction primary none (some s)) out →
        StepsTo disk (.links frame handle pageSize direction primary (some scan) (some s)) out
  | primaryFailed {frame handle pageSize direction primary s error primary'} :
      frame.isExhausted = false → StepsTo disk primary (.error error, primary') →
        StepsTo disk (.links frame handle pageSize direction primary none (some s))
          (.error error, .links frame handle pageSize direction primary' none (some s))
  | primaryEnded {frame handle pageSize direction primary s primary'} :
      frame.isExhausted = false → StepsTo disk primary (.ok none, primary') →
        StepsTo disk (.links frame handle pageSize direction primary none (some s))
          (.ok none,
            .links frame.exhaust handle pageSize direction (primary'.setSnapshot none) none none)
  | primaryNode {frame handle pageSize direction primary s id primary' out} :
      frame.isExhausted = false → StepsTo disk primary (.ok (some (.node id)), primary') →
      StepsTo disk (.links frame handle pageSize direction primary'
        (some ((Scan.ofDirection handle pageSize direction id).setSnapshot (some s))) (some s)) out →
        StepsTo disk (.links frame handle pageSize direction primary none (some s)) out
  | primaryQuad {frame handle pageSize direction primary s key primary' out} :
      frame.isExhausted = false → StepsTo disk primary (.ok (some (.quad key)), primary') →
      StepsTo disk (.links frame handle pageSize direction primary' none (some s)) out →
        StepsTo disk (.links frame handle pageSize direction primary none (some s)) out
  -- An intersection asks its driver for candidates until all others confirm one.
  | empty {frame driver snapshot} :
      frame.isExhausted = false →
        StepsTo disk (.inter frame [] driver snapshot)
          (.ok none, .inter frame.exhaust [] driver snapshot)
  | undecided {frame children snapshot error} :
      Proceeds (.inter frame children none snapshot) → children ≠ [] →
      chooseDriver disk children = .error error →
        StepsTo disk (.inter frame children none snapshot)
          (.error error, .inter frame children none snapshot)
  | chosen {frame children snapshot d out} :
      Proceeds (.inter frame children none snapshot) → children ≠ [] →
      chooseDriver disk children = .ok d →
      StepsTo disk (.inter frame children (some d) snapshot) out →
        StepsTo disk (.inter frame children none snapshot) out
  | driverFailed {frame children d snapshot child error child'} :
      Proceeds (.inter frame children (some d) snapshot) → children[d]? = some child →
      StepsTo disk child (.error error, child') →
        StepsTo disk (.inter frame children (some d) snapshot)
          (.error error, .inter frame (children.set d child') (some d) snapshot)
  | driverEnded {frame children d snapshot child child'} :
      Proceeds (.inter frame children (some d) snapshot) → children[d]? = some child →
      StepsTo disk child (.ok none, child') →
        StepsTo disk (.inter frame children (some d) snapshot)
          (.ok none, .inter frame.exhaust (setSnapshotAll none (children.set d child')) (some d) none)
  | unanswered {frame children d snapshot child r child' error children'} :
      Proceeds (.inter frame children (some d) snapshot) → children[d]? = some child →
      StepsTo disk child (.ok (some r), child') →
      probeAll disk none r (some d) (children.set d child') = (.error error, children') →
        StepsTo disk (.inter frame children (some d) snapshot)
          (.error error, .inter frame children' (some d) snapshot)
  | rejected {frame children d snapshot child r child' children' out} :
      Proceeds (.inter frame children (some d) snapshot) → children[d]? = some child →
      StepsTo disk child (.ok (some r), child') →
      probeAll disk none r (some d) (children.set d child') = (.ok false, children') →
      StepsTo disk (.inter frame children' (some d) snapshot) out →
        StepsTo disk (.inter frame children (some d) snapshot) out
  | confirmed {frame children d snapshot child r child' children'} :
      Proceeds (.inter frame children (some d) snapshot) → children[d]? = some child →
      StepsTo disk child (.ok (some r), child') →
      probeAll disk none r (some d) (children.set d child') = (.ok true, children') →
        StepsTo disk (.inter frame children (some d) snapshot)
          (.ok (some r), .inter (frame.advance r) children' (some d) snapshot)

section Turns

variable {disk : Disk} {next : Query → Option (Outcome × Query)} {q : Query} {frame : Frame}
  {handle : Handle} {pageSize d : Nat} {direction : Direction} {primary : Query}
  {inner : Option Scan} {children : List Query} {driver : Option Nat} {snapshot : Option Snapshot}
  {s : Snapshot} {out : Outcome × Query}

theorem proceeds_inter_iff : Proceeds (.inter frame children driver snapshot) ↔
    frame.isExhausted = false ∧ (snapshot = none → firstHandle? children = none) := by
  cases snapshot <;> simp [Proceeds, Query.frame, awaits?]

def Follows (disk : Disk) (next : Query → Option (Outcome × Query)) : Prop :=
  ∀ q out, next q = some out → StepsTo disk q out

theorem advanceLinks_stepsTo (hnext : Follows disk next) (hrunning : frame.isExhausted = false)
    (h : advanceLinks disk next frame handle pageSize direction primary inner s = some out) :
    StepsTo disk (.links frame handle pageSize direction primary inner (some s)) out := by
  unfold advanceLinks at h
  cases inner with
  | some scan =>
    simp only at h
    split at h
    · next hscan => exact .linkedAll hrunning hscan (hnext _ _ h)
    · next outcome scan' hne hscan =>
      cases h
      exact .linked hrunning hscan hne
  | none =>
    simp only at h
    cases hout : next primary with
    | none =>
      rw [hout] at h
      cases h
    | some out' =>
      have hprimary := hnext _ _ hout
      simp only [hout, Option.bind_eq_bind, Option.bind_some] at h
      split at h
      · cases h
        exact .primaryFailed hrunning hprimary
      · cases h
        exact .primaryEnded hrunning hprimary
      · exact .primaryNode hrunning hprimary (hnext _ _ h)
      · exact .primaryQuad hrunning hprimary (hnext _ _ h)

theorem advanceDriver_stepsTo (hnext : Follows disk next)
    (hproceeds : Proceeds (.inter frame children (some d) snapshot))
    (h : advanceDriver disk next frame children d snapshot = some out) :
    StepsTo disk (.inter frame children (some d) snapshot) out := by
  unfold advanceDriver at h
  cases hchild : children[d]? with
  | none =>
    rw [hchild] at h
    cases h
  | some child =>
    cases hout : next child with
    | none =>
      simp only [hchild, Option.map_some, hout] at h
      cases h
    | some out' =>
      have hdriver := hnext _ _ hout
      simp only [hchild, Option.map_some, hout, Option.bind_eq_bind, Option.bind_some] at h
      split at h
      · cases h
        exact .driverFailed hproceeds hchild hdriver
      · cases h
        exact .driverEnded hproceeds hchild hdriver
      · split at h
        · next hprobe =>
          cases h
          exact .unanswered hproceeds hchild hdriver hprobe
        · next hprobe => exact .rejected hproceeds hchild hdriver hprobe (hnext _ _ h)
        · next hprobe =>
          cases h
          exact .confirmed hproceeds hchild hdriver hprobe

theorem advanceInter_stepsTo (hnext : Follows disk next) (hne : children ≠ [])
    (hproceeds : Proceeds (.inter frame children driver snapshot))
    (h : advanceInter disk next frame children driver snapshot = some out) :
    StepsTo disk (.inter frame children driver snapshot) out := by
  unfold advanceInter at h
  cases driver with
  | some d => exact advanceDriver_stepsTo hnext hproceeds h
  | none =>
    simp only at h
    split at h
    · next hdriver =>
      cases h
      exact .undecided hproceeds hne hdriver
    · next d hdriver =>
      have hchosen : Proceeds (.inter frame children (some d) snapshot) :=
        proceeds_inter_iff.2 (proceeds_inter_iff.1 hproceeds)
      exact .chosen hproceeds hne hdriver (advanceDriver_stepsTo hnext hchosen h)

theorem advance_stepsTo (hnext : Follows disk next) : Follows disk (advance disk next) := by
  intro q out h
  unfold advance at h
  cases q with
  | all frame category cursor =>
    simp only at h
    split at h
    · next hphase =>
      cases h
      exact .exhausted hphase
    · next hphase =>
      cases h
      exact .all (Bool.eq_false_iff.2 hphase) rfl
  | fixed frame values index =>
    simp only at h
    split at h
    · next hphase =>
      cases h
      exact .exhausted hphase
    · next hphase =>
      have hrunning := Bool.eq_false_iff.2 hphase
      split at h
      · next hr =>
        cases h
        exact .listed hrunning hr
      · next hr =>
        cases h
        exact .listedAll hrunning hr
  | position scan =>
    unfold Scan.next at h
    simp only at h
    split at h
    · next hphase =>
      cases h
      exact .exhausted hphase
    · next hphase =>
      cases h
      exact .position (Bool.eq_false_iff.2 hphase) rfl
  | links frame handle pageSize direction primary inner snapshot =>
    simp only at h
    split at h
    · next hphase =>
      cases h
      exact .exhausted hphase
    · next hphase =>
      have hrunning := Bool.eq_false_iff.2 hphase
      cases snapshot with
      | some s => exact advanceLinks_stepsTo hnext hrunning h
      | none =>
        simp only at h
        split at h
        · next htake =>
          cases h
          exact .refused hrunning rfl htake
        · next htake => exact .begun hrunning rfl htake (advanceLinks_stepsTo hnext hrunning h)
  | inter frame children driver snapshot =>
    simp only at h
    split at h
    · next hphase =>
      cases h
      exact .exhausted hphase
    · next hphase =>
      have hrunning := Bool.eq_false_iff.2 hphase
      split at h
      · next hempty =>
        cases h
        obtain rfl := List.isEmpty_iff.1 hempty
        exact .empty hrunning
      · next hempty =>
        rw [List.isEmpty_iff] at hempty
        split at h
        · next handle hhandle =>
          split at h
          · next htake =>
            cases h
            exact .refused hrunning hhandle htake
          · next s htake =>
            have hne : setSnapshotAll (some s) children ≠ [] := by
              rwa [setSnapshotAll_eq, Ne, List.map_eq_nil_iff]
            have hheld : Proceeds (.inter frame (setSnapshotAll (some s) children) driver (some s)) :=
              proceeds_inter_iff.2 ⟨hrunning, nofun⟩
            exact .begun hrunning hhandle htake (advanceInter_stepsTo hnext hne hheld h)
        · next snapshot _ _ hheld =>
          have hnone (hnone : snapshot = none) : firstHandle? children = none :=
            Option.eq_none_iff_forall_ne_some.2 fun handle => hheld handle hnone
          exact advanceInter_stepsTo hnext hempty (proceeds_inter_iff.2 ⟨hrunning, hnone⟩) h

end Turns

/-- Whatever it reads, a step comes to what the relation says. -/
theorem nextWithin_stepsTo (disk : Disk) (n : Nat) : Follows disk (nextWithin disk n) := by
  induction n with
  | zero => exact fun _ _ h => nomatch h
  | succ n ih => exact advance_stepsTo ih

end Query

end GraphStore
