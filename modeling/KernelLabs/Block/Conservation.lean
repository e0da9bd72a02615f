import KernelLabs.Block.Elevator
import KernelLabs.Library.Runs
import Mathlib.Data.List.Nodup

/-! Every run of sorted insertions, dispatches and request merges keeps each request
in one place, and `nr_sorted` counts the two lists. The ledger beside the block layer
records what was inserted and what was merged away; the program keeps neither. -/
namespace KernelLabs.Conservation
open Block Runs

theorem eraseBoth {h l : List Ref} (nodup : (h ++ l).Nodup) (r : Ref) :
    h.erase r ++ l.erase r = (h ++ l).erase r := by
  rw [List.erase_append]
  split
  · rename_i inH
    rw [List.erase_of_not_mem (fun inL => (List.nodup_append.mp nodup).2.2 r inH r inL rfl)]
  · rename_i notH
    rw [List.erase_of_not_mem notH]

/- The block layer's own part of the invariant: no request is linked twice, and the
unsigned counter is the number of requests on the two lists. -/
structure Linked (b : BlockState) : Prop where
  once : (b.queued ++ b.q.queueHead).Nodup
  counted : b.q.nrSorted = BitVec.ofNat 32 b.queued.length

theorem linkedQueued {b : BlockState} (linked : Linked b) : b.queued.Nodup :=
  (List.nodup_append.mp linked.once).1

theorem linkedApart {b : BlockState} (linked : Linked b) {r : Ref} (mem : r ∈ b.queued) :
    r ∉ b.q.queueHead :=
  fun inHead => (List.nodup_append.mp linked.once).2.2 r mem r inHead rfl

theorem countDown {n : Nat} (positive : 0 < n) :
    BitVec.ofNat 32 n - 1 = BitVec.ofNat 32 (n - 1) := by
  obtain ⟨k, rfl⟩ : ∃ k, n = k + 1 := ⟨n - 1, by omega⟩
  rw [Nat.add_sub_cancel, BitVec.ofNat_add]
  bv_omega

section Move
variable {b : BlockState} {r : Ref}

theorem moveQueued (linked : Linked b) : (greedyMove b r).queued = b.queued.erase r := by
  simp only [BlockState.queued, moveHigher, moveLower]
  exact eraseBoth (linkedQueued linked) r

theorem moveDispatched (linked : Linked b) (mem : r ∈ b.queued) :
    (greedyMove b r).q.queueHead = b.q.queueHead ++ [r] := by
  rw [moveHead, List.erase_of_not_mem (linkedApart linked mem)]

theorem moveLinked (linked : Linked b) (mem : r ∈ b.queued) : Linked (greedyMove b r) where
  once := by
    rw [moveQueued linked, moveDispatched linked mem, ← List.append_assoc]
    have perm : (b.queued.erase r ++ b.q.queueHead ++ [r]).Perm (b.queued ++ b.q.queueHead) := by
      have front := ((List.perm_cons_erase mem).append_right b.q.queueHead).symm
      exact (List.perm_append_singleton r _).trans front
    exact perm.nodup_iff.mpr linked.once
  counted := by
    rw [moveSorted, linked.counted, moveQueued linked, List.length_erase_of_mem mem]
    exact countDown (List.length_pos_of_mem mem)

end Move

structure Ledger where
  block : BlockState
  inserted : List Ref
  merged : List Ref

inductive Op where
  | insert (r : Ref)
  | dispatch (force : Bool)
  | merge (rq next : Ref)
  deriving DecidableEq, Repr

/- A request merged away may come back as a new one at the same address. -/
def step (s : Ledger) : Op → Option Ledger
  | .insert r =>
      if r ∈ s.block.queued ∨ r ∈ s.block.q.queueHead then none
      else (elvInsertSort s.block r).map fun b => ⟨b, s.inserted.insert r, s.merged.erase r⟩
  | .dispatch force => some {s with block := (greedyDispatch s.block force).getD s.block}
  | .merge rq next =>
      if rq ∈ s.block.queued ∧ next ∈ s.block.queued ∧ rq ≠ next then
        (elvMergeRequests s.block rq next).map fun b => ⟨b, s.inserted, next :: s.merged⟩
      else none

/- A queue is allocated zeroed; whether it is bypassed or flushing is left open. -/
def initial (base : BlockState) : Ledger :=
  ⟨(elevatorInit {base with q := {base.q with nrSorted := 0}} true true).2, [], []⟩

def places (s : Ledger) : List Ref :=
  s.block.q.gd.higher ++ s.block.q.gd.lower ++ s.block.q.queueHead ++ s.merged

structure Accounted (s : Ledger) : Prop where
  placed : (places s).Perm s.inserted
  distinct : s.inserted.Nodup
  counted : s.block.q.nrSorted = BitVec.ofNat 32 s.block.queued.length
  sorted : ∀ x ∈ s.block.queued, sortedFlag s.block x = true

theorem accountedLinked {s : Ledger} (acc : Accounted s) : Linked s.block :=
  ⟨(List.nodup_append.mp (acc.placed.nodup_iff.mpr acc.distinct)).1, acc.counted⟩

theorem initialAccounted (base : BlockState) : Accounted (initial base) where
  placed := .refl _
  distinct := List.nodup_nil
  counted := rfl
  sorted := by simp [initial, elevatorInit, greedyInitQueue, BlockState.queued]

theorem insertAccounted {s : Ledger} {r : Ref} {b : BlockState} (acc : Accounted s)
    (fresh : ¬ (r ∈ s.block.queued ∨ r ∈ s.block.q.queueHead))
    (inserted : elvInsertSort s.block r = some b) :
    Accounted ⟨b, s.inserted.insert r, s.merged.erase r⟩ := by
  obtain ⟨u, hashed, rfl⟩ := insertSortExact inserted
  have lists : u.queued = s.block.queued := by simp only [BlockState.queued, hashed.lists]; rfl
  have perm : (greedyAddRequest u r).queued.Perm (r :: s.block.queued) := lists ▸ addQueuedPerm u r
  have head : (greedyAddRequest u r).q.queueHead = s.block.q.queueHead :=
    (addHead u r).trans hashed.head
  refine ⟨?_, acc.distinct.insert, ?_, ?_⟩
  · have moved : (places ⟨greedyAddRequest u r, s.inserted.insert r, s.merged.erase r⟩).Perm
        (r :: (s.block.queued ++ s.block.q.queueHead ++ s.merged.erase r)) := by
      simp only [places, head]
      exact (perm.append_right _).append_right _
    refine moved.trans ?_
    by_cases known : r ∈ s.inserted
    · have inMerged : r ∈ s.merged := by
        rcases List.mem_append.mp (acc.placed.mem_iff.mpr known) with linked | gone
        · exact absurd (List.mem_append.mp linked) fresh
        · exact gone
      rw [List.insert_of_mem known]
      refine List.Perm.trans ?_ acc.placed
      exact List.perm_middle.symm.trans ((List.perm_cons_erase inMerged).symm.append_left _)
    · have notMerged : r ∉ s.merged :=
        fun gone => known (acc.placed.mem_iff.mp (List.mem_append_right _ gone))
      rw [List.insert_of_not_mem known, List.erase_of_not_mem notMerged]
      exact acc.placed.cons r
  · rw [addSorted, hashed.nrSorted, perm.length_eq, List.length_cons, BitVec.ofNat_add, ← acc.counted]
    rfl
  · intro x mem
    rw [addSortedFlag, hashed.sorted, markSortedFlag]
    rcases List.mem_cons.mp (perm.mem_iff.mp mem) with rfl | old
    · simp
    · simp [acc.sorted x old]

theorem dispatchAccounted {s : Ledger} (acc : Accounted s) {r : Ref} (mem : r ∈ s.block.queued) :
    Accounted {s with block := greedyMove s.block r} := by
  have linked := accountedLinked acc
  refine ⟨?_, acc.distinct, (moveLinked linked mem).counted, ?_⟩
  · refine List.Perm.trans ?_ acc.placed
    change ((greedyMove s.block r).queued ++ (greedyMove s.block r).q.queueHead ++ s.merged).Perm _
    rw [moveQueued linked, moveDispatched linked mem, ← List.append_assoc]
    apply List.Perm.append_right
    exact (List.perm_append_singleton r _).trans
      (((List.perm_cons_erase mem).append_right s.block.q.queueHead).symm)
  · intro x inside
    rw [moveQueued linked] at inside
    rw [moveSortedFlag]
    exact acc.sorted x (List.mem_of_mem_erase inside)

theorem mergeAccounted {s : Ledger} (acc : Accounted s) {rq next : Ref} {b : BlockState}
    (mem : next ∈ s.block.queued) (merged : elvMergeRequests s.block rq next = some b) :
    Accounted ⟨b, s.inserted, next :: s.merged⟩ := by
  have linked := accountedLinked acc
  obtain ⟨higher, lower, head, counter, flags, _⟩ := mergeSortedCases (acc.sorted next mem) merged
  have queued : b.queued = s.block.queued.erase next := by
    rw [BlockState.queued, higher, lower]
    exact eraseBoth (linkedQueued linked) next
  rw [List.erase_of_not_mem (linkedApart linked mem)] at head
  refine ⟨?_, acc.distinct, ?_, ?_⟩
  · refine List.Perm.trans ?_ acc.placed
    change (b.queued ++ b.q.queueHead ++ next :: s.merged).Perm _
    rw [queued, head]
    refine List.perm_middle.trans ?_
    exact ((List.perm_cons_erase mem).append_right _).symm.append_right _
  · rw [counter, acc.counted, queued, List.length_erase_of_mem mem]
    exact countDown (List.length_pos_of_mem mem)
  · intro x inside
    rw [queued] at inside
    rw [flags]
    exact acc.sorted x (List.mem_of_mem_erase inside)

/- All that each kind of step can do. -/
section Taken
variable {s t : Ledger}

theorem insertTaken {r : Ref} (taken : step s (.insert r) = some t) :
    ¬ (r ∈ s.block.queued ∨ r ∈ s.block.q.queueHead) ∧
      ∃ b, elvInsertSort s.block r = some b ∧ t = ⟨b, s.inserted.insert r, s.merged.erase r⟩ := by
  simp only [step] at taken
  split at taken <;> try contradiction
  rename_i fresh
  obtain ⟨b, inserted, rfl⟩ := Option.map_eq_some_iff.mp taken
  exact ⟨fresh, b, inserted, rfl⟩

theorem dispatchTaken {force : Bool} (taken : step s (.dispatch force) = some t) :
    t = s ∨ ∃ r, r ∈ s.block.queued ∧ t = {s with block := greedyMove s.block r} := by
  cases Option.some.inj taken
  cases moved : greedyDispatch s.block force with
  | none => exact Or.inl rfl
  | some b =>
    obtain ⟨r, chosen, rfl⟩ := dispatchExact.mp moved
    exact Or.inr ⟨r, targetQueued chosen, rfl⟩

theorem mergeTaken {rq next : Ref} (taken : step s (.merge rq next) = some t) :
    (rq ∈ s.block.queued ∧ next ∈ s.block.queued) ∧
      ∃ b, elvMergeRequests s.block rq next = some b ∧ t = ⟨b, s.inserted, next :: s.merged⟩ := by
  simp only [step] at taken
  split at taken <;> try contradiction
  rename_i held
  obtain ⟨b, merged, rfl⟩ := Option.map_eq_some_iff.mp taken
  exact ⟨⟨held.1, held.2.1⟩, b, merged, rfl⟩

end Taken

theorem stepAccounted {s t : Ledger} {op : Op} (acc : Accounted s) (taken : step s op = some t) :
    Accounted t := by
  cases op with
  | insert r =>
    obtain ⟨fresh, b, inserted, rfl⟩ := insertTaken taken
    exact insertAccounted acc fresh inserted
  | dispatch force =>
    obtain rfl | ⟨r, mem, rfl⟩ := dispatchTaken taken
    · exact acc
    · exact dispatchAccounted acc mem
  | merge rq next =>
    obtain ⟨⟨_, mem⟩, b, merged, rfl⟩ := mergeTaken taken
    exact mergeAccounted acc mem merged

/- Exactly one of the four places, once, for every request inserted so far. -/
def InOnePlace (s : Ledger) : Prop :=
  (places s).Nodup ∧ (∀ r, r ∈ s.inserted ↔ r ∈ places s) ∧
  s.block.q.nrSorted = BitVec.ofNat 32 (s.block.q.gd.higher.length + s.block.q.gd.lower.length) ∧
  (s.block.q.gd.higher.length + s.block.q.gd.lower.length < 2 ^ 32 →
    s.block.q.nrSorted.toNat = s.block.q.gd.higher.length + s.block.q.gd.lower.length)

/- The counter is only taken down while a request is on the lists. -/
def NeverBelowZero (s : Ledger) (_ : Op) (t : Ledger) : Prop :=
  t.block.q.nrSorted = s.block.q.nrSorted - 1 →
    0 < s.block.q.gd.higher.length + s.block.q.gd.lower.length

theorem accountedInOnePlace {s : Ledger} (acc : Accounted s) : InOnePlace s := by
  have counted := acc.counted
  rw [BlockState.queued, List.length_append] at counted
  refine ⟨acc.placed.nodup_iff.mpr acc.distinct, fun r => acc.placed.mem_iff.symm, counted, ?_⟩
  intro small
  rw [counted, BitVec.toNat_ofNat, Nat.mod_eq_of_lt small]

theorem stepNeverBelowZero {s t : Ledger} {op : Op} (taken : step s op = some t) :
    NeverBelowZero s op t := by
  intro down
  cases op with
  | insert r =>
    obtain ⟨_, b, inserted, rfl⟩ := insertTaken taken
    obtain ⟨u, hashed, rfl⟩ := insertSortExact inserted
    have up : u.q.nrSorted = s.block.q.nrSorted + 1 := hashed.nrSorted
    simp only [addSorted, up] at down
    exact absurd down (by bv_omega)
  | dispatch force =>
    obtain rfl | ⟨r, mem, _⟩ := dispatchTaken taken
    · exact absurd down (by bv_omega)
    · have some := List.length_pos_of_mem mem
      simpa only [BlockState.queued, List.length_append] using some
  | merge rq next =>
    obtain ⟨⟨_, mem⟩, _⟩ := mergeTaken taken
    have some := List.length_pos_of_mem mem
    simpa only [BlockState.queued, List.length_append] using some

/- A step that trips a `BUG_ON` ends the run; that none does on the way of an insertion is
`insertionsNeverBug`. -/
theorem everyRequestInOnePlace (base : BlockState) (ops : List Op) :
    EachState step InOnePlace (initial base) ops ∧ EachStep step NeverBelowZero (initial base) ops := by
  exact ⟨eachStateInvariant (fun _ _ _ => stepAccounted) (fun _ => accountedInOnePlace)
      (initialAccounted base) ops,
    eachStepInvariant (fun _ _ _ => stepAccounted) (fun _ _ _ _ => stepNeverBelowZero)
      (initialAccounted base) ops⟩

/- A request is in the merge hash only while it is on one of the two lists. -/
structure HashedQueued (s : Ledger) : Prop where
  accounted : Accounted s
  hashed : ∀ x, elvOnHash s.block x = true → x ∈ s.block.queued

theorem insertHashed {b c : BlockState} {r : Ref} (hashed : ∀ x, elvOnHash b x = true → x ∈ b.queued)
    (inserted : elvInsertSort b r = some c) : ∀ x, elvOnHash c x = true → x ∈ c.queued := by
  obtain ⟨u, marked, rfl⟩ := insertSortExact inserted
  intro x mark
  have lists : u.queued = b.queued := by simp only [BlockState.queued, marked.lists]; rfl
  rw [addOnHash] at mark
  rw [(addQueuedPerm u r).mem_iff, lists]
  rcases marked.onHash x mark with before | same
  · rw [markSortedOnHash] at before
    exact List.mem_cons_of_mem r (hashed x before)
  · exact same ▸ List.mem_cons_self

theorem stepHashed {s t : Ledger} {op : Op} (kept : HashedQueued s) (taken : step s op = some t) :
    HashedQueued t := by
  refine ⟨stepAccounted kept.accounted taken, ?_⟩
  have linked := accountedLinked kept.accounted
  cases op with
  | insert r =>
    obtain ⟨_, b, inserted, rfl⟩ := insertTaken taken
    exact insertHashed kept.hashed inserted
  | dispatch force =>
    obtain rfl | ⟨r, _, rfl⟩ := dispatchTaken taken
    · exact kept.hashed
    · intro x mark
      simp only [moveOnHash, Bool.and_eq_true, bne_iff_ne] at mark ⊢
      rw [moveQueued linked]
      exact (List.mem_erase_of_ne mark.2).mpr (kept.hashed x mark.1)
  | merge rq next =>
    obtain ⟨⟨held, mem⟩, b, merged, rfl⟩ := mergeTaken taken
    obtain ⟨higher, lower, _, _, _, marks⟩ :=
      mergeSortedCases (kept.accounted.sorted next mem) merged
    intro x mark
    obtain ⟨known, apart⟩ := marks x mark
    change x ∈ b.queued
    rw [BlockState.queued, higher, lower, eraseBoth (linkedQueued linked)]
    apply (List.mem_erase_of_ne apart).mpr
    rcases known with before | same
    · exact kept.hashed x before
    · exact same ▸ held

/- Neither `BUG_ON` on the way of a sorted insertion is reached. -/
def InsertsFreely (s : Ledger) : Prop :=
  ∀ r, (s.block.req r).cmdType = .fs → r ∉ s.block.queued → r ∉ s.block.q.queueHead →
    ∃ t, step s (.insert r) = some t

theorem hashedInsertsFreely {s : Ledger} (kept : HashedQueued s) : InsertsFreely s := by
  intro r fs notQueued notDispatched
  have unhashed : elvOnHash s.block r = false := by
    by_contra mark
    exact notQueued (kept.hashed r (by simpa using mark))
  obtain ⟨b, inserted⟩ := insertSortNoBug fs unhashed
  have fresh : ¬ (r ∈ s.block.queued ∨ r ∈ s.block.q.queueHead) := not_or.mpr ⟨notQueued, notDispatched⟩
  exact ⟨_, by simp only [step, if_neg fresh, inserted]; rfl⟩

theorem insertionsNeverBug (base : BlockState) (unhashed : ∀ r, elvOnHash base r = false)
    (ops : List Op) : EachState step InsertsFreely (initial base) ops := by
  have start : HashedQueued (initial base) := by
    refine ⟨initialAccounted base, fun x mark => ?_⟩
    have none : elvOnHash (initial base).block x = false := unhashed x
    rw [none] at mark
    contradiction
  exact eachStateInvariant (fun _ _ _ => stepHashed) (fun _ => hashedInsertsFreely) start ops

end KernelLabs.Conservation
