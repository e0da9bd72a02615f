import KernelLabs.Block.Conservation

/-! Draining. A dispatch that returns 1 takes one request off the two lists, so the
drain loop ends after as many rounds as there are requests and leaves nothing that
the exit of the elevator would trip over. -/
namespace KernelLabs.Drain
open Block Runs Conservation

/- What the drain loop leaves, with the requests it moved. -/
structure Drained (b : BlockState) (rounds : Nat) (after : BlockState) : Prop where
  rounds : rounds = b.queued.length
  moved : ∃ moved, after.q.queueHead = b.q.queueHead ++ moved ∧ moved.Perm b.queued
  empty : after.queued = []
  linked : Linked after

theorem drainedMore {b after : BlockState} {r : Ref} {rounds : Nat} (linked : Linked b)
    (mem : r ∈ b.queued) (rest : Drained (greedyMove b r) rounds after) :
    Drained b (rounds + 1) after := by
  obtain ⟨moved, head, perm⟩ := rest.moved
  rw [moveDispatched linked mem, List.append_assoc] at head
  rw [moveQueued linked] at perm
  refine ⟨?_, ⟨r :: moved, head, ?_⟩, rest.empty, rest.linked⟩
  · rw [rest.rounds, moveQueued linked, List.length_erase_of_mem mem]
    have positive := List.length_pos_of_mem mem
    omega
  · exact (perm.cons r).trans (List.perm_cons_erase mem).symm

theorem drainLoopDrained (b : BlockState) (linked : Linked b) :
    Drained b (drainLoop b).1 (drainLoop b).2 := by
  induction b using drainLoop.induct with
  | case1 b done =>
    have none : greedyTarget b = none := by simpa [greedyDispatch] using done
    obtain ⟨higher, lower⟩ := targetNone.mp none
    have empty : b.queued = [] := by simp [BlockState.queued, higher, lower]
    have loop : drainLoop b = (0, b) := by rw [drainLoop]; split <;> simp_all
    rw [loop]
    exact ⟨by simp [empty], ⟨[], by simp, by simp [empty]⟩, empty, linked⟩
  | case2 b t moves ih =>
    obtain ⟨r, chosen, rfl⟩ := dispatchExact.mp moves
    have mem := targetQueued chosen
    have loop : drainLoop b = ((drainLoop (greedyMove b r)).1 + 1, (drainLoop (greedyMove b r)).2) := by
      rw [drainLoop]; split <;> simp_all
    rw [loop]
    exact drainedMore linked mem (ih (moveLinked linked mem))

theorem drainedListsEmpty {b : BlockState} (empty : b.queued = []) :
    b.q.gd.higher = [] ∧ b.q.gd.lower = [] := List.append_eq_nil_iff.mp empty

/- The counter is zero after the loop, so nothing is reported and nothing changes. -/
theorem drainElevatorIsLoop {b : BlockState} (linked : Linked b) :
    elvDrainElevator b = (drainLoop b).2 := by
  have drained := drainLoopDrained b linked
  have zero : (drainLoop b).2.q.nrSorted = 0 := by
    rw [drained.linked.counted, drained.empty]; rfl
  simp [elvDrainElevator, zero]

theorem nextRequestNull {b : BlockState} {now : Timespec} (running : b.q.bypass = false)
    (free : heldForFlush b = false) (null : (elvNextRequest now b).1 = none) :
    b.q.queueHead = [] ∧ b.q.gd.higher = [] ∧ b.q.gd.lower = [] := by
  rw [elvNextRequest] at null
  split at null
  · simp at null
  · rename_i head
    rw [if_neg (by simp [free]), if_neg (by simp [running])] at null
    split at null
    · rename_i done
      have none : greedyTarget b = none := by simpa [greedyDispatch] using done
      exact ⟨head, targetNone.mp none⟩
    · rename_i t moves
      obtain ⟨r, _, rfl⟩ := dispatchExact.mp moves
      rw [elvNextRequest, moveHead, head] at null
      simp at null

/- The exit of the elevator may follow at once. -/
def DrainEmpties (s : Ledger) : Prop :=
  (drainLoop s.block).1 = s.block.q.gd.higher.length + s.block.q.gd.lower.length ∧
  (∃ moved, (elvDrainElevator s.block).q.queueHead = s.block.q.queueHead ++ moved ∧
    moved.Perm (s.block.q.gd.higher ++ s.block.q.gd.lower)) ∧
  (elvDrainElevator s.block).q.nrSorted = 0 ∧
  (elvDrainElevator s.block).q.gd.higher = [] ∧ (elvDrainElevator s.block).q.gd.lower = [] ∧
  greedyExitQueue (elvDrainElevator s.block) = some ()

def NullMeansEmpty (s : Ledger) : Prop :=
  ∀ now, s.block.q.bypass = false → heldForFlush s.block = false →
    (elvNextRequest now s.block).1 = none →
    s.block.q.queueHead = [] ∧ s.block.q.gd.higher = [] ∧ s.block.q.gd.lower = []

theorem linkedDrainEmpties {s : Ledger} (linked : Linked s.block) : DrainEmpties s := by
  have drained := drainLoopDrained s.block linked
  obtain ⟨higher, lower⟩ := drainedListsEmpty drained.empty
  unfold DrainEmpties
  rw [drainElevatorIsLoop linked]
  refine ⟨?_, drained.moved, ?_, higher, lower, ?_⟩
  · rw [drained.rounds, BlockState.queued, List.length_append]
  · rw [drained.linked.counted, drained.empty]; rfl
  · simp [greedyExitQueue, higher, lower]

theorem drainEmptiesElevator (base : BlockState) (ops : List Op) :
    EachState step DrainEmpties (initial base) ops ∧
      EachState step NullMeansEmpty (initial base) ops := by
  constructor
  · exact eachStateInvariant (fun _ _ _ => stepAccounted)
      (fun _ acc => linkedDrainEmpties (accountedLinked acc)) (initialAccounted base) ops
  · exact eachStateInvariant (fun _ _ _ => stepAccounted)
      (fun _ _ _ running free null => nextRequestNull running free null) (initialAccounted base) ops

end KernelLabs.Drain
