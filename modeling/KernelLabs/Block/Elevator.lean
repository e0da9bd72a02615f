import KernelLabs.Block.GreedyIosched

/-! The elevator core over the greedy scheduler: insertion, merging of two queued
requests, draining and the driver's next request. Outcomes decided by code outside
the repository (`blk_insert_flush`, `blk_attempt_req_merge`) are arguments. Power
management, tracing and the in-flight counters are left out: nothing here reads them. -/
namespace KernelLabs.Block
open LinkedList

def elevatorInit (s : BlockState) (eqAllocated gdAllocated : Bool) : Int × BlockState :=
  greedyInitQueue {s with q := {s.q with
    queueHead := [], lastMerge := none, endSector := 0, boundaryRq := none}} eqAllocated gdAllocated

def elvMergeRequests (s : BlockState) (rq next : Ref) : Option BlockState :=
  let nextSorted := (s.req next).cmdFlags.sorted
  let s := if nextSorted then greedyMergedRequests s rq next else s
  (elvRqhashReposition s rq).map fun s =>
    let s := if nextSorted then
        let s := elvRqhashDel s next
        {s with q := {s.q with nrSorted := s.q.nrSorted - 1}}
      else s
    {s with q := {s.q with lastMerge := some rq}}

theorem dispatchShrinks {s t : BlockState} {force : Bool} (moved : greedyDispatch s force = some t) :
    t.queued.length < s.queued.length := by
  obtain ⟨r, chosen, rfl⟩ := dispatchExact.mp moved
  have higher := s.q.gd.higher.erase_sublist (a := r) |>.length_le
  have lower := s.q.gd.lower.erase_sublist (a := r) |>.length_le
  simp only [BlockState.queued, moveHigher, moveLower, List.length_append]
  rcases targetHead chosen with ⟨h, hh⟩ | ⟨l, hl⟩
  · rw [hh, List.erase_cons_head, List.length_cons]
    omega
  · rw [hl, List.erase_cons_head, List.length_cons]
    omega

/- The loop of `elv_drain_elevator`, with the number of dispatches that returned 1. -/
def drainLoop (s : BlockState) : Nat × BlockState :=
  match moved : greedyDispatch s true with
  | none => (0, s)
  | some t => ((drainLoop t).1 + 1, (drainLoop t).2)
termination_by s.queued.length
decreasing_by all_goals exact dispatchShrinks moved

/- `printed++` is evaluated only when something is left. -/
def elvDrainElevator (s : BlockState) : BlockState :=
  let s := (drainLoop s).2
  if s.q.nrSorted ≠ 0 then {s with printed := s.printed + 1} else s

inductive InsertionPoint where
  | front | back | sort | requeue | flush | sortMerge
  deriving DecidableEq, Repr

inductive FlushOutcome where
  | queueFront | queueTail | offQueue
  deriving DecidableEq, Repr

def queueFront (s : BlockState) (r : Ref) : BlockState :=
  {s with q := {s.q with queueHead := r :: s.q.queueHead}}
def queueTail (s : BlockState) (r : Ref) : BlockState :=
  {s with q := {s.q with queueHead := s.q.queueHead ++ [r]}}

def blkInsertFlush (outcome : FlushOutcome) (s : BlockState) (r : Ref) : BlockState :=
  match outcome with
  | .queueFront => queueFront s r
  | .queueTail => queueTail s r
  | .offQueue => s

def markSorted (s : BlockState) (r : Ref) : BlockState :=
  let s := s.setFlags r (fun f => {f with sorted := true})
  {s with q := {s.q with nrSorted := s.q.nrSorted + 1}}

def hashMergeable (s : BlockState) (r : Ref) : Option BlockState :=
  if rqMergeable (s.req r) then
    (elvRqhashAdd s r).map fun s =>
      if s.q.lastMerge = none then {s with q := {s.q with lastMerge := some r}} else s
  else some s

/- The `ELEVATOR_INSERT_SORT` case. `none` is a `BUG_ON`. -/
def elvInsertSort (s : BlockState) (r : Ref) : Option BlockState :=
  if (s.req r).cmdType ≠ .fs then none
  else (hashMergeable (markSorted s r) r).map (greedyAddRequest · r)

def insertionPoint (rq : Request) (point : InsertionPoint) : InsertionPoint :=
  if rq.cmdFlags.softBarrier then point
  else if !rq.cmdFlags.elvPriv && (point == .sort || point == .sortMerge) then .back
  else point

def softBarrier (s : BlockState) (r : Ref) : BlockState :=
  s.setFlags r (fun f => {f with softBarrier := true})

def noteBoundary (s : BlockState) (r : Ref) : BlockState :=
  if (s.req r).cmdFlags.softBarrier && (s.req r).cmdType == .fs then
    {s with q := {s.q with endSector := s.endOf r, boundaryRq := some r}}
  else s

/- `merged` is what `elv_attempt_insert_merge` answered. The run of the queue after
an insertion at the back is whatever the driver does next. -/
def elvAddRequest (now : Timespec) (merged : Bool) (flush : FlushOutcome)
    (s : BlockState) (r : Ref) (point : InsertionPoint) : Option BlockState :=
  let s := s.setReq r (fun rq => {rq with startWait := now})
  let s := noteBoundary s r
  match insertionPoint (s.req r) point with
  | .requeue | .front => some (queueFront (softBarrier s r) r)
  | .back => some (queueTail (elvDrainElevator (softBarrier s r)) r)
  | .sortMerge => if merged then some s else elvInsertSort s r
  | .sort => elvInsertSort s r
  | .flush => some (blkInsertFlush flush (softBarrier s r) r)

def elvRequeueRequest (now : Timespec) (s : BlockState) (r : Ref) : Option BlockState :=
  elvAddRequest now false .offQueue (s.setFlags r (fun f => {f with started := false})) r .requeue

def queueFlushQueueable (s : BlockState) : Bool := !s.q.flushNotQueueable

def heldForFlush (s : BlockState) : Bool :=
  s.q.fq.flushPendingIdx != s.q.fq.flushRunningIdx && !queueFlushQueueable s

/- The request returned, if any, has been stamped. -/
def elvNextRequest (now : Timespec) (s : BlockState) : Option Ref × BlockState :=
  match s.q.queueHead with
  | r :: _ => (some r, s.setReq r (fun rq => {rq with startService := now}))
  | [] =>
    if heldForFlush s then
      (none, {s with q := {s.q with fq := {s.q.fq with flushQueueDelayed := true}}})
    else if s.q.bypass then (none, s)
    else match _moved : greedyDispatch s false with
      | none => (none, s)
      | some t => elvNextRequest now t
termination_by s.queued.length
decreasing_by exact dispatchShrinks _moved

/- Zero everything but the position, which is the largest sector. -/
def blkRqInit (s : BlockState) (r : Ref) : BlockState := s.setReq r (fun _ => unused)

theorem repositionExact (s : BlockState) (r : Ref) :
    elvRqhashReposition s r =
      some ((s.setFlags r (fun f => {f with hashed := false})).setFlags r (fun f => {f with hashed := true})) := by
  simp [elvRqhashReposition, elvRqhashAdd, elvOnHash, BlockState.setFlags, BlockState.setReq]

def sortedFlag (s : BlockState) (r : Ref) : Bool := (s.req r).cmdFlags.sorted

section Flags
variable (s : BlockState) (r x : Ref)

@[simp] theorem rqhashDelSorted : sortedFlag (elvRqhashDel s r) x = sortedFlag s x := by
  unfold elvRqhashDel sortedFlag BlockState.setFlags BlockState.setReq
  split
  · dsimp only; split <;> rfl
  · rfl
@[simp] theorem rqhashDelOnHash : elvOnHash (elvRqhashDel s r) x = (elvOnHash s x && x != r) := by
  unfold elvRqhashDel BlockState.setFlags BlockState.setReq
  by_cases same : x = r
  · subst same; split <;> simp_all [elvOnHash]
  · split <;> simp [elvOnHash, same]
@[simp] theorem moveSortedFlag : sortedFlag (greedyMove s r) x = sortedFlag s x := by
  change sortedFlag (elvRqhashDel _ r) x = sortedFlag s x
  rw [rqhashDelSorted]; split <;> rfl
@[simp] theorem moveOnHash : elvOnHash (greedyMove s r) x = (elvOnHash s x && x != r) := by
  change elvOnHash (elvRqhashDel _ r) x = _
  rw [rqhashDelOnHash]; split <;> rfl
@[simp] theorem addSortedFlag : sortedFlag (greedyAddRequest s r) x = sortedFlag s x := by
  simp only [sortedFlag, addReq]
@[simp] theorem addOnHash : elvOnHash (greedyAddRequest s r) x = elvOnHash s x := by
  simp only [elvOnHash, addReq]

end Flags

@[simp] theorem markSortedQueued (s : BlockState) (r : Ref) : (markSorted s r).q.gd = s.q.gd := rfl

theorem markSortedFlag (s : BlockState) (r x : Ref) :
    sortedFlag (markSorted s r) x = (sortedFlag s x || x == r) := by
  by_cases same : x = r
  · subst same; simp [sortedFlag, markSorted, BlockState.setFlags, BlockState.setReq]
  · simp [sortedFlag, markSorted, BlockState.setFlags, BlockState.setReq, same]

theorem markSortedOnHash (s : BlockState) (r x : Ref) :
    elvOnHash (markSorted s r) x = elvOnHash s x := by
  simp only [elvOnHash, markSorted, BlockState.setFlags, BlockState.setReq]; split <;> rfl

/- Hashing touches nothing but the hash mark and `last_merge`. -/
structure Hashed (s t : BlockState) (r : Ref) : Prop where
  lists : t.q.gd = s.q.gd
  head : t.q.queueHead = s.q.queueHead
  nrSorted : t.q.nrSorted = s.q.nrSorted
  sorted : ∀ x, sortedFlag t x = sortedFlag s x
  onHash : ∀ x, elvOnHash t x = true → elvOnHash s x = true ∨ x = r
  stamps : ∀ x, t.stamps x = s.stamps x

theorem hashMergeableCases {s t : BlockState} {r : Ref} (hashed : hashMergeable s r = some t) :
    Hashed s t r := by
  unfold hashMergeable at hashed
  split at hashed
  · obtain ⟨u, added, rfl⟩ := Option.map_eq_some_iff.mp hashed
    unfold elvRqhashAdd at added
    split at added <;> try contradiction
    cases Option.some.inj added
    have flags : ∀ x, sortedFlag (s.setFlags r (fun f => {f with hashed := true})) x = sortedFlag s x := by
      intro x
      simp only [sortedFlag, BlockState.setFlags, BlockState.setReq]; split <;> rfl
    have marks : ∀ x, elvOnHash (s.setFlags r (fun f => {f with hashed := true})) x = true →
        elvOnHash s x = true ∨ x = r := by
      intro x mark
      by_cases same : x = r
      · exact Or.inr same
      · simp only [elvOnHash, BlockState.setFlags, BlockState.setReq, same, if_false] at mark
        exact Or.inl mark
    have stamps : ∀ x, (s.setFlags r (fun f => {f with hashed := true})).stamps x = s.stamps x :=
      fun x => BlockState.setFlagsStamps s r x _
    split
    · exact ⟨rfl, rfl, rfl, flags, marks, stamps⟩
    · exact ⟨rfl, rfl, rfl, flags, marks, stamps⟩
  · cases Option.some.inj hashed
    exact ⟨rfl, rfl, rfl, fun _ => rfl, fun _ => Or.inl, fun _ => rfl⟩

theorem insertSortExact {s t : BlockState} {r : Ref} (inserted : elvInsertSort s r = some t) :
    ∃ u, Hashed (markSorted s r) u r ∧ t = greedyAddRequest u r := by
  unfold elvInsertSort at inserted
  split at inserted <;> try contradiction
  obtain ⟨u, hashed, same⟩ := Option.map_eq_some_iff.mp inserted
  exact ⟨u, hashMergeableCases hashed, same.symm⟩

theorem insertSortNoBug {s : BlockState} {r : Ref} (fs : (s.req r).cmdType = .fs)
    (unhashed : elvOnHash s r = false) : ∃ t, elvInsertSort s r = some t := by
  have clear : elvOnHash (markSorted s r) r = false := (markSortedOnHash s r r).trans unhashed
  unfold elvInsertSort hashMergeable elvRqhashAdd
  rw [if_neg (by simp [fs])]
  split
  · exact ⟨_, by rw [clear]; rfl⟩
  · exact ⟨_, rfl⟩

/- A merge of a sorted `next` takes it off the lists and the counter down by one. -/
theorem mergeSortedCases {s t : BlockState} {rq next : Ref} (sorted : sortedFlag s next = true)
    (merged : elvMergeRequests s rq next = some t) :
    t.q.gd.higher = s.q.gd.higher.erase next ∧ t.q.gd.lower = s.q.gd.lower.erase next ∧
    t.q.queueHead = s.q.queueHead.erase next ∧ t.q.nrSorted = s.q.nrSorted - 1 ∧
    (∀ x, sortedFlag t x = sortedFlag s x) ∧
    ∀ x, elvOnHash t x = true → (elvOnHash s x = true ∨ x = rq) ∧ x ≠ next := by
  have flag : (s.req next).cmdFlags.sorted = true := sorted
  unfold elvMergeRequests at merged
  simp only [flag, if_true, repositionExact, Option.map_some, Option.some.injEq] at merged
  subst merged
  refine ⟨?_, ?_, ?_, ?_, ?_, ?_⟩
  · simp [greedyMergedRequests]
  · simp [greedyMergedRequests]
  · simp [greedyMergedRequests]
  · simp only [rqhashDelQ, BlockState.setFlagsQ]; rfl
  · intro x
    change sortedFlag (elvRqhashDel _ next) x = _
    rw [rqhashDelSorted]
    simp only [sortedFlag, BlockState.setFlags, BlockState.setReq, greedyMergedRequests,
      BlockState.delReq]
    split <;> rfl
  · intro x mark
    change elvOnHash (elvRqhashDel _ next) x = true at mark
    simp only [rqhashDelOnHash, Bool.and_eq_true, bne_iff_ne, ne_eq] at mark
    refine ⟨?_, mark.2⟩
    by_cases same : x = rq
    · exact Or.inr same
    · left
      have before := mark.1
      simpa only [elvOnHash, BlockState.setFlags, BlockState.setReq, same, if_false,
        greedyMergedRequests, BlockState.delReq] using before

end KernelLabs.Block
