import KernelLabs.Block.Drain
import KernelLabs.Block.Merging
import KernelLabs.Block.Stamps

/-! The driver's side of a request queue: peeking at the top request, preparing it, taking it
off, putting it back and giving it up, with the counters kept on the way and the states of
runtime power management. The greedy elevator has no hook to be told of any of it. -/
namespace KernelLabs.DriverSide
open Block Conservation Drain

inductive RpmStatus where
  | active | resuming | suspended | suspending
  deriving DecidableEq, Repr

/- The bits `REQ_DONTPREP`, `REQ_QUIET`, `REQ_PM` and the answer of `rq_is_sync`. -/
structure Prep where
  dontPrep : Bool
  quiet : Bool
  pm : Bool
  sync : Bool
  nrPhysSegments : BitVec 16
  deriving DecidableEq, Repr

/- `resumes` counts the calls of `pm_request_resume`. -/
structure DriverQueue where
  b : BlockState
  prep : Ref → Prep
  inFlight : Bool → BitVec 32
  nrPending : BitVec 32
  rpmStatus : RpmStatus
  resumes : Nat

/- Whether `q->dev`, `q->dma_drain_size` and `q->prep_rq_fn` are set. -/
structure Config where
  dev : Bool
  dmaDrain : Bool
  prepFn : Bool

inductive BlkPrep where
  | ok | kill | defer | other
  deriving DecidableEq, Repr

/- A round of peeking: the clock, and what `prep_rq_fn` answers and marks if it is called. -/
structure PeekRound where
  now : Timespec
  result : BlkPrep
  dontPrep : Bool

abbrev AttemptMerge := DriverQueue → Ref → Ref → BitVec 16 → Option (Bool × DriverQueue)

def DriverQueue.setPrep (s : DriverQueue) (r : Ref) (f : Prep → Prep) : DriverQueue :=
  {s with prep := fun x => if x = r then f (s.prep x) else s.prep x}

def blkAccountRq (rq : Request) : Bool := rq.cmdFlags.started && rq.cmdType == .fs

def queuedRq (b : BlockState) (r : Ref) : Prop := r ∈ b.queued ++ b.q.queueHead
instance (b : BlockState) (r : Ref) : Decidable (queuedRq b r) := by unfold queuedRq; infer_instance

section
variable (c : Config)

def normal (s : DriverQueue) (r : Ref) : Bool := c.dev && !(s.prep r).pm

def blkPmAddRequest (s : DriverQueue) (r : Ref) : DriverQueue :=
  if normal c s r then
    let asks := s.nrPending = 0 ∧ (s.rpmStatus = .suspended ∨ s.rpmStatus = .suspending)
    {s with nrPending := s.nrPending + 1, resumes := if asks then s.resumes + 1 else s.resumes}
  else s

def blkPmPutRequest (s : DriverQueue) (r : Ref) : DriverQueue :=
  if normal c s r then {s with nrPending := s.nrPending - 1} else s

def blkPmRequeueRequest (s : DriverQueue) (r : Ref) : DriverQueue :=
  if normal c s r then {s with nrPending := s.nrPending - 1} else s

/- Whether `blk_pm_peek_request` answers no request. -/
def heldBack (s : DriverQueue) (r : Ref) : Bool :=
  c.dev && (s.rpmStatus == .suspended || (s.rpmStatus != .active && !(s.prep r).pm))

def count (s : DriverQueue) (r : Ref) (n : BitVec 32) : DriverQueue :=
  if blkAccountRq (s.b.req r) then
    {s with inFlight := fun d => if d = (s.prep r).sync then s.inFlight d + n else s.inFlight d}
  else s

def elvCompletedRequest (s : DriverQueue) (r : Ref) : DriverQueue := count s r (-1)

/- `none` is one of the two `BUG_ON`s. -/
def blkPutRequest (s : DriverQueue) (r : Ref) : Option DriverQueue :=
  if queuedRq s.b r ∨ elvOnHash s.b r then none
  else some (elvCompletedRequest (blkPmPutRequest c s r) r)

/- One queued request is merged into another, which is extended and has its segments counted anew;
what it absorbed is put. -/
def mergeQueued (s : DriverQueue) (rq next : Ref) (segments : BitVec 16) : Option DriverQueue :=
  match elvMergeRequests (Merging.absorb s.b rq next) rq next with
  | none => none
  | some b => blkPutRequest c (({s with b := b} : DriverQueue).setPrep rq
      (fun p => {p with nrPhysSegments := segments})) next

/- `blk_attempt_req_merge`, with the segments that a merge would count, is outside: it merges the
two requests or leaves both, and tells which. -/
structure AttemptRules (attempt : AttemptMerge) : Prop where
  attempts : ∀ s rq next segments, attempt s rq next segments = some (false, s) ∨
    attempt s rq next segments = (mergeQueued c s rq next segments).map fun s => (true, s)

/- A request merged at once is put by the merge; further rounds merge queued requests. -/
def elvAddRequest (now : Timespec) (merged : Bool) (s : DriverQueue) (r : Ref) (point : InsertionPoint) :
    Option DriverQueue :=
  let gone := merged && insertionPoint (s.b.req r) point == .sortMerge
  let s := blkPmAddRequest c s r
  match Block.elvAddRequest now merged .offQueue s.b r point with
  | none => none
  | some b => if gone then blkPutRequest c {s with b := b} r else some {s with b := b}

def elvRequeueRequest (now : Timespec) (s : DriverQueue) (r : Ref) : Option DriverQueue :=
  let s := count s r (-1)
  let s := {s with b := s.b.setFlags r (fun f => {f with started := false})}
  elvAddRequest c now false (blkPmRequeueRequest c s r) r .requeue

def blkRequeueRequest (now : Timespec) (s : DriverQueue) (r : Ref) : Option DriverQueue :=
  if queuedRq s.b r then none else elvRequeueRequest c now s r

def blkDequeueRequest (s : DriverQueue) (r : Ref) : Option DriverQueue :=
  (Stamps.blkDequeueRequest s.b r).map fun b => count {s with b := b} r 1

/- The timer and the residual length are left out, and with the timer
`BUG_ON(test_bit(REQ_ATOM_COMPLETE, ..))`. -/
def blkStartRequest (s : DriverQueue) (r : Ref) : Option DriverQueue := blkDequeueRequest s r

def blkUnprepRequest (s : DriverQueue) (r : Ref) : DriverQueue := s.setPrep r (fun p => {p with dontPrep := false})

/- What is counted here of the completion of a request that has no `end_io`: one that has is put
when that is called, and is counted until then. Tags and the timer are left out. -/
def blkFinishRequest (s : DriverQueue) (r : Ref) : Option DriverQueue :=
  if queuedRq s.b r then none
  else blkPutRequest c (if (s.prep r).dontPrep then blkUnprepRequest s r else s) r

/- The `BLKPREP_KILL` case: the request is started and ended with an error. `BUG_ON(pending)` of
`__blk_end_request_all` is left to the model of partial completion. -/
def kill (s : DriverQueue) (r : Ref) : Option DriverQueue :=
  (blkStartRequest (s.setPrep r (fun p => {p with quiet := true})) r).bind (fun s => blkFinishRequest c s r)

def markStarted (s : DriverQueue) (r : Ref) : DriverQueue :=
  {s with b := s.b.setFlags r (fun f => {f with started := true})}

def noteEnd (s : DriverQueue) (r : Ref) : DriverQueue :=
  if s.b.q.boundaryRq = none ∨ s.b.q.boundaryRq = some r then
    {s with b := {s.b with q := {s.b.q with endSector := s.b.endOf r, boundaryRq := none}}}
  else s

def drains (s : DriverQueue) (r : Ref) : Bool := c.dmaDrain && (s.b.req r).dataLen != 0

def addRoom (s : DriverQueue) (r : Ref) (n : BitVec 16) : DriverQueue :=
  if drains c s r then s.setPrep r (fun p => {p with nrPhysSegments := p.nrPhysSegments + n}) else s

def callPrep (s : DriverQueue) (r : Ref) (round : PeekRound) : DriverQueue :=
  s.setPrep r (fun p => {p with dontPrep := p.dontPrep || round.dontPrep})

/- The loop of `blk_peek_request`; a killed request makes it go round. -/
def blkPeekRequest (rounds : Nat → PeekRound) : Nat → DriverQueue → Option (Option Ref × DriverQueue)
  | 0, _ => none
  | fuel + 1, s =>
    let round := rounds fuel
    match Block.elvNextRequest round.now s.b with
    | (none, b) => some (none, {s with b := b})
    | (some r, b) =>
      let s := {s with b := b}
      if heldBack c s r then some (none, s)
      else
        let s := noteEnd (markStarted s r) r
        if (s.prep r).dontPrep then some (some r, s)
        else
          let s := addRoom c s r 1
          if !c.prepFn then some (some r, s)
          else
            let s := callPrep s r round
            match round.result with
            | .ok => some (some r, s)
            | .defer => some (none, if (s.prep r).dontPrep then s else addRoom c s r (-1))
            | .kill =>
              match kill c s r with
              | none => none
              | some s => blkPeekRequest rounds fuel s
            | .other => some (some r, s)

def blkFetchRequest (rounds : Nat → PeekRound) (fuel : Nat) (s : DriverQueue) : Option (Option Ref × DriverQueue) :=
  match blkPeekRequest c rounds fuel s with
  | none => none
  | some (none, s) => some (none, s)
  | some (some r, s) => (blkStartRequest s r).map fun s => (some r, s)

/- The answer tells whether the device may suspend. -/
def blkPreRuntimeSuspend (s : DriverQueue) : Bool × DriverQueue :=
  if s.nrPending ≠ 0 then (false, s) else (true, {s with rpmStatus := .suspending})

def blkPostRuntimeSuspend (s : DriverQueue) (failed : Bool) : DriverQueue :=
  {s with rpmStatus := if failed then .active else .suspended}

def blkPreRuntimeResume (s : DriverQueue) : DriverQueue := {s with rpmStatus := .resuming}

/- The run of the queue that follows is whatever the driver does next. -/
def blkPostRuntimeResume (s : DriverQueue) (failed : Bool) : DriverQueue :=
  {s with rpmStatus := if failed then .suspended else .active}

end

end KernelLabs.DriverSide
