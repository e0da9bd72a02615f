import Mathlib.Algebra.Ring.Int.Defs
import Mathlib.Data.List.Perm.Basic
import KernelLabs.Block.Request
import KernelLabs.Library.Runs

/-! Allocation of requests. `__get_request` gives up the queue lock while it allocates, so
other tasks come in between; each operation here is one section under the lock, and
`blk_set_queue_dying`, which takes no lock, comes between two of them. Built without
`CONFIG_BLK_CGROUP`: the queue has one `request_list`. -/
namespace KernelLabs.RequestAllocation
open Block Runs

abbrev TaskId := Nat

/- `elv_may_queue`, answered by the elevator in use. -/
inductive MayQueue where
  | may | no | must
  deriving DecidableEq, Repr

structure IoContext where
  nrBatchRequests : Int
  lastWaited : BitVec 64
  deriving DecidableEq, Repr

/- What a caller of `get_request` asks for: `rw_is_sync` of its flags, whether the bio
wants elevator data (`blk_rq_should_init_elevator`), and `__GFP_WAIT`. -/
structure Call where
  task : TaskId
  isSync : Bool
  initElevator : Bool
  gfpWait : Bool
  deriving DecidableEq, Repr

/- Arrays indexed by `BLK_RW_SYNC` and `BLK_RW_ASYNC` are functions of `sync`. `woken` holds
the callers that `wake_up` took from a wait queue and that have not run since. -/
structure RequestList where
  count : Bool → Int
  starved : Bool → Bool
  full : Bool → Bool
  congested : Bool → Bool
  wait : Bool → List Call
  woken : List Call

structure AllocQueue where
  rl : RequestList
  nrRequests : Int
  nrCongestionOn : Int
  nrCongestionOff : Int
  nrBatching : Int
  nrRqs : Bool → Int
  nrRqsElvpriv : Int
  bypassDepth : Int
  bypass : Bool
  dying : Bool

def set {α : Type} (f : Bool → α) (sync : Bool) (a : α) : Bool → α := fun x => if x = sync then a else f x

@[simp] theorem setSame {α : Type} (f : Bool → α) (sync : Bool) (a : α) : set f sync a sync = a := if_pos rfl

theorem setOther {α : Type} (f : Bool → α) {sync other : Bool} (a : α) (apart : other ≠ sync) :
    set f sync a other = f other := if_neg apart

/- `nr_requests` is an `unsigned long`, the local variable an `int` that gets its low half. -/
def asInt (n : Int) : Int := n.bmod (2 ^ 32)

/- The comparison is one of `unsigned long`. -/
def congestionOn (nr : Int) : Int :=
  let n := asInt (nr - nr / 8 + 1)
  if n % 2 ^ 64 > nr then asInt nr else n

def congestionOff (nr : Int) : Int :=
  let n := asInt (nr - nr / 8 - nr / 16 - 1)
  if n < 1 then 1 else n

def blkQueueCongestionThreshold (q : AllocQueue) : AllocQueue :=
  {q with nrCongestionOn := congestionOn q.nrRequests, nrCongestionOff := congestionOff q.nrRequests}

def setCongested (q : AllocQueue) (sync : Bool) (value : Bool) : AllocQueue :=
  {q with rl := {q.rl with congested := set q.rl.congested sync value}}

def setFull (q : AllocQueue) (sync : Bool) (value : Bool) : AllocQueue :=
  {q with rl := {q.rl with full := set q.rl.full sync value}}

/- All waiters are exclusive: `wake_up` takes the first one off the queue. -/
def wakeUp (q : AllocQueue) (sync : Bool) : AllocQueue :=
  match q.rl.wait sync with
  | [] => q
  | w :: rest => {q with rl := {q.rl with wait := set q.rl.wait sync rest, woken := q.rl.woken ++ [w]}}

def wakeUpAll (q : AllocQueue) (sync : Bool) : AllocQueue :=
  {q with rl := {q.rl with wait := set q.rl.wait sync [], woken := q.rl.woken ++ q.rl.wait sync}}

/- `__freed_request`. -/
def freedOne (q : AllocQueue) (sync : Bool) : AllocQueue :=
  let q := if q.rl.count sync < q.nrCongestionOff then setCongested q sync false else q
  if q.rl.count sync + 1 ≤ q.nrRequests then setFull (wakeUp q sync) sync false else q

def freedRequest (q : AllocQueue) (sync elvPriv : Bool) : AllocQueue :=
  let q := {q with nrRqs := set q.nrRqs sync (q.nrRqs sync - 1),
                   rl := {q.rl with count := set q.rl.count sync (q.rl.count sync - 1)}}
  let q := if elvPriv then {q with nrRqsElvpriv := q.nrRqsElvpriv - 1} else q
  let q := freedOne q sync
  if q.rl.starved (!sync) then freedOne q (!sync) else q

/- The part of `blk_update_nr_requests` for one direction. -/
def updateCongested (q : AllocQueue) (sync : Bool) : AllocQueue :=
  if q.rl.count sync ≥ q.nrCongestionOn then setCongested q sync true
  else if q.rl.count sync < q.nrCongestionOff then setCongested q sync false
  else q

def updateFull (q : AllocQueue) (sync : Bool) : AllocQueue :=
  if q.rl.count sync ≥ q.nrRequests then setFull q sync true
  else wakeUp (setFull q sync false) sync

def blkUpdateNrRequests (q : AllocQueue) (nr : Int) : AllocQueue :=
  let q := blkQueueCongestionThreshold {q with nrRequests := nr}
  updateFull (updateFull (updateCongested (updateCongested q true) false) true) false

/- `jiffies` wrap around; `time_before` looks at the sign of the difference. -/
def timeBefore (a b : BitVec 64) : Bool := (a - b).msb

section
variable (batchTime : BitVec 64)

def iocBatching (q : AllocQueue) (ioc : Option IoContext) (jiffies : BitVec 64) : Bool :=
  match ioc with
  | none => false
  | some ioc => ioc.nrBatchRequests == q.nrBatching ||
      (decide (0 < ioc.nrBatchRequests) && timeBefore jiffies (ioc.lastWaited + batchTime))

def iocSetBatching (q : AllocQueue) (ioc : Option IoContext) (jiffies : BitVec 64) : Option IoContext :=
  if iocBatching batchTime q ioc jiffies then ioc
  else ioc.map (fun _ => ⟨q.nrBatching, jiffies⟩)

inductive Outcome where
  | enodev
  | enomem
  | go (elvPriv : Bool)
  deriving DecidableEq, Repr

def markStarved (q : AllocQueue) (sync : Bool) : AllocQueue :=
  if q.rl.count sync = 0 then {q with rl := {q.rl with starved := set q.rl.starved sync true}} else q

/- From the limit check to `spin_unlock_irq`: the request is counted before it exists. -/
def countRequest (q : AllocQueue) (call : Call) : AllocQueue × Outcome :=
  let s := call.isSync
  if q.rl.count s ≥ 3 * q.nrRequests / 2 then (q, .enomem)
  else
    let q := {q with nrRqs := set q.nrRqs s (q.nrRqs s + 1),
                     rl := {q.rl with count := set q.rl.count s (q.rl.count s + 1),
                                      starved := set q.rl.starved s false}}
    if call.initElevator && !q.bypass then ({q with nrRqsElvpriv := q.nrRqsElvpriv + 1}, .go true)
    else (q, .go false)

/- The first section of `__get_request`. -/
def getRequestSection (q : AllocQueue) (ioc : Option IoContext) (call : Call) (mayQueue : MayQueue)
    (jiffies : BitVec 64) : AllocQueue × Option IoContext × Outcome :=
  let s := call.isSync
  if q.dying then (q, ioc, .enodev)
  else if mayQueue = .no then (markStarved q s, ioc, .enomem)
  else if q.rl.count s + 1 ≥ q.nrCongestionOn then
    if q.rl.count s + 1 ≥ q.nrRequests then
      if !q.rl.full s then
        let ioc := iocSetBatching batchTime q ioc jiffies
        let (q, outcome) := countRequest (setCongested (setFull q s true) s true) call
        (q, ioc, outcome)
      else if mayQueue ≠ .must ∧ iocBatching batchTime q ioc jiffies = false then (q, ioc, .enomem)
      else
        let (q, outcome) := countRequest (setCongested q s true) call
        (q, ioc, outcome)
    else
      let (q, outcome) := countRequest (setCongested q s true) call
      (q, ioc, outcome)
  else
    let (q, outcome) := countRequest q call
    (q, ioc, outcome)

end

/- A caller between the two sections: counted, its request not yet allocated. -/
structure Filling where
  call : Call
  elvPriv : Bool
  deriving DecidableEq, Repr

/- An allocated request. -/
structure Allocated where
  rq : Ref
  isSync : Bool
  elvPriv : Bool
  deriving DecidableEq, Repr

/- `demoting` are requests whose elevator data failed, before `nr_rqs_elvpriv` is taken back.
`quiet` counts the callers of `blk_queue_bypass_start` that have returned and not ended the
bypass, `cleanedUp` says that `blk_cleanup_queue` is past its drain, and `peak` is the
largest `nr_requests` so far. -/
structure AllocState where
  q : AllocQueue
  ioc : TaskId → Option IoContext
  filling : List Filling
  demoting : List (Call × Ref)
  live : List Allocated
  quiet : Int
  cleanedUp : Bool
  peak : Int

inductive AllocOp where
  | get (call : Call) (mayQueue : MayQueue) (jiffies : BitVec 64)
  | retry (call : Call) (mayQueue : MayQueue) (jiffies : BitVec 64)
  | allocFails (f : Filling)
  | allocated (f : Filling) (rq : Ref) (elvOk : Bool) (jiffies : BitVec 64)
  | demote (call : Call) (rq : Ref) (jiffies : BitVec 64)
  | put (rq : Allocated)
  | updateNr (nr : Int)
  | bypassStart
  | drained
  | bypassEnd
  | setDying
  | cleanupDrained
  deriving DecidableEq, Repr

section
variable (batchTime : BitVec 64)

/- `get_request` after a failed try: give up, or wait at the end of the queue. -/
def sleepOrFail (s : AllocState) (call : Call) : AllocState :=
  if call.gfpWait = false ∨ s.q.dying then s
  else {s with q := {s.q with rl := {s.q.rl with
    wait := set s.q.rl.wait call.isSync (s.q.rl.wait call.isSync ++ [call])}}}

def tryGet (s : AllocState) (call : Call) (mayQueue : MayQueue) (jiffies : BitVec 64) : AllocState :=
  let (q, ioc, outcome) := getRequestSection batchTime s.q (s.ioc call.task) call mayQueue jiffies
  let s := {s with q := q, ioc := fun t => if t = call.task then ioc else s.ioc t}
  match outcome with
  | .go elvPriv => {s with filling := s.filling ++ [⟨call, elvPriv⟩]}
  | _ => sleepOrFail s call

/- The label `out` of `__get_request`. -/
def takeBatch (s : AllocState) (task : TaskId) (jiffies : BitVec 64) : AllocState :=
  if iocBatching batchTime s.q (s.ioc task) jiffies then
    {s with ioc := fun t => if t = task then
      (s.ioc t).map (fun ioc => {ioc with nrBatchRequests := ioc.nrBatchRequests - 1}) else s.ioc t}
  else s

/- After `io_schedule` returned: `ioc_set_batching` and `finish_wait`. -/
def resume (s : AllocState) (call : Call) (jiffies : BitVec 64) : AllocState :=
  {s with
    q := {s.q with rl := {s.q.rl with woken := s.q.rl.woken.erase call}},
    ioc := fun t => if t = call.task then iocSetBatching batchTime s.q (s.ioc t) jiffies else s.ioc t}

def step (s : AllocState) : AllocOp → Option AllocState
  | .get call mayQueue jiffies => some (tryGet batchTime s call mayQueue jiffies)
  | .retry call mayQueue jiffies =>
    if call ∈ s.q.rl.woken then
      some (tryGet batchTime (resume batchTime s call jiffies) call mayQueue jiffies)
    else none
  | .allocFails f =>
    if f ∈ s.filling then
      let s := {s with
        filling := s.filling.erase f,
        q := markStarved (freedRequest s.q f.call.isSync f.elvPriv) f.call.isSync}
      some (sleepOrFail s f.call)
    else none
  | .allocated f rq elvOk jiffies =>
    if f ∈ s.filling then
      let s := {s with filling := s.filling.erase f}
      if f.elvPriv && !elvOk then some {s with demoting := s.demoting ++ [(f.call, rq)]}
      else some (takeBatch batchTime {s with live := s.live ++ [⟨rq, f.call.isSync, f.elvPriv⟩]} f.call.task jiffies)
    else none
  | .demote call rq jiffies =>
    if (call, rq) ∈ s.demoting then
      let s := {s with
        demoting := s.demoting.erase (call, rq),
        live := s.live ++ [⟨rq, call.isSync, false⟩],
        q := {s.q with nrRqsElvpriv := s.q.nrRqsElvpriv - 1}}
      some (takeBatch batchTime s call.task jiffies)
    else none
  | .put rq =>
    if rq ∈ s.live then
      some {s with live := s.live.erase rq, q := freedRequest s.q rq.isSync rq.elvPriv}
    else none
  | .updateNr nr =>
    if 1 ≤ nr ∧ nr < 2 ^ 32 then some {s with q := blkUpdateNrRequests s.q nr, peak := max s.peak nr} else none
  | .bypassStart => some {s with q := {s.q with bypassDepth := s.q.bypassDepth + 1, bypass := true}}
  | .drained =>
    if s.quiet < s.q.bypassDepth ∧ s.q.nrRqsElvpriv = 0 then
      some {s with q := wakeUpAll (wakeUpAll s.q false) true, quiet := s.quiet + 1}
    else none
  | .bypassEnd =>
    if 0 < s.quiet then
      some {s with
        quiet := s.quiet - 1,
        q := {s.q with
          bypassDepth := s.q.bypassDepth - 1,
          bypass := if s.q.bypassDepth - 1 = 0 then false else s.q.bypass}}
    else none
  | .setDying =>
    some {s with q := wakeUp (wakeUp {s.q with dying := true} true) false}
  | .cleanupDrained =>
    if s.q.dying ∧ s.q.nrRqs true = 0 ∧ s.q.nrRqs false = 0 ∧ s.q.nrRqsElvpriv = 0 then
      some {s with q := wakeUpAll (wakeUpAll s.q false) true, cleanedUp := true}
    else none

end

/- The fields that waking, freeing and the flags leave alone. -/
structure Frame (q u : AllocQueue) : Prop where
  count : u.rl.count = q.rl.count
  starved : u.rl.starved = q.rl.starved
  nrRequests : u.nrRequests = q.nrRequests
  on : u.nrCongestionOn = q.nrCongestionOn
  off : u.nrCongestionOff = q.nrCongestionOff
  nrRqs : u.nrRqs = q.nrRqs
  elvpriv : u.nrRqsElvpriv = q.nrRqsElvpriv
  depth : u.bypassDepth = q.bypassDepth
  bypass : u.bypass = q.bypass
  dying : u.dying = q.dying

theorem frameRefl (q : AllocQueue) : Frame q q := ⟨rfl, rfl, rfl, rfl, rfl, rfl, rfl, rfl, rfl, rfl⟩

theorem frameTrans {q u v : AllocQueue} (first : Frame q u) (second : Frame u v) : Frame q v :=
  ⟨second.count.trans first.count, second.starved.trans first.starved,
    second.nrRequests.trans first.nrRequests, second.on.trans first.on, second.off.trans first.off,
    second.nrRqs.trans first.nrRqs, second.elvpriv.trans first.elvpriv, second.depth.trans first.depth,
    second.bypass.trans first.bypass, second.dying.trans first.dying⟩

theorem congestedFrame (q : AllocQueue) (sync value : Bool) : Frame q (setCongested q sync value) :=
  ⟨rfl, rfl, rfl, rfl, rfl, rfl, rfl, rfl, rfl, rfl⟩

theorem fullFrame (q : AllocQueue) (sync value : Bool) : Frame q (setFull q sync value) :=
  ⟨rfl, rfl, rfl, rfl, rfl, rfl, rfl, rfl, rfl, rfl⟩

theorem wakeUpFrame (q : AllocQueue) (sync : Bool) : Frame q (wakeUp q sync) := by
  rw [wakeUp]
  split
  · exact frameRefl q
  · exact ⟨rfl, rfl, rfl, rfl, rfl, rfl, rfl, rfl, rfl, rfl⟩

theorem wakeUpFlags (q : AllocQueue) (sync : Bool) :
    (wakeUp q sync).rl.full = q.rl.full ∧ (wakeUp q sync).rl.congested = q.rl.congested := by
  rw [wakeUp]
  split <;> exact ⟨rfl, rfl⟩

theorem freedOneFrame (q : AllocQueue) (sync : Bool) : Frame q (freedOne q sync) := by
  rw [freedOne]
  have first : Frame q (if q.rl.count sync < q.nrCongestionOff then setCongested q sync false else q) := by
    split
    · exact congestedFrame q sync false
    · exact frameRefl q
  generalize (if q.rl.count sync < q.nrCongestionOff then setCongested q sync false else q) = u at first
  show Frame q (if u.rl.count sync + 1 ≤ u.nrRequests then setFull (wakeUp u sync) sync false else u)
  split
  · exact frameTrans first (frameTrans (wakeUpFrame u sync) (fullFrame _ sync false))
  · exact first

/- What `nr_requests` has to be for the thresholds to fit into an `int`. -/
def FitsInt (q : AllocQueue) : Prop := q.nrRequests < 2 ^ 31

/- `full` says that `nr_requests` are counted; `congested` follows with a delay: it is on from
the upper threshold and off below the lower one. -/
structure FlagsAt (q : AllocQueue) (sync : Bool) : Prop where
  full : q.rl.full sync = true ↔ q.nrRequests ≤ q.rl.count sync
  congested : FitsInt q → q.rl.congested sync = true → q.nrCongestionOff ≤ q.rl.count sync
  uncongested : FitsInt q → q.rl.congested sync = false → q.rl.count sync < q.nrCongestionOn

/- What is left of that in one direction right after a request was taken off the count. -/
structure LooseAt (q : AllocQueue) (sync : Bool) : Prop where
  full : q.nrRequests ≤ q.rl.count sync → q.rl.full sync = true
  uncongested : FitsInt q → q.rl.congested sync = false → q.rl.count sync < q.nrCongestionOn

structure Thresholds (q : AllocQueue) : Prop where
  some' : 1 ≤ q.nrRequests
  on : q.nrCongestionOn = congestionOn q.nrRequests
  off : q.nrCongestionOff = congestionOff q.nrRequests

theorem asIntExact {n : Int} (low : 0 ≤ n) (high : n < 2 ^ 31) : asInt n = n :=
  Int.bmod_eq_of_le (by omega) (by omega)

theorem asIntLe (n : Int) : asInt n ≤ n % 2 ^ 32 := by
  rw [asInt, Int.bmod_eq_emod]
  split <;> omega

/- A threshold above the limit is cut down to it, and so is one that comes out negative. -/
theorem congestionCapped {nr : Int} (some' : 1 ≤ nr) : congestionOn nr ≤ nr := by
  have first := asIntLe (nr - nr / 8 + 1)
  have cut := asIntLe nr
  simp only [congestionOn]
  split <;> omega

theorem thresholdOrder {nr : Int} (some' : 1 ≤ nr) (fits : nr < 2 ^ 31) :
    1 ≤ congestionOff nr ∧ congestionOff nr ≤ congestionOn nr := by
  simp only [congestionOn, congestionOff]
  rw [asIntExact (n := nr - nr / 8 + 1) (by omega) (by omega), asIntExact (n := nr) (by omega) fits,
    asIntExact (n := nr - nr / 8 - nr / 16 - 1) (by omega) (by omega)]
  split <;> split <;> omega

theorem freedOneFull (q : AllocQueue) (sync b : Bool) :
    (freedOne q sync).rl.full b =
      if b = sync ∧ q.rl.count sync + 1 ≤ q.nrRequests then false else q.rl.full b := by
  by_cases low : q.rl.count sync < q.nrCongestionOff <;>
  by_cases room : q.rl.count sync + 1 ≤ q.nrRequests <;>
  by_cases same : b = sync <;>
  simp [freedOne, low, room, same, setFull, setCongested, set, wakeUpFlags]

theorem freedOneCongested (q : AllocQueue) (sync b : Bool) :
    (freedOne q sync).rl.congested b =
      if b = sync ∧ q.rl.count sync < q.nrCongestionOff then false else q.rl.congested b := by
  by_cases low : q.rl.count sync < q.nrCongestionOff <;>
  by_cases room : q.rl.count sync + 1 ≤ q.nrRequests <;>
  by_cases same : b = sync <;>
  simp [freedOne, low, room, same, setFull, setCongested, set, wakeUpFlags]

theorem freedOneFlags {q : AllocQueue} {sync : Bool} (thresholds : Thresholds q) (loose : LooseAt q sync) :
    FlagsAt (freedOne q sync) sync := by
  have frame := freedOneFrame q sync
  refine ⟨?_, ?_, ?_⟩
  · rw [freedOneFull, frame.nrRequests, frame.count]
    split
    · rename_i room
      exact ⟨fun full => absurd full Bool.false_ne_true, fun above => by omega⟩
    · rename_i crowded
      have above : q.nrRequests ≤ q.rl.count sync := by
        by_contra below
        exact crowded ⟨rfl, by omega⟩
      exact ⟨fun _ => above, loose.full⟩
  · intro _
    rw [freedOneCongested, frame.off, frame.count]
    split
    · exact fun congested => absurd congested Bool.false_ne_true
    · rename_i high
      intro _
      by_contra low
      exact high ⟨rfl, by omega⟩
  · intro fits
    rw [FitsInt, frame.nrRequests] at fits
    obtain ⟨-, ordered⟩ := thresholdOrder thresholds.some' fits
    rw [← thresholds.off, ← thresholds.on] at ordered
    rw [freedOneCongested, frame.on, frame.count]
    split
    · rename_i low
      intro _
      omega
    · exact loose.uncongested fits

theorem freedOneOther {q : AllocQueue} {sync other : Bool} (apart : other ≠ sync) (flags : FlagsAt q other) :
    FlagsAt (freedOne q sync) other := by
  have frame := freedOneFrame q sync
  have same : ∀ p : Prop, ¬ (other = sync ∧ p) := fun p both => apart both.1
  refine ⟨?_, ?_, ?_⟩
  · rw [freedOneFull, if_neg (same _), frame.nrRequests, frame.count]
    exact flags.full
  · rw [FitsInt, freedOneCongested, if_neg (same _), frame.off, frame.count, frame.nrRequests]
    exact flags.congested
  · rw [FitsInt, freedOneCongested, if_neg (same _), frame.on, frame.count, frame.nrRequests]
    exact flags.uncongested

theorem looseOf {q : AllocQueue} {sync : Bool} (flags : FlagsAt q sync) : LooseAt q sync :=
  ⟨flags.full.mpr, flags.uncongested⟩

structure Flags (q : AllocQueue) : Prop where
  thresholds : Thresholds q
  at' : ∀ sync, FlagsAt q sync

theorem thresholdsOf {q u : AllocQueue} (frame : Frame q u) (thresholds : Thresholds q) : Thresholds u :=
  ⟨frame.nrRequests ▸ thresholds.some', by rw [frame.on, frame.nrRequests, thresholds.on],
    by rw [frame.off, frame.nrRequests, thresholds.off]⟩

/- `freed_request` before it looks at the flags. -/
def uncount (q : AllocQueue) (sync elvPriv : Bool) : AllocQueue :=
  {q with
    nrRqs := set q.nrRqs sync (q.nrRqs sync - 1),
    nrRqsElvpriv := q.nrRqsElvpriv - (if elvPriv then 1 else 0),
    rl := {q.rl with count := set q.rl.count sync (q.rl.count sync - 1)}}

theorem freedRequestUncount (q : AllocQueue) (sync elvPriv : Bool) :
    freedRequest q sync elvPriv =
      if q.rl.starved (!sync) then freedOne (freedOne (uncount q sync elvPriv) sync) (!sync)
      else freedOne (uncount q sync elvPriv) sync := by
  have same : (freedOne (uncount q sync elvPriv) sync).rl.starved = q.rl.starved :=
    (freedOneFrame (uncount q sync elvPriv) sync).starved
  cases elvPriv <;> simp only [uncount, if_true, Bool.false_eq_true, if_false, Int.sub_zero] at same ⊢ <;>
    simp only [freedRequest, if_true, Bool.false_eq_true, if_false, same]

theorem freedRequestFrame (q : AllocQueue) (sync elvPriv : Bool) :
    Frame (uncount q sync elvPriv) (freedRequest q sync elvPriv) := by
  rw [freedRequestUncount]
  split
  · exact frameTrans (freedOneFrame _ sync) (freedOneFrame _ (!sync))
  · exact freedOneFrame _ sync

theorem freedRequestFlags {q : AllocQueue} (sync elvPriv : Bool) (flags : Flags q) :
    Flags (freedRequest q sync elvPriv) := by
  have thresholds : Thresholds (uncount q sync elvPriv) :=
    ⟨flags.thresholds.some', flags.thresholds.on, flags.thresholds.off⟩
  have loose : LooseAt (uncount q sync elvPriv) sync := by
    have here := flags.at' sync
    refine ⟨fun above => here.full.mpr ?_, fun fits uncongested => ?_⟩
    · simp only [uncount, setSame] at above
      omega
    · have below := here.uncongested fits uncongested
      simp only [uncount, setSame]
      omega
  have other : FlagsAt (uncount q sync elvPriv) (!sync) := by
    have there := flags.at' (!sync)
    have same : (uncount q sync elvPriv).rl.count (!sync) = q.rl.count (!sync) :=
      setOther q.rl.count _ (by cases sync <;> decide)
    exact ⟨by rw [same]; exact there.full, by rw [same]; exact there.congested,
      by rw [same]; exact there.uncongested⟩
  have apart : (!sync) ≠ sync := by cases sync <;> decide
  have first : Flags (freedOne (uncount q sync elvPriv) sync) := by
    refine ⟨thresholdsOf (freedOneFrame _ sync) thresholds, fun b => ?_⟩
    by_cases same : b = sync
    · rw [same]
      exact freedOneFlags thresholds loose
    · rw [show b = !sync by cases b <;> cases sync <;> simp_all]
      exact freedOneOther apart other
  rw [freedRequestUncount]
  split
  · refine ⟨thresholdsOf (freedOneFrame _ (!sync)) first.thresholds, fun b => ?_⟩
    by_cases same : b = !sync
    · rw [same]
      exact freedOneFlags first.thresholds (looseOf (first.at' (!sync)))
    · exact freedOneOther same (first.at' b)
  · exact first

theorem flagsSame {q u : AllocQueue} (flags : Flags q) (full : u.rl.full = q.rl.full)
    (congested : u.rl.congested = q.rl.congested) (count : u.rl.count = q.rl.count)
    (nr : u.nrRequests = q.nrRequests) (on : u.nrCongestionOn = q.nrCongestionOn)
    (off : u.nrCongestionOff = q.nrCongestionOff) : Flags u :=
  ⟨⟨nr ▸ flags.thresholds.some', by rw [on, nr, flags.thresholds.on], by rw [off, nr, flags.thresholds.off]⟩,
    fun sync =>
      ⟨by rw [full, nr, count]; exact (flags.at' sync).full,
        by rw [FitsInt, nr, congested, off, count]; exact (flags.at' sync).congested,
        by rw [FitsInt, nr, congested, on, count]; exact (flags.at' sync).uncongested⟩⟩

theorem flagsOf {q u : AllocQueue} (frame : Frame q u) (full : u.rl.full = q.rl.full)
    (congested : u.rl.congested = q.rl.congested) (flags : Flags q) : Flags u :=
  flagsSame flags full congested frame.count frame.nrRequests frame.on frame.off

theorem markStarvedFlags {q : AllocQueue} (sync : Bool) (flags : Flags q) : Flags (markStarved q sync) := by
  simp only [markStarved]
  split
  · exact flagsSame flags rfl rfl rfl rfl rfl rfl
  · exact flags

theorem markStarvedCounts (q : AllocQueue) (sync : Bool) :
    (markStarved q sync).rl.count = q.rl.count ∧ (markStarved q sync).nrRqs = q.nrRqs ∧
      (markStarved q sync).nrRqsElvpriv = q.nrRqsElvpriv ∧ (markStarved q sync).nrRequests = q.nrRequests := by
  simp only [markStarved]
  split <;> exact ⟨rfl, rfl, rfl, rfl⟩

/- `blk_update_nr_requests`: the flags are made anew for the new thresholds. -/
theorem updateCongestedFlags (q : AllocQueue) (sync : Bool) :
    Frame q (updateCongested q sync) ∧ (updateCongested q sync).rl.full = q.rl.full ∧
      ∀ b, (updateCongested q sync).rl.congested b =
        if b = sync ∧ q.rl.count sync ≥ q.nrCongestionOn then true
        else if b = sync ∧ q.rl.count sync < q.nrCongestionOff then false else q.rl.congested b := by
  rw [updateCongested]
  by_cases high : q.rl.count sync ≥ q.nrCongestionOn
  · refine ⟨by rw [if_pos high]; exact congestedFrame q sync true, by rw [if_pos high]; rfl, fun b => ?_⟩
    by_cases same : b = sync <;> simp [high, same, setCongested, set]
  · by_cases low : q.rl.count sync < q.nrCongestionOff
    · rw [if_neg high, if_pos low]
      refine ⟨congestedFrame q sync false, rfl, fun b => ?_⟩
      by_cases same : b = sync <;> simp [high, low, same, setCongested, set]
    · rw [if_neg high, if_neg low]
      refine ⟨frameRefl q, rfl, fun b => ?_⟩
      simp [high, low]

theorem updateFullFlags (q : AllocQueue) (sync : Bool) :
    Frame q (updateFull q sync) ∧ (updateFull q sync).rl.congested = q.rl.congested ∧
      ∀ b, (updateFull q sync).rl.full b =
        if b = sync then decide (q.nrRequests ≤ q.rl.count sync) else q.rl.full b := by
  rw [updateFull]
  by_cases above : q.rl.count sync ≥ q.nrRequests
  · refine ⟨by rw [if_pos above]; exact fullFrame q sync true, by rw [if_pos above]; rfl, fun b => ?_⟩
    by_cases same : b = sync <;> simp_all [setFull, set]
  · rw [if_neg above]
    refine ⟨frameTrans (fullFrame q sync false) (wakeUpFrame _ sync), (wakeUpFlags _ sync).2, fun b => ?_⟩
    rw [(wakeUpFlags (setFull q sync false) sync).1]
    by_cases same : b = sync <;> simp_all [setFull, set]

theorem updateNrCounts (q : AllocQueue) (nr : Int) :
    Frame (blkQueueCongestionThreshold {q with nrRequests := nr}) (blkUpdateNrRequests q nr) :=
  frameTrans (frameTrans (frameTrans (updateCongestedFlags _ true).1 (updateCongestedFlags _ false).1)
    (updateFullFlags _ true).1) (updateFullFlags _ false).1

theorem updateNrCongested (q : AllocQueue) (nr : Int) (b : Bool) :
    (blkUpdateNrRequests q nr).rl.congested b =
      if q.rl.count b ≥ congestionOn nr then true
      else if q.rl.count b < congestionOff nr then false else q.rl.congested b := by
  have first := updateCongestedFlags (blkQueueCongestionThreshold {q with nrRequests := nr}) true
  have second := updateCongestedFlags (updateCongested (blkQueueCongestionThreshold {q with nrRequests := nr}) true) false
  have both : (blkUpdateNrRequests q nr).rl.congested =
      (updateCongested (updateCongested (blkQueueCongestionThreshold {q with nrRequests := nr}) true) false).rl.congested :=
    ((updateFullFlags _ false).2.1).trans (updateFullFlags _ true).2.1
  rw [both, second.2.2, first.2.2, first.1.count, first.1.on, first.1.off]
  cases b <;> simp [blkQueueCongestionThreshold]

theorem updateNrFull (q : AllocQueue) (nr : Int) (b : Bool) :
    (blkUpdateNrRequests q nr).rl.full b = decide (nr ≤ q.rl.count b) := by
  have before := frameTrans (updateCongestedFlags (blkQueueCongestionThreshold {q with nrRequests := nr}) true).1
    (updateCongestedFlags _ false).1
  have first := updateFullFlags
    (updateCongested (updateCongested (blkQueueCongestionThreshold {q with nrRequests := nr}) true) false) true
  have second := updateFullFlags (updateFull
    (updateCongested (updateCongested (blkQueueCongestionThreshold {q with nrRequests := nr}) true) false) true) false
  have counts := before.count
  have limit := before.nrRequests
  rw [blkUpdateNrRequests, second.2.2, first.2.2, first.1.count, first.1.nrRequests, counts, limit]
  cases b <;> rfl

theorem updateNrFlags (q : AllocQueue) {nr : Int} (some' : 1 ≤ nr) :
    Flags (blkUpdateNrRequests q nr) := by
  have frame := updateNrCounts q nr
  have count : (blkUpdateNrRequests q nr).rl.count = q.rl.count := frame.count
  have on : (blkUpdateNrRequests q nr).nrCongestionOn = congestionOn nr := frame.on
  have off : (blkUpdateNrRequests q nr).nrCongestionOff = congestionOff nr := frame.off
  have limit : (blkUpdateNrRequests q nr).nrRequests = nr := frame.nrRequests
  refine ⟨⟨limit.symm ▸ some', by rw [on, limit], by rw [off, limit]⟩, fun b => ⟨?_, ?_, ?_⟩⟩
  · rw [updateNrFull, count, limit, decide_eq_true_eq]
  · intro fits
    rw [FitsInt, limit] at fits
    obtain ⟨-, ordered⟩ := thresholdOrder some' fits
    rw [updateNrCongested, count, off]
    split
    · intro _
      omega
    · split
      · exact fun congested => absurd congested Bool.false_ne_true
      · intro _
        omega
  · intro _
    rw [updateNrCongested, count, on]
    split
    · exact fun uncongested => absurd uncongested.symm Bool.false_ne_true
    · intro _
      omega

/- What the first section of `__get_request` leaves behind when it counts a request. -/
structure Counted (q u : AllocQueue) (call : Call) (elvPriv : Bool) : Prop where
  count : u.rl.count = set q.rl.count call.isSync (q.rl.count call.isSync + 1)
  nrRqs : u.nrRqs = set q.nrRqs call.isSync (q.nrRqs call.isSync + 1)
  elvpriv : u.nrRqsElvpriv = q.nrRqsElvpriv + (if elvPriv then 1 else 0)
  outside : elvPriv = true → q.bypass = false
  starved : u.rl.starved = set q.rl.starved call.isSync false
  room : q.rl.count call.isSync < 3 * q.nrRequests / 2
  alive : q.dying = false

/- When it does not, it says so in a way that some request to come will wake the caller. -/
structure Refused (q u : AllocQueue) (call : Call) : Prop where
  count : u.rl.count = q.rl.count
  nrRqs : u.nrRqs = q.nrRqs
  elvpriv : u.nrRqsElvpriv = q.nrRqsElvpriv
  starved : ∀ b, q.rl.starved b = true → u.rl.starved b = true
  blocked : q.dying = false → Flags q →
    q.rl.count call.isSync ≠ 0 ∨ u.rl.starved call.isSync = true

structure SectionFrame (q u : AllocQueue) : Prop where
  wait : u.rl.wait = q.rl.wait
  woken : u.rl.woken = q.rl.woken
  nrRequests : u.nrRequests = q.nrRequests
  depth : u.bypassDepth = q.bypassDepth
  bypass : u.bypass = q.bypass
  dying : u.dying = q.dying

theorem countRequestTaken (q : AllocQueue) (call : Call) :
    (∃ elvPriv, (countRequest q call).2 = .go elvPriv ∧ q.rl.count call.isSync < 3 * q.nrRequests / 2 ∧
      (elvPriv = true → q.bypass = false) ∧
      (countRequest q call).1 = {q with
        nrRqs := set q.nrRqs call.isSync (q.nrRqs call.isSync + 1),
        nrRqsElvpriv := q.nrRqsElvpriv + (if elvPriv then 1 else 0),
        rl := {q.rl with count := set q.rl.count call.isSync (q.rl.count call.isSync + 1),
                         starved := set q.rl.starved call.isSync false}}) ∨
    ((countRequest q call).2 = .enomem ∧ 3 * q.nrRequests / 2 ≤ q.rl.count call.isSync ∧
      (countRequest q call).1 = q) := by
  simp only [countRequest]
  by_cases crowded : q.rl.count call.isSync ≥ 3 * q.nrRequests / 2
  · rw [if_pos crowded]
    exact Or.inr ⟨rfl, crowded, rfl⟩
  · rw [if_neg crowded]
    refine Or.inl ?_
    cases managed : call.initElevator && !q.bypass with
    | true =>
      refine ⟨true, rfl, by omega, fun _ => ?_, rfl⟩
      simpa using (Bool.and_eq_true_iff.mp managed).2
    | false => exact ⟨false, rfl, by omega, fun no => absurd no Bool.false_ne_true, by simp⟩

/- The ways through the first section: refused with the queue as it was or marked starved, or
on to the count, with the queue marked full, congested or neither before. -/
inductive SectionPath (q : AllocQueue) (call : Call) : AllocQueue × Outcome → Prop where
  | dying (dead : q.dying = true) : SectionPath q call (q, .enodev)
  | no (alive : q.dying = false) : SectionPath q call (markStarved q call.isSync, .enomem)
  | full (alive : q.dying = false) (full : q.rl.full call.isSync = true) : SectionPath q call (q, .enomem)
  | fills (alive : q.dying = false) (last : q.nrRequests ≤ q.rl.count call.isSync + 1)
      (open' : q.rl.full call.isSync = false) :
      SectionPath q call (countRequest (setCongested (setFull q call.isSync true) call.isSync true) call)
  | congests (alive : q.dying = false) (above : q.nrCongestionOn ≤ q.rl.count call.isSync + 1)
      (room : q.rl.full call.isSync = true ∨ q.rl.count call.isSync + 1 < q.nrRequests) :
      SectionPath q call (countRequest (setCongested q call.isSync true) call)
  | plain (alive : q.dying = false) (below : q.rl.count call.isSync + 1 < q.nrCongestionOn) :
      SectionPath q call (countRequest q call)

theorem sectionPath (batchTime : BitVec 64) (q : AllocQueue) (ioc : Option IoContext) (call : Call)
    (mayQueue : MayQueue) (jiffies : BitVec 64) :
    SectionPath q call ((getRequestSection batchTime q ioc call mayQueue jiffies).1,
      (getRequestSection batchTime q ioc call mayQueue jiffies).2.2) := by
  simp only [getRequestSection]
  by_cases dead : q.dying = true
  · rw [if_pos dead]
    exact .dying dead
  · have alive : q.dying = false := Bool.eq_false_iff.mpr dead
    rw [if_neg dead]
    split
    · exact .no alive
    · split
      · rename_i above
        split
        · rename_i last
          cases full : q.rl.full call.isSync with
          | false => exact .fills alive last full
          | true =>
            simp only [Bool.not_true, Bool.false_eq_true, if_false]
            split
            · exact .full alive full
            · exact .congests alive above (Or.inl full)
        · rename_i notLast
          exact .congests alive above (Or.inr (by omega))
      · rename_i below
        exact .plain alive (by omega)

/- `u` has the count of `q` in direction `sync` raised by one, or is `q` there. -/
theorem raisedFlags {q u : AllocQueue} {sync : Bool} (flags : Flags q)
    (limits : u.nrRequests = q.nrRequests ∧ u.nrCongestionOn = q.nrCongestionOn ∧
      u.nrCongestionOff = q.nrCongestionOff)
    (count : u.rl.count = set q.rl.count sync (q.rl.count sync + 1))
    (full : u.rl.full sync = true ↔ q.nrRequests ≤ q.rl.count sync + 1)
    (congested : FitsInt q → u.rl.congested sync = false → q.rl.count sync + 1 < q.nrCongestionOn)
    (high : FitsInt q → u.rl.congested sync = true → q.nrCongestionOff ≤ q.rl.count sync + 1)
    (others : ∀ b, b ≠ sync → u.rl.full b = q.rl.full b ∧ u.rl.congested b = q.rl.congested b) : Flags u := by
  obtain ⟨nr, on, off⟩ := limits
  refine ⟨⟨nr ▸ flags.thresholds.some', by rw [on, nr, flags.thresholds.on],
    by rw [off, nr, flags.thresholds.off]⟩, fun b => ?_⟩
  by_cases same : b = sync
  · subst same
    refine ⟨?_, ?_, ?_⟩
    · rw [count, setSame, nr]
      exact full
    · rw [FitsInt, nr, count, setSame, off]
      exact high
    · rw [FitsInt, nr, count, setSame, on]
      exact congested
  · obtain ⟨sameFull, sameCongested⟩ := others b same
    have there := flags.at' b
    refine ⟨?_, ?_, ?_⟩
    · rw [count, setOther _ _ same, nr, sameFull]
      exact there.full
    · rw [FitsInt, nr, count, setOther _ _ same, off, sameCongested]
      exact there.congested
    · rw [FitsInt, nr, count, setOther _ _ same, on, sameCongested]
      exact there.uncongested

theorem sectionFlags {q : AllocQueue} {call : Call} {result : AllocQueue × Outcome} (flags : Flags q)
    (path : SectionPath q call result) : Flags result.1 := by
  have ordered : FitsInt q → q.nrCongestionOff ≤ q.nrCongestionOn := fun fits => by
    rw [flags.thresholds.off, flags.thresholds.on]
    exact (thresholdOrder flags.thresholds.some' fits).2
  have capped := congestionCapped flags.thresholds.some'
  rw [← flags.thresholds.on] at capped
  have positive := flags.thresholds.some'
  have here := flags.at' call.isSync
  cases path with
  | dying => exact flags
  | no => exact markStarvedFlags call.isSync flags
  | full => exact flags
  | fills alive last open' =>
    have below : q.rl.count call.isSync < q.nrRequests := by
      by_contra above
      exact absurd (here.full.mpr (by omega)) (by rw [open']; exact Bool.false_ne_true)
    rcases countRequestTaken (setCongested (setFull q call.isSync true) call.isSync true) call with
      ⟨elvPriv, -, -, -, counted⟩ | ⟨-, crowded, -⟩
    · rw [counted]
      refine raisedFlags flags ⟨rfl, rfl, rfl⟩ rfl ?_ ?_ ?_ ?_
      · exact ⟨fun _ => last, fun _ => setSame _ _ _⟩
      · exact fun _ off => absurd ((setSame q.rl.congested call.isSync true).symm.trans off) (by decide)
      · intro fits _
        have := ordered fits
        omega
      · exact fun b apart => ⟨setOther _ _ apart, setOther _ _ apart⟩
    · change 3 * q.nrRequests / 2 ≤ q.rl.count call.isSync at crowded
      omega
  | congests alive above room =>
    rcases countRequestTaken (setCongested q call.isSync true) call with
      ⟨elvPriv, -, -, -, counted⟩ | ⟨-, crowded, same⟩
    · rw [counted]
      refine raisedFlags flags ⟨rfl, rfl, rfl⟩ rfl ?_ ?_ ?_ ?_
      · change q.rl.full call.isSync = true ↔ _
        rcases room with full | room
        · exact ⟨fun _ => by have := here.full.mp full; omega, fun _ => full⟩
        · exact ⟨fun full => by have := here.full.mp full; omega, fun last => by omega⟩
      · exact fun _ off => absurd ((setSame q.rl.congested call.isSync true).symm.trans off) (by decide)
      · intro fits _
        have := ordered fits
        omega
      · exact fun b apart => ⟨rfl, setOther _ _ apart⟩
    · change 3 * q.nrRequests / 2 ≤ q.rl.count call.isSync at crowded
      rw [same]
      refine ⟨⟨positive, flags.thresholds.on, flags.thresholds.off⟩, fun b => ?_⟩
      by_cases this : b = call.isSync
      · subst this
        refine ⟨here.full, fun fits _ => ?_, fun _ off => ?_⟩
        · have := ordered fits
          show q.nrCongestionOff ≤ q.rl.count call.isSync
          omega
        · exact absurd ((setSame q.rl.congested call.isSync true).symm.trans off) (by decide)
      · have there := flags.at' b
        have unset : (setCongested q call.isSync true).rl.congested b = q.rl.congested b := setOther _ _ this
        exact ⟨there.full, by rw [unset]; exact there.congested, by rw [unset]; exact there.uncongested⟩
  | plain alive below =>
    rcases countRequestTaken q call with ⟨elvPriv, -, -, -, counted⟩ | ⟨-, -, same⟩
    · rw [counted]
      refine raisedFlags flags ⟨rfl, rfl, rfl⟩ rfl ?_ (fun _ _ => below) ?_ (fun _ _ => ⟨rfl, rfl⟩)
      · exact ⟨fun full => by have := here.full.mp full; omega, fun last => by omega⟩
      · intro fits congested
        have := here.congested fits congested
        omega
    · rw [same]
      exact flags

theorem sectionFrame {q : AllocQueue} {call : Call} {result : AllocQueue × Outcome}
    (path : SectionPath q call result) : SectionFrame q result.1 := by
  have counted : ∀ u, SectionFrame q u → SectionFrame q (countRequest u call).1 := by
    intro u frame
    rcases countRequestTaken u call with ⟨elvPriv, -, -, -, same⟩ | ⟨-, -, same⟩ <;> rw [same]
    · exact ⟨frame.wait, frame.woken, frame.nrRequests, frame.depth, frame.bypass, frame.dying⟩
    · exact frame
  have itself : SectionFrame q q := ⟨rfl, rfl, rfl, rfl, rfl, rfl⟩
  cases path with
  | dying => exact itself
  | no =>
    simp only [markStarved]
    split <;> exact ⟨rfl, rfl, rfl, rfl, rfl, rfl⟩
  | full => exact itself
  | fills => exact counted _ ⟨rfl, rfl, rfl, rfl, rfl, rfl⟩
  | congests => exact counted _ ⟨rfl, rfl, rfl, rfl, rfl, rfl⟩
  | plain => exact counted _ itself

theorem sectionOutcome {q : AllocQueue} {call : Call} {result : AllocQueue × Outcome}
    (path : SectionPath q call result) :
    (∃ elvPriv, result.2 = .go elvPriv ∧ Counted q result.1 call elvPriv) ∨
      ((∀ elvPriv, result.2 ≠ .go elvPriv) ∧ Refused q result.1 call) := by
  have counted : ∀ u, q.dying = false → u.rl.count = q.rl.count → u.nrRqs = q.nrRqs →
      u.nrRqsElvpriv = q.nrRqsElvpriv → u.rl.starved = q.rl.starved → u.bypass = q.bypass →
      u.nrRequests = q.nrRequests →
      (∃ elvPriv, (countRequest u call).2 = .go elvPriv ∧ Counted q (countRequest u call).1 call elvPriv) ∨
        ((∀ elvPriv, (countRequest u call).2 ≠ .go elvPriv) ∧ Refused q (countRequest u call).1 call) := by
    intro u alive count nrRqs elvpriv starved bypass nr
    rcases countRequestTaken u call with ⟨elvPriv, went, room, outside, same⟩ | ⟨refused, crowded, same⟩
    · refine Or.inl ⟨elvPriv, went, ?_⟩
      rw [same]
      exact ⟨by rw [count], by rw [nrRqs], by rw [elvpriv], fun managed => bypass ▸ outside managed,
        by rw [starved], by rw [← count, ← nr]; exact room, alive⟩
    · refine Or.inr ⟨fun elvPriv => by rw [refused]; exact Outcome.noConfusion, ?_⟩
      rw [same]
      refine ⟨count, nrRqs, elvpriv, fun b => by rw [starved]; exact id, fun _ flags => Or.inl ?_⟩
      have positive := flags.thresholds.some'
      rw [count, nr] at crowded
      omega
  have refused : ∀ b, q.rl.starved b = true → q.rl.starved b = true := fun _ => id
  cases path with
  | dying dead =>
    exact Or.inr ⟨fun _ => Outcome.noConfusion, rfl, rfl, rfl, refused, fun alive => by
      rw [dead] at alive
      contradiction⟩
  | no alive =>
    refine Or.inr ⟨fun _ => Outcome.noConfusion, ?_⟩
    simp only [markStarved]
    split
    · refine ⟨rfl, rfl, rfl, fun b starved => ?_, fun _ _ => Or.inr (setSame _ _ _)⟩
      show set q.rl.starved call.isSync true b = true
      by_cases same : b = call.isSync
      · rw [same, setSame]
      · rw [setOther _ _ same, starved]
    · rename_i some'
      exact ⟨rfl, rfl, rfl, refused, fun _ _ => Or.inl some'⟩
  | full alive full =>
    refine Or.inr ⟨fun _ => Outcome.noConfusion, rfl, rfl, rfl, refused, fun _ flags => Or.inl ?_⟩
    have positive := flags.thresholds.some'
    have above := (flags.at' call.isSync).full.mp full
    omega
  | fills alive => exact counted _ alive rfl rfl rfl rfl rfl rfl
  | congests alive => exact counted _ alive rfl rfl rfl rfl rfl rfl
  | plain alive => exact counted _ alive rfl rfl rfl rfl rfl rfl

/- Requests of one direction that exist or are being made. -/
def outstanding (s : AllocState) (sync : Bool) : Nat :=
  s.live.countP (·.isSync == sync) + s.filling.countP (·.call.isSync == sync) +
    s.demoting.countP (·.1.isSync == sync)

/- Requests that have elevator data or may still get some. -/
def managed (s : AllocState) : Nat :=
  s.live.countP (·.elvPriv) + s.filling.countP (·.elvPriv) + s.demoting.length

structure Accounts (s : AllocState) : Prop where
  flags : Flags s.q
  count : ∀ sync, s.q.rl.count sync = outstanding s sync
  nrRqs : s.q.nrRqs = s.q.rl.count
  elvpriv : s.q.nrRqsElvpriv = managed s
  peak : s.q.nrRequests ≤ s.peak
  bound : ∀ sync, s.q.rl.count sync ≤ 3 * s.peak / 2

theorem countErased {α : Type} [BEq α] [LawfulBEq α] {a : α} {list : List α} (member : a ∈ list) (p : α → Bool) :
    list.countP p = (list.erase a).countP p + if p a then 1 else 0 := by
  rw [(List.perm_cons_erase member).countP_eq, List.countP_cons]

theorem countRaised {α : Type} (list : List α) (a : α) (p : α → Bool) :
    (list ++ [a]).countP p = list.countP p + if p a then 1 else 0 := by
  simp [List.countP_append, List.countP_cons]

/- A step that counts nothing and moves nothing. -/
theorem accountsOf {s t : AllocState} (accounts : Accounts s) (flags : Flags t.q)
    (count : t.q.rl.count = s.q.rl.count) (nrRqs : t.q.nrRqs = s.q.nrRqs)
    (elvpriv : t.q.nrRqsElvpriv = s.q.nrRqsElvpriv) (nr : t.q.nrRequests ≤ t.peak)
    (peak : s.peak ≤ t.peak) (lists : t.live = s.live ∧ t.filling = s.filling ∧ t.demoting = s.demoting) :
    Accounts t := by
  obtain ⟨live, filling, demoting⟩ := lists
  refine ⟨flags, fun sync => ?_, ?_, ?_, nr, fun sync => ?_⟩
  · rw [count, accounts.count sync, outstanding, outstanding, live, filling, demoting]
  · rw [nrRqs, count, accounts.nrRqs]
  · rw [elvpriv, accounts.elvpriv, managed, managed, live, filling, demoting]
  · have := accounts.bound sync
    rw [count]
    omega

section
variable (batchTime : BitVec 64)

theorem sleepOrFailKeeps (s : AllocState) (call : Call) :
    (sleepOrFail s call).live = s.live ∧ (sleepOrFail s call).filling = s.filling ∧
      (sleepOrFail s call).demoting = s.demoting ∧ (sleepOrFail s call).peak = s.peak ∧
      (sleepOrFail s call).quiet = s.quiet ∧ (sleepOrFail s call).cleanedUp = s.cleanedUp ∧
      Frame s.q (sleepOrFail s call).q ∧
      (sleepOrFail s call).q.rl.full = s.q.rl.full ∧ (sleepOrFail s call).q.rl.congested = s.q.rl.congested ∧
      (sleepOrFail s call).q.rl.woken = s.q.rl.woken := by
  simp only [sleepOrFail]
  split
  · exact ⟨rfl, rfl, rfl, rfl, rfl, rfl, frameRefl _, rfl, rfl, rfl⟩
  · exact ⟨rfl, rfl, rfl, rfl, rfl, rfl, ⟨rfl, rfl, rfl, rfl, rfl, rfl, rfl, rfl, rfl, rfl⟩, rfl, rfl, rfl⟩

theorem accountsSleep {s : AllocState} (accounts : Accounts s) (call : Call) : Accounts (sleepOrFail s call) := by
  obtain ⟨live, filling, demoting, peak, -, -, frame, full, congested, -⟩ := sleepOrFailKeeps s call
  refine accountsOf accounts (flagsOf frame full congested accounts.flags) frame.count frame.nrRqs frame.elvpriv
    ?_ (Int.le_of_eq peak.symm) ⟨live, filling, demoting⟩
  rw [frame.nrRequests, peak]
  exact accounts.peak

theorem takeBatchKeeps (s : AllocState) (task : TaskId) (jiffies : BitVec 64) :
    (takeBatch batchTime s task jiffies).q = s.q ∧ (takeBatch batchTime s task jiffies).live = s.live ∧
      (takeBatch batchTime s task jiffies).filling = s.filling ∧
      (takeBatch batchTime s task jiffies).demoting = s.demoting ∧
      (takeBatch batchTime s task jiffies).peak = s.peak ∧ (takeBatch batchTime s task jiffies).quiet = s.quiet ∧
      (takeBatch batchTime s task jiffies).cleanedUp = s.cleanedUp := by
  simp only [takeBatch]
  split <;> exact ⟨rfl, rfl, rfl, rfl, rfl, rfl, rfl⟩

/- What a try leaves: refused and asleep or gone, or counted and on its way. -/
theorem tryGetTaken (s : AllocState) (call : Call) (mayQueue : MayQueue) (jiffies : BitVec 64) :
    ∃ u ioc, (Flags s.q → Flags u) ∧ SectionFrame s.q u ∧
      ((∃ elvPriv, Counted s.q u call elvPriv ∧ tryGet batchTime s call mayQueue jiffies =
          {s with q := u, ioc := ioc, filling := s.filling ++ [⟨call, elvPriv⟩]}) ∨
        (Refused s.q u call ∧ tryGet batchTime s call mayQueue jiffies =
          sleepOrFail {s with q := u, ioc := ioc} call)) := by
  have path := sectionPath batchTime s.q (s.ioc call.task) call mayQueue jiffies
  have outcome := sectionOutcome path
  refine ⟨_, fun t => if t = call.task then
    (getRequestSection batchTime s.q (s.ioc call.task) call mayQueue jiffies).2.1 else s.ioc t,
    fun flags => sectionFlags flags path, sectionFrame path, ?_⟩
  rcases outcome with ⟨elvPriv, went, counted⟩ | ⟨refused, why⟩
  · change (getRequestSection batchTime s.q (s.ioc call.task) call mayQueue jiffies).2.2 = .go elvPriv at went
    refine Or.inl ⟨elvPriv, counted, ?_⟩
    simp only [tryGet, went]
  · refine Or.inr ⟨why, ?_⟩
    simp only [tryGet]

theorem accountsTry {s : AllocState} (accounts : Accounts s) (call : Call) (mayQueue : MayQueue)
    (jiffies : BitVec 64) : Accounts (tryGet batchTime s call mayQueue jiffies) := by
  obtain ⟨u, ioc, flags, frame, ⟨elvPriv, counted, same⟩ | ⟨refused, same⟩⟩ :=
    tryGetTaken batchTime s call mayQueue jiffies
  · rw [same]
    have peak := accounts.peak
    refine ⟨flags accounts.flags, fun sync => ?_, ?_, ?_, ?_, fun sync => ?_⟩
    · have before := accounts.count sync
      simp only [outstanding, countRaised] at before ⊢
      rw [counted.count]
      by_cases here : sync = call.isSync
      · rw [here, setSame, ← here, before]
        simp [here]
        omega
      · rw [setOther _ _ here, before]
        have away : (call.isSync == sync) = false := beq_eq_false_iff_ne.mpr (Ne.symm here)
        simp [away]
    · show u.nrRqs = u.rl.count
      rw [counted.nrRqs, counted.count, accounts.nrRqs]
    · have before := accounts.elvpriv
      simp only [managed, countRaised] at before ⊢
      rw [counted.elvpriv, before]
      cases elvPriv
      · simp
      · simp
        omega
    · exact frame.nrRequests ▸ peak
    · show u.rl.count sync ≤ 3 * s.peak / 2
      rw [counted.count]
      have room := counted.room
      by_cases here : sync = call.isSync
      · rw [here, setSame]
        omega
      · rw [setOther _ _ here]
        exact accounts.bound sync
  · rw [same]
    refine accountsSleep ?_ call
    exact accountsOf accounts (flags accounts.flags) refused.count refused.nrRqs refused.elvpriv
      (frame.nrRequests ▸ accounts.peak) (Int.le_refl _) ⟨rfl, rfl, rfl⟩

/- A request leaves one of the three lists and its count. -/
theorem accountsFreed {s t : AllocState} {sync elvPriv : Bool} (accounts : Accounts s)
    (freed : t.q = freedRequest s.q sync elvPriv) (peak : t.peak = s.peak)
    (out : ∀ b, outstanding s b = outstanding t b + if sync == b then 1 else 0)
    (man : managed s = managed t + if elvPriv then 1 else 0) : Accounts t := by
  have frame := freedRequestFrame s.q sync elvPriv
  have counts : ∀ b, t.q.rl.count b = s.q.rl.count b - if sync == b then 1 else 0 := fun b => by
    rw [freed, frame.count]
    show set s.q.rl.count sync (s.q.rl.count sync - 1) b = _
    by_cases same : b = sync
    · rw [same, setSame]
      simp
    · rw [setOther _ _ same]
      simp [beq_eq_false_iff_ne.mpr (Ne.symm same)]
  refine ⟨freed ▸ freedRequestFlags sync elvPriv accounts.flags, fun b => ?_, ?_, ?_, ?_, fun b => ?_⟩
  · have before := accounts.count b
    rw [counts b, before, out b]
    split <;> simp
  · rw [freed, frame.nrRqs, frame.count]
    show set s.q.nrRqs sync _ = set s.q.rl.count sync _
    rw [accounts.nrRqs]
  · rw [freed, frame.elvpriv]
    show s.q.nrRqsElvpriv - (if elvPriv then 1 else 0) = _
    rw [accounts.elvpriv, man]
    cases elvPriv <;> simp
  · rw [peak, freed, frame.nrRequests]
    exact accounts.peak
  · have before := accounts.bound b
    rw [counts b, peak]
    split <;> omega

theorem accountsResume {s : AllocState} (accounts : Accounts s) (call : Call) (jiffies : BitVec 64) :
    Accounts (resume batchTime s call jiffies) :=
  accountsOf accounts (flagsSame accounts.flags rfl rfl rfl rfl rfl rfl) rfl rfl rfl accounts.peak
    (Int.le_refl _) ⟨rfl, rfl, rfl⟩

theorem accountsStep {s t : AllocState} {op : AllocOp} (accounts : Accounts s)
    (taken : step batchTime s op = some t) : Accounts t := by
  cases op with
  | get call mayQueue jiffies =>
    cases Option.some.inj taken
    exact accountsTry batchTime accounts call mayQueue jiffies
  | retry call mayQueue jiffies =>
    simp only [step] at taken
    split at taken <;> try contradiction
    cases Option.some.inj taken
    exact accountsTry batchTime (accountsResume batchTime accounts call jiffies) call mayQueue jiffies
  | allocFails f =>
    simp only [step] at taken
    split at taken <;> try contradiction
    rename_i member
    cases Option.some.inj taken
    refine accountsSleep ?_ f.call
    have freed : Accounts {s with filling := s.filling.erase f, q := freedRequest s.q f.call.isSync f.elvPriv} := by
      refine accountsFreed accounts rfl rfl (fun b => ?_) ?_
      · simp only [outstanding, countErased member]
        omega
      · simp only [managed, countErased member]
        omega
    obtain ⟨count, nrRqs, elvpriv, nr⟩ := markStarvedCounts (freedRequest s.q f.call.isSync f.elvPriv) f.call.isSync
    exact accountsOf freed (markStarvedFlags f.call.isSync freed.flags) count nrRqs elvpriv (nr ▸ freed.peak)
      (Int.le_refl _) ⟨rfl, rfl, rfl⟩
  | allocated f rq elvOk jiffies =>
    simp only [step] at taken
    split at taken <;> try contradiction
    rename_i member
    split at taken <;> cases Option.some.inj taken
    · rename_i demoted
      have private' : f.elvPriv = true := (Bool.and_eq_true_iff.mp demoted).1
      refine ⟨accounts.flags, fun b => ?_, accounts.nrRqs, ?_, accounts.peak, accounts.bound⟩
      · have before := accounts.count b
        simp only [outstanding, countErased member, countRaised] at before ⊢
        omega
      · have before := accounts.elvpriv
        simp only [managed, countErased member, private', if_true, List.length_append, List.length_singleton]
          at before ⊢
        omega
    · obtain ⟨q, live, filling, demoting, peak, -, -⟩ := takeBatchKeeps batchTime
        {s with filling := s.filling.erase f, live := s.live ++ [⟨rq, f.call.isSync, f.elvPriv⟩]} f.call.task jiffies
      refine ⟨q.symm ▸ accounts.flags, fun b => ?_, q.symm ▸ accounts.nrRqs, ?_, ?_, fun b => ?_⟩
      · have before := accounts.count b
        simp only [outstanding, q, live, filling, demoting, countErased member, countRaised] at before ⊢
        omega
      · have before := accounts.elvpriv
        simp only [managed, q, live, filling, demoting, countErased member, countRaised] at before ⊢
        omega
      · rw [q, peak]
        exact accounts.peak
      · rw [q, peak]
        exact accounts.bound b
  | demote call rq jiffies =>
    simp only [step] at taken
    split at taken <;> try contradiction
    rename_i member
    cases Option.some.inj taken
    obtain ⟨q, live, filling, demoting, peak, -, -⟩ := takeBatchKeeps batchTime
      {s with demoting := s.demoting.erase (call, rq), live := s.live ++ [⟨rq, call.isSync, false⟩],
              q := {s.q with nrRqsElvpriv := s.q.nrRqsElvpriv - 1}} call.task jiffies
    have flags : Flags {s.q with nrRqsElvpriv := s.q.nrRqsElvpriv - 1} :=
      flagsSame accounts.flags rfl rfl rfl rfl rfl rfl
    refine ⟨q.symm ▸ flags, fun b => ?_, q.symm ▸ accounts.nrRqs, ?_, ?_, fun b => ?_⟩
    · have before := accounts.count b
      simp only [outstanding, q, live, filling, demoting, countErased member, countRaised] at before ⊢
      omega
    · have before := accounts.elvpriv
      have shorter := List.length_erase_of_mem member
      have some' := List.length_pos_of_mem member
      simp only [managed, q, live, filling, demoting, countRaised, shorter, Bool.false_eq_true, if_false]
        at before ⊢
      omega
    · rw [q, peak]
      exact accounts.peak
    · rw [q, peak]
      exact accounts.bound b
  | put rq =>
    simp only [step] at taken
    split at taken <;> try contradiction
    rename_i member
    cases Option.some.inj taken
    refine accountsFreed accounts rfl rfl (fun b => ?_) ?_
    · simp only [outstanding, countErased member]
      omega
    · simp only [managed, countErased member]
      omega
  | updateNr nr =>
    simp only [step] at taken
    split at taken <;> try contradiction
    rename_i some'
    cases Option.some.inj taken
    have frame := updateNrCounts s.q nr
    have nrIs : (blkUpdateNrRequests s.q nr).nrRequests = nr := frame.nrRequests
    refine accountsOf accounts (updateNrFlags s.q some'.1) frame.count frame.nrRqs frame.elvpriv ?_ ?_ ⟨rfl, rfl, rfl⟩
    · rw [nrIs]
      exact Int.le_max_right ..
    · exact Int.le_max_left ..
  | bypassStart =>
    cases Option.some.inj taken
    exact accountsOf accounts (flagsSame accounts.flags rfl rfl rfl rfl rfl rfl) rfl rfl rfl accounts.peak
      (Int.le_refl _) ⟨rfl, rfl, rfl⟩
  | drained =>
    simp only [step] at taken
    split at taken <;> try contradiction
    cases Option.some.inj taken
    exact accountsOf accounts (flagsSame accounts.flags rfl rfl rfl rfl rfl rfl) rfl rfl rfl accounts.peak
      (Int.le_refl _) ⟨rfl, rfl, rfl⟩
  | bypassEnd =>
    simp only [step] at taken
    split at taken <;> try contradiction
    cases Option.some.inj taken
    exact accountsOf accounts (flagsSame accounts.flags rfl rfl rfl rfl rfl rfl) rfl rfl rfl accounts.peak
      (Int.le_refl _) ⟨rfl, rfl, rfl⟩
  | setDying =>
    cases Option.some.inj taken
    have frame := frameTrans (wakeUpFrame {s.q with dying := true} true) (wakeUpFrame _ false)
    refine accountsOf accounts (flagsSame accounts.flags ?_ ?_ frame.count frame.nrRequests frame.on frame.off)
      frame.count frame.nrRqs frame.elvpriv (frame.nrRequests ▸ accounts.peak) (Int.le_refl _) ⟨rfl, rfl, rfl⟩
    · exact (wakeUpFlags _ false).1.trans (wakeUpFlags _ true).1
    · exact (wakeUpFlags _ false).2.trans (wakeUpFlags _ true).2
  | cleanupDrained =>
    simp only [step] at taken
    split at taken <;> try contradiction
    cases Option.some.inj taken
    exact accountsOf accounts (flagsSame accounts.flags rfl rfl rfl rfl rfl rfl) rfl rfl rfl accounts.peak
      (Int.le_refl _) ⟨rfl, rfl, rfl⟩

/- A queue as `blk_alloc_queue_node` and `blk_queue_make_request` leave it: in bypass, with its
creator to end that. -/
def startState (nr nrBatching : Int) (ioc : TaskId → Option IoContext) : AllocState :=
  ⟨⟨⟨fun _ => 0, fun _ => false, fun _ => false, fun _ => false, fun _ => [], []⟩, nr, congestionOn nr,
    congestionOff nr, nrBatching, fun _ => 0, 0, 1, true, false⟩, ioc, [], [], [], 1, false, nr⟩

theorem accountsStart {nr : Int} (some' : 1 ≤ nr) (nrBatching : Int) (ioc : TaskId → Option IoContext) :
    Accounts (startState nr nrBatching ioc) := by
  refine ⟨⟨⟨some', rfl, rfl⟩, fun sync => ⟨?_, ?_, ?_⟩⟩, fun sync => rfl, rfl, rfl, Int.le_refl _, fun sync => ?_⟩
  · exact ⟨fun no => absurd no Bool.false_ne_true, fun above => absurd above (by simp [startState]; omega)⟩
  · exact fun _ no => absurd no Bool.false_ne_true
  · intro fits _
    obtain ⟨lowest, ordered⟩ := thresholdOrder some' fits
    simp only [startState]
    omega
  · simp only [startState]
    omega

/- The counters are the requests that exist or are being made, and none has run over; the two
flags say where the count is. -/
structure Exact (s : AllocState) : Prop where
  count : ∀ sync, s.q.rl.count sync = outstanding s sync
  nrRqs : s.q.nrRqs = s.q.rl.count
  elvpriv : s.q.nrRqsElvpriv = managed s
  bound : ∀ sync, s.q.rl.count sync ≤ 3 * s.peak / 2
  ints : (∀ sync, s.q.rl.count sync < 2 ^ 31) ∧ s.q.nrRqsElvpriv < 2 ^ 31
  full : ∀ sync, s.q.rl.full sync = true ↔ s.q.nrRequests ≤ s.q.rl.count sync
  congested : ∀ sync, s.q.rl.congested sync = true → s.q.nrCongestionOff ≤ s.q.rl.count sync
  uncongested : ∀ sync, s.q.rl.congested sync = false → s.q.rl.count sync < s.q.nrCongestionOn

theorem eitherSide {α : Type} (list : List α) (side : α → Bool) :
    list.length = list.countP (side · == true) + list.countP (side · == false) := by
  have both := List.length_eq_countP_add_countP (l := list) (fun x => side x == true)
  have other : (fun x => decide ¬ (side x == true) = true) = fun x => side x == false := by
    funext x
    cases side x <;> rfl
  rw [other] at both
  exact both

theorem managedFew (s : AllocState) : managed s ≤ outstanding s true + outstanding s false := by
  have live := eitherSide s.live (·.isSync)
  have filling := eitherSide s.filling (·.call.isSync)
  have demoting := eitherSide s.demoting (·.1.isSync)
  have liveManaged := List.countP_le_length (l := s.live) (p := (·.elvPriv))
  have fillingManaged := List.countP_le_length (l := s.filling) (p := (·.elvPriv))
  simp only [managed, outstanding]
  omega

/- Over all interleavings of callers, with limits that keep the counters inside an `int`. -/
theorem countsAreExact {nr nrBatching : Int} {ioc : TaskId → Option IoContext} (some' : 1 ≤ nr)
    {ops : List AllocOp} {t : AllocState}
    (ran : exec (step batchTime) (startState nr nrBatching ioc) ops = some t) (few : t.peak ≤ 2 ^ 29) : Exact t := by
  have accounts : Accounts t := execInvariant (fun _ _ _ accounts taken => accountsStep batchTime accounts taken)
    (accountsStart some' nrBatching ioc) ran
  have fits : FitsInt t.q := by
    have limit := accounts.peak
    unfold FitsInt
    omega
  refine ⟨accounts.count, accounts.nrRqs, accounts.elvpriv, accounts.bound, ⟨fun sync => ?_, ?_⟩,
    fun sync => (accounts.flags.at' sync).full, fun sync => (accounts.flags.at' sync).congested fits,
    fun sync => (accounts.flags.at' sync).uncongested fits⟩
  · have bound := accounts.bound sync
    omega
  · have syncs := accounts.bound true
    have asyncs := accounts.bound false
    have all := managedFew t
    rw [accounts.count] at syncs asyncs
    rw [accounts.elvpriv]
    omega

/- Two tasks and a limit of one: the second one finds the queue full and sleeps. -/
def contended : List AllocOp :=
  [.bypassEnd, .get ⟨1, true, true, true⟩ .may 0, .get ⟨2, true, true, true⟩ .may 0]

theorem contendedCounts : ∃ t,
    exec (step 5) (startState 1 32 (fun _ => none)) contended = some t ∧ Exact t :=
  have ⟨t, ran⟩ := Option.isSome_iff_exists.mp (show (exec (step 5) (startState 1 32 (fun _ => none))
    contended).isSome = true from rfl)
  ⟨t, ran, countsAreExact 5 (Int.le_refl 1) ran (by cases Option.some.inj ran; decide)⟩

/- Bypass: while the drain of one of its starters stands, nothing has elevator data. -/
structure Quiescent (s : AllocState) : Prop where
  accounts : Accounts s
  depth : s.quiet ≤ s.q.bypassDepth
  positive : 0 ≤ s.quiet
  bypass : 0 < s.q.bypassDepth → s.q.bypass = true
  none' : 0 < s.quiet → s.q.nrRqsElvpriv = 0

theorem quiescentOf {s t : AllocState} (quiescent : Quiescent s) (accounts : Accounts t)
    (depth : t.q.bypassDepth = s.q.bypassDepth) (bypass : t.q.bypass = s.q.bypass) (quiet : t.quiet = s.quiet)
    (fewer : t.q.nrRqsElvpriv ≤ s.q.nrRqsElvpriv) : Quiescent t := by
  refine ⟨accounts, by rw [quiet, depth]; exact quiescent.depth, by rw [quiet]; exact quiescent.positive,
    by rw [depth, bypass]; exact quiescent.bypass, fun standing => ?_⟩
  have before := quiescent.none' (quiet ▸ standing)
  have exact' := accounts.elvpriv
  omega

theorem freedElvpriv (q : AllocQueue) (sync elvPriv : Bool) :
    (freedRequest q sync elvPriv).nrRqsElvpriv ≤ q.nrRqsElvpriv ∧
      (freedRequest q sync elvPriv).bypassDepth = q.bypassDepth ∧
      (freedRequest q sync elvPriv).bypass = q.bypass ∧ (freedRequest q sync elvPriv).dying = q.dying := by
  have frame := freedRequestFrame q sync elvPriv
  refine ⟨?_, frame.depth, frame.bypass, frame.dying⟩
  rw [frame.elvpriv]
  show q.nrRqsElvpriv - (if elvPriv then 1 else 0) ≤ _
  split <;> omega

theorem quiescentTry {s : AllocState} (quiescent : Quiescent s) (call : Call) (mayQueue : MayQueue)
    (jiffies : BitVec 64) : Quiescent (tryGet batchTime s call mayQueue jiffies) := by
  have accounts := accountsTry batchTime quiescent.accounts call mayQueue jiffies
  obtain ⟨u, ioc, -, frame, ⟨elvPriv, counted, same⟩ | ⟨refused, same⟩⟩ :=
    tryGetTaken batchTime s call mayQueue jiffies
  · rw [same] at accounts ⊢
    refine ⟨accounts, frame.depth.symm ▸ quiescent.depth, quiescent.positive, ?_, fun standing => ?_⟩
    · show 0 < u.bypassDepth → u.bypass = true
      rw [frame.depth, frame.bypass]
      exact quiescent.bypass
    · change 0 < s.quiet at standing
      have deep := quiescent.depth
      have inBypass := quiescent.bypass (by omega)
      have unmanaged : elvPriv = false := Bool.eq_false_iff.mpr (fun managed => by
        rw [counted.outside managed] at inBypass
        contradiction)
      show u.nrRqsElvpriv = 0
      rw [counted.elvpriv, unmanaged, quiescent.none' standing]
      rfl
  · rw [same] at accounts ⊢
    obtain ⟨-, -, -, -, quiet, -, asleep, -⟩ := sleepOrFailKeeps {s with q := u, ioc := ioc} call
    refine quiescentOf quiescent accounts (asleep.depth.trans frame.depth) (asleep.bypass.trans frame.bypass) quiet ?_
    rw [asleep.elvpriv]
    exact Int.le_of_eq refused.elvpriv

theorem quiescentStep {s t : AllocState} {op : AllocOp} (quiescent : Quiescent s)
    (taken : step batchTime s op = some t) : Quiescent t := by
  have accounts := accountsStep batchTime quiescent.accounts taken
  cases op with
  | get call mayQueue jiffies =>
    cases Option.some.inj taken
    exact quiescentTry batchTime quiescent call mayQueue jiffies
  | retry call mayQueue jiffies =>
    simp only [step] at taken
    split at taken <;> try contradiction
    cases Option.some.inj taken
    have resumed := accountsResume batchTime quiescent.accounts call jiffies
    exact quiescentTry batchTime (quiescentOf quiescent resumed rfl rfl rfl (Int.le_refl _)) call mayQueue jiffies
  | allocFails f =>
    simp only [step] at taken
    split at taken <;> try contradiction
    cases Option.some.inj taken
    have asleep := sleepOrFailKeeps {s with
      filling := s.filling.erase f,
      q := markStarved (freedRequest s.q f.call.isSync f.elvPriv) f.call.isSync} f.call
    obtain ⟨-, -, -, -, quiet, -, frame, -⟩ := asleep
    obtain ⟨fewer, depth, bypass, -⟩ := freedElvpriv s.q f.call.isSync f.elvPriv
    have marked : (markStarved (freedRequest s.q f.call.isSync f.elvPriv) f.call.isSync).bypassDepth =
        s.q.bypassDepth ∧ (markStarved (freedRequest s.q f.call.isSync f.elvPriv) f.call.isSync).bypass =
        s.q.bypass ∧ (markStarved (freedRequest s.q f.call.isSync f.elvPriv) f.call.isSync).nrRqsElvpriv ≤
        s.q.nrRqsElvpriv := by
      simp only [markStarved]
      split <;> exact ⟨depth, bypass, fewer⟩
    exact quiescentOf quiescent accounts (frame.depth.trans marked.1) (frame.bypass.trans marked.2.1) quiet
      (Int.le_trans (Int.le_of_eq frame.elvpriv) marked.2.2)
  | allocated f rq elvOk jiffies =>
    simp only [step] at taken
    split at taken <;> try contradiction
    split at taken <;> cases Option.some.inj taken
    · exact quiescentOf quiescent accounts rfl rfl rfl (Int.le_refl _)
    · obtain ⟨q, -, -, -, -, quiet, -⟩ := takeBatchKeeps batchTime
        {s with filling := s.filling.erase f, live := s.live ++ [⟨rq, f.call.isSync, f.elvPriv⟩]} f.call.task jiffies
      exact quiescentOf quiescent accounts (by rw [q]) (by rw [q]) quiet (Int.le_of_eq (by rw [q]))
  | demote call rq jiffies =>
    simp only [step] at taken
    split at taken <;> try contradiction
    cases Option.some.inj taken
    obtain ⟨q, -, -, -, -, quiet, -⟩ := takeBatchKeeps batchTime
      {s with demoting := s.demoting.erase (call, rq), live := s.live ++ [⟨rq, call.isSync, false⟩],
              q := {s.q with nrRqsElvpriv := s.q.nrRqsElvpriv - 1}} call.task jiffies
    refine quiescentOf quiescent accounts (by rw [q]) (by rw [q]) quiet ?_
    rw [q]
    show s.q.nrRqsElvpriv - 1 ≤ _
    omega
  | put rq =>
    simp only [step] at taken
    split at taken <;> try contradiction
    cases Option.some.inj taken
    obtain ⟨fewer, depth, bypass, -⟩ := freedElvpriv s.q rq.isSync rq.elvPriv
    exact quiescentOf quiescent accounts depth bypass rfl fewer
  | updateNr nr =>
    simp only [step] at taken
    split at taken <;> try contradiction
    cases Option.some.inj taken
    have frame := updateNrCounts s.q nr
    exact quiescentOf quiescent accounts frame.depth frame.bypass rfl (Int.le_of_eq frame.elvpriv)
  | bypassStart =>
    cases Option.some.inj taken
    have deep := quiescent.depth
    exact ⟨accounts, by show s.quiet ≤ s.q.bypassDepth + 1; omega, quiescent.positive, fun _ => rfl, quiescent.none'⟩
  | drained =>
    simp only [step] at taken
    split at taken <;> try contradiction
    rename_i ready
    cases Option.some.inj taken
    have positive := quiescent.positive
    exact ⟨accounts, by show s.quiet + 1 ≤ s.q.bypassDepth; omega, by show 0 ≤ s.quiet + 1; omega,
      quiescent.bypass, fun _ => ready.2⟩
  | bypassEnd =>
    simp only [step] at taken
    split at taken <;> try contradiction
    rename_i standing
    cases Option.some.inj taken
    have deep := quiescent.depth
    refine ⟨accounts, by show s.quiet - 1 ≤ s.q.bypassDepth - 1; omega, by show 0 ≤ s.quiet - 1; omega,
      fun still => ?_, fun _ => quiescent.none' standing⟩
    have deeper : 0 < s.q.bypassDepth - 1 := still
    show (if s.q.bypassDepth - 1 = 0 then false else s.q.bypass) = true
    rw [if_neg (by omega)]
    exact quiescent.bypass (by omega)
  | setDying =>
    cases Option.some.inj taken
    have frame := frameTrans (wakeUpFrame {s.q with dying := true} true) (wakeUpFrame _ false)
    exact quiescentOf quiescent accounts frame.depth frame.bypass rfl (Int.le_of_eq frame.elvpriv)
  | cleanupDrained =>
    simp only [step] at taken
    split at taken <;> try contradiction
    cases Option.some.inj taken
    exact quiescentOf quiescent accounts rfl rfl rfl (Int.le_refl _)

/- What `elevator_switch` relies on: between its drain and the end of its bypass no request
has elevator data or is about to get some, whatever other tasks do. -/
theorem bypassIsQuiet {nr nrBatching : Int} {ioc : TaskId → Option IoContext} (some' : 1 ≤ nr)
    {ops : List AllocOp} {t : AllocState}
    (ran : exec (step batchTime) (startState nr nrBatching ioc) ops = some t) (standing : 0 < t.quiet) :
    t.q.bypass = true ∧ (∀ rq ∈ t.live, rq.elvPriv = false) ∧ (∀ f ∈ t.filling, f.elvPriv = false) ∧
      t.demoting = [] := by
  have quiescent : Quiescent t := by
    refine execInvariant (fun _ _ _ before taken => quiescentStep batchTime before taken) ?_ ran
    exact ⟨accountsStart some' nrBatching ioc, Int.le_refl _, Int.zero_le_ofNat 1, fun _ => rfl, fun _ => rfl⟩
  have none' := quiescent.none' standing
  rw [quiescent.accounts.elvpriv, managed] at none'
  have deep := quiescent.depth
  refine ⟨quiescent.bypass (by omega), ?_, ?_, List.eq_nil_of_length_eq_zero (by omega)⟩
  · intro rq member
    by_contra private'
    have : 0 < t.live.countP (fun r => r.elvPriv) := List.countP_pos_iff.mpr ⟨rq, member, by simpa using private'⟩
    omega
  · intro f member
    by_contra private'
    have : 0 < t.filling.countP (fun r => r.elvPriv) := List.countP_pos_iff.mpr ⟨f, member, by simpa using private'⟩
    omega

/- A request with elevator data is out when the bypass begins; another is allocated meanwhile,
and a third is being made after the drain. -/
def switched : List AllocOp :=
  [.bypassEnd, .get ⟨1, true, true, true⟩ .may 0, .allocated ⟨⟨1, true, true, true⟩, true⟩ 7 true 0, .bypassStart,
    .get ⟨2, true, true, true⟩ .may 0, .allocated ⟨⟨2, true, true, true⟩, false⟩ 8 true 0, .put ⟨7, true, true⟩,
    .drained, .get ⟨3, false, true, true⟩ .may 0]

theorem switchedIsQuiet : ∃ t,
    exec (step 5) (startState 4 32 (fun _ => none)) switched = some t ∧ 0 < t.quiet ∧ t.live ≠ [] ∧ t.filling ≠ [] ∧
      t.q.bypass = true ∧ (∀ rq ∈ t.live, rq.elvPriv = false) ∧ (∀ f ∈ t.filling, f.elvPriv = false) ∧
        t.demoting = [] := by
  obtain ⟨t, ran⟩ := Option.isSome_iff_exists.mp (show (exec (step 5) (startState 4 32 (fun _ => none))
    switched).isSome = true from rfl)
  have held : 0 < t.quiet ∧ t.live ≠ [] ∧ t.filling ≠ [] := by
    cases Option.some.inj ran
    decide
  exact ⟨t, ran, held.1, held.2.1, held.2.2, bypassIsQuiet 5 (by decide) ran held.1⟩

/- Waiters only leave the queues, and those that were woken stay so. -/
structure Wakes (q u : AllocQueue) : Prop where
  wait : ∀ b, ∀ w ∈ u.rl.wait b, w ∈ q.rl.wait b
  woken : ∀ w ∈ q.rl.woken, w ∈ u.rl.woken

theorem wakesRefl (q : AllocQueue) : Wakes q q := ⟨fun _ _ => id, fun _ => id⟩

theorem wakesTrans {q u v : AllocQueue} (first : Wakes q u) (second : Wakes u v) : Wakes q v :=
  ⟨fun b w member => first.wait b w (second.wait b w member), fun w member => second.woken w (first.woken w member)⟩

theorem wakeUpWakes (q : AllocQueue) (sync : Bool) : Wakes q (wakeUp q sync) := by
  rw [wakeUp]
  split
  · exact wakesRefl q
  · rename_i first rest waiting
    refine ⟨fun b w member => ?_, fun w member => List.mem_append_left _ member⟩
    change w ∈ set q.rl.wait sync rest b at member
    by_cases same : b = sync
    · rw [same, setSame] at member
      rw [same, waiting]
      exact List.mem_cons_of_mem first member
    · rwa [setOther _ _ same] at member

theorem wakeUpAllWakes (q : AllocQueue) (sync : Bool) : Wakes q (wakeUpAll q sync) := by
  refine ⟨fun b w member => ?_, fun w member => List.mem_append_left _ member⟩
  change w ∈ set q.rl.wait sync [] b at member
  by_cases same : b = sync
  · rw [same, setSame] at member
    cases member
  · rwa [setOther _ _ same] at member

theorem freedOneWakes (q : AllocQueue) (sync : Bool) : Wakes q (freedOne q sync) := by
  rw [freedOne]
  have first : Wakes q (if q.rl.count sync < q.nrCongestionOff then setCongested q sync false else q) := by
    split <;> exact ⟨fun _ _ => id, fun _ => id⟩
  generalize (if q.rl.count sync < q.nrCongestionOff then setCongested q sync false else q) = u at first
  show Wakes q (if u.rl.count sync + 1 ≤ u.nrRequests then setFull (wakeUp u sync) sync false else u)
  split
  · exact wakesTrans first (wakesTrans (wakeUpWakes u sync) ⟨fun _ _ => id, fun _ => id⟩)
  · exact first

/- Below the limit a freed request wakes the first waiter of its direction. -/
theorem freedOneFirst {q : AllocQueue} {sync : Bool} (room : q.rl.count sync + 1 ≤ q.nrRequests)
    (waiting : q.rl.wait sync ≠ []) : ∃ w ∈ (freedOne q sync).rl.woken, w ∈ q.rl.wait sync := by
  obtain ⟨w, rest, here⟩ := List.exists_cons_of_ne_nil waiting
  refine ⟨w, ?_, here ▸ List.mem_cons_self ..⟩
  rw [freedOne]
  split <;> simp only [setCongested, room, if_true, setFull, wakeUp, here] <;>
    exact List.mem_append_right _ (List.mem_singleton.mpr rfl)

/- Someone will wake the waiters of a direction: a request of it that is still to be freed, a
caller already woken, or, for a direction marked starved, the other direction. -/
def willWake (q : AllocQueue) (sync : Bool) : Prop :=
  q.rl.count sync ≠ 0 ∨ q.rl.starved sync = true ∨ ∃ w ∈ q.rl.woken, w.isSync = sync

structure NoLostWakeup (s : AllocState) : Prop where
  accounts : Accounts s
  side : ∀ sync, ∀ w ∈ s.q.rl.wait sync, w.isSync = sync
  awake : s.q.dying = false → ∀ sync, s.q.rl.wait sync ≠ [] → willWake s.q sync
  closed : s.cleanedUp = true → s.q.dying = true ∧ ∀ sync, s.q.rl.wait sync = [] ∧ s.q.rl.count sync = 0

theorem subsetNil {α : Type} {list more : List α} (within : ∀ x ∈ more, x ∈ list) (none' : list = []) : more = [] := by
  rw [none'] at within
  exact List.eq_nil_iff_forall_not_mem.mpr (fun x member => List.not_mem_nil (within x member))

theorem waitingBefore {q u : AllocQueue} (wakes : Wakes q u) {sync : Bool} (waiting : u.rl.wait sync ≠ []) :
    q.rl.wait sync ≠ [] := fun none' => waiting (subsetNil (wakes.wait sync) none')

theorem noLostOf {s t : AllocState} (before : NoLostWakeup s) (accounts : Accounts t) (wakes : Wakes s.q t.q)
    (count : t.q.rl.count = s.q.rl.count) (starved : t.q.rl.starved = s.q.rl.starved)
    (dying : t.q.dying = false → s.q.dying = false) (still : s.q.dying = true → t.q.dying = true)
    (cleaned : t.cleanedUp = s.cleanedUp) : NoLostWakeup t where
  accounts := accounts
  side := fun sync w member => before.side sync w (wakes.wait sync w member)
  awake := by
    intro alive sync waiting
    rw [willWake, count, starved]
    exact (before.awake (dying alive) sync (waitingBefore wakes waiting)).imp id
      (Or.imp id (fun ⟨w, member, same⟩ => ⟨w, wakes.woken w member, same⟩))
  closed := by
    rw [cleaned]
    intro done
    obtain ⟨dead, rest⟩ := before.closed done
    exact ⟨still dead, fun sync => ⟨subsetNil (wakes.wait sync) (rest sync).1, by rw [count]; exact (rest sync).2⟩⟩

/- A freed request leaves no one behind in either direction. -/
theorem freedWillWake {s : AllocState} (before : NoLostWakeup s) (alive : s.q.dying = false) (sync elvPriv : Bool)
    (b : Bool) (waiting : (freedRequest s.q sync elvPriv).rl.wait b ≠ []) :
    willWake (freedRequest s.q sync elvPriv) b := by
  have first := freedOneWakes (uncount s.q sync elvPriv) sync
  have rest : Wakes (freedOne (uncount s.q sync elvPriv) sync) (freedRequest s.q sync elvPriv) := by
    rw [freedRequestUncount]
    split
    · exact freedOneWakes _ (!sync)
    · exact wakesRefl _
  have uncounted : Wakes s.q (uncount s.q sync elvPriv) := ⟨fun _ _ => id, fun _ => id⟩
  have wakes : Wakes s.q (freedRequest s.q sync elvPriv) := wakesTrans uncounted (wakesTrans first rest)
  have frame := freedRequestFrame s.q sync elvPriv
  have waited := waitingBefore wakes waiting
  rw [willWake, frame.count, frame.starved]
  show set s.q.rl.count sync (s.q.rl.count sync - 1) b ≠ 0 ∨ s.q.rl.starved b = true ∨ _
  by_cases same : b = sync
  · subst same
    rw [setSame]
    by_cases last : s.q.rl.count b - 1 = 0
    · have room : (uncount s.q b elvPriv).rl.count b + 1 ≤ (uncount s.q b elvPriv).nrRequests := by
        show set s.q.rl.count b (s.q.rl.count b - 1) b + 1 ≤ s.q.nrRequests
        rw [setSame, last]
        exact before.accounts.flags.thresholds.some'
      obtain ⟨w, woken, wasWaiting⟩ := freedOneFirst room waited
      exact Or.inr (Or.inr ⟨w, rest.woken w woken, before.side b w wasWaiting⟩)
    · exact Or.inl last
  · rw [setOther _ _ same]
    exact (before.awake alive b waited).imp id
      (Or.imp id (fun ⟨w, member, here⟩ => ⟨w, wakes.woken w member, here⟩))

theorem freedWakes (q : AllocQueue) (sync elvPriv : Bool) : Wakes q (freedRequest q sync elvPriv) := by
  have uncounted : Wakes q (uncount q sync elvPriv) := ⟨fun _ _ => id, fun _ => id⟩
  rw [freedRequestUncount]
  split
  · exact wakesTrans uncounted (wakesTrans (freedOneWakes _ sync) (freedOneWakes _ (!sync)))
  · exact wakesTrans uncounted (freedOneWakes _ sync)

/- No request exists or is being made once the queue was cleaned up. -/
theorem cleanedEmpty {s : AllocState} (before : NoLostWakeup s) (cleaned : s.cleanedUp = true) :
    s.live = [] ∧ s.filling = [] ∧ s.demoting = [] := by
  have zero : ∀ b, outstanding s b = 0 := fun b => by
    have count := before.accounts.count b
    rw [((before.closed cleaned).2 b).2] at count
    omega
  have none' : ∀ {α : Type} (list : List α) (side : α → Bool),
      (∀ b, list.countP (fun x => side x == b) = 0) → list = [] := by
    intro α list side empty
    refine List.eq_nil_iff_forall_not_mem.mpr (fun x member => ?_)
    have some' : 0 < list.countP (fun y => side y == side x) :=
      List.countP_pos_iff.mpr ⟨x, member, beq_self_eq_true (side x)⟩
    exact absurd (empty (side x)) (Nat.ne_of_gt some')
  refine ⟨none' _ (·.isSync) fun b => ?_, none' _ (·.call.isSync) fun b => ?_, none' _ (·.1.isSync) fun b => ?_⟩ <;>
    have := zero b <;> simp only [outstanding] at this <;> omega

/- A caller that gives up or goes to sleep. -/
theorem noLostSleep {s : AllocState} (accounts : Accounts s) (call : Call)
    (side : ∀ sync, ∀ w ∈ s.q.rl.wait sync, w.isSync = sync)
    (awake : s.q.dying = false → ∀ sync, (s.q.rl.wait sync ≠ [] ∨ sync = call.isSync) → willWake s.q sync)
    (closed : s.cleanedUp = true → s.q.dying = true ∧ ∀ sync, s.q.rl.wait sync = [] ∧ s.q.rl.count sync = 0) :
    NoLostWakeup (sleepOrFail s call) := by
  have accounts' := accountsSleep accounts call
  simp only [sleepOrFail] at accounts' ⊢
  by_cases gone : call.gfpWait = false ∨ s.q.dying = true
  · rw [if_pos gone]
    exact ⟨accounts, side, fun alive sync waiting => awake alive sync (Or.inl waiting), closed⟩
  · rw [if_neg gone] at accounts' ⊢
    refine ⟨accounts', fun sync w member => ?_, fun alive sync waiting => ?_, fun cleaned => ?_⟩
    · change w ∈ set s.q.rl.wait call.isSync (s.q.rl.wait call.isSync ++ [call]) sync at member
      by_cases same : sync = call.isSync
      · rw [same, setSame] at member
        rcases List.mem_append.mp member with old | new
        · rw [same]
          exact side call.isSync w old
        · rw [List.mem_singleton.mp new, same]
      · rw [setOther _ _ same] at member
        exact side sync w member
    · refine awake alive sync ?_
      by_cases same : sync = call.isSync
      · exact Or.inr same
      · change set s.q.rl.wait call.isSync (s.q.rl.wait call.isSync ++ [call]) sync ≠ [] at waiting
        rw [setOther _ _ same] at waiting
        exact Or.inl waiting
    · exact absurd (Or.inr (closed cleaned).1) gone

theorem noLostTry {s : AllocState} (accounts : Accounts s) (call : Call) (mayQueue : MayQueue) (jiffies : BitVec 64)
    (side : ∀ sync, ∀ w ∈ s.q.rl.wait sync, w.isSync = sync)
    (awake : s.q.dying = false → ∀ sync, sync ≠ call.isSync → s.q.rl.wait sync ≠ [] → willWake s.q sync)
    (closed : s.cleanedUp = true → s.q.dying = true ∧ ∀ sync, s.q.rl.wait sync = [] ∧ s.q.rl.count sync = 0) :
    NoLostWakeup (tryGet batchTime s call mayQueue jiffies) := by
  have accounts' := accountsTry batchTime accounts call mayQueue jiffies
  obtain ⟨u, ioc, flags, frame, ⟨elvPriv, counted, same⟩ | ⟨refused, same⟩⟩ :=
    tryGetTaken batchTime s call mayQueue jiffies
  · rw [same] at accounts' ⊢
    refine ⟨accounts', fun sync w member => side sync w (frame.wait ▸ member), fun _ sync waiting => ?_,
      fun cleaned => ?_⟩
    · show u.rl.count sync ≠ 0 ∨ u.rl.starved sync = true ∨ _
      by_cases here : sync = call.isSync
      · refine Or.inl ?_
        rw [counted.count, here, setSame, accounts.count]
        omega
      · rw [counted.count, counted.starved, setOther _ _ here, setOther _ _ here]
        change u.rl.wait sync ≠ [] at waiting
        rw [frame.wait] at waiting
        exact (awake counted.alive sync here waiting).imp id (Or.imp id (fun found => by
          show ∃ w ∈ u.rl.woken, w.isSync = sync
          rw [frame.woken]
          exact found))
    · have dead := (closed cleaned).1
      rw [counted.alive] at dead
      contradiction
  · rw [same]
    refine noLostSleep ?_ call (fun sync w member => side sync w (frame.wait ▸ member))
      (fun alive sync here => ?_) (fun cleaned => ?_)
    · exact accountsOf accounts (flags accounts.flags) refused.count refused.nrRqs refused.elvpriv
        (frame.nrRequests ▸ accounts.peak) (Int.le_refl _) ⟨rfl, rfl, rfl⟩
    · change u.dying = false at alive
      rw [frame.dying] at alive
      show u.rl.count sync ≠ 0 ∨ u.rl.starved sync = true ∨ ∃ w ∈ u.rl.woken, w.isSync = sync
      rw [refused.count, frame.woken]
      by_cases mine : sync = call.isSync
      · rw [mine]
        exact (refused.blocked alive accounts.flags).imp id Or.inl
      · rcases here with waiting | here
        · change u.rl.wait sync ≠ [] at waiting
          rw [frame.wait] at waiting
          exact (awake alive sync mine waiting).imp id (Or.imp (refused.starved sync) id)
        · exact absurd here mine
    · obtain ⟨dead, rest⟩ := closed cleaned
      refine ⟨frame.dying.trans dead, fun sync => ⟨?_, ?_⟩⟩
      · show u.rl.wait sync = []
        rw [frame.wait]
        exact (rest sync).1
      · show u.rl.count sync = 0
        rw [refused.count]
        exact (rest sync).2

theorem markStarvedWakes (q : AllocQueue) (sync : Bool) :
    Wakes q (markStarved q sync) ∧ (markStarved q sync).dying = q.dying ∧ willWake (markStarved q sync) sync ∧
      ∀ b, willWake q b → willWake (markStarved q sync) b := by
  simp only [markStarved]
  split
  · refine ⟨⟨fun _ _ => id, fun _ => id⟩, rfl, Or.inr (Or.inl (setSame _ _ _)), fun b => ?_⟩
    refine Or.imp id (Or.imp (fun starved => ?_) id)
    show set q.rl.starved sync true b = true
    by_cases same : b = sync
    · rw [same, setSame]
    · rw [setOther _ _ same, starved]
  · rename_i some'
    exact ⟨wakesRefl q, rfl, Or.inl some', fun _ => id⟩

theorem updateNrWakes (q : AllocQueue) (nr : Int) : Wakes q (blkUpdateNrRequests q nr) := by
  have congested : ∀ u sync, Wakes u (updateCongested u sync) := fun u sync => by
    simp only [updateCongested]
    split
    · exact ⟨fun _ _ => id, fun _ => id⟩
    · split <;> exact ⟨fun _ _ => id, fun _ => id⟩
  have full : ∀ u sync, Wakes u (updateFull u sync) := fun u sync => by
    simp only [updateFull]
    split
    · exact ⟨fun _ _ => id, fun _ => id⟩
    · exact wakesTrans (u := setFull u sync false) ⟨fun _ _ => id, fun _ => id⟩ (wakeUpWakes _ sync)
  have start : Wakes q (blkQueueCongestionThreshold {q with nrRequests := nr}) := ⟨fun _ _ => id, fun _ => id⟩
  exact wakesTrans start (wakesTrans (wakesTrans (wakesTrans (congested _ true) (congested _ false)) (full _ true))
    (full _ false))

theorem noLostStep {s t : AllocState} {op : AllocOp} (before : NoLostWakeup s)
    (taken : step batchTime s op = some t) : NoLostWakeup t := by
  have accounts := accountsStep batchTime before.accounts taken
  cases op with
  | get call mayQueue jiffies =>
    cases Option.some.inj taken
    exact noLostTry batchTime before.accounts call mayQueue jiffies before.side
      (fun alive sync _ => before.awake alive sync) before.closed
  | retry call mayQueue jiffies =>
    simp only [step] at taken
    split at taken <;> try contradiction
    cases Option.some.inj taken
    -- Only its own direction can have lost a wakeup, and that one is looked at again.
    refine noLostTry batchTime (accountsResume batchTime before.accounts call jiffies) call mayQueue jiffies
      before.side (fun alive sync other waiting => ?_) before.closed
    refine (before.awake alive sync waiting).imp id (Or.imp id ?_)
    rintro ⟨w, member, same⟩
    have apart : w ≠ call := fun itself => other (by rw [← same, itself])
    exact ⟨w, (List.mem_erase_of_ne apart).mpr member, same⟩
  | allocFails f =>
    simp only [step] at taken
    split at taken <;> try contradiction
    rename_i member
    cases Option.some.inj taken
    have freed : Accounts {s with filling := s.filling.erase f, q := freedRequest s.q f.call.isSync f.elvPriv} := by
      refine accountsFreed before.accounts rfl rfl (fun b => ?_) ?_
      · simp only [outstanding, countErased member]
        omega
      · simp only [managed, countErased member]
        omega
    obtain ⟨count, nrRqs, elvpriv, nr⟩ := markStarvedCounts (freedRequest s.q f.call.isSync f.elvPriv) f.call.isSync
    obtain ⟨wakes, dying, own, others⟩ := markStarvedWakes (freedRequest s.q f.call.isSync f.elvPriv) f.call.isSync
    have all := wakesTrans (freedWakes s.q f.call.isSync f.elvPriv) wakes
    have stays := (freedElvpriv s.q f.call.isSync f.elvPriv).2.2.2
    refine noLostSleep ?_ f.call (fun sync w waiting => before.side sync w (all.wait sync w waiting))
      (fun alive sync here => ?_) (fun cleaned => ?_)
    · exact accountsOf freed (markStarvedFlags f.call.isSync freed.flags) count nrRqs elvpriv (nr ▸ freed.peak)
        (Int.le_refl _) ⟨rfl, rfl, rfl⟩
    · by_cases mine : sync = f.call.isSync
      · rw [mine]
        exact own
      · rcases here with waiting | here
        · exact others sync (freedWillWake before (stays.symm.trans (dying.symm.trans alive)) _ _ sync
            (waitingBefore wakes waiting))
        · exact absurd here mine
    · have none' := (cleanedEmpty before cleaned).2.1
      rw [none'] at member
      cases member
  | allocated f rq elvOk jiffies =>
    simp only [step] at taken
    split at taken <;> try contradiction
    split at taken <;> cases Option.some.inj taken
    · exact noLostOf before accounts (wakesRefl _) rfl rfl id id rfl
    · obtain ⟨q, -, -, -, -, -, cleaned⟩ := takeBatchKeeps batchTime
        {s with filling := s.filling.erase f, live := s.live ++ [⟨rq, f.call.isSync, f.elvPriv⟩]} f.call.task jiffies
      exact noLostOf before accounts (by rw [q]; exact wakesRefl _) (by rw [q]) (by rw [q]) (by rw [q]; exact id)
        (by rw [q]; exact id) cleaned
  | demote call rq jiffies =>
    simp only [step] at taken
    split at taken <;> try contradiction
    cases Option.some.inj taken
    obtain ⟨q, -, -, -, -, -, cleaned⟩ := takeBatchKeeps batchTime
      {s with demoting := s.demoting.erase (call, rq), live := s.live ++ [⟨rq, call.isSync, false⟩],
              q := {s.q with nrRqsElvpriv := s.q.nrRqsElvpriv - 1}} call.task jiffies
    exact noLostOf before accounts (by rw [q]; exact ⟨fun _ _ => id, fun _ => id⟩) (by rw [q]) (by rw [q])
      (by rw [q]; exact id) (by rw [q]; exact id) cleaned
  | put rq =>
    simp only [step] at taken
    split at taken <;> try contradiction
    rename_i member
    cases Option.some.inj taken
    have wakes := freedWakes s.q rq.isSync rq.elvPriv
    have stays := (freedElvpriv s.q rq.isSync rq.elvPriv).2.2.2
    refine ⟨accounts, fun sync w waiting => before.side sync w (wakes.wait sync w waiting),
      fun alive sync waiting => freedWillWake before (stays.symm.trans alive) _ _ sync waiting, fun cleaned => ?_⟩
    have none' := (cleanedEmpty before cleaned).1
    rw [none'] at member
    cases member
  | updateNr nr =>
    simp only [step] at taken
    split at taken <;> try contradiction
    cases Option.some.inj taken
    have frame := updateNrCounts s.q nr
    exact noLostOf before accounts (updateNrWakes s.q nr) frame.count frame.starved
      (fun alive => frame.dying.symm.trans alive) (fun dead => frame.dying.trans dead) rfl
  | bypassStart =>
    cases Option.some.inj taken
    exact noLostOf before accounts ⟨fun _ _ => id, fun _ => id⟩ rfl rfl id id rfl
  | drained =>
    simp only [step] at taken
    split at taken <;> try contradiction
    cases Option.some.inj taken
    exact noLostOf before accounts (wakesTrans (wakeUpAllWakes s.q false) (wakeUpAllWakes _ true)) rfl rfl id id rfl
  | bypassEnd =>
    simp only [step] at taken
    split at taken <;> try contradiction
    cases Option.some.inj taken
    exact noLostOf before accounts ⟨fun _ _ => id, fun _ => id⟩ rfl rfl id id rfl
  | setDying =>
    cases Option.some.inj taken
    have start : Wakes s.q {s.q with dying := true} := ⟨fun _ _ => id, fun _ => id⟩
    have wakes := wakesTrans start (wakesTrans (wakeUpWakes {s.q with dying := true} true) (wakeUpWakes _ false))
    have frame := frameTrans (wakeUpFrame {s.q with dying := true} true) (wakeUpFrame _ false)
    exact noLostOf before accounts wakes frame.count frame.starved
      (fun alive => absurd (frame.dying.symm.trans alive) (by simp)) (fun _ => frame.dying) rfl
  | cleanupDrained =>
    simp only [step] at taken
    split at taken <;> try contradiction
    rename_i drained
    cases Option.some.inj taken
    have empty : ∀ sync, (wakeUpAll (wakeUpAll s.q false) true).rl.wait sync = [] := fun sync => by
      cases sync <;> rfl
    refine ⟨accounts, fun sync w member => ?_, fun alive => ?_, fun _ => ⟨drained.1, fun sync => ⟨empty sync, ?_⟩⟩⟩
    · change w ∈ (wakeUpAll (wakeUpAll s.q false) true).rl.wait sync at member
      rw [empty] at member
      cases member
    · exact absurd (drained.1.symm.trans alive) (by decide)
    · show s.q.rl.count sync = 0
      rw [← before.accounts.nrRqs]
      cases sync
      · exact drained.2.2.1
      · exact drained.2.1

/- No wakeup is lost over any interleaving: as long as the queue is not dying, someone is left
to wake the callers that sleep, and once it was cleaned up nobody sleeps on it for ever. -/
theorem sleepersAreWoken {nr nrBatching : Int} {ioc : TaskId → Option IoContext} (some' : 1 ≤ nr)
    {ops : List AllocOp} {t : AllocState}
    (ran : exec (step batchTime) (startState nr nrBatching ioc) ops = some t) :
    (t.q.dying = false → ∀ sync, t.q.rl.wait sync ≠ [] → willWake t.q sync) ∧
      (t.cleanedUp = true → (∀ sync, t.q.rl.wait sync = []) ∧ t.live = [] ∧ t.filling = [] ∧ t.demoting = []) := by
  have safe : NoLostWakeup t := by
    refine execInvariant (fun _ _ _ before taken => noLostStep batchTime before taken) ?_ ran
    exact ⟨accountsStart some' nrBatching ioc, fun _ w member => absurd member List.not_mem_nil,
      fun _ _ waiting => absurd rfl waiting, fun cleaned => absurd cleaned Bool.false_ne_true⟩
  exact ⟨safe.awake, fun cleaned =>
    ⟨fun sync => ((safe.closed cleaned).2 sync).1, cleanedEmpty safe cleaned⟩⟩

theorem contendedWoken : ∃ t,
    exec (step 5) (startState 1 32 (fun _ => none)) contended = some t ∧
      (t.q.dying = false → ∀ sync, t.q.rl.wait sync ≠ [] → willWake t.q sync) :=
  have ⟨t, ran⟩ := Option.isSome_iff_exists.mp (show (exec (step 5) (startState 1 32 (fun _ => none))
    contended).isSome = true from rfl)
  ⟨t, ran, (sleepersAreWoken 5 (Int.le_refl 1) ran).1⟩

end

end KernelLabs.RequestAllocation
