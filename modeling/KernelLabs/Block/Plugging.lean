import Mathlib.Data.List.Sort
import KernelLabs.Library.Runs
import KernelLabs.Block.Completion
import KernelLabs.Block.Elevator
import KernelLabs.Block.Merging
import KernelLabs.Library.Batches

/-! Plugging: a task holds its new requests back on `current->plug`, merges into them
without any lock, and hands them over when the plug is finished, when it is full or when
the task goes to sleep. The drivers' unplug callbacks run first and may submit more. The
multi-queue list of a plug is left out. -/
namespace KernelLabs.Plugging
open Block Batches Runs
open Merging (ElvMerge)

/- `q` is `rq->q`, zero for `NULL`; `flushFua` is `cmd_flags & (REQ_FLUSH | REQ_FUA)`. -/
structure PlugRequest extends BioRequest where
  addr : Ref
  q : Ref
  flushFua : Bool
  deriving DecidableEq, Repr

/- What `blk_check_plugged` compares: the function and its data, by address. -/
structure PlugCb where
  callback : Ref
  data : Ref
  deriving DecidableEq, Repr

structure Plug where
  list : List PlugRequest
  cbList : List PlugCb
  deriving DecidableEq, Repr

def enodev : Int := -19

def blkMaxRequestCount : Nat := 16

def plugRqCmp (a b : PlugRequest) : Int :=
  if a.q < b.q ∨ a.q = b.q ∧ blkRqPos a.toRequest < blkRqPos b.toRequest then 0 else 1

/- What a task does to the queues and to the drivers, in order. An insertion and a run are
calls that the queue lock is held for. -/
inductive PlugEvent where
  | lock (q : Ref)
  | unlock (q : Ref)
  | insert (rq : PlugRequest) (point : InsertionPoint)
  | endAll (rq : PlugRequest) (error : Int)
  | mergeBio (q : Ref) (bio : Bio)
  | endBio (bio : Bio) (error : Int)
  | run (q : Ref) (async : Bool)
  | traceUnplug (q : Ref) (depth : Nat) (explicit : Bool)
  | callback (cb : PlugCb) (fromSchedule : Bool)
  deriving DecidableEq, Repr

def queueUnplugged (fromSchedule : Bool) (q : Ref) (depth : Nat) : List PlugEvent :=
  [.traceUnplug q depth (!fromSchedule), .run q fromSchedule, .unlock q]

/- One request of the loop, under its queue's lock. -/
def handOver (died : Ref → Bool) (rq : PlugRequest) : PlugEvent :=
  if died rq.addr then .endAll rq enodev
  else .insert rq (if rq.flushFua then .flush else .sortMerge)

/- The loop of `blk_flush_plug_list` over the sorted list. `died` is `blk_queue_dying` as
each request's turn comes: other processors may set it between two of them. `none` is
`BUG_ON(!rq->q)`. -/
def flushLoop (died : Ref → Bool) (fromSchedule : Bool) :
    Ref → Nat → List PlugRequest → Option (List PlugEvent)
  | q, depth, [] => some (if q ≠ 0 then queueUnplugged fromSchedule q depth else [])
  | q, depth, rq :: rest =>
    if rq.q = 0 then none
    else
      let opened := if rq.q ≠ q then
        (if q ≠ 0 then queueUnplugged fromSchedule q depth else []) ++ [.lock rq.q] else []
      let depth := if rq.q ≠ q then 0 else depth
      (flushLoop died fromSchedule rq.q (if died rq.addr then depth else depth + 1) rest).map
        fun events => opened ++ handOver died rq :: events

/- `blk-merge.c` is outside: whether a bio may join a request, on which side it touches it,
and what is left in the request when bios of different failfast bits meet. -/
structure BlkMerge where
  rqMergeOk : PlugRequest → Bio → Bool
  tryMerge : PlugRequest → Bio → ElvMerge
  llBackMerge : PlugRequest → Bio → Bool
  llFrontMerge : PlugRequest → Bio → Bool
  setMixedMerge : PlugRequest → PlugRequest

def mixed (m : BlkMerge) (rq : PlugRequest) (bio : Bio) : PlugRequest :=
  if rq.failfast ≠ bio.failfast then m.setMixedMerge rq else rq

def bioAttemptBackMerge (m : BlkMerge) (rq : PlugRequest) (bio : Bio) : Option PlugRequest :=
  if !m.llBackMerge rq bio then none
  else
    let rq := mixed m rq bio
    some {rq with bio := rq.bio ++ [bio], dataLen := rq.dataLen + bio.biSize}

def bioAttemptFrontMerge (m : BlkMerge) (rq : PlugRequest) (bio : Bio) : Option PlugRequest :=
  if !m.llFrontMerge rq bio then none
  else
    let rq := mixed m rq bio
    some {rq with bio := bio :: rq.bio, sector := bio.biSector, dataLen := rq.dataLen + bio.biSize}

def attemptMerge (m : BlkMerge) (q : Ref) (bio : Bio) (rq : PlugRequest) : Option PlugRequest :=
  if rq.q ≠ q || !m.rqMergeOk rq bio then none
  else match m.tryMerge rq bio with
    | .backMerge => bioAttemptBackMerge m rq bio
    | .frontMerge => bioAttemptFrontMerge m rq bio
    | .noMerge => none

/- The loop of `blk_attempt_plug_merge`, over the list from its end: the count of traversed
requests of the queue, and the list with the merge made, if there was one. -/
def plugMergeLoop (m : BlkMerge) (q : Ref) (bio : Bio) : List PlugRequest → Nat × Option (List PlugRequest)
  | [] => (0, none)
  | rq :: rest =>
    let here := if rq.q = q then 1 else 0
    match attemptMerge m q bio rq with
    | some merged => (here, some (merged :: rest))
    | none =>
      let (count, more) := plugMergeLoop m q bio rest
      (here + count, more.map (rq :: ·))

/- What `get_request` gives: the request, and the flags it set. -/
structure FreshRequest where
  addr : Ref
  elvPriv : Bool
  ioStat : Bool
  deriving DecidableEq, Repr

/- A bio for `blk_queue_bio`, with what code outside answers on the way: the integrity
check, whether the elevator took the bio in, how often `get_request` slept and what it
gave. `rahead` is `REQ_RAHEAD`. -/
structure Submission where
  q : Ref
  bio : Bio
  flushFua : Bool
  rahead : Bool
  integrityFails : Bool
  nomerges : Bool
  elvMerges : Bool
  sleeps : Nat
  request : Except Int FreshRequest

def initRequestFromBio (sub : Submission) (rq : FreshRequest) : PlugRequest where
  sector := sub.bio.biSector
  dataLen := sub.bio.biSize
  cmdType := .fs
  cmdFlags := ⟨false, false, false, false, rq.elvPriv, false⟩
  startWait := .zero
  startService := .zero
  bio := [sub.bio]
  failfast := if sub.rahead then 7 else sub.bio.failfast
  mixedMerge := false
  quiet := false
  flushSeq := false
  ioStat := rq.ioStat
  errors := 0
  addr := rq.addr
  q := sub.q
  flushFua := sub.flushFua

/- What a driver's unplug callback asks of the block layer. -/
inductive CbCall where
  | check (cb : PlugCb) (allocated : Bool)
  | submit (sub : Submission)

/- The code outside: `list_sort` with `plug_rq_cmp`, the dying flags as of the number of
events so far, `blk-merge.c`, and the drivers' callbacks with the state they keep. -/
structure Outer (σ : Type) where
  listSort : List PlugRequest → List PlugRequest
  died : Nat → Ref → Bool
  merging : BlkMerge
  unplug : σ → PlugCb → Bool → σ × List CbCall

inductive Item where
  | bio (addr : Ref)
  | request (addr : Ref)
  | callback (cb : PlugCb)
  deriving DecidableEq, Repr

/- A task. `plug` is `current->plug` with what it points to; `arrived` logs the bios given to
`blk_queue_bio`, the requests made for them and the callbacks registered. -/
structure PlugTask (σ : Type) where
  plug : Option (Ref × Plug)
  world : σ
  events : List PlugEvent
  arrived : List Item

section
variable {σ : Type}

def PlugTask.log (t : PlugTask σ) (more : List PlugEvent) : PlugTask σ := {t with events := t.events ++ more}

def PlugTask.arrive (t : PlugTask σ) (item : Item) : PlugTask σ := {t with arrived := t.arrived ++ [item]}

def PlugTask.plugged (t : PlugTask σ) : List PlugRequest := (t.plug.map (·.2.list)).getD []

def PlugTask.setPlug (t : PlugTask σ) (f : Plug → Plug) : PlugTask σ :=
  {t with plug := t.plug.map fun p => (p.1, f p.2)}

def blkStartPlug (t : PlugTask σ) (p : Ref) : PlugTask σ :=
  match t.plug with
  | some _ => t
  | none => {t with plug := some (p, ⟨[], []⟩)}

/- The return value is the driver's own affair. -/
def blkCheckPlugged (t : PlugTask σ) (cb : PlugCb) (allocated : Bool) : PlugTask σ :=
  match t.plug with
  | none => t
  | some (_, plug) =>
    if cb ∈ plug.cbList then t
    else if allocated then
      (t.setPlug fun plug => {plug with cbList := cb :: plug.cbList}).arrive (.callback cb)
    else t

def blkAttemptPlugMerge (m : BlkMerge) (t : PlugTask σ) (sub : Submission) : Nat × Bool × PlugTask σ :=
  match plugMergeLoop m sub.q sub.bio t.plugged.reverse with
  | (count, none) => (count, false, t)
  | (count, some merged) => (count, true, t.setPlug fun plug => {plug with list := merged.reverse})

/- `blk_schedule_flush_plug` and `blk_flush_plug`, for a way to flush. -/
def flushIfPlugged (flush : PlugTask σ → Bool → Option (PlugTask σ)) (t : PlugTask σ)
    (fromSchedule : Bool) : Option (PlugTask σ) :=
  match t.plug with
  | none => some t
  | some _ => flush t fromSchedule

/- `get_request` gives up the queue lock to sleep, and `schedule` flushes the plug. -/
def sleepForRequest (flush : PlugTask σ → Bool → Option (PlugTask σ)) (q : Ref) :
    Nat → PlugTask σ → Option (PlugTask σ)
  | 0, t => some t
  | n + 1, t =>
    match flushIfPlugged flush (t.log [.unlock q]) true with
    | none => none
    | some t => sleepForRequest flush q n (t.log [.lock q])

/- The end of `blk_queue_bio`, with the request at hand. -/
def addRequest (flush : PlugTask σ → Bool → Option (PlugTask σ)) (t : PlugTask σ) (req : PlugRequest)
    (point : InsertionPoint) (requestCount : Nat) : Option (PlugTask σ) :=
  match t.plug with
  | some _ =>
    (if blkMaxRequestCount ≤ requestCount then flush t false else some t).map fun t =>
      t.setPlug fun plug => {plug with list := plug.list ++ [req]}
  | none => some (t.log [.lock req.q, .insert req point, .run req.q false, .unlock req.q])

/- `blk_queue_bio` from `get_rq` on, with the queue lock held. -/
def getRq (flush : PlugTask σ → Bool → Option (PlugTask σ)) (t : PlugTask σ) (sub : Submission)
    (point : InsertionPoint) (requestCount : Nat) : Option (PlugTask σ) :=
  match sleepForRequest flush sub.q sub.sleeps t with
  | none => none
  | some t =>
    match sub.request with
    | .error e => some (t.log [.endBio sub.bio e, .unlock sub.q])
    | .ok rq =>
      addRequest flush ((t.log [.unlock sub.q]).arrive (.request rq.addr)) (initRequestFromBio sub rq) point
        requestCount

/- `blk_queue_bio` from the plug's merge on: what follows where nothing merged. -/
def queueUnmerged (flush : PlugTask σ → Bool → Option (PlugTask σ)) (t : PlugTask σ) (sub : Submission)
    (requestCount : Nat) : Option (PlugTask σ) :=
  if sub.elvMerges then some (t.log [.lock sub.q, .mergeBio sub.q sub.bio, .unlock sub.q])
  else getRq flush (t.log [.lock sub.q]) sub .sort requestCount

variable (outer : Outer σ)

def queueBioWith (flush : PlugTask σ → Bool → Option (PlugTask σ)) (t : PlugTask σ) (sub : Submission) :
    Option (PlugTask σ) :=
  let t := t.arrive (.bio sub.bio.addr)
  if sub.integrityFails then some (t.log [.endBio sub.bio eio])
  else if sub.flushFua then getRq flush (t.log [.lock sub.q]) sub .flush 0
  else if sub.nomerges then queueUnmerged flush t sub 0
  else match blkAttemptPlugMerge outer.merging t sub with
    | (_, true, t) => some t
    | (count, false, t) => queueUnmerged flush t sub count

/- The requests of the plug, once the callbacks have run. -/
def flushRequests (t : PlugTask σ) (fromSchedule : Bool) : Option (PlugTask σ) :=
  if t.plugged = [] then some t
  else (flushLoop (outer.died t.events.length) fromSchedule 0 0 (outer.listSort t.plugged)).map fun events =>
    (t.setPlug fun plug => {plug with list := []}).log events

/- A callback may submit bios, a bio may fill the plug, and a full plug is flushed at once,
so the flush and its callbacks call each other; `fuel` bounds the calls.
`flushPlugCallbacks` is both loops of `flush_plug_callbacks`; the list is its `callbacks`. -/
mutual
def blkFlushPlugList : Nat → PlugTask σ → Bool → Option (PlugTask σ)
  | 0, _, _ => none
  | fuel + 1, t, fromSchedule =>
    match flushPlugCallbacks fuel t fromSchedule [] with
    | none => none
    | some t => flushRequests outer t fromSchedule

def flushPlugCallbacks : Nat → PlugTask σ → Bool → List PlugCb → Option (PlugTask σ)
  | 0, _, _, _ => none
  | fuel + 1, t, fromSchedule, [] =>
    match (t.plug.map (·.2.cbList)).getD [] with
    | [] => some t
    | callbacks => flushPlugCallbacks fuel (t.setPlug fun plug => {plug with cbList := []}) fromSchedule callbacks
  | fuel + 1, t, fromSchedule, cb :: callbacks =>
    match cbCalls fuel {t.log [.callback cb fromSchedule] with
        world := (outer.unplug t.world cb fromSchedule).1} (outer.unplug t.world cb fromSchedule).2 with
    | none => none
    | some t => flushPlugCallbacks fuel t fromSchedule callbacks

def cbCalls : Nat → PlugTask σ → List CbCall → Option (PlugTask σ)
  | 0, _, _ => none
  | _ + 1, t, [] => some t
  | fuel + 1, t, .check cb allocated :: calls => cbCalls fuel (blkCheckPlugged t cb allocated) calls
  | fuel + 1, t, .submit sub :: calls =>
    match queueBioWith outer (fun t fromSchedule => blkFlushPlugList fuel t fromSchedule) t sub with
    | none => none
    | some t => cbCalls fuel t calls
end

def blkQueueBio (fuel : Nat) (t : PlugTask σ) (sub : Submission) : Option (PlugTask σ) :=
  queueBioWith outer (blkFlushPlugList outer fuel) t sub

def blkFinishPlug (fuel : Nat) (t : PlugTask σ) (p : Ref) : Option (PlugTask σ) :=
  if t.plug.map Prod.fst ≠ some p then some t
  else (blkFlushPlugList outer fuel t false).map fun t => {t with plug := none}

inductive TaskOp where
  | start (p : Ref)
  | finish (p : Ref)
  | submit (sub : Submission)
  | check (cb : PlugCb) (allocated : Bool)
  | flush (fromSchedule : Bool)

def step (fuel : Nat) (t : PlugTask σ) : TaskOp → Option (PlugTask σ)
  | .start p => some (blkStartPlug t p)
  | .finish p => blkFinishPlug outer fuel t p
  | .submit sub => blkQueueBio outer fuel t sub
  | .check cb allocated => some (blkCheckPlugged t cb allocated)
  | .flush fromSchedule => flushIfPlugged (blkFlushPlugList outer fuel) t fromSchedule

def idleTask (world : σ) : PlugTask σ := ⟨none, world, [], []⟩

end

/- What `list_sort` promises. It asks only whether the comparison answers more than zero, and
`plug_rq_cmp` answers zero where its first request goes before its second: none that comes later
does, compared with one that comes before. -/
structure ListSort (listSort : List PlugRequest → List PlugRequest) : Prop where
  perm : ∀ l, (listSort l).Perm l
  sorted : ∀ l, (listSort l).Pairwise (fun a b => 0 < plugRqCmp b a)

theorem cmpOrdered {a b : PlugRequest} (ordered : 0 < plugRqCmp b a) :
    a.q ≤ b.q ∧ (a.q = b.q → blkRqPos a.toRequest ≤ blkRqPos b.toRequest) := by
  unfold plugRqCmp at ordered
  split at ordered
  · contradiction
  · rename_i late
    rw [not_or, not_and] at late
    exact ⟨Nat.le_of_not_lt late.1, fun same => BitVec.not_lt.mp (late.2 same.symm)⟩

/- The queues taken one after the other: each locked once, its requests handed over, and run
once with the number of those that were inserted. -/
def unplugQueue (died : Ref → Bool) (fromSchedule : Bool) : List PlugRequest → List PlugEvent :=
  batch PlugRequest.q (fun q => [.lock q]) (fun rq => [handOver died rq]) (fun rq => !died rq.addr)
    (queueUnplugged fromSchedule)

theorem flushLoopSweep (died : Ref → Bool) (fromSchedule : Bool) {l : List PlugRequest}
    (owned : ∀ rq ∈ l, rq.q ≠ 0) (q : Ref) (depth : Nat) :
    flushLoop died fromSchedule q depth l =
      some (sweep PlugRequest.q (fun q => [.lock q]) (fun rq => [handOver died rq]) (fun rq => !died rq.addr)
        (queueUnplugged fromSchedule) (if q = 0 then none else some q) depth l) := by
  induction l generalizing q depth with
  | nil =>
    rw [flushLoop, sweep]
    by_cases null : q = 0
    · rw [if_neg (not_not.mpr null), if_pos null]
      rfl
    · rw [if_pos null, if_neg null]
      rfl
  | cons rq rest ih =>
    have here : rq.q ≠ 0 := owned rq List.mem_cons_self
    have later : ∀ rq ∈ rest, rq.q ≠ 0 := fun x member => owned x (List.mem_cons_of_mem rq member)
    rw [flushLoop, if_neg here, sweep]
    simp only [ih later, if_neg here, Option.map_some]
    by_cases stays : rq.q = q
    · subst stays
      rw [if_neg here, if_pos rfl]
      simp only [ne_eq, not_true_eq_false, if_false, List.nil_append]
      cases died rq.addr <;> rfl
    · have moved : (if q = 0 then none else some q) ≠ some rq.q := by
        split
        · exact (Option.some_ne_none _).symm
        · exact fun same => stays (Option.some.inj same).symm
      rw [if_neg moved]
      by_cases null : q = 0
      · simp only [ne_eq, null, not_true_eq_false, not_false_eq_true, if_false, if_true, here, closeOpen,
          List.nil_append]
        cases died rq.addr <;> rfl
      · simp only [ne_eq, stays, null, not_false_eq_true, if_true, if_false, closeOpen]
        cases died rq.addr <;> simp

/- Whatever order the requests were plugged in and whichever queues die meanwhile: the
queues are taken one by one, each once, and each gets its requests by rising sector. -/
theorem flushesInOrder {listSort : List PlugRequest → List PlugRequest} (sorts : ListSort listSort)
    (died : Ref → Bool) (fromSchedule : Bool) {plugged : List PlugRequest} (owned : ∀ rq ∈ plugged, rq.q ≠ 0) :
    ∃ groups : List (List PlugRequest),
      flushLoop died fromSchedule 0 0 (listSort plugged) =
        some (groups.flatMap (unplugQueue died fromSchedule)) ∧
      groups.flatten.Perm plugged ∧
      groups.Pairwise (fun g h => ∀ a ∈ g, ∀ b ∈ h, a.q < b.q) ∧
      ∀ g ∈ groups, g ≠ [] ∧ (∀ a ∈ g, ∀ b ∈ g, a.q = b.q) ∧
        g.Pairwise (fun a b => blkRqPos a.toRequest ≤ blkRqPos b.toRequest) := by
  have here : ∀ rq ∈ listSort plugged, rq.q ≠ 0 := fun rq member =>
    owned rq ((sorts.perm plugged).mem_iff.mp member)
  obtain ⟨groups, cut, ran⟩ := sweepBatches PlugRequest.q (fun q => [.lock q]) (fun rq => [handOver died rq])
    (fun rq => !died rq.addr) (queueUnplugged fromSchedule) (listSort plugged)
  refine ⟨groups, ?_, ?_, ?_, ?_⟩
  · rw [flushLoopSweep died fromSchedule here, if_pos rfl, ran]
    rfl
  · rw [cut.flat]
    exact sorts.perm plugged
  · exact cutApart cut ((sorts.sorted plugged).imp (fun ordered => (cmpOrdered ordered).1))
  · intro g member
    refine ⟨cut.some' g member, cut.same g member, ?_⟩
    have inner : g.Pairwise (fun a b => 0 < plugRqCmp b a) := by
      have sorted := sorts.sorted plugged
      rw [← cut.flat] at sorted
      exact (List.pairwise_flatten.mp sorted).1 g member
    refine inner.imp_of_mem (fun left right ordered => ?_)
    exact (cmpOrdered ordered).2 (cut.same g member _ left _ right)

def plugSort (l : List PlugRequest) : List PlugRequest := l.insertionSort (fun a b => 0 < plugRqCmp b a)

theorem cmpPositive {a b : PlugRequest} :
    0 < plugRqCmp b a ↔ a.q < b.q ∨ a.q = b.q ∧ blkRqPos a.toRequest ≤ blkRqPos b.toRequest := by
  constructor
  · intro ordered
    obtain ⟨le, ties⟩ := cmpOrdered ordered
    rcases Nat.lt_or_eq_of_le le with below | same
    · exact Or.inl below
    · exact Or.inr ⟨same, ties same⟩
  · intro ordered
    unfold plugRqCmp
    split
    · rename_i late
      rcases late with below | ⟨same, below⟩ <;> rcases ordered with above | ⟨same', above⟩
      · exact absurd above (Nat.lt_asymm below)
      · exact absurd same' (Nat.ne_of_gt below)
      · exact absurd same (Nat.ne_of_gt above)
      · exact absurd below (BitVec.not_lt.mpr above)
    · exact Int.zero_lt_one

instance plugOrderTotal : Std.Total (fun a b : PlugRequest => 0 < plugRqCmp b a) where
  total a b := by
    rw [cmpPositive, cmpPositive]
    rcases Nat.lt_trichotomy a.q b.q with below | same | above
    · exact Or.inl (Or.inl below)
    · rcases BitVec.le_total (blkRqPos a.toRequest) (blkRqPos b.toRequest) with low | high
      · exact Or.inl (Or.inr ⟨same, low⟩)
      · exact Or.inr (Or.inr ⟨same.symm, high⟩)
    · exact Or.inr (Or.inl above)

instance plugOrderTrans : IsTrans PlugRequest (fun a b => 0 < plugRqCmp b a) where
  trans a b c ab bc := by
    rw [cmpPositive] at *
    rcases ab with ab | ⟨ab, low⟩ <;> rcases bc with bc | ⟨bc, high⟩
    · exact Or.inl (ab.trans bc)
    · exact Or.inl (bc ▸ ab)
    · exact Or.inl (ab ▸ bc)
    · exact Or.inr ⟨ab.trans bc, BitVec.le_trans low high⟩

theorem plugSortSorts : ListSort plugSort where
  perm l := List.perm_insertionSort _ l
  sorted l := List.pairwise_insertionSort _ l

def plainRequest (addr q : Ref) (sector : Sector) : PlugRequest :=
  ⟨⟨⟨sector, 512, .fs, ⟨false, false, false, false, false, false⟩, .zero, .zero⟩,
    [⟨addr, sector, 512, 0, 0, false⟩], 0, false, false, false, false, 0⟩, addr, q, false⟩

/- Three requests of two queues, plugged out of order, with queue 7 dying. -/
def threePlugged : List PlugRequest := [plainRequest 1 9 40, plainRequest 2 7 8, plainRequest 3 9 16]

theorem threeInOrder : ∃ groups : List (List PlugRequest),
    flushLoop (fun rq => rq == 2) false 0 0 (plugSort threePlugged) =
      some (groups.flatMap (unplugQueue (fun rq => rq == 2) false)) ∧
    groups.flatten.Perm threePlugged := by
  obtain ⟨groups, ran, perm, -⟩ := flushesInOrder plugSortSorts (fun rq => rq == 2) false
    (show ∀ rq ∈ threePlugged, rq.q ≠ 0 by decide)
  exact ⟨groups, ran, perm⟩

/- A disk driver's answers, and one unplug callback that submits a held back bio. -/
def plainMerge : BlkMerge where
  rqMergeOk _ _ := true
  tryMerge rq bio :=
    if rqEndSector rq.toRequest = bio.biSector then .backMerge
    else if blkRqPos rq.toRequest - (bio.biSize >>> 9).setWidth 64 = bio.biSector then .frontMerge
    else .noMerge
  llBackMerge rq bio := decide (rq.dataLen.toNat + bio.biSize.toNat < 2 ^ 20)
  llFrontMerge rq bio := decide (rq.dataLen.toNat + bio.biSize.toNat < 2 ^ 20)
  setMixedMerge rq := {rq with mixedMerge := true}

def plainSubmission (addr q : Ref) (sector : Sector) : Submission :=
  ⟨q, ⟨addr, sector, 512, 0, 0, false⟩, false, false, false, false, false, 0, .ok ⟨addr + 100, true, true⟩⟩

def raidOuter : Outer Unit where
  listSort := plugSort
  died _ rq := rq == 103
  merging := plainMerge
  unplug _ cb _ := ((), if cb.callback = 1 then
    [.check ⟨0, cb.data⟩ true, .submit (plainSubmission 50 (cb.data + 1) 6)] else [])

/- Two plugs, one inside the other, a callback, a merge, and three queues. -/
def raidRun : List TaskOp :=
  [.start 1, .submit (plainSubmission 1 9 4), .start 2, .check ⟨1, 6⟩ true, .submit (plainSubmission 2 9 5),
    .finish 2, .submit (plainSubmission 3 7 8), .finish 1]

theorem raidSubmits {world : Unit} {cb : PlugCb} {fromSchedule : Bool} {sub : Submission}
    (member : CbCall.submit sub ∈ (raidOuter.unplug world cb fromSchedule).2) :
    sub = plainSubmission 50 (cb.data + 1) 6 := by
  by_cases first : cb.callback = 1
  · simpa [raidOuter, first] using member
  · simp [raidOuter, first] at member

theorem raidAsks {sub : Submission} (member : TaskOp.submit sub ∈ raidRun) :
    ∃ addr q sector, sub = plainSubmission addr (q + 1) sector := by
  simp only [raidRun, List.mem_cons, TaskOp.submit.injEq, List.not_mem_nil, reduceCtorEq, or_false,
    false_or] at member
  rcases member with rfl | rfl | rfl
  · exact ⟨1, 8, 4, rfl⟩
  · exact ⟨2, 8, 5, rfl⟩
  · exact ⟨3, 6, 8, rfl⟩

end KernelLabs.Plugging
