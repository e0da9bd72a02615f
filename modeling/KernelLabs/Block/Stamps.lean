import KernelLabs.Block.Elevator
import KernelLabs.Block.RequestLog

/-! The three stamps of a recorded request, over every life of a request: prepared,
inserted, handed to the driver, put back or completed. The flush machinery, which is
not in the repository, holds a request off the queue until it queues or completes it. -/
namespace KernelLabs.Stamps
open Block Buffer Runs RequestLog

/- Where a request is in its life. Its owner knows; no field of it says. -/
inductive Phase where
  | unused | fresh | queued | peeked | started | held | freed
  deriving DecidableEq, Repr

structure Life where
  block : BlockState
  track : ReqTrack
  clock : Timespec
  phase : Ref → Phase

def Life.enter (s : Life) (r : Ref) (p : Phase) : Life :=
  {s with phase := fun x => if x = r then p else s.phase x}

inductive Op where
  | init (r : Ref) (sector : Sector) (dataLen : BitVec 32) (cmdType : CmdType) (flags : CmdFlags)
  | insert (now : Timespec) (r : Ref) (point : InsertionPoint) (merged : Bool) (flush : FlushOutcome)
  | requeue (now : Timespec) (r : Ref)
  | next (now : Timespec)
  | start (r : Ref)
  | finish (now : Timespec) (pid : Int) (r : Ref)
  | queueHeld (r : Ref) (front : Bool)
  | endHeld (now : Timespec) (pid : Int) (r : Ref)
  | startReqTrack
  | endReqTrack
  deriving DecidableEq, Repr

/- What the operation reads from the clock, which it otherwise leaves where it is. -/
def Op.reading (clock : Timespec) : Op → Timespec
  | .insert now _ _ _ _ => now
  | .requeue now _ => now
  | .next now => now
  | .finish now _ _ => now
  | .endHeld now _ _ => now
  | _ => clock

def initRequestFromBio (s : BlockState) (r : Ref) (sector : Sector) (dataLen : BitVec 32)
    (cmdType : CmdType) (flags : CmdFlags) : BlockState :=
  (blkRqInit s r).setReq r (fun rq => {rq with
    sector := sector, dataLen := dataLen, cmdType := cmdType,
    cmdFlags := {flags with sorted := false, hashed := false, started := false}})

/- `none` is one of the two `BUG_ON`s. -/
def blkDequeueRequest (s : BlockState) (r : Ref) : Option BlockState :=
  if r ∉ s.q.queueHead ++ s.queued then none
  else if elvOnHash s r then none
  else some (s.listDelInit r)

def placed (point : InsertionPoint) (merged : Bool) (flush : FlushOutcome) : Phase :=
  if point == .sortMerge && merged then .freed
  else if point == .flush && flush == .offQueue then .held
  else .queued

/- A request may be completed without having been inserted, when its queue is dead. -/
def act (s : Life) : Op → Option Life
  | .init r sector dataLen cmdType flags =>
      if s.phase r = .unused ∨ s.phase r = .freed then
        some ({s with block := initRequestFromBio s.block r sector dataLen cmdType flags}.enter r .fresh)
      else none
  | .insert now r point merged flush =>
      if s.phase r = .fresh ∨ s.phase r = .started then
        (elvAddRequest now merged flush s.block r point).map fun b =>
          {s with block := b}.enter r (placed (insertionPoint (s.block.req r) point) merged flush)
      else none
  | .requeue now r =>
      if s.phase r = .started then
        (elvRequeueRequest now s.block r).map fun b => {s with block := b}.enter r .queued
      else none
  | .next now =>
      match elvNextRequest now s.block with
      | (none, b) => some {s with block := b}
      | (some r, b) => some ({s with block := b}.enter r .peeked)
  | .start r =>
      if s.phase r = .peeked then
        (blkDequeueRequest s.block r).map fun b => {s with block := b}.enter r .started
      else none
  | .finish now pid r =>
      if s.phase r = .started ∨ s.phase r = .fresh then
        some ({s with track := blkFinishRequest now pid (s.block.req r) s.track}.enter r .freed)
      else none
  | .queueHeld r front =>
      if s.phase r = .held then
        some ({s with block := if front then queueFront s.block r else queueTail s.block r}.enter r .queued)
      else none
  | .endHeld now pid r =>
      if s.phase r = .held then
        some ({s with track := blkFinishRequest now pid (s.block.req r) s.track}.enter r .freed)
      else none
  | .startReqTrack => some {s with track := startReqTrack s.track}
  | .endReqTrack => some {s with track := (endReqTrack s.track).1}

def step (s : Life) (op : Op) : Option Life :=
  if s.clock ≤ op.reading s.clock then act {s with clock := op.reading s.clock} op else none

/- The clock counts from the epoch. -/
def initial (base : BlockState) : Life :=
  ⟨(elevatorInit base true true).2, bootTrack, .zero, fun _ => .unused⟩

def Ordered (e : ReqStuff) : Prop := e.arrival ≤ e.servStart ∧ e.servStart ≤ e.endTime

def StampsOrdered (s : Life) : Prop := ∀ i, Ordered (s.track.storedReqs i)

/- No request completed off the queue is one that would be recorded. -/
def HeldNotRecorded (s : Life) (op : Op) (_ : Life) : Prop :=
  ∀ now pid r, op = .endHeld now pid r → records s.track (s.block.req r) = false

/- The driver is handed nothing it was not given, and no stamp changes. -/
structure Keeps (s t : BlockState) : Prop where
  stamps : ∀ x, t.stamps x = s.stamps x
  listed : ∀ x, x ∈ t.q.queueHead ++ t.queued → x ∈ s.q.queueHead ++ s.queued

theorem keepsRefl (s : BlockState) : Keeps s s := ⟨fun _ => rfl, fun _ => id⟩

theorem keepsTrans {s t u : BlockState} (first : Keeps s t) (second : Keeps t u) : Keeps s u :=
  ⟨fun x => (second.stamps x).trans (first.stamps x), fun x mem => first.listed x (second.listed x mem)⟩

theorem moveKeeps {s : BlockState} {r : Ref} (mem : r ∈ s.queued) : Keeps s (greedyMove s r) where
  stamps := moveStamps s r
  listed := by
    intro x found
    simp only [BlockState.queued, moveHead, moveHigher, moveLower, List.mem_append,
      List.mem_singleton] at found mem ⊢
    rcases found with (inHead | same) | inHigher | inLower
    · exact Or.inl (List.mem_of_mem_erase inHead)
    · subst same; exact Or.inr mem
    · exact Or.inr (Or.inl (List.mem_of_mem_erase inHigher))
    · exact Or.inr (Or.inr (List.mem_of_mem_erase inLower))

theorem dispatchKeeps {s t : BlockState} {force : Bool} (moved : greedyDispatch s force = some t) :
    Keeps s t := by
  obtain ⟨r, chosen, rfl⟩ := dispatchExact.mp moved
  exact moveKeeps (targetQueued chosen)

theorem drainKeeps (s : BlockState) : Keeps s (elvDrainElevator s) := by
  have loop : Keeps s (drainLoop s).2 := by
    induction s using drainLoop.induct with
    | case1 s done =>
      rw [drainLoop]
      split
      · exact keepsRefl s
      · rename_i moved
        rw [done] at moved; contradiction
    | case2 s t moved ih =>
      rw [drainLoop]
      split
      · exact keepsRefl s
      · rename_i u again
        cases Option.some.inj (moved.symm.trans again)
        exact keepsTrans (dispatchKeeps moved) ih
  unfold elvDrainElevator
  dsimp only
  split
  · exact ⟨loop.stamps, loop.listed⟩
  · exact loop

/- An insertion adds at most the request itself to the lists. -/
structure Inserts (s t : BlockState) (r : Ref) : Prop where
  stamps : ∀ x, t.stamps x = s.stamps x
  listed : ∀ x, x ∈ t.q.queueHead ++ t.queued → x = r ∨ x ∈ s.q.queueHead ++ s.queued

theorem keepsInserts {s t u : BlockState} {r : Ref} (keeps : Keeps s t) (inserts : Inserts t u r) :
    Inserts s u r where
  stamps := fun x => (inserts.stamps x).trans (keeps.stamps x)
  listed := fun x mem => (inserts.listed x mem).imp_right (keeps.listed x)

theorem keepsOnly {s t : BlockState} (keeps : Keeps s t) (r : Ref) : Inserts s t r :=
  ⟨keeps.stamps, fun x mem => Or.inr (keeps.listed x mem)⟩

theorem setFlagsKeeps (s : BlockState) (r : Ref) (f) : Keeps s (s.setFlags r f) :=
  ⟨fun x => BlockState.setFlagsStamps s r x f, fun _ => id⟩

theorem noteBoundaryKeeps (s : BlockState) (r : Ref) : Keeps s (noteBoundary s r) := by
  unfold noteBoundary
  split
  · exact ⟨fun _ => rfl, fun _ => id⟩
  · exact keepsRefl s

theorem queueFrontInserts (s : BlockState) (r : Ref) : Inserts s (queueFront s r) r :=
  ⟨fun _ => rfl, fun _ mem => List.mem_cons.mp mem⟩

theorem queueTailInserts (s : BlockState) (r : Ref) : Inserts s (queueTail s r) r where
  stamps := fun _ => rfl
  listed := by
    intro x mem
    simp only [queueTail, BlockState.queued, List.mem_append, List.mem_singleton] at mem ⊢
    tauto

theorem insertFlushInserts (flush : FlushOutcome) (s : BlockState) (r : Ref) :
    Inserts s (blkInsertFlush flush s r) r := by
  cases flush with
  | queueFront => exact queueFrontInserts s r
  | queueTail => exact queueTailInserts s r
  | offQueue => exact keepsOnly (keepsRefl s) r

theorem insertSortInserts {s t : BlockState} {r : Ref} (inserted : elvInsertSort s r = some t) :
    Inserts s t r := by
  obtain ⟨u, hashed, rfl⟩ := insertSortExact inserted
  refine ⟨?_, ?_⟩
  · intro x
    rw [addStamps, hashed.stamps]
    exact BlockState.setFlagsStamps s r x (fun f => {f with sorted := true})
  · intro x mem
    have queued := (addQueuedPerm u r).mem_iff (a := x)
    have same : u.queued = s.queued := by
      simp only [BlockState.queued, hashed.lists, markSortedQueued]
    rw [List.mem_append, addHead, hashed.head, queued, List.mem_cons, same] at mem
    rw [List.mem_append]
    rcases mem with inHead | here | inQueued
    · exact Or.inr (Or.inl inHead)
    · exact Or.inl here
    · exact Or.inr (Or.inr inQueued)

def stampWait (now : Timespec) (s : BlockState) (r : Ref) : BlockState :=
  s.setReq r (fun rq => {rq with startWait := now})

theorem addRequestInserts {now : Timespec} {merged : Bool} {flush : FlushOutcome}
    {s t : BlockState} {r : Ref} {point : InsertionPoint}
    (added : elvAddRequest now merged flush s r point = some t) :
    Inserts (stampWait now s r) t r := by
  unfold elvAddRequest at added
  have noted := noteBoundaryKeeps (stampWait now s r) r
  have barrier := fun u : BlockState => setFlagsKeeps u r (fun f => {f with softBarrier := true})
  apply keepsInserts noted
  dsimp only at added
  split at added
  · cases Option.some.inj added
    exact keepsInserts (barrier _) (queueFrontInserts _ r)
  · cases Option.some.inj added
    exact keepsInserts (barrier _) (queueFrontInserts _ r)
  · cases Option.some.inj added
    exact keepsInserts (keepsTrans (barrier _) (drainKeeps _)) (queueTailInserts _ r)
  · split at added
    · cases Option.some.inj added
      exact keepsOnly (keepsRefl _) r
    · exact insertSortInserts added
  · exact insertSortInserts added
  · cases Option.some.inj added
    exact keepsInserts (barrier _) (insertFlushInserts flush _ r)

/- The request handed out is one that was listed, and only its own stamp moves. -/
structure Hands (now : Timespec) (s t : BlockState) (r : Ref) : Prop where
  listed : r ∈ s.q.queueHead ++ s.queued
  wait : ∀ x, (t.req x).startWait = (s.req x).startWait
  service : (t.req r).startService = now
  others : ∀ x, x ≠ r → (t.req x).startService = (s.req x).startService
  lists : ∀ x, x ∈ t.q.queueHead ++ t.queued → x ∈ s.q.queueHead ++ s.queued

theorem keepsHands {now : Timespec} {s t u : BlockState} {r : Ref} (keeps : Keeps s t)
    (hands : Hands now t u r) : Hands now s u r where
  listed := keeps.listed r hands.listed
  wait := fun x => (hands.wait x).trans (congrArg Prod.fst (keeps.stamps x))
  service := hands.service
  others := fun x other => (hands.others x other).trans (congrArg Prod.snd (keeps.stamps x))
  lists := fun x mem => keeps.listed x (hands.lists x mem)

theorem stampService (now : Timespec) {s : BlockState} {r : Ref} (listed : r ∈ s.q.queueHead ++ s.queued) :
    Hands now s (s.setReq r (fun rq => {rq with startService := now})) r where
  listed := listed
  wait := by intro x; simp only [BlockState.setReq]; split <;> rfl
  service := by simp only [BlockState.setReq, if_true]
  others := by intro x other; simp only [BlockState.setReq, other, if_false]
  lists := fun _ => id

theorem nextOfHead (now : Timespec) {b : BlockState} {r : Ref} {rest : List Ref}
    (head : b.q.queueHead = r :: rest) :
    elvNextRequest now b = (some r, b.setReq r (fun rq => {rq with startService := now})) := by
  rw [elvNextRequest]
  split
  · rename_i first others same
    cases head.symm.trans same
    rfl
  · rename_i empty
    rw [head] at empty; contradiction

theorem nextRequestCases (now : Timespec) (s : BlockState) :
    ((elvNextRequest now s).1 = none ∧ Keeps s (elvNextRequest now s).2) ∨
    ∃ r, (elvNextRequest now s).1 = some r ∧ Hands now s (elvNextRequest now s).2 r := by
  rw [elvNextRequest]
  split
  · rename_i r rest head
    have listed : r ∈ s.q.queueHead ++ s.queued := by simp [head]
    exact Or.inr ⟨r, rfl, stampService now listed⟩
  · rename_i head
    split
    · exact Or.inl ⟨rfl, fun _ => rfl, fun _ => id⟩
    · split
      · exact Or.inl ⟨rfl, keepsRefl s⟩
      · split
        · exact Or.inl ⟨rfl, keepsRefl s⟩
        · rename_i t moved
          -- a dispatch fills the queue head, so the loop ends at its second round
          have keeps := dispatchKeeps moved
          obtain ⟨r, chosen, rfl⟩ := dispatchExact.mp moved
          have filled : (greedyMove s r).q.queueHead = [r] := by rw [moveHead, head]; rfl
          have listed : r ∈ (greedyMove s r).q.queueHead ++ (greedyMove s r).queued := by simp
          rw [nextOfHead now filled]
          exact Or.inr ⟨r, rfl, keepsHands keeps (stampService now listed)⟩

structure Stamped (s : Life) : Prop where
  epoch : .zero ≤ s.clock
  waited : ∀ r, s.phase r ≠ .unused → (s.block.req r).startWait ≤ s.clock
  listed : ∀ r, r ∈ s.block.q.queueHead ++ s.block.queued → s.phase r ≠ .unused
  fresh : ∀ r, s.phase r = .fresh → (s.block.req r).startWait = .zero
  served : ∀ r, s.phase r = .peeked ∨ s.phase r = .started →
    (s.block.req r).startWait ≤ (s.block.req r).startService ∧ (s.block.req r).startService ≤ s.clock
  stored : StampsOrdered s

theorem clockStamped {s : Life} {now : Timespec} (stamped : Stamped s) (later : s.clock ≤ now) :
    Stamped {s with clock := now} where
  epoch := timespecTrans stamped.epoch later
  waited := fun r known => timespecTrans (stamped.waited r known) later
  listed := stamped.listed
  fresh := stamped.fresh
  served := fun r phase => (stamped.served r phase).imp_right (timespecTrans · later)
  stored := stamped.stored

/- One request changes phase, with what the new phase asks of its stamps. -/
structure Enters (s : Life) (b : BlockState) (r : Ref) (p : Phase) : Prop where
  known : p ≠ .unused
  others : ∀ x, x ≠ r → b.stamps x = s.block.stamps x
  listed : ∀ x, x ∈ b.q.queueHead ++ b.queued → x = r ∨ x ∈ s.block.q.queueHead ++ s.block.queued
  waited : (b.req r).startWait ≤ s.clock
  fresh : p = .fresh → (b.req r).startWait = .zero
  served : p = .peeked ∨ p = .started →
    (b.req r).startWait ≤ (b.req r).startService ∧ (b.req r).startService ≤ s.clock

/- A phase that asks nothing of the stamps but an arrival in the past. -/
def Resting (p : Phase) : Prop := p = .queued ∨ p = .held ∨ p = .freed

theorem restingEnters {s : Life} {b : BlockState} {r : Ref} {p : Phase} (resting : Resting p)
    (others : ∀ x, x ≠ r → b.stamps x = s.block.stamps x)
    (listed : ∀ x, x ∈ b.q.queueHead ++ b.queued → x = r ∨ x ∈ s.block.q.queueHead ++ s.block.queued)
    (waited : (b.req r).startWait ≤ s.clock) : Enters s b r p := by
  have quiet : p ≠ .unused ∧ p ≠ .fresh ∧ ¬ (p = .peeked ∨ p = .started) := by
    rcases resting with rfl | rfl | rfl <;> decide
  exact ⟨quiet.1, others, listed, waited, fun is => absurd is quiet.2.1, fun is => absurd is quiet.2.2⟩

theorem enterStamped {s : Life} {b : BlockState} {r : Ref} {p : Phase} (stamped : Stamped s)
    (enters : Enters s b r p) : Stamped ({s with block := b}.enter r p) := by
  have wait : ∀ x, x ≠ r → (b.req x).startWait = (s.block.req x).startWait :=
    fun x other => congrArg Prod.fst (enters.others x other)
  have service : ∀ x, x ≠ r → (b.req x).startService = (s.block.req x).startService :=
    fun x other => congrArg Prod.snd (enters.others x other)
  refine ⟨stamped.epoch, ?_, ?_, ?_, ?_, stamped.stored⟩
  · intro x known
    simp only [Life.enter] at known ⊢
    split at known
    · rename_i same
      subst same; exact enters.waited
    · rename_i other
      rw [wait x other]; exact stamped.waited x known
  · intro x mem
    simp only [Life.enter] at mem ⊢
    split
    · exact enters.known
    · rename_i other
      rcases enters.listed x mem with same | before
      · exact absurd same other
      · exact stamped.listed x before
  · intro x phase
    simp only [Life.enter] at phase ⊢
    split at phase
    · rename_i same
      subst same; exact enters.fresh phase
    · rename_i other
      rw [wait x other]; exact stamped.fresh x phase
  · intro x phase
    simp only [Life.enter] at phase ⊢
    split at phase
    · rename_i same
      subst same; exact enters.served phase
    · rename_i other
      rw [wait x other, service x other]; exact stamped.served x phase

theorem insertsEnters {s : Life} {b t : BlockState} {r : Ref} {p : Phase} (resting : Resting p)
    (flags : Keeps s.block b) (inserts : Inserts (stampWait s.clock b r) t r) : Enters s t r p := by
  have stamp : (t.req r).startWait = s.clock := by
    have := congrArg Prod.fst (inserts.stamps r)
    simpa only [stampWait, BlockState.stamps, BlockState.setReq, if_true] using this
  apply restingEnters resting
  · intro x other
    rw [inserts.stamps, ← flags.stamps]
    simp only [stampWait, BlockState.stamps, BlockState.setReq, other, if_false]
  · exact fun x mem => (inserts.listed x mem).imp_right (flags.listed x)
  · rw [stamp]; exact timespecRefl s.clock

theorem heldEnters {s : Life} {b : BlockState} {r : Ref} (inserts : Inserts s.block b r)
    (waited : (s.block.req r).startWait ≤ s.clock) : Enters s b r .queued := by
  have stamp : (b.req r).startWait = (s.block.req r).startWait :=
    congrArg Prod.fst (inserts.stamps r)
  apply restingEnters (Or.inl rfl) (fun x _ => inserts.stamps x) inserts.listed
  rw [stamp]; exact waited

theorem finishStored {now : Timespec} {pid : Int} {req : Request} {t : ReqTrack}
    (stored : ∀ i, Ordered (t.storedReqs i))
    (good : records t req = true → req.startWait ≤ req.startService ∧ req.startService ≤ now) :
    ∀ i, Ordered ((blkFinishRequest now pid req t).storedReqs i) := by
  intro i
  obtain ⟨_, effect⟩ := finishCases now pid req t
  split at effect
  · rename_i recorded
    rw [effect.2]
    by_cases here : i = t.requestsSeen.toNat
    · subst here
      rw [storeSame]; exact good recorded
    · rw [storeOther here]; exact stored i
  · rw [effect.2]; exact stored i

theorem unstampedNotRecorded {t : ReqTrack} {req : Request} (zero : req.startWait = .zero) :
    records t req = false := by
  have : stamped req = false := by rw [stamped, zero]; rfl
  rw [records, this, Bool.and_false]

theorem finishStamped {s : Life} {pid : Int} {r : Ref} (good : Stamped s)
    (known : s.phase r ≠ .unused)
    (served : records s.track (s.block.req r) = true →
      (s.block.req r).startWait ≤ (s.block.req r).startService ∧ (s.block.req r).startService ≤ s.clock) :
    Stamped ({s with track := blkFinishRequest s.clock pid (s.block.req r) s.track}.enter r .freed) := by
  have after : Stamped {s with track := blkFinishRequest s.clock pid (s.block.req r) s.track} :=
    ⟨good.epoch, good.waited, good.listed, good.fresh, good.served, finishStored good.stored served⟩
  exact enterStamped after
    (restingEnters (Or.inr (Or.inr rfl)) (fun _ _ => rfl) (fun _ => Or.inr) (good.waited r known))

@[simp] theorem initStartWait (s : BlockState) (r : Ref) (sector dataLen cmdType flags) :
    ((initRequestFromBio s r sector dataLen cmdType flags).req r).startWait = .zero := by
  simp only [initRequestFromBio, blkRqInit, unused, BlockState.setReq, if_true]

theorem initEnters {s : Life} (r : Ref) (sector dataLen cmdType flags) (epoch : .zero ≤ s.clock) :
    Enters s (initRequestFromBio s.block r sector dataLen cmdType flags) r .fresh where
  known := by decide
  others := by
    intro x other
    simp only [BlockState.stamps, initRequestFromBio, blkRqInit, BlockState.setReq, other, if_false]
  listed := fun _ => Or.inr
  waited := by rw [initStartWait]; exact epoch
  fresh := fun _ => initStartWait ..
  served := fun is => absurd is (by decide)

theorem dequeueExact {s t : BlockState} {r : Ref} (dequeued : blkDequeueRequest s r = some t) :
    t = s.listDelInit r := by
  unfold blkDequeueRequest at dequeued
  split at dequeued <;> try contradiction
  split at dequeued <;> try contradiction
  exact (Option.some.inj dequeued).symm

theorem delKeeps (s : BlockState) (r : Ref) : Keeps s (s.listDelInit r) where
  stamps := fun _ => rfl
  listed := by
    intro x mem
    simp only [BlockState.queued, BlockState.delHead, BlockState.delHigher, BlockState.delLower,
      List.mem_append] at mem ⊢
    exact mem.imp List.mem_of_mem_erase (Or.imp List.mem_of_mem_erase List.mem_of_mem_erase)

theorem dequeueEnters {s : Life} {r : Ref} (good : Stamped s) (peeked : s.phase r = .peeked) :
    Enters s (s.block.listDelInit r) r .started where
  known := by decide
  others := fun x _ => (delKeeps s.block r).stamps x
  listed := fun x mem => Or.inr ((delKeeps s.block r).listed x mem)
  waited := good.waited r (by rw [peeked]; decide)
  fresh := fun is => absurd is (by decide)
  served := fun _ => good.served r (Or.inl peeked)

theorem keepsStamped {s : Life} {b : BlockState} (stamped : Stamped s) (keeps : Keeps s.block b) :
    Stamped {s with block := b} := by
  have wait : ∀ x, (b.req x).startWait = (s.block.req x).startWait :=
    fun x => congrArg Prod.fst (keeps.stamps x)
  have service : ∀ x, (b.req x).startService = (s.block.req x).startService :=
    fun x => congrArg Prod.snd (keeps.stamps x)
  refine ⟨stamped.epoch, ?_, fun x mem => stamped.listed x (keeps.listed x mem), ?_, ?_, stamped.stored⟩
  · intro x known
    rw [wait x]; exact stamped.waited x known
  · intro x phase
    rw [wait x]; exact stamped.fresh x phase
  · intro x phase
    rw [wait x, service x]; exact stamped.served x phase

theorem handsEnters {s : Life} {b : BlockState} {r : Ref} (waited : (s.block.req r).startWait ≤ s.clock)
    (hands : Hands s.clock s.block b r) : Enters s b r .peeked where
  known := by decide
  others := fun x other => Prod.ext (hands.wait x) (hands.others x other)
  listed := fun x mem => Or.inr (hands.lists x mem)
  waited := by rw [hands.wait r]; exact waited
  fresh := fun is => absurd is (by decide)
  served := by
    intro _
    rw [hands.wait r, hands.service]
    exact ⟨waited, timespecRefl s.clock⟩

theorem placedResting (point : InsertionPoint) (merged : Bool) (flush : FlushOutcome) :
    Resting (placed point merged flush) := by
  unfold placed
  split
  · exact Or.inr (Or.inr rfl)
  · split
    · exact Or.inr (Or.inl rfl)
    · exact Or.inl rfl

theorem actStamped {s t : Life} {op : Op} (good : Stamped s) (now : s.clock = op.reading s.clock)
    (taken : act s op = some t) (meets : HeldNotRecorded s op t) : Stamped t := by
  cases op with
  | init r sector dataLen cmdType flags =>
    simp only [act] at taken
    split at taken <;> try contradiction
    cases Option.some.inj taken
    exact enterStamped good (initEnters r sector dataLen cmdType flags good.epoch)
  | insert at' r point merged flush =>
    simp only [act] at taken
    split at taken <;> try contradiction
    obtain ⟨b, added, rfl⟩ := Option.map_eq_some_iff.mp taken
    cases now
    exact enterStamped good
      (insertsEnters (placedResting ..) (keepsRefl s.block) (addRequestInserts added))
  | requeue at' r =>
    simp only [act] at taken
    split at taken <;> try contradiction
    obtain ⟨b, added, rfl⟩ := Option.map_eq_some_iff.mp taken
    cases now
    exact enterStamped good
      (insertsEnters (Or.inl rfl) (setFlagsKeeps s.block r _) (addRequestInserts added))
  | next at' =>
    simp only [act] at taken
    rcases nextRequestCases at' s.block with ⟨null, keeps⟩ | ⟨r, handed, hands⟩
    · have same : elvNextRequest at' s.block = (none, (elvNextRequest at' s.block).2) := Prod.ext null rfl
      rw [same] at taken
      cases Option.some.inj taken
      exact keepsStamped good keeps
    · have same : elvNextRequest at' s.block = (some r, (elvNextRequest at' s.block).2) := Prod.ext handed rfl
      rw [same] at taken
      cases Option.some.inj taken
      cases now
      exact enterStamped good (handsEnters (good.waited r (good.listed r hands.listed)) hands)
  | start r =>
    simp only [act] at taken
    split at taken <;> try contradiction
    rename_i peeked
    obtain ⟨b, dequeued, rfl⟩ := Option.map_eq_some_iff.mp taken
    cases dequeueExact dequeued
    exact enterStamped good (dequeueEnters good peeked)
  | finish at' pid r =>
    simp only [act] at taken
    split at taken <;> try contradiction
    rename_i phase
    cases Option.some.inj taken
    cases now
    apply finishStamped good
    · rcases phase with is | is <;> rw [is] <;> decide
    · intro recorded
      rcases phase with started | fresh
      · exact good.served r (Or.inr started)
      · rw [unstampedNotRecorded (good.fresh r fresh)] at recorded; contradiction
  | queueHeld r front =>
    simp only [act] at taken
    split at taken <;> try contradiction
    rename_i held
    cases Option.some.inj taken
    have waited := good.waited r (by rw [held]; decide)
    have inserts : Inserts s.block (if front then queueFront s.block r else queueTail s.block r) r := by
      split
      · exact queueFrontInserts s.block r
      · exact queueTailInserts s.block r
    exact enterStamped good (heldEnters inserts waited)
  | endHeld at' pid r =>
    simp only [act] at taken
    split at taken <;> try contradiction
    rename_i held
    cases Option.some.inj taken
    cases now
    apply finishStamped good
    · rw [held]; decide
    · intro recorded
      rw [meets _ _ _ rfl] at recorded; contradiction
  | startReqTrack =>
    cases Option.some.inj taken
    exact ⟨good.epoch, good.waited, good.listed, good.fresh, good.served, good.stored⟩
  | endReqTrack =>
    cases Option.some.inj taken
    exact ⟨good.epoch, good.waited, good.listed, good.fresh, good.served, good.stored⟩

theorem stepStamped {s t : Life} {op : Op} (stamped : Stamped s) (taken : step s op = some t)
    (meets : HeldNotRecorded s op t) : Stamped t := by
  unfold step at taken
  split at taken <;> try contradiction
  rename_i later
  refine actStamped (clockStamped stamped later) ?_ taken meets
  cases op <;> rfl

theorem initialStamped (base : BlockState) : Stamped (initial base) where
  epoch := timespecRefl _
  waited := fun _ known => absurd rfl known
  listed := by
    intro r mem
    have empty : (initial base).block.q.queueHead ++ (initial base).block.queued = [] := rfl
    rw [empty] at mem; contradiction
  fresh := fun _ phase => absurd phase (show ¬ Phase.unused = .fresh by decide)
  served := fun _ phase => absurd phase (show ¬ (Phase.unused = .peeked ∨ Phase.unused = .started) by decide)
  stored := fun _ => ⟨timespecRefl _, timespecRefl _⟩

theorem recordedStampsOrdered (base : BlockState) (ops : List Op)
    (meets : EachStep step HeldNotRecorded (initial base) ops) :
    EachState step StampsOrdered (initial base) ops :=
  eachStateOfInvariant (fun _ _ _ stamped taken here => stepStamped stamped taken here)
    (fun _ stamped => stamped.stored) (initialStamped base) meets

def blank : BlockState :=
  ⟨fun _ => ⟨0, 0, .unset, ⟨false, false, false, false, false, false⟩, .zero, .zero⟩, emptyQueue, 0⟩

def fromBio : CmdFlags := ⟨false, false, false, false, true, false⟩

instance (s : Life) (op : Op) (t : Life) : Decidable (HeldNotRecorded s op t) :=
  match op with
  | .endHeld _ _ r => decidable_of_iff (records s.track (s.block.req r) = false)
      ⟨fun unrecorded _ _ _ same => by cases same; exact unrecorded, fun held => held _ _ r rfl⟩
  | .init .. | .insert .. | .requeue .. | .next _ | .start _ | .finish .. | .queueHeld .. | .startReqTrack
    | .endReqTrack => isTrue (by intro _ _ _ held; contradiction)

/- One flush ends off the queue before the recording begins, another is queued after it and
served; a plain request is served between them. -/
def servedTwice : List Op :=
  [.init 1 0 0 .fs fromBio, .insert ⟨1, 1⟩ 1 .flush false .offQueue, .endHeld ⟨2, 1⟩ 7 1, .startReqTrack,
    .init 0 8 512 .fs fromBio, .insert ⟨3, 1⟩ 0 .sort false .offQueue, .next ⟨4, 1⟩, .start 0, .finish ⟨5, 1⟩ 7 0,
    .init 2 16 512 .fs fromBio, .insert ⟨6, 1⟩ 2 .flush false .offQueue, .queueHeld 2 false, .next ⟨7, 1⟩, .start 2,
    .finish ⟨8, 1⟩ 7 2]

theorem servedTwiceOrdered : (exec step (initial blank) servedTwice).isSome = true ∧
    EachState step StampsOrdered (initial blank) servedTwice :=
  ⟨by decide +kernel, recordedStampsOrdered blank servedTwice (by decide +kernel)⟩

def flushedAway : List Op :=
  [.startReqTrack, .init 0 8 0 .fs fromBio, .insert ⟨1, 1⟩ 0 .flush false .offQueue, .endHeld ⟨2, 1⟩ 7 0]

/- Completed by the flush machinery alone, it is recorded as served at the epoch. -/
theorem servedBeforeArrival : ¬ EachState step StampsOrdered (initial blank) flushedAway := by
  intro each
  have last := eachStateLast each rfl 0
  have arrival : (⟨1, 1⟩ : Timespec) ≤ ⟨0, 0⟩ := last.1
  exact absurd arrival (by decide)

end KernelLabs.Stamps
