import KernelLabs.Block.Request
import KernelLabs.Library.Buffer
import KernelLabs.Library.Runs

/-! The completion log: what `blk_finish_request` records and the three system calls
that reset, poll and collect it. Against it stands the log as it is meant: a flag and
the list of completions to be recorded, cut off at the size of the array. -/
namespace KernelLabs.RequestLog
open Block Buffer Runs

def reqsRecorded : Nat := 19500
def reqsRequested : Nat := 19500
def msecPerSec : Int := 1000

structure ReqStuff where
  pid : Int
  arrival : Timespec
  servStart : Timespec
  endTime : Timespec
  deriving DecidableEq, Repr

structure ReqTrack where
  sumOfServices : Int
  sumOfWaits : Int
  numRequestsSeen : Int
  storedReqs : Nat → ReqStuff
  requestsSeen : BitVec 32
  servRecording : Bool

/- The normalised difference: nanoseconds between 0 and 10^9, seconds may be negative. -/
def timespecSub (lhs rhs : Timespec) : Timespec :=
  let nsec := lhs.tvNsec - rhs.tvNsec
  ⟨lhs.tvSec - rhs.tvSec + nsec / 1000000000, nsec % 1000000000⟩

def msOf (t : Timespec) : Int := t.tvSec * msecPerSec + t.tvNsec.tdiv 1000000

def stamped (req : Request) : Bool := req.startWait.tvSec != 0 && req.startWait.tvNsec != 0

def entryOf (now : Timespec) (pid : Int) (req : Request) : ReqStuff :=
  ⟨pid, req.startWait, req.startService, now⟩

def records (t : ReqTrack) (req : Request) : Bool :=
  t.servRecording && decide (t.requestsSeen < BitVec.ofNat 32 reqsRecorded) && stamped req

/- The measuring half of the function; the rest retires the request. -/
def blkFinishRequest (now : Timespec) (pid : Int) (req : Request) (t : ReqTrack) : ReqTrack :=
  let serv := timespecSub now req.startService
  let wait := timespecSub req.startService req.startWait
  let t := {t with
    sumOfServices := t.sumOfServices + msOf serv,
    sumOfWaits := t.sumOfWaits + msOf wait,
    numRequestsSeen := t.numRequestsSeen + 1}
  if records t req then
    {t with
      storedReqs := store t.storedReqs t.requestsSeen.toNat (entryOf now pid req),
      requestsSeen := t.requestsSeen + 1}
  else t

def startReqTrack (t : ReqTrack) : ReqTrack := {t with requestsSeen := 0, servRecording := true}

def getRequestsSeen (t : ReqTrack) : BitVec 32 := t.requestsSeen

/- The second component is what `copy_to_user` moves. -/
def endReqTrack (t : ReqTrack) : ReqTrack × List ReqStuff :=
  let t := {t with servRecording := false}
  (t, cells t.storedReqs t.requestsSeen.toNat)

inductive Op where
  | startReqTrack
  | getRequestsSeen
  | endReqTrack
  | finish (now : Timespec) (pid : Int) (req : Request)
  deriving DecidableEq, Repr

def track (t : ReqTrack) : Op → ReqTrack
  | .startReqTrack => startReqTrack t
  | .getRequestsSeen => t
  | .endReqTrack => (endReqTrack t).1
  | .finish now pid req => blkFinishRequest now pid req t

/- The log as it is meant, of unbounded length. -/
structure Log where
  on : Bool
  done : List ReqStuff
  deriving DecidableEq, Repr

def Log.track (l : Log) : Op → Log
  | .startReqTrack => ⟨true, []⟩
  | .getRequestsSeen => l
  | .endReqTrack => {l with on := false}
  | .finish now pid req =>
      if l.on && stamped req then {l with done := l.done ++ [entryOf now pid req]} else l

structure Refines (t : ReqTrack) (l : Log) : Prop where
  recording : t.servRecording = l.on
  bounded : t.requestsSeen.toNat ≤ reqsRecorded
  stored : cells t.storedReqs t.requestsSeen.toNat = l.done.take reqsRecorded

theorem refinesSeen {t : ReqTrack} {l : Log} (refines : Refines t l) :
    t.requestsSeen.toNat = min reqsRecorded l.done.length := by
  have lengths := congrArg List.length refines.stored
  simpa only [cellsLength, List.length_take] using lengths

theorem recordsIff {t : ReqTrack} {req : Request} :
    records t req = true ↔
      (t.servRecording && stamped req) = true ∧ t.requestsSeen.toNat < reqsRecorded := by
  simp only [records, Bool.and_eq_true, decide_eq_true_eq, BitVec.lt_def, BitVec.toNat_ofNat]
  rw [Nat.mod_eq_of_lt (by decide)]
  tauto

/- What one completion does to the three fields the log is about. -/
theorem finishCases (now : Timespec) (pid : Int) (req : Request) (t : ReqTrack) :
    (blkFinishRequest now pid req t).servRecording = t.servRecording ∧
    if records t req then
      (blkFinishRequest now pid req t).requestsSeen = t.requestsSeen + 1 ∧
      (blkFinishRequest now pid req t).storedReqs =
        store t.storedReqs t.requestsSeen.toNat (entryOf now pid req)
    else
      (blkFinishRequest now pid req t).requestsSeen = t.requestsSeen ∧
      (blkFinishRequest now pid req t).storedReqs = t.storedReqs := by
  have same : ∀ a b c, records {t with sumOfServices := a, sumOfWaits := b, numRequestsSeen := c} req =
      records t req := fun _ _ _ => rfl
  unfold blkFinishRequest
  simp only [same]
  split
  · exact ⟨rfl, rfl, rfl⟩
  · exact ⟨rfl, rfl, rfl⟩

/- A completion that is recorded adds its entry to the cells, and another leaves them. -/
theorem finishCells (now : Timespec) (pid : Int) (req : Request) (t : ReqTrack) :
    (blkFinishRequest now pid req t).requestsSeen.toNat =
      t.requestsSeen.toNat + (if records t req then 1 else 0) ∧
    cells (blkFinishRequest now pid req t).storedReqs (blkFinishRequest now pid req t).requestsSeen.toNat =
      cells t.storedReqs t.requestsSeen.toNat ++ if records t req then [entryOf now pid req] else [] := by
  obtain ⟨_, effect⟩ := finishCases now pid req t
  split at effect
  · rename_i recorded
    have room := (recordsIff.mp recorded).2
    have next : (t.requestsSeen + 1).toNat = t.requestsSeen.toNat + 1 := by
      have : reqsRecorded < 2 ^ 32 - 1 := by decide
      bv_omega
    rw [if_pos recorded, if_pos recorded, effect.1, effect.2, next, cellsStore]
    exact ⟨rfl, rfl⟩
  · rename_i dropped
    rw [if_neg dropped, if_neg dropped, effect.1, effect.2, List.append_nil]
    exact ⟨rfl, rfl⟩

theorem finishRefines {t : ReqTrack} {l : Log} (refines : Refines t l) (now : Timespec) (pid : Int)
    (req : Request) : Refines (blkFinishRequest now pid req t) (l.track (.finish now pid req)) := by
  have recording := (finishCases now pid req t).1
  have effect := finishCells now pid req t
  have seen := refinesSeen refines
  have onEq : (t.servRecording && stamped req) = (l.on && stamped req) := by rw [refines.recording]
  simp only [Log.track, ← onEq]
  by_cases meant : (t.servRecording && stamped req) = true
  · rw [if_pos meant]
    by_cases room : t.requestsSeen.toNat < reqsRecorded
    · rw [if_pos (recordsIff.mpr ⟨meant, room⟩), if_pos (recordsIff.mpr ⟨meant, room⟩)] at effect
      refine ⟨recording.trans refines.recording, ?_, ?_⟩
      · rw [effect.1]; exact room
      · rw [effect.2, refines.stored, takeSnoc, if_pos (by omega)]
    · have dropped : ¬ records t req = true := fun records => room (recordsIff.mp records).2
      rw [if_neg dropped, if_neg dropped] at effect
      refine ⟨recording.trans refines.recording, ?_, ?_⟩
      · rw [effect.1]; exact refines.bounded
      · rw [effect.2, List.append_nil, refines.stored, takeSnoc, if_neg (by omega)]
  · rw [if_neg meant]
    have dropped : ¬ records t req = true := fun records => meant (recordsIff.mp records).1
    rw [if_neg dropped, if_neg dropped] at effect
    refine ⟨recording.trans refines.recording, ?_, ?_⟩
    · rw [effect.1]; exact refines.bounded
    · rw [effect.2, List.append_nil]; exact refines.stored

theorem trackRefines {t : ReqTrack} {l : Log} (refines : Refines t l) (op : Op) :
    Refines (track t op) (l.track op) := by
  cases op with
  | startReqTrack => exact ⟨rfl, by simp [track, startReqTrack], by simp [track, startReqTrack, cells, Log.track]⟩
  | getRequestsSeen => exact refines
  | endReqTrack => exact ⟨rfl, refines.bounded, refines.stored⟩
  | finish now pid req => exact finishRefines refines now pid req

structure Observed where
  track : ReqTrack
  log : Log

def step (s : Observed) (op : Op) : Option Observed := some ⟨track s.track op, s.log.track op⟩

/- Static memory starts as zeros. -/
def bootTrack : ReqTrack := ⟨0, 0, 0, fun _ => ⟨0, .zero, .zero, .zero⟩, 0, false⟩

/- Recording off and the counter zero; the array and the sums may hold anything. -/
def initial (memory : ReqTrack) : Observed :=
  ⟨{memory with requestsSeen := 0, servRecording := false}, ⟨false, []⟩⟩

def LogExact (s : Observed) : Prop :=
  s.track.requestsSeen.toNat ≤ reqsRecorded ∧
  (endReqTrack s.track).2.length ≤ reqsRequested ∧
  cells s.track.storedReqs s.track.requestsSeen.toNat = s.log.done.take reqsRecorded

/- A completion that changes the array changes one cell of it, inside its bounds. -/
def StoreInBounds (s : Observed) (op : Op) (t : Observed) : Prop :=
  ∀ i, t.track.storedReqs i ≠ s.track.storedReqs i →
    (∃ now pid req, op = .finish now pid req) ∧
    i = s.track.requestsSeen.toNat ∧ s.track.requestsSeen.toNat < reqsRecorded

theorem refinesLogExact {s : Observed} (refines : Refines s.track s.log) : LogExact s := by
  refine ⟨refines.bounded, ?_, refines.stored⟩
  rw [endReqTrack, cellsLength]
  exact refines.bounded

theorem stepStoreInBounds {s t : Observed} {op : Op} (taken : step s op = some t) :
    StoreInBounds s op t := by
  cases Option.some.inj taken
  intro i changed
  cases op with
  | startReqTrack => exact absurd rfl changed
  | getRequestsSeen => exact absurd rfl changed
  | endReqTrack => exact absurd rfl changed
  | finish now pid req =>
    refine ⟨⟨now, pid, req, rfl⟩, ?_⟩
    obtain ⟨_, effect⟩ := finishCases now pid req s.track
    change (blkFinishRequest now pid req s.track).storedReqs i ≠ _ at changed
    split at effect
    · rename_i recorded
      rw [effect.2] at changed
      have here : i = s.track.requestsSeen.toNat := by
        by_contra elsewhere
        exact changed (storeOther elsewhere)
      exact ⟨here, (recordsIff.mp recorded).2⟩
    · rw [effect.2] at changed
      exact absurd rfl changed

theorem initialRefines (memory : ReqTrack) : Refines (initial memory).track (initial memory).log :=
  ⟨rfl, by simp [initial], by simp [initial, cells]⟩

theorem logOfEveryRun (memory : ReqTrack) (ops : List Op) :
    EachState step LogExact (initial memory) ops ∧ EachStep step StoreInBounds (initial memory) ops := by
  have keep : ∀ s op t, Refines s.track s.log → step s op = some t → Refines t.track t.log := by
    intro s op t refines taken
    cases Option.some.inj taken
    exact trackRefines refines op
  exact ⟨eachStateInvariant keep (fun _ => refinesLogExact) (initialRefines memory) ops,
    eachStepInvariant keep (fun _ _ _ _ => stepStoreInBounds) (initialRefines memory) ops⟩

end KernelLabs.RequestLog
