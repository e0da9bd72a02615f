import KernelLabs.Block.Stamps

/-! From a request's submission to its row in the printed table. The recorder notes the
process that happens to be current when the request completes, and the print loop takes
the pid of the first entry for every row, so the pid column names one process throughout. -/
namespace KernelLabs.PublishedCsv
open Block Buffer Runs RequestLog Stamps

/- A completion the recorder kept, beside it the process that submitted the request. -/
structure Recorded where
  submitter : Int
  context : Int
  arrival : Timespec
  servStart : Timespec
  endTime : Timespec
  deriving DecidableEq, Repr

structure Traced where
  life : Life
  submitter : Ref → Int
  recorded : List Recorded

/- A request is prepared by the process that submits it; `pid` in a completion is the
process that is current there. -/
inductive Op where
  | submit (pid : Int) (r : Ref) (sector : Sector) (dataLen : BitVec 32) (cmdType : CmdType) (flags : CmdFlags)
  | other (op : Stamps.Op)
  deriving DecidableEq, Repr

def record (s : Traced) (now : Timespec) (pid : Int) (r : Ref) : List Recorded :=
  if records s.life.track (s.life.block.req r) then
    s.recorded ++ [⟨s.submitter r, pid, (s.life.block.req r).startWait,
      (s.life.block.req r).startService, now⟩]
  else s.recorded

def recordedAfter (s : Traced) : Stamps.Op → List Recorded
  | .startReqTrack => []
  | .finish now pid r => record s now pid r
  | .endHeld now pid r => record s now pid r
  | _ => s.recorded

def isInit : Stamps.Op → Bool
  | .init .. => true
  | _ => false

def step (s : Traced) : Op → Option Traced
  | .submit pid r sector dataLen cmdType flags =>
      (Stamps.step s.life (.init r sector dataLen cmdType flags)).map fun life =>
        {s with life := life, submitter := fun x => if x = r then pid else s.submitter x}
  | .other op =>
      if isInit op then none
      else (Stamps.step s.life op).map fun life => {s with life := life, recorded := recordedAfter s op}

def initial (base : BlockState) : Traced := ⟨Stamps.initial base, fun _ => 0, []⟩

def getMs (time : Timespec) : Int := time.tvSec * msecPerSec + time.tvNsec.tdiv 1000000

/- The four fields of a line. -/
structure Row where
  pid : Int
  arrival : Int
  servStart : Int
  endTime : Int
  deriving DecidableEq, Repr

/- What `copy_to_user` leaves in an array that held something before. -/
def copied (data : Nat → ReqStuff) (entries : List ReqStuff) : Nat → ReqStuff :=
  fun i => (entries[i]?).getD (data i)

/- The loop reads `data[0].pid`. -/
def printLoop (data : Nat → ReqStuff) : List Row :=
  (List.range reqsRequested).map fun i =>
    ⟨(data 0).pid, getMs (data i).arrival, getMs (data i).servStart, getMs (data i).endTime⟩

/- The row a recorded request should have. -/
def ownRow (e : Recorded) : Row := ⟨e.submitter, getMs e.arrival, getMs e.servStart, getMs e.endTime⟩

def Published (s : Traced) (data : Nat → ReqStuff) : Prop :=
  ∀ (i : Nat) (e : Recorded), s.recorded[i]? = some e →
    (printLoop (copied data (endReqTrack s.life.track).2))[i]? = some (ownRow e)

/- Every recorded request came from the process the first one completed in. -/
def OneProcess (s : Traced) : Prop :=
  ∀ first, s.recorded[0]? = some first → ∀ e ∈ s.recorded, e.submitter = first.context

/- What the recorder stored of a completion. -/
def storedOf (e : Recorded) : ReqStuff := ⟨e.context, e.arrival, e.servStart, e.endTime⟩

def Stored (s : Traced) : Prop :=
  cells s.life.track.storedReqs s.life.track.requestsSeen.toNat = s.recorded.map storedOf

section Record
variable {s : Traced}

theorem finishPublishes (stored : Stored s) (now : Timespec) (pid : Int) (r : Ref) :
    cells (blkFinishRequest now pid (s.life.block.req r) s.life.track).storedReqs
        (blkFinishRequest now pid (s.life.block.req r) s.life.track).requestsSeen.toNat =
      (record s now pid r).map storedOf := by
  have stored' : cells s.life.track.storedReqs s.life.track.requestsSeen.toNat = s.recorded.map storedOf := stored
  rw [(finishCells now pid (s.life.block.req r) s.life.track).2, stored', record]
  split
  · rw [List.map_append]
    rfl
  · exact List.append_nil _

/- What an operation does to the recorder. -/
def trackAfter (s : Life) : Stamps.Op → ReqTrack
  | .startReqTrack => startReqTrack s.track
  | .endReqTrack => (endReqTrack s.track).1
  | .finish now pid r => blkFinishRequest now pid (s.block.req r) s.track
  | .endHeld now pid r => blkFinishRequest now pid (s.block.req r) s.track
  | _ => s.track

theorem stepTrack {l m : Life} {op : Stamps.Op} (taken : Stamps.step l op = some m) :
    m.track = trackAfter l op := by
  unfold Stamps.step at taken
  split at taken <;> try contradiction
  cases op with
  | insert | requeue | start =>
    simp only [act] at taken
    split at taken <;> try contradiction
    obtain ⟨_, _, rfl⟩ := Option.map_eq_some_iff.mp taken
    rfl
  | init | finish | queueHeld | endHeld =>
    simp only [act] at taken
    split at taken <;> try contradiction
    cases Option.some.inj taken
    rfl
  | next =>
    simp only [act] at taken
    split at taken
    · cases Option.some.inj taken; rfl
    · cases Option.some.inj taken; rfl
  | startReqTrack | endReqTrack =>
    cases Option.some.inj taken
    rfl

theorem stepStored {t : Traced} {op : Op} (stored : Stored s) (taken : step s op = some t) : Stored t := by
  cases op with
  | submit pid r sector dataLen cmdType flags =>
    obtain ⟨life, ran, rfl⟩ := Option.map_eq_some_iff.mp taken
    simpa only [Stored, stepTrack ran, trackAfter] using stored
  | other op =>
    simp only [step] at taken
    split at taken <;> try contradiction
    obtain ⟨life, ran, rfl⟩ := Option.map_eq_some_iff.mp taken
    simp only [Stored, stepTrack ran]
    cases op with
    | startReqTrack => rfl
    | finish now pid r => exact finishPublishes stored now pid r
    | endHeld now pid r => exact finishPublishes stored now pid r
    | _ => exact stored

theorem initialStored (base : BlockState) : Stored (initial base) := rfl

theorem runStored {base : BlockState} {ops : List Op} (ran : exec step (initial base) ops = some s) :
    Stored s := execInvariant (fun _ _ _ => stepStored) (initialStored base) ran

theorem seenRecorded (stored : Stored s) : s.life.track.requestsSeen.toNat = s.recorded.length := by
  have lengths := congrArg List.length stored
  rwa [cellsLength, List.length_map] at lengths

/- A full table holds the recorded completions row by row. -/
theorem printedRow (stored : Stored s) (filled : s.life.track.requestsSeen.toNat = reqsRequested)
    (data : Nat → ReqStuff) {i : Nat} {first e : Recorded} (top : s.recorded[0]? = some first)
    (found : s.recorded[i]? = some e) :
    (printLoop (copied data (endReqTrack s.life.track).2))[i]? = some {ownRow e with pid := first.context} := by
  have entries : (endReqTrack s.life.track).2 = s.recorded.map storedOf := stored
  have length : s.recorded.length = reqsRequested := (seenRecorded stored).symm.trans filled
  have cell : ∀ {j x}, s.recorded[j]? = some x →
      copied data (endReqTrack s.life.track).2 j = storedOf x := by
    intro j x at'
    rw [copied, entries, List.getElem?_map, at']
    rfl
  have inside : i < reqsRequested := length ▸ (List.getElem?_eq_some_iff.mp found).1
  simp only [printLoop, List.getElem?_map, List.getElem?_range inside, Option.map_some, cell top, cell found]
  rfl

end Record

/- From here a request can be carried through its whole life and recorded. -/
structure Ready (s : Traced) : Prop where
  idle : s.life.phase 0 = .unused ∨ s.life.phase 0 = .freed
  head : s.life.block.q.queueHead = []
  clock : s.life.clock ≤ ⟨1, 1⟩
  on : s.life.track.servRecording = true
  stored : Stored s

theorem otherTaken {s : Traced} {op : Stamps.Op} {life : Life} (plain : isInit op = false)
    (later : s.life.clock ≤ op.reading s.life.clock)
    (acted : act {s.life with clock := op.reading s.life.clock} op = some life) :
    step s (.other op) = some {s with life := life, recorded := recordedAfter s op} := by
  rw [step, plain, if_neg Bool.false_ne_true, Stamps.step, if_pos later, acted, Option.map_some]

/- One request at sector 8, submitted by `p` and completed while `c` is current. -/
def oneLife (p c : Int) : List Op :=
  [.submit p 0 8 512 .fs fromBio, .other (.insert ⟨1, 1⟩ 0 .front false .offQueue),
    .other (.next ⟨1, 1⟩), .other (.start 0), .other (.finish ⟨1, 1⟩ c 0)]

theorem oneLifeRecords (p c : Int) {s : Traced} (ready : Ready s) (room : s.recorded.length < reqsRecorded) :
    ∃ t, exec step s (oneLife p c) = some t ∧ Ready t ∧
      t.recorded = s.recorded ++ [⟨p, c, ⟨1, 1⟩, ⟨1, 1⟩, ⟨1, 1⟩⟩] := by
  have tick : (⟨1, 1⟩ : Timespec) ≤ ⟨1, 1⟩ := timespecRefl _
  let submitted : Traced :=
    ⟨{s.life with block := initRequestFromBio s.life.block 0 8 512 .fs fromBio}.enter 0 .fresh,
      fun x => if x = 0 then p else s.submitter x, s.recorded⟩
  let marked := softBarrier (stampWait ⟨1, 1⟩ submitted.life.block 0) 0
  let inserted : Traced := {submitted with
    life := {submitted.life with block := queueFront marked 0, clock := ⟨1, 1⟩}.enter 0 .queued}
  let handed : Traced := {inserted with life := {inserted.life with
    block := inserted.life.block.setReq 0 (fun rq => {rq with startService := ⟨1, 1⟩})}.enter 0 .peeked}
  let started : Traced := {handed with life := {handed.life with
    block := handed.life.block.listDelInit 0}.enter 0 .started}
  let done : Traced := ⟨{started.life with
    track := blkFinishRequest ⟨1, 1⟩ c (started.life.block.req 0) started.life.track}.enter 0 .freed,
    started.submitter, record started ⟨1, 1⟩ c 0⟩
  have ran : exec step s (oneLife p c) = some done := by
    have first : step s (.submit p 0 8 512 .fs fromBio) = some submitted := by
      have now : s.life.clock ≤ (Op.init 0 8 512 .fs fromBio).reading s.life.clock := timespecRefl _
      rw [step, Stamps.step, if_pos now, act, if_pos ready.idle]
      rfl
    have second : step submitted (.other (.insert ⟨1, 1⟩ 0 .front false .offQueue)) = some inserted := by
      have fresh : submitted.life.phase 0 = .fresh := rfl
      refine otherTaken rfl ready.clock ?_
      rw [act, if_pos (Or.inl fresh)]
      rfl
    have third : step inserted (.other (.next ⟨1, 1⟩)) = some handed := by
      have head : inserted.life.block.q.queueHead = 0 :: s.life.block.q.queueHead := rfl
      refine otherTaken rfl tick ?_
      rw [act, nextOfHead ⟨1, 1⟩ head]
      rfl
    have fourth : step handed (.other (.start 0)) = some started :=
      otherTaken rfl (timespecRefl _) rfl
    have fifth : step started (.other (.finish ⟨1, 1⟩ c 0)) = some done :=
      otherTaken rfl tick rfl
    rw [oneLife, execCons first, execCons second, execCons third, execCons fourth, execCons fifth]
    rfl
  have recordable : records started.life.track (started.life.block.req 0) = true := by
    have seen := seenRecorded ready.stored
    refine recordsIff.mpr ⟨?_, lt_of_eq_of_lt seen room⟩
    have on : started.life.track.servRecording = true := ready.on
    rw [on]; rfl
  have kept : done.recorded = s.recorded ++ [⟨p, c, ⟨1, 1⟩, ⟨1, 1⟩, ⟨1, 1⟩⟩] := if_pos recordable
  refine ⟨done, ran, ⟨Or.inr rfl, ?_, tick, ?_, ?_⟩, kept⟩
  · have head : done.life.block.q.queueHead = (0 :: s.life.block.q.queueHead).erase 0 := rfl
    rw [head, List.erase_cons_head]
    exact ready.head
  · exact (finishCases ..).1.trans ready.on
  · exact finishPublishes (s := started) ready.stored ⟨1, 1⟩ c 0

theorem livesRecord (p c : Int) (n : Nat) {s : Traced} (ready : Ready s)
    (room : s.recorded.length + n ≤ reqsRecorded) :
    ∃ t, exec step s (List.replicate n (oneLife p c)).flatten = some t ∧ Ready t ∧
      t.recorded = s.recorded ++ List.replicate n ⟨p, c, ⟨1, 1⟩, ⟨1, 1⟩, ⟨1, 1⟩⟩ := by
  induction n generalizing s with
  | zero => exact ⟨s, rfl, ready, (List.append_nil _).symm⟩
  | succ n ih =>
    obtain ⟨t, once, again, kept⟩ := oneLifeRecords p c ready (by omega)
    have left : t.recorded.length + n ≤ reqsRecorded := by
      rw [kept, List.length_append, List.length_singleton]
      omega
    obtain ⟨u, ran, last, all⟩ := ih again left
    refine ⟨u, ?_, last, ?_⟩
    · rw [List.replicate_succ, List.flatten_cons, execAppend, once]; exact ran
    · rw [all, kept, List.append_assoc, List.replicate_succ]; rfl

def begun : Traced := {initial blank with life := {(initial blank).life with track := startReqTrack bootTrack}}

theorem beginRuns : step (initial blank) (.other .startReqTrack) = some begun :=
  otherTaken rfl (timespecRefl _) rfl

theorem begunReady : Ready begun := ⟨Or.inl rfl, rfl, by decide, rfl, rfl⟩

def aloneOps : List Op := .other .startReqTrack :: (List.replicate 19500 (oneLife 7 7)).flatten

theorem aloneRuns : ∃ s, exec step (initial blank) aloneOps = some s ∧ Stored s ∧
    s.recorded = List.replicate 19500 ⟨7, 7, ⟨1, 1⟩, ⟨1, 1⟩, ⟨1, 1⟩⟩ := by
  obtain ⟨s, ran, ready, all⟩ := livesRecord 7 7 19500 begunReady (by decide)
  exact ⟨s, (execCons beginRuns _).trans ran, ready.stored, all⟩

theorem csvPublishedIff (base : BlockState) (ops : List Op) (s : Traced) (data : Nat → ReqStuff)
    (ran : exec step (initial base) ops = some s)
    (filled : s.life.track.requestsSeen.toNat = reqsRequested) :
    Published s data ↔ OneProcess s := by
  have stored := runStored ran
  constructor
  · intro published first top e mem
    obtain ⟨i, found⟩ := List.mem_iff_getElem?.mp mem
    have row := (printedRow stored filled data top found).symm.trans (published i e found)
    exact (congrArg Row.pid (Option.some.inj row)).symm
  · intro one i e found
    have mem := List.mem_of_getElem? found
    obtain ⟨first, top⟩ : ∃ first, s.recorded[0]? = some first :=
      ⟨_, List.getElem?_eq_getElem (List.length_pos_of_mem mem)⟩
    rw [printedRow stored filled data top found, ← one first top e mem]
    rfl

theorem alonePublished : ∃ s, exec step (initial blank) aloneOps = some s ∧
    s.life.track.requestsSeen.toNat = reqsRequested ∧ ∀ data, Published s data := by
  obtain ⟨s, ran, stored, all⟩ := aloneRuns
  have filled : s.life.track.requestsSeen.toNat = reqsRequested := by
    rw [seenRecorded stored, all, List.length_replicate, reqsRequested]
  have one : OneProcess s := by
    intro first top e mem
    rw [all] at top mem
    cases List.eq_of_mem_replicate mem
    cases List.eq_of_mem_replicate (List.mem_of_getElem? top)
    rfl
  exact ⟨s, ran, filled, fun data => (csvPublishedIff blank aloneOps s data ran filled).mpr one⟩

/- One request of process 7, then process 8 alone. -/
def twoOps : List Op :=
  .other .startReqTrack :: (oneLife 7 7 ++ (List.replicate 19499 (oneLife 8 8)).flatten)

theorem everyRowSeven : ∃ s, exec step (initial blank) twoOps = some s ∧
    s.life.track.requestsSeen.toNat = reqsRequested ∧ ∀ data, ¬ Published s data := by
  obtain ⟨t, once, again, kept⟩ := oneLifeRecords 7 7 begunReady (by decide)
  have one : t.recorded.length = 1 := congrArg List.length kept
  have left : t.recorded.length + 19499 ≤ reqsRecorded := by rw [one, reqsRecorded]
  obtain ⟨s, ran, ready, all⟩ := livesRecord 8 8 19499 again left
  have reached : exec step (initial blank) twoOps = some s := by
    rw [twoOps, execCons beginRuns, execAppend, once, Option.bind_some]
    exact ran
  have list : s.recorded =
      ⟨7, 7, ⟨1, 1⟩, ⟨1, 1⟩, ⟨1, 1⟩⟩ :: List.replicate 19499 ⟨8, 8, ⟨1, 1⟩, ⟨1, 1⟩, ⟨1, 1⟩⟩ := by
    have none : begun.recorded = [] := rfl
    rw [all, kept, none, List.nil_append, List.singleton_append]
  have filled : s.life.track.requestsSeen.toNat = reqsRequested := by
    rw [seenRecorded ready.stored, list, List.length_cons, List.length_replicate, reqsRequested]
  refine ⟨s, reached, filled, ?_⟩
  intro data published
  have top : s.recorded[0]? = some ⟨7, 7, ⟨1, 1⟩, ⟨1, 1⟩, ⟨1, 1⟩⟩ := by rw [list]; rfl
  have second : s.recorded[1]? = some ⟨8, 8, ⟨1, 1⟩, ⟨1, 1⟩, ⟨1, 1⟩⟩ := by
    rw [list, List.getElem?_cons_succ, List.getElem?_replicate_of_lt (by decide)]
  have row := (printedRow ready.stored filled data top second).symm.trans (published 1 _ second)
  exact absurd (congrArg Row.pid (Option.some.inj row)) (by decide)

end KernelLabs.PublishedCsv
