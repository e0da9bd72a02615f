import KernelLabs.Block.Request
import KernelLabs.Library.Chunks
import KernelLabs.Library.Runs

/-! Partial completion: `blk_update_request` and the `blk_end_request` family over the bios
of a request. What the callers outside see is kept in logs: the arguments of every
`req_bio_endio`, the bios given to `bio_endio`, and the errors given to
`blk_finish_request`, whose own work is modelled with the statistics. -/
namespace KernelLabs.Block
open Chunks

/- `failfast` is `bi_rw & REQ_FAILFAST_MASK`, three bits. -/
structure Bio where
  addr : Ref
  biSector : Sector
  biSize : BitVec 32
  failfast : BitVec 3
  biError : Int
  quiet : Bool
  deriving DecidableEq, Repr

/- `bio` follows `bi_next` from `rq->bio`. `ioStat` is `rq->rq_disk` with `REQ_IO_STAT`. -/
structure BioRequest extends Request where
  bio : List Bio
  failfast : BitVec 3
  mixedMerge : Bool
  quiet : Bool
  flushSeq : Bool
  ioStat : Bool
  errors : Int
  deriving DecidableEq, Repr

structure Handed where
  addr : Ref
  nbytes : BitVec 32
  error : Int
  deriving DecidableEq, Repr

structure Completing where
  rq : BioRequest
  ended : List Bio
  handed : List Handed
  reports : List (String × Sector)
  sectorsDone : BitVec 64
  deriving DecidableEq, Repr

/- The bio layer is outside: `bio_cur_bytes`, and how `bio_advance` leaves a bio. -/
structure BioCore where
  curBytes : Bio → BitVec 32
  bioAdvance : Bio → BitVec 32 → Bio

/- The iterator of the bio moves on by the bytes done, which are no more than are left, and
nothing else of the bio changes. -/
structure BioRules (core : BioCore) : Prop where
  small : ∀ b, core.curBytes b ≤ b.biSize
  sector : ∀ b n, (core.bioAdvance b n).biSector = b.biSector + (n >>> 9).setWidth 64
  size : ∀ b n, n ≤ b.biSize → (core.bioAdvance b n).biSize = b.biSize - n
  addr : ∀ b n, (core.bioAdvance b n).addr = b.addr
  failfast : ∀ b n, (core.bioAdvance b n).failfast = b.failfast
  biError : ∀ b n, (core.bioAdvance b n).biError = b.biError

section
variable (core : BioCore)

/- The bio as it is after the call; whether `bio_endio` is called is for the caller to log. -/
def reqBioEndio (quiet : Bool) (b : Bio) (nbytes : BitVec 32) (error : Int) : Bio :=
  let b := if error ≠ 0 then {b with biError := error} else b
  let b := if quiet then {b with quiet := true} else b
  core.bioAdvance b nbytes

def endsBio (flushSeq : Bool) (b : Bio) : Bool := b.biSize == 0 && !flushSeq

structure Round where
  bio : List Bio
  ended : List Bio
  handed : List Handed
  totalBytes : BitVec 32

/- The loop of `blk_update_request`. Where a bio is not used up, `bio_bytes` is
`nr_bytes`, so nothing is left to hand out and the loop breaks. -/
def completeBios (quiet flushSeq : Bool) (error : Int) : List Bio → BitVec 32 → Round
  | [], _ => ⟨[], [], [], 0⟩
  | b :: rest, nrBytes =>
    let bioBytes := if b.biSize ≤ nrBytes then b.biSize else nrBytes
    let after := reqBioEndio core quiet b bioBytes error
    let ended := if endsBio flushSeq after then [after] else []
    let handed : Handed := ⟨b.addr, bioBytes, error⟩
    if bioBytes = b.biSize then
      if nrBytes - bioBytes = 0 then ⟨rest, ended, [handed], bioBytes⟩
      else
        let more := completeBios quiet flushSeq error rest (nrBytes - bioBytes)
        ⟨more.bio, ended ++ more.ended, handed :: more.handed, bioBytes + more.totalBytes⟩
    else ⟨after :: rest, ended, [handed], bioBytes⟩

def eio : Int := -5

def errorType (error : Int) : String :=
  if error = -67 then "recoverable transport"
  else if error = -121 then "critical target"
  else if error = -52 then "critical nexus"
  else if error = -110 then "timeout"
  else if error = -28 then "critical space allocation"
  else if error = -61 then "critical medium"
  else "I/O"

def blkDoIoStat (rq : BioRequest) : Bool := rq.ioStat && rq.cmdType == .fs

def blkAccountIoCompletion (s : Completing) (bytes : BitVec 32) : Completing :=
  if blkDoIoStat s.rq then {s with sectorsDone := s.sectorsDone + (bytes >>> 9).setWidth 64} else s

def blkRqCurBytes (rq : BioRequest) : BitVec 32 :=
  match rq.bio with
  | [] => 0
  | b :: _ => core.curBytes b

/- The part after the loop, where bios are left. `total_bytes` is an `int`: its shift
keeps the sign, and so does the step to `sector_t`. -/
def settle (rq : BioRequest) (first : Bio) (totalBytes : BitVec 32) : BioRequest :=
  let rq := {rq with dataLen := rq.dataLen - totalBytes}
  let rq := if rq.cmdType = .fs then
      {rq with sector := rq.sector + (totalBytes.sshiftRight 9).signExtend 64} else rq
  let rq := if rq.mixedMerge then {rq with failfast := first.failfast} else rq
  if blkRqBytes rq.toRequest < blkRqCurBytes core rq then
    {rq with dataLen := blkRqCurBytes core rq} else rq

/- The part of `blk_update_request` before the loop. -/
def openUpdate (s : Completing) (error : Int) (nrBytes : BitVec 32) : Completing :=
  let s := if s.rq.cmdType = .fs then {s with rq := {s.rq with errors := 0}} else s
  let s := if error ≠ 0 ∧ s.rq.cmdType = .fs ∧ s.rq.quiet = false then
      {s with reports := s.reports ++ [(errorType error, blkRqPos s.rq.toRequest)]} else s
  blkAccountIoCompletion s nrBytes

/- The result says whether data is left. -/
def blkUpdateRequest (s : Completing) (error : Int) (nrBytes : BitVec 32) : Completing × Bool :=
  if s.rq.bio = [] then (s, false)
  else
    let s := openUpdate s error nrBytes
    let round := completeBios core s.rq.quiet s.rq.flushSeq error s.rq.bio nrBytes
    let s := {s with rq := {s.rq with bio := round.bio}, ended := s.ended ++ round.ended,
                     handed := s.handed ++ round.handed}
    match round.bio with
    | [] => ({s with rq := {s.rq with dataLen := 0}}, false)
    | first :: _ => ({s with rq := settle core s.rq first round.totalBytes}, true)

/- A request with its bidi partner, and the errors `blk_finish_request` was called with. -/
structure Ending where
  first : Completing
  next : Option Completing
  finished : List Int
  deriving DecidableEq, Repr

def blkUpdateBidiRequest (s : Ending) (error : Int) (nrBytes bidiBytes : BitVec 32) : Ending × Bool :=
  let (first, pending) := blkUpdateRequest core s.first error nrBytes
  let s := {s with first := first}
  if pending then (s, true)
  else
    match s.next with
    | none => (s, false)
    | some next =>
      let (next, pending) := blkUpdateRequest core next error bidiBytes
      ({s with next := some next}, pending)

def blkEndBidiRequest (s : Ending) (error : Int) (nrBytes bidiBytes : BitVec 32) : Ending × Bool :=
  let (s, pending) := blkUpdateBidiRequest core s error nrBytes bidiBytes
  if pending then (s, true) else ({s with finished := s.finished ++ [error]}, false)

def blkEndRequest (s : Ending) (error : Int) (nrBytes : BitVec 32) : Ending × Bool :=
  blkEndBidiRequest core s error nrBytes 0

/- `none` is `BUG_ON(pending)`. -/
def blkEndRequestAll (s : Ending) (error : Int) : Option Ending :=
  let bidiBytes := match s.next with
    | none => 0
    | some next => blkRqBytes next.rq.toRequest
  let (s, pending) := blkEndBidiRequest core s error (blkRqBytes s.first.rq.toRequest) bidiBytes
  if pending then none else some s

def blkEndRequestCur (s : Ending) (error : Int) : Ending × Bool :=
  blkEndRequest core s error (blkRqCurBytes core s.first.rq)

def coversFailfast (ff : BitVec 3) (b : Bio) : Bool := b.failfast &&& ff == ff

def failBytes (ff : BitVec 3) : List Bio → BitVec 32 → BitVec 32
  | [], bytes => bytes
  | b :: rest, bytes => if coversFailfast ff b then failBytes ff rest (bytes + b.biSize) else bytes

/- `none` is the `BUG_ON` against an endless loop of callers. -/
def blkRqErrBytes (rq : BioRequest) : Option (BitVec 32) :=
  if !rq.mixedMerge then some (blkRqBytes rq.toRequest)
  else
    let bytes := failBytes rq.failfast rq.bio 0
    if blkRqBytes rq.toRequest ≠ 0 ∧ bytes = 0 then none else some bytes

def blkEndRequestErr (s : Ending) (error : Int) : Option (Ending × Bool) :=
  (blkRqErrBytes s.first.rq).map (blkEndRequest core s error)

end

/- Before the loop only the request's error, the log and the statistics change. -/
theorem openUpdateRq (s : Completing) (error : Int) (nrBytes : BitVec 32) :
    ∃ errors, (openUpdate s error nrBytes).rq = {s.rq with errors := errors} := by
  simp only [openUpdate, blkAccountIoCompletion]
  split <;> split <;> split <;> exact ⟨_, rfl⟩

theorem openUpdateLogs (s : Completing) (error : Int) (nrBytes : BitVec 32) :
    (openUpdate s error nrBytes).ended = s.ended ∧ (openUpdate s error nrBytes).handed = s.handed := by
  simp only [openUpdate, blkAccountIoCompletion]
  split <;> split <;> split <;> exact ⟨rfl, rfl⟩

section
variable (core : BioCore)

/- What a record of `req_bio_endio` calls makes of one bio. -/
def hand (quiet : Bool) (b : Bio) (h : Handed) : Bio :=
  if h.addr = b.addr then reqBioEndio core quiet b h.nbytes h.error else b

def replay (quiet : Bool) (handed : List Handed) (b : Bio) : Bio := handed.foldl (hand core quiet) b

end

def handedBytes (handed : List Handed) (addr : Ref) : Nat :=
  ((handed.filter (·.addr = addr)).map (·.nbytes.toNat)).sum

section
variable {core : BioCore}

theorem endioAddr (rules : BioRules core) (quiet : Bool) (b : Bio) (n : BitVec 32) (error : Int) :
    (reqBioEndio core quiet b n error).addr = b.addr := by
  simp only [reqBioEndio]
  split <;> split <;> exact rules.addr _ n

theorem endioSize (rules : BioRules core) (quiet : Bool) {b : Bio} {n : BitVec 32}
    (part : n ≤ b.biSize) (error : Int) : (reqBioEndio core quiet b n error).biSize = b.biSize - n := by
  simp only [reqBioEndio]
  split <;> split <;> exact rules.size _ n part

theorem endioFailfast (rules : BioRules core) (quiet : Bool) (b : Bio) (n : BitVec 32) (error : Int) :
    (reqBioEndio core quiet b n error).failfast = b.failfast := by
  simp only [reqBioEndio]
  split <;> split <;> exact rules.failfast _ n

theorem endioSector (rules : BioRules core) (quiet : Bool) (b : Bio) (n : BitVec 32) (error : Int) :
    (reqBioEndio core quiet b n error).biSector = b.biSector + (n >>> 9).setWidth 64 := by
  simp only [reqBioEndio]
  split <;> split <;> exact rules.sector _ n

theorem endioError (rules : BioRules core) (quiet : Bool) (b : Bio) (n : BitVec 32) (error : Int) :
    (reqBioEndio core quiet b n error).biError = if error ≠ 0 then error else b.biError := by
  simp only [reqBioEndio]
  split <;> split <;> exact rules.biError _ n

theorem handAddr (rules : BioRules core) (quiet : Bool) (b : Bio) (h : Handed) :
    (hand core quiet b h).addr = b.addr := by
  simp only [hand]
  split
  · exact endioAddr rules ..
  · rfl

theorem replayAddr (rules : BioRules core) (quiet : Bool) (handed : List Handed) (b : Bio) :
    (replay core quiet handed b).addr = b.addr := by
  induction handed generalizing b with
  | nil => rfl
  | cons h rest ih => exact (ih (hand core quiet b h)).trans (handAddr rules quiet b h)

@[simp] theorem replayCons (quiet : Bool) (h : Handed) (handed : List Handed) (b : Bio) :
    replay core quiet (h :: handed) b = replay core quiet handed (hand core quiet b h) := rfl

theorem replayAppend (quiet : Bool) (handed more : List Handed) (b : Bio) :
    replay core quiet (handed ++ more) b = replay core quiet more (replay core quiet handed b) :=
  List.foldl_append

theorem replayAway {quiet : Bool} {handed : List Handed} {b : Bio}
    (away : ∀ h ∈ handed, h.addr ≠ b.addr) : replay core quiet handed b = b := by
  induction handed with
  | nil => rfl
  | cons h rest ih =>
    rw [replayCons, hand, if_neg (away h (List.mem_cons_self ..))]
    exact ih (fun x member => away x (List.mem_cons_of_mem h member))

@[simp] theorem handedBytesCons (h : Handed) (handed : List Handed) (addr : Ref) :
    handedBytes (h :: handed) addr = (if h.addr = addr then h.nbytes.toNat else 0) + handedBytes handed addr := by
  by_cases same : h.addr = addr
  · simp [handedBytes, same]
  · simp [handedBytes, same]

theorem handedBytesAppend (handed more : List Handed) (addr : Ref) :
    handedBytes (handed ++ more) addr = handedBytes handed addr + handedBytes more addr := by
  simp only [handedBytes, List.filter_append, List.map_append, List.sum_append]

theorem handedBytesAway {handed : List Handed} {addr : Ref} (away : ∀ h ∈ handed, h.addr ≠ addr) :
    handedBytes handed addr = 0 := by
  have none : handed.filter (·.addr = addr) = [] := by
    simpa only [List.filter_eq_nil_iff, decide_eq_true_eq] using away
  rw [handedBytes, none]
  rfl

/- The error a bio ends with is the last one among those it was handed. -/
def lastError (start : Int) (errors : List Int) : Int :=
  errors.foldl (fun kept error => if error ≠ 0 then error else kept) start

theorem replayError (rules : BioRules core) (quiet : Bool) (handed : List Handed) (b : Bio) :
    (replay core quiet handed b).biError =
      lastError b.biError ((handed.filter (·.addr = b.addr)).map Handed.error) := by
  induction handed generalizing b with
  | nil => rfl
  | cons h rest ih =>
    rw [replayCons, ih, handAddr rules]
    by_cases same : h.addr = b.addr
    · simp only [hand, if_pos same, List.filter_cons, decide_eq_true_eq, List.map_cons,
        endioError rules, lastError, List.foldl_cons]
    · simp only [hand, if_neg same, List.filter_cons, decide_eq_true_eq]

theorem lastErrorSticks {start : Int} (errors : List Int) (failed : start ≠ 0) :
    lastError start errors ≠ 0 := by
  induction errors generalizing start with
  | nil => exact failed
  | cons error rest ih =>
    simp only [lastError, List.foldl_cons]
    split
    · rename_i nonzero
      exact ih nonzero
    · exact ih failed

theorem lastErrorZero {start : Int} {errors : List Int} (clean : lastError start errors = 0) :
    ∀ error ∈ errors, error = 0 := by
  induction errors generalizing start with
  | nil => intro error member; cases member
  | cons head rest ih =>
    have headZero : head = 0 := by
      by_contra failed
      simp only [lastError, List.foldl_cons, if_pos failed] at clean
      exact lastErrorSticks rest failed clean
    simp only [lastError, List.foldl_cons] at clean
    intro error member
    rcases List.mem_cons.mp member with rfl | later
    · exact headZero
    · exact ih clean error later

/- The bytes of a bio are numbered from its end, the last one `2 ^ 32 - 1`: `bio_advance`
leaves the numbers of the bytes that stay as they are. -/
def Bio.chunk {β : Type} (mark : Bio → β) (b : Bio) : Chunk β :=
  ⟨mark b, 2 ^ 32 - b.biSize.toNat, b.biSize.toNat⟩

def bioChunks {β : Type} (mark : Bio → β) (bios : List Bio) : List (Chunk β) := bios.map (Bio.chunk mark)

def bioTotal (bios : List Bio) : Nat := total (bioChunks Bio.addr bios)

@[simp] theorem bioTotalCons (b : Bio) (bios : List Bio) :
    bioTotal (b :: bios) = b.biSize.toNat + bioTotal bios := totalCons _ _

theorem bioTotalAppend (bios more : List Bio) : bioTotal (bios ++ more) = bioTotal bios + bioTotal more := by
  induction bios with
  | nil => exact (Nat.zero_add _).symm
  | cons b rest ih => rw [List.cons_append, bioTotalCons, bioTotalCons, ih, Nat.add_assoc]

theorem chunksTotal {β : Type} (mark : Bio → β) (bios : List Bio) :
    total (bioChunks mark bios) = bioTotal bios := by
  induction bios with
  | nil => rfl
  | cons b rest ih =>
    rw [bioTotalCons, ← ih]
    exact totalCons _ _

/- All one round of the loop does to the bios of the request. -/
structure RoundDone (core : BioCore) (quiet flushSeq : Bool) (error : Int) (bios : List Bio) (nrBytes : BitVec 32)
    (round : Round) : Prop where
  gone : ∃ gone, gone ++ round.bio = bios.map (replay core quiet round.handed) ∧
    round.ended = (if flushSeq then [] else gone) ∧ ∀ b ∈ gone, b.biSize = 0
  handedTo : ∀ h ∈ round.handed, h.error = error ∧ ∃ b ∈ bios, b.addr = h.addr
  bytes : ∀ b ∈ bios,
    handedBytes round.handed b.addr + (replay core quiet round.handed b).biSize.toNat = b.biSize.toNat
  totalBytes : bioTotal bios < 2 ^ 32 → round.totalBytes.toNat = min nrBytes.toNat (bioTotal bios)

theorem awayOf {handed : List Handed} {bios : List Bio} {addr : Ref}
    (handedTo : ∀ h ∈ handed, ∃ b ∈ bios, b.addr = h.addr) (absent : addr ∉ bios.map Bio.addr) :
    ∀ h ∈ handed, h.addr ≠ addr := by
  intro h member same
  obtain ⟨b, there, at'⟩ := handedTo h member
  exact absent (List.mem_map.mpr ⟨b, there, at'.trans same⟩)

theorem sizeLe {a b : BitVec 32} (le : a ≤ b) : (b - a).toNat = b.toNat - a.toNat := by
  rw [BitVec.toNat_sub]
  have := BitVec.le_def.mp le
  have := a.isLt
  have := b.isLt
  omega

/- `bio_advance` moves the bytes that stay to the end of the bio. -/
theorem chunkAdvance (rules : BioRules core) {β : Type} {mark : Bio → β} {quiet : Bool} {b : Bio} {n : BitVec 32}
    {error : Int} (part : n ≤ b.biSize) (keeps : mark (reqBioEndio core quiet b n error) = mark b) :
    (reqBioEndio core quiet b n error).chunk mark = (b.chunk mark).advance n.toNat := by
  have size := sizeLe part
  have := BitVec.le_def.mp part
  have := b.biSize.isLt
  simp only [Bio.chunk, Chunk.advance, keeps, endioSize rules quiet part, size]
  congr 1
  omega

def endedNow (flushSeq : Bool) (b : Bio) : List Bio := if flushSeq then [] else [b]

theorem sizeEmpty (rules : BioRules core) (quiet : Bool) (b : Bio) (error : Int) :
    (reqBioEndio core quiet b b.biSize error).biSize = 0 := by
  rw [endioSize rules quiet (BitVec.le_refl _), BitVec.sub_self]
  rfl

theorem endedUsed (rules : BioRules core) (quiet flushSeq : Bool) (b : Bio) (error : Int) :
    (if endsBio flushSeq (reqBioEndio core quiet b b.biSize error) then
      [reqBioEndio core quiet b b.biSize error] else []) =
      endedNow flushSeq (reqBioEndio core quiet b b.biSize error) := by
  simp only [endsBio, sizeEmpty rules, endedNow]
  cases flushSeq <;> rfl

/- The three ways a round goes on at its first bio: it is used up and nothing is left to
hand out, it is used up and the loop goes on, or it is cut. -/
theorem roundUsed (rules : BioRules core) {quiet flushSeq : Bool} {error : Int} {b : Bio} {rest : List Bio}
    {nrBytes : BitVec 32} (covered : b.biSize ≤ nrBytes) (none : nrBytes - b.biSize = 0) :
    completeBios core quiet flushSeq error (b :: rest) nrBytes =
      ⟨rest, endedNow flushSeq (reqBioEndio core quiet b b.biSize error), [⟨b.addr, b.biSize, error⟩], b.biSize⟩ := by
  simp only [completeBios, if_pos covered, if_true, if_pos none, endedUsed rules]

theorem roundOn (rules : BioRules core) {quiet flushSeq : Bool} {error : Int} {b : Bio} {rest : List Bio}
    {nrBytes : BitVec 32} (covered : b.biSize ≤ nrBytes) (more : nrBytes - b.biSize ≠ 0) :
    completeBios core quiet flushSeq error (b :: rest) nrBytes =
      ⟨(completeBios core quiet flushSeq error rest (nrBytes - b.biSize)).bio,
        endedNow flushSeq (reqBioEndio core quiet b b.biSize error) ++
          (completeBios core quiet flushSeq error rest (nrBytes - b.biSize)).ended,
        ⟨b.addr, b.biSize, error⟩ :: (completeBios core quiet flushSeq error rest (nrBytes - b.biSize)).handed,
        b.biSize + (completeBios core quiet flushSeq error rest (nrBytes - b.biSize)).totalBytes⟩ := by
  simp only [completeBios, if_pos covered, if_true, if_neg more, endedUsed rules]

theorem roundCut (rules : BioRules core) {quiet flushSeq : Bool} {error : Int} {b : Bio} {rest : List Bio}
    {nrBytes : BitVec 32} (short : nrBytes.toNat < b.biSize.toNat) :
    completeBios core quiet flushSeq error (b :: rest) nrBytes =
      ⟨reqBioEndio core quiet b nrBytes error :: rest, [], [⟨b.addr, nrBytes, error⟩], nrBytes⟩ := by
  have inside : ¬ b.biSize ≤ nrBytes := fun le => by have := BitVec.le_def.mp le; omega
  have part : nrBytes ≤ b.biSize := BitVec.le_def.mpr (Nat.le_of_lt short)
  have different : nrBytes ≠ b.biSize := fun same => by rw [same] at short; omega
  have remains : (reqBioEndio core quiet b nrBytes error).biSize ≠ 0 := fun zero => by
    have empty := congrArg BitVec.toNat zero
    rw [endioSize rules quiet part, sizeLe part] at empty
    simp only [BitVec.ofNat_eq_ofNat, BitVec.toNat_ofNat, Nat.zero_mod] at empty
    omega
  have goesOn : endsBio flushSeq (reqBioEndio core quiet b nrBytes error) = false := by
    simp only [endsBio, beq_eq_false_iff_ne.mpr remains, Bool.false_and]
  simp only [completeBios, if_neg inside, if_neg different, goesOn, Bool.false_eq_true, if_false]

theorem roundCases (b : Bio) (nrBytes : BitVec 32) :
    (b.biSize ≤ nrBytes ∧ nrBytes - b.biSize = 0) ∨ (b.biSize ≤ nrBytes ∧ nrBytes - b.biSize ≠ 0) ∨
      nrBytes.toNat < b.biSize.toNat := by
  by_cases covered : b.biSize ≤ nrBytes
  · by_cases none : nrBytes - b.biSize = 0
    · exact Or.inl ⟨covered, none⟩
    · exact Or.inr (Or.inl ⟨covered, none⟩)
  · exact Or.inr (Or.inr (by rw [BitVec.le_def] at covered; omega))

theorem roundTotals (rules : BioRules core) (quiet flushSeq : Bool) (error : Int) (bios : List Bio)
    (nrBytes : BitVec 32) (fits : bioTotal bios < 2 ^ 32) :
    (completeBios core quiet flushSeq error bios nrBytes).totalBytes.toNat = min nrBytes.toNat (bioTotal bios) := by
  induction bios generalizing nrBytes with
  | nil => simp [completeBios, bioTotal, bioChunks, total]
  | cons b rest ih =>
    rw [bioTotalCons] at fits ⊢
    rcases roundCases b nrBytes with ⟨covered, none⟩ | ⟨covered, more⟩ | short
    · rw [roundUsed rules covered none]
      have left := sizeLe covered
      have zero : (nrBytes - b.biSize).toNat = 0 := by rw [none]; rfl
      have le := BitVec.le_def.mp covered
      show b.biSize.toNat = _
      omega
    · rw [roundOn rules covered more]
      have left := sizeLe covered
      have le := BitVec.le_def.mp covered
      have rest' := ih (nrBytes - b.biSize) (by omega)
      rw [left] at rest'
      rw [BitVec.toNat_add, rest']
      omega
    · rw [roundCut rules short]
      show nrBytes.toNat = _
      omega

theorem roundHandedTo (rules : BioRules core) (quiet flushSeq : Bool) (error : Int) (bios : List Bio)
    (nrBytes : BitVec 32) :
    ∀ h ∈ (completeBios core quiet flushSeq error bios nrBytes).handed,
      h.error = error ∧ ∃ b ∈ bios, b.addr = h.addr := by
  induction bios generalizing nrBytes with
  | nil => intro h member; cases member
  | cons b rest ih =>
    have here : ∀ n, ∀ h ∈ [(⟨b.addr, n, error⟩ : Handed)],
        h.error = error ∧ ∃ x ∈ b :: rest, x.addr = h.addr := fun n h member => by
      cases List.mem_singleton.mp member
      exact ⟨rfl, b, List.mem_cons_self .., rfl⟩
    rcases roundCases b nrBytes with ⟨covered, none⟩ | ⟨covered, more⟩ | short
    · rw [roundUsed rules covered none]
      exact here _
    · rw [roundOn rules covered more]
      intro h member
      rcases List.mem_cons.mp member with rfl | later
      · exact here _ _ (List.mem_singleton.mpr rfl)
      · obtain ⟨same, x, there, at'⟩ := ih _ h later
        exact ⟨same, x, List.mem_cons_of_mem b there, at'⟩
    · rw [roundCut rules short]
      exact here _

/- One bio of the round: the first record is its own, the later ones are for the others. -/
theorem replayFirst (rules : BioRules core) {quiet : Bool} {b : Bio} {n : BitVec 32} {error : Int}
    {more : List Handed} (away : ∀ h ∈ more, h.addr ≠ b.addr) :
    replay core quiet (⟨b.addr, n, error⟩ :: more) b = reqBioEndio core quiet b n error := by
  rw [replayCons, hand, if_pos rfl]
  exact replayAway (fun h member => by rw [endioAddr rules]; exact away h member)

theorem replayOther {quiet : Bool} {b : Bio} {addr : Ref} {n : BitVec 32} {error : Int} {more : List Handed}
    (other : addr ≠ b.addr) :
    replay core quiet (⟨addr, n, error⟩ :: more) b = replay core quiet more b := by
  rw [replayCons, hand, if_neg other]

theorem mapReplayOther {quiet : Bool} {addr : Ref} {n : BitVec 32} {error : Int} {more : List Handed}
    {bios : List Bio} (absent : addr ∉ bios.map Bio.addr) :
    bios.map (replay core quiet (⟨addr, n, error⟩ :: more)) = bios.map (replay core quiet more) :=
  List.map_congr_left (fun b member =>
    replayOther (fun same => absent (List.mem_map.mpr ⟨b, member, same.symm⟩)))

theorem roundGone (rules : BioRules core) (quiet flushSeq : Bool) (error : Int) {bios : List Bio}
    (nrBytes : BitVec 32) (distinct : (bios.map Bio.addr).Nodup) :
    ∃ gone, gone ++ (completeBios core quiet flushSeq error bios nrBytes).bio =
        bios.map (replay core quiet (completeBios core quiet flushSeq error bios nrBytes).handed) ∧
      (completeBios core quiet flushSeq error bios nrBytes).ended = (if flushSeq then [] else gone) ∧
      ∀ b ∈ gone, b.biSize = 0 := by
  induction bios generalizing nrBytes with
  | nil => exact ⟨[], rfl, by cases flushSeq <;> rfl, fun b member => by cases member⟩
  | cons b rest ih =>
    rw [List.map_cons, List.nodup_cons] at distinct
    obtain ⟨absent, distinct⟩ := distinct
    have split' : ∀ n more, (∀ h ∈ more, ∃ x ∈ rest, x.addr = h.addr) →
        (b :: rest).map (replay core quiet (⟨b.addr, n, error⟩ :: more)) =
          reqBioEndio core quiet b n error :: rest.map (replay core quiet more) := fun n more handedTo => by
      rw [List.map_cons, mapReplayOther absent, replayFirst rules (awayOf handedTo absent)]
    have alone : ∀ n, (b :: rest).map (replay core quiet [⟨b.addr, n, error⟩]) =
        reqBioEndio core quiet b n error :: rest := fun n => by
      rw [split' n [] (fun h member => by cases member)]
      exact congrArg _ (List.map_id'' (fun _ => rfl) rest)
    rcases roundCases b nrBytes with ⟨covered, none⟩ | ⟨covered, more⟩ | short
    · rw [roundUsed rules covered none]
      refine ⟨[reqBioEndio core quiet b b.biSize error], (alone b.biSize).symm, rfl, ?_⟩
      intro x member
      cases List.mem_singleton.mp member
      exact sizeEmpty rules quiet b error
    · rw [roundOn rules covered more]
      obtain ⟨gone, cut, ended, done⟩ := ih (nrBytes - b.biSize) distinct
      refine ⟨reqBioEndio core quiet b b.biSize error :: gone, ?_, ?_, ?_⟩
      · rw [split' b.biSize _ (fun h member => (roundHandedTo rules _ _ _ _ _ h member).2), ← cut]
        rfl
      · rw [ended]
        cases flushSeq <;> rfl
      · intro x member
        rcases List.mem_cons.mp member with rfl | later
        · exact sizeEmpty rules quiet b error
        · exact done x later
    · rw [roundCut rules short]
      exact ⟨[], (alone nrBytes).symm, by cases flushSeq <;> rfl, fun x member => by cases member⟩

theorem roundBytes (rules : BioRules core) (quiet flushSeq : Bool) (error : Int) {bios : List Bio}
    (nrBytes : BitVec 32) (distinct : (bios.map Bio.addr).Nodup) :
    ∀ b ∈ bios, handedBytes (completeBios core quiet flushSeq error bios nrBytes).handed b.addr +
      (replay core quiet (completeBios core quiet flushSeq error bios nrBytes).handed b).biSize.toNat =
        b.biSize.toNat := by
  induction bios generalizing nrBytes with
  | nil => intro b member; cases member
  | cons b rest ih =>
    rw [List.map_cons, List.nodup_cons] at distinct
    obtain ⟨absent, distinct⟩ := distinct
    -- `b` itself gets the first record, the others what `more` says of them.
    have split' : ∀ n more, n ≤ b.biSize → (∀ h ∈ more, ∃ x ∈ rest, x.addr = h.addr) →
        (∀ x ∈ rest, handedBytes more x.addr + (replay core quiet more x).biSize.toNat = x.biSize.toNat) →
        ∀ x ∈ b :: rest, handedBytes (⟨b.addr, n, error⟩ :: more) x.addr +
          (replay core quiet (⟨b.addr, n, error⟩ :: more) x).biSize.toNat = x.biSize.toNat := by
      intro n more part handedTo account x member
      rw [handedBytesCons]
      rcases List.mem_cons.mp member with rfl | later
      · have away := awayOf handedTo absent
        have size := sizeLe part
        have le := BitVec.le_def.mp part
        rw [replayFirst rules away, handedBytesAway away, endioSize rules quiet part, size, if_pos rfl]
        show n.toNat + 0 + _ = _
        omega
      · have other : b.addr ≠ x.addr := fun same =>
          absent (List.mem_map.mpr ⟨x, later, same.symm⟩)
        rw [replayOther other, if_neg other, Nat.zero_add]
        exact account x later
    have nothing : ∀ x ∈ rest, handedBytes [] x.addr + (replay core quiet [] x).biSize.toNat =
        x.biSize.toNat := fun x _ => Nat.zero_add _
    rcases roundCases b nrBytes with ⟨covered, none⟩ | ⟨covered, more⟩ | short
    · rw [roundUsed rules covered none]
      exact split' b.biSize [] (BitVec.le_refl _) (fun h member => by cases member) nothing
    · rw [roundOn rules covered more]
      exact split' b.biSize _ (BitVec.le_refl _)
        (fun h member => (roundHandedTo rules _ _ _ _ _ h member).2) (ih _ distinct)
    · rw [roundCut rules short]
      exact split' nrBytes [] (BitVec.le_def.mpr (Nat.le_of_lt short))
        (fun h member => by cases member) nothing

theorem roundDone (rules : BioRules core) (quiet flushSeq : Bool) (error : Int) {bios : List Bio}
    (nrBytes : BitVec 32) (distinct : (bios.map Bio.addr).Nodup) :
    RoundDone core quiet flushSeq error bios nrBytes (completeBios core quiet flushSeq error bios nrBytes) where
  gone := roundGone rules quiet flushSeq error nrBytes distinct
  handedTo := roundHandedTo rules quiet flushSeq error bios nrBytes
  bytes := roundBytes rules quiet flushSeq error nrBytes distinct
  totalBytes := roundTotals rules quiet flushSeq error bios nrBytes

/- The loop consumes the request's bytes from the front, and a mark of the bios that
handing out whole units does not change stays with the bytes. -/
theorem roundChunks (rules : BioRules core) {β : Type} (mark : Bio → β) (unit : Nat) (quiet flushSeq : Bool)
    (error : Int) (bios : List Bio) (nrBytes : BitVec 32)
    (keeps : ∀ b ∈ bios, ∀ n, n ≤ b.biSize → unit ∣ n.toNat → mark (reqBioEndio core quiet b n error) = mark b)
    (whole : ∀ b ∈ bios, unit ∣ b.biSize.toNat) (units : unit ∣ nrBytes.toNat) :
    bioChunks mark (completeBios core quiet flushSeq error bios nrBytes).bio =
      eat (bioChunks mark bios) nrBytes.toNat := by
  induction bios generalizing nrBytes with
  | nil => rfl
  | cons b rest ih =>
    have first : b ∈ b :: rest := List.mem_cons_self ..
    have later : ∀ x ∈ rest, x ∈ b :: rest := fun x member => List.mem_cons_of_mem b member
    rcases roundCases b nrBytes with ⟨covered, none⟩ | ⟨covered, more⟩ | short
    · rw [roundUsed rules covered none]
      have le : (b.chunk mark).len ≤ nrBytes.toNat := BitVec.le_def.mp covered
      have zero : nrBytes.toNat - (b.chunk mark).len = 0 := by
        rw [show (b.chunk mark).len = b.biSize.toNat from rfl, ← sizeLe covered, none]
        rfl
      simp only [bioChunks, List.map_cons, eat, if_pos le, if_pos zero]
    · rw [roundOn rules covered more]
      have le : (b.chunk mark).len ≤ nrBytes.toNat := BitVec.le_def.mp covered
      have left := sizeLe covered
      have nonzero : nrBytes.toNat - (b.chunk mark).len ≠ 0 := fun zero =>
        more (BitVec.toNat_inj.mp (left.trans zero))
      have rest' := ih (nrBytes - b.biSize) (fun x member => keeps x (later x member))
        (fun x member => whole x (later x member)) (by rw [left]; exact Nat.dvd_sub units (whole b first))
      rw [left] at rest'
      simp only [bioChunks, List.map_cons, eat, if_pos le, if_neg nonzero]
      exact rest'
    · rw [roundCut rules short]
      have part : nrBytes ≤ b.biSize := BitVec.le_def.mpr (Nat.le_of_lt short)
      have inside : ¬ (b.chunk mark).len ≤ nrBytes.toNat := Nat.not_le.mpr short
      simp only [bioChunks, List.map_cons, eat, if_neg inside]
      rw [chunkAdvance rules part (keeps b first nrBytes part units)]

end

end KernelLabs.Block
