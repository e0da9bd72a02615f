import Mathlib.Data.List.Nodup
import KernelLabs.Block.Completion

/-! Runs of partial completions of one request: what any sequence of them does to the bios,
to the byte count and to the sector, and how the callers that fail a request piece by
piece come to an end. -/
namespace KernelLabs.PartialCompletion
open Block Chunks Runs

variable (core : BioCore)

def lengthsAgree (rq : BioRequest) : Prop := rq.dataLen.toNat = bioTotal rq.bio

def roundOf (s : Completing) (error : Int) (nrBytes : BitVec 32) : Round :=
  completeBios core s.rq.quiet s.rq.flushSeq error s.rq.bio nrBytes

/- All that one `blk_update_request` changes of the request. The check for a botched
request never fires where the lengths agree. -/
structure Updated (s : Completing) (error : Int) (nrBytes : BitVec 32) (t : Completing) : Prop where
  bio : t.rq.bio = (roundOf core s error nrBytes).bio
  ended : t.ended = s.ended ++ (roundOf core s error nrBytes).ended
  handed : t.handed = s.handed ++ (roundOf core s error nrBytes).handed
  quiet : t.rq.quiet = s.rq.quiet
  flushSeq : t.rq.flushSeq = s.rq.flushSeq
  cmdType : t.rq.cmdType = s.rq.cmdType
  mixed : t.rq.mixedMerge = s.rq.mixedMerge
  lengths : lengthsAgree t.rq
  sector : t.rq.bio ≠ [] → t.rq.sector = if s.rq.cmdType = .fs then
    s.rq.sector + ((roundOf core s error nrBytes).totalBytes.sshiftRight 9).signExtend 64 else s.rq.sector
  failfast : ∀ b rest, t.rq.bio = b :: rest →
    t.rq.failfast = if s.rq.mixedMerge then b.failfast else s.rq.failfast

theorem roundTotalLeft (rules : BioRules core) {s : Completing} (lengths : lengthsAgree s.rq) (error : Int)
    (nrBytes : BitVec 32) :
    (roundOf core s error nrBytes).totalBytes.toNat = min nrBytes.toNat (bioTotal s.rq.bio) ∧
      bioTotal (roundOf core s error nrBytes).bio = bioTotal s.rq.bio - nrBytes.toNat := by
  have fits : bioTotal s.rq.bio < 2 ^ 32 := by rw [← lengths]; exact s.rq.dataLen.isLt
  refine ⟨roundTotals rules _ _ _ _ _ fits, ?_⟩
  have eaten := roundChunks rules Bio.addr 1 s.rq.quiet s.rq.flushSeq error s.rq.bio nrBytes
    (fun b _ n _ _ => endioAddr rules ..) (fun b _ => Nat.one_dvd _) (Nat.one_dvd _)
  have totals := congrArg total eaten
  rw [eatTotal] at totals
  exact totals

theorem settleAgrees (rq : BioRequest) {first : Bio} {rest : List Bio} {totalBytes : BitVec 32}
    (rules : BioRules core) (bio : rq.bio = first :: rest)
    (left : (rq.dataLen - totalBytes).toNat = bioTotal (first :: rest)) :
    settle core rq first totalBytes =
      {rq with dataLen := rq.dataLen - totalBytes,
               sector := if rq.cmdType = .fs then
                 rq.sector + (totalBytes.sshiftRight 9).signExtend 64 else rq.sector,
               failfast := if rq.mixedMerge then first.failfast else rq.failfast} := by
  have enough : ¬ rq.dataLen - totalBytes < core.curBytes first := by
    have := BitVec.le_def.mp (rules.small first)
    rw [bioTotalCons] at left
    rw [BitVec.lt_def]
    omega
  simp only [settle, blkRqBytes, blkRqCurBytes]
  split <;> split <;> simp only [bio, if_neg enough]

theorem updateIdle {s : Completing} {error : Int} {nrBytes : BitVec 32} (empty : s.rq.bio = []) :
    blkUpdateRequest core s error nrBytes = (s, false) := by
  simp only [blkUpdateRequest, if_pos empty]

theorem settleBio (rq : BioRequest) (first : Bio) (totalBytes : BitVec 32) :
    (settle core rq first totalBytes).bio = rq.bio := by
  simp only [settle]
  split <;> split <;> split <;> rfl

/- The answer is whether bios are left, whatever the byte count says. -/
theorem updatePending (s : Completing) (error : Int) (nrBytes : BitVec 32) :
    (blkUpdateRequest core s error nrBytes).2 = true ↔
      (blkUpdateRequest core s error nrBytes).1.rq.bio ≠ [] := by
  by_cases empty : s.rq.bio = []
  · simp [updateIdle core empty, empty]
  · simp only [blkUpdateRequest, if_neg empty]
    split
    · rename_i nothing
      simp [nothing]
    · rename_i first rest remain
      simp [settleBio, remain]

theorem updateTaken {s : Completing} (error : Int) (nrBytes : BitVec 32)
    (rules : BioRules core) (lengths : lengthsAgree s.rq) (bios : s.rq.bio ≠ []) :
    Updated core s error nrBytes (blkUpdateRequest core s error nrBytes).1 := by
  obtain ⟨totals, left⟩ := roundTotalLeft core rules lengths error nrBytes
  obtain ⟨errors, opened⟩ := openUpdateRq s error nrBytes
  obtain ⟨ended, handed⟩ := openUpdateLogs s error nrBytes
  have same : completeBios core (openUpdate s error nrBytes).rq.quiet (openUpdate s error nrBytes).rq.flushSeq error
      (openUpdate s error nrBytes).rq.bio nrBytes = roundOf core s error nrBytes := by rw [opened]; rfl
  simp only [blkUpdateRequest, if_neg bios, same]
  split
  · rename_i nothing
    rw [opened, ended, handed]
    refine ⟨rfl, rfl, rfl, rfl, rfl, rfl, rfl, ?_, ?_, ?_⟩
    · rw [lengthsAgree, nothing]
      rfl
    · exact fun remain => absurd nothing remain
    · exact fun b rest remain => absurd (remain.symm.trans nothing) (List.cons_ne_nil b rest)
  · rename_i first rest remain
    have lessTotal : (s.rq.dataLen - (roundOf core s error nrBytes).totalBytes).toNat =
        bioTotal (first :: rest) := by
      rw [← remain, left, BitVec.toNat_sub, totals]
      have := s.rq.dataLen.isLt
      unfold lengthsAgree at lengths
      omega
    have settled := settleAgrees core {s.rq with errors := errors, bio := (roundOf core s error nrBytes).bio}
      rules remain lessTotal
    rw [opened, settled, ended, handed]
    refine ⟨rfl, rfl, rfl, rfl, rfl, rfl, rfl, ?_, fun _ => rfl, ?_⟩
    · rw [lengthsAgree]
      exact lessTotal.trans (congrArg bioTotal remain.symm)
    · intro b more here
      obtain ⟨rfl, -⟩ := List.cons.inj (remain.symm.trans here)
      rfl

/- Where a request stands after some of it was completed: the bios given to `bio_endio`
followed by those left are the bios it started with, each as the calls made on it leave it. -/
structure Settled (bios : List Bio) (s : Completing) : Prop where
  gone : ∃ gone, gone ++ s.rq.bio = bios.map (replay core s.rq.quiet s.handed) ∧
    s.ended = (if s.rq.flushSeq then [] else gone) ∧ ∀ b ∈ gone, b.biSize = 0
  handedTo : ∀ h ∈ s.handed, ∃ b ∈ bios, b.addr = h.addr
  bytes : ∀ b ∈ bios,
    handedBytes s.handed b.addr + (replay core s.rq.quiet s.handed b).biSize.toNat = b.biSize.toNat
  lengths : lengthsAgree s.rq

theorem settledFresh {s : Completing} (ended : s.ended = []) (handed : s.handed = [])
    (lengths : lengthsAgree s.rq) : Settled core s.rq.bio s where
  gone := by
    refine ⟨[], ?_, by rw [ended]; cases s.rq.flushSeq <;> rfl, fun b member => by cases member⟩
    rw [handed]
    exact (List.map_id'' (fun _ => rfl) _).symm
  handedTo := by
    rw [handed]
    exact fun h member => by cases member
  bytes := by
    rw [handed]
    exact fun b _ => Nat.zero_add _
  lengths := lengths

theorem replayMapAddr (rules : BioRules core) (quiet : Bool) (handed : List Handed) (bios : List Bio) :
    (bios.map (replay core quiet handed)).map Bio.addr = bios.map Bio.addr := by
  rw [List.map_map]
  exact List.map_congr_left (fun b _ => replayAddr rules quiet handed b)

theorem settledUpdate (rules : BioRules core) {bios : List Bio} {s : Completing}
    (distinct : (bios.map Bio.addr).Nodup) (settled : Settled core bios s) (error : Int) (nrBytes : BitVec 32) :
    Settled core bios (blkUpdateRequest core s error nrBytes).1 := by
  by_cases empty : s.rq.bio = []
  · rw [updateIdle core empty]
    exact settled
  obtain ⟨gone, cut, ended, done⟩ := settled.gone
  have addrs : (gone ++ s.rq.bio).map Bio.addr = bios.map Bio.addr := by
    rw [cut, replayMapAddr core rules]
  rw [← addrs, List.map_append, List.nodup_append] at distinct
  obtain ⟨-, leftDistinct, apart⟩ := distinct
  have updated := updateTaken core error nrBytes rules settled.lengths empty
  have round := roundDone rules s.rq.quiet s.rq.flushSeq error nrBytes leftDistinct
  obtain ⟨gone', cut', ended', done'⟩ := round.gone
  have awayGone : ∀ b ∈ gone, ∀ h ∈ (roundOf core s error nrBytes).handed, h.addr ≠ b.addr := by
    intro b member h there same
    obtain ⟨x, left, at'⟩ := (round.handedTo h there).2
    exact apart b.addr (List.mem_map_of_mem member) x.addr (List.mem_map_of_mem left) (by rw [at', same])
  have both : ∀ b, replay core s.rq.quiet (s.handed ++ (roundOf core s error nrBytes).handed) b =
      replay core s.rq.quiet (roundOf core s error nrBytes).handed (replay core s.rq.quiet s.handed b) :=
    replayAppend s.rq.quiet s.handed (roundOf core s error nrBytes).handed
  refine ⟨⟨gone ++ gone', ?_, ?_, ?_⟩, ?_, ?_, updated.lengths⟩
  · have unmoved : gone.map (replay core s.rq.quiet (roundOf core s error nrBytes).handed) = gone := by
      refine (List.map_congr_left (fun b member => replayAway (awayGone b member))).trans ?_
      exact List.map_id'' (fun _ => rfl) gone
    rw [updated.bio, updated.quiet, updated.handed, List.append_assoc]
    calc gone ++ (gone' ++ (roundOf core s error nrBytes).bio)
        = gone ++ s.rq.bio.map (replay core s.rq.quiet (roundOf core s error nrBytes).handed) := by
          rw [roundOf, cut']
      _ = (gone ++ s.rq.bio).map (replay core s.rq.quiet (roundOf core s error nrBytes).handed) := by
          rw [List.map_append, unmoved]
      _ = (bios.map (replay core s.rq.quiet s.handed)).map (replay core s.rq.quiet (roundOf core s error nrBytes).handed) := by
          rw [cut]
      _ = bios.map (replay core s.rq.quiet (s.handed ++ (roundOf core s error nrBytes).handed)) := by
          rw [List.map_map]
          exact List.map_congr_left (fun b _ => (both b).symm)
  · rw [updated.ended, updated.flushSeq, ended, roundOf, ended']
    cases s.rq.flushSeq <;> rfl
  · intro b member
    rcases List.mem_append.mp member with before | now
    · exact done b before
    · exact done' b now
  · intro h member
    rw [updated.handed] at member
    rcases List.mem_append.mp member with before | now
    · exact settled.handedTo h before
    · obtain ⟨x, left, at'⟩ := (round.handedTo h now).2
      have old : x ∈ bios.map (replay core s.rq.quiet s.handed) := cut ▸ List.mem_append_right gone left
      obtain ⟨b, member, rfl⟩ := List.mem_map.mp old
      exact ⟨b, member, (replayAddr rules ..).symm.trans at'⟩
  · intro b member
    rw [updated.quiet, updated.handed, both, handedBytesAppend]
    have before := settled.bytes b member
    have now : replay core s.rq.quiet s.handed b ∈ gone ++ s.rq.bio := cut ▸ List.mem_map_of_mem member
    rcases List.mem_append.mp now with finished | left
    · have away := awayGone _ finished
      rw [replayAway away]
      rw [replayAddr rules] at away
      rw [handedBytesAway away]
      exact before
    · have more := round.bytes _ left
      rw [replayAddr rules] at more
      simp only [roundOf]
      omega

theorem bytesUpdate (rules : BioRules core) {s : Completing} (lengths : lengthsAgree s.rq)
    (error : Int) (nrBytes : BitVec 32) :
    flat (bioChunks Bio.addr (blkUpdateRequest core s error nrBytes).1.rq.bio) =
      (flat (bioChunks Bio.addr s.rq.bio)).drop nrBytes.toNat := by
  by_cases empty : s.rq.bio = []
  · rw [updateIdle core empty, empty]
    exact List.drop_nil.symm
  rw [(updateTaken core error _ rules lengths empty).bio, ← flatEat, roundOf,
    roundChunks rules Bio.addr 1 s.rq.quiet s.rq.flushSeq error _ _ (fun b _ n _ _ => endioAddr rules ..)
      (fun b _ => Nat.one_dvd _) (Nat.one_dvd _)]

/- One `blk_end_bidi_request`. After `blk_finish_request` the request is gone. -/
structure Part where
  error : Int
  nrBytes : BitVec 32
  bidiBytes : BitVec 32
  deriving DecidableEq, Repr

def endStep (s : Ending) (p : Part) : Option Ending :=
  if s.finished = [] then some (blkEndBidiRequest core s p.error p.nrBytes p.bidiBytes).1 else none

def dataLeft (s : Ending) : Prop := s.first.rq.bio ≠ [] ∨ ∃ next, s.next = some next ∧ next.rq.bio ≠ []

structure Fresh (s : Completing) : Prop where
  distinct : (s.rq.bio.map Bio.addr).Nodup
  lengths : lengthsAgree s.rq
  ended : s.ended = []
  handed : s.handed = []

structure FreshEnding (s : Ending) : Prop where
  first : Fresh s.first
  next : ∀ next, s.next = some next → Fresh next
  unfinished : s.finished = []

/- The partner is touched only by a call that leaves the request itself without bios. -/
theorem endBidiCases (s : Ending) (error : Int) (nrBytes bidiBytes : BitVec 32) :
    ∃ first, first = (blkUpdateRequest core s.first error nrBytes).1 ∧
    ((first.rq.bio ≠ [] ∧
        (blkEndBidiRequest core s error nrBytes bidiBytes) = (⟨first, s.next, s.finished⟩, true)) ∨
      (first.rq.bio = [] ∧ s.next = none ∧
        (blkEndBidiRequest core s error nrBytes bidiBytes) = (⟨first, none, s.finished ++ [error]⟩, false)) ∨
      ∃ next, s.next = some next ∧ first.rq.bio = [] ∧
        ((blkUpdateRequest core next error bidiBytes).1.rq.bio ≠ [] ∧
            blkEndBidiRequest core s error nrBytes bidiBytes =
              (⟨first, some (blkUpdateRequest core next error bidiBytes).1, s.finished⟩, true) ∨
          (blkUpdateRequest core next error bidiBytes).1.rq.bio = [] ∧
            blkEndBidiRequest core s error nrBytes bidiBytes =
              (⟨first, some (blkUpdateRequest core next error bidiBytes).1, s.finished ++ [error]⟩, false))) := by
  refine ⟨_, rfl, ?_⟩
  have firstPending := updatePending core s.first error nrBytes
  by_cases left : (blkUpdateRequest core s.first error nrBytes).1.rq.bio = []
  · have done : (blkUpdateRequest core s.first error nrBytes).2 = false :=
      Bool.eq_false_iff.mpr (fun pending => firstPending.mp pending left)
    refine Or.inr ?_
    cases found : s.next with
    | none =>
      refine Or.inl ⟨left, rfl, ?_⟩
      simp only [blkEndBidiRequest, blkUpdateBidiRequest, done, found, Bool.false_eq_true, if_false]
    | some next =>
      refine Or.inr ⟨next, rfl, left, ?_⟩
      have nextPending := updatePending core next error bidiBytes
      by_cases leftNext : (blkUpdateRequest core next error bidiBytes).1.rq.bio = []
      · have doneNext : (blkUpdateRequest core next error bidiBytes).2 = false :=
          Bool.eq_false_iff.mpr (fun pending => nextPending.mp pending leftNext)
        refine Or.inr ⟨leftNext, ?_⟩
        simp only [blkEndBidiRequest, blkUpdateBidiRequest, done, doneNext, found, Bool.false_eq_true, if_false]
      · refine Or.inl ⟨leftNext, ?_⟩
        simp only [blkEndBidiRequest, blkUpdateBidiRequest, done, nextPending.mpr leftNext, found,
          Bool.false_eq_true, if_false, if_true]
  · refine Or.inl ⟨left, ?_⟩
    simp only [blkEndBidiRequest, blkUpdateBidiRequest, firstPending.mpr left, if_true]

/- One call leaves both parts settled, and finishes the request if nothing is left. -/
structure EndKept (bios nextBios : List Bio) (s : Ending) : Prop where
  first : Settled core bios s.first
  next : ∀ next, s.next = some next → Settled core nextBios next

theorem endStepTaken {s t : Ending} {p : Part} (taken : endStep core s p = some t) :
    s.finished = [] ∧ t = (blkEndBidiRequest core s p.error p.nrBytes p.bidiBytes).1 := by
  simp only [endStep] at taken
  split at taken
  · rename_i unfinished
    exact ⟨unfinished, (Option.some.inj taken).symm⟩
  · contradiction

theorem endStepFinishes {s t : Ending} {p : Part} (taken : endStep core s p = some t) :
    (dataLeft t ∧ t.finished = []) ∨ (¬ dataLeft t ∧ t.finished = [p.error]) := by
  obtain ⟨unfinished, rfl⟩ := endStepTaken core taken
  obtain ⟨first, -, ⟨left, same⟩ | ⟨done, none, same⟩ | ⟨next, found, done, ⟨left, same⟩ | ⟨doneNext, same⟩⟩⟩ :=
    endBidiCases core s p.error p.nrBytes p.bidiBytes <;> rw [same]
  · exact Or.inl ⟨Or.inl left, unfinished⟩
  · refine Or.inr ⟨?_, congrArg (· ++ [p.error]) unfinished⟩
    rintro (left | ⟨next, found, -⟩)
    · exact left done
    · cases found
  · exact Or.inl ⟨Or.inr ⟨_, rfl, left⟩, unfinished⟩
  · refine Or.inr ⟨?_, congrArg (· ++ [p.error]) unfinished⟩
    rintro (left | ⟨next, found, left⟩)
    · exact left done
    · cases found
      exact left doneNext

theorem endStepFirst {s t : Ending} {p : Part} (taken : endStep core s p = some t) :
    t.first = (blkUpdateRequest core s.first p.error p.nrBytes).1 := by
  obtain ⟨-, rfl⟩ := endStepTaken core taken
  obtain ⟨first, rfl, ⟨-, same⟩ | ⟨-, -, same⟩ | ⟨_, -, -, ⟨-, same⟩ | ⟨-, same⟩⟩⟩ :=
    endBidiCases core s p.error p.nrBytes p.bidiBytes <;> rw [same]

theorem endStepNext {s t : Ending} {p : Part} (taken : endStep core s p = some t) :
    t.next = s.next ∨ ∃ next, s.next = some next ∧
      t.next = some (blkUpdateRequest core next p.error p.bidiBytes).1 := by
  obtain ⟨-, rfl⟩ := endStepTaken core taken
  obtain ⟨first, rfl, ⟨-, same⟩ | ⟨-, none, same⟩ | ⟨next, found, -, ⟨-, same⟩ | ⟨-, same⟩⟩⟩ :=
    endBidiCases core s p.error p.nrBytes p.bidiBytes <;> rw [same]
  · exact Or.inl rfl
  · exact Or.inl none.symm
  · exact Or.inr ⟨next, found, rfl⟩
  · exact Or.inr ⟨next, found, rfl⟩

theorem endStepPartner {s t : Ending} {p : Part} (taken : endStep core s p = some t) :
    t.next.isSome = s.next.isSome := by
  rcases endStepNext core taken with same | ⟨before, found, now⟩
  · rw [same]
  · rw [found, now]
    rfl

theorem endStepKeeps (rules : BioRules core) {bios nextBios : List Bio} {s t : Ending} {p : Part}
    (distinct : (bios.map Bio.addr).Nodup) (nextDistinct : (nextBios.map Bio.addr).Nodup)
    (kept : EndKept core bios nextBios s) (taken : endStep core s p = some t) : EndKept core bios nextBios t where
  first := by
    rw [endStepFirst core taken]
    exact settledUpdate core rules distinct kept.first p.error p.nrBytes
  next := by
    intro next here
    rcases endStepNext core taken with same | ⟨before, found, now⟩
    · exact kept.next next (same ▸ here)
    · cases Option.some.inj (now.symm.trans here)
      exact settledUpdate core rules nextDistinct (kept.next before found) p.error p.bidiBytes

def bytesAsked (parts : List Part) : Nat := (parts.map (·.nrBytes.toNat)).sum

theorem runBytes (rules : BioRules core) {bios : List Bio} (distinct : (bios.map Bio.addr).Nodup)
    {parts : List Part} {s t : Ending} (settled : Settled core bios s.first)
    (ran : exec (endStep core) s parts = some t) :
    flat (bioChunks Bio.addr t.first.rq.bio) =
      (flat (bioChunks Bio.addr s.first.rq.bio)).drop (bytesAsked parts) := by
  induction parts generalizing s with
  | nil =>
    cases Option.some.inj ran
    exact List.drop_zero.symm
  | cons p rest ih =>
    obtain ⟨u, taken, after⟩ := execConsSome ran
    have first := endStepFirst core taken
    have next := ih (first ▸ settledUpdate core rules distinct settled p.error p.nrBytes) after
    rw [next, first, bytesUpdate core rules settled.lengths, List.drop_drop]
    rfl

theorem runFinishes {parts : List Part} {s t : Ending} (some' : parts ≠ [])
    (ran : exec (endStep core) s parts = some t) :
    (dataLeft t ∧ t.finished = []) ∨ (¬ dataLeft t ∧ ∃ error, t.finished = [error]) := by
  induction parts generalizing s with
  | nil => exact absurd rfl some'
  | cons p rest ih =>
    obtain ⟨u, taken, after⟩ := execConsSome ran
    cases rest with
    | nil =>
      cases Option.some.inj after
      exact (endStepFinishes core taken).imp id (fun done => ⟨done.1, p.error, done.2⟩)
    | cons q more => exact ih (List.cons_ne_nil q more) after

/- What is behind a bio that was ended without an error. -/
theorem endedClean (rules : BioRules core) {bios : List Bio} {s : Completing} (distinct : (bios.map Bio.addr).Nodup)
    (settled : Settled core bios s) {b : Bio} (ended : b ∈ s.ended) (clean : b.biError = 0) :
    b.biSize = 0 ∧ (∀ h ∈ s.handed, h.addr = b.addr → h.error = 0) ∧
      ∀ x ∈ bios, x.addr = b.addr → handedBytes s.handed b.addr = x.biSize.toNat := by
  obtain ⟨gone, cut, logged, done⟩ := settled.gone
  have inGone : b ∈ gone := by
    rw [logged] at ended
    split at ended
    · cases ended
    · exact ended
  have replayed : b ∈ bios.map (replay core s.rq.quiet s.handed) := cut ▸ List.mem_append_left _ inGone
  obtain ⟨x, member, same⟩ := List.mem_map.mp replayed
  have addr : b.addr = x.addr := by rw [← same, replayAddr rules]
  refine ⟨done b inGone, ?_, ?_⟩
  · intro h there toB
    have errors := replayError rules s.rq.quiet s.handed x
    rw [same, clean] at errors
    refine lastErrorZero errors.symm h.error (List.mem_map.mpr ⟨h, ?_, rfl⟩)
    exact List.mem_filter.mpr ⟨there, decide_eq_true (toB.trans addr)⟩
  · intro y there atB
    have onlyX : y = x := List.inj_on_of_nodup_map distinct there member (atB.trans addr)
    have account := settled.bytes x member
    rw [same, done b inGone] at account
    rw [addr, onlyX]
    exact account

/- Every run of completions of a request, by whatever byte counts and with whatever
errors: each bio is ended once, in the order of the request, when all its bytes are done. -/
theorem completionLedger (rules : BioRules core) {s t : Ending} {parts : List Part}
    (fresh : FreshEnding s) (ran : exec (endStep core) s parts = some t) :
    Settled core s.first.rq.bio t.first ∧
    (∀ start, s.next = some start → ∃ next, t.next = some next ∧ Settled core start.rq.bio next) ∧
    flat (bioChunks Bio.addr t.first.rq.bio) =
      (flat (bioChunks Bio.addr s.first.rq.bio)).drop (bytesAsked parts) ∧
    (parts ≠ [] → (dataLeft t ∧ t.finished = []) ∨ (¬ dataLeft t ∧ ∃ error, t.finished = [error])) ∧
    (∀ b ∈ t.first.ended, b.biError = 0 → b.biSize = 0 ∧
      (∀ h ∈ t.first.handed, h.addr = b.addr → h.error = 0) ∧
      ∀ x ∈ s.first.rq.bio, x.addr = b.addr → handedBytes t.first.handed b.addr = x.biSize.toNat) := by
  have kept : EndKept core s.first.rq.bio ((s.next.map (·.rq.bio)).getD []) t := by
    have keep : ∀ u p v, EndKept core s.first.rq.bio ((s.next.map (·.rq.bio)).getD []) u →
        endStep core u p = some v → EndKept core s.first.rq.bio ((s.next.map (·.rq.bio)).getD []) v := by
      intro u p v kept taken
      refine endStepKeeps core rules fresh.first.distinct ?_ kept taken
      cases found : s.next with
      | none => exact List.nodup_nil
      | some next => exact (fresh.next next found).distinct
    refine execInvariant keep ?_ ran
    refine ⟨settledFresh core fresh.first.ended fresh.first.handed fresh.first.lengths, ?_⟩
    intro next found
    rw [found]
    have start := fresh.next next found
    exact settledFresh core start.ended start.handed start.lengths
  have keepPartner : ∀ u p v, u.next.isSome = s.next.isSome → endStep core u p = some v →
      v.next.isSome = s.next.isSome := fun u p v same taken => (endStepPartner core taken).trans same
  have partner : t.next.isSome = s.next.isSome := execInvariant keepPartner rfl ran
  refine ⟨kept.first, ?_, ?_, fun some' => runFinishes core some' ran, ?_⟩
  · intro start found
    rw [found] at partner kept
    obtain ⟨next, now⟩ := Option.isSome_iff_exists.mp partner
    exact ⟨next, now, kept.next next now⟩
  · exact runBytes core rules fresh.first.distinct
      (settledFresh core fresh.first.ended fresh.first.handed fresh.first.lengths) ran
  · exact fun b ended clean => endedClean core rules fresh.first.distinct kept.first ended clean

/- Bios of one segment each. -/
def oneSegment : BioCore where
  curBytes := Bio.biSize
  bioAdvance b n := {b with biSector := b.biSector + (n >>> 9).setWidth 64, biSize := b.biSize - n}

theorem oneSegmentRules : BioRules oneSegment :=
  ⟨fun _ => BitVec.le_refl _, fun _ _ => rfl, fun _ _ _ => rfl, fun _ _ => rfl, fun _ _ => rfl, fun _ _ => rfl⟩

/- Two bios of one and two sectors, completed in two calls that cut the second bio. -/
def twoBios (mixedMerge : Bool) : Completing :=
  ⟨⟨⟨8, 1536, .fs, ⟨false, false, false, true, false, false⟩, .zero, .zero⟩,
    [⟨1, 8, 512, 1, 0, false⟩, ⟨2, 9, 1024, 0, 0, false⟩], if mixedMerge then 1 else 0, mixedMerge,
    false, false, false, 0⟩, [], [], [], 0⟩

theorem twoBiosFresh : Fresh (twoBios false) := ⟨by decide, rfl, rfl, rfl⟩

def cutSecond : List Part := [⟨0, 1024, 0⟩, ⟨-5, 512, 0⟩]

theorem cutSecondCompletes : ∃ t, exec (endStep oneSegment) ⟨twoBios false, none, []⟩ cutSecond = some t ∧
    Settled oneSegment (twoBios false).rq.bio t.first ∧
    flat (bioChunks Bio.addr t.first.rq.bio) = (flat (bioChunks Bio.addr (twoBios false).rq.bio)).drop 1536 :=
  have ledger := completionLedger oneSegment oneSegmentRules
    (s := ⟨twoBios false, none, []⟩) ⟨twoBiosFresh, (fun _ found => absurd found (by simp)), rfl⟩
    (show exec (endStep oneSegment) ⟨twoBios false, none, []⟩ cutSecond = some _ from rfl)
  ⟨_, rfl, ledger.1, ledger.2.2.1⟩

/- The request and its bios as the next completion finds them. -/
def bare (b : Bio) : Ref × Sector × BitVec 32 × BitVec 3 := (b.addr, b.biSector, b.biSize, b.failfast)

def sectorsOf (size : BitVec 32) : Sector := (size >>> 9).setWidth 64

/- Where a bio ends on the disk, with what else whole sectors handed out leave alone. -/
def mark (b : Bio) : Ref × BitVec 3 × Sector := (b.addr, b.failfast, b.biSector + sectorsOf b.biSize)

theorem sectorsSplit {size n : BitVec 32} (part : n ≤ size) (whole : 512 ∣ n.toNat) :
    sectorsOf n + sectorsOf (size - n) = sectorsOf size := by
  have le := BitVec.le_def.mp part
  have left := sizeLe part
  have bound := size.isLt
  obtain ⟨k, same⟩ := whole
  simp only [sectorsOf, ← BitVec.toNat_inj, BitVec.toNat_add, BitVec.toNat_setWidth,
    BitVec.toNat_ushiftRight, Nat.shiftRight_eq_div_pow, left]
  omega

theorem markKept (rules : BioRules core) {quiet : Bool} {b : Bio} {n : BitVec 32} {error : Int} (part : n ≤ b.biSize)
    (whole : 512 ∣ n.toNat) : mark (reqBioEndio core quiet b n error) = mark b := by
  simp only [mark, endioAddr rules, endioFailfast rules, endioSector rules, endioSize rules quiet part,
    BitVec.add_assoc]
  rw [show (n >>> 9).setWidth 64 = sectorsOf n from rfl, sectorsSplit part whole]

/- A marked chunk says all of the bare bio. -/
def unmark (c : Chunk (Ref × BitVec 3 × Sector)) : Ref × Sector × BitVec 32 × BitVec 3 :=
  (c.owner.1, c.owner.2.2 - sectorsOf (BitVec.ofNat 32 c.len), BitVec.ofNat 32 c.len, c.owner.2.1)

theorem unmarkChunks (bios : List Bio) : (bioChunks mark bios).map unmark = bios.map bare := by
  rw [bioChunks, List.map_map]
  refine List.map_congr_left (fun b _ => ?_)
  simp only [Function.comp_apply, unmark, Bio.chunk, mark, bare, BitVec.ofNat_toNat,
    BitVec.setWidth_eq, BitVec.add_sub_cancel]

structure WholeSectors (s : Completing) : Prop where
  sizes : ∀ b ∈ s.rq.bio, 512 ∣ b.biSize.toNat
  nonempty : ∀ b ∈ s.rq.bio, b.biSize ≠ 0
  short : s.rq.dataLen.toNat < 2 ^ 31

theorem wholeSolid {s : Completing} (whole : WholeSectors s) : Solid (bioChunks mark s.rq.bio) := by
  intro c member
  obtain ⟨b, there, rfl⟩ := List.mem_map.mp member
  have nonzero : b.biSize.toNat ≠ 0 := fun zero => whole.nonempty b there (BitVec.toNat_inj.mp zero)
  exact Nat.pos_of_ne_zero nonzero

theorem marksUpdate (rules : BioRules core) {s : Completing} (lengths : lengthsAgree s.rq)
    (whole : WholeSectors s) (error : Int) {nrBytes : BitVec 32} (units : 512 ∣ nrBytes.toNat) :
    bioChunks mark (blkUpdateRequest core s error nrBytes).1.rq.bio =
      eat (bioChunks mark s.rq.bio) nrBytes.toNat := by
  by_cases empty : s.rq.bio = []
  · rw [updateIdle core empty, empty]
    rfl
  · rw [(updateTaken core error _ rules lengths empty).bio]
    exact roundChunks rules mark 512 s.rq.quiet s.rq.flushSeq error _ _
      (fun b _ n part unit => markKept core rules part unit) whole.sizes units

/- What chunks with marks say of sizes carries over to the bios. -/
theorem eatenWhole {chunks : List (Chunk (Ref × BitVec 3 × Sector))} (sizes : ∀ c ∈ chunks, 512 ∣ c.len)
    {n : Nat} (units : 512 ∣ n) : ∀ c ∈ eat chunks n, 512 ∣ c.len := by
  induction chunks generalizing n with
  | nil => exact sizes
  | cons c cs ih =>
    have later : ∀ d ∈ cs, 512 ∣ d.len := fun d member => sizes d (List.mem_cons_of_mem c member)
    have here := sizes c (List.mem_cons_self ..)
    simp only [eat]
    split
    · split
      · exact later
      · exact ih later (Nat.dvd_sub units here)
    · intro d member
      rcases List.mem_cons.mp member with rfl | rest
      · exact Nat.dvd_sub here units
      · exact later d rest

theorem wholeUpdate (rules : BioRules core) {s : Completing} (lengths : lengthsAgree s.rq)
    (whole : WholeSectors s) (error : Int) {nrBytes : BitVec 32} (units : 512 ∣ nrBytes.toNat) :
    WholeSectors (blkUpdateRequest core s error nrBytes).1 := by
  have marks := marksUpdate core rules lengths whole error units
  have inChunks : ∀ b ∈ (blkUpdateRequest core s error nrBytes).1.rq.bio,
      b.chunk mark ∈ eat (bioChunks mark s.rq.bio) nrBytes.toNat := fun b member =>
    marks ▸ List.mem_map_of_mem member
  refine ⟨fun b member => ?_, fun b member => ?_, ?_⟩
  · refine eatenWhole ?_ units _ (inChunks b member)
    intro c there
    obtain ⟨x, left, rfl⟩ := List.mem_map.mp there
    exact whole.sizes x left
  · have solid := eatSolid (wholeSolid whole) nrBytes.toNat _ (inChunks b member)
    intro zero
    simp only [Bio.chunk, zero] at solid
    exact absurd solid (by decide)
  · by_cases empty : s.rq.bio = []
    · rw [updateIdle core empty]
      exact whole.short
    · rw [(updateTaken core error _ rules lengths empty).lengths,
        (updateTaken core error _ rules lengths empty).bio,
        (roundTotalLeft core rules lengths error nrBytes).2, ← lengths]
      exact Nat.lt_of_le_of_lt (Nat.sub_le ..) whole.short

theorem shiftUnsigned {n : BitVec 32} (short : n.toNat < 2 ^ 31) :
    (n.sshiftRight 9).signExtend 64 = sectorsOf n := by
  have positive : n.msb = false := by
    rw [BitVec.msb_eq_false_iff_two_mul_lt]
    omega
  have shifted : (n >>> 9).msb = false := by
    rw [BitVec.msb_eq_false_iff_two_mul_lt, BitVec.toNat_ushiftRight, Nat.shiftRight_eq_div_pow]
    omega
  rw [BitVec.sshiftRight_eq_of_msb_false positive, BitVec.signExtend_eq_setWidth_of_msb_false shifted]
  rfl

/- Where the request ends for a file system request, where it starts for another one:
neither moves while bios are left. -/
def anchor (rq : BioRequest) : Sector :=
  if rq.cmdType = .fs then rqEndSector rq.toRequest else rq.sector

theorem anchorUpdate (rules : BioRules core) {s : Completing} (lengths : lengthsAgree s.rq)
    (whole : WholeSectors s) (error : Int) {nrBytes : BitVec 32} (units : 512 ∣ nrBytes.toNat)
    (left : (blkUpdateRequest core s error nrBytes).1.rq.bio ≠ []) :
    anchor (blkUpdateRequest core s error nrBytes).1.rq = anchor s.rq := by
  have some' : s.rq.bio ≠ [] := fun empty => left (by rw [updateIdle core empty]; exact empty)
  have updated := updateTaken core error nrBytes rules lengths some'
  obtain ⟨totals, rest⟩ := roundTotalLeft core rules lengths error nrBytes
  have lengths' := updated.lengths
  rw [lengthsAgree, updated.bio, rest] at lengths'
  unfold lengthsAgree at lengths
  have remain : nrBytes.toNat < bioTotal s.rq.bio := by
    by_contra enough
    have none : bioTotal (blkUpdateRequest core s error nrBytes).1.rq.bio = 0 := by
      rw [updated.bio, rest]
      omega
    obtain ⟨b, bs, same⟩ := List.exists_cons_of_ne_nil left
    have nonzero := (wholeUpdate core rules lengths whole error units).nonempty b
      (same ▸ List.mem_cons_self ..)
    rw [same, bioTotalCons] at none
    exact nonzero (BitVec.toNat_inj.mp (Nat.eq_zero_of_add_eq_zero_right none))
  have exact' : (roundOf core s error nrBytes).totalBytes = nrBytes :=
    BitVec.toNat_inj.mp (by rw [totals]; omega)
  have part : nrBytes ≤ s.rq.dataLen := BitVec.le_def.mpr (by omega)
  have data : (blkUpdateRequest core s error nrBytes).1.rq.dataLen = s.rq.dataLen - nrBytes :=
    BitVec.toNat_inj.mp (by rw [sizeLe part]; omega)
  have short : nrBytes.toNat < 2 ^ 31 := by have := whole.short; omega
  have sector := updated.sector left
  rw [exact', shiftUnsigned short] at sector
  simp only [anchor, updated.cmdType, rqEndSector, blkRqPos, blkRqSectors, blkRqBytes, data, sector]
  split
  · rw [BitVec.add_assoc]
    exact congrArg _ (sectorsSplit part units)
  · rfl

/- `t` is `s` with `n` bytes handed out, however that was divided into calls. -/
structure Along (s t : Completing) (n : Nat) : Prop where
  lengths : lengthsAgree t.rq
  whole : WholeSectors t
  marks : bioChunks mark t.rq.bio = eat (bioChunks mark s.rq.bio) n
  anchor : t.rq.bio ≠ [] → anchor t.rq = anchor s.rq
  cmdType : t.rq.cmdType = s.rq.cmdType
  mixed : t.rq.mixedMerge = s.rq.mixedMerge
  failfast : ∀ b rest, t.rq.bio = b :: rest →
    t.rq.failfast = if s.rq.mixedMerge then b.failfast else s.rq.failfast

theorem eatenNil {s t : Completing} {n : Nat} (along : Along s t n) (left : t.rq.bio ≠ []) : s.rq.bio ≠ [] := by
  intro empty
  have marks := along.marks
  rw [empty] at marks
  exact left (List.map_eq_nil_iff.mp marks)

theorem updateFlags (s : Completing) (error : Int) (nrBytes : BitVec 32) (rules : BioRules core)
    (lengths : lengthsAgree s.rq) :
    (blkUpdateRequest core s error nrBytes).1.rq.cmdType = s.rq.cmdType ∧
      (blkUpdateRequest core s error nrBytes).1.rq.mixedMerge = s.rq.mixedMerge ∧
      lengthsAgree (blkUpdateRequest core s error nrBytes).1.rq := by
  by_cases empty : s.rq.bio = []
  · rw [updateIdle core empty]
    exact ⟨rfl, rfl, lengths⟩
  · have updated := updateTaken core error nrBytes rules lengths empty
    exact ⟨updated.cmdType, updated.mixed, updated.lengths⟩

theorem alongOne (rules : BioRules core) {s : Completing} (lengths : lengthsAgree s.rq)
    (whole : WholeSectors s) (error : Int) {nrBytes : BitVec 32} (units : 512 ∣ nrBytes.toNat) :
    Along s (blkUpdateRequest core s error nrBytes).1 nrBytes.toNat := by
  obtain ⟨cmdType, mixed, lengths'⟩ := updateFlags core s error nrBytes rules lengths
  refine ⟨lengths', wholeUpdate core rules lengths whole error units,
    marksUpdate core rules lengths whole error units, anchorUpdate core rules lengths whole error units,
    cmdType, mixed, ?_⟩
  intro b rest here
  have some' : s.rq.bio ≠ [] := fun empty => by
    rw [updateIdle core empty, empty] at here
    cases here
  exact (updateTaken core error _ rules lengths some').failfast b rest here

theorem alongTrans {s t u : Completing} {n m : Nat} (whole : WholeSectors s) (first : Along s t n)
    (second : Along t u m) : Along s u (n + m) where
  lengths := second.lengths
  whole := second.whole
  marks := by rw [second.marks, first.marks, eatEat (wholeSolid whole)]
  anchor := fun left => (second.anchor left).trans (first.anchor (eatenNil second left))
  cmdType := second.cmdType.trans first.cmdType
  mixed := second.mixed.trans first.mixed
  failfast := by
    intro b rest here
    have now := second.failfast b rest here
    obtain ⟨c, cs, before⟩ := List.exists_cons_of_ne_nil
      (eatenNil second (by rw [here]; exact List.cons_ne_nil b rest))
    have earlier := first.failfast c cs before
    rw [now, first.mixed]
    split
    · rfl
    · rename_i plain
      rw [earlier, if_neg plain]

theorem alongRun (rules : BioRules core) {parts : List Part} {s t : Ending} (some' : parts ≠ [])
    (lengths : lengthsAgree s.first.rq) (whole : WholeSectors s.first)
    (units : ∀ p ∈ parts, 512 ∣ p.nrBytes.toNat) (ran : exec (endStep core) s parts = some t) :
    Along s.first t.first (bytesAsked parts) := by
  induction parts generalizing s with
  | nil => exact absurd rfl some'
  | cons p rest ih =>
    obtain ⟨u, taken, after⟩ := execConsSome ran
    have one : Along s.first u.first p.nrBytes.toNat := by
      rw [endStepFirst core taken]
      exact alongOne core rules lengths whole p.error (units p (List.mem_cons_self ..))
    cases rest with
    | nil =>
      cases Option.some.inj after
      exact one
    | cons q more =>
      exact alongTrans whole one (ih (List.cons_ne_nil q more) one.lengths one.whole
        (fun x member => units x (List.mem_cons_of_mem p member)) after)

theorem askedUnits {parts : List Part} (units : ∀ p ∈ parts, 512 ∣ p.nrBytes.toNat) :
    512 ∣ bytesAsked parts := by
  induction parts with
  | nil => exact Nat.dvd_zero 512
  | cons p rest ih =>
    rw [bytesAsked, List.map_cons, List.sum_cons]
    exact Nat.dvd_add (units p (List.mem_cons_self ..)) (ih (fun x member => units x (List.mem_cons_of_mem p member)))

theorem alongSame {s t u : Completing} {n : Nat} (one : Along s t n) (other : Along s u n) :
    t.rq.bio.map bare = u.rq.bio.map bare ∧ t.rq.dataLen = u.rq.dataLen ∧
      (u.rq.bio ≠ [] → t.rq.sector = u.rq.sector ∧ t.rq.failfast = u.rq.failfast) := by
  have marks := one.marks.trans other.marks.symm
  have bare : t.rq.bio.map bare = u.rq.bio.map bare := by
    rw [← unmarkChunks, ← unmarkChunks, marks]
  have data : t.rq.dataLen = u.rq.dataLen := BitVec.toNat_inj.mp (by
    rw [one.lengths, other.lengths, ← chunksTotal mark, ← chunksTotal mark, marks])
  refine ⟨bare, data, fun left => ?_⟩
  obtain ⟨b, bs, here⟩ := List.exists_cons_of_ne_nil left
  rw [here, List.map_cons] at bare
  obtain ⟨c, cs, there, sameBio, -⟩ := List.map_eq_cons_iff.mp bare
  have left' : t.rq.bio ≠ [] := there ▸ List.cons_ne_nil c cs
  constructor
  · have anchors := (one.anchor left').trans (other.anchor left).symm
    simp only [PartialCompletion.anchor, one.cmdType, other.cmdType, rqEndSector, blkRqPos, blkRqSectors, blkRqBytes,
      data] at anchors
    split at anchors
    · exact (BitVec.add_left_inj _).mp anchors
    · exact anchors
  · have sameFailfast : c.failfast = b.failfast := congrArg (·.2.2.2) sameBio
    rw [one.failfast c cs there, other.failfast b bs here, sameFailfast]

/- Where whole sectors are completed, only their number counts: the request stands as one
call for all of them would leave it, and a request with data left ends where it ended. -/
theorem completionsAdd (rules : BioRules core) {parts : List Part} {s t : Ending} {nrBytes : BitVec 32}
    (some' : parts ≠ []) (lengths : lengthsAgree s.first.rq) (whole : WholeSectors s.first)
    (units : ∀ p ∈ parts, 512 ∣ p.nrBytes.toNat) (sum : nrBytes.toNat = bytesAsked parts)
    (ran : exec (endStep core) s parts = some t) :
    t.first.rq.bio.map bare = (blkUpdateRequest core s.first 0 nrBytes).1.rq.bio.map bare ∧
    t.first.rq.dataLen = (blkUpdateRequest core s.first 0 nrBytes).1.rq.dataLen ∧
    (t.first.rq.bio ≠ [] →
      t.first.rq.sector = (blkUpdateRequest core s.first 0 nrBytes).1.rq.sector ∧
      t.first.rq.failfast = (blkUpdateRequest core s.first 0 nrBytes).1.rq.failfast ∧
      (s.first.rq.cmdType = .fs → rqEndSector t.first.rq.toRequest = rqEndSector s.first.rq.toRequest)) := by
  have run := alongRun core rules some' lengths whole units ran
  have asked : 512 ∣ nrBytes.toNat := sum ▸ askedUnits units
  have once := alongOne core rules lengths whole 0 asked
  rw [sum] at once
  obtain ⟨bios, data, rest⟩ := alongSame run once
  refine ⟨bios, data, fun left => ?_⟩
  have left' : (blkUpdateRequest core s.first 0 nrBytes).1.rq.bio ≠ [] := fun none => by
    rw [none] at bios
    exact left (List.map_eq_nil_iff.mp bios)
  obtain ⟨sector, failfast⟩ := rest left'
  refine ⟨sector, failfast, fun fs => ?_⟩
  have anchors := run.anchor left
  simp only [anchor, run.cmdType, fs, if_true] at anchors
  exact anchors

theorem cutSecondAdds : ∃ t, exec (endStep oneSegment) ⟨twoBios false, none, []⟩ [⟨0, 512, 0⟩, ⟨-5, 512, 0⟩] = some t ∧
    t.first.rq.bio.map bare = (blkUpdateRequest oneSegment (twoBios false) 0 1024).1.rq.bio.map bare ∧
    t.first.rq.dataLen = (blkUpdateRequest oneSegment (twoBios false) 0 1024).1.rq.dataLen :=
  have ran : exec (endStep oneSegment) ⟨twoBios false, none, []⟩ [⟨0, 512, 0⟩, ⟨-5, 512, 0⟩] = some _ := rfl
  have sum : (1024 : BitVec 32).toNat = bytesAsked [⟨0, 512, 0⟩, ⟨-5, 512, 0⟩] := rfl
  have added := completionsAdd oneSegment oneSegmentRules (s := ⟨twoBios false, none, []⟩)
    (List.cons_ne_nil _ _) rfl
    ⟨by decide, by decide, by decide⟩ (by decide) sum ran
  ⟨_, rfl, added.1, added.2.1⟩

/- A request is done by a call for all its bytes unless its last bio, of several, is empty. -/
def endsAtOnce (bios : List Bio) : Prop := bios.length ≤ 1 ∨ ∃ b, bios.getLast? = some b ∧ b.biSize ≠ 0

theorem updateAll (rules : BioRules core) {s : Completing} (lengths : lengthsAgree s.rq) (error : Int) :
    (blkUpdateRequest core s error (blkRqBytes s.rq.toRequest)).1.rq.bio = [] ↔ endsAtOnce s.rq.bio := by
  by_cases empty : s.rq.bio = []
  · rw [updateIdle core empty]
    exact ⟨fun _ => Or.inl (by rw [empty]; exact Nat.zero_le 1), fun _ => empty⟩
  · rw [(updateTaken core error _ rules lengths empty).bio]
    have eaten := roundChunks rules Bio.addr 1 s.rq.quiet s.rq.flushSeq error s.rq.bio
      (blkRqBytes s.rq.toRequest)
      (fun b _ n _ _ => endioAddr rules ..) (fun b _ => Nat.one_dvd _) (Nat.one_dvd _)
    rw [show (blkRqBytes s.rq.toRequest).toNat = total (bioChunks Bio.addr s.rq.bio) from lengths] at eaten
    have all := eatAll (bioChunks Bio.addr s.rq.bio)
    rw [← eaten, bioChunks, List.map_eq_nil_iff, bioChunks, List.length_map, List.getLast?_map] at all
    refine all.trans (or_congr Iff.rfl ?_)
    constructor
    · rintro ⟨c, last, some'⟩
      obtain ⟨b, isLast, rfl⟩ := Option.map_eq_some_iff.mp last
      refine ⟨b, isLast, fun zero => ?_⟩
      simp only [Bio.chunk, zero] at some'
      exact absurd some' (by decide)
    · rintro ⟨b, isLast, nonzero⟩
      exact ⟨b.chunk Bio.addr, by rw [isLast]; rfl,
        Nat.pos_of_ne_zero (fun zero => nonzero (BitVec.toNat_inj.mp zero))⟩

/- `BUG_ON(pending)` of `blk_end_request_all`, for a request with or without a partner. -/
theorem endAllPends (rules : BioRules core) {s : Ending} (error : Int)
    (lengths : lengthsAgree s.first.rq) (nextLengths : ∀ next, s.next = some next → lengthsAgree next.rq) :
    blkEndRequestAll core s error = none ↔
      ¬ endsAtOnce s.first.rq.bio ∨ ∃ next, s.next = some next ∧ ¬ endsAtOnce next.rq.bio := by
  have first := updateAll core rules lengths error
  cases found : s.next with
  | none =>
    obtain ⟨u, rfl, ⟨left, same⟩ | ⟨done, none, same⟩ | ⟨next, some', -⟩⟩ :=
      endBidiCases core s error (blkRqBytes s.first.rq.toRequest) 0
    · simp only [blkEndRequestAll, found, same, if_true, true_iff]
      exact Or.inl (fun ends => left (first.mpr ends))
    · simp only [blkEndRequestAll, found, same, Bool.false_eq_true, if_false, reduceCtorEq, false_and,
        exists_false, or_false, false_iff, not_not]
      exact first.mp done
    · rw [found] at some'
      contradiction
  | some partner =>
    have second := updateAll core rules (nextLengths partner found) error
    obtain ⟨u, rfl, ⟨left, same⟩ | ⟨done, none, same⟩ |
        ⟨next, some', done, ⟨left, same⟩ | ⟨doneNext, same⟩⟩⟩ :=
      endBidiCases core s error (blkRqBytes s.first.rq.toRequest) (blkRqBytes partner.rq.toRequest)
    · simp only [blkEndRequestAll, found, same, if_true, true_iff]
      exact Or.inl (fun ends => left (first.mpr ends))
    · rw [found] at none
      contradiction
    · cases Option.some.inj (found.symm.trans some')
      simp only [blkEndRequestAll, found, same, if_true, true_iff]
      exact Or.inr ⟨partner, rfl, fun ends => left (second.mpr ends)⟩
    · cases Option.some.inj (found.symm.trans some')
      simp [blkEndRequestAll, found, same, first.mp done, second.mp doneNext]

theorem endAllDone : blkEndRequestAll oneSegment ⟨twoBios false, none, []⟩ 0 ≠ none :=
  fun bug => ((endAllPends oneSegment oneSegmentRules (s := ⟨twoBios false, none, []⟩) 0 rfl
    (fun _ found => absurd found (by simp))).mp bug).elim
      (fun stuck => stuck (Or.inr ⟨⟨2, 9, 1024, 0, 0, false⟩, rfl, by decide⟩))
      (fun ⟨_, found, _⟩ => absurd found (by simp))

/- The bios a failing call may end: as eager to fail as the first one. -/
def failed (rq : BioRequest) : List Bio :=
  if rq.mixedMerge then rq.bio.takeWhile (coversFailfast rq.failfast) else rq.bio

def retried (rq : BioRequest) : List Bio :=
  if rq.mixedMerge then rq.bio.dropWhile (coversFailfast rq.failfast) else []

theorem failedRetried (rq : BioRequest) : failed rq ++ retried rq = rq.bio := by
  simp only [failed, retried]
  split
  · exact List.takeWhile_append_dropWhile
  · exact List.append_nil rq.bio

/- The mixed attributes of the request follow its first bio. -/
def followsFirst (rq : BioRequest) : Prop :=
  rq.mixedMerge = true → ∀ b rest, rq.bio = b :: rest → coversFailfast rq.failfast b = true

theorem failBytesTotal (ff : BitVec 3) (bios : List Bio) (bytes : BitVec 32)
    (fits : bytes.toNat + bioTotal bios < 2 ^ 32) :
    (failBytes ff bios bytes).toNat = bytes.toNat + bioTotal (bios.takeWhile (coversFailfast ff)) := by
  induction bios generalizing bytes with
  | nil => rfl
  | cons b rest ih =>
    rw [bioTotalCons] at fits
    simp only [failBytes, List.takeWhile_cons]
    split
    · have here : (bytes + b.biSize).toNat = bytes.toNat + b.biSize.toNat := by
        rw [BitVec.toNat_add]
        omega
      rw [ih (bytes + b.biSize) (by omega), here, bioTotalCons]
      omega
    · rfl

/- A call for exactly the bytes of the first bios ends these and leaves the others alone. -/
theorem roundWhole (rules : BioRules core) (quiet flushSeq : Bool) (error : Int) {done : List Bio} (left : List Bio)
    {nrBytes : BitVec 32} (some' : done ≠ []) (solid : ∀ b ∈ done, b.biSize ≠ 0) (exact' : nrBytes.toNat = bioTotal done) :
    (completeBios core quiet flushSeq error (done ++ left) nrBytes).bio = left ∧
      (completeBios core quiet flushSeq error (done ++ left) nrBytes).ended =
        if flushSeq then [] else done.map (fun b => reqBioEndio core quiet b b.biSize error) := by
  induction done generalizing nrBytes with
  | nil => exact absurd rfl some'
  | cons b rest ih =>
    rw [bioTotalCons] at exact'
    have covered : b.biSize ≤ nrBytes := BitVec.le_def.mpr (by omega)
    have rest' := sizeLe covered
    cases rest with
    | nil =>
      have none : nrBytes - b.biSize = 0 := BitVec.toNat_inj.mp (by
        rw [rest', exact']
        simp [bioTotal, bioChunks, total])
      rw [List.singleton_append, roundUsed rules covered none]
      refine ⟨rfl, ?_⟩
      cases flushSeq <;> rfl
    | cons c cs =>
      have nonzero : c.biSize.toNat ≠ 0 := fun zero =>
        solid c (by simp) (BitVec.toNat_inj.mp zero)
      have more : nrBytes - b.biSize ≠ 0 := fun zero => by
        have empty : nrBytes.toNat - b.biSize.toNat = 0 := by rw [← rest', zero]; rfl
        rw [bioTotalCons] at exact'
        omega
      rw [List.cons_append, roundOn rules covered more]
      obtain ⟨bios, ended⟩ := ih (List.cons_ne_nil c cs)
        (fun x member => solid x (List.mem_cons_of_mem b member))
        (show (nrBytes - b.biSize).toNat = _ by rw [rest', exact']; omega)
      refine ⟨bios, ?_⟩
      rw [ended]
      cases flushSeq <;> rfl

def errStep (s : Ending) (error : Int) : Option Ending :=
  if s.finished = [] then (blkEndRequestErr core s error).map Prod.fst else none

/- What callers that fail a request piece by piece rely on, before each of their calls. -/
structure Failing (s : Ending) : Prop where
  lengths : lengthsAgree s.first.rq
  solid : ∀ b ∈ s.first.rq.bio, b.biSize ≠ 0
  follows : followsFirst s.first.rq
  bios : s.first.rq.bio ≠ []
  alone : s.next = none
  unfinished : s.finished = []

theorem failedSome {rq : BioRequest} (follows : followsFirst rq) (bios : rq.bio ≠ []) : failed rq ≠ [] := by
  obtain ⟨b, rest, here⟩ := List.exists_cons_of_ne_nil bios
  simp only [failed]
  split
  · rename_i mixed
    simp [here, follows mixed b rest here]
  · exact bios

theorem errBytes {rq : BioRequest} (lengths : lengthsAgree rq) (solid : ∀ b ∈ rq.bio, b.biSize ≠ 0)
    (follows : followsFirst rq) (bios : rq.bio ≠ []) :
    ∃ bytes, blkRqErrBytes rq = some bytes ∧ bytes.toNat = bioTotal (failed rq) := by
  have fits : bioTotal rq.bio < 2 ^ 32 := by rw [← lengths]; exact rq.dataLen.isLt
  simp only [blkRqErrBytes, failed]
  by_cases mixed : rq.mixedMerge = true
  · have bytes := failBytesTotal rq.failfast rq.bio 0 (by simpa using fits)
    rw [BitVec.ofNat_eq_ofNat, BitVec.toNat_ofNat, Nat.zero_mod, Nat.zero_add] at bytes
    have positive : failBytes rq.failfast rq.bio 0 ≠ 0 := fun zero => by
      obtain ⟨b, rest, here⟩ := List.exists_cons_of_ne_nil bios
      have nonzero : b.biSize.toNat ≠ 0 := fun none =>
        solid b (here ▸ List.mem_cons_self ..) (BitVec.toNat_inj.mp none)
      rw [here, List.takeWhile_cons, if_pos (follows mixed b rest here), bioTotalCons, ← here] at bytes
      have none := congrArg BitVec.toNat zero
      simp only [BitVec.ofNat_eq_ofNat, BitVec.toNat_ofNat, Nat.zero_mod] at none bytes
      omega
    refine ⟨failBytes rq.failfast rq.bio 0, ?_, by rw [if_pos mixed]; exact bytes⟩
    rw [if_neg (by rw [mixed]; exact Bool.false_ne_true), if_neg (fun bug => positive bug.2)]
  · refine ⟨_, by rw [if_pos (by simpa using mixed)], ?_⟩
    rw [if_neg mixed]
    exact lengths

/- One failing call: it never trips the `BUG_ON`, ends exactly the bios up to the first one
that is less eager to fail, and leaves the callers' assumptions for the next call. -/
theorem errRound (rules : BioRules core) {s : Ending} (failing : Failing s) (error : Int) :
    ∃ t, errStep core s error = some t ∧ t.first.rq.bio = retried s.first.rq ∧
      t.first.rq.quiet = s.first.rq.quiet ∧ t.first.rq.flushSeq = s.first.rq.flushSeq ∧
      t.first.ended = s.first.ended ++ (if s.first.rq.flushSeq then [] else
        (failed s.first.rq).map (fun b => reqBioEndio core s.first.rq.quiet b b.biSize error)) ∧
      ((retried s.first.rq = [] ∧ t.finished = [error]) ∨ Failing t) := by
  obtain ⟨bytes, found, exact'⟩ := errBytes failing.lengths failing.solid failing.follows failing.bios
  have updated := updateTaken core error bytes rules failing.lengths failing.bios
  have solid : ∀ b ∈ failed s.first.rq, b.biSize ≠ 0 := fun b member =>
    failing.solid b (failedRetried s.first.rq ▸ List.mem_append_left _ member)
  obtain ⟨bios, ended⟩ := roundWhole core rules s.first.rq.quiet s.first.rq.flushSeq error
    (retried s.first.rq) (failedSome failing.follows failing.bios) solid exact'
  rw [failedRetried] at bios ended
  have left : (blkUpdateRequest core s.first error bytes).1.rq.bio = retried s.first.rq :=
    updated.bio.trans bios
  have logged := updated.ended
  rw [roundOf, ended] at logged
  obtain ⟨u, rfl, ⟨more, same⟩ | ⟨done, none, same⟩ | ⟨next, some', -⟩⟩ :=
    endBidiCases core s error bytes 0
  · refine ⟨_, by rw [errStep, if_pos failing.unfinished, blkEndRequestErr, found, Option.map_some,
      blkEndRequest, same]; rfl, left, updated.quiet, updated.flushSeq, logged, Or.inr ?_⟩
    refine ⟨updated.lengths, fun b member => ?_, fun mixed b rest here => ?_, more, failing.alone,
      failing.unfinished⟩
    · exact failing.solid b (failedRetried s.first.rq ▸ List.mem_append_right _ (left ▸ member))
    · have first := updated.failfast b rest here
      rw [updated.mixed] at mixed
      rw [if_pos mixed] at first
      show coversFailfast (blkUpdateRequest core s.first error bytes).1.rq.failfast b = true
      rw [first, coversFailfast, BitVec.and_self, beq_self_eq_true]
  · refine ⟨_, by rw [errStep, if_pos failing.unfinished, blkEndRequestErr, found, Option.map_some,
      blkEndRequest, same]; rfl, left, updated.quiet, updated.flushSeq, logged, Or.inl ⟨left ▸ done, ?_⟩⟩
    exact congrArg (· ++ [error]) failing.unfinished
  · rw [failing.alone] at some'
    contradiction

/- Failing a request piece by piece comes to an end: no more calls than bios, each bio ended
once and with the error, and every call stops at the failure boundary. -/
theorem errLoopEnds (rules : BioRules core) {s : Ending} (failing : Failing s) (error : Int) :
    ∃ calls t, calls ≤ s.first.rq.bio.length ∧
      exec (errStep core) s (List.replicate calls error) = some t ∧
      t.finished = [error] ∧ t.first.rq.bio = [] ∧
      t.first.ended = s.first.ended ++ (if s.first.rq.flushSeq then [] else
        s.first.rq.bio.map (fun b => reqBioEndio core s.first.rq.quiet b b.biSize error)) ∧
      EachStep (errStep core) (fun u _ v => v.first.rq.bio = retried u.first.rq) s
        (List.replicate calls error) := by
  -- On the number of bios left: every call ends at least the first of them.
  generalize size : s.first.rq.bio.length = left
  induction left using Nat.strongRecOn generalizing s with
  | ind left ih =>
    subst size
    obtain ⟨t, taken, bios, quiet, flushSeq, ended, ⟨none, finished⟩ | again⟩ :=
      errRound core rules failing error
    · have all : failed s.first.rq = s.first.rq.bio := by
        have whole := failedRetried s.first.rq
        rwa [none, List.append_nil] at whole
      refine ⟨1, t, List.length_pos_iff.mpr failing.bios, ?_, finished, bios.trans none, ?_, ?_⟩
      · exact execCons taken []
      · rw [ended, all]
      · intro v here
        cases Option.some.inj (taken.symm.trans here)
        exact ⟨bios, trivial⟩
    · have fewer : t.first.rq.bio.length < s.first.rq.bio.length := by
        have whole := congrArg List.length (failedRetried s.first.rq)
        have some' := List.length_pos_iff.mpr (failedSome failing.follows failing.bios)
        rw [List.length_append] at whole
        rw [bios]
        omega
      obtain ⟨calls, u, few, ran, finished, nothing, logged, each⟩ := ih _ fewer again rfl
      refine ⟨calls + 1, u, by omega, ?_, finished, nothing, ?_, ?_⟩
      · rw [List.replicate_succ, execCons taken]
        exact ran
      · rw [logged, ended, quiet, flushSeq, bios, List.append_assoc]
        congr 1
        rw [← failedRetried s.first.rq, List.map_append]
        cases s.first.rq.flushSeq <;> rfl
      · rw [List.replicate_succ]
        intro v here
        cases Option.some.inj (taken.symm.trans here)
        exact ⟨bios, each⟩

theorem mixedTwoFail : ∃ calls t, calls ≤ 2 ∧
    exec (errStep oneSegment) ⟨twoBios true, none, []⟩ (List.replicate calls (-5)) = some t ∧ t.finished = [-5] :=
  have failing : Failing ⟨twoBios true, none, []⟩ := {
    lengths := rfl
    solid := by decide
    follows := fun _ b rest here => by
      cases here
      rfl
    bios := List.cons_ne_nil _ _
    alone := rfl
    unfinished := rfl }
  have ⟨calls, t, few, ran, finished, _⟩ := errLoopEnds oneSegment oneSegmentRules failing (-5)
  ⟨calls, t, few, ran, finished⟩

end KernelLabs.PartialCompletion
