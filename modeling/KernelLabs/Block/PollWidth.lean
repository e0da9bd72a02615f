import KernelLabs.Block.Tester

/-! The width of the polled counter. `reqs` is a `long` and the system call fills an
`int`'s worth of it, so the upper half keeps what the stack held when `main` started.
Where that is zero the program is the one of `Tester`, step by step. -/
namespace KernelLabs.PollWidth
open Block Buffer Runs RequestLog Tester

/- The bytes the system call does not reach. -/
def highHalf (reqs : BitVec 64) : BitVec 32 := reqs.extractLsb' 32 32

/- `copy_to_user` of `sizeof(int)` bytes to a `long`, least significant byte first. -/
def getThings (reqs : BitVec 64) (requestsSeen : BitVec 32) : BitVec 64 := highHalf reqs ++ requestsSeen

/- `polled` is the counter's true value at the last poll. -/
structure Program where
  kernel : Observed
  pc : Pc
  reqs : BitVec 64
  polled : Nat
  started : Bool
  data : Option (List ReqStuff)
  firstSeen : Option Nat

/- As in `Tester`, with the comparisons of a signed `long`. -/
def main (s : Program) : Option Program :=
  match s.pc with
  | .initThings => some {s with kernel := syscall s.kernel .startReqTrack, pc := .getThings}
  | .getThings => some {s with
      kernel := syscall s.kernel .getRequestsSeen,
      reqs := getThings s.reqs (getRequestsSeen s.kernel.track),
      polled := (getRequestsSeen s.kernel.track).toNat, pc := .started}
  | .started =>
      if !s.started && decide (s.reqs.toInt > 500) then
        some {s with started := true, firstSeen := some s.polled, pc := .initAgain}
      else some {s with pc := .whileTest}
  | .initAgain => some {s with kernel := syscall s.kernel .startReqTrack, pc := .whileTest}
  | .whileTest => some {s with pc := if s.reqs.toInt < reqsRequested then .getThings else .endThings}
  | .endThings => some {s with
      kernel := syscall s.kernel .endReqTrack,
      data := some (endReqTrack s.kernel.track).2, pc := .print}
  | .print => none

def step (s : Program) : Tester.Op → Option Program
  | .main => main s
  | .finish now pid req => some {s with kernel := syscall s.kernel (.finish now pid req)}

/- `reqs` is not initialised. -/
def initial (memory : ReqTrack) (reqs : BitVec 64) : Program :=
  ⟨RequestLog.initial memory, .initThings, reqs, 0, false, none, none⟩

/- Between a poll and the end of the loop body. -/
def Polled (pc : Pc) : Prop := pc = .started ∨ pc = .initAgain ∨ pc = .whileTest
instance (pc : Pc) : Decidable (Polled pc) := by unfold Polled; infer_instance

/- Both tests of the loop decide as they would on the counter itself. -/
def DecidesOnCount (s : Program) : Prop :=
  Polled s.pc → s.reqs.toInt = s.polled ∧ (s.reqs.toInt > 500 ↔ s.polled > 500) ∧
    (s.reqs.toInt < reqsRequested ↔ s.polled < reqsRequested)

theorem getThingsHigh (reqs : BitVec 64) (seen : BitVec 32) :
    highHalf (getThings reqs seen) = highHalf reqs := by
  unfold getThings
  generalize highHalf reqs = high
  apply BitVec.eq_of_toNat_eq
  rw [highHalf, BitVec.extractLsb'_toNat, BitVec.toNat_append,
    ← Nat.shiftLeft_add_eq_or_of_lt seen.isLt, Nat.shiftLeft_eq, Nat.shiftRight_eq_div_pow]
  have low := seen.isLt
  have bound := high.isLt
  omega

theorem getThingsInt (reqs : BitVec 64) (seen : BitVec 32) :
    (getThings reqs seen).toInt = 2 ^ 32 * (highHalf reqs).toInt + seen.toNat := by
  rw [getThings, BitVec.toInt_append]
  rfl

theorem getThingsExactIff (reqs : BitVec 64) (seen : BitVec 32) :
    (getThings reqs seen).toInt = seen.toNat ↔ highHalf reqs = 0 := by
  rw [getThingsInt, ← BitVec.toInt_inj]
  have zero : (0 : BitVec 32).toInt = 0 := rfl
  rw [zero]
  omega

/- What is known of `reqs` in a run that started with an empty upper half. -/
structure Exact (s : Program) : Prop where
  high : highHalf s.reqs = 0
  counted : Polled s.pc → s.reqs.toInt = s.polled

theorem exactDecides {s : Program} (exact : Exact s) : DecidesOnCount s := by
  intro polled
  have counted := exact.counted polled
  refine ⟨counted, ?_, ?_⟩
  · omega
  · omega

/- The program `Tester` is about, which reads the counter itself. -/
def narrow (s : Program) : Tester.Program := ⟨s.kernel, s.pc, s.polled, s.started, s.data, s.firstSeen⟩

theorem mainExact {s t : Program} (exact : Exact s) (taken : main s = some t) : Exact t := by
  unfold main at taken
  split at taken <;> rename_i pc
  · cases Option.some.inj taken
    exact ⟨exact.high, fun polled => absurd polled (show ¬ Polled .getThings by decide)⟩
  · cases Option.some.inj taken
    refine ⟨(getThingsHigh ..).trans exact.high, fun _ => ?_⟩
    exact (getThingsExactIff ..).mpr exact.high
  · have counted := exact.counted (by rw [pc]; decide)
    split at taken
    · cases Option.some.inj taken
      exact ⟨exact.high, fun _ => counted⟩
    · cases Option.some.inj taken
      exact ⟨exact.high, fun _ => counted⟩
  · have counted := exact.counted (by rw [pc]; decide)
    cases Option.some.inj taken
    exact ⟨exact.high, fun _ => counted⟩
  · have counted := exact.counted (by rw [pc]; decide)
    cases Option.some.inj taken
    exact ⟨exact.high, fun _ => counted⟩
  · cases Option.some.inj taken
    exact ⟨exact.high, fun polled => absurd polled (show ¬ Polled .print by decide)⟩
  · contradiction

theorem stepExact {s t : Program} {op : Tester.Op} (exact : Exact s) (taken : step s op = some t) :
    Exact t := by
  cases op with
  | main => exact mainExact exact taken
  | finish now pid req =>
    cases Option.some.inj taken
    exact ⟨exact.high, exact.counted⟩

/- With the upper half empty, every step is a step of the program read as exact. -/
theorem stepNarrow {s : Program} (exact : Exact s) (op : Tester.Op) :
    (step s op).map narrow = Tester.step (narrow s) op := by
  cases op with
  | finish now pid req => rfl
  | main =>
    obtain ⟨kernel, pc, reqs, polled, started, data, firstSeen⟩ := s
    cases pc with
    | initThings | getThings | initAgain | endThings | print => rfl
    | started =>
      obtain ⟨_, first, _⟩ := exactDecides exact (show Polled .started by decide)
      have same : decide (reqs.toInt > 500) = decide (polled > 500) := decide_eq_decide.mpr first
      simp only [step, main, Tester.step, Tester.main, narrow]
      rw [same, apply_ite (Option.map narrow)]
      rfl
    | whileTest =>
      obtain ⟨_, _, last⟩ := exactDecides exact (show Polled .whileTest by decide)
      have last : reqs.toInt < reqsRequested ↔ polled < reqsRequested := last
      simp only [step, main, Tester.step, Tester.main, narrow, last]
      rfl

theorem runNarrow {s t : Program} {ops : List Tester.Op} (exact : Exact s)
    (ran : exec step s ops = some t) : exec Tester.step (narrow s) ops = some (narrow t) := by
  induction ops generalizing s with
  | nil =>
    cases Option.some.inj ran
    rfl
  | cons op ops ih =>
    obtain ⟨u, taken, rest⟩ := execConsSome ran
    have same := stepNarrow exact op
    rw [taken, Option.map_some] at same
    rw [execCons same.symm]
    exact ih (stepExact exact taken) rest

/- One poll, and the whole loop: both are exact if and only if nothing was left in the
upper half. -/
theorem pollsExactIff (memory : ReqTrack) (reqs : BitVec 64) (seen : BitVec 32) :
    ((getThings reqs seen).toInt = seen.toNat ↔ highHalf reqs = 0) ∧
    ((∀ ops, EachState step DecidesOnCount (initial memory reqs) ops) ↔ highHalf reqs = 0) := by
  refine ⟨getThingsExactIff reqs seen, ?_, ?_⟩
  · intro each
    have polled := eachStateLast (each [.main, .main]) rfl (Or.inl rfl)
    exact (getThingsExactIff reqs _).mp polled.1
  · intro high ops
    have start : Exact (initial memory reqs) := ⟨high, fun polled => absurd polled (show ¬ Polled .initThings by decide)⟩
    exact eachStateInvariant (fun _ _ _ => stepExact) (fun _ => exactDecides) start ops

/- A byte left in the upper half: the first poll reads more than 500 and the loop ends. -/
theorem leftoverEndsLoop : (getThings 0x100000000 0).toInt = 4294967296 ∧
    ∃ t, exec step (initial bootTrack 0x100000000)
        [.main, .main, .main, .main, .main, .main] = some t ∧
      t.polled = 0 ∧ t.data = some [] ∧
      ¬ EachState step DecidesOnCount (initial bootTrack 0x100000000) [.main, .main] := by
  refine ⟨by decide, _, rfl, rfl, rfl, ?_⟩
  intro each
  have polled := eachStateLast each rfl (Or.inl rfl)
  exact absurd polled.1 (by decide)

end KernelLabs.PollWidth
