import KernelLabs.Block.RequestLog

/-! The measuring program against the completions of the kernel. Its loop tests the
count it read before it may have reset the counter, so what the poll that triggers
the reset had read decides whether the loop waits for the log to fill. -/
namespace KernelLabs.Tester
open Block Buffer Runs RequestLog

/- The statement `main` is about to execute, named for the call or the test it makes. -/
inductive Pc where
  | initThings | getThings | started | initAgain | whileTest | endThings | print
  deriving DecidableEq, Repr

/- `firstSeen` is the count read by the poll that triggered the second `init_things`. -/
structure Program where
  kernel : Observed
  pc : Pc
  reqs : Nat
  started : Bool
  data : Option (List ReqStuff)
  firstSeen : Option Nat

def syscall (k : Observed) (op : RequestLog.Op) : Observed := ⟨track k.track op, k.log.track op⟩

/- The parent's side of `main`, up to the table it prints. -/
def main (s : Program) : Option Program :=
  match s.pc with
  | .initThings => some {s with kernel := syscall s.kernel .startReqTrack, pc := .getThings}
  | .getThings => some {s with
      kernel := syscall s.kernel .getRequestsSeen,
      reqs := (getRequestsSeen s.kernel.track).toNat, pc := .started}
  | .started =>
      if !s.started && decide (s.reqs > 500) then
        some {s with started := true, firstSeen := some s.reqs, pc := .initAgain}
      else some {s with pc := .whileTest}
  | .initAgain => some {s with kernel := syscall s.kernel .startReqTrack, pc := .whileTest}
  | .whileTest => some {s with pc := if s.reqs < reqsRequested then .getThings else .endThings}
  | .endThings => some {s with
      kernel := syscall s.kernel .endReqTrack,
      data := some (endReqTrack s.kernel.track).2, pc := .print}
  | .print => none

inductive Op where
  | main
  | finish (now : Timespec) (pid : Int) (req : Request)
  deriving DecidableEq, Repr

def step (s : Program) : Op → Option Program
  | .main => main s
  | .finish now pid req => some {s with kernel := syscall s.kernel (.finish now pid req)}

def initial (memory : ReqTrack) (reqs : Nat) : Program :=
  ⟨RequestLog.initial memory, .initThings, reqs, false, none, none⟩

/- What was copied is a full table of requests completed since the last reset. -/
def Complete (s : Program) : Prop :=
  ∀ data, s.data = some data → data.length = reqsRequested ∧ data <+: s.kernel.log.done

/- If the triggering poll had already seen enough, enough have completed again. -/
def EnoughAgain (s : Program) : Prop :=
  ∀ seen, s.firstSeen = some seen → reqsRequested ≤ seen → reqsRequested ≤ s.kernel.log.done.length

def CompleteIff (s : Program) : Prop := s.pc = .print → (Complete s ↔ EnoughAgain s)

/- Why the loop may have been left. -/
def Enough (s : Program) : Prop :=
  reqsRequested ≤ s.kernel.log.done.length ∨ ∃ seen, s.firstSeen = some seen ∧ reqsRequested ≤ seen

/- What is known of the count in `reqs` at each statement. -/
def Polled (s : Program) : Prop :=
  match s.pc with
  | .initThings | .getThings => True
  | .started => s.reqs ≤ s.kernel.log.done.length
  | .initAgain => s.firstSeen = some s.reqs
  | .whileTest => s.reqs ≤ s.kernel.log.done.length ∨ s.firstSeen = some s.reqs
  | .endThings => Enough s
  | .print => Enough s ∧ s.kernel.log.on = false ∧ s.data = some (s.kernel.log.done.take reqsRecorded)

structure Measured (s : Program) : Prop where
  refines : Refines s.kernel.track s.kernel.log
  polled : Polled s

theorem syscallRefines {k : Observed} (refines : Refines k.track k.log) (op : RequestLog.Op) :
    Refines (syscall k op).track (syscall k op).log := trackRefines refines op

theorem mainMeasured {s t : Program} (measured : Measured s) (taken : main s = some t) : Measured t := by
  obtain ⟨refines, polled⟩ := measured
  unfold main at taken
  unfold Polled at polled
  split at taken <;> rename_i pc <;> simp only [pc] at polled <;> try contradiction
  · cases Option.some.inj taken
    exact ⟨syscallRefines refines .startReqTrack, trivial⟩
  · cases Option.some.inj taken
    refine ⟨syscallRefines refines .getRequestsSeen, ?_⟩
    change (getRequestsSeen s.kernel.track).toNat ≤ s.kernel.log.done.length
    rw [getRequestsSeen, refinesSeen refines]
    exact Nat.min_le_right ..
  · split at taken
    · cases Option.some.inj taken
      exact ⟨refines, rfl⟩
    · cases Option.some.inj taken
      exact ⟨refines, Or.inl polled⟩
  · cases Option.some.inj taken
    exact ⟨syscallRefines refines .startReqTrack, Or.inr polled⟩
  · cases Option.some.inj taken
    refine ⟨refines, ?_⟩
    by_cases more : s.reqs < reqsRequested
    · rw [if_pos more]; trivial
    · rw [if_neg more]
      have enough := Nat.not_lt.mp more
      rcases polled with counted | trigger
      · exact Or.inl (Nat.le_trans enough counted)
      · exact Or.inr ⟨s.reqs, trigger, enough⟩
  · cases Option.some.inj taken
    refine ⟨syscallRefines refines .endReqTrack, polled, rfl, ?_⟩
    exact congrArg some refines.stored

/- Completions lengthen the log, and no longer once recording is off. -/
theorem finishLog (k : Observed) (now : Timespec) (pid : Int) (req : Request) :
    k.log.done.length ≤ (syscall k (.finish now pid req)).log.done.length ∧
    (k.log.on = false → (syscall k (.finish now pid req)).log = k.log) := by
  simp only [syscall, Log.track]
  split
  · rename_i recorded
    refine ⟨by simp, ?_⟩
    intro off
    simp [off] at recorded
  · exact ⟨Nat.le_refl _, fun _ => rfl⟩

theorem finishMeasured {s : Program} (measured : Measured s) (now : Timespec) (pid : Int) (req : Request) :
    Measured {s with kernel := syscall s.kernel (.finish now pid req)} := by
  obtain ⟨refines, polled⟩ := measured
  obtain ⟨longer, off⟩ := finishLog s.kernel now pid req
  refine ⟨syscallRefines refines _, ?_⟩
  unfold Polled at polled ⊢
  dsimp only
  have enough : Enough s → Enough {s with kernel := syscall s.kernel (.finish now pid req)} :=
    fun is => is.imp_left (Nat.le_trans · longer)
  cases pc : s.pc <;> simp only [pc] at polled ⊢
  · exact Nat.le_trans polled longer
  · exact polled
  · exact polled.imp_left (Nat.le_trans · longer)
  · exact enough polled
  · rw [off polled.2.1]
    exact ⟨enough polled.1, polled.2⟩

theorem stepMeasured {s t : Program} {op : Op} (measured : Measured s) (taken : step s op = some t) :
    Measured t := by
  cases op with
  | main => exact mainMeasured measured taken
  | finish now pid req =>
    cases Option.some.inj taken
    exact finishMeasured measured now pid req

theorem measuredIff {s : Program} (measured : Measured s) : CompleteIff s := by
  intro pc
  have polled := measured.polled
  unfold Polled at polled
  simp only [pc] at polled
  obtain ⟨enough, _, copied⟩ := polled
  constructor
  · intro complete seen _ _
    have full := (complete _ copied).1
    rw [List.length_take] at full
    have : reqsRecorded = reqsRequested := rfl
    omega
  · intro again data same
    have long : reqsRequested ≤ s.kernel.log.done.length := by
      rcases enough with long | ⟨seen, trigger, already⟩
      · exact long
      · exact again seen trigger already
    cases Option.some.inj (copied.symm.trans same)
    exact ⟨List.length_take_of_le long, List.take_prefix ..⟩

theorem initialMeasured (memory : ReqTrack) (reqs : Nat) : Measured (initial memory reqs) where
  refines := initialRefines memory
  polled := trivial

theorem runCompleteIff (memory : ReqTrack) (reqs : Nat) (ops : List Op) :
    EachState step CompleteIff (initial memory reqs) ops :=
  eachStateInvariant (fun _ _ _ => stepMeasured) (fun _ => measuredIff) (initialMeasured memory reqs) ops

def completion : Request := ⟨8, 512, .fs, ⟨true, false, false, true, true, false⟩, ⟨1, 1⟩, ⟨2, 1⟩⟩

/- A burst of completions while `main` does not move. -/
theorem burst (n : Nat) {s : Program} (on : s.kernel.log.on = true) :
    ∃ k, exec step s (List.replicate n (.finish ⟨3, 1⟩ 7 completion)) = some {s with kernel := k} ∧
      k.log.done.length = s.kernel.log.done.length + n := by
  induction n generalizing s with
  | zero => exact ⟨s.kernel, rfl, rfl⟩
  | succ n ih =>
    let next : Program := {s with kernel := syscall s.kernel (.finish ⟨3, 1⟩ 7 completion)}
    have logged : next.kernel.log =
        ⟨s.kernel.log.on, s.kernel.log.done ++ [entryOf ⟨3, 1⟩ 7 completion]⟩ := by
      simp only [next, syscall, Log.track, on]; rfl
    obtain ⟨k, ran, length⟩ := ih (s := next) (by rw [logged]; exact on)
    refine ⟨k, ?_, ?_⟩
    · rw [List.replicate_succ, execCons (t := next) rfl]; exact ran
    · rw [length, logged, List.length_append, List.length_singleton]
      omega

/- From a full log, `main` resets the counter and leaves the loop at once. -/
theorem fullThenEmpty {s : Program} (pc : s.pc = .getThings) (unstarted : s.started = false)
    (full : s.kernel.track.requestsSeen.toNat = reqsRecorded) :
    ∃ t, exec step s [.main, .main, .main, .main, .main] = some t ∧ t.pc = .print ∧ t.data = some [] := by
  obtain ⟨kernel, _, reqs, _, data, firstSeen⟩ := s
  cases pc
  cases unstarted
  have seen : (getRequestsSeen kernel.track).toNat = 19500 := full
  simp only [exec, step, main, seen, Option.bind_some]
  exact ⟨_, rfl, rfl, rfl⟩

def fullBeforeFirstPoll : List Op :=
  .main :: (List.replicate 19500 (.finish ⟨3, 1⟩ 7 completion) ++ [.main, .main, .main, .main, .main])

theorem nothingCopied :
    ¬ EachState step (fun s => s.pc = .print → Complete s) (initial bootTrack 0) fullBeforeFirstPoll := by
  intro each
  let polling : Program :=
    ⟨syscall (RequestLog.initial bootTrack) .startReqTrack, .getThings, 0, false, none, none⟩
  have begun : step (initial bootTrack 0) .main = some polling := rfl
  obtain ⟨k, filled, length⟩ := burst 19500 (s := polling) rfl
  have measured : Measured {polling with kernel := k} :=
    execInvariant (fun _ _ _ => stepMeasured) (mainMeasured (initialMeasured bootTrack 0) begun) filled
  have full : k.track.requestsSeen.toNat = reqsRecorded := by
    have none : polling.kernel.log.done.length = 0 := rfl
    rw [refinesSeen measured.refines, length, none, Nat.zero_add]
    exact Nat.min_self reqsRecorded
  obtain ⟨t, ran, pc, copied⟩ := fullThenEmpty (s := {polling with kernel := k}) rfl rfl full
  have reached : exec step (initial bootTrack 0) fullBeforeFirstPoll = some t := by
    rw [fullBeforeFirstPoll, execCons begun, execAppend, filled]; exact ran
  have complete := (eachStateLast each reached) pc
  exact absurd (complete [] copied).1 (by decide)

end KernelLabs.Tester
