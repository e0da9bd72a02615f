import KernelLabs.Smunch.ProcessTable
import KernelLabs.Smunch.CmpxchgReap

/-! Whole calls of the version of `smunch` that claims a zombie by compare and exchange,
over any process table: what each path answers, changes and leaves held. -/
namespace KernelLabs.CmpxchgCall
open Smunch Runs

/- The zombie goes to whoever's exchange finds it a zombie. -/
def reap (s : Kernel) (pid : Pid) (p : Task) : Int × Kernel :=
  let (found, p) := cmpxchgExitState p .exitZombie .exitDead
  if found ≠ .exitZombie then (-1, setTask s pid p) else (0, setTask s pid (releaseTask p))

/- With `claimed` another reaper's exchange comes between the test and this one's. `none`
while somebody else holds the sighand lock. -/
def smunch (s : Kernel) (pid : Pid) (bitPattern : BitVec 64) (claimed : Bool) : Option (Int × Kernel) :=
  let s := rcuReadLock s
  match findTask s pid with
  | none => some (-1, s)
  | some p =>
    if multiThreadOrTraced p then some (-1, s)
    else if killsZombie bitPattern p then
      some (reap s pid (if claimed then {p with exitState := .exitDead} else p))
    else
      (lockTaskSighand p caller).map fun (locked, p) =>
        let p := if locked then unlockTaskSighand {p with pending := bitPattern} else p
        (0, rcuReadUnlock (setTask s pid (wakeUpProcess p)))

/- Every path through a call. Only the last two come to `rcu_read_unlock`. -/
inductive Path (s : Kernel) (pid : Pid) (bitPattern : BitVec 64) : Bool → Int → Kernel → Prop where
  | missing {claimed : Bool} (none : findTask s pid = none) : Path s pid bitPattern claimed (-1) (rcuReadLock s)
  | refused {claimed : Bool} {p : Task} (found : findTask s pid = some p)
      (refuses : multiThreadOrTraced p = true) : Path s pid bitPattern claimed (-1) (rcuReadLock s)
  | lost {p : Task} (found : findTask s pid = some p) (single : multiThreadOrTraced p = false)
      (kills : killsZombie bitPattern p = true) :
      Path s pid bitPattern true (-1) (setTask (rcuReadLock s) pid (some {p with exitState := .exitDead}))
  | reaped {p : Task} (found : findTask s pid = some p) (single : multiThreadOrTraced p = false)
      (kills : killsZombie bitPattern p = true) :
      Path s pid bitPattern false 0
        (setTask (rcuReadLock s) pid (releaseTask {p with exitState := .exitDead}))
  | undelivered {claimed : Bool} {p : Task} (found : findTask s pid = some p)
      (single : multiThreadOrTraced p = false) (spares : killsZombie bitPattern p = false)
      (gone : p.sighand = false) : Path s pid bitPattern claimed 0 (setTask s pid (wakeUpProcess p))
  | delivered {claimed : Bool} {p : Task} (found : findTask s pid = some p)
      (single : multiThreadOrTraced p = false) (spares : killsZombie bitPattern p = false)
      (present : p.sighand = true) (free : p.siglock = none) :
      Path s pid bitPattern claimed 0 (setTask s pid (wakeUpProcess {p with pending := bitPattern}))

theorem reapLost {s : Kernel} {pid : Pid} {p : Task} (taken : p.exitState ≠ .exitZombie) :
    reap s pid p = (-1, setTask s pid p) := by
  rw [reap, cmpxchgExitState, if_neg taken]
  exact if_pos taken

theorem reapWon {s : Kernel} {pid : Pid} {p : Task} (zombie : p.exitState = .exitZombie) :
    reap s pid p = (0, setTask s pid (releaseTask {p with exitState := .exitDead})) := by
  rw [reap, cmpxchgExitState, if_pos zombie]
  exact if_neg (not_not.mpr zombie)

theorem smunchPath {s t : Kernel} {pid : Pid} {bitPattern : BitVec 64} {claimed : Bool} {ret : Int}
    (ran : smunch s pid bitPattern claimed = some (ret, t)) : Path s pid bitPattern claimed ret t := by
  unfold smunch at ran
  dsimp only at ran
  rw [findTaskLocked] at ran
  split at ran
  · rename_i none
    cases Option.some.inj ran
    exact .missing none
  · rename_i p found
    split at ran
    · rename_i refuses
      cases Option.some.inj ran
      exact .refused found refuses
    · rename_i single
      rw [Bool.not_eq_true] at single
      split at ran
      · rename_i kills
        cases claimed with
        | true =>
          rw [if_pos rfl, reapLost (show ExitState.exitDead ≠ .exitZombie by decide)] at ran
          cases Option.some.inj ran
          exact .lost found single kills
        | false =>
          rw [if_neg Bool.false_ne_true, reapWon (killsZombieIff.mp kills).2] at ran
          cases Option.some.inj ran
          exact .reaped found single kills
      · rename_i spares
        rw [Bool.not_eq_true] at spares
        rcases lockCases p with ⟨gone, lock⟩ | ⟨present, free, lock⟩ | ⟨_, _, lock⟩
        · rw [lock] at ran
          cases Option.some.inj ran
          exact .undelivered found single spares gone
        · rw [lock] at ran
          have path : Path s pid bitPattern claimed 0 _ := .delivered found single spares present free
          rw [← setUnderLock free] at path
          cases Option.some.inj ran
          exact path
        · rw [lock] at ran
          contradiction

/- Where the caller of the machine is, and what it finds. -/
def callerSees (m : CmpxchgReap.System) : CmpxchgReap.Pc × Task × Nat := (m.pc caller, m.task, m.rcu caller)

/- The statements of one caller of the machine, alone, make up a call. -/
theorem aloneSame {s t : Kernel} {pid : Pid} {bitPattern : BitVec 64} {ret : Int}
    (ran : smunch s pid bitPattern false = some (ret, t)) {m : CmpxchgReap.System}
    (entered : callerSees m = (.lookup, m.task, s.rcu)) (pattern : m.pattern caller = bitPattern)
    (task : s.tasks pid = some m.task) :
    ∃ n q, t.tasks pid = some q ∧
      (exec CmpxchgReap.step m (List.replicate n (.smunch caller))).map callerSees = some (.returned ret, q, t.rcu) := by
  simp only [callerSees, Prod.mk.injEq, true_and] at entered
  obtain ⟨lookup, rcu⟩ := entered
  have path := smunchPath ran
  cases path with
  | missing none =>
    have unhashed : m.task.hashed = false := by simpa [findTask, task] using none
    refine ⟨1, m.task, task, ?_⟩
    simp [exec, CmpxchgReap.step, CmpxchgReap.smunch, lookup, CmpxchgReap.System.goto, CmpxchgReap.System.nest,
      callerSees, unhashed, rcu, rcuReadLock]
  | @refused _ p found refuses =>
    obtain ⟨rfl, hashed⟩ := foundHere found task
    refine ⟨2, m.task, task, ?_⟩
    simp [exec, CmpxchgReap.step, CmpxchgReap.smunch, lookup, CmpxchgReap.System.goto, CmpxchgReap.System.nest,
      callerSees, hashed, refuses, rcu, rcuReadLock]
  | @reaped p found single kills =>
    obtain ⟨rfl, hashed⟩ := foundHere found task
    obtain ⟨kill, zombie⟩ := killsZombieIff.mp kills
    refine ⟨5, _, setTaskSame .., ?_⟩
    simp [exec, CmpxchgReap.step, CmpxchgReap.smunch, lookup, CmpxchgReap.System.goto, CmpxchgReap.System.nest,
      CmpxchgReap.System.write, cmpxchgExitState, callerSees, hashed, single, pattern, kill, zombie, rcu,
      rcuReadLock, setTask]
  | @undelivered _ p found single spares gone =>
    obtain ⟨rfl, hashed⟩ := foundHere found task
    have spared := sparesZombie spares
    refine ⟨5, _, setTaskSame .., ?_⟩
    simp [exec, CmpxchgReap.step, CmpxchgReap.smunch, lookup, CmpxchgReap.System.goto, CmpxchgReap.System.nest,
      CmpxchgReap.System.write, lockTaskSighand, callerSees, hashed, single, pattern, spared, gone, rcu, setTask]
  | @delivered _ p found single spares present free =>
    obtain ⟨rfl, hashed⟩ := foundHere found task
    have spared := sparesZombie spares
    refine ⟨7, _, setTaskSame .., ?_⟩
    simp [exec, CmpxchgReap.step, CmpxchgReap.smunch, lookup, CmpxchgReap.System.goto, CmpxchgReap.System.nest,
      CmpxchgReap.System.write, lockTaskSighand, callerSees, hashed, single, pattern, spared, present, free, rcu,
      setTask, unlockTaskSighand]

/- Between calls another process may change a task, but no lock this caller holds. -/
inductive Op where
  | smunch (pid : Pid) (bitPattern : BitVec 64) (claimed : Bool)
  | other (pid : Pid) (task : Option Task)
  deriving DecidableEq, Repr

def step (s : Kernel) : Op → Option Kernel
  | .smunch pid bitPattern claimed => (smunch s pid bitPattern claimed).map Prod.snd
  | .other pid task => if callerHolds task = callerHolds (s.tasks pid) then some (setTask s pid task) else none

/- Any tasks, whoever holds their locks, as long as it is not this caller. -/
def initial (tasks : Pid → Option Task) (rcu : Nat) : Kernel :=
  ⟨fun pid => (tasks pid).map fun p => {p with siglock := p.siglock.filter (· != caller)}, rcu⟩

def NoneHeld (s : Kernel) : Prop := ∀ pid, callerHolds (s.tasks pid) = false

/- The call returns at the depth it was entered with, and holds no lock. -/
def Balanced (s : Kernel) (op : Op) (t : Kernel) : Prop :=
  ∀ pid bitPattern claimed, op = .smunch pid bitPattern claimed → t.rcu = s.rcu ∧ NoneHeld t

/- The pid finds a single, untraced task, and not a zombie to kill. -/
def Served (s : Kernel) (pid : Pid) (bitPattern : BitVec 64) : Prop :=
  ∃ p, findTask s pid = some p ∧ multiThreadOrTraced p = false ∧ killsZombie bitPattern p = false

def CallServed (s : Kernel) (op : Op) (_ : Kernel) : Prop :=
  ∀ pid bitPattern claimed, op = .smunch pid bitPattern claimed → Served s pid bitPattern

theorem setNoneHeld {s : Kernel} {pid : Pid} {task : Option Task} (none : NoneHeld s)
    (free : callerHolds task = false) : NoneHeld (setTask s pid task) := by
  intro x
  by_cases same : x = pid
  · subst same
    rw [setTaskSame]
    exact free
  · rw [setTaskOther same]
    exact none x

theorem foundNoneHeld {s : Kernel} {pid : Pid} {p q : Task} (none : NoneHeld s)
    (found : findTask s pid = some p) (lock : q.siglock = p.siglock) : NoneHeld (setTask s pid (some q)) := by
  apply setNoneHeld none
  have free := none pid
  rw [(findTaskSome found).1] at free
  simpa only [callerHolds, Option.any_some, lock] using free

/- The inner lock is always dropped again. -/
theorem pathNoneHeld {s t : Kernel} {pid : Pid} {bitPattern : BitVec 64} {claimed : Bool} {ret : Int}
    (none : NoneHeld s) (path : Path s pid bitPattern claimed ret t) : NoneHeld t := by
  cases path with
  | missing | refused => exact none
  | lost found | reaped found => exact foundNoneHeld none found rfl
  | undelivered found | delivered found => exact foundNoneHeld none found rfl

/- Every early return leaves the caller one read-side section deeper. -/
theorem pathDepth {s t : Kernel} {pid : Pid} {bitPattern : BitVec 64} {claimed : Bool} {ret : Int}
    (path : Path s pid bitPattern claimed ret t) :
    Served s pid bitPattern ∧ t.rcu = s.rcu ∨ ¬ Served s pid bitPattern ∧ t.rcu = s.rcu + 1 := by
  cases path with
  | missing none => exact Or.inr ⟨by simp [Served, none], rfl⟩
  | refused found refuses => exact Or.inr ⟨by simp [Served, found, refuses], rfl⟩
  | lost found single kills => exact Or.inr ⟨by simp [Served, found, kills], rfl⟩
  | reaped found single kills => exact Or.inr ⟨by simp [Served, found, kills], rfl⟩
  | undelivered found single spares => exact Or.inl ⟨⟨_, found, single, spares⟩, rfl⟩
  | delivered found single spares => exact Or.inl ⟨⟨_, found, single, spares⟩, rfl⟩

theorem stepNoneHeld {s t : Kernel} {op : Op} (none : NoneHeld s) (taken : step s op = some t) :
    NoneHeld t := by
  cases op with
  | smunch pid bitPattern claimed =>
    obtain ⟨⟨ret, t⟩, ran, rfl⟩ := Option.map_eq_some_iff.mp taken
    exact pathNoneHeld none (smunchPath ran)
  | other pid task =>
    simp only [step] at taken
    split at taken <;> try contradiction
    rename_i same
    cases Option.some.inj taken
    exact setNoneHeld none (same.trans (none pid))

theorem balancedServed {s t : Kernel} {op : Op} (none : NoneHeld s) (taken : step s op = some t) :
    Balanced s op t ↔ CallServed s op t := by
  have held := stepNoneHeld none taken
  constructor
  · rintro balanced pid bitPattern claimed rfl
    obtain ⟨⟨ret, t⟩, ran, rfl⟩ := Option.map_eq_some_iff.mp taken
    have depth := (balanced pid bitPattern claimed rfl).1
    rcases pathDepth (smunchPath ran) with ⟨served, _⟩ | ⟨_, deeper⟩
    · exact served
    · exact absurd (deeper.symm.trans depth) (Nat.succ_ne_self s.rcu)
  · rintro served pid bitPattern claimed rfl
    obtain ⟨⟨ret, t⟩, ran, rfl⟩ := Option.map_eq_some_iff.mp taken
    rcases pathDepth (smunchPath ran) with ⟨_, depth⟩ | ⟨unserved, _⟩
    · exact ⟨depth, held⟩
    · exact absurd (served pid bitPattern claimed rfl) unserved

theorem initialNoneHeld (tasks : Pid → Option Task) (rcu : Nat) : NoneHeld (initial tasks rcu) := by
  intro pid
  cases found : tasks pid with
  | none => simp [initial, callerHolds, found]
  | some p => simp [initial, callerHolds, found]

theorem balancedIffServed (tasks : Pid → Option Task) (rcu : Nat) (ops : List Op) :
    EachStep step Balanced (initial tasks rcu) ops ↔ EachStep step CallServed (initial tasks rcu) ops :=
  eachStepIff (fun _ _ _ => balancedServed) (fun _ _ _ none taken _ => stepNoneHeld none taken)
    (initialNoneHeld tasks rcu)

theorem missingPidNested : ¬ EachStep step Balanced (initial (fun _ => none) 0) [.smunch 1 0 false] := by
  intro each
  obtain ⟨balanced, _⟩ := each ⟨fun _ => none, 1⟩ rfl
  have depth := (balanced 1 0 false rfl).1
  contradiction

/- The depth a call fails to leave is never made up for by later ones. -/
theorem depthKept {s t : Kernel} {ops : List Op} (ran : exec step s ops = some t) : s.rcu ≤ t.rcu := by
  have keep : ∀ u op v, s.rcu ≤ u.rcu → step u op = some v → s.rcu ≤ v.rcu := by
    intro u op v deeper taken
    cases op with
    | smunch pid bitPattern claimed =>
      obtain ⟨⟨ret, v⟩, called, rfl⟩ := Option.map_eq_some_iff.mp taken
      change s.rcu ≤ v.rcu
      rcases pathDepth (smunchPath called) with ⟨_, depth⟩ | ⟨_, depth⟩
      · rw [depth]; exact deeper
      · rw [depth]; exact Nat.le_succ_of_le deeper
    | other pid task =>
      simp only [step] at taken
      split at taken <;> try contradiction
      cases Option.some.inj taken
      exact deeper
  exact execInvariant keep (Nat.le_refl s.rcu) ran

/- What an answer says of a call nobody interferes with: after 0 the zombie has been
released or the pattern is pending, after -1 nothing has changed. -/
structure Means (s : Kernel) (pid : Pid) (bitPattern : BitVec 64) (ret : Int) (t : Kernel) : Prop where
  success : ret = 0 → ∃ p q, findTask s pid = some p ∧ t.tasks pid = some q ∧
    (p.exitState = .exitZombie ∧ sigismember bitPattern sigKill = true ∧ q.released = p.released + 1 ∨
      q.pending = bitPattern)
  failure : ret = -1 → t.tasks = s.tasks

def SuccessMeansDelivered (s : Kernel) (pid : Pid) (bitPattern : BitVec 64) : Prop :=
  ∀ ret t, smunch s pid bitPattern false = some (ret, t) → Means s pid bitPattern ret t

/- The sighand is gone, so the signals of a task to be served cannot be set. -/
def Undelivered (s : Kernel) (pid : Pid) (bitPattern : BitVec 64) : Prop :=
  ∃ p, findTask s pid = some p ∧ multiThreadOrTraced p = false ∧ killsZombie bitPattern p = false ∧
    p.sighand = false ∧ p.pending ≠ bitPattern

theorem pathMeans {s t : Kernel} {pid : Pid} {bitPattern : BitVec 64} {ret : Int}
    (delivered : ¬ Undelivered s pid bitPattern) (path : Path s pid bitPattern false ret t) :
    Means s pid bitPattern ret t := by
  cases path with
  | missing | refused => exact ⟨fun zero => by contradiction, fun _ => rfl⟩
  | @reaped p found single kills =>
    obtain ⟨kill, zombie⟩ := killsZombieIff.mp kills
    refine ⟨fun _ => ⟨p, _, found, setTaskSame .., Or.inl ⟨zombie, kill, rfl⟩⟩, fun minus => by contradiction⟩
  | @undelivered _ p found single spares gone =>
    have same : p.pending = bitPattern := by
      by_contra other
      exact delivered ⟨p, found, single, spares, gone, other⟩
    exact ⟨fun _ => ⟨p, _, found, setTaskSame .., Or.inr same⟩, fun minus => by contradiction⟩
  | @delivered _ p found single spares present free =>
    exact ⟨fun _ => ⟨p, _, found, setTaskSame .., Or.inr rfl⟩, fun minus => by contradiction⟩

/- Without the lock the call wakes the task, sets nothing and answers 0. -/
theorem undeliveredSucceeds {s : Kernel} {pid : Pid} {p : Task} {bitPattern : BitVec 64}
    (found : findTask s pid = some p) (single : multiThreadOrTraced p = false)
    (spares : killsZombie bitPattern p = false) (gone : p.sighand = false) :
    smunch s pid bitPattern false = some (0, setTask s pid (wakeUpProcess p)) := by
  unfold smunch
  dsimp only
  rw [findTaskLocked, found]
  dsimp only
  rw [if_neg (by rw [single]; decide), if_neg (by rw [spares]; decide), lockTaskSighand, gone]
  rfl

theorem deliveredIff (s : Kernel) (pid : Pid) (bitPattern : BitVec 64) :
    SuccessMeansDelivered s pid bitPattern ↔ ¬ Undelivered s pid bitPattern := by
  constructor
  · rintro means ⟨p, found, single, spares, gone, other⟩
    have called := undeliveredSucceeds found single spares gone
    obtain ⟨p', q, again, left, result⟩ := (means 0 _ called).success rfl
    cases Option.some.inj (found.symm.trans again)
    rw [setTaskSame] at left
    cases Option.some.inj left
    rcases result with ⟨zombie, kill, _⟩ | same
    · rw [killsZombieIff.mpr ⟨kill, zombie⟩] at spares
      contradiction
    · exact other same
  · intro delivered ret t ran
    exact pathMeans delivered (smunchPath ran)

/- A task on its way out: its pid still finds it, its sighand is gone. -/
def exitingTask : Task := ⟨true, 0, .exitDead, 0, false, none, true, false, 0⟩
def exitingTable : Kernel := ⟨fun pid => if pid = 1 then some exitingTask else none, 0⟩

theorem exitingNotDelivered : ¬ SuccessMeansDelivered exitingTable 1 1 := by
  intro means
  have called : smunch exitingTable 1 1 false = some (0, setTask exitingTable 1 (wakeUpProcess exitingTask)) :=
    undeliveredSucceeds rfl (by decide) (by decide) rfl
  obtain ⟨p, q, found, left, result⟩ := (means 0 _ called).success rfl
  rw [setTaskSame] at left
  cases Option.some.inj left
  cases Option.some.inj found
  rcases result with ⟨zombie, _⟩ | same
  · contradiction
  · contradiction

end KernelLabs.CmpxchgCall
