import KernelLabs.Smunch.ProcessTable
import KernelLabs.Smunch.SighandReap

/-! Whole calls of the version of `smunch` that works under the sighand lock, over any
process table: each either does all it was asked to, or nothing. -/
namespace KernelLabs.SighandCall
open Smunch Runs

/- `none` while somebody else holds the sighand lock. -/
def smunch (s : Kernel) (pid : Pid) (bitPattern : BitVec 64) : Option (Int × Kernel) :=
  let s := rcuReadLock s
  match findTask s pid with
  | none => some (-1, rcuReadUnlock s)
  | some p =>
    (lockTaskSighand p caller).map fun (locked, p) =>
      if !locked then (-1, rcuReadUnlock (setTask s pid p))
      else if multiThreadOrTraced p then (-1, rcuReadUnlock (setTask s pid (unlockTaskSighand p)))
      else if killsZombie bitPattern p then
        (0, rcuReadUnlock (setTask s pid (releaseTask (unlockTaskSighand p))))
      else
        let p := unlockTaskSighand {p with pending := bitPattern}
        (0, rcuReadUnlock (setTask s pid (wakeUpProcess p)))

/- Every path through a call; all of them come to `rcu_read_unlock`. -/
inductive Path (s : Kernel) (pid : Pid) (bitPattern : BitVec 64) : Int → Kernel → Prop where
  | missing (none : findTask s pid = none) : Path s pid bitPattern (-1) s
  | gone {p : Task} (found : findTask s pid = some p) (gone : p.sighand = false) : Path s pid bitPattern (-1) s
  | refused {p : Task} (found : findTask s pid = some p) (present : p.sighand = true) (free : p.siglock = none)
      (refuses : multiThreadOrTraced p = true) : Path s pid bitPattern (-1) s
  | reaped {p : Task} (found : findTask s pid = some p) (present : p.sighand = true) (free : p.siglock = none)
      (single : multiThreadOrTraced p = false) (kills : killsZombie bitPattern p = true) :
      Path s pid bitPattern 0 (setTask s pid (releaseTask p))
  | delivered {p : Task} (found : findTask s pid = some p) (present : p.sighand = true) (free : p.siglock = none)
      (single : multiThreadOrTraced p = false) (spares : killsZombie bitPattern p = false) :
      Path s pid bitPattern 0 (setTask s pid (wakeUpProcess {p with pending := bitPattern}))

/- Whose lock is held by another, and so waited for. -/
def Waits (s : Kernel) (pid : Pid) : Prop :=
  ∃ p, findTask s pid = some p ∧ p.sighand = true ∧ p.siglock ≠ none

theorem smunchPath (s : Kernel) (pid : Pid) (bitPattern : BitVec 64) :
    match smunch s pid bitPattern with
    | some (ret, t) => Path s pid bitPattern ret t
    | none => Waits s pid := by
  unfold smunch
  dsimp only
  rw [findTaskLocked]
  cases found : findTask s pid with
  | none => exact .missing found
  | some p =>
    dsimp only
    rcases lockCases p with ⟨gone, lock⟩ | ⟨present, free, lock⟩ | ⟨present, busy, lock⟩
    · rw [lock]
      have same : setTask s pid p = s := setTaskOld (findTaskSome found).1
      have path : Path s pid bitPattern (-1) (setTask s pid p) := by
        rw [same]; exact .gone found gone
      exact path
    · rw [lock]
      have unlocked := unlockLocked free
      simp only [Option.map_some, Bool.not_true, Bool.false_eq_true, if_false]
      split
      · rename_i refuses
        rw [unlocked, readUnlockSet, setTaskOld (findTaskSome found).1]
        exact .refused found present free refuses
      · rename_i single
        rw [Bool.not_eq_true] at single
        split
        · rename_i kills
          rw [unlocked]
          exact .reaped found present free single kills
        · rename_i spares
          rw [Bool.not_eq_true] at spares
          have path := Path.delivered found present free single spares
          rw [← setUnderLock free] at path
          exact path
    · rw [lock]
      exact ⟨p, found, present, busy⟩

theorem smunchTakes {s t : Kernel} {pid : Pid} {bitPattern : BitVec 64} {ret : Int}
    (ran : smunch s pid bitPattern = some (ret, t)) : Path s pid bitPattern ret t := by
  have path := smunchPath s pid bitPattern
  rw [ran] at path
  exact path

/- Where the caller of the machine is, and what it finds. -/
def callerSees (m : SighandReap.System) : SighandReap.Pc × Task × Nat := (m.pc caller, m.task, m.rcu caller)

/- The statements of one caller of the machine, alone, make up a call. -/
theorem aloneSame {s t : Kernel} {pid : Pid} {bitPattern : BitVec 64} {ret : Int}
    (ran : smunch s pid bitPattern = some (ret, t)) {m : SighandReap.System}
    (entered : callerSees m = (.lookup, m.task, s.rcu)) (pattern : m.pattern caller = bitPattern)
    (task : s.tasks pid = some m.task) :
    ∃ n q, t.tasks pid = some q ∧
      (exec SighandReap.step m (List.replicate n (.smunch caller))).map callerSees = some (.returned ret, q, t.rcu) := by
  simp only [callerSees, Prod.mk.injEq, true_and] at entered
  obtain ⟨lookup, rcu⟩ := entered
  have path := smunchTakes ran
  cases path with
  | missing none =>
    have unhashed : m.task.hashed = false := by simpa [findTask, task] using none
    refine ⟨2, m.task, task, ?_⟩
    simp [exec, SighandReap.step, SighandReap.smunch, lookup, SighandReap.System.goto, SighandReap.System.nest,
      callerSees, unhashed, rcu]
  | @gone p found gone =>
    obtain ⟨rfl, hashed⟩ := foundHere found task
    refine ⟨3, m.task, task, ?_⟩
    simp [exec, SighandReap.step, SighandReap.smunch, lookup, SighandReap.System.goto, SighandReap.System.nest,
      callerSees, hashed, lockTaskSighand, gone, rcu]
  | @refused p found present free refuses =>
    obtain ⟨rfl, hashed⟩ := foundHere found task
    rw [multiThreadOrTracedIff] at refuses
    refine ⟨5, m.task, task, ?_⟩
    simpa [exec, SighandReap.step, SighandReap.smunch, lookup, SighandReap.System.goto, SighandReap.System.nest,
      callerSees, hashed, lockTaskSighand, present, free, multiThreadOrTracedIff, refuses, rcu, unlockTaskSighand]
      using unlockFound hashed present free
  | @reaped p found present free single kills =>
    obtain ⟨rfl, hashed⟩ := foundHere found task
    obtain ⟨kill, zombie⟩ := killsZombieIff.mp kills
    have single := singleUntraced single
    refine ⟨7, _, setTaskSame .., ?_⟩
    simpa [exec, SighandReap.step, SighandReap.smunch, lookup, SighandReap.System.goto, SighandReap.System.nest,
      callerSees, hashed, lockTaskSighand, present, free, multiThreadOrTracedIff, single, kill, zombie, pattern, rcu,
      unlockTaskSighand, setTask] using congrArg releaseTask (unlockFound hashed present free)
  | @delivered p found present free single spares =>
    obtain ⟨rfl, hashed⟩ := foundHere found task
    have single := singleUntraced single
    have spared := sparesZombie spares
    refine ⟨8, _, setTaskSame .., ?_⟩
    simp [exec, SighandReap.step, SighandReap.smunch, lookup, SighandReap.System.goto, SighandReap.System.nest,
      callerSees, hashed, lockTaskSighand, present, free, multiThreadOrTracedIff, single, spared, pattern, rcu,
      unlockTaskSighand, setTask]

/- The pid does not exist, its sighand cannot be locked, or its task is refused. -/
def Refused (s : Kernel) (pid : Pid) : Prop :=
  findTask s pid = none ∨ ∃ p, findTask s pid = some p ∧ (p.sighand = false ∨ multiThreadOrTraced p = true)

structure AllOrNothing (s : Kernel) (pid : Pid) (bitPattern : BitVec 64) (ret : Int) (t : Kernel) : Prop where
  rcu : t.rcu = s.rcu
  locks : ∀ other, (t.tasks other).map Task.siglock = (s.tasks other).map Task.siglock
  others : ∀ other, other ≠ pid → t.tasks other = s.tasks other
  answer : ret = 0 ∨ ret = -1
  refused : ret = -1 ↔ Refused s pid
  nothing : ret = -1 → t.tasks pid = s.tasks pid
  all : ret = 0 → ∃ p q, findTask s pid = some p ∧ t.tasks pid = some q ∧
    (p.exitState = .exitZombie ∧ sigismember bitPattern sigKill = true ∧ q.released = p.released + 1 ∨
      q.pending = bitPattern ∧ q.woken = true)

theorem refusedNothing {s : Kernel} {pid : Pid} {bitPattern : BitVec 64} (refused : Refused s pid) :
    AllOrNothing s pid bitPattern (-1) s where
  rcu := rfl
  locks := fun _ => rfl
  others := fun _ _ => rfl
  answer := Or.inr rfl
  refused := ⟨fun _ => refused, fun _ => rfl⟩
  nothing := fun _ => rfl
  all := fun zero => by contradiction

theorem servedAll {s : Kernel} {pid : Pid} {bitPattern : BitVec 64} {p q : Task}
    (found : findTask s pid = some p) (present : p.sighand = true) (single : multiThreadOrTraced p = false)
    (lock : q.siglock = p.siglock)
    (served : p.exitState = .exitZombie ∧ sigismember bitPattern sigKill = true ∧ q.released = p.released + 1 ∨
      q.pending = bitPattern ∧ q.woken = true) :
    AllOrNothing s pid bitPattern 0 (setTask s pid q) where
  rcu := rfl
  locks := by
    intro other
    by_cases same : other = pid
    · subst same
      rw [setTaskSame, (findTaskSome found).1, Option.map_some, Option.map_some, lock]
    · rw [setTaskOther same]
  others := fun _ apart => setTaskOther apart
  answer := Or.inl rfl
  refused := by
    constructor
    · intro minus
      contradiction
    · rintro (none | ⟨p', again, cannot⟩)
      · rw [found] at none
        contradiction
      · cases Option.some.inj (found.symm.trans again)
        rw [present, single] at cannot
        simp at cannot
  nothing := fun minus => by contradiction
  all := fun _ => ⟨p, q, found, setTaskSame .., served⟩

theorem pathAllOrNothing {s t : Kernel} {pid : Pid} {bitPattern : BitVec 64} {ret : Int}
    (path : Path s pid bitPattern ret t) : AllOrNothing s pid bitPattern ret t := by
  cases path with
  | missing none => exact refusedNothing (Or.inl none)
  | gone found gone => exact refusedNothing (Or.inr ⟨_, found, Or.inl gone⟩)
  | refused found present free refuses => exact refusedNothing (Or.inr ⟨_, found, Or.inr refuses⟩)
  | reaped found present free single kills =>
    obtain ⟨kill, zombie⟩ := killsZombieIff.mp kills
    exact servedAll found present single rfl (Or.inl ⟨zombie, kill, rfl⟩)
  | delivered found present free single spares =>
    exact servedAll found present single rfl (Or.inr ⟨rfl, rfl⟩)

/- A call returns unless it waits for the lock, and then it is all or nothing. -/
theorem lockedAllOrNothing (s : Kernel) (pid : Pid) (bitPattern : BitVec 64) :
    match smunch s pid bitPattern with
    | some (ret, t) => AllOrNothing s pid bitPattern ret t
    | none => Waits s pid := by
  cases called : smunch s pid bitPattern with
  | none =>
    have waits := smunchPath s pid bitPattern
    rw [called] at waits
    exact waits
  | some result => exact pathAllOrNothing (smunchTakes called)

end KernelLabs.SighandCall
