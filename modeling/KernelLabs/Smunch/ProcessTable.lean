import KernelLabs.Smunch.Task

/-! The process table, as one caller of `smunch` finds and leaves it while it runs alone:
the tasks by their pids, and how deep the caller is in read-side sections. -/
namespace KernelLabs.Smunch

abbrev Pid := Int

structure Kernel where
  tasks : Pid → Option Task
  rcu : Nat

/- Whoever else takes a sighand lock has another number. -/
def caller : Nat := 0

def rcuReadLock (s : Kernel) : Kernel := {s with rcu := s.rcu + 1}
def rcuReadUnlock (s : Kernel) : Kernel := {s with rcu := s.rcu - 1}

/- A task that was released is no longer found by its pid. -/
def findTask (s : Kernel) (pid : Pid) : Option Task := (s.tasks pid).filter Task.hashed

def setTask (s : Kernel) (pid : Pid) (task : Option Task) : Kernel :=
  {s with tasks := fun x => if x = pid then task else s.tasks x}

/- The test of both versions: the pattern asks to kill, and there is only a zombie. -/
def killsZombie (signal : BitVec 64) (p : Task) : Bool :=
  sigismember signal sigKill && p.exitState == .exitZombie

def callerHolds (task : Option Task) : Bool := task.any fun p => p.siglock == some caller

theorem killsZombieIff {signal : BitVec 64} {p : Task} :
    killsZombie signal p = true ↔ sigismember signal sigKill = true ∧ p.exitState = .exitZombie := by
  simp [killsZombie]

theorem multiThreadOrTracedIff {p : Task} :
    multiThreadOrTraced p = true ↔ p.threadGroupEmpty = false ∨ ¬ p.ptrace &&& ptSeized = 0#32 := by
  simp [multiThreadOrTraced]

theorem sparesZombie {signal : BitVec 64} {p : Task} (spares : killsZombie signal p = false) :
    ¬ (sigismember signal sigKill = true ∧ p.exitState = .exitZombie) := by
  rw [← killsZombieIff, spares]
  exact Bool.false_ne_true

theorem singleUntraced {p : Task} (single : multiThreadOrTraced p = false) :
    ¬ (p.threadGroupEmpty = false ∨ ¬ p.ptrace &&& ptSeized = 0#32) := by
  rw [← multiThreadOrTracedIff, single]
  exact Bool.false_ne_true

theorem findTaskSome {s : Kernel} {pid : Pid} {p : Task} (found : findTask s pid = some p) :
    s.tasks pid = some p ∧ p.hashed = true := by
  simpa [findTask, Option.filter_eq_some_iff] using found

theorem foundHere {s : Kernel} {pid : Pid} {p q : Task} (found : findTask s pid = some p)
    (here : s.tasks pid = some q) : p = q ∧ q.hashed = true := by
  obtain ⟨there, hashed⟩ := findTaskSome found
  have same := Option.some.inj (there.symm.trans here)
  exact ⟨same, same ▸ hashed⟩

@[simp] theorem setTaskSame (s : Kernel) (pid : Pid) (task : Option Task) :
    (setTask s pid task).tasks pid = task := if_pos rfl

theorem setTaskOther {s : Kernel} {pid other : Pid} {task : Option Task} (apart : other ≠ pid) :
    (setTask s pid task).tasks other = s.tasks other := if_neg apart

@[simp] theorem setTaskOld {s : Kernel} {pid : Pid} {task : Option Task} (old : s.tasks pid = task) :
    setTask s pid task = s := by
  subst old
  simp only [setTask]
  congr
  funext x
  split
  · rename_i same
    rw [same]
  · rfl

@[simp] theorem readUnlockLock (s : Kernel) : rcuReadUnlock (rcuReadLock s) = s := rfl

@[simp] theorem readUnlockSet (s : Kernel) (pid : Pid) (task : Option Task) :
    rcuReadUnlock (setTask (rcuReadLock s) pid task) = setTask s pid task := rfl

@[simp] theorem findTaskLocked (s : Kernel) (pid : Pid) : findTask (rcuReadLock s) pid = findTask s pid := rfl

/- The three answers of `lock_task_sighand`. -/
theorem lockCases (p : Task) :
    p.sighand = false ∧ lockTaskSighand p caller = some (false, p) ∨
    p.sighand = true ∧ p.siglock = none ∧
      lockTaskSighand p caller = some (true, {p with siglock := some caller}) ∨
    p.sighand = true ∧ p.siglock ≠ none ∧ lockTaskSighand p caller = none := by
  unfold lockTaskSighand
  cases sighand : p.sighand with
  | false => exact Or.inl ⟨rfl, rfl⟩
  | true =>
    by_cases free : p.siglock = none
    · exact Or.inr (Or.inl ⟨rfl, free, if_pos free⟩)
    · exact Or.inr (Or.inr ⟨rfl, free, if_neg free⟩)

theorem unlockLocked {p : Task} (free : p.siglock = none) :
    unlockTaskSighand {p with siglock := some caller} = p := by
  rw [unlockTaskSighand, ← free]

theorem unlockFound {p : Task} (hashed : p.hashed = true) (present : p.sighand = true)
    (free : p.siglock = none) : {p with sighand := true, siglock := none, hashed := true} = p := by
  cases p
  cases hashed
  cases present
  cases free
  rfl

/- Set under the lock, the pending signals are all that a caller has changed. -/
theorem setUnderLock {p : Task} (free : p.siglock = none) (signal : BitVec 64) :
    unlockTaskSighand {p with siglock := some caller, pending := signal} = {p with pending := signal} := by
  rw [unlockTaskSighand]
  simp only [free]

end KernelLabs.Smunch
