import Mathlib.Logic.Basic

/-! One task as the two concurrent versions of `smunch` see it. What the kernel's own
functions do to it (`lock_task_sighand`, `release_task`, `wake_up_process`) is taken
from their documentation; none of them is in the repository. -/
namespace KernelLabs.Smunch

inductive ExitState where
  | running | exitZombie | exitDead
  deriving DecidableEq, Repr

def ptSeized : BitVec 32 := 0x00010000
def sigKill : Nat := 9

/- `sighand` is whether the pointer is still there, `hashed` whether the pid still finds
the task, `released` how many times `release_task` was called on it. -/
structure Task where
  threadGroupEmpty : Bool
  ptrace : BitVec 32
  exitState : ExitState
  pending : BitVec 64
  sighand : Bool
  siglock : Option Nat
  hashed : Bool
  woken : Bool
  released : Nat
  deriving DecidableEq, Repr

/- Signal numbers start at 1, bits at 0. -/
def sigismember (signal : BitVec 64) (sig : Nat) : Bool := signal.getLsbD (sig - 1)

def multiThreadOrTraced (p : Task) : Bool := !p.threadGroupEmpty || p.ptrace &&& ptSeized != 0

/- The value found, and the task after it. -/
def cmpxchgExitState (p : Task) (old new : ExitState) : ExitState × Task :=
  (p.exitState, if p.exitState = old then {p with exitState := new} else p)

/- `none` while another caller holds the lock, otherwise whether it was taken. -/
def lockTaskSighand (p : Task) (caller : Nat) : Option (Bool × Task) :=
  if !p.sighand then some (false, p)
  else if p.siglock = none then some (true, {p with siglock := some caller})
  else none

def unlockTaskSighand (p : Task) : Task := {p with siglock := none}

def wakeUpProcess (p : Task) : Task := {p with woken := true}

def releaseTask (p : Task) : Task :=
  {p with sighand := false, hashed := false, released := p.released + 1}

end KernelLabs.Smunch
