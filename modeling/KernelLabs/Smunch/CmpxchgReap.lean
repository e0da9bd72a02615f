import KernelLabs.Smunch.Task
import KernelLabs.Library.Runs

/-! The version of `smunch` that claims a zombie by compare and exchange, called by any
number of callers at once, next to parents that wait for the same zombie. -/
namespace KernelLabs.CmpxchgReap
open Smunch Runs

/- The statement a caller is about to execute; `release` is reached with the task claimed. -/
inductive Pc where
  | idle
  | lookup | checkGroup | checkZombie | claim | release
  | lockSighand | setPending | unlockSighand | wakeUp
  | waitCheck | waitClaim | waitRelease
  | returned (ret : Int)
  deriving DecidableEq, Repr

/- `changed` records which callers have written to the task. -/
structure System where
  task : Task
  pc : Nat → Pc
  pattern : Nat → BitVec 64
  rcu : Nat → Nat
  changed : Nat → Bool

def System.goto (s : System) (i : Nat) (pc : Pc) : System :=
  {s with pc := fun x => if x = i then pc else s.pc x}

def System.write (s : System) (i : Nat) (task : Task) : System :=
  {s with task := task, changed := fun x => if x = i then s.changed i || task != s.task else s.changed x}

def System.nest (s : System) (i : Nat) (f : Nat → Nat) : System :=
  {s with rcu := fun x => if x = i then f (s.rcu i) else s.rcu x}

/- Only the last path leaves the read-side section it entered. -/
def smunch (s : System) (i : Nat) : Option System :=
  match s.pc i with
  | .lookup =>
      let s := s.nest i (· + 1)
      some (s.goto i (if s.task.hashed then .checkGroup else .returned (-1)))
  | .checkGroup => some (s.goto i (if multiThreadOrTraced s.task then .returned (-1) else .checkZombie))
  | .checkZombie =>
      some (s.goto i (if sigismember (s.pattern i) sigKill && s.task.exitState == .exitZombie then .claim
        else .lockSighand))
  | .claim =>
      let (found, task) := cmpxchgExitState s.task .exitZombie .exitDead
      some ((s.write i task).goto i (if found ≠ .exitZombie then .returned (-1) else .release))
  | .release => some ((s.write i (releaseTask s.task)).goto i (.returned 0))
  | .lockSighand => (lockTaskSighand s.task i).map fun (locked, task) =>
      (s.write i task).goto i (if locked then .setPending else .wakeUp)
  | .setPending => some ((s.write i {s.task with pending := s.pattern i}).goto i .unlockSighand)
  | .unlockSighand => some ((s.write i (unlockTaskSighand s.task)).goto i .wakeUp)
  | .wakeUp => some (((s.write i (wakeUpProcess s.task)).nest i (· - 1)).goto i (.returned 0))
  | _ => none

/- The parent's side, in the kernel's own code. -/
def wait (s : System) (i : Nat) : Option System :=
  match s.pc i with
  | .waitCheck => some (s.goto i (if s.task.exitState = .exitZombie then .waitClaim else .returned 0))
  | .waitClaim =>
      let (found, task) := cmpxchgExitState s.task .exitZombie .exitDead
      some ((s.write i task).goto i (if found ≠ .exitZombie then .returned 0 else .waitRelease))
  | .waitRelease => some ((s.write i (releaseTask s.task)).goto i (.returned 0))
  | _ => none

inductive Op where
  | enterSmunch (i : Nat) (pattern : BitVec 64)
  | enterWait (i : Nat)
  | smunch (i : Nat)
  | wait (i : Nat)
  | exit
  deriving DecidableEq, Repr

def step (s : System) : Op → Option System
  | .enterSmunch i pattern =>
      if s.pc i = .idle then
        some ({s with pattern := fun x => if x = i then pattern else s.pattern x}.goto i .lookup)
      else none
  | .enterWait i => if s.pc i = .idle then some (s.goto i .waitCheck) else none
  | .smunch i => smunch s i
  | .wait i => wait s i
  | .exit =>
      if s.task.exitState = .running then some {s with task := {s.task with exitState := .exitZombie}}
      else none

def initial (task : Task) : System :=
  ⟨{task with released := 0}, fun _ => .idle, fun _ => 0, fun _ => 0, fun _ => false⟩

def ReleasedAtMostOnce (s : System) : Prop := s.task.released ≤ 1

/- A caller whose exchange fails returns -1, and none of its steps wrote to the task. -/
def FailedClaimHarmless (s : System) (op : Op) (t : System) : Prop :=
  ∀ i, op = .smunch i → s.pc i = .claim → s.task.exitState ≠ .exitZombie →
    t.pc i = .returned (-1) ∧ t.task = s.task ∧ t.changed i = false

/- A caller that has claimed the task and is about to release it. -/
def Claiming (pc : Pc) : Prop := pc = .release ∨ pc = .waitRelease
instance (pc : Pc) : Decidable (Claiming pc) := by unfold Claiming; infer_instance

def Early (pc : Pc) : Prop :=
  pc = .idle ∨ pc = .lookup ∨ pc = .checkGroup ∨ pc = .checkZombie ∨ pc = .claim ∨
    pc = .waitCheck ∨ pc = .waitClaim
instance (pc : Pc) : Decidable (Early pc) := by unfold Early; infer_instance

/- What a caller's step may do: win the exchange, release what it has won, or neither. -/
inductive Moved (s : System) (i : Nat) (t : System) : Prop where
  | claims (before : ¬ Claiming (s.pc i)) (zombie : s.task.exitState = .exitZombie)
      (after : Claiming (t.pc i)) (task : t.task = {s.task with exitState := .exitDead})
  | releases (before : Claiming (s.pc i)) (after : t.pc i = .returned 0)
      (task : t.task = releaseTask s.task)
  | neither (before : ¬ Claiming (s.pc i)) (after : ¬ Claiming (t.pc i))
      (exitState : t.task.exitState = s.task.exitState) (released : t.task.released = s.task.released)

structure Framed (s : System) (i : Nat) (t : System) : Prop where
  pc : ∀ x, x ≠ i → t.pc x = s.pc x
  changed : ∀ x, x ≠ i → t.changed x = s.changed x
  early : Early (t.pc i) → Early (s.pc i) ∧ t.changed i = s.changed i

section Moves
variable {s t : System} {i : Nat}

theorem earlyCalm {pc : Pc} (early : Early pc) : ¬ Claiming pc := by
  rcases early with rfl | rfl | rfl | rfl | rfl | rfl | rfl <;> decide

/- Some of the steps also enter a read-side section or note the pattern. -/
theorem goMoves (pattern : Nat → BitVec 64) (rcu : Nat → Nat) {pc : Pc} (before : Early (s.pc i))
    (after : ¬ Claiming pc) :
    Framed s i ({s with pattern := pattern, rcu := rcu}.goto i pc) ∧
      Moved s i ({s with pattern := pattern, rcu := rcu}.goto i pc) := by
  refine ⟨⟨fun x other => if_neg other, fun _ _ => rfl, fun _ => ⟨before, rfl⟩⟩,
    .neither (earlyCalm before) ?_ rfl rfl⟩
  simpa only [System.goto, if_true] using after

/- A step that writes to the task is past the last that could have left it alone. -/
theorem writeFramed (rcu : Nat → Nat) {pc : Pc} (task : Task) (late : ¬ Early pc) :
    Framed s i ({s.write i task with rcu := rcu}.goto i pc) where
  pc := fun x other => if_neg other
  changed := fun x other => if_neg other
  early := by
    intro now
    simp only [System.goto, if_true] at now
    exact absurd now late

theorem writeMoves (rcu : Nat → Nat) {pc : Pc} {task : Task} (calm : ¬ Claiming (s.pc i))
    (late : ¬ Early pc) (after : ¬ Claiming pc) (exitState : task.exitState = s.task.exitState)
    (released : task.released = s.task.released) :
    Framed s i ({s.write i task with rcu := rcu}.goto i pc) ∧
      Moved s i ({s.write i task with rcu := rcu}.goto i pc) :=
  ⟨writeFramed rcu task late,
    .neither calm (by simpa only [System.goto, if_true] using after) exitState released⟩

theorem releaseMoves (claimed : Claiming (s.pc i)) :
    Framed s i ((s.write i (releaseTask s.task)).goto i (.returned 0)) ∧
      Moved s i ((s.write i (releaseTask s.task)).goto i (.returned 0)) :=
  ⟨writeFramed s.rcu _ (by decide), .releases claimed (if_pos rfl) rfl⟩

/- The exchange of either side: lost, it leaves the task alone; won, it claims it. -/
theorem claimMoves {lost won : Pc} (before : Early (s.pc i)) (lateLost : ¬ Early lost)
    (calmLost : ¬ Claiming lost) (lateWon : ¬ Early won) (claims : Claiming won) :
    let claim := cmpxchgExitState s.task .exitZombie .exitDead
    let t := (s.write i claim.2).goto i (if claim.1 ≠ .exitZombie then lost else won)
    Framed s i t ∧ Moved s i t := by
  dsimp only [cmpxchgExitState]
  by_cases zombie : s.task.exitState = .exitZombie
  · rw [if_pos zombie, if_neg (not_not.mpr zombie)]
    refine ⟨writeFramed s.rcu _ lateWon, .claims (earlyCalm before) zombie ?_ rfl⟩
    simpa only [System.goto, if_true] using claims
  · rw [if_neg zombie, if_pos zombie]
    exact writeMoves s.rcu (earlyCalm before) lateLost calmLost rfl rfl

theorem lockKeeps {p q : Task} {locked : Bool} (took : lockTaskSighand p i = some (locked, q)) :
    q.exitState = p.exitState ∧ q.released = p.released := by
  unfold lockTaskSighand at took
  split at took
  · cases Option.some.inj took; exact ⟨rfl, rfl⟩
  · split at took <;> try contradiction
    cases Option.some.inj took; exact ⟨rfl, rfl⟩

theorem smunchMoves (taken : smunch s i = some t) : Framed s i t ∧ Moved s i t := by
  unfold smunch at taken
  split at taken <;> rename_i pc <;> try contradiction
  · cases Option.some.inj taken
    exact goMoves s.pattern _ (by rw [pc]; decide) (by split <;> decide)
  · cases Option.some.inj taken
    exact goMoves s.pattern s.rcu (by rw [pc]; decide) (by split <;> decide)
  · cases Option.some.inj taken
    exact goMoves s.pattern s.rcu (by rw [pc]; decide) (by split <;> decide)
  · cases Option.some.inj taken
    exact claimMoves (by rw [pc]; decide) (by decide) (by decide) (by decide) (by decide)
  · cases Option.some.inj taken
    exact releaseMoves (by rw [pc]; decide)
  · obtain ⟨⟨locked, task⟩, took, rfl⟩ := Option.map_eq_some_iff.mp taken
    obtain ⟨exitState, released⟩ := lockKeeps took
    exact writeMoves s.rcu (by rw [pc]; decide) (by split <;> decide) (by split <;> decide)
      exitState released
  · cases Option.some.inj taken
    exact writeMoves s.rcu (by rw [pc]; decide) (by decide) (by decide) rfl rfl
  · cases Option.some.inj taken
    exact writeMoves s.rcu (by rw [pc]; decide) (by decide) (by decide) rfl rfl
  · cases Option.some.inj taken
    exact writeMoves _ (by rw [pc]; decide) (by decide) (by decide) rfl rfl

theorem waitMoves (taken : wait s i = some t) : Framed s i t ∧ Moved s i t := by
  unfold wait at taken
  split at taken <;> rename_i pc <;> try contradiction
  · cases Option.some.inj taken
    exact goMoves s.pattern s.rcu (by rw [pc]; decide) (by split <;> decide)
  · cases Option.some.inj taken
    exact claimMoves (by rw [pc]; decide) (by decide) (by decide) (by decide) (by decide)
  · cases Option.some.inj taken
    exact releaseMoves (by rw [pc]; decide)

theorem stepMoves {op : Op} (taken : step s op = some t) :
    (∃ i, Framed s i t ∧ Moved s i t) ∨
      s.task.exitState = .running ∧ t = {s with task := {s.task with exitState := .exitZombie}} := by
  cases op with
  | enterSmunch i pattern =>
    simp only [step] at taken
    split at taken <;> try contradiction
    rename_i idle
    cases Option.some.inj taken
    exact Or.inl ⟨i, goMoves _ s.rcu (by rw [idle]; decide) (by decide)⟩
  | enterWait i =>
    simp only [step] at taken
    split at taken <;> try contradiction
    rename_i idle
    cases Option.some.inj taken
    exact Or.inl ⟨i, goMoves s.pattern s.rcu (by rw [idle]; decide) (by decide)⟩
  | smunch i => exact Or.inl ⟨i, smunchMoves taken⟩
  | wait i => exact Or.inl ⟨i, waitMoves taken⟩
  | exit =>
    simp only [step] at taken
    split at taken <;> try contradiction
    rename_i running
    exact Or.inr ⟨running, (Option.some.inj taken).symm⟩

end Moves

/- At most one caller holds the claim, nobody does once the task is released, and who
has not come to its exchange has not written to the task. -/
structure ClaimedOnce (s : System) : Prop where
  unique : ∀ i j, Claiming (s.pc i) → Claiming (s.pc j) → i = j
  claimed : ∀ i, Claiming (s.pc i) → s.task.exitState = .exitDead ∧ s.task.released = 0
  once : s.task.released ≤ 1
  dead : 0 < s.task.released → s.task.exitState = .exitDead
  untouched : ∀ i, Early (s.pc i) → s.changed i = false

theorem idleCalm : ¬ Claiming .idle := by decide

theorem initialClaimedOnce (task : Task) : ClaimedOnce (initial task) where
  unique := fun _ _ claims => absurd claims idleCalm
  claimed := fun _ claims => absurd claims idleCalm
  once := Nat.zero_le 1
  dead := fun positive => absurd positive (Nat.lt_irrefl 0)
  untouched := fun _ _ => rfl

section Keep
variable {s t : System} {i : Nat}

theorem framedUntouched (inv : ClaimedOnce s) (framed : Framed s i t) :
    ∀ x, Early (t.pc x) → t.changed x = false := by
  intro x early
  by_cases same : x = i
  · subst same
    obtain ⟨before, kept⟩ := framed.early early
    rw [kept]
    exact inv.untouched x before
  · rw [framed.pc x same] at early
    rw [framed.changed x same]
    exact inv.untouched x early

/- A claim is only won on a zombie, which nobody has claimed or released before. -/
theorem claimsKept (inv : ClaimedOnce s) (framed : Framed s i t) (zombie : s.task.exitState = .exitZombie)
    (task : t.task = {s.task with exitState := .exitDead}) : ClaimedOnce t := by
  have nobody : ∀ x, ¬ Claiming (s.pc x) := by
    intro x claims
    have dead := (inv.claimed x claims).1
    rw [zombie] at dead
    contradiction
  have unreleased : s.task.released = 0 := by
    by_contra positive
    have dead := inv.dead (Nat.pos_of_ne_zero positive)
    rw [zombie] at dead
    contradiction
  have only : ∀ x, Claiming (t.pc x) → x = i := by
    intro x claims
    by_contra other
    rw [framed.pc x other] at claims
    exact nobody x claims
  refine ⟨?_, ?_, ?_, ?_, framedUntouched inv framed⟩
  · intro x y claimsX claimsY
    rw [only x claimsX, only y claimsY]
  · intro x _
    rw [task]
    exact ⟨rfl, unreleased⟩
  · rw [task]; exact inv.once
  · intro _
    rw [task]

/- The one claim there is goes when the task is released. -/
theorem releasesKept (inv : ClaimedOnce s) (framed : Framed s i t) (before : Claiming (s.pc i))
    (after : t.pc i = .returned 0) (task : t.task = releaseTask s.task) : ClaimedOnce t := by
  obtain ⟨dead, unreleased⟩ := inv.claimed i before
  have nobody : ∀ x, ¬ Claiming (t.pc x) := by
    intro x claims
    by_cases same : x = i
    · rw [same, after] at claims
      exact absurd claims (by decide)
    · rw [framed.pc x same] at claims
      exact same (inv.unique x i claims before)
  have released : t.task.released = s.task.released + 1 := by rw [task]; rfl
  have once : t.task.released = 1 := released.trans (congrArg (· + 1) unreleased)
  refine ⟨fun x _ claims => absurd claims (nobody x), fun x claims => absurd claims (nobody x), ?_, ?_,
    framedUntouched inv framed⟩
  · exact Nat.le_of_eq once
  · intro _
    rw [task]
    exact dead

theorem neitherKept (inv : ClaimedOnce s) (framed : Framed s i t) (after : ¬ Claiming (t.pc i))
    (exitState : t.task.exitState = s.task.exitState) (released : t.task.released = s.task.released) :
    ClaimedOnce t := by
  have old : ∀ x, Claiming (t.pc x) → Claiming (s.pc x) := by
    intro x claims
    by_cases same : x = i
    · exact absurd (same ▸ claims) after
    · exact framed.pc x same ▸ claims
  refine ⟨fun x y claimsX claimsY => inv.unique x y (old x claimsX) (old y claimsY), ?_, ?_, ?_,
    framedUntouched inv framed⟩
  · intro x claims
    rw [exitState, released]
    exact inv.claimed x (old x claims)
  · rw [released]; exact inv.once
  · rw [exitState, released]; exact inv.dead

theorem stepClaimedOnce {op : Op} (inv : ClaimedOnce s) (taken : step s op = some t) : ClaimedOnce t := by
  rcases stepMoves taken with ⟨i, framed, moved⟩ | ⟨running, rfl⟩
  · cases moved with
    | claims _ zombie _ task => exact claimsKept inv framed zombie task
    | releases before after task => exact releasesKept inv framed before after task
    | neither _ after exitState released => exact neitherKept inv framed after exitState released
  · have notDead : ¬ s.task.exitState = .exitDead := by rw [running]; decide
    refine ⟨inv.unique, fun x claims => absurd (inv.claimed x claims).1 notDead, inv.once,
      fun positive => absurd (inv.dead positive) notDead, inv.untouched⟩

theorem stepFailedHarmless {op : Op} (inv : ClaimedOnce s) (taken : step s op = some t) :
    FailedClaimHarmless s op t := by
  intro i same pc lost
  subst same
  simp only [step, smunch, pc, cmpxchgExitState, if_neg lost] at taken
  cases Option.some.inj taken
  refine ⟨?_, rfl, ?_⟩
  · simp only [System.goto, if_true]
    exact if_pos lost
  · have untouched := inv.untouched i (by rw [pc]; decide)
    simp [System.goto, System.write, untouched]

end Keep

theorem zombieReapedOnce (task : Task) (ops : List Op) :
    EachState step ReleasedAtMostOnce (initial task) ops ∧
      EachStep step FailedClaimHarmless (initial task) ops :=
  ⟨eachStateInvariant (fun _ _ _ => stepClaimedOnce) (fun _ inv => inv.once) (initialClaimedOnce task) ops,
    eachStepInvariant (fun _ _ _ => stepClaimedOnce) (fun _ _ _ => stepFailedHarmless)
      (initialClaimedOnce task) ops⟩

end KernelLabs.CmpxchgReap
