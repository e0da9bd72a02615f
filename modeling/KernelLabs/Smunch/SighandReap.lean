import KernelLabs.Smunch.Task
import KernelLabs.Library.Runs

/-! The version of `smunch` that looks at the zombie under the sighand lock and releases
it after the lock is dropped, called by any number of callers at once. Nothing marks the
task in between, so a second caller that takes the lock there releases it again. -/
namespace KernelLabs.SighandReap
open Smunch Runs

inductive Pc where
  | idle
  | lookup | lockSighand | checkGroup | unlockRefused | checkZombie | unlockZombie | release
  | setPending | unlockSighand | wakeUp | readUnlock (ret : Int)
  | returned (ret : Int)
  deriving DecidableEq, Repr

structure System where
  task : Task
  pc : Nat → Pc
  pattern : Nat → BitVec 64
  rcu : Nat → Nat

def System.goto (s : System) (i : Nat) (pc : Pc) : System :=
  {s with pc := fun x => if x = i then pc else s.pc x}

def System.nest (s : System) (i : Nat) (f : Nat → Nat) : System :=
  {s with rcu := fun x => if x = i then f (s.rcu i) else s.rcu x}

/- Every path leaves the read-side section; each of the returned values is its own. -/
def smunch (s : System) (i : Nat) : Option System :=
  match s.pc i with
  | .lookup =>
      let s := s.nest i (· + 1)
      some (s.goto i (if s.task.hashed then .lockSighand else .readUnlock (-1)))
  | .lockSighand => (lockTaskSighand s.task i).map fun (locked, task) =>
      {s with task := task}.goto i (if locked then .checkGroup else .readUnlock (-1))
  | .checkGroup =>
      some (s.goto i (if multiThreadOrTraced s.task then .unlockRefused else .checkZombie))
  | .unlockRefused => some ({s with task := unlockTaskSighand s.task}.goto i (.readUnlock (-1)))
  | .checkZombie =>
      some (s.goto i (if sigismember (s.pattern i) sigKill && s.task.exitState == .exitZombie then
        .unlockZombie else .setPending))
  | .unlockZombie => some ({s with task := unlockTaskSighand s.task}.goto i .release)
  | .release => some ({s with task := releaseTask s.task}.goto i (.readUnlock 0))
  | .setPending => some ({s with task := {s.task with pending := s.pattern i}}.goto i .unlockSighand)
  | .unlockSighand => some ({s with task := unlockTaskSighand s.task}.goto i .wakeUp)
  | .wakeUp => some ({s with task := wakeUpProcess s.task}.goto i (.readUnlock 0))
  | .readUnlock ret => some ((s.nest i (· - 1)).goto i (.returned ret))
  | _ => none

inductive Op where
  | enter (i : Nat) (pattern : BitVec 64)
  | smunch (i : Nat)
  deriving DecidableEq, Repr

def step (s : System) : Op → Option System
  | .enter i pattern =>
      if s.pc i = .idle then
        some ({s with pattern := fun x => if x = i then pattern else s.pattern x}.goto i .lookup)
      else none
  | .smunch i => smunch s i

/- A task nobody has locked or released yet. -/
def initial (task : Task) : System :=
  ⟨{task with siglock := none, released := 0}, fun _ => .idle, fun _ => 0, fun _ => 0⟩

def ReleasedAtMostOnce (s : System) : Prop := s.task.released ≤ 1

/- No caller takes the lock while another one, past its check, is about to release. -/
def LocksAlone (s : System) (op : Op) (_ : System) : Prop :=
  ∀ i j, op = .smunch i → s.pc i = .lockSighand → s.pc j ≠ .release

def Undecided (pc : Pc) : Prop := pc = .checkGroup ∨ pc = .checkZombie
def Passed (pc : Pc) : Prop := pc = .unlockZombie ∨ pc = .release
def Inside (pc : Pc) : Prop :=
  Undecided pc ∨ pc = .unlockZombie ∨ pc = .unlockRefused ∨ pc = .setPending ∨ pc = .unlockSighand
instance (pc : Pc) : Decidable (Undecided pc) := by unfold Undecided; infer_instance
instance (pc : Pc) : Decidable (Passed pc) := by unfold Passed; infer_instance
instance (pc : Pc) : Decidable (Inside pc) := by unfold Inside; infer_instance

/- What a caller's step may do: take the lock, see the zombie, drop the lock with the
zombie seen, release it, or nothing that matters to other callers but drop the lock. -/
inductive Moved (s : System) (i : Nat) (t : System) : Prop where
  | acquires (before : s.pc i = .lockSighand) (present : s.task.sighand = true)
      (free : s.task.siglock = none) (after : t.pc i = .checkGroup)
      (task : t.task = {s.task with siglock := some i})
  | passes (before : s.pc i = .checkZombie) (after : t.pc i = .unlockZombie) (task : t.task = s.task)
  | drops (before : s.pc i = .unlockZombie) (after : t.pc i = .release)
      (task : t.task = unlockTaskSighand s.task)
  | releases (before : s.pc i = .release) (after : t.pc i = .readUnlock 0)
      (task : t.task = releaseTask s.task)
  | other (before : ¬ Passed (s.pc i)) (after : ¬ Passed (t.pc i))
      (undecided : Undecided (t.pc i) → Undecided (s.pc i))
      (siglock : t.task.siglock = s.task.siglock ∧ (Inside (t.pc i) → Inside (s.pc i)) ∨
        Inside (s.pc i) ∧ ¬ Inside (t.pc i) ∧ t.task.siglock = none)
      (sighand : t.task.sighand = s.task.sighand) (released : t.task.released = s.task.released)

def Framed (s : System) (i : Nat) (t : System) : Prop := ∀ x, x ≠ i → t.pc x = s.pc x

section Moves
variable {s t : System} {i : Nat}

theorem goFramed (task : Task) (pattern : Nat → BitVec 64) (rcu : Nat → Nat) (pc : Pc) :
    Framed s i ({s with task := task, pattern := pattern, rcu := rcu}.goto i pc) :=
  fun _ other => if_neg other

theorem goTo (s : System) (i : Nat) (pc : Pc) : (s.goto i pc).pc i = pc := if_pos rfl

/- From one statement to another outside the lock, or inside it, or out of it. -/
def Plain (before after : Pc) : Prop :=
  ¬ Passed before ∧ ¬ Passed after ∧ (Undecided after → Undecided before) ∧ (Inside after → Inside before)
instance (before after : Pc) : Decidable (Plain before after) := by unfold Plain; infer_instance

theorem keepsMoved {task : Task} {pattern : Nat → BitVec 64} {rcu : Nat → Nat} {pc : Pc}
    (plain : Plain (s.pc i) pc) (siglock : task.siglock = s.task.siglock)
    (sighand : task.sighand = s.task.sighand) (released : task.released = s.task.released) :
    Moved s i ({s with task := task, pattern := pattern, rcu := rcu}.goto i pc) := by
  obtain ⟨before, after, undecided, inside⟩ := plain
  refine .other before ?_ ?_ (Or.inl ⟨siglock, ?_⟩) sighand released
  · rwa [goTo]
  · rwa [goTo]
  · rwa [goTo]

theorem unlocksMoved {pc : Pc} (before : ¬ Passed (s.pc i)) (inside : Inside (s.pc i))
    (after : ¬ Passed pc) (outside : ¬ Inside pc) :
    Moved s i ({s with task := unlockTaskSighand s.task}.goto i pc) := by
  refine .other before ?_ ?_ (Or.inr ⟨inside, ?_, rfl⟩) rfl rfl
  · rwa [goTo]
  · rw [goTo]
    exact fun undecided => absurd (Or.inl undecided) outside
  · rwa [goTo]

theorem lockMoved {locked : Bool} {task : Task} (pc : s.pc i = .lockSighand)
    (took : lockTaskSighand s.task i = some (locked, task)) :
    Moved s i ({s with task := task}.goto i (if locked then .checkGroup else .readUnlock (-1))) := by
  unfold lockTaskSighand at took
  split at took
  · cases Option.some.inj took
    exact keepsMoved (by rw [pc]; decide) rfl rfl rfl
  · rename_i present
    split at took <;> try contradiction
    rename_i free
    cases Option.some.inj took
    exact .acquires pc (by simpa using present) free (goTo ..) rfl

theorem smunchMoves (taken : smunch s i = some t) : Framed s i t ∧ Moved s i t := by
  unfold smunch at taken
  split at taken <;> rename_i pc <;> try contradiction
  · cases Option.some.inj taken
    refine ⟨goFramed s.task s.pattern _ _, ?_⟩
    exact keepsMoved (by rw [pc]; split <;> decide) rfl rfl rfl
  · obtain ⟨⟨locked, task⟩, took, rfl⟩ := Option.map_eq_some_iff.mp taken
    exact ⟨goFramed task s.pattern s.rcu _, lockMoved pc took⟩
  · cases Option.some.inj taken
    refine ⟨goFramed s.task s.pattern s.rcu _, ?_⟩
    exact keepsMoved (by rw [pc]; split <;> decide) rfl rfl rfl
  · cases Option.some.inj taken
    exact ⟨goFramed _ s.pattern s.rcu _,
      unlocksMoved (by rw [pc]; decide) (by rw [pc]; decide) (by decide) (by decide)⟩
  · cases Option.some.inj taken
    refine ⟨goFramed s.task s.pattern s.rcu _, ?_⟩
    split
    · exact .passes pc (goTo ..) rfl
    · exact keepsMoved (by rw [pc]; decide) rfl rfl rfl
  · cases Option.some.inj taken
    exact ⟨goFramed _ s.pattern s.rcu _, .drops pc (goTo ..) rfl⟩
  · cases Option.some.inj taken
    exact ⟨goFramed _ s.pattern s.rcu _, .releases pc (goTo ..) rfl⟩
  · cases Option.some.inj taken
    exact ⟨goFramed _ s.pattern s.rcu _,
      keepsMoved (by rw [pc]; decide) rfl rfl rfl⟩
  · cases Option.some.inj taken
    exact ⟨goFramed _ s.pattern s.rcu _,
      unlocksMoved (by rw [pc]; decide) (by rw [pc]; decide) (by decide) (by decide)⟩
  · cases Option.some.inj taken
    exact ⟨goFramed _ s.pattern s.rcu _,
      keepsMoved (by rw [pc]; decide) rfl rfl rfl⟩
  · rename_i ret
    cases Option.some.inj taken
    exact ⟨goFramed s.task s.pattern _ _,
      keepsMoved (by rw [pc]; simp [Plain, Passed, Undecided, Inside]) rfl rfl rfl⟩

end Moves

/- Whoever is inside holds the lock, a caller about to release is the only one that has
passed or may still pass the check, and after the release nobody may. -/
structure AtMostOne (s : System) : Prop where
  held : ∀ i, Inside (s.pc i) → s.task.siglock = some i
  alone : ∀ i, s.pc i = .release → ∀ j, j ≠ i → ¬ Undecided (s.pc j) ∧ ¬ Passed (s.pc j)
  fresh : ∀ i, Passed (s.pc i) → s.task.released = 0
  once : s.task.released ≤ 1
  gone : 0 < s.task.released → s.task.sighand = false ∧ ∀ i, ¬ Undecided (s.pc i)

theorem undecidedInside {pc : Pc} (undecided : Undecided pc) : Inside pc := Or.inl undecided
theorem seenInside : Inside .unlockZombie := by decide
theorem releaseOutside : ¬ Inside .release := by decide
theorem seenPassed : Passed .unlockZombie := by decide
theorem releasePassed : Passed .release := by decide

section Keep
variable {s t : System} {i : Nat}

/- The caller that moved, or one that stayed where it was. -/
theorem framedCases (framed : Framed s i t) (x : Nat) : x = i ∨ x ≠ i ∧ t.pc x = s.pc x := by
  by_cases same : x = i
  · exact Or.inl same
  · exact Or.inr ⟨same, framed x same⟩

theorem otherInside (inv : AtMostOne s) (inside : Inside (s.pc i)) {x : Nat} (other : x ≠ i) :
    ¬ Inside (s.pc x) := by
  intro insideX
  have same := (inv.held x insideX).symm.trans (inv.held i inside)
  exact other (Option.some.inj same)

theorem acquiresKept (inv : AtMostOne s) (framed : Framed s i t) (present : s.task.sighand = true)
    (free : s.task.siglock = none) (after : t.pc i = .checkGroup)
    (task : t.task = {s.task with siglock := some i}) (nobody : ∀ j, s.pc j ≠ .release) :
    AtMostOne t := by
  have unreleased : s.task.released = 0 := by
    by_contra positive
    have absent := (inv.gone (Nat.pos_of_ne_zero positive)).1
    rw [present] at absent
    contradiction
  have notPassed : ∀ x, ¬ Passed (t.pc x) := by
    intro x passed
    rcases framedCases framed x with rfl | ⟨_, same⟩
    · rw [after] at passed
      exact absurd passed (by decide)
    · rw [same] at passed
      rcases passed with seen | releasing
      · have held := inv.held x (by rw [seen]; exact seenInside)
        rw [free] at held
        contradiction
      · exact nobody x releasing
  refine ⟨?_, ?_, fun x passed => absurd passed (notPassed x), ?_, ?_⟩
  · intro x inside
    rcases framedCases framed x with rfl | ⟨_, same⟩
    · rw [task]
    · have held := inv.held x (same ▸ inside)
      rw [free] at held
      contradiction
  · intro x releasing
    exact absurd (releasing ▸ releasePassed) (notPassed x)
  · rw [task]; exact inv.once
  · rw [task]
    intro positive
    exact absurd (unreleased ▸ positive) (Nat.lt_irrefl 0)

theorem passesKept (inv : AtMostOne s) (framed : Framed s i t) (before : s.pc i = .checkZombie)
    (after : t.pc i = .unlockZombie) (task : t.task = s.task) : AtMostOne t := by
  have undecided : Undecided (s.pc i) := Or.inr before
  have unreleased : s.task.released = 0 := by
    by_contra positive
    exact (inv.gone (Nat.pos_of_ne_zero positive)).2 i undecided
  refine ⟨?_, ?_, fun _ _ => by rw [task]; exact unreleased, by rw [task]; exact inv.once, ?_⟩
  · intro x inside
    rw [task]
    rcases framedCases framed x with rfl | ⟨_, same⟩
    · exact inv.held x (undecidedInside undecided)
    · exact inv.held x (same ▸ inside)
  · intro x releasing
    rcases framedCases framed x with rfl | ⟨other, same⟩
    · rw [after] at releasing
      contradiction
    · exact absurd undecided (inv.alone x (same ▸ releasing) i (Ne.symm other)).1
  · rw [task, unreleased]
    exact fun positive => absurd positive (Nat.lt_irrefl 0)

theorem dropsKept (inv : AtMostOne s) (framed : Framed s i t) (before : s.pc i = .unlockZombie)
    (after : t.pc i = .release) (task : t.task = unlockTaskSighand s.task) : AtMostOne t := by
  have inside : Inside (s.pc i) := by rw [before]; exact seenInside
  have passed : Passed (s.pc i) := by rw [before]; exact seenPassed
  have unreleased : t.task.released = 0 := by rw [task]; exact inv.fresh i passed
  have outside : ∀ x, ¬ Inside (t.pc x) := by
    intro x insideX
    rcases framedCases framed x with rfl | ⟨other, same⟩
    · rw [after] at insideX
      exact releaseOutside insideX
    · exact otherInside inv inside other (same ▸ insideX)
  have others : ∀ x, x ≠ i → s.pc x ≠ .release := by
    intro x other releasing
    exact (inv.alone x releasing i (Ne.symm other)).2 passed
  refine ⟨fun x insideX => absurd insideX (outside x), ?_, fun _ _ => unreleased, ?_, ?_⟩
  · intro x releasing y other
    refine ⟨fun undecided => outside y (undecidedInside undecided), fun passedY => ?_⟩
    rcases passedY with seen | releasingY
    · exact outside y (by rw [seen]; exact seenInside)
    · rcases framedCases framed x with rfl | ⟨otherX, same⟩
      · rw [framed y other] at releasingY
        exact others y other releasingY
      · exact others x otherX (same ▸ releasing)
  · rw [unreleased]; exact Nat.zero_le 1
  · rw [unreleased]
    exact fun positive => absurd positive (Nat.lt_irrefl 0)

theorem releasesKept (inv : AtMostOne s) (framed : Framed s i t) (before : s.pc i = .release)
    (after : t.pc i = .readUnlock 0) (task : t.task = releaseTask s.task) : AtMostOne t := by
  have passed : Passed (s.pc i) := by rw [before]; exact releasePassed
  have released : t.task.released = 1 := by
    rw [task]
    change s.task.released + 1 = 1
    rw [inv.fresh i passed]
  have calm : ∀ x, ¬ Undecided (t.pc x) ∧ ¬ Passed (t.pc x) := by
    intro x
    rcases framedCases framed x with rfl | ⟨other, same⟩
    · rw [after]; decide
    · rw [same]
      exact inv.alone i before x other
  refine ⟨?_, ?_, fun x passedX => absurd passedX (calm x).2, ?_, ?_⟩
  · intro x inside
    rw [task]
    rcases framedCases framed x with rfl | ⟨_, same⟩
    · rw [after] at inside
      exact absurd inside (by decide)
    · exact inv.held x (same ▸ inside)
  · intro x releasing
    exact absurd (releasing ▸ releasePassed) (calm x).2
  · exact Nat.le_of_eq released
  · exact fun _ => ⟨by rw [task]; rfl, fun x => (calm x).1⟩

theorem otherKept (inv : AtMostOne s) (framed : Framed s i t) (after : ¬ Passed (t.pc i))
    (undecided : Undecided (t.pc i) → Undecided (s.pc i))
    (siglock : t.task.siglock = s.task.siglock ∧ (Inside (t.pc i) → Inside (s.pc i)) ∨
      Inside (s.pc i) ∧ ¬ Inside (t.pc i) ∧ t.task.siglock = none)
    (sighand : t.task.sighand = s.task.sighand) (released : t.task.released = s.task.released) :
    AtMostOne t := by
  refine ⟨?_, ?_, ?_, by rw [released]; exact inv.once, ?_⟩
  · intro x inside
    rcases siglock with ⟨same, before⟩ | ⟨before, outside, _⟩
    · rw [same]
      rcases framedCases framed x with rfl | ⟨_, stayed⟩
      · exact inv.held x (before inside)
      · exact inv.held x (stayed ▸ inside)
    · rcases framedCases framed x with rfl | ⟨other, stayed⟩
      · exact absurd inside outside
      · exact absurd (stayed ▸ inside) (otherInside inv before other)
  · intro x releasing y other
    rcases framedCases framed x with rfl | ⟨_, stayed⟩
    · exact absurd (releasing ▸ releasePassed) after
    · have alone := inv.alone x (stayed ▸ releasing) y other
      rcases framedCases framed y with rfl | ⟨_, same⟩
      · exact ⟨fun now => alone.1 (undecided now), after⟩
      · rw [same]
        exact alone
  · intro x passed
    rw [released]
    rcases framedCases framed x with rfl | ⟨_, stayed⟩
    · exact absurd passed after
    · exact inv.fresh x (stayed ▸ passed)
  · rw [released, sighand]
    intro positive
    obtain ⟨absent, calm⟩ := inv.gone positive
    refine ⟨absent, fun x now => ?_⟩
    rcases framedCases framed x with rfl | ⟨_, stayed⟩
    · exact calm x (undecided now)
    · exact calm x (stayed ▸ now)

theorem stepAtMostOne {op : Op} (inv : AtMostOne s) (taken : step s op = some t)
    (locks : LocksAlone s op t) : AtMostOne t := by
  cases op with
  | enter i pattern =>
    simp only [step] at taken
    split at taken <;> try contradiction
    rename_i idle
    cases Option.some.inj taken
    refine otherKept (i := i) inv (goFramed s.task _ s.rcu _) ?_ ?_ (Or.inl ⟨rfl, ?_⟩) rfl rfl
    · rw [goTo]; decide
    · rw [goTo, idle]; decide
    · rw [goTo, idle]; decide
  | smunch i =>
    obtain ⟨framed, moved⟩ := smunchMoves taken
    cases moved with
    | acquires before present free after task =>
      exact acquiresKept inv framed present free after task fun j => locks i j rfl before
    | passes before after task => exact passesKept inv framed before after task
    | drops before after task => exact dropsKept inv framed before after task
    | releases before after task => exact releasesKept inv framed before after task
    | other _ after undecided siglock sighand released =>
      exact otherKept inv framed after undecided siglock sighand released

end Keep

theorem initialAtMostOne (task : Task) : AtMostOne (initial task) := by
  have outside : ¬ Inside .idle := by decide
  have unpassed : ¬ Passed .idle := by decide
  refine ⟨fun _ inside => absurd inside outside, ?_, fun _ passed => absurd passed unpassed,
    Nat.zero_le 1, fun positive => absurd positive (Nat.lt_irrefl 0)⟩
  intro i releasing
  contradiction

theorem locksAloneReapsOnce (task : Task) (ops : List Op)
    (alone : EachStep step LocksAlone (initial task) ops) :
    EachState step ReleasedAtMostOnce (initial task) ops :=
  eachStateOfInvariant (fun _ _ _ => stepAtMostOne) (fun _ inv => inv.once) (initialAtMostOne task) alone

/- The condition is as wide as it can be: a caller that takes the lock of the zombie
while another one is about to release it can release it as well. -/
theorem lockReachesRelease {s : System} {i : Nat} (zombie : s.task.exitState = .exitZombie)
    (single : multiThreadOrTraced s.task = false) (present : s.task.sighand = true)
    (free : s.task.siglock = none) (kill : sigismember (s.pattern i) sigKill = true)
    (locks : s.pc i = .lockSighand) :
    ∃ t, exec step s (List.replicate 4 (.smunch i)) = some t ∧ t.pc i = .release ∧
      t.task.released = s.task.released ∧ Framed s i t := by
  let locked := {s with task := {s.task with siglock := some i}}.goto i .checkGroup
  let checked := locked.goto i .checkZombie
  let seen := checked.goto i .unlockZombie
  let dropped := {seen with task := unlockTaskSighand seen.task}.goto i .release
  have first : step s (.smunch i) = some locked := by
    simp [step, smunch, locks, lockTaskSighand, present, free, locked]
  have second : step locked (.smunch i) = some checked := by
    have pc : locked.pc i = .checkGroup := goTo ..
    have same : multiThreadOrTraced locked.task = false := single
    simp [step, smunch, pc, same, checked]
  have third : step checked (.smunch i) = some seen := by
    have pc : checked.pc i = .checkZombie := goTo ..
    have same : checked.task.exitState = .exitZombie := zombie
    have pattern : sigismember (checked.pattern i) sigKill = true := kill
    simp [step, smunch, pc, same, pattern, seen]
  have fourth : step seen (.smunch i) = some dropped := by
    have pc : seen.pc i = .unlockZombie := goTo ..
    simp [step, smunch, pc, dropped]
  refine ⟨dropped, ?_, goTo .., rfl, ?_⟩
  · change exec step s [.smunch i, .smunch i, .smunch i, .smunch i] = _
    rw [execCons first, execCons second, execCons third, execCons fourth]
    rfl
  · intro x other
    simp [System.goto, other, locked, checked, seen, dropped]

theorem secondLockReleasesTwice {s : System} {i j : Nat} (zombie : s.task.exitState = .exitZombie)
    (single : multiThreadOrTraced s.task = false) (present : s.task.sighand = true)
    (free : s.task.siglock = none) (kill : sigismember (s.pattern i) sigKill = true)
    (locks : s.pc i = .lockSighand) (releasing : s.pc j = .release) :
    ∃ ops t, exec step s ops = some t ∧ t.task.released = s.task.released + 2 := by
  obtain ⟨u, ran, pcI, released, framed⟩ := lockReachesRelease zombie single present free kill locks
  have other : j ≠ i := by
    rintro rfl
    rw [locks] at releasing
    contradiction
  have pcJ : u.pc j = .release := (framed j other).trans releasing
  have release : ∀ (v : System) (k : Nat), v.pc k = .release →
      step v (.smunch k) = some ({v with task := releaseTask v.task}.goto k (.readUnlock 0)) := by
    intro v k pc
    simp [step, smunch, pc]
  let once := {u with task := releaseTask u.task}.goto j (.readUnlock 0)
  let twice := {once with task := releaseTask once.task}.goto i (.readUnlock 0)
  have still : once.pc i = .release := (if_neg (Ne.symm other)).trans pcI
  refine ⟨List.replicate 4 (.smunch i) ++ [.smunch j, .smunch i], twice, ?_, ?_⟩
  · rw [execAppend, ran, Option.bind_some, execCons (release u j pcJ), execCons (release once i still)]
    rfl
  · change u.task.released + 1 + 1 = _
    rw [released]

/- Only callers below `n` call, and none of these locks while another is about to release. -/
def Apart (n : Nat) (s : System) (op : Op) (_ : System) : Prop :=
  match op with
  | .enter i _ => i < n
  | .smunch i => i < n ∧ (s.pc i = .lockSighand → ∀ j, j < n → s.pc j ≠ .release)
instance (n : Nat) (s : System) (op : Op) (t : System) : Decidable (Apart n s op t) := by
  unfold Apart; split <;> infer_instance

/- The callers there are not stay idle. -/
theorem apartLocksAlone (task : Task) {n : Nat} {ops : List Op} (apart : EachStep step (Apart n) (initial task) ops) :
    EachStep step LocksAlone (initial task) ops := by
  let waiting (s : System) : Prop := ∀ j, n ≤ j → s.pc j = .idle
  have start : waiting (initial task) := fun _ _ => rfl
  refine eachStepOfInvariant ?_ ?_ start apart
  · intro s op t wait taken own j above
    cases op with
    | enter k pattern =>
      simp only [step] at taken
      split at taken <;> try contradiction
      cases Option.some.inj taken
      have other : j ≠ k := Nat.ne_of_gt (Nat.lt_of_lt_of_le own above)
      have stayed := goFramed (i := k) (s := s) s.task (fun x => if x = k then pattern else s.pattern x)
        s.rcu .lookup j other
      rw [stayed]
      exact wait j above
    | smunch k =>
      have other : j ≠ k := Nat.ne_of_gt (Nat.lt_of_lt_of_le own.1 above)
      rw [(smunchMoves taken).1 j other]
      exact wait j above
  · rintro s op t wait _ own i j rfl locks releasing
    rcases Nat.lt_or_ge j n with below | above
    · exact own.2 locks j below releasing
    · rw [wait j above] at releasing
      contradiction

def zombie : Task := ⟨true, 0, .exitZombie, 0, true, none, true, false, 0⟩

/- All three find the task. One that does not kill locks first, then one that does, and the
last one locks after the release. -/
def oneAfterTheOther : List Op :=
  [.enter 0 256, .enter 1 256, .enter 2 1, .smunch 0, .smunch 1, .smunch 2] ++ List.replicate 7 (.smunch 2) ++
    List.replicate 6 (.smunch 0) ++ List.replicate 2 (.smunch 1)

theorem oneOfThreeReleases : (exec step (initial zombie) oneAfterTheOther).isSome = true ∧
    EachState step ReleasedAtMostOnce (initial zombie) oneAfterTheOther :=
  ⟨by decide +kernel,
    locksAloneReapsOnce zombie oneAfterTheOther (apartLocksAlone zombie (n := 3) (by decide +kernel))⟩

def bothPast : List Op :=
  [.enter 0 256, .enter 1 256] ++ List.replicate 5 (.smunch 0) ++ List.replicate 5 (.smunch 1) ++
    [.smunch 0, .smunch 1]

/- The second caller locks and looks after the first has unlocked and before it releases. -/
theorem zombieReleasedTwice : ¬ EachState step ReleasedAtMostOnce (initial zombie) bothPast := by
  intro each
  have twice : ∃ t, exec step (initial zombie) bothPast = some t ∧ t.task.released = 2 := ⟨_, rfl, rfl⟩
  obtain ⟨t, reached, released⟩ := twice
  have once : ReleasedAtMostOnce t := eachStateLast each reached
  rw [ReleasedAtMostOnce, released] at once
  contradiction

end KernelLabs.SighandReap
