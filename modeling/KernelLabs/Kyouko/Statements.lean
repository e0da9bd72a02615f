import KernelLabs.Kyouko.Driver

/-! The driver statement by statement. `rkintr` takes no lock, `FIFO_QUEUE` and `FIFO_FLUSH`
take none either, and `initiate_transfer` gives its lock back before it kicks the device, so
on several CPUs any statement of one may come between two of another. Here a call is what is
left of it to execute; the test of a condition is one step. -/
namespace KernelLabs.Statements
open Kyouko Buffer

/- The statement of `FIFO_WRITE` about to be executed. -/
inductive WritePc where
  | command | value | increment | test | reset | done
  deriving DecidableEq, Repr

def storeAtHead (f : Fifo) (change : FifoEntry → FifoEntry) : Fifo :=
  {f with kBase := store f.kBase f.head.toNat (change (f.kBase f.head.toNat))}

/- One statement. The entry counts as written when the head moves past it. -/
def writeStep (entry : FifoEntry) (s : WritePc × Kyouko3) : WritePc × Kyouko3 :=
  let k := s.2
  match s.1 with
  | .command => (.value, {k with fifo := storeAtHead k.fifo fun e => {e with command := entry.command}})
  | .value => (.increment, {k with fifo := storeAtHead k.fifo fun e => {e with value := entry.value}})
  | .increment =>
      (.test, {k with fifo := {k.fifo with head := k.fifo.head + 1, written := k.fifo.written ++ [entry]}})
  | .test => (if k.fifo.head ≥ fifoEntries then .reset else .done, k)
  | .reset => (.done, {k with fifo := {k.fifo with head := 0}})
  | .done => (.done, k)

def writeSteps (entry : FifoEntry) : Nat → WritePc × Kyouko3 → WritePc × Kyouko3
  | 0, s => s
  | n + 1, s => writeSteps entry n (writeStep entry s)

theorem doneStays (entry : FifoEntry) (n : Nat) (k : Kyouko3) :
    writeSteps entry n (.done, k) = (.done, k) := by
  induction n with
  | zero => rfl
  | succ n ih => exact ih

theorem incrementSteps (k : Kyouko3) (entry : FifoEntry) (n : Nat) :
    writeSteps entry (n + 3) (.increment, k) = (.done, {k with fifo := {k.fifo with
      head := advance k.fifo.head, written := k.fifo.written ++ [entry]}}) := by
  by_cases last : k.fifo.head + 1 ≥ fifoEntries
  · simp only [writeSteps, writeStep, last, if_true, doneStays, advance]
  · simp only [writeSteps, writeStep, last, if_false, doneStays, advance]

/- Without an interrupt the statements are the function. -/
theorem writeStepsWhole (k : Kyouko3) (entry : FifoEntry) (n : Nat) :
    writeSteps entry (n + 5) (.command, k) = (.done, fifoWrite k entry.command entry.value) := by
  rw [writeSteps, writeSteps, writeStep, writeStep, incrementSteps]
  simp only [storeAtHead, storeSame, storeTwice]
  rfl

/- A statement, or a call of `FIFO_WRITE` or `K_WRITE_REG` in one, with the values read
before. `K_WRITE_REG` waits between its argument and the store. -/
inductive Stmt where
  | write (pc : WritePc) (entry : FifoEntry)
  | kick
  | storeHead (head : BitVec 32)
  | choose (cmdCount : BitVec 32)
  | address
  | config (cmdCount : BitVec 32)
  | fill
  | count (cmdCount : BitVec 32)
  | testFull
  | setFull
  | unlock (direct : Bool)
  | testWait
  | snooze
  | status
  | clear
  | mask (iflags : BitVec 32)
  | drain
  | drainAddress
  | drainConfig
  | testEmpty
  | clearFull
  | testTail
  | readTail
  | storeTail (tail : BitVec 32)
  deriving DecidableEq, Repr

/- What executing it changes, and what is to be executed in its place. -/
def execStmt (k : Kyouko3) : Stmt → List Stmt × Kyouko3
  | .write pc entry =>
      let s := writeStep entry (pc, k)
      (if s.1 = .done then [] else [.write s.1 entry], s.2)
  | .kick => ([.storeHead k.fifo.head], k)
  | .storeHead head => ([], kWriteReg k fifoHead head)
  -- `initiate_transfer`
  | .choose cmdCount =>
      (if takesDirectPath k then [.address, .config cmdCount, .fill, .unlock true]
        else [.count cmdCount, .fill, .testFull, .unlock false], k)
  | .address =>
      ([.write .command ⟨bufferAAddress, (k.dmabuffs k.dmaFill.toNat).pBase.setWidth 32⟩], k)
  | .config cmdCount => ([.write .command ⟨bufferAConfig, cmdCount⟩], k)
  | .fill => ([], {k with dmaFill := (k.dmaFill + 1) % numBufs})
  | .count cmdCount =>
      let buff := k.dmabuffs k.dmaFill.toNat
      ([], {k with dmabuffs := store k.dmabuffs k.dmaFill.toNat {buff with cmdCount := cmdCount}})
  | .testFull => (if k.dmaFill = k.dmaDrain then [.setFull] else [], k)
  | .setFull => ([], {k with isFull := true})
  | .unlock direct => (if direct then [.kick] else [.testWait], k)
  | .testWait => (if k.isFull then [.snooze] else [], k)
  | .snooze => ([], k)
  -- `rkintr`
  | .status => ([.clear, .mask (kReadReg k interruptStatus)], k)
  | .clear => ([], kWriteReg k interruptStatus 0xf)
  | .mask iflags =>
      (if iflags &&& irqMask ≠ 0 then [] else [.drain, .drainAddress, .drainConfig, .kick, .testEmpty], k)
  | .drain => ([], {k with dmaDrain := (k.dmaDrain + 1) % numBufs})
  | .drainAddress =>
      ([.write .command ⟨bufferAAddress, (k.dmabuffs k.dmaDrain.toNat).pBase.setWidth 32⟩], k)
  | .drainConfig =>
      ([.write .command ⟨bufferAConfig, (k.dmabuffs k.dmaDrain.toNat).cmdCount⟩], k)
  | .testEmpty => (if k.dmaFill ≠ k.dmaDrain then [.clearFull] else [], k)
  | .clearFull => ([], {k with isFull := false})
  -- the loop of `FIFO_FLUSH`
  | .testTail => (if flushWaits k then [.readTail, .testTail] else [], k)
  | .readTail => ([.storeTail (kReadReg k fifoTail)], k)
  | .storeTail tail => ([], {k with fifo := {k.fifo with tailCache := tail}})

def Stmt.isUnlock : Stmt → Bool
  | .unlock _ => true
  | _ => false

def startProgram (cmdCount : BitVec 32) : List Stmt := [.choose cmdCount]
def rkintrProgram : List Stmt := [.status]
def queueProgram (entry : FifoEntry) : List Stmt := [.write .command entry]
def flushProgram : List Stmt := [.kick, .testTail]

/- A sleeper of `dma_snooze` goes on when its condition holds. -/
def Blocks (k : Kyouko3) (stmt : Stmt) : Prop := stmt = .snooze ∧ snoozeOver k = false
instance (k : Kyouko3) (stmt : Stmt) : Decidable (Blocks k stmt) := by unfold Blocks; infer_instance

inductive Actor where
  | handler
  | thread (n : Nat)
  deriving DecidableEq, Repr

/- `rkintr` runs on one CPU at a time. `holder` has the lock of `initiate_transfer`. -/
structure Cpus where
  k : Kyouko3
  holder : Option Nat
  handler : List Stmt
  code : Nat → List Stmt

def Cpus.left (s : Cpus) : Actor → List Stmt
  | .handler => s.handler
  | .thread n => s.code n

def Cpus.goto (s : Cpus) (actor : Actor) (left : List Stmt) : Cpus :=
  match actor with
  | .handler => {s with handler := left}
  | .thread n => {s with code := store s.code n left}

/- The next statement of one of them. -/
def Cpus.next (s : Cpus) (actor : Actor) : Option (Stmt × Cpus) :=
  match s.left actor with
  | [] => none
  | stmt :: rest =>
      if Blocks s.k stmt then none
      else
        let done := execStmt s.k stmt
        let holder := if stmt.isUnlock then none else s.holder
        some (stmt, {s with k := done.2, holder := holder}.goto actor (done.1 ++ rest))

def Cpus.enter (s : Cpus) (thread : Nat) (program : List Stmt) : Option Cpus :=
  if s.code thread = [] then some (s.goto (.thread thread) program) else none

/- A `START_DMA` that gets the lock; until then it has changed nothing. -/
def Cpus.startDma (s : Cpus) (thread : Nat) (cmdCount : BitVec 32) : Option Cpus :=
  if s.holder = none then {s with holder := some thread}.enter thread (startProgram cmdCount) else none

def Cpus.interrupt (s : Cpus) (status : BitVec 32) : Option Cpus :=
  if status &&& 0x02 ≠ 0 ∧ s.handler = [] then
    some {s with k := kWriteReg s.k interruptStatus status, handler := rkintrProgram}
  else none

def Cpus.signal (s : Cpus) (thread : Nat) : Option Cpus :=
  if s.code thread = [.snooze] then some (s.goto (.thread thread) []) else none

def idle (k : Kyouko3) : Cpus := ⟨k, none, [], fun _ => []⟩

/- Nobody else runs: as many statements of a program as are asked for. -/
def runAlone : Nat → List Stmt × Kyouko3 → List Stmt × Kyouko3
  | 0, s => s
  | _ + 1, ([], k) => ([], k)
  | n + 1, (stmt :: rest, k) => runAlone n ((execStmt k stmt).1 ++ rest, (execStmt k stmt).2)

/- From one to the other without a statement of anybody else in between. -/
def Reaches (s t : List Stmt × Kyouko3) : Prop := ∃ n, runAlone n s = t

theorem runAloneAdd (m n : Nat) (s : List Stmt × Kyouko3) : runAlone (m + n) s = runAlone n (runAlone m s) := by
  induction m generalizing s with
  | zero => rw [Nat.zero_add]; rfl
  | succ m ih =>
    rw [Nat.succ_add]
    obtain ⟨prog, k⟩ := s
    cases prog with
    | nil =>
      cases n with
      | zero => rfl
      | succ n => rfl
    | cons stmt rest => exact ih _

theorem Reaches.refl (s : List Stmt × Kyouko3) : Reaches s s := ⟨0, rfl⟩

theorem Reaches.trans {s t u : List Stmt × Kyouko3} (first : Reaches s t) (second : Reaches t u) : Reaches s u := by
  obtain ⟨m, rfl⟩ := first
  obtain ⟨n, rfl⟩ := second
  exact ⟨m + n, runAloneAdd m n s⟩

theorem Reaches.step {stmt : Stmt} {rest : List Stmt} {k : Kyouko3} {t : List Stmt × Kyouko3}
    (next : Reaches ((execStmt k stmt).1 ++ rest, (execStmt k stmt).2) t) : Reaches (stmt :: rest, k) t := by
  obtain ⟨n, ran⟩ := next
  exact ⟨n + 1, ran⟩

theorem reachesWrite (entry : FifoEntry) (rest : List Stmt) (k : Kyouko3) :
    Reaches (.write .command entry :: rest, k) (rest, fifoWrite k entry.command entry.value) := by
  have whole : storeAtHead (storeAtHead k.fifo fun e => {e with command := entry.command})
      (fun e => {e with value := entry.value}) = {k.fifo with kBase := store k.fifo.kBase k.fifo.head.toNat entry} := by
    simp only [storeAtHead, storeSame, storeTwice]
  refine Reaches.step (Reaches.step (Reaches.step (Reaches.step ?_)))
  simp only [execStmt, writeStep, whole]
  by_cases last : k.fifo.head + 1 ≥ fifoEntries
  · refine ⟨1, ?_⟩
    simp only [last, if_true, fifoWrite, advance]
    rfl
  · refine ⟨0, ?_⟩
    simp only [last, if_false, fifoWrite, advance]
    rfl

theorem reachesKick (rest : List Stmt) (k : Kyouko3) : Reaches (.kick :: rest, k) (rest, kickFifo k) :=
  Reaches.step (Reaches.step (Reaches.refl _))

/- Left alone, a `START_DMA` does what `initiateTransfer` says, and then comes to its wait. -/
theorem startAlone (k : Kyouko3) (cmdCount : BitVec 32) :
    Reaches (startProgram cmdCount, k)
      (if takesDirectPath k then [] else [.testWait], (initiateTransfer k cmdCount).2) := by
  refine Reaches.step ?_
  unfold initiateTransfer
  cases direct : takesDirectPath k with
  | true =>
    simp only [execStmt, direct, if_true]
    refine Reaches.step ((reachesWrite _ _ _).trans (Reaches.step ((reachesWrite _ _ _).trans ?_)))
    exact Reaches.step (Reaches.step (reachesKick _ _))
  | false =>
    simp only [execStmt, direct, Bool.false_eq_true, if_false]
    refine Reaches.step (Reaches.step (Reaches.step ?_))
    dsimp only [execStmt]
    split
    · exact Reaches.step (Reaches.step (Reaches.refl _))
    · exact Reaches.step (Reaches.refl _)

theorem reachesTestEmpty (k : Kyouko3) :
    Reaches ([.testEmpty], k) ([], if k.dmaFill ≠ k.dmaDrain then {k with isFull := false} else k) := by
  refine Reaches.step ?_
  dsimp only [execStmt]
  split
  · exact Reaches.step (Reaches.refl _)
  · exact Reaches.refl _

/- And the handler what `rkintr` says. -/
theorem rkintrAlone (k : Kyouko3) : Reaches (rkintrProgram, k) ([], (rkintr k).2) := by
  refine Reaches.step (Reaches.step (Reaches.step ?_))
  unfold rkintr
  dsimp only [execStmt]
  rw [if_neg (statusUnmasked _), if_neg (statusUnmasked _)]
  refine Reaches.step (Reaches.step ((reachesWrite _ _ _).trans ?_))
  refine Reaches.step ((reachesWrite _ _ _).trans ((reachesKick _ _).trans ?_))
  exact reachesTestEmpty _

theorem writeNext (k : Kyouko3) (pc : WritePc) (entry : FifoEntry) :
    (execStmt k (.write pc entry)).1 = [] ∨ ∃ pc', (execStmt k (.write pc entry)).1 = [.write pc' entry] := by
  rw [execStmt]
  dsimp only
  split
  · exact Or.inl rfl
  · exact Or.inr ⟨_, rfl⟩

@[simp] theorem gotoK (s : Cpus) (actor : Actor) (left : List Stmt) : (s.goto actor left).k = s.k := by
  cases actor <;> rfl

@[simp] theorem gotoHolder (s : Cpus) (actor : Actor) (left : List Stmt) :
    (s.goto actor left).holder = s.holder := by
  cases actor <;> rfl

@[simp] theorem gotoLeft (s : Cpus) (actor : Actor) (left : List Stmt) : (s.goto actor left).left actor = left := by
  cases actor with
  | handler => rfl
  | thread n => exact storeSame ..

theorem gotoOther {s : Cpus} {actor other : Actor} (apart : other ≠ actor) (left : List Stmt) :
    (s.goto actor left).left other = s.left other := by
  cases actor with
  | handler =>
    cases other with
    | handler => exact absurd rfl apart
    | thread m => rfl
  | thread n =>
    cases other with
    | handler => rfl
    | thread m => exact storeOther fun same => apart (congrArg Actor.thread same)

/- What a step of an actor is. -/
theorem nextExact {s t : Cpus} {actor : Actor} {stmt : Stmt} (next : s.next actor = some (stmt, t)) :
    ∃ rest, s.left actor = stmt :: rest ∧ ¬ Blocks s.k stmt ∧
      t = {s with
        k := (execStmt s.k stmt).2,
        holder := if stmt.isUnlock then none else s.holder}.goto actor ((execStmt s.k stmt).1 ++ rest) := by
  unfold Cpus.next at next
  split at next <;> try contradiction
  rename_i first rest left
  split at next <;> try contradiction
  rename_i goes
  cases Option.some.inj next
  exact ⟨rest, left, goes, rfl⟩

section Begins
variable {s t : Cpus} {thread : Nat}

/- And what begins or wakes one. -/
theorem enterExact {program : List Stmt} (entered : s.enter thread program = some t) :
    s.code thread = [] ∧ t = s.goto (.thread thread) program := by
  unfold Cpus.enter at entered
  split at entered <;> try contradiction
  rename_i between
  exact ⟨between, (Option.some.inj entered).symm⟩

theorem startExact {cmdCount : BitVec 32} (started : s.startDma thread cmdCount = some t) :
    s.holder = none ∧ s.code thread = [] ∧
      t = {s with holder := some thread}.goto (.thread thread) (startProgram cmdCount) := by
  unfold Cpus.startDma at started
  split at started <;> try contradiction
  rename_i free
  exact ⟨free, enterExact started⟩

theorem interruptExact {status : BitVec 32} (raised : s.interrupt status = some t) :
    s.handler = [] ∧ t = {s with k := kWriteReg s.k interruptStatus status, handler := rkintrProgram} := by
  unfold Cpus.interrupt at raised
  split at raised <;> try contradiction
  rename_i idle
  exact ⟨idle.2, (Option.some.inj raised).symm⟩

theorem signalExact (woken : s.signal thread = some t) :
    s.code thread = [.snooze] ∧ t = s.goto (.thread thread) [] := by
  unfold Cpus.signal at woken
  split at woken <;> try contradiction
  rename_i sleeps
  exact ⟨sleeps, (Option.some.inj woken).symm⟩

end Begins

end KernelLabs.Statements
