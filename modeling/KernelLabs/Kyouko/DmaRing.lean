import KernelLabs.Kyouko.Statements
import KernelLabs.Library.Runs

/-! The ring of DMA buffers under any interleaving of the statements of `START_DMA` calls by
any number of threads and of the interrupt handler. Where the two keep apart, which nothing
in the driver sees to, a call and an interrupt are each one step of a ring. -/
namespace KernelLabs.DmaRing
open Kyouko Buffer Runs Statements

/- Beside the driver: what was submitted, the slots accepted and not yet issued, and for
each transfer the device has been given whether it was one that was accepted. -/
structure Machine where
  cpus : Cpus
  submitted : List Transfer
  waiting : List Nat
  inflight : List Bool
  completed : Nat

inductive Op where
  | startDma (thread : Nat) (cmdCount : BitVec 32)
  | interrupt (status : BitVec 32)
  | run (actor : Actor)
  | signal (thread : Nat)
  deriving DecidableEq, Repr

/- What a statement does to these lists. The device counts as given a transfer once its
second entry is being written, which is before the kick shows it. -/
def note (s : Machine) : Stmt → Machine
  | .count _ => {s with waiting := s.waiting ++ [fillSlot s.cpus.k]}
  | .config _ => {s with inflight := s.inflight ++ [true]}
  | .drainConfig =>
      let slot := s.cpus.k.dmaDrain.toNat
      {s with inflight := s.inflight ++ [decide (slot ∈ s.waiting)], waiting := s.waiting.erase slot}
  | _ => s

def step (s : Machine) : Op → Option Machine
  | .startDma thread cmdCount =>
      (s.cpus.startDma thread cmdCount).map fun cpus => {s with
        cpus := cpus,
        submitted := s.submitted ++ [((s.cpus.k.dmabuffs (fillSlot s.cpus.k)).pBase, cmdCount)]}
  | .interrupt status =>
      match s.inflight with
      | [] => none
      | accepted :: rest =>
          (s.cpus.interrupt status).map fun cpus => {s with
            cpus := cpus,
            inflight := rest,
            completed := s.completed + accepted.toNat}
  | .run actor => (s.cpus.next actor).map fun ran => {note s ran.1 with cpus := ran.2}
  | .signal thread => (s.cpus.signal thread).map fun cpus => {s with cpus := cpus}

/- The module is loaded, opened, and its buffers are bound. -/
def initial (control : Nat → BitVec 32) (pBase : BitVec 64) (memory : Nat → FifoEntry) (head : BitVec 32)
    (dmaBase : Nat → BitVec 64) : Machine :=
  ⟨idle (bindDma (kyouko3Open (loaded control memory) pBase memory head) dmaBase), [], [], [], 0⟩

def coldBase (i : Nat) : BitVec 64 := BitVec.ofNat 64 (0x20000 * (i % 8))
def coldRing : Machine := initial (fun _ => 0) 0 coldMemory 0 coldBase

/- A call takes the lock while no handler runs, and a handler begins while no call has it. -/
def KeptApart (s : Machine) : Op → Prop
  | .startDma _ _ => s.cpus.handler = []
  | .interrupt _ => s.cpus.holder = none
  | _ => True
instance (s : Machine) (op : Op) : Decidable (KeptApart s op) := by
  cases op <;> unfold KeptApart <;> infer_instance

/- What is left of the driver when calls and interrupts are one step each: the entries
written, the slots, and which of them wait or are with the device. -/
structure BufferRing where
  written : List FifoEntry
  dmabuffs : Nat → KDmabuff
  fill : BitVec 32
  drain : BitVec 32
  isFull : Bool
  waiting : List Nat
  inflight : List Bool

def BufferRing.fillSlot (r : BufferRing) : Nat := r.fill.toNat
def BufferRing.issueSlot (r : BufferRing) : Nat := ((r.drain + 1) % numBufs).toNat
def BufferRing.transferAt (r : BufferRing) (slot : Nat) : Transfer := ((r.dmabuffs slot).pBase, (r.dmabuffs slot).cmdCount)
def BufferRing.direct (r : BufferRing) : Bool := r.fill == r.drain && !r.isFull

def BufferRing.submit (r : BufferRing) (cmdCount : BitVec 32) : BufferRing :=
  let next := (r.fill + 1) % numBufs
  let buff := r.dmabuffs r.fillSlot
  if r.direct then {r with
    written := r.written ++ transferEntries (buff.pBase, cmdCount),
    fill := next,
    inflight := r.inflight ++ [true]}
  else {r with
    dmabuffs := store r.dmabuffs r.fillSlot {buff with cmdCount := cmdCount},
    fill := next,
    isFull := if next = r.drain then true else r.isFull,
    waiting := r.waiting ++ [r.fillSlot]}

def BufferRing.complete (r : BufferRing) : BufferRing :=
  let next := (r.drain + 1) % numBufs
  {r with
    written := r.written ++ transferEntries (r.transferAt r.issueSlot),
    drain := next,
    isFull := if r.fill ≠ next then false else r.isFull,
    waiting := r.waiting.erase r.issueSlot,
    inflight := r.inflight ++ [decide (r.issueSlot ∈ r.waiting)]}

def viewOf (k : Kyouko3) (waiting : List Nat) (inflight : List Bool) : BufferRing where
  written := k.fifo.written
  dmabuffs := k.dmabuffs
  fill := k.dmaFill
  drain := k.dmaDrain
  isFull := k.isFull
  waiting := waiting
  inflight := inflight

def view (s : Machine) : BufferRing := viewOf s.cpus.k s.waiting s.inflight

theorem writtenPair (written : List FifoEntry) (t : Transfer) :
    written ++ transferEntries t =
      written ++ [⟨bufferAAddress, t.1.setWidth 32⟩] ++ [⟨bufferAConfig, t.2⟩] := by
  rw [List.append_assoc]; rfl

/- These steps are what the functions do to the driver when they run alone. -/
theorem submitDriver (k : Kyouko3) (waiting : List Nat) (inflight : List Bool) (cmdCount : BitVec 32) :
    (viewOf k waiting inflight).submit cmdCount =
      if takesDirectPath k then viewOf (initiateTransfer k cmdCount).2 waiting (inflight ++ [true])
      else viewOf (initiateTransfer k cmdCount).2 (waiting ++ [fillSlot k]) inflight := by
  have same : (viewOf k waiting inflight).direct = takesDirectPath k := rfl
  rw [BufferRing.submit, initiateTransfer, same]
  cases takesDirectPath k with
  | true =>
    simp only [if_true, writtenPair]
    rfl
  | false =>
    simp only [Bool.false_eq_true, if_false]
    dsimp only [viewOf]
    split
    · rename_i full
      simp only [full, if_true]
      rfl
    · rename_i free
      simp only [free, if_false]
      rfl

theorem completeDriver (k : Kyouko3) (waiting : List Nat) (inflight : List Bool) :
    (viewOf k waiting inflight).complete =
      viewOf (rkintr k).2 (waiting.erase (issueSlot k)) (inflight ++ [decide (issueSlot k ∈ waiting)]) := by
  rw [BufferRing.complete, rkintr, writtenPair]
  dsimp only
  rw [if_neg (statusUnmasked _)]
  dsimp only [viewOf, kickFifo, kWriteReg, writeTransfer, fifoWrite]
  by_cases same : k.dmaFill = (k.dmaDrain + 1) % numBufs
  · simp only [ne_eq, same, not_true_eq_false, if_false]
    rfl
  · simp only [ne_eq, same, not_false_eq_true, if_true]
    rfl

/- What a statement comes to for the ring once all that it stands for is executed. -/
def denote (r : BufferRing) : Stmt → BufferRing
  | .write pc entry =>
      match pc with
      | .command | .value | .increment => {r with written := r.written ++ [entry]}
      | .test | .reset | .done => r
  | .choose cmdCount => r.submit cmdCount
  | .address =>
      {r with written := r.written ++ [⟨bufferAAddress, (r.dmabuffs r.fillSlot).pBase.setWidth 32⟩]}
  | .config cmdCount => {r with
      written := r.written ++ [⟨bufferAConfig, cmdCount⟩],
      inflight := r.inflight ++ [true]}
  | .fill => {r with fill := (r.fill + 1) % numBufs}
  | .count cmdCount => {r with
      dmabuffs := store r.dmabuffs r.fillSlot {r.dmabuffs r.fillSlot with cmdCount := cmdCount},
      waiting := r.waiting ++ [r.fillSlot]}
  | .testFull => {r with isFull := if r.fill = r.drain then true else r.isFull}
  | .setFull => {r with isFull := true}
  | .status | .mask _ => r.complete
  | .drain => {r with drain := (r.drain + 1) % numBufs}
  | .drainAddress => {r with
      written := r.written ++ [⟨bufferAAddress, (r.dmabuffs r.drain.toNat).pBase.setWidth 32⟩]}
  | .drainConfig => {r with
      written := r.written ++ [⟨bufferAConfig, (r.dmabuffs r.drain.toNat).cmdCount⟩],
      inflight := r.inflight ++ [decide (r.drain.toNat ∈ r.waiting)],
      waiting := r.waiting.erase r.drain.toNat}
  | .testEmpty => {r with isFull := if r.fill ≠ r.drain then false else r.isFull}
  | .clearFull => {r with isFull := false}
  | _ => r

def ends : Stmt → Bool
  | .choose _ | .unlock _ => true
  | _ => false

/- The rest of a call that has the lock, up to where it gives it back, or of a handler. -/
def finish (r : BufferRing) : List Stmt → BufferRing
  | [] => r
  | stmt :: rest => if ends stmt then denote r stmt else finish (denote r stmt) rest

theorem finishGoes (stmt : Stmt) (goes : ends stmt = false) (r : BufferRing) (rest : List Stmt) :
    finish r (stmt :: rest) = finish (denote r stmt) rest := by
  rw [finish, goes]; rfl

theorem finishEnds (stmt : Stmt) (last : ends stmt = true) (r : BufferRing) (rest : List Stmt) :
    finish r (stmt :: rest) = denote r stmt := by
  rw [finish, last]; rfl

/- The machine after a statement of no matter whom. -/
def after (s : Machine) (stmt : Stmt) : Machine :=
  {note s stmt with cpus := {s.cpus with k := (execStmt s.cpus.k stmt).2}}

theorem finishDirect {r : BufferRing} (direct : r.direct = true) (cmdCount : BitVec 32) (rest : List Stmt) :
    finish r (.address :: .config cmdCount :: .fill :: .unlock true :: rest) = r.submit cmdCount := by
  rw [finishGoes .address rfl, finishGoes (.config cmdCount) rfl, finishGoes .fill rfl,
    finishEnds (.unlock true) rfl, BufferRing.submit, if_pos direct, writtenPair]
  rfl

theorem finishQueued {r : BufferRing} (queued : r.direct = false) (cmdCount : BitVec 32) (rest : List Stmt) :
    finish r (.count cmdCount :: .fill :: .testFull :: .unlock false :: rest) = r.submit cmdCount := by
  rw [finishGoes (.count cmdCount) rfl, finishGoes .fill rfl, finishGoes .testFull rfl,
    finishEnds (.unlock false) rfl, BufferRing.submit, queued]
  rfl

theorem finishHandled (r : BufferRing) (rest : List Stmt) :
    finish r (.drain :: .drainAddress :: .drainConfig :: .kick :: .testEmpty :: rest) = finish r.complete rest := by
  rw [finishGoes .drain rfl, finishGoes .drainAddress rfl, finishGoes .drainConfig rfl, finishGoes .kick rfl,
    finishGoes .testEmpty rfl, BufferRing.complete, writtenPair]
  rfl

theorem finishChoose (s : Machine) (cmdCount : BitVec 32) (rest : List Stmt) :
    finish (view (after s (.choose cmdCount))) ((execStmt s.cpus.k (.choose cmdCount)).1 ++ rest) =
      (view s).submit cmdCount := by
  have same : takesDirectPath s.cpus.k = (view s).direct := rfl
  have here : view (after s (.choose cmdCount)) = view s := rfl
  rw [here, execStmt, same]
  cases path : (view s).direct with
  | true => exact finishDirect path cmdCount rest
  | false => exact finishQueued path cmdCount rest

theorem finishMask (s : Machine) (iflags : BitVec 32) (rest : List Stmt) :
    finish (view (after s (.mask iflags))) ((execStmt s.cpus.k (.mask iflags)).1 ++ rest) =
      finish (view s).complete rest := by
  have here : view (after s (.mask iflags)) = view s := rfl
  rw [here, execStmt, if_neg (statusUnmasked iflags)]
  exact finishHandled (view s) rest

/- A test that puts one statement before the rest, or none. -/
theorem finishIf (r : BufferRing) (p : Prop) [Decidable p] (stmt : Stmt) (goes : ends stmt = false) (rest : List Stmt) :
    finish r ((if p then [stmt] else []) ++ rest) = finish (if p then denote r stmt else r) rest := by
  split
  · exact finishGoes stmt goes r rest
  · rfl

/- Executing a statement changes nothing of what the rest comes to. -/
theorem finishExec (s : Machine) {stmt : Stmt} (locked : stmt.isUnlock = false) (rest : List Stmt) :
    finish (view (after s stmt)) ((execStmt s.cpus.k stmt).1 ++ rest) = finish (view s) (stmt :: rest) := by
  cases stmt with
  | write pc entry =>
    cases pc with
    | command | value | increment => rfl
    | test =>
      simp only [execStmt, writeStep, after]
      split
      · rfl
      · rfl
    | reset | done => rfl
  | choose cmdCount => exact (finishChoose s cmdCount rest).trans (finishEnds (.choose cmdCount) rfl _ _).symm
  | testFull =>
    have tested := finishIf (view s) (s.cpus.k.dmaFill = s.cpus.k.dmaDrain) .setFull rfl rest
    refine tested.trans (Eq.trans (congrArg (fun r => finish r rest) ?_) (finishGoes .testFull rfl _ _).symm)
    change _ = {view s with isFull := if s.cpus.k.dmaFill = s.cpus.k.dmaDrain then true else (view s).isFull}
    split <;> rfl
  | testEmpty =>
    have tested := finishIf (view s) (s.cpus.k.dmaFill ≠ s.cpus.k.dmaDrain) .clearFull rfl rest
    refine tested.trans (Eq.trans (congrArg (fun r => finish r rest) ?_) (finishGoes .testEmpty rfl _ _).symm)
    change _ = {view s with isFull := if s.cpus.k.dmaFill ≠ s.cpus.k.dmaDrain then false else (view s).isFull}
    split <;> rfl
  | mask iflags => exact (finishMask s iflags rest).trans (finishGoes (.mask iflags) rfl _ _).symm
  | testWait =>
    simp only [execStmt]
    split <;> rfl
  | testTail =>
    simp only [execStmt]
    split <;> rfl
  | unlock => contradiction
  | kick | storeHead | address | config | fill | count | setFull | snooze | status | clear | drain | drainAddress
    | drainConfig | clearFull | readTail | storeTail => rfl

/- What a call may have left to execute while it has the lock, on either path. -/
inductive Section : List Stmt → Prop where
  | choose (cmdCount : BitVec 32) : Section [.choose cmdCount]
  | address (cmdCount : BitVec 32) : Section [.address, .config cmdCount, .fill, .unlock true]
  | writeAddress (pc : WritePc) (entry : FifoEntry) (cmdCount : BitVec 32) :
      Section [.write pc entry, .config cmdCount, .fill, .unlock true]
  | config (cmdCount : BitVec 32) : Section [.config cmdCount, .fill, .unlock true]
  | writeConfig (pc : WritePc) (entry : FifoEntry) : Section [.write pc entry, .fill, .unlock true]
  | fillDirect : Section [.fill, .unlock true]
  | count (cmdCount : BitVec 32) : Section [.count cmdCount, .fill, .testFull, .unlock false]
  | fillQueued : Section [.fill, .testFull, .unlock false]
  | testFull : Section [.testFull, .unlock false]
  | setFull : Section [.setFull, .unlock false]
  | unlock (direct : Bool) : Section [.unlock direct]

/- And without it. -/
inductive Outside : List Stmt → Prop where
  | returned : Outside []
  | kick : Outside [.kick]
  | storeHead (head : BitVec 32) : Outside [.storeHead head]
  | testWait : Outside [.testWait]
  | snooze : Outside [.snooze]

def handles : Stmt → Bool
  | .write .. | .kick | .storeHead _ | .status | .clear | .mask _ | .drain | .drainAddress | .drainConfig
  | .testEmpty | .clearFull => true
  | _ => false

/- Calls that have the lock are where such calls can be, and no handler runs beside one. -/
structure Tidy (c : Cpus) : Prop where
  held : ∀ t, c.holder = some t → Section (c.code t)
  others : ∀ t, c.holder ≠ some t → Outside (c.code t)
  handles : c.handler.all handles = true
  apart : c.holder ≠ none → c.handler = []

theorem sectionExec {stmt : Stmt} {rest : List Stmt} (inside : Section (stmt :: rest))
    (locked : stmt.isUnlock = false) (k : Kyouko3) : Section ((execStmt k stmt).1 ++ rest) := by
  cases inside with
  | choose cmdCount =>
    rw [execStmt]
    dsimp only
    split
    · exact .address cmdCount
    · exact .count cmdCount
  | address cmdCount => exact .writeAddress _ _ cmdCount
  | writeAddress pc entry cmdCount =>
    rcases writeNext k pc entry with finished | ⟨pc', going⟩
    · rw [finished]; exact .config cmdCount
    · rw [going]; exact .writeAddress pc' entry cmdCount
  | config cmdCount => exact .writeConfig _ _
  | writeConfig pc entry =>
    rcases writeNext k pc entry with finished | ⟨pc', going⟩
    · rw [finished]; exact .fillDirect
    · rw [going]; exact .writeConfig pc' entry
  | fillDirect => exact .unlock true
  | count cmdCount => exact .fillQueued
  | fillQueued => exact .testFull
  | testFull =>
    rw [execStmt]
    dsimp only
    split
    · exact .setFull
    · exact .unlock false
  | setFull => exact .unlock false
  | unlock => contradiction

theorem sectionUnlock {stmt : Stmt} {rest : List Stmt} (inside : Section (stmt :: rest))
    (unlocked : stmt.isUnlock = true) (k : Kyouko3) : Outside ((execStmt k stmt).1 ++ rest) := by
  cases inside with
  | unlock direct =>
    cases direct with
    | true => exact .kick
    | false => exact .testWait
  | _ => contradiction

theorem outsideExec (s : Machine) {stmt : Stmt} {rest : List Stmt} (outside : Outside (stmt :: rest)) :
    stmt.isUnlock = false ∧ Outside ((execStmt s.cpus.k stmt).1 ++ rest) ∧ view (after s stmt) = view s := by
  cases outside with
  | kick => exact ⟨rfl, .storeHead _, rfl⟩
  | storeHead head => exact ⟨rfl, .returned, rfl⟩
  | testWait =>
    refine ⟨rfl, ?_, rfl⟩
    rw [execStmt]
    dsimp only
    split
    · exact .snooze
    · exact .returned
  | snooze => exact ⟨rfl, .returned, rfl⟩

theorem handlesExec {stmt : Stmt} (here : handles stmt = true) (k : Kyouko3) :
    stmt.isUnlock = false ∧ (execStmt k stmt).1.all handles = true := by
  cases stmt with
  | write pc entry =>
    refine ⟨rfl, ?_⟩
    rcases writeNext k pc entry with finished | ⟨pc', going⟩
    · rw [finished]; rfl
    · rw [going]; rfl
  | mask iflags =>
    refine ⟨rfl, ?_⟩
    rw [execStmt]
    dsimp only
    split <;> rfl
  | testEmpty =>
    refine ⟨rfl, ?_⟩
    rw [execStmt]
    dsimp only
    split <;> rfl
  | kick | storeHead | status | clear | drain | drainAddress | drainConfig | clearFull => exact ⟨rfl, rfl⟩
  | _ => exact absurd here Bool.false_ne_true

/- The ring once the call that has the lock, or else the handler, is through. -/
def settled (s : Machine) : BufferRing :=
  match s.cpus.holder with
  | some thread => finish (view s) (s.cpus.code thread)
  | none => finish (view s) s.cpus.handler

/- A call submits when it gets the lock, an interrupt completes when it arrives, and every
other step only goes on with what has begun. -/
def Settles (s : Machine) (op : Op) (t : Machine) : Prop :=
  match op with
  | .startDma _ cmdCount =>
      settled s = view s ∧ settled t = (settled s).submit cmdCount ∧ t.completed = s.completed ∧
        t.submitted = s.submitted ++ [(((view s).dmabuffs (view s).fillSlot).pBase, cmdCount)]
  | .interrupt _ => ∃ accepted rest, s.inflight = accepted :: rest ∧
      settled s = view s ∧ settled t = {settled s with inflight := rest}.complete ∧
        t.completed = s.completed + accepted.toNat ∧ t.submitted = s.submitted
  | _ => settled t = settled s ∧ t.completed = s.completed ∧ t.submitted = s.submitted

theorem noteKeeps (s : Machine) (stmt : Stmt) :
    (note s stmt).completed = s.completed ∧ (note s stmt).submitted = s.submitted := by
  cases stmt <;> exact ⟨rfl, rfl⟩

theorem outsideFree {c : Cpus} (tidy : Tidy c) (free : c.holder = none) (n : Nat) : Outside (c.code n) :=
  tidy.others n (by rw [free]; nofun)

theorem startSettles {s t : Machine} {thread : Nat} {cmdCount : BitVec 32} (tidy : Tidy s.cpus)
    (taken : step s (.startDma thread cmdCount) = some t) (alone : s.cpus.handler = []) :
    Tidy t.cpus ∧ Settles s (.startDma thread cmdCount) t := by
  obtain ⟨cpus, started, rfl⟩ := Option.map_eq_some_iff.mp taken
  obtain ⟨free, _, rfl⟩ := startExact started
  refine ⟨⟨?_, ?_, tidy.handles, fun _ => alone⟩, ?_, ?_, rfl, rfl⟩
  · intro n holds
    cases Option.some.inj holds
    simp only [Cpus.goto, storeSame]
    exact .choose cmdCount
  · intro n other
    have apart : n ≠ thread := fun same => other (congrArg some same.symm)
    simp only [Cpus.goto, storeOther apart]
    exact outsideFree tidy free n
  · rw [settled, free, alone]; rfl
  · have before : settled s = view s := by rw [settled, free, alone]; rfl
    rw [before, settled]
    simp only [Cpus.goto, storeSame]
    exact finishEnds (.choose cmdCount) rfl _ _

theorem interruptTaken {s t : Machine} {status : BitVec 32} (taken : step s (.interrupt status) = some t) :
    ∃ accepted rest, s.inflight = accepted :: rest ∧ s.cpus.handler = [] ∧ t = {s with
      cpus := {s.cpus with k := kWriteReg s.cpus.k interruptStatus status, handler := rkintrProgram},
      inflight := rest,
      completed := s.completed + accepted.toNat} := by
  simp only [step] at taken
  split at taken <;> try contradiction
  rename_i accepted rest given
  obtain ⟨cpus, raised, rfl⟩ := Option.map_eq_some_iff.mp taken
  obtain ⟨idle, rfl⟩ := interruptExact raised
  exact ⟨accepted, rest, given, idle, rfl⟩

theorem interruptSettles {s t : Machine} {status : BitVec 32} (tidy : Tidy s.cpus)
    (taken : step s (.interrupt status) = some t) (free : s.cpus.holder = none) :
    Tidy t.cpus ∧ Settles s (.interrupt status) t := by
  obtain ⟨accepted, rest, given, idle, rfl⟩ := interruptTaken taken
  have before : settled s = view s := by rw [settled, free, idle]; rfl
  refine ⟨⟨tidy.held, tidy.others, rfl, fun holds => absurd free holds⟩, accepted, rest, given, before, ?_,
    rfl, rfl⟩
  rw [before, settled]
  simp only [free]
  rfl

theorem handlerSettles {s t : Machine} (tidy : Tidy s.cpus) (taken : step s (.run .handler) = some t) :
    Tidy t.cpus ∧ Settles s (.run .handler) t := by
  obtain ⟨⟨stmt, cpus⟩, next, rfl⟩ := Option.map_eq_some_iff.mp taken
  obtain ⟨rest, left, _, rfl⟩ := nextExact next
  change s.cpus.handler = stmt :: rest at left
  have free : s.cpus.holder = none := by
    by_contra holds
    rw [tidy.apart holds] at left
    contradiction
  have all := tidy.handles
  rw [left, List.all_cons, Bool.and_eq_true] at all
  obtain ⟨locked, more⟩ := handlesExec all.1 s.cpus.k
  obtain ⟨completed, submitted⟩ := noteKeeps s stmt
  refine ⟨⟨?_, ?_, ?_, ?_⟩, ?_, completed, submitted⟩
  · intro n holds
    simp only [Cpus.goto, locked, free] at holds
    contradiction
  · exact fun n _ => outsideFree tidy free n
  · simp only [Cpus.goto, List.all_append, more, all.2, Bool.and_self]
  · intro holds
    simp only [Cpus.goto, locked, free] at holds
    contradiction
  · have before : settled s = finish (view s) (stmt :: rest) := by rw [settled, free, left]
    rw [before, ← finishExec s locked rest, settled]
    simp only [Cpus.goto, locked, free]
    rfl

theorem holderSettles {s t : Machine} {n : Nat} (tidy : Tidy s.cpus) (holds : s.cpus.holder = some n)
    (taken : step s (.run (.thread n)) = some t) : Tidy t.cpus ∧ Settles s (.run (.thread n)) t := by
  obtain ⟨⟨stmt, cpus⟩, next, rfl⟩ := Option.map_eq_some_iff.mp taken
  obtain ⟨rest, left, _, rfl⟩ := nextExact next
  change s.cpus.code n = stmt :: rest at left
  obtain ⟨completed, submitted⟩ := noteKeeps s stmt
  have inside := tidy.held n holds
  rw [left] at inside
  have alone := tidy.apart (by rw [holds]; nofun)
  have before : settled s = finish (view s) (stmt :: rest) := by rw [settled, holds, ← left]
  have elsewhere : ∀ m, m ≠ n → Outside (s.cpus.code m) := by
    intro m other
    refine tidy.others m fun same => other ?_
    rw [holds] at same
    exact (Option.some.inj same).symm
  cases locked : stmt.isUnlock with
  | false =>
    refine ⟨⟨?_, ?_, tidy.handles, fun _ => alone⟩, ?_, completed, submitted⟩
    · intro m same
      simp only [Cpus.goto, holds, Bool.false_eq_true, if_false, Option.some.injEq] at same ⊢
      subst same
      rw [storeSame]
      exact sectionExec inside locked s.cpus.k
    · intro m other
      simp only [Cpus.goto, holds, Bool.false_eq_true, if_false, ne_eq, Option.some.injEq] at other ⊢
      have apart : m ≠ n := fun same => other same.symm
      rw [storeOther apart]
      exact elsewhere m apart
    · rw [before, ← finishExec s locked rest, settled]
      simp only [Cpus.goto, holds, Bool.false_eq_true, if_false, storeSame]
      rfl
  | true =>
    refine ⟨⟨?_, ?_, tidy.handles, fun _ => alone⟩, ?_, completed, submitted⟩
    · intro m same
      simp only [Cpus.goto, if_true] at same
      contradiction
    · intro m _
      simp only [Cpus.goto]
      by_cases here : m = n
      · subst here
        rw [storeSame]
        exact sectionUnlock inside locked s.cpus.k
      · rw [storeOther here]
        exact elsewhere m here
    · cases stmt with
      | unlock direct =>
        rw [before, finishEnds (.unlock direct) rfl, settled]
        simp only [Cpus.goto, if_true, alone]
        rfl
      | _ => contradiction

/- A call without the lock moves, and the ring stays as it is. -/
structure Moves (s t : Machine) (n : Nat) : Prop where
  other : s.cpus.holder ≠ some n
  left : ∃ left, Outside left ∧ t.cpus.code = store s.cpus.code n left
  view : view t = view s
  holder : t.cpus.holder = s.cpus.holder
  handler : t.cpus.handler = s.cpus.handler

theorem otherMoves {s t : Machine} {n : Nat} (tidy : Tidy s.cpus) (other : s.cpus.holder ≠ some n)
    (taken : step s (.run (.thread n)) = some t) :
    Moves s t n ∧ t.completed = s.completed ∧ t.submitted = s.submitted := by
  obtain ⟨⟨stmt, cpus⟩, next, rfl⟩ := Option.map_eq_some_iff.mp taken
  obtain ⟨rest, left, _, rfl⟩ := nextExact next
  change s.cpus.code n = stmt :: rest at left
  have outside := tidy.others n other
  rw [left] at outside
  obtain ⟨locked, outside', same⟩ := outsideExec s outside
  refine ⟨⟨other, ⟨_, outside', rfl⟩, same, if_neg ?_, rfl⟩, noteKeeps s stmt⟩
  rw [locked]
  exact Bool.false_ne_true

theorem signalMoves {s t : Machine} {n : Nat} (tidy : Tidy s.cpus) (taken : step s (.signal n) = some t) :
    Moves s t n ∧ t.completed = s.completed ∧ t.submitted = s.submitted := by
  obtain ⟨cpus, woken, rfl⟩ := Option.map_eq_some_iff.mp taken
  obtain ⟨sleeps, rfl⟩ := signalExact woken
  refine ⟨⟨?_, ⟨[], .returned, rfl⟩, rfl, rfl, rfl⟩, rfl, rfl⟩
  intro holds
  have inside := tidy.held n holds
  rw [sleeps] at inside
  contradiction

theorem Moves.kept {s t : Machine} {n : Nat} (moves : Moves s t n) {m : Nat} (holds : s.cpus.holder = some m) :
    t.cpus.code m = s.cpus.code m := by
  obtain ⟨left, _, code⟩ := moves.left
  rw [code]
  exact storeOther fun here => moves.other (here ▸ holds)

theorem movedSettles {s t : Machine} {n : Nat} (tidy : Tidy s.cpus) (moves : Moves s t n) :
    Tidy t.cpus ∧ settled t = settled s := by
  obtain ⟨left, outside, code⟩ := moves.left
  refine ⟨⟨?_, ?_, moves.handler ▸ tidy.handles, ?_⟩, ?_⟩
  · intro m holds
    rw [moves.holder] at holds
    rw [moves.kept holds]
    exact tidy.held m holds
  · intro m free
    rw [moves.holder] at free
    rw [code]
    by_cases here : m = n
    · subst here
      rw [storeSame]
      exact outside
    · rw [storeOther here]
      exact tidy.others m free
  · rw [moves.holder, moves.handler]
    exact tidy.apart
  · rw [settled, settled, moves.holder]
    cases holds : s.cpus.holder with
    | none => simp only [moves.view, moves.handler]
    | some m => simp only [moves.view, moves.kept holds]

/- Where handlers and calls keep apart, the statements are the ring's steps. -/
theorem stepSettles {s t : Machine} {op : Op} (tidy : Tidy s.cpus) (taken : step s op = some t)
    (apart : KeptApart s op) : Tidy t.cpus ∧ Settles s op t := by
  cases op with
  | startDma thread cmdCount => exact startSettles tidy taken apart
  | interrupt status => exact interruptSettles tidy taken apart
  | run actor =>
    cases actor with
    | handler => exact handlerSettles tidy taken
    | thread n =>
      by_cases holds : s.cpus.holder = some n
      · exact holderSettles tidy holds taken
      · obtain ⟨moves, same⟩ := otherMoves tidy holds taken
        obtain ⟨tidy', ring⟩ := movedSettles tidy moves
        exact ⟨tidy', ring, same⟩
  | signal thread =>
    obtain ⟨moves, same⟩ := signalMoves tidy taken
    obtain ⟨tidy', ring⟩ := movedSettles tidy moves
    exact ⟨tidy', ring, same⟩

theorem idleTidy (k : Kyouko3) : Tidy (idle k) :=
  ⟨fun _ holds => absurd holds nofun, fun _ _ => .returned, rfl, fun _ => rfl⟩

/- What has begun only adds to the entries. -/
theorem denoteWritten (r : BufferRing) (stmt : Stmt) : r.written <+: (denote r stmt).written := by
  have same : r.written <+: r.written := List.prefix_refl _
  cases stmt with
  | write pc entry =>
    cases pc with
    | command | value | increment => exact List.prefix_append ..
    | test | reset | done => exact same
  | choose cmdCount =>
    change r.written <+: (r.submit cmdCount).written
    unfold BufferRing.submit
    dsimp only
    split
    · exact List.prefix_append ..
    · exact same
  | address | config | drainAddress | drainConfig | status | mask => exact List.prefix_append ..
  | kick | storeHead | fill | count | testFull | setFull | unlock | testWait | snooze | clear | drain | testEmpty
    | clearFull | testTail | readTail | storeTail => exact same

theorem finishWritten (r : BufferRing) (left : List Stmt) : r.written <+: (finish r left).written := by
  induction left generalizing r with
  | nil => exact List.prefix_refl _
  | cons stmt rest ih =>
    have here := denoteWritten r stmt
    rw [finish]
    split
    · exact here
    · exact here.trans (ih _)

theorem settledWritten (s : Machine) : s.cpus.k.fifo.written <+: (settled s).written := by
  unfold settled
  split
  · exact finishWritten (view s) _
  · exact finishWritten (view s) _

/- Calls and interrupts that nobody comes between. -/
def alone (op : Op) (actor : Actor) (statements : Nat) : List Op := op :: List.replicate statements (.run actor)

/- On the direct path, there up to the kick, and on the other one. -/
def directCall (thread : Nat) (cmdCount : BitVec 32) : List Op := alone (.startDma thread cmdCount) (.thread thread) 15
def unkickedCall (thread : Nat) (cmdCount : BitVec 32) : List Op :=
  alone (.startDma thread cmdCount) (.thread thread) 13
def queuedCall (thread : Nat) (cmdCount : BitVec 32) : List Op := alone (.startDma thread cmdCount) (.thread thread) 6

/- Two calls, of which the first kicks after the second is through, and an interrupt. -/
def twoThenInterrupt : List Op :=
  unkickedCall 0 1801 ++ queuedCall 1 901 ++ List.replicate 2 (.run (.thread 0)) ++ alone (.interrupt 2) .handler 18

/- The pairs of address and count among the entries written. -/
def transfersIn : List FifoEntry → List Transfer
  | a :: c :: rest =>
      if a.command = bufferAAddress ∧ c.command = bufferAConfig then
        (a.value.setWidth 64, c.value) :: transfersIn rest
      else transfersIn (c :: rest)
  | _ => []

theorem transfersCons {t : Transfer} (low : t.1.toNat < 2 ^ 32) (rest : List FifoEntry) :
    transfersIn (transferEntries t ++ rest) = t :: transfersIn rest := by
  have address : (t.1.setWidth 32).setWidth 64 = t.1 := by
    apply BitVec.eq_of_toNat_eq
    simp only [BitVec.toNat_setWidth]
    omega
  simp only [transferEntries, List.cons_append, List.nil_append, transfersIn, and_self, if_true, address]

/- Cut anywhere, the entries still show the first of the transfers, and nothing else. -/
theorem transfersCut {ts : List Transfer} (low : ∀ t ∈ ts, t.1.toNat < 2 ^ 32) {written : List FifoEntry}
    (cut : written <+: ts.flatMap transferEntries) : transfersIn written <+: ts := by
  induction ts generalizing written with
  | nil =>
    rw [List.flatMap_nil, List.prefix_nil] at cut
    rw [cut]
    exact List.nil_prefix
  | cons t ts ih =>
    obtain ⟨here, later⟩ := List.forall_mem_cons.mp low
    match written with
    | [] | [_] => exact List.nil_prefix
    | a :: c :: rest =>
      obtain ⟨address, cut⟩ := List.cons_prefix_cons.mp cut
      obtain ⟨config, cut⟩ := List.cons_prefix_cons.mp cut
      rw [address, config]
      change transfersIn (transferEntries t ++ rest) <+: _
      rw [transfersCons here]
      exact (List.prefix_cons_inj t).mpr (ih later cut)

theorem transfersBack {ts : List Transfer} (low : ∀ t ∈ ts, t.1.toNat < 2 ^ 32) :
    transfersIn (ts.flatMap transferEntries) = ts := by
  induction ts with
  | nil => rfl
  | cons t ts ih =>
    obtain ⟨here, later⟩ := List.forall_mem_cons.mp low
    rw [List.flatMap_cons, transfersCons here, ih later]

end KernelLabs.DmaRing
