import KernelLabs.Kyouko.Statements
import KernelLabs.Library.Runs

/-! Any number of threads queue, start transfers and flush while interrupts arrive, one
statement at a time. Only a flush reads the device's tail, so the cached tail may be a whole
turn behind and still equal the head; nothing keeps two writers of the FIFO apart; and a kick
may be as old as the wait in it. -/
namespace KernelLabs.FlushWait
open Kyouko Buffer Runs Statements

/- `consumed` counts what the device took, `cached` and `seen` what it had taken when the
cached tail, and the last tail an actor has read, were read. `writers` are inside `FIFO_WRITE`. -/
structure Mixed where
  cpus : Cpus
  consumed : Nat
  cached : Nat
  seen : Actor → Nat
  writers : List Actor

inductive Op where
  | fifoQueue (thread : Nat) (entry : FifoEntry)
  | startDma (thread : Nat) (cmdCount : BitVec 32)
  | fifoFlush (thread : Nat)
  | interrupt (status : BitVec 32)
  | run (actor : Actor)
  | signal (thread : Nat)
  | device
  deriving DecidableEq, Repr

def note (s : Mixed) (actor : Actor) : Stmt → Mixed
  | .write pc entry =>
      if pc = .command then {s with writers := actor :: s.writers}
      else if (execStmt s.cpus.k (.write pc entry)).1 = [] then {s with writers := s.writers.erase actor}
      else s
  | .readTail => {s with seen := fun x => if x = actor then s.consumed else s.seen x}
  | .storeTail _ => {s with cached := s.seen actor}
  | _ => s

def step (s : Mixed) : Op → Option Mixed
  | .fifoQueue thread entry => (s.cpus.enter thread (queueProgram entry)).map fun cpus => {s with cpus := cpus}
  | .startDma thread cmdCount => (s.cpus.startDma thread cmdCount).map fun cpus => {s with cpus := cpus}
  | .fifoFlush thread => (s.cpus.enter thread flushProgram).map fun cpus => {s with cpus := cpus}
  | .interrupt status => (s.cpus.interrupt status).map fun cpus => {s with cpus := cpus}
  | .run actor => (s.cpus.next actor).map fun ran => {note s actor ran.1 with cpus := ran.2}
  | .signal thread => (s.cpus.signal thread).map fun cpus => {s with cpus := cpus}
  | .device =>
      (deviceNext s.cpus.k).map fun r => {s with cpus := {s.cpus with k := r.2}, consumed := s.consumed + 1}

def initial (s : Kyouko3) (pBase : BitVec 64) (memory : Nat → FifoEntry) (head : BitVec 32)
    (dmaBase : Nat → BitVec 64) : Mixed :=
  ⟨idle (bindDma (kyouko3Open s pBase memory head) dmaBase), 0, 0, fun _ => 0, []⟩

def Fits (s : Mixed) : Prop := s.cpus.k.fifo.written.length < s.consumed + fifoEntries.toNat
instance (s : Mixed) : Decidable (Fits s) := inferInstanceAs (Decidable (_ < _))

/- A flush that returns has seen the device take everything there is. -/
def FlushWaits (s : Mixed) (op : Op) (t : Mixed) : Prop :=
  ∀ thread, op = .run (.thread thread) → s.cpus.code thread = [.testTail] → t.cpus.code thread = [] →
    kReadReg t.cpus.k fifoTail = t.cpus.k.fifo.head ∧ t.consumed = t.cpus.k.fifo.written.length

def executes (s : Mixed) : Op → Option Stmt
  | .run actor => (s.cpus.left actor).head?
  | _ => none

/- A `FIFO_WRITE` begins while nobody is inside another one. -/
def WritesAlone (s : Mixed) (op : Op) (_ : Mixed) : Prop :=
  match executes s op with
  | some (.write .command _) => s.writers = []
  | _ => True

/- What is stored to `FifoHead` stands for a place that the device has not passed. -/
def KicksAhead (s : Mixed) (op : Op) (_ : Mixed) : Prop :=
  match executes s op with
  | some (.storeHead head) => ∃ place, place < s.cpus.k.fifo.written.length + 1 ∧ s.consumed ≤ place ∧
      head.toNat = place % fifoEntries.toNat
  | _ => True

/- Where the loop of a flush ends, the cached tail is less than a turn behind the head. -/
def WithinTurn (s : Mixed) (op : Op) (_ : Mixed) : Prop :=
  match executes s op with
  | some .testTail => flushWaits s.cpus.k = false →
      s.cpus.k.fifo.written.length < s.cached + fifoEntries.toNat
  | _ => True

def Regular (s : Mixed) (op : Op) (t : Mixed) : Prop := WritesAlone s op t ∧ KicksAhead s op t ∧ WithinTurn s op t
instance (s : Mixed) (op : Op) (t : Mixed) : Decidable (WritesAlone s op t) := by
  unfold WritesAlone; split <;> infer_instance
instance (s : Mixed) (op : Op) (t : Mixed) : Decidable (KicksAhead s op t) := by
  unfold KicksAhead; split <;> infer_instance
instance (s : Mixed) (op : Op) (t : Mixed) : Decidable (WithinTurn s op t) := by
  unfold WithinTurn; split <;> infer_instance
instance (s : Mixed) (op : Op) (t : Mixed) : Decidable (Regular s op t) := by
  unfold Regular; infer_instance

/- Where in `FIFO_WRITE` an actor is, once it has begun. -/
def inside : List Stmt → Option WritePc
  | .write pc _ :: _ => if pc = .command then none else some pc
  | _ => none

/- Statements that a call or the handler comes to, rather than being in the middle of. -/
def plain : Stmt → Bool
  | .write .. | .storeTail _ => false
  | _ => true

def starts : List Stmt → Bool
  | .write pc _ :: _ => pc == .command
  | .storeTail _ :: _ => false
  | _ => true

/- The registers and the cached tail, as positions in the history of the ring. -/
structure Registers (s : Mixed) : Prop where
  tail : (kReadReg s.cpus.k fifoTail).toNat = s.consumed % 1024
  kicked : ∃ kicked, s.consumed ≤ kicked ∧ kicked ≤ s.cpus.k.fifo.written.length ∧
    (kReadReg s.cpus.k fifoHead).toNat = kicked % 1024
  cache : s.cpus.k.fifo.tailCache.toNat = s.cached % 1024
  late : s.cached ≤ s.consumed
  pending : ∀ actor tail rest, s.cpus.left actor = .storeTail tail :: rest →
    tail.toNat = s.seen actor % 1024 ∧ s.seen actor ≤ s.consumed

/- Where the head is: a writer moves it past the end before it looks. -/
def HeadAt (f : Fifo) : WritePc → Prop
  | .command | .value | .increment => f.head.toNat = f.written.length % 1024
  | .test => f.head.toNat = (f.written.length - 1) % 1024 + 1 ∧ 0 < f.written.length
  | .reset => f.head.toNat = 1024 ∧ f.written.length % 1024 = 0
  | .done => False

def Writers (s : Mixed) : List Actor → Prop
  | [] => (∀ actor, inside (s.cpus.left actor) = none) ∧ HeadAt s.cpus.k.fifo .command
  | [writer] => (∃ pc, inside (s.cpus.left writer) = some pc ∧ HeadAt s.cpus.k.fifo pc) ∧
      ∀ actor, actor ≠ writer → inside (s.cpus.left actor) = none
  | _ => False

structure Positions (s : Mixed) : Prop where
  registers : Registers s
  writing : Writers s s.writers
  tails : ∀ actor, (s.cpus.left actor).tail.all plain = true

theorem startsInside {left : List Stmt} (begins : starts left = true) : inside left = none := by
  cases left with
  | nil => rfl
  | cons stmt rest =>
    cases stmt with
    | write pc entry =>
      have here : pc = .command := by simpa [starts] using begins
      exact if_pos here
    | _ => rfl

theorem plainStarts {left : List Stmt} (all : left.all plain = true) : starts left = true := by
  cases left with
  | nil => rfl
  | cons stmt rest =>
    have first : plain stmt = true := (Bool.and_eq_true_iff.mp all).1
    cases stmt with
    | write | storeTail => contradiction
    | _ => rfl

theorem plainTails {left : List Stmt} (all : left.all plain = true) : left.tail.all plain = true := by
  cases left with
  | nil => rfl
  | cons stmt rest => exact (Bool.and_eq_true_iff.mp all).2

/- A step of one actor that leaves the ring and its registers as they are. -/
structure Quiet (s t : Mixed) (actor : Actor) : Prop where
  others : ∀ a, a ≠ actor → t.cpus.left a = s.cpus.left a
  begun : inside (s.cpus.left actor) = none
  begins : starts (t.cpus.left actor) = true
  tails : (t.cpus.left actor).tail.all plain = true
  head : t.cpus.k.fifo.head = s.cpus.k.fifo.head
  written : t.cpus.k.fifo.written = s.cpus.k.fifo.written
  cache : t.cpus.k.fifo.tailCache = s.cpus.k.fifo.tailCache
  fifoTail : kReadReg t.cpus.k fifoTail = kReadReg s.cpus.k fifoTail
  fifoHead : kReadReg t.cpus.k fifoHead = kReadReg s.cpus.k fifoHead
  ghosts : t.consumed = s.consumed ∧ t.cached = s.cached ∧ t.seen = s.seen ∧ t.writers = s.writers

theorem writersKept {s t : Mixed} (same : ∀ a, inside (t.cpus.left a) = inside (s.cpus.left a))
    (head : t.cpus.k.fifo.head = s.cpus.k.fifo.head) (written : t.cpus.k.fifo.written = s.cpus.k.fifo.written)
    {writers : List Actor} (writing : Writers s writers) : Writers t writers := by
  have headAt : ∀ pc, HeadAt s.cpus.k.fifo pc → HeadAt t.cpus.k.fifo pc := by
    intro pc at'
    cases pc <;> simp only [HeadAt, head, written] at at' ⊢ <;> exact at'
  match writers with
  | [] => exact ⟨fun a => (same a).trans (writing.1 a), headAt _ writing.2⟩
  | [writer] =>
    obtain ⟨⟨pc, inWrite, at'⟩, others⟩ := writing
    exact ⟨⟨pc, (same writer).trans inWrite, headAt pc at'⟩, fun a other => (same a).trans (others a other)⟩

theorem insideKept {s t : Mixed} {actor : Actor} (others : ∀ a, a ≠ actor → t.cpus.left a = s.cpus.left a)
    (before : inside (s.cpus.left actor) = none) (now : inside (t.cpus.left actor) = none) (a : Actor) :
    inside (t.cpus.left a) = inside (s.cpus.left a) := by
  by_cases here : a = actor
  · rw [here, now, before]
  · rw [others a here]

theorem startsNotStoring {left : List Stmt} (begins : starts left = true) (tail : BitVec 32) (rest : List Stmt) :
    left ≠ .storeTail tail :: rest := by
  rintro rfl
  contradiction

/- Only the actor moved, and it is not about to store a tail that it read. -/
theorem pendingKept {s t : Mixed} {actor : Actor} (registers : Registers s)
    (others : ∀ a, a ≠ actor → t.cpus.left a = s.cpus.left a)
    (elsewhere : ∀ tail rest, t.cpus.left actor ≠ .storeTail tail :: rest)
    (consumed : t.consumed = s.consumed) (seen : t.seen = s.seen) (a : Actor) (tail : BitVec 32) (rest : List Stmt)
    (left : t.cpus.left a = .storeTail tail :: rest) :
    tail.toNat = t.seen a % 1024 ∧ t.seen a ≤ t.consumed := by
  rw [seen, consumed]
  by_cases here : a = actor
  · rw [here] at left
    exact absurd left (elsewhere tail rest)
  · rw [others a here] at left
    exact registers.pending a tail rest left

theorem quietPositions {s t : Mixed} (actor : Actor) (at' : Positions s) (quiet : Quiet s t actor) :
    Positions t := by
  obtain ⟨consumed, cached, seen, writers⟩ := quiet.ghosts
  refine ⟨⟨?_, ?_, ?_, ?_,
    pendingKept at'.registers quiet.others (startsNotStoring quiet.begins) consumed seen⟩, ?_, ?_⟩
  · rw [quiet.fifoTail, consumed]; exact at'.registers.tail
  · rw [quiet.fifoHead, quiet.written, consumed]; exact at'.registers.kicked
  · rw [quiet.cache, cached]; exact at'.registers.cache
  · rw [cached, consumed]; exact at'.registers.late
  · rw [writers]
    exact writersKept (insideKept quiet.others quiet.begun (startsInside quiet.begins)) quiet.head quiet.written
      at'.writing
  · intro a
    by_cases here : a = actor
    · rw [here]; exact quiet.tails
    · rw [quiet.others a here]; exact at'.tails a

def aside : Stmt → Bool
  | .write .. | .storeHead _ | .readTail | .storeTail _ => false
  | _ => true

/- What the statements leave that are not about the FIFO's registers and cached tail. -/
structure Aside (k k' : Kyouko3) (next rest : List Stmt) : Prop where
  begins : starts (next ++ rest) = true
  tails : (next ++ rest).tail.all plain = true
  fifo : k'.fifo = k.fifo
  fifoTail : kReadReg k' fifoTail = kReadReg k fifoTail
  fifoHead : kReadReg k' fifoHead = kReadReg k fifoHead

theorem execAside (k : Kyouko3) {stmt : Stmt} {rest : List Stmt} (other : aside stmt = true)
    (all : rest.all plain = true) : Aside k (execStmt k stmt).2 (execStmt k stmt).1 rest := by
  have begins := plainStarts all
  have tails := plainTails all
  cases stmt with
  | write | storeHead | readTail | storeTail => contradiction
  | choose | unlock =>
    rw [execStmt]
    dsimp only
    split
    · exact ⟨rfl, all, rfl, rfl, rfl⟩
    · exact ⟨rfl, all, rfl, rfl, rfl⟩
  | testFull | testWait | testEmpty | testTail =>
    rw [execStmt]
    dsimp only
    split
    · exact ⟨rfl, all, rfl, rfl, rfl⟩
    · exact ⟨begins, tails, rfl, rfl, rfl⟩
  | mask =>
    rw [execStmt]
    dsimp only
    split
    · exact ⟨begins, tails, rfl, rfl, rfl⟩
    · exact ⟨rfl, all, rfl, rfl, rfl⟩
  | clear =>
    exact ⟨begins, tails, rfl, readWriteOther (by decide), readWriteOther (by decide)⟩
  | kick | address | config | status | drainAddress | drainConfig => exact ⟨rfl, all, rfl, rfl, rfl⟩
  | fill | count | setFull | snooze | drain | clearFull => exact ⟨begins, tails, rfl, rfl, rfl⟩

/- What a statement leaves, `rest` being what was to follow it. -/
structure Ran (s t : Mixed) (actor : Actor) (stmt : Stmt) (rest : List Stmt) : Prop where
  left : s.cpus.left actor = stmt :: rest
  k : t.cpus.k = (execStmt s.cpus.k stmt).2
  next : t.cpus.left actor = (execStmt s.cpus.k stmt).1 ++ rest
  others : ∀ a, a ≠ actor → t.cpus.left a = s.cpus.left a
  ghosts : t.consumed = s.consumed ∧ t.cached = (note s actor stmt).cached ∧ t.seen = (note s actor stmt).seen ∧
    t.writers = (note s actor stmt).writers

theorem noteConsumed (s : Mixed) (actor : Actor) (stmt : Stmt) : (note s actor stmt).consumed = s.consumed := by
  cases stmt with
  | write pc entry =>
    simp only [note]
    split
    · rfl
    · split <;> rfl
  | _ => rfl

theorem runExact {s t : Mixed} {actor : Actor} (taken : step s (.run actor) = some t) :
    ∃ stmt rest, Ran s t actor stmt rest := by
  obtain ⟨⟨stmt, cpus⟩, next, rfl⟩ := Option.map_eq_some_iff.mp taken
  obtain ⟨rest, left, _, rfl⟩ := nextExact next
  exact ⟨stmt, rest, left, gotoK .., gotoLeft .., fun a other => gotoOther other _, noteConsumed .., rfl, rfl, rfl⟩

section Run
variable {s t : Mixed} {actor : Actor} {rest : List Stmt}

theorem restPlain {stmt : Stmt} (at' : Positions s) (ran : Ran s t actor stmt rest) : rest.all plain = true := by
  have tails := at'.tails actor
  rw [ran.left] at tails
  exact tails

theorem tailsKept {stmt : Stmt} (at' : Positions s) (ran : Ran s t actor stmt rest)
    (tails : ((execStmt s.cpus.k stmt).1 ++ rest).tail.all plain = true) (a : Actor) :
    (t.cpus.left a).tail.all plain = true := by
  by_cases here : a = actor
  · rw [here, ran.next]; exact tails
  · rw [ran.others a here]; exact at'.tails a

theorem asidePositions {stmt : Stmt} (at' : Positions s) (ran : Ran s t actor stmt rest) (other : aside stmt = true) :
    Positions t := by
  have left := execAside s.cpus.k other (restPlain at' ran)
  have noted : note s actor stmt = s := by
    cases stmt with
    | write | storeHead | readTail | storeTail => contradiction
    | _ => rfl
  have ghosts := ran.ghosts
  rw [noted] at ghosts
  refine quietPositions actor at' ⟨ran.others, ?_, ?_, ?_, ?_, ?_, ?_, ?_, ?_, ghosts⟩
  · rw [ran.left]
    cases stmt with
    | write => contradiction
    | _ => rfl
  · rw [ran.next]; exact left.begins
  · rw [ran.next]; exact left.tails
  · rw [ran.k, left.fifo]
  · rw [ran.k, left.fifo]
  · rw [ran.k, left.fifo]
  · rw [ran.k]; exact left.fifoTail
  · rw [ran.k]; exact left.fifoHead

theorem storeHeadPositions {head : BitVec 32} (at' : Positions s) (ran : Ran s t actor (.storeHead head) rest)
    (ahead : ∃ place, place < s.cpus.k.fifo.written.length + 1 ∧ s.consumed ≤ place ∧ head.toNat = place % 1024) :
    Positions t := by
  have all := restPlain at' ran
  have next : t.cpus.left actor = rest := ran.next
  have k : t.cpus.k = kWriteReg s.cpus.k fifoHead head := ran.k
  obtain ⟨consumed, cached, seen, writers⟩ := ran.ghosts
  obtain ⟨place, low, high, stands⟩ := ahead
  have begins : starts (t.cpus.left actor) = true := next ▸ plainStarts all
  refine ⟨⟨?_, ?_, ?_, ?_, pendingKept at'.registers ran.others (startsNotStoring begins) consumed seen⟩, ?_,
    tailsKept at' ran (plainTails all)⟩
  · rw [k, readWriteOther (by decide), consumed]; exact at'.registers.tail
  · refine ⟨place, ?_, ?_, ?_⟩
    · rw [consumed]; exact high
    · rw [k]; exact Nat.le_of_lt_succ low
    · rw [k, readWriteSame]; exact stands
  · rw [k, cached]; exact at'.registers.cache
  · rw [cached, consumed]; exact at'.registers.late
  · rw [writers]
    exact writersKept (insideKept ran.others (by rw [ran.left]; rfl) (startsInside begins)) (by rw [k]; rfl)
      (by rw [k]; rfl) at'.writing

theorem readTailPositions (at' : Positions s) (ran : Ran s t actor .readTail rest) : Positions t := by
  have all := restPlain at' ran
  have next : t.cpus.left actor = .storeTail (kReadReg s.cpus.k fifoTail) :: rest := ran.next
  have k : t.cpus.k = s.cpus.k := ran.k
  obtain ⟨consumed, cached, seen, writers⟩ := ran.ghosts
  have here' : (note s actor .readTail).seen actor = s.consumed := if_pos rfl
  refine ⟨⟨?_, ?_, ?_, ?_, ?_⟩, ?_, tailsKept at' ran all⟩
  · rw [k, consumed]; exact at'.registers.tail
  · rw [k, consumed]; exact at'.registers.kicked
  · rw [k, cached]; exact at'.registers.cache
  · rw [cached, consumed]; exact at'.registers.late
  · intro a tail more left
    rw [seen, consumed]
    by_cases here : a = actor
    · rw [here, next] at left
      cases left
      rw [here, here']
      exact ⟨at'.registers.tail, Nat.le_refl _⟩
    · rw [ran.others a here] at left
      have other : (note s actor .readTail).seen a = s.seen a := if_neg here
      rw [other]
      exact at'.registers.pending a tail more left
  · rw [writers]
    exact writersKept (insideKept ran.others (by rw [ran.left]; rfl) (by rw [next]; rfl)) (by rw [k]) (by rw [k])
      at'.writing

theorem storeTailPositions {tail : BitVec 32} (at' : Positions s) (ran : Ran s t actor (.storeTail tail) rest) :
    Positions t := by
  have all := restPlain at' ran
  have next : t.cpus.left actor = rest := ran.next
  have k : t.cpus.k = {s.cpus.k with fifo := {s.cpus.k.fifo with tailCache := tail}} := ran.k
  obtain ⟨consumed, cached, seen, writers⟩ := ran.ghosts
  have cached' : t.cached = s.seen actor := cached
  obtain ⟨stands, late⟩ := at'.registers.pending actor tail rest ran.left
  have begins : starts (t.cpus.left actor) = true := next ▸ plainStarts all
  refine ⟨⟨?_, ?_, ?_, ?_, pendingKept at'.registers ran.others (startsNotStoring begins) consumed seen⟩, ?_,
    tailsKept at' ran (plainTails all)⟩
  · rw [k, consumed]; exact at'.registers.tail
  · rw [k, consumed]; exact at'.registers.kicked
  · rw [k, cached']; exact stands
  · rw [cached', consumed]; exact late
  · rw [writers]
    exact writersKept (insideKept ran.others (by rw [ran.left]; rfl) (startsInside begins)) (by rw [k]) (by rw [k])
      at'.writing

/- A statement of `FIFO_WRITE` leaves the head where the next one expects it. -/
theorem writeHead {k : Kyouko3} {pc : WritePc} (at' : HeadAt k.fifo pc) (entry : FifoEntry) :
    (∃ pc', (execStmt k (.write pc entry)).1 = [.write pc' entry] ∧ pc' ≠ .command ∧
      HeadAt (execStmt k (.write pc entry)).2.fifo pc') ∨
    ((execStmt k (.write pc entry)).1 = [] ∧ HeadAt (execStmt k (.write pc entry)).2.fifo .command) := by
  cases pc with
  | command => exact Or.inl ⟨.value, rfl, by decide, at'⟩
  | value => exact Or.inl ⟨.increment, rfl, by decide, at'⟩
  | increment =>
    refine Or.inl ⟨.test, rfl, by decide, ?_⟩
    change (k.fifo.head + 1).toNat = ((k.fifo.written ++ [entry]).length - 1) % 1024 + 1 ∧
      0 < (k.fifo.written ++ [entry]).length
    have below : k.fifo.head.toNat < 1024 := by
      rw [at']
      exact Nat.mod_lt _ (by decide)
    rw [List.length_append, List.length_singleton, Nat.add_sub_cancel, BitVec.toNat_add, ← at']
    exact ⟨Nat.mod_eq_of_lt (by simp; omega), Nat.succ_pos _⟩
  | test =>
    obtain ⟨head, some⟩ := at'
    have last : k.fifo.head ≥ fifoEntries ↔ 1024 ≤ k.fifo.head.toNat := by
      rw [ge_iff_le, BitVec.le_def]; rfl
    simp only [execStmt, writeStep, last]
    split
    · rename_i past
      refine Or.inl ⟨.reset, rfl, by decide, ?_, ?_⟩
      · omega
      · omega
    · rename_i short
      refine Or.inr ⟨rfl, ?_⟩
      change k.fifo.head.toNat = k.fifo.written.length % 1024
      omega
  | reset =>
    refine Or.inr ⟨rfl, ?_⟩
    exact at'.2.symm
  | done => exact at'.elim

theorem ownWriter {pc : WritePc} (writing : Writers s s.writers) (begun : inside (s.cpus.left actor) = some pc) :
    s.writers = [actor] ∧ HeadAt s.cpus.k.fifo pc ∧ ∀ a, a ≠ actor → inside (s.cpus.left a) = none := by
  match writers : s.writers with
  | [] =>
    rw [writers] at writing
    have none := writing.1 actor
    rw [begun] at none
    contradiction
  | [writer] =>
    rw [writers] at writing
    obtain ⟨⟨pc', inWrite, at'⟩, others⟩ := writing
    have same : writer = actor := by
      by_contra other
      have none := others actor (fun here => other here.symm)
      rw [begun] at none
      contradiction
    subst same
    rw [begun] at inWrite
    cases Option.some.inj inWrite
    exact ⟨rfl, at', others⟩
  | _ :: _ :: _ =>
    rw [writers] at writing
    exact writing.elim

/- The writer is alone, whether it begins or goes on. -/
theorem loneWriter {pc : WritePc} {entry : FifoEntry} (at' : Positions s)
    (ran : Ran s t actor (.write pc entry) rest) (alone : pc = .command → s.writers = []) :
    (∀ a, a ≠ actor → inside (s.cpus.left a) = none) ∧ HeadAt s.cpus.k.fifo pc ∧
      t.writers = if (execStmt s.cpus.k (.write pc entry)).1 = [] then [] else [actor] := by
  have writing := at'.writing
  have writers := ran.ghosts.2.2.2
  by_cases begins : pc = .command
  · subst begins
    have none := alone rfl
    rw [none] at writing
    refine ⟨fun a _ => writing.1 a, writing.2, ?_⟩
    rw [writers]
    change actor :: s.writers = [actor]
    rw [none]
  · have begun : inside (s.cpus.left actor) = some pc := by
      rw [ran.left]
      exact if_neg begins
    obtain ⟨own, headAt, others⟩ := ownWriter writing begun
    refine ⟨others, headAt, ?_⟩
    rw [writers, note, if_neg begins]
    split
    · simp only [own, List.erase_cons_head]
    · exact own

theorem writeWriters {pc : WritePc} {entry : FifoEntry} (at' : Positions s)
    (ran : Ran s t actor (.write pc entry) rest) (alone : pc = .command → s.writers = []) :
    Writers t t.writers := by
  have all := restPlain at' ran
  obtain ⟨others, headAt, writers⟩ := loneWriter at' ran alone
  rcases writeHead headAt entry with ⟨pc', going, begun, at''⟩ | ⟨finished, at''⟩
  · rw [writers, going, if_neg (List.cons_ne_nil _ _)]
    refine ⟨⟨pc', ?_, ?_⟩, fun a other => ?_⟩
    · rw [ran.next, going]
      exact if_neg begun
    · rw [ran.k]; exact at''
    · rw [ran.others a other]; exact others a other
  · rw [writers, if_pos finished]
    refine ⟨fun a => ?_, ?_⟩
    · by_cases here : a = actor
      · rw [here, ran.next, finished]
        exact startsInside (plainStarts all)
      · rw [ran.others a here]; exact others a here
    · rw [ran.k]; exact at''

theorem writeKeeps (k : Kyouko3) (pc : WritePc) (entry : FifoEntry) :
    (execStmt k (.write pc entry)).2.control = k.control ∧
      (execStmt k (.write pc entry)).2.fifo.tailCache = k.fifo.tailCache ∧
      k.fifo.written.length ≤ (execStmt k (.write pc entry)).2.fifo.written.length := by
  cases pc with
  | increment =>
    refine ⟨rfl, rfl, ?_⟩
    change k.fifo.written.length ≤ (k.fifo.written ++ [entry]).length
    rw [List.length_append]
    exact Nat.le_add_right ..
  | command | value | test | reset | done => exact ⟨rfl, rfl, Nat.le_refl _⟩

theorem writePositions {pc : WritePc} {entry : FifoEntry} (at' : Positions s)
    (ran : Ran s t actor (.write pc entry) rest) (alone : pc = .command → s.writers = []) : Positions t := by
  have all := restPlain at' ran
  obtain ⟨control, cache, longer⟩ := writeKeeps s.cpus.k pc entry
  obtain ⟨consumed, cached, seen, _⟩ := ran.ghosts
  have sameCached : t.cached = s.cached := by
    rw [cached, note]
    split
    · rfl
    · split <;> rfl
  have sameSeen : t.seen = s.seen := by
    rw [seen, note]
    split
    · rfl
    · split <;> rfl
  have elsewhere : ∀ tail more, t.cpus.left actor ≠ .storeTail tail :: more := by
    rw [ran.next]
    rcases writeNext s.cpus.k pc entry with finished | ⟨pc', going⟩
    · rw [finished]
      exact startsNotStoring (plainStarts all)
    · intro tail more storing
      rw [going] at storing
      cases storing
  refine ⟨⟨?_, ?_, ?_, ?_, pendingKept at'.registers ran.others elsewhere consumed sameSeen⟩,
    writeWriters at' ran alone, tailsKept at' ran ?_⟩
  · rw [ran.k, kReadReg, control, consumed]; exact at'.registers.tail
  · obtain ⟨kicked, low, high, stands⟩ := at'.registers.kicked
    refine ⟨kicked, ?_, ?_, ?_⟩
    · rw [consumed]; exact low
    · rw [ran.k]; exact Nat.le_trans high longer
    · rw [ran.k, kReadReg, control]; exact stands
  · rw [ran.k, cache, sameCached]; exact at'.registers.cache
  · rw [sameCached, consumed]; exact at'.registers.late
  · rcases writeNext s.cpus.k pc entry with finished | ⟨pc', going⟩
    · rw [finished]; exact plainTails all
    · rw [going]; exact all

end Run

/- Regular statements, one case for each kind of them. -/
theorem runPositions {s t : Mixed} {actor : Actor} (at' : Positions s) (taken : step s (.run actor) = some t)
    (regular : Regular s (.run actor) t) : Positions t := by
  obtain ⟨stmt, rest, ran⟩ := runExact taken
  obtain ⟨alone, ahead, _⟩ := regular
  have here : executes s (.run actor) = some stmt := by
    rw [executes, ran.left]; rfl
  rw [WritesAlone, here] at alone
  rw [KicksAhead, here] at ahead
  cases stmt with
  | write pc entry =>
    refine writePositions at' ran fun begins => ?_
    subst begins
    exact alone
  | storeHead head => exact storeHeadPositions at' ran ahead
  | readTail => exact readTailPositions at' ran
  | storeTail tail => exact storeTailPositions at' ran
  | _ => exact asidePositions at' ran rfl

/- A thread between calls begins one, or a sleeper ends its own. -/
theorem threadPositions {s : Mixed} {thread : Nat} {program : List Stmt} (at' : Positions s)
    (begun : inside (s.cpus.code thread) = none) (begins : starts program = true)
    (tails : program.tail.all plain = true) (holder : Option Nat) :
    Positions {s with cpus := {s.cpus with holder := holder}.goto (.thread thread) program} := by
  refine quietPositions (.thread thread) at'
    ⟨fun a other => gotoOther other _, begun, ?_, ?_, rfl, rfl, rfl, rfl, rfl, rfl, rfl, rfl, rfl⟩
  · simp only [gotoLeft]; exact begins
  · simp only [gotoLeft]; exact tails

theorem enterPositions {s t : Mixed} {thread : Nat} {program : List Stmt} (at' : Positions s)
    (begins : starts program = true) (tails : program.tail.all plain = true)
    (taken : (s.cpus.enter thread program).map (fun cpus => {s with cpus := cpus}) = some t) : Positions t := by
  obtain ⟨cpus, entered, rfl⟩ := Option.map_eq_some_iff.mp taken
  obtain ⟨between, rfl⟩ := enterExact entered
  exact threadPositions at' (by rw [between]; rfl) begins tails s.cpus.holder

/- The device stops at the place it was last kicked to. -/
theorem devicePositions {s t : Mixed} (at' : Positions s) (taken : step s .device = some t) : Positions t := by
  obtain ⟨⟨entry, k⟩, next, rfl⟩ := Option.map_eq_some_iff.mp taken
  obtain ⟨more, _, rfl⟩ := deviceExact next
  refine ⟨⟨?_, ?_, at'.registers.cache, Nat.le_succ_of_le at'.registers.late, ?_⟩,
    writersKept (fun _ => rfl) rfl rfl at'.writing, at'.tails⟩
  · rw [readWriteSame]; exact advanceSlot at'.registers.tail
  · obtain ⟨kicked, low, high, head⟩ := at'.registers.kicked
    have apart : (kReadReg s.cpus.k fifoTail).toNat ≠ (kReadReg s.cpus.k fifoHead).toNat :=
      fun same => more (BitVec.eq_of_toNat_eq same)
    rw [at'.registers.tail, head] at apart
    refine ⟨kicked, ?_, high, ?_⟩
    · change s.consumed + 1 ≤ kicked
      omega
    · rw [readWriteOther (by decide)]; exact head
  · intro actor tail rest left
    obtain ⟨stands, late⟩ := at'.registers.pending actor tail rest left
    exact ⟨stands, Nat.le_succ_of_le late⟩

theorem stepPositions {s t : Mixed} {op : Op} (at' : Positions s) (taken : step s op = some t)
    (regular : Regular s op t) : Positions t := by
  cases op with
  | fifoQueue thread entry => exact enterPositions at' rfl rfl taken
  | fifoFlush thread => exact enterPositions at' rfl rfl taken
  | startDma thread cmdCount =>
    obtain ⟨cpus, started, rfl⟩ := Option.map_eq_some_iff.mp taken
    obtain ⟨_, between, rfl⟩ := startExact started
    exact threadPositions at' (congrArg inside between) rfl rfl (some thread)
  | interrupt status =>
    obtain ⟨cpus, raised, rfl⟩ := Option.map_eq_some_iff.mp taken
    obtain ⟨idle, rfl⟩ := interruptExact raised
    refine quietPositions .handler at' ⟨?_, congrArg inside idle, rfl, rfl, rfl, rfl, rfl,
      readWriteOther (by decide), readWriteOther (by decide), rfl, rfl, rfl, rfl⟩
    intro a other
    cases a with
    | handler => exact absurd rfl other
    | thread n => rfl
  | run actor => exact runPositions at' taken regular
  | signal thread =>
    obtain ⟨cpus, woken, rfl⟩ := Option.map_eq_some_iff.mp taken
    obtain ⟨sleeps, rfl⟩ := signalExact woken
    exact threadPositions at' (congrArg inside sleeps) rfl rfl s.cpus.holder
  | device => exact devicePositions at' taken

/- Less than a turn apart, equal indices are equal positions, and the device's position
lies between them. A writer about to reset the head has it past the end, where no cached
tail is. -/
theorem caughtUp {s : Mixed} (at' : Positions s) (caught : flushWaits s.cpus.k = false)
    (turn : s.cpus.k.fifo.written.length < s.cached + 1024) :
    kReadReg s.cpus.k fifoTail = s.cpus.k.fifo.head ∧ s.consumed = s.cpus.k.fifo.written.length := by
  have same : s.cpus.k.fifo.tailCache = s.cpus.k.fifo.head := by simpa [flushWaits] using caught
  obtain ⟨kicked, low, high, _⟩ := at'.registers.kicked
  have cache := at'.registers.cache
  have late := at'.registers.late
  rw [same] at cache
  have head : s.cpus.k.fifo.head.toNat = s.cpus.k.fifo.written.length % 1024 := by
    have inRing : s.cpus.k.fifo.head.toNat < 1024 := by
      rw [cache]
      exact Nat.mod_lt _ (by decide)
    have writing := at'.writing
    match writers : s.writers with
    | [] =>
      rw [writers] at writing
      exact writing.2
    | [writer] =>
      rw [writers] at writing
      obtain ⟨pc, _, headAt⟩ := writing.1
      cases pc with
      | command | value | increment => exact headAt
      | test =>
        obtain ⟨past, some⟩ := headAt
        omega
      | reset =>
        have past := headAt.1
        omega
      | done => exact headAt.elim
    | _ :: _ :: _ =>
      rw [writers] at writing
      exact writing.elim
  have all : s.consumed = s.cpus.k.fifo.written.length := by omega
  refine ⟨BitVec.eq_of_toNat_eq ?_, all⟩
  rw [at'.registers.tail, head, all]

theorem testWaits {s t : Mixed} {op : Op} (at' : Positions s) (taken : step s op = some t)
    (regular : Regular s op t) : FlushWaits s op t := by
  rintro thread rfl before returned
  obtain ⟨stmt, rest, ran⟩ := runExact taken
  have first := ran.left
  change s.cpus.code thread = stmt :: rest at first
  rw [before] at first
  cases first
  have same : t.cpus.k = s.cpus.k := ran.k
  have caught : flushWaits s.cpus.k = false := by
    have next := ran.next
    change t.cpus.code thread = _ at next
    rw [returned] at next
    cases waits : flushWaits s.cpus.k with
    | false => rfl
    | true =>
      rw [execStmt, waits] at next
      contradiction
  have turn := regular.2.2
  rw [WithinTurn, executes, ran.left] at turn
  rw [same, ran.ghosts.1]
  exact caughtUp at' caught (turn caught)

/- The driver waits for the tail to be 0; the head register is what the device makes of it. -/
theorem initialPositions (s : Kyouko3) (pBase : BitVec 64) (memory : Nat → FifoEntry) {head : BitVec 32}
    (restarted : head = 0) (dmaBase : Nat → BitVec 64) : Positions (initial s pBase memory head dmaBase) := by
  subst restarted
  refine ⟨⟨rfl, ⟨0, Nat.le_refl _, Nat.le_refl _, rfl⟩, rfl, Nat.le_refl _, ?_⟩, ⟨?_, rfl⟩, ?_⟩
  · intro actor tail rest left
    cases actor <;> contradiction
  · intro actor
    cases actor <;> rfl
  · intro actor
    cases actor <;> rfl

theorem everyFlushWaits (s : Kyouko3) (pBase : BitVec 64) (memory : Nat → FifoEntry) (head : BitVec 32)
    (restarted : head = 0) (dmaBase : Nat → BitVec 64) (ops : List Op)
    (regular : EachStep step Regular (initial s pBase memory head dmaBase) ops) :
    EachStep step FlushWaits (initial s pBase memory head dmaBase) ops :=
  eachStepOfInvariant (fun _ _ _ => stepPositions) (fun _ _ _ => testWaits)
    (initialPositions s pBase memory restarted dmaBase) regular

def coldStart : Mixed := initial coldKyouko 0 coldMemory 0 fun _ => 0

/- A call and as many statements of its thread. -/
def call (op : Op) (thread statements : Nat) : List Op := op :: List.replicate statements (.run (.thread thread))

/- One thread starts a transfer and another queues an entry and flushes while it completes. -/
def mixedCalls : List Op :=
  call (.startDma 1 1801) 1 15 ++ [.device, .device] ++ call (.fifoQueue 0 ⟨0x3FFC, 0⟩) 0 4 ++ call (.fifoFlush 0) 0 3 ++
    .interrupt 2 :: List.replicate 17 (.run .handler) ++ [.device, .device, .device] ++ List.replicate 3 (.run (.thread 0))

theorem mixedFlushWaits : EachStep step FlushWaits coldStart mixedCalls :=
  everyFlushWaits coldKyouko 0 coldMemory 0 rfl (fun _ => 0) mixedCalls (by decide +kernel)

section Stale
variable {s t : Mixed}

theorem execGrows (k : Kyouko3) (stmt : Stmt) :
    k.fifo.written.length ≤ (execStmt k stmt).2.fifo.written.length := by
  cases stmt with
  | write pc entry => exact (writeKeeps k pc entry).2.2
  | _ => exact Nat.le_refl _

/- Only the device takes entries; everybody else can but add to them. -/
theorem stepGrows {op : Op} (driver : op ≠ .device) (taken : step s op = some t) :
    t.consumed = s.consumed ∧ s.cpus.k.fifo.written.length ≤ t.cpus.k.fifo.written.length := by
  cases op with
  | fifoQueue thread entry | fifoFlush thread =>
    obtain ⟨cpus, entered, rfl⟩ := Option.map_eq_some_iff.mp taken
    obtain ⟨_, rfl⟩ := enterExact entered
    exact ⟨rfl, Nat.le_refl _⟩
  | startDma thread cmdCount =>
    obtain ⟨cpus, started, rfl⟩ := Option.map_eq_some_iff.mp taken
    obtain ⟨_, _, rfl⟩ := startExact started
    exact ⟨rfl, Nat.le_refl _⟩
  | interrupt status =>
    obtain ⟨cpus, raised, rfl⟩ := Option.map_eq_some_iff.mp taken
    obtain ⟨_, rfl⟩ := interruptExact raised
    exact ⟨rfl, Nat.le_refl _⟩
  | run actor =>
    obtain ⟨stmt, rest, ran⟩ := runExact taken
    refine ⟨ran.ghosts.1, ?_⟩
    rw [ran.k]
    exact execGrows s.cpus.k stmt
  | signal thread =>
    obtain ⟨cpus, woken, rfl⟩ := Option.map_eq_some_iff.mp taken
    obtain ⟨_, rfl⟩ := signalExact woken
    exact ⟨rfl, Nat.le_refl _⟩
  | device => contradiction

/- So a run of the driver alone that ends with room had room throughout. -/
theorem fitsThroughout {ops : List Op} (driver : ∀ op ∈ ops, op ≠ .device) (ran : exec step s ops = some t)
    (fits : Fits t) : Fits s ∧ EachState step Fits s ops := by
  induction ops generalizing s with
  | nil =>
    cases Option.some.inj ran
    exact ⟨fits, fits⟩
  | cons op ops ih =>
    obtain ⟨u, taken, rest⟩ := execConsSome ran
    obtain ⟨here, later⟩ := ih (fun x mem => driver x (List.mem_cons_of_mem op mem)) rest
    obtain ⟨consumed, longer⟩ := stepGrows (driver op List.mem_cons_self) taken
    have fitsHere : Fits s := by
      rw [Fits, consumed] at here
      exact Nat.lt_of_le_of_lt longer here
    refine ⟨fitsHere, fitsHere, fun v again => ?_⟩
    cases Option.some.inj (taken.symm.trans again)
    exact later

/- This many statements of a thread that nobody interrupts and that does not sleep. -/
def proceed : Nat → List Stmt × Kyouko3 → Option (List Stmt × Kyouko3)
  | 0, left => some left
  | _ + 1, ([], _) => none
  | n + 1, (stmt :: rest, k) =>
      if Blocks k stmt then none else proceed n ((execStmt k stmt).1 ++ rest, (execStmt k stmt).2)

theorem proceedRuns {n : Nat} {left : List Stmt} {k : Kyouko3}
    (proceeds : proceed n (s.cpus.code 0, s.cpus.k) = some (left, k)) :
    ∃ t, exec step s (List.replicate n (.run (.thread 0))) = some t ∧
      t.cpus.code 0 = left ∧ t.cpus.k = k ∧ t.consumed = s.consumed := by
  induction n generalizing s with
  | zero =>
    cases Option.some.inj proceeds
    exact ⟨s, rfl, rfl, rfl, rfl⟩
  | succ n ih =>
    cases code : s.cpus.code 0 with
    | nil =>
      rw [code] at proceeds
      contradiction
    | cons stmt rest =>
      rw [code, proceed] at proceeds
      split at proceeds <;> try contradiction
      rename_i goes
      obtain ⟨t, taken⟩ : ∃ t, step s (.run (.thread 0)) = some t := by
        refine Option.isSome_iff_exists.mp ?_
        simp only [step, Cpus.next, Cpus.left, code, if_neg goes, Option.map_some, Option.isSome_some]
      obtain ⟨stmt', rest', ran⟩ := runExact taken
      cases code.symm.trans ran.left
      have next : t.cpus.code 0 = _ := ran.next
      rw [← next, ← ran.k] at proceeds
      obtain ⟨u, more, code', k', consumed⟩ := ih proceeds
      exact ⟨u, (execCons taken _).trans more, code', k', consumed.trans ran.ghosts.1⟩

theorem callRuns {op : Op} {program : List Stmt} {n : Nat} {left : List Stmt} {k : Kyouko3}
    (enters : step s op = (s.cpus.enter 0 program).map fun cpus => {s with cpus := cpus})
    (between : s.cpus.code 0 = []) (proceeds : proceed n (program, s.cpus.k) = some (left, k)) :
    ∃ t, exec step s (call op 0 n) = some t ∧ t.cpus.code 0 = left ∧ t.cpus.k = k ∧ t.consumed = s.consumed := by
  have taken : step s op = some {s with cpus := s.cpus.goto (.thread 0) program} := by
    rw [enters, Cpus.enter, if_pos between]; rfl
  obtain ⟨t, ran, rest⟩ := proceedRuns (s := {s with cpus := s.cpus.goto (.thread 0) program}) proceeds
  exact ⟨t, (execCons taken _).trans ran, rest⟩

theorem queueProceeds {k : Kyouko3} (short : ¬ k.fifo.head + 1 ≥ fifoEntries) (entry : FifoEntry) :
    proceed 4 (queueProgram entry, k) = some ([], fifoWrite k entry.command entry.value) := by
  have asleep : ∀ (k : Kyouko3) (pc : WritePc), ¬ Blocks k (.write pc entry) := fun _ _ blocks => nomatch blocks.1
  simp only [queueProgram, proceed, asleep, if_false, execStmt, writeStep, storeAtHead, storeSame, storeTwice,
    short, reduceCtorEq, List.append_nil, fifoWrite, advance, if_true]

/- With the index of the entry the head comes back to 0. -/
theorem wrapProceeds {k : Kyouko3} (last : k.fifo.head + 1 ≥ fifoEntries) (entry : FifoEntry) :
    proceed 5 (queueProgram entry, k) = some ([], fifoWrite k entry.command entry.value) := by
  have asleep : ∀ (k : Kyouko3) (pc : WritePc), ¬ Blocks k (.write pc entry) := fun _ _ blocks => nomatch blocks.1
  simp only [queueProgram, proceed, asleep, if_false, execStmt, writeStep, storeAtHead, storeSame, storeTwice,
    last, reduceCtorEq, List.append_nil, fifoWrite, advance, if_true]

/- Thread 0 is between calls, so much is consumed and written, and the cached tail is 0. -/
structure Between (s : Mixed) (taken total : Nat) : Prop where
  code : s.cpus.code 0 = []
  consumed : s.consumed = taken
  written : s.cpus.k.fifo.written.length = total
  head : s.cpus.k.fifo.head.toNat = total % 1024
  cache : s.cpus.k.fifo.tailCache = 0

theorem queueRuns {taken total : Nat} (between : Between s taken total) (entry : FifoEntry) {n : Nat}
    (proceeds : proceed n (queueProgram entry, s.cpus.k) = some ([], fifoWrite s.cpus.k entry.command entry.value)) :
    ∃ t, exec step s (call (.fifoQueue 0 entry) 0 n) = some t ∧ Between t taken (total + 1) := by
  have enters : step s (.fifoQueue 0 entry) =
      (s.cpus.enter 0 (queueProgram entry)).map fun cpus => {s with cpus := cpus} := rfl
  obtain ⟨t, ran, code, k, same⟩ := callRuns enters between.code proceeds
  refine ⟨t, ran, code, same.trans between.consumed, ?_, ?_, ?_⟩
  · rw [k]
    change (s.cpus.k.fifo.written ++ [_]).length = total + 1
    rw [List.length_append, between.written]
    rfl
  · rw [k]
    exact advanceSlot between.head
  · rw [k]
    exact between.cache

def refill (n : Nat) : List Op := (List.replicate n (call (.fifoQueue 0 ⟨0x3FFC, 0⟩) 0 4)).flatten

theorem callDriver {first : Op} (driver : first ≠ .device) (n : Nat) : ∀ op ∈ call first 0 n, op ≠ .device := by
  rintro op mem rfl
  rcases List.mem_cons.mp mem with here | later
  · exact driver here.symm
  · have run := List.eq_of_mem_replicate later
    contradiction

theorem refillDriver (n : Nat) : ∀ op ∈ refill n, op ≠ .device := by
  intro op mem
  obtain ⟨part, among, inside⟩ := List.mem_flatten.mp mem
  rw [List.eq_of_mem_replicate among] at inside
  exact callDriver (by decide) 4 op inside

theorem refillRuns {taken total n : Nat} (between : Between s taken total) (room : total + n < 1024) :
    ∃ t, exec step s (refill n) = some t ∧ Between t taken (total + n) := by
  induction n generalizing s total with
  | zero => exact ⟨s, rfl, between⟩
  | succ n ih =>
    have short : ¬ s.cpus.k.fifo.head + 1 ≥ fifoEntries := by
      have head := between.head
      rw [Nat.mod_eq_of_lt (by omega)] at head
      rw [ge_iff_le, BitVec.le_def, BitVec.toNat_add, head]
      change ¬ 1024 ≤ (total + 1) % 2 ^ 32
      omega
    obtain ⟨t, ran, next⟩ := queueRuns between ⟨0x3FFC, 0⟩ (queueProceeds short _)
    obtain ⟨u, more, last⟩ := ih next (by omega)
    refine ⟨u, ?_, ?_⟩
    · rw [refill, List.replicate_succ, List.flatten_cons, execAppend, ran, Option.bind_some]
      exact more
    · rw [show total + (n + 1) = total + 1 + n by omega]
      exact last

end Stale

def transfer : List Op := call (.startDma 0 1801) 0 15 ++ [.device, .device]
def refilled : List Op := transfer ++ (refill 1021 ++ call (.fifoQueue 0 ⟨0x3FFC, 0⟩) 0 5)
def wholeTurn : List Op := refilled ++ call (.fifoFlush 0) 0 3

theorem transferBetween : EachState step Fits coldStart transfer ∧
    ∃ s, exec step coldStart transfer = some s ∧ Between s 2 2 := by
  refine ⟨by decide +kernel, _, rfl, ?_⟩
  exact ⟨rfl, rfl, rfl, rfl, rfl⟩

/- A transfer moves the head without a flush, and 1022 entries bring it round to the
cached tail with all of them still to be consumed. -/
theorem turnFilled : EachState step Fits coldStart refilled ∧
    ∃ s, exec step coldStart refilled = some s ∧ Between s 2 1024 := by
  obtain ⟨fits, s, began, two⟩ := transferBetween
  obtain ⟨t, more, nearly⟩ := refillRuns two (show 2 + 1021 < 1024 by decide)
  have last : t.cpus.k.fifo.head + 1 ≥ fifoEntries := by
    rw [ge_iff_le, BitVec.le_def, BitVec.toNat_add, nearly.head]
    decide
  obtain ⟨u, whole, full⟩ := queueRuns nearly ⟨0x3FFC, 0⟩ (wrapProceeds last _)
  have ran : exec step s (refill 1021 ++ call (.fifoQueue 0 ⟨0x3FFC, 0⟩) 0 5) = some u := by
    rw [execAppend, more, Option.bind_some]
    exact whole
  refine ⟨eachStateAppend fits fun v again => ?_, u, ?_, full⟩
  · cases Option.some.inj (began.symm.trans again)
    refine (fitsThroughout ?_ ran ?_).2
    · exact fun op mem => (List.mem_append.mp mem).elim (refillDriver 1021 op) (callDriver (by decide) 5 op)
    · rw [Fits, full.consumed, full.written]
      decide
  · rw [refilled, execAppend, began, Option.bind_some]
    exact ran

/- The flush tests once and is over. -/
theorem flushReturns {s : Mixed} (full : Between s 2 1024) :
    ∃ t u, exec step s (call (.fifoFlush 0) 0 2) = some t ∧ step t (.run (.thread 0)) = some u ∧
      t.cpus.code 0 = [.testTail] ∧ u.cpus.code 0 = [] ∧ u.consumed = 2 ∧ u.cpus.k.fifo.written.length = 1024 := by
  have enters : step s (.fifoFlush 0) = (s.cpus.enter 0 flushProgram).map fun cpus => {s with cpus := cpus} := rfl
  have kicks : proceed 2 (flushProgram, s.cpus.k) = some ([.testTail], kickFifo s.cpus.k) := rfl
  obtain ⟨t, began, code, kicked, taken⟩ := callRuns enters full.code kicks
  have same : t.cpus.k.fifo = s.cpus.k.fifo := by rw [kicked]; rfl
  have head : s.cpus.k.fifo.head = 0 := BitVec.eq_of_toNat_eq full.head
  have passes : flushWaits t.cpus.k = false := by
    rw [flushWaits, same, full.cache, head]
    rfl
  have returns : proceed 1 (t.cpus.code 0, t.cpus.k) = some ([], t.cpus.k) := by
    simp only [code, proceed, execStmt, passes]
    rfl
  obtain ⟨u, returned, returnedCode, k, last⟩ := proceedRuns returns
  obtain ⟨v, tested, rest⟩ := execConsSome returned
  cases Option.some.inj rest
  refine ⟨t, u, began, tested, code, returnedCode, last.trans (taken.trans full.consumed), ?_⟩
  rw [k, same]
  exact full.written

theorem staleCacheReturns :
    EachState step Fits coldStart wholeTurn ∧ ¬ EachStep step FlushWaits coldStart wholeTurn := by
  obtain ⟨fits, s, filled, full⟩ := turnFilled
  obtain ⟨t, u, began, returned, before, after, taken, total⟩ := flushReturns full
  have lastTest : call (.fifoFlush 0) 0 3 = call (.fifoFlush 0) 0 2 ++ [.run (.thread 0)] := rfl
  have flushed : exec step s (call (.fifoFlush 0) 0 3) = some u := by
    rw [lastTest, execAppend, began, Option.bind_some]
    exact execCons returned []
  constructor
  · refine eachStateAppend fits fun v again => ?_
    cases Option.some.inj (filled.symm.trans again)
    refine (fitsThroughout (callDriver (by decide) 3) flushed ?_).2
    rw [Fits, taken, total]
    decide
  · intro waits
    rw [wholeTurn, lastTest, ← List.append_assoc] at waits
    have reached : exec step coldStart (refilled ++ call (.fifoFlush 0) 0 2) = some t := by
      rw [execAppend, filled, Option.bind_some]
      exact began
    have consumed := (eachStepLast waits reached returned 0 rfl before after).2
    rw [taken, total] at consumed
    exact absurd consumed (by decide)

end KernelLabs.FlushWait
