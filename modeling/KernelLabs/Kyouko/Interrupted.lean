import KernelLabs.Kyouko.Statements
import KernelLabs.Library.StoreLog

/-! The interrupt handler against the code it interrupts. It takes every interrupt for
its own, and it writes to the FIFO through the same head as a `FIFO_WRITE` it may have
cut in two; nothing keeps it out of the one that `FIFO_QUEUE` makes. -/
namespace KernelLabs.Interrupted
open Kyouko Buffer StoreLog Statements

/- The line is raised with this value in the status register. -/
def interrupt (k : Kyouko3) (status : BitVec 32) : IrqReturn × Kyouko3 :=
  rkintr (kWriteReg k interruptStatus status)

/- What the driver does with an interrupt of another device. -/
def Ignores (k : Kyouko3) (status : BitVec 32) : Prop :=
  (interrupt k status).1 = .none ∧
  (interrupt k status).2.dmaFill = k.dmaFill ∧ (interrupt k status).2.dmaDrain = k.dmaDrain ∧
  (interrupt k status).2.isFull = k.isFull ∧
  (∀ i, ((interrupt k status).2.dmabuffs i).cmdCount = (k.dmabuffs i).cmdCount) ∧
  (interrupt k status).2.fifo.kBase = k.fifo.kBase ∧ (interrupt k status).2.fifo.head = k.fifo.head

def issued (k : Kyouko3) : Transfer := transferAt k (issueSlot k)

theorem interruptWrites (k : Kyouko3) (status : BitVec 32) :
    (interrupt k status).1 = .handled ∧
    (interrupt k status).2.fifo = (writeTransfer k (issued k).1 (issued k).2).fifo := by
  unfold interrupt rkintr
  dsimp only
  rw [if_neg (statusUnmasked _)]
  dsimp only
  split
  · exact ⟨rfl, rfl⟩
  · exact ⟨rfl, rfl⟩

/- The drain moves on with every interrupt, whatever its status says. -/
theorem drainMoves (drain : BitVec 32) : (drain + 1) % numBufs ≠ drain := by
  intro same
  have nat : (drain.toNat + 1) % 2 ^ 32 % 8 = drain.toNat := congrArg BitVec.toNat same
  omega

theorem foreignNeverIgnored (k : Kyouko3) (status : BitVec 32) :
    ¬ Ignores k status ∧ (interrupt k status).1 = .handled ∧
      (interrupt k status).2.dmaDrain ≠ k.dmaDrain ∧
      (interrupt k status).2.fifo.written = k.fifo.written ++ transferEntries (issued k) := by
  obtain ⟨handled, _⟩ := interruptWrites k status
  obtain ⟨written, _, _, drain, _⟩ := interruptIssues k status _ rfl
  refine ⟨?_, handled, ?_, written⟩
  · rintro ⟨none, _⟩
    rw [handled] at none; contradiction
  · rw [interrupt, drain]
    exact drainMoves k.dmaDrain

/- No bit of the status is set, and a transfer nobody asked for goes to the FIFO. -/
theorem idleStatusCompletes : (0 : BitVec 32) &&& 0x02 = 0 ∧ ¬ Ignores coldKyouko 0 := by
  refine ⟨by decide, ?_⟩
  rintro ⟨none, _⟩
  exact absurd none (by decide)

/- `FIFO_WRITE` with an interrupt after its first `n` statements. -/
def interruptedWrite (entry : FifoEntry) (n : Nat) (status : BitVec 32) (k : Kyouko3) : Kyouko3 :=
  let s := writeSteps entry n (.command, k)
  (writeSteps entry 5 (s.1, (interrupt s.2 status).2)).2

/- Entries laid into consecutive slots of the ring. -/
def placed (kBase : Nat → FifoEntry) (slot : Nat) (entries : List FifoEntry) : Nat → FifoEntry :=
  storeAll kBase (ringStores 1024 slot entries)

/- The handler's pair and the entry are in the ring, whole and in one of the two orders,
nothing else has changed, and the head is three slots on. -/
def Survives (k : Kyouko3) (entry : FifoEntry) (n : Nat) (status : BitVec 32) : Prop :=
  let fifo := (interruptedWrite entry n status k).fifo
  fifo.head.toNat = (k.fifo.head.toNat + 3) % 1024 ∧
  (fifo.kBase = placed k.fifo.kBase k.fifo.head.toNat (transferEntries (issued k) ++ [entry]) ∨
    fifo.kBase = placed k.fifo.kBase k.fifo.head.toNat (entry :: transferEntries (issued k)))

/- Where the interrupt does no harm. Inside the two stores the handler's first entry
takes the slot, and the rest of this one meets what the ring held two slots on. -/
def Harmless (k : Kyouko3) (entry : FifoEntry) : Nat → Prop
  | 1 => (k.fifo.kBase ((k.fifo.head.toNat + 2) % 1024)).command = entry.command
  | 2 => k.fifo.kBase ((k.fifo.head.toNat + 2) % 1024) = entry
  | 3 | 4 => k.fifo.head.toNat + 1 < 1024
  | _ => True

section Write
variable {k : Kyouko3} {entry : FifoEntry}

theorem placedLatest {kBase : Nat → FifoEntry} {slot j : Nat} {entries : List FifoEntry}
    (inside : j < entries.length) (late : entries.length ≤ j + 1024) :
    placed kBase slot entries ((slot + j) % 1024) = entries[j] :=
  ringStoresLatest inside late kBase

theorem placedOther {kBase : Nat → FifoEntry} {slot i : Nat} {entries : List FifoEntry}
    (other : ∀ j, j < entries.length → entries.length ≤ j + 1024 → i ≠ (slot + j) % 1024) :
    placed kBase slot entries i = kBase i :=
  ringStoresOther (by decide) other kBase

/- Behind the handler's pair only the entry itself will do. -/
theorem arrangedIff (kBase : Nat → FifoEntry) (slot : Nat) (t : Transfer) (x : FifoEntry) :
    (placed kBase slot (transferEntries t ++ [x]) = placed kBase slot (transferEntries t ++ [entry]) ∨
      placed kBase slot (transferEntries t ++ [x]) = placed kBase slot (entry :: transferEntries t)) ↔
      x = entry := by
  constructor
  · rintro (same | turned)
    · have last := congrFun same ((slot + 2) % 1024)
      rwa [placedLatest (Nat.lt_succ_self 2) (by simp [transferEntries]),
        placedLatest (Nat.lt_succ_self 2) (by simp [transferEntries])] at last
    · have middle := congrFun turned ((slot + 1) % 1024)
      rw [placedLatest (show 1 < 3 by decide) (by simp [transferEntries]),
        placedLatest (show 1 < 3 by decide) (by simp [transferEntries])] at middle
      have commands : bufferAConfig = bufferAAddress := congrArg FifoEntry.command middle
      exact absurd commands (by decide)
  · intro same
    exact Or.inl (by rw [same])

/- What the handler leaves of the FIFO, from a head inside the ring. -/
theorem interruptPlaces {slot : Nat} (head : k.fifo.head.toNat = slot % 1024) (status : BitVec 32) :
    (interrupt k status).2.fifo.kBase = placed k.fifo.kBase slot (transferEntries (issued k)) ∧
    (interrupt k status).2.fifo.head.toNat = (slot + 2) % 1024 := by
  rw [(interruptWrites k status).2]
  have next := advanceSlot head
  refine ⟨?_, advanceSlot next⟩
  simp only [writeTransfer, fifoWrite, head, next]
  rfl

theorem fifoWritePlaces (entry : FifoEntry) {slot : Nat} (head : k.fifo.head.toNat = slot % 1024) :
    (fifoWrite k entry.command entry.value).fifo.kBase = placed k.fifo.kBase slot [entry] ∧
    (fifoWrite k entry.command entry.value).fifo.head.toNat = (slot + 1) % 1024 := by
  refine ⟨?_, advanceSlot head⟩
  simp only [fifoWrite, head]
  rfl

end Write

section Boundaries
variable {k : Kyouko3} {entry : FifoEntry} {status : BitVec 32}

/- Before the first statement. -/
theorem survivesBefore (inside : k.fifo.head.toNat < 1024) : Survives k entry 0 status := by
  have head : k.fifo.head.toNat = k.fifo.head.toNat % 1024 := (Nat.mod_eq_of_lt inside).symm
  obtain ⟨pair, next⟩ := interruptPlaces head status
  obtain ⟨own, last⟩ := fifoWritePlaces entry next
  have whole : interruptedWrite entry 0 status k =
      fifoWrite (interrupt k status).2 entry.command entry.value := by
    rw [interruptedWrite, writeSteps, writeStepsWhole _ _ 0]
  rw [Survives, whole]
  exact ⟨last, Or.inl (by rw [own, pair]; rfl)⟩

theorem testPasses (entry : FifoEntry) (inside : k.fifo.head.toNat < 1024) :
    writeStep entry (.test, k) = (.done, k) := by
  have short : ¬ k.fifo.head ≥ fifoEntries := Nat.not_le.mpr inside
  simp only [writeStep, short, if_false]

/- After the last statement, or with only a test left that finds no wrap. -/
theorem survivesAfter (inside : k.fifo.head.toNat < 1024) {n : Nat} {pc : WritePc}
    (late : pc = .test ∨ pc = .done)
    (finished : writeSteps entry n (.command, k) = (pc, fifoWrite k entry.command entry.value)) :
    Survives k entry n status := by
  have head : k.fifo.head.toNat = k.fifo.head.toNat % 1024 := (Nat.mod_eq_of_lt inside).symm
  obtain ⟨own, next⟩ := fifoWritePlaces entry head
  obtain ⟨pair, last⟩ := interruptPlaces next status
  have within : (interrupt (fifoWrite k entry.command entry.value) status).2.fifo.head.toNat < 1024 := by
    rw [last]
    exact Nat.mod_lt _ (by decide)
  have whole : interruptedWrite entry n status k =
      (interrupt (fifoWrite k entry.command entry.value) status).2 := by
    rw [interruptedWrite, finished]
    rcases late with rfl | rfl
    · rw [writeSteps, testPasses entry within, doneStays]
    · rw [doneStays]
  rw [Survives, whole]
  exact ⟨last, Or.inr (by rw [pair, own]; rfl)⟩

/- A head that stays inside the ring has finished moving before the test. -/
theorem movedBeforeTest (room : k.fifo.head.toNat + 1 < 1024) (entry : FifoEntry) :
    writeSteps entry 3 (.command, k) = (.test, fifoWrite k entry.command entry.value) := by
  have sum : (k.fifo.head + 1).toNat = k.fifo.head.toNat + 1 := by
    rw [BitVec.toNat_add]
    exact Nat.mod_eq_of_lt (by simp; omega)
  have short : ¬ k.fifo.head + 1 ≥ fifoEntries := by
    rw [ge_iff_le, BitVec.le_def, sum]
    exact Nat.not_le.mpr room
  rw [fifoWrite, advance, if_neg short]
  simp only [writeSteps, writeStep, storeAtHead, storeSame, storeTwice]

/- An interrupt inside the two stores takes the slot they are made to, and leaves the
rest of the write to the slot after its own two. -/
theorem slotTaken (status : BitVec 32) (inside : k.fifo.head.toNat < 1024) (half : FifoEntry) :
    let cut := {k with fifo := {k.fifo with kBase := store k.fifo.kBase k.fifo.head.toNat half}}
    (interrupt cut status).2.fifo.kBase =
      placed k.fifo.kBase k.fifo.head.toNat (transferEntries (issued k)) ∧
    (interrupt cut status).2.fifo.head.toNat = (k.fifo.head.toNat + 2) % 1024 := by
  intro cut
  have head : cut.fifo.head.toNat = k.fifo.head.toNat % 1024 := (Nat.mod_eq_of_lt inside).symm
  obtain ⟨pair, next⟩ := interruptPlaces head status
  refine ⟨?_, next⟩
  rw [pair, show issued cut = issued k from rfl]
  simp only [cut, transferEntries, placed, ringStores, storeAllCons, Nat.mod_eq_of_lt inside, storeTwice]

theorem pairLeaves (kBase : Nat → FifoEntry) (slot : Nat) (t : Transfer) :
    placed kBase slot (transferEntries t) ((slot + 2) % 1024) = kBase ((slot + 2) % 1024) := by
  apply placedOther
  intro j inside _
  have pair : j < 2 := inside
  omega

theorem placedBehind (kBase : Nat → FifoEntry) (slot : Nat) (t : Transfer) (x : FifoEntry) :
    store (placed kBase slot (transferEntries t)) ((slot + 2) % 1024) x =
      placed kBase slot (transferEntries t ++ [x]) := rfl

/- Between the stores the command is lost under the handler's entry. -/
theorem survivesCommandIff (inside : k.fifo.head.toNat < 1024) :
    Survives k entry 1 status ↔
      (k.fifo.kBase ((k.fifo.head.toNat + 2) % 1024)).command = entry.command := by
  let cut := (writeStep entry (.command, k)).2
  obtain ⟨pair, next⟩ := slotTaken status inside
    {k.fifo.kBase k.fifo.head.toNat with command := entry.command}
  have rest : interruptedWrite entry 1 status k = (writeSteps entry (1 + 3) (.increment,
      (writeStep entry (.value, (interrupt cut status).2)).2)).2 := rfl
  rw [Survives, rest, incrementSteps]
  have old := pairLeaves k.fifo.kBase k.fifo.head.toNat (issued k)
  have kBase : (writeStep entry (.value, (interrupt cut status).2)).2.fifo.kBase =
      placed k.fifo.kBase k.fifo.head.toNat (transferEntries (issued k) ++
        [⟨(k.fifo.kBase ((k.fifo.head.toNat + 2) % 1024)).command, entry.value⟩]) := by
    rw [← placedBehind, ← old, ← pair, ← next]
    rfl
  dsimp only
  rw [kBase, arrangedIff]
  constructor
  · rintro ⟨_, same⟩
    have command := congrArg FifoEntry.command same
    exact command
  · intro same
    exact ⟨advanceSlot next, by rw [same]⟩

/- Between the stores and the head's move the whole entry is. -/
theorem survivesStoredIff (inside : k.fifo.head.toNat < 1024) :
    Survives k entry 2 status ↔ k.fifo.kBase ((k.fifo.head.toNat + 2) % 1024) = entry := by
  let cut := {k with fifo := {k.fifo with kBase := store k.fifo.kBase k.fifo.head.toNat entry}}
  obtain ⟨pair, next⟩ := slotTaken status inside entry
  have stored : writeSteps entry 2 (.command, k) = (.increment, cut) := by
    simp only [writeSteps, writeStep, storeAtHead, storeSame, storeTwice]
    rfl
  have rest : interruptedWrite entry 2 status k =
      (writeSteps entry (2 + 3) (.increment, (interrupt cut status).2)).2 := by
    rw [interruptedWrite, stored]
  have old := pairLeaves k.fifo.kBase k.fifo.head.toNat (issued k)
  have kBase : (interrupt cut status).2.fifo.kBase = placed k.fifo.kBase k.fifo.head.toNat
      (transferEntries (issued k) ++ [k.fifo.kBase ((k.fifo.head.toNat + 2) % 1024)]) := by
    rw [← placedBehind, ← old, storeOld]
    exact pair
  rw [Survives, rest, incrementSteps]
  dsimp only
  rw [kBase, arrangedIff]
  exact ⟨fun survives => survives.2, fun same => ⟨advanceSlot next, same⟩⟩

theorem pastEnd {c : Kyouko3} (past : c.fifo.head = 1024) (status : BitVec 32) :
    (interrupt c status).2.fifo.head = 1 := by
  rw [(interruptWrites c status).2]
  simp only [writeTransfer, fifoWrite, past]
  rfl

/- At the wrap the head is one past the ring until it is reset, and the handler writes
there. -/
theorem wrapLost (last : k.fifo.head = 1023) {n : Nat} (at' : n = 3 ∨ n = 4) :
    ¬ Survives k entry n status := by
  rintro ⟨head, _⟩
  let cut := (writeSteps entry 3 (.command, k)).2
  have past : cut.fifo.head = 1024 := by
    change k.fifo.head + 1 = 1024
    rw [last]
    rfl
  have one := pastEnd past status
  rw [last] at head
  rcases at' with rfl | rfl
  · have rest : interruptedWrite entry 3 status k =
        (writeSteps entry 4 (writeStep entry (.test, (interrupt cut status).2))).2 := rfl
    have tested : writeStep entry (.test, (interrupt cut status).2) = (.done, (interrupt cut status).2) := by
      rw [writeStep, one]
      rfl
    rw [rest, tested, doneStays, one] at head
    contradiction
  · have tested : writeSteps entry 4 (.command, k) = (.reset, cut) := by
      change writeStep entry (.test, cut) = _
      rw [writeStep, past]
      rfl
    rw [interruptedWrite, tested] at head
    contradiction

end Boundaries

theorem advanceInside (head : BitVec 32) : (advance head).toNat < 1024 := by
  unfold advance
  split
  · decide
  · rename_i short
    exact Nat.not_le.mp short

/- However the write is cut, it leaves the head inside the ring, where `init_fifo` puts it. -/
theorem interruptedInside (k : Kyouko3) (entry : FifoEntry) (n : Nat) (status : BitVec 32) :
    (interruptedWrite entry n status k).fifo.head.toNat < 1024 := by
  let cut := writeSteps entry n (.command, k)
  have inside : (interrupt cut.2 status).2.fifo.head.toNat < 1024 := by
    rw [(interruptWrites cut.2 status).2]
    exact advanceInside _
  have rest : interruptedWrite entry n status k =
      (writeSteps entry 5 (cut.1, (interrupt cut.2 status).2)).2 := rfl
  rw [rest]
  cases cut.1 with
  | command =>
    rw [writeStepsWhole _ _ 0]
    exact advanceInside _
  | value =>
    rw [writeSteps, writeStep, incrementSteps]
    exact advanceInside _
  | increment =>
    rw [incrementSteps]
    exact advanceInside _
  | test =>
    rw [writeSteps, testPasses entry inside, doneStays]
    exact inside
  | reset =>
    rw [writeSteps, writeStep, doneStays]
    exact Nat.zero_lt_succ _
  | done =>
    rw [doneStays]
    exact inside

/- The exact boundaries, over every ring state whose head is inside the ring. -/
theorem survivesIff (k : Kyouko3) (entry : FifoEntry) (n : Nat) (status : BitVec 32)
    (inside : k.fifo.head.toNat < 1024) : Survives k entry n status ↔ Harmless k entry n := by
  have room : k.fifo.head.toNat + 1 < 1024 ∨ k.fifo.head = 1023 := by
    by_cases last : k.fifo.head = 1023
    · exact Or.inr last
    · left
      have other : k.fifo.head.toNat ≠ 1023 := fun same => last (BitVec.eq_of_toNat_eq same)
      omega
  match n with
  | 0 => exact iff_of_true (survivesBefore inside) trivial
  | 1 => exact survivesCommandIff inside
  | 2 => exact survivesStoredIff inside
  | 3 =>
    rcases room with short | last
    · exact iff_of_true (survivesAfter inside (Or.inl rfl) (movedBeforeTest short entry)) short
    · exact iff_of_false (wrapLost last (Or.inl rfl)) (by rw [Harmless, last]; decide)
  | 4 =>
    rcases room with short | last
    · have next : (fifoWrite k entry.command entry.value).fifo.head.toNat < 1024 := by
        have moved := advanceSlot (Nat.mod_eq_of_lt inside).symm
        exact moved.trans_lt (Nat.mod_lt _ (by decide))
      have finished : writeSteps entry 4 (.command, k) =
          (.done, fifoWrite k entry.command entry.value) := by
        rw [← testPasses entry next, ← movedBeforeTest short entry]
        rfl
      exact iff_of_true (survivesAfter inside (Or.inr rfl) finished) short
    · exact iff_of_false (wrapLost last (Or.inr rfl)) (by rw [Harmless, last]; decide)
  | n + 5 => exact iff_of_true (survivesAfter inside (Or.inr rfl) (writeStepsWhole k entry n)) trivial

/- After the head has moved, away from the wrap. -/
theorem movedSurvives : Survives coldKyouko ⟨0x3FFC, 0⟩ 3 0x02 :=
  (survivesIff coldKyouko ⟨0x3FFC, 0⟩ 3 0x02 (by decide)).mpr (show 0 + 1 < 1024 by decide)

/- Both words of the entry were stored and the head had not moved. -/
theorem storedEntryLost : coldKyouko.fifo.head.toNat < 1024 ∧
    ¬ Survives coldKyouko ⟨0x3FFC, 0⟩ 2 0x02 := by
  refine ⟨by decide, ?_⟩
  rintro ⟨_, pairFirst | pairLast⟩
  · have slot := congrFun pairFirst 2
    exact absurd slot (by decide)
  · have slot := congrFun pairLast 0
    exact absurd slot (by decide)

end KernelLabs.Interrupted
