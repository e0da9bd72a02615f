import KernelLabs.Library.Buffer

/-! The Kyouko3 driver of the fourth lab: the command FIFO, the ring of DMA buffers and
the functions that work on them. What `pci_alloc_consistent` returned is an argument;
mapping, printing and the frame registers are left out, since nothing here reads them. -/
namespace KernelLabs.Kyouko
open Buffer

def fifoEntries : BitVec 32 := 1024
def numBufs : BitVec 32 := 8

def interruptSet : BitVec 32 := 0x100C
def fifoStart : BitVec 32 := 0x1020
def fifoEnd : BitVec 32 := 0x1024
def bufferAAddress : BitVec 32 := 0x2000
def bufferAConfig : BitVec 32 := 0x2008
def interruptStatus : BitVec 32 := 0x4008
def fifoHead : BitVec 32 := 0x4010
def fifoTail : BitVec 32 := 0x4014

structure FifoEntry where
  command : BitVec 32
  value : BitVec 32
  deriving DecidableEq, Repr

/- `written` is the history of the ring: every entry since `init_fifo`, in order. -/
structure Fifo where
  pBase : BitVec 64
  kBase : Nat → FifoEntry
  head : BitVec 32
  tailCache : BitVec 32
  written : List FifoEntry

structure KDmabuff where
  pBase : BitVec 64
  cmdCount : BitVec 32
  deriving DecidableEq, Repr

/- `isFull` is a global beside the structure. -/
structure Kyouko3 where
  control : Nat → BitVec 32
  fifo : Fifo
  dmabuffs : Nat → KDmabuff
  dmaFill : BitVec 32
  dmaDrain : BitVec 32
  isFull : Bool

def kReadReg (s : Kyouko3) (reg : BitVec 32) : BitVec 32 := s.control (reg >>> 2).toNat

def kWriteReg (s : Kyouko3) (reg value : BitVec 32) : Kyouko3 :=
  {s with control := store s.control (reg >>> 2).toNat value}

/- The step of a ring index: `head++`, back to 0 at the end of the ring. -/
def advance (head : BitVec 32) : BitVec 32 := if head + 1 ≥ fifoEntries then 0 else head + 1

def fifoWrite (s : Kyouko3) (reg value : BitVec 32) : Kyouko3 :=
  {s with fifo := {s.fifo with
    kBase := store s.fifo.kBase s.fifo.head.toNat ⟨reg, value⟩,
    head := advance s.fifo.head,
    written := s.fifo.written ++ [⟨reg, value⟩]}}

def kickFifo (s : Kyouko3) : Kyouko3 := kWriteReg s fifoHead s.fifo.head

/- `pause` polls until the device, given a ring, has its tail at 0. What the device makes of
`FifoHead` meanwhile is `head`: no line here writes it. -/
def pause (s : Kyouko3) (head : BitVec 32) : Kyouko3 := kWriteReg (kWriteReg s fifoHead head) fifoTail 0

def initFifo (s : Kyouko3) (pBase : BitVec 64) (memory : Nat → FifoEntry) (head : BitVec 32) : Kyouko3 :=
  let s := {s with fifo := ⟨pBase, memory, 0, 0, []⟩}
  let s := kWriteReg s fifoStart (pBase.setWidth 32)
  let s := kWriteReg s fifoEnd ((pBase + 8192).setWidth 32)
  pause s head

def kyouko3Open (s : Kyouko3) (pBase : BitVec 64) (memory : Nat → FifoEntry) (head : BitVec 32) : Kyouko3 :=
  let s := initFifo s pBase memory head
  {s with dmaFill := 0, dmaDrain := 0}

/- `dmaBase` is where each of the buffers was allocated. -/
def bindDma (s : Kyouko3) (dmaBase : Nat → BitVec 64) : Kyouko3 :=
  let s := {s with dmabuffs := fun i =>
    let buff := s.dmabuffs i
    if i < numBufs.toNat then {buff with pBase := dmaBase i} else buff}
  kWriteReg s interruptSet 0x02

/- The two writes that hand a buffer to the device. -/
def writeTransfer (s : Kyouko3) (pBase : BitVec 64) (cmdCount : BitVec 32) : Kyouko3 :=
  fifoWrite (fifoWrite s bufferAAddress (pBase.setWidth 32)) bufferAConfig cmdCount

def takesDirectPath (s : Kyouko3) : Bool := s.dmaFill == s.dmaDrain && !s.isFull

/- Up to the wait, which follows the return value 1 and changes nothing itself. -/
def initiateTransfer (s : Kyouko3) (cmdCount : BitVec 32) : Nat × Kyouko3 :=
  if takesDirectPath s then
    let s := writeTransfer s (s.dmabuffs s.dmaFill.toNat).pBase cmdCount
    let s := {s with dmaFill := (s.dmaFill + 1) % numBufs}
    (0, kickFifo s)
  else
    let buff := s.dmabuffs s.dmaFill.toNat
    let s := {s with dmabuffs := store s.dmabuffs s.dmaFill.toNat {buff with cmdCount := cmdCount}}
    let s := {s with dmaFill := (s.dmaFill + 1) % numBufs}
    (1, if s.dmaFill = s.dmaDrain then {s with isFull := true} else s)

/- The condition a sleeper of `dma_snooze` waits for. -/
def snoozeOver (s : Kyouko3) : Bool := s.dmaFill != s.dmaDrain || !s.isFull

inductive IrqReturn where
  | none | handled
  deriving DecidableEq, Repr

/- In C the comparison binds tighter: the mask is the value of `0x02 == 0`. -/
def irqMask : BitVec 32 := if (0x02 : BitVec 32) = 0 then 1 else 0

def rkintr (s : Kyouko3) : IrqReturn × Kyouko3 :=
  let iflags := kReadReg s interruptStatus
  let s := kWriteReg s interruptStatus 0xf
  if iflags &&& irqMask ≠ 0 then (.none, s)
  else
    let s := {s with dmaDrain := (s.dmaDrain + 1) % numBufs}
    let buff := s.dmabuffs s.dmaDrain.toNat
    let s := kickFifo (writeTransfer s buff.pBase buff.cmdCount)
    (.handled, if s.dmaFill ≠ s.dmaDrain then {s with isFull := false} else s)

/- Where a caller is: between calls, or in the loop of `FIFO_FLUSH`. -/
inductive FlushPc where
  | outside | test | body
  deriving DecidableEq, Repr

theorem testInside : FlushPc.test ≠ .outside := by decide
theorem bodyInside : FlushPc.body ≠ .outside := by decide

/- That loop's test, and its body. -/
def flushWaits (s : Kyouko3) : Bool := s.fifo.tailCache != s.fifo.head
def refreshTail (s : Kyouko3) : Kyouko3 :=
  {s with fifo := {s.fifo with tailCache := kReadReg s fifoTail}}

/- The device: it takes the entry at its tail unless the tail is where it was kicked to. -/
def deviceNext (s : Kyouko3) : Option (FifoEntry × Kyouko3) :=
  let tail := kReadReg s fifoTail
  if tail = kReadReg s fifoHead then none
  else some (s.fifo.kBase tail.toNat, kWriteReg s fifoTail (advance tail))

/- A module just loaded, with whatever the memory it was given holds. -/
def loaded (control : Nat → BitVec 32) (memory : Nat → FifoEntry) : Kyouko3 :=
  ⟨control, ⟨0, memory, 0, 0, []⟩, fun _ => ⟨0, 0⟩, 0, 0, false⟩

def coldMemory : Nat → FifoEntry := fun _ => ⟨0, 0⟩
def coldKyouko : Kyouko3 := loaded (fun _ => 0) coldMemory

/- A transfer as the device reads it, and where the next ones go in and come out. -/
abbrev Transfer := BitVec 64 × BitVec 32

def fillSlot (k : Kyouko3) : Nat := k.dmaFill.toNat
def issueSlot (k : Kyouko3) : Nat := ((k.dmaDrain + 1) % numBufs).toNat
def transferAt (k : Kyouko3) (slot : Nat) : Transfer :=
  ((k.dmabuffs slot).pBase, (k.dmabuffs slot).cmdCount)

def transferEntries (t : Transfer) : List FifoEntry :=
  [⟨bufferAAddress, t.1.setWidth 32⟩, ⟨bufferAConfig, t.2⟩]

@[simp] theorem readWriteSame (s : Kyouko3) (reg value : BitVec 32) :
    kReadReg (kWriteReg s reg value) reg = value := storeSame ..

theorem readWriteOther {s : Kyouko3} {reg other value : BitVec 32}
    (apart : (other >>> 2).toNat ≠ (reg >>> 2).toNat) :
    kReadReg (kWriteReg s reg value) other = kReadReg s other := storeOther apart

@[simp] theorem kickTail (s : Kyouko3) : kReadReg (kickFifo s) fifoTail = kReadReg s fifoTail :=
  readWriteOther (by decide)

@[simp] theorem kickHead (s : Kyouko3) : kReadReg (kickFifo s) fifoHead = s.fifo.head :=
  readWriteSame ..

theorem deviceExact {k k' : Kyouko3} {entry : FifoEntry} (next : deviceNext k = some (entry, k')) :
    kReadReg k fifoTail ≠ kReadReg k fifoHead ∧ entry = k.fifo.kBase (kReadReg k fifoTail).toNat ∧
      k' = kWriteReg k fifoTail (advance (kReadReg k fifoTail)) := by
  unfold deviceNext at next
  dsimp only at next
  split at next <;> try contradiction
  rename_i more
  cases Option.some.inj next
  exact ⟨more, rfl, rfl⟩

theorem advanceSlot {i : BitVec 32} {n : Nat} (slot : i.toNat = n % 1024) :
    (advance i).toNat = (n + 1) % 1024 := by
  have below := Nat.mod_lt n (show 0 < 1024 by decide)
  rw [nextSlot n (by decide), ← slot]
  have sum : (i + 1).toNat = i.toNat + 1 := by
    rw [BitVec.toNat_add]
    exact Nat.mod_eq_of_lt (by simp; omega)
  have last : i + 1 ≥ fifoEntries ↔ i.toNat + 1 ≥ 1024 := by
    rw [ge_iff_le, BitVec.le_def, sum]; rfl
  unfold advance
  simp only [last]
  split
  · rfl
  · exact sum

theorem bufferNext (i : BitVec 32) : ((i + 1) % numBufs).toNat = (i.toNat + 1) % 8 := by
  have wide : (i + 1).toNat = (i.toNat + 1) % 2 ^ 32 := BitVec.toNat_add i 1
  rw [BitVec.toNat_umod, wide]
  change (i.toNat + 1) % 2 ^ 32 % 8 = _
  omega

theorem bufferSlot {i : BitVec 32} {n : Nat} (slot : i.toNat = n % 8) :
    ((i + 1) % numBufs).toNat = (n + 1) % 8 := by
  rw [bufferNext, slot, Nat.mod_add_mod]

/- The ring, as the history sees it: where the next entry goes, and what it holds. -/
structure RingAt (f : Fifo) : Prop where
  head : f.head.toNat = f.written.length % 1024
  latest : Window f.kBase 1024 f.written (f.written.length - 1024)

theorem fifoWriteRing {s : Kyouko3} (ring : RingAt s.fifo) (reg value : BitVec 32) :
    RingAt (fifoWrite s reg value).fifo where
  head := by
    simp only [fifoWrite, List.length_append, List.length_singleton]
    exact advanceSlot ring.head
  latest := by
    simp only [fifoWrite, ring.head, List.length_append, List.length_singleton]
    exact windowStore (windowLater ring.latest (by omega)) (by omega) _

theorem initFifoRing (s : Kyouko3) (pBase : BitVec 64) (memory : Nat → FifoEntry) (head : BitVec 32) :
    RingAt (initFifo s pBase memory head).fifo where
  head := rfl
  latest := fun _ _ _ found => by simp [initFifo, pause, kWriteReg] at found

theorem slotEq {a b : BitVec 32} {m n : Nat} (left : a.toNat = m % 8) (right : b.toNat = n % 8) :
    a = b ↔ m % 8 = n % 8 := by
  rw [← BitVec.toNat_inj, left, right]

section Calls
variable (k : Kyouko3) (cmdCount : BitVec 32)

theorem startDirect (direct : takesDirectPath k = true) :
    (initiateTransfer k cmdCount).2.fifo.written =
        k.fifo.written ++ transferEntries ((k.dmabuffs (fillSlot k)).pBase, cmdCount) ∧
      (initiateTransfer k cmdCount).2.dmabuffs = k.dmabuffs ∧
      (initiateTransfer k cmdCount).2.dmaFill = (k.dmaFill + 1) % numBufs ∧
      (initiateTransfer k cmdCount).2.dmaDrain = k.dmaDrain ∧
      (initiateTransfer k cmdCount).2.isFull = k.isFull := by
  rw [initiateTransfer, if_pos direct]
  refine ⟨?_, rfl, rfl, rfl, rfl⟩
  simp only [kickFifo, kWriteReg, writeTransfer, fifoWrite, List.append_assoc]
  rfl

theorem startQueued (queued : takesDirectPath k = false) :
    (initiateTransfer k cmdCount).2.fifo.written = k.fifo.written ∧
      (∀ i, transferAt (initiateTransfer k cmdCount).2 i =
        store (transferAt k) (fillSlot k) ((k.dmabuffs (fillSlot k)).pBase, cmdCount) i) ∧
      (initiateTransfer k cmdCount).2.dmaFill = (k.dmaFill + 1) % numBufs ∧
      (initiateTransfer k cmdCount).2.dmaDrain = k.dmaDrain ∧
      (initiateTransfer k cmdCount).2.isFull =
        if (k.dmaFill + 1) % numBufs = k.dmaDrain then true else k.isFull := by
  rw [initiateTransfer, if_neg (by rw [queued]; decide)]
  dsimp only
  have slots : ∀ i, ((store k.dmabuffs (fillSlot k) ⟨(k.dmabuffs (fillSlot k)).pBase, cmdCount⟩ i).pBase,
      (store k.dmabuffs (fillSlot k) ⟨(k.dmabuffs (fillSlot k)).pBase, cmdCount⟩ i).cmdCount) =
      store (transferAt k) (fillSlot k) ((k.dmabuffs (fillSlot k)).pBase, cmdCount) i := by
    intro i
    unfold store
    split <;> rfl
  split
  · exact ⟨rfl, slots, rfl, rfl, rfl⟩
  · exact ⟨rfl, slots, rfl, rfl, rfl⟩

/- The mask of the status test is 0, so the interrupt is always handled. -/
theorem statusUnmasked (iflags : BitVec 32) : ¬ (iflags &&& irqMask ≠ 0) := by
  simp [irqMask]

theorem interruptIssues (status : BitVec 32) (k' : Kyouko3)
    (handled : (rkintr (kWriteReg k interruptStatus status)).2 = k') :
    k'.fifo.written = k.fifo.written ++ transferEntries (transferAt k (issueSlot k)) ∧
      k'.dmabuffs = k.dmabuffs ∧ k'.dmaFill = k.dmaFill ∧
      k'.dmaDrain = (k.dmaDrain + 1) % numBufs ∧
      k'.isFull = if k.dmaFill = (k.dmaDrain + 1) % numBufs then k.isFull else false := by
  subst handled
  unfold rkintr
  dsimp only
  rw [if_neg (statusUnmasked _)]
  dsimp only
  have wrote : (k.fifo.written ++ [⟨bufferAAddress, _⟩]) ++ [⟨bufferAConfig, _⟩] =
      k.fifo.written ++ transferEntries (transferAt k (issueSlot k)) := List.append_assoc ..
  split
  · rename_i apart
    exact ⟨wrote, rfl, rfl, rfl, (if_neg apart).symm⟩
  · rename_i same
    exact ⟨wrote, rfl, rfl, rfl, (if_pos (Decidable.not_not.mp same)).symm⟩

end Calls

end KernelLabs.Kyouko
