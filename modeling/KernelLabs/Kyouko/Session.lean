import KernelLabs.Kyouko.Ioctl
import KernelLabs.Library.Runs

/-! The driver over whole sessions: opens, mmaps, ioctls and releases of any processes in
any order, with interrupts and whatever the device does to its registers in between.
What a session leaves behind of the ring is what the next one finds. -/
namespace KernelLabs.Session
open Kyouko Buffer Device Ioctl Runs

def deviceRam : BitVec 32 := 0x0020

/- Where PCI put a region of the card: its size is a power of two of at least a page, and
it starts at a multiple of it. -/
structure Bar where
  start : BitVec 64
  aligned : start.toNat % pageSize = 0

/- Beside the driver: the size of the card's memory as the last open read it, how many calls
of `kyouko3_mmap` took the branch of the buffers, and for each slot the buffer whose address it
has, as long as that is allocated. -/
structure Machine where
  dev : System
  ram : Nat
  dmaMmaps : Nat
  buffer : Nat → Option DmaMemory

inductive Op where
  | kyouko3Open (place : Option Place) (memory : Nat → FifoEntry) (head : BitVec 32)
  | kyouko3Mmap (p : Pid) (vma : Vma) (ret : Int)
  | kyouko3Ioctl (p : Pid) (call : Call)
  | flushRound
  | kyouko3Release
  | munmap (p : Pid) (addr : BitVec 64) (len : Nat)
  | interrupt
  | register (reg value : BitVec 32)

def mmapsIn : Call → Nat
  | .bindDma _ answers => entered answers.rounds numBufs.toNat
  | _ => 0

/- A bind that gets no memory for a slot leaves its bus address, but clears the other one; an
unbind then has nothing to free there. -/
def bufferIn (buffer : Nat → Option DmaMemory) (rounds : Nat → Round) (n i : Nat) : Option DmaMemory :=
  if i < n then (rounds i).memory.or (buffer i) else buffer i

def bufferLeft (s : System) (buffer : Nat → Option DmaMemory) (n i : Nat) : Option DmaMemory :=
  if i < n ∧ s.dmaKBase i ≠ 0 then none else buffer i

def bufferAfter (s : System) (buffer : Nat → Option DmaMemory) : Call → Nat → Option DmaMemory
  | .bindDma _ answers => bufferIn buffer answers.rounds numBufs.toNat
  | .unbindDma => bufferLeft s buffer numBufs.toNat
  | _ => buffer

/- Mmaps, ioctls and releases come through an open file, interrupts through a handler
that was requested. -/
def step (s : Machine) : Op → Option Machine
  | .kyouko3Open place memory head =>
      (Device.kyouko3Open s.dev place memory head).map fun dev =>
        {s with dev := dev, ram := (kReadReg s.dev.k deviceRam).toNat * (1024 * 1024)}
  | .kyouko3Mmap p vma ret =>
      if s.dev.opens ≠ 0 then
        some {s with
          dev := (Device.mmap s.dev p vma ret).2,
          dmaMmaps := s.dmaMmaps + (takesDmaBranch vma).toNat}
      else none
  | .kyouko3Ioctl p call =>
      if s.dev.opens ≠ 0 then
        (Ioctl.kyouko3Ioctl s.dev p call).map fun done => {s with
          dev := done.2,
          dmaMmaps := s.dmaMmaps + mmapsIn call,
          buffer := bufferAfter s.dev s.buffer call}
      else none
  | .flushRound => if s.dev.opens ≠ 0 then some {s with dev := {s.dev with k := refreshTail s.dev.k}} else none
  | .kyouko3Release => if s.dev.opens ≠ 0 then some {s with dev := Device.kyouko3Release s.dev} else none
  | .munmap p addr len => some {s with dev := vmMunmap s.dev p addr len}
  | .interrupt =>
      if s.dev.requested ≠ [] ∧ s.dev.fifoKBase ≠ 0 then some {s with dev := {s.dev with k := (rkintr s.dev.k).2}}
      else none
  | .register reg value => some {s with dev := {s.dev with k := kWriteReg s.dev.k reg value}}

/- The module is loaded and has probed the card: its globals are zero. -/
def initial (base : System) (control cardRam : Bar) : Machine where
  dev := {base with
    k := Kyouko.loaded base.k.control base.k.fifo.kBase,
    pControlBase := control.start,
    pCardRamBase := cardRam.start,
    fifoKBase := 0,
    dmaKBase := fun _ => 0,
    buffInfo := fun _ => 0,
    vma := none,
    index := 0,
    live := [],
    requested := [],
    opens := 0}
  ram := 0
  dmaMmaps := 0
  buffer := fun _ => none

def Indexed (s : Machine) : Prop := IndexAt s.dev s.dmaMmaps

theorem ioctlCounted {s t : System} {p : Pid} {call : Call} {ret : Int} {calls : Nat} (index : IndexAt s calls)
    (ran : Ioctl.kyouko3Ioctl s p call = some (ret, t)) : IndexAt t (calls + mmapsIn call) := by
  cases call with
  | bindDma arg answers => exact bindCounted index ran
  | unbindDma =>
    cases Option.some.inj ran
    exact (congrArg BitVec.toNat (unbindFrees s p).index).trans index
  | fifoFlush | other =>
    cases Option.some.inj ran
    exact index
  | vmode | fifoQueue | startDma =>
    simp only [Ioctl.kyouko3Ioctl] at ran
    split at ran <;> try contradiction
    cases Option.some.inj ran
    exact index

theorem mmapTaken {s t : Machine} {p : Pid} {vma : Vma} {ret : Int}
    (taken : step s (.kyouko3Mmap p vma ret) = some t) :
    t = {s with
      dev := (Device.mmap s.dev p vma ret).2,
      dmaMmaps := s.dmaMmaps + (takesDmaBranch vma).toNat} := by
  simp only [step] at taken
  split at taken <;> try contradiction
  exact (Option.some.inj taken).symm

theorem ioctlTaken {s t : Machine} {p : Pid} {call : Call}
    (taken : step s (.kyouko3Ioctl p call) = some t) :
    ∃ ret dev, Ioctl.kyouko3Ioctl s.dev p call = some (ret, dev) ∧ t = {s with
      dev := dev,
      dmaMmaps := s.dmaMmaps + mmapsIn call,
      buffer := bufferAfter s.dev s.buffer call} := by
  simp only [step] at taken
  split at taken <;> try contradiction
  obtain ⟨⟨ret, dev⟩, ran, rfl⟩ := Option.map_eq_some_iff.mp taken
  exact ⟨ret, dev, ran, rfl⟩

theorem stepIndexed {s t : Machine} {op : Op} (indexed : Indexed s) (taken : step s op = some t) :
    Indexed t := by
  cases op with
  | kyouko3Open place memory head =>
    obtain ⟨dev, opened, rfl⟩ := Option.map_eq_some_iff.mp taken
    obtain ⟨_, rfl⟩ := openExact opened
    exact indexed
  | kyouko3Mmap p vma ret =>
    obtain rfl := mmapTaken taken
    exact mmapCounted indexed p vma ret
  | kyouko3Ioctl p call =>
    obtain ⟨ret, dev, ran, rfl⟩ := ioctlTaken taken
    exact ioctlCounted indexed ran
  | flushRound | kyouko3Release | interrupt =>
    simp only [step] at taken
    split at taken <;> try contradiction
    cases Option.some.inj taken
    exact indexed
  | munmap | register =>
    cases Option.some.inj taken
    exact indexed

/- The first `START_DMA` of a ring that was just bound: the transfer of slot 0 goes
straight to the device. -/
structure RingFresh (k : Kyouko3) (cmdCount : BitVec 32) : Prop where
  direct : takesDirectPath k = true
  ret : (initiateTransfer k cmdCount).1 = 0
  written : (initiateTransfer k cmdCount).2.fifo.written = transferEntries ((k.dmabuffs 0).pBase, cmdCount)
  address : (initiateTransfer k cmdCount).2.fifo.kBase 0 = ⟨bufferAAddress, (k.dmabuffs 0).pBase.setWidth 32⟩
  config : (initiateTransfer k cmdCount).2.fifo.kBase 1 = ⟨bufferAConfig, cmdCount⟩
  kicked : kReadReg (initiateTransfer k cmdCount).2 fifoHead = 2
  notFull : (initiateTransfer k cmdCount).2.isFull = false

/- `kyouko3_open` sets fill and drain, but not the flag beside the structure. -/
theorem freshIff (k : Kyouko3) (pBase : BitVec 64) (memory : Nat → FifoEntry) (head : BitVec 32)
    (dmaBase : Nat → BitVec 64) (cmdCount : BitVec 32) :
    RingFresh (Kyouko.bindDma (Kyouko.kyouko3Open k pBase memory head) dmaBase) cmdCount ↔ k.isFull = false := by
  constructor
  · intro fresh
    have direct := fresh.direct
    simp only [takesDirectPath, Bool.and_eq_true, Bool.not_eq_true'] at direct
    exact direct.2
  · intro free
    have direct : takesDirectPath (Kyouko.bindDma (Kyouko.kyouko3Open k pBase memory head) dmaBase) = true := by
      simp only [takesDirectPath, Bool.and_eq_true, Bool.not_eq_true']
      exact ⟨rfl, free⟩
    obtain ⟨written, _, _, _, full⟩ := startDirect _ cmdCount direct
    refine ⟨direct, ?_, written, ?_, ?_, ?_, full.trans free⟩
    · rw [initiateTransfer, if_pos direct]
    · rw [initiateTransfer, if_pos direct]; rfl
    · rw [initiateTransfer, if_pos direct]; rfl
    · rw [initiateTransfer, if_pos direct]
      exact kickHead _

/- What an open that gets its ring and a bind that gets its interrupt lead to. -/
def Reopened (s : Machine) (place : Place) (memory : Nat → FifoEntry) (head : BitVec 32) (p : Pid)
    (arg : BitVec 32) (answers : BindAnswers) (t : Machine) : Prop :=
  answers.enableMsi = 0 ∧ answers.requestIrq = 0 ∧
    exec step s [.kyouko3Open (some place) memory head, .kyouko3Ioctl p (.bindDma arg answers)] = some t

/- Whatever the sessions before left, the ring starts afresh. -/
def RingReset (s : Machine) : Prop :=
  ∀ place memory head p arg answers t cmdCount,
    Reopened s place memory head p arg answers t → RingFresh t.dev.k cmdCount

/- It does exactly if they did not leave it full. -/
def RingResetUnlessFull (s : Machine) : Prop :=
  ∀ place memory head p arg answers t cmdCount,
    Reopened s place memory head p arg answers t → (RingFresh t.dev.k cmdCount ↔ s.dev.k.isFull = false)

theorem openTaken {s t : Machine} {place : Option Place} {memory : Nat → FifoEntry} {head : BitVec 32}
    (taken : step s (.kyouko3Open place memory head) = some t) :
    t.dev.k = Kyouko.kyouko3Open s.dev.k (pBaseOf place s.dev.k.fifo.pBase) memory head := by
  obtain ⟨dev, opened, rfl⟩ := Option.map_eq_some_iff.mp taken
  obtain ⟨_, rfl⟩ := openExact opened
  rfl

theorem bindTaken {s t : Machine} {p : Pid} {arg : BitVec 32} {answers : BindAnswers}
    (msi : answers.enableMsi = 0) (irq : answers.requestIrq = 0)
    (taken : step s (.kyouko3Ioctl p (.bindDma arg answers)) = some t) :
    t.dev.k = Kyouko.bindDma s.dev.k (baseAfter s.dev answers.rounds 8) := by
  obtain ⟨ret, dev, bound, rfl⟩ := ioctlTaken taken
  exact (bindDriver msi irq bound).2

theorem reopenedDriver {s t : Machine} {place : Place} {memory : Nat → FifoEntry} {head : BitVec 32} {p : Pid}
    {arg : BitVec 32} {answers : BindAnswers} (reopened : Reopened s place memory head p arg answers t) :
    ∃ base, t.dev.k = Kyouko.bindDma (Kyouko.kyouko3Open s.dev.k place.pBase memory head) base := by
  obtain ⟨msi, irq, ran⟩ := reopened
  obtain ⟨u, opened, rest⟩ := execConsSome ran
  obtain ⟨v, bound, done⟩ := execConsSome rest
  cases Option.some.inj done
  refine ⟨baseAfter u.dev answers.rounds 8, ?_⟩
  rw [bindTaken msi irq bound, openTaken opened]
  rfl

/- No state of the driver stands in the way of that. -/
theorem resetUnlessFull (s : Machine) : RingResetUnlessFull s := by
  intro place memory head p arg answers t cmdCount reopened
  obtain ⟨base, same⟩ := reopenedDriver reopened
  rw [same]
  exact freshIff ..

def coldControl : Bar := ⟨0xF0000000, by decide⟩
def coldCardRam : Bar := ⟨0xE0000000, by decide⟩
def coldPlace : Place := ⟨0x9000, 0x8000⟩
def coldMachine : Machine := initial coldSystem coldControl coldCardRam

/- The eighth transfer fills the ring, a signal ends its wait before the device completes
anything, and the file is closed. -/
def fullSession : List Op :=
  [.kyouko3Open (some coldPlace) coldMemory 0, .kyouko3Ioctl 0 (.bindDma 0x602000 answersCold)] ++
    List.replicate 8 (.kyouko3Ioctl 0 (.startDma 512)) ++ [.kyouko3Ioctl 0 .unbindDma, .kyouko3Release]

def nextSession : List Op :=
  [.kyouko3Open (some coldPlace) coldMemory 0, .kyouko3Ioctl 0 (.bindDma 0x602000 answersCold)]

end KernelLabs.Session
