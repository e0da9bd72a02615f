import KernelLabs.Kyouko.Device

/-! `kyouko3_ioctl`, command by command, with what the kernel answers while it runs, and
what the two commands whose kernel calls may fail leave behind when one of them does. -/
namespace KernelLabs.Ioctl
open Kyouko Buffer Pages Device

def modeSet : BitVec 32 := 0x1008
def acceleration : BitVec 32 := 0x1010
def clearBuffer : BitVec 32 := 0x3008
def flush : BitVec 32 := 0x3FFC
def clearColor : BitVec 32 := 0x5100
def frameObjects : BitVec 32 := 0x8000
def dacObjects : BitVec 32 := 0x9000

def graphicsOn : BitVec 32 := 9
def oneAsInt : BitVec 32 := 0x3F800000

def kWriteRegs (k : Kyouko3) (writes : List (BitVec 32 × BitVec 32)) : Kyouko3 :=
  writes.foldl (fun k w => kWriteReg k w.1 w.2) k

def fifoWrites (k : Kyouko3) (writes : List (BitVec 32 × BitVec 32)) : Kyouko3 :=
  writes.foldl (fun k w => fifoWrite k w.1 w.2) k

def frameMode : List (BitVec 32 × BitVec 32) :=
  [(frameObjects, 1024), (frameObjects + 0x4, 768), (frameObjects + 0x8, 1024 * 4),
    (frameObjects + 0xC, 0xf888), (frameObjects + 0x10, 0), (acceleration, 0x40000000)]

def dacMode : List (BitVec 32 × BitVec 32) :=
  [(dacObjects, 1024), (dacObjects + 0x4, 768), (dacObjects + 0x8, 0), (dacObjects + 0xC, 0),
    (dacObjects + 0x10, 0), (modeSet, 1)]

def clearScreen : List (BitVec 32 × BitVec 32) :=
  [(clearColor, 0), (clearColor + 4, 0), (clearColor + 8, 0), (clearColor + 12, oneAsInt),
    (clearBuffer, 0x03), (flush, 0x0)]

def vmode (k : Kyouko3) (arg : BitVec 32) : Kyouko3 :=
  if arg = graphicsOn then fifoWrites (kWriteRegs k (frameMode ++ dacMode)) clearScreen
  else kWriteRegs k [(acceleration, 0x80000000), (modeSet, 0)]

/- `entry` is what the local variable holds after `copy_from_user`, which left
`uncopied` bytes of it uncopied. -/
inductive Call where
  | vmode (arg : BitVec 32)
  | fifoQueue (entry : FifoEntry) (uncopied : Nat)
  | fifoFlush
  | bindDma (arg : BitVec 32) (answers : BindAnswers)
  | startDma (cmdCount : BitVec 32)
  | unbindDma
  | other

/- Up to the waits: `FIFO_FLUSH` goes on to its loop, `START_DMA` to its wait. The `ret`
that takes the answer of `copy_from_user` is declared inside its case. Where the last open got
no memory for the ring, a `FIFO_WRITE` stores through a null pointer. -/
def kyouko3Ioctl (s : System) (p : Pid) : Call → Option (Int × System)
  | .vmode arg => if arg = graphicsOn ∧ s.fifoKBase = 0 then none else some (0, {s with k := vmode s.k arg})
  | .fifoQueue entry _ =>
      if s.fifoKBase = 0 then none else some (0, {s with k := fifoWrite s.k entry.command entry.value})
  | .fifoFlush => some (0, {s with k := kickFifo s.k})
  | .bindDma arg answers => Device.bindDma s p arg answers
  | .startDma cmdCount =>
      if takesDirectPath s.k = true ∧ s.fifoKBase = 0 then none
      else some (0, {s with k := (initiateTransfer s.k cmdCount).2})
  | .unbindDma => some (0, Device.unbindDma s p)
  | .other => some (0, s)

/- A kernel call whose answer the ioctl should look at reports an error. -/
def Fails : Call → Prop
  | .fifoQueue _ uncopied => uncopied ≠ 0
  | .bindDma _ answers => answers.enableMsi ≠ 0 ∨ answers.requestIrq ≠ 0
  | _ => False

/- What a call that failed should have done: nothing but say so. -/
structure ChangesNothing (s : System) (ret : Int) (t : System) : Prop where
  error : ret ≠ 0
  ring : t.k.fifo.kBase = s.k.fifo.kBase
  head : t.k.fifo.head = s.k.fifo.head
  allocated : ∀ m, m ∈ t.live ↔ m ∈ s.live
  mapped : t.pages = s.pages
  dmabuffs : ∀ i, dmaMemory t i = dmaMemory s i ∧ t.buffInfo i = s.buffInfo i ∧
    (t.k.dmabuffs i).cmdCount = (s.k.dmabuffs i).cmdCount
  msi : t.pdevIrq = s.pdevIrq
  irq : t.requested = s.requested

theorem advanceMoves (head : BitVec 32) : advance head ≠ head := by
  unfold advance
  split
  · rintro rfl
    contradiction
  · intro same
    have nat : (head.toNat + 1) % 2 ^ 32 = head.toNat := by
      have sum := congrArg BitVec.toNat same
      exact (BitVec.toNat_add head 1).symm.trans sum
    omega

/- A command that could not be read is queued all the same. -/
theorem queueWrites {s t : System} {p : Pid} {entry : FifoEntry} {uncopied : Nat} {ret : Int}
    (queued : kyouko3Ioctl s p (.fifoQueue entry uncopied) = some (ret, t)) :
    ret = 0 ∧ t.k.fifo.written = s.k.fifo.written ++ [entry] ∧ t.k.fifo.head ≠ s.k.fifo.head := by
  simp only [kyouko3Ioctl] at queued
  split at queued <;> try contradiction
  cases Option.some.inj queued
  exact ⟨rfl, rfl, advanceMoves _⟩

/- What was mapped before stays mapped to the same, an area is new, and without one nothing is
added. -/
structure PagesKept (p : Pid) (rounds : Nat → Round) (n : Nat) (s t : System) : Prop where
  kept : ∀ page frame, s.pages p page = some frame → t.pages p page = some frame
  new : ∀ i, i < n → ∀ vma, (rounds i).area = .mapped vma → s.pages p (pageOf vma.vmStart) = none
  same : (∀ i, i < n → ∀ vma, (rounds i).area ≠ .mapped vma) → t.pages = s.pages

theorem roundPages {p : Pid} {arg : BitVec 32} {rounds : Nat → Round} {n : Nat} {s t u : System}
    (pages : PagesKept p rounds n s t) (bound : Bound p arg n (rounds n) t u) : PagesKept p rounds (n + 1) s u := by
  have earlier : ∀ i, i < n + 1 → i ≠ n → i < n := by omega
  cases area : (rounds n).area with
  | mapped vma =>
    have room := (bound.room vma area).2.2
    have free : t.pages p (pageOf vma.vmStart) = none := room 0 (by decide)
    refine ⟨?_, ?_, fun noArea => absurd area (noArea n (Nat.lt_succ_self n) vma)⟩
    · intro page frame before
      have old := pages.kept page frame before
      rw [bound.pages, storeSame, area, Area.mapInto, mapRangeOther]
      · exact old
      · rintro ⟨low, high⟩
        have unmapped := room (page - pageOf vma.vmStart) (show page - pageOf vma.vmStart < 31 by omega)
        change t.pages p (pageOf vma.vmStart + (page - pageOf vma.vmStart)) = none at unmapped
        rw [Nat.add_sub_cancel' low, old] at unmapped
        contradiction
    · intro i inside other mapped
      by_cases here : i = n
      · subst here
        cases area.symm.trans mapped
        cases before : s.pages p (pageOf vma.vmStart) with
        | none => rfl
        | some frame => exact absurd ((pages.kept _ frame before).symm.trans free) (Option.some_ne_none frame)
      · exact pages.new i (earlier i inside here) other mapped
  | refused | absent =>
    have unchanged : u.pages = t.pages := by
      rw [bound.pages, area]
      exact storeOld ..
    refine ⟨fun page frame before => ?_, ?_, fun noArea => ?_⟩
    · rw [unchanged]
      exact pages.kept page frame before
    · intro i inside other mapped
      by_cases here : i = n
      · subst here
        exact nomatch area.symm.trans mapped
      · exact pages.new i (earlier i inside here) other mapped
    · rw [unchanged]
      exact pages.same fun i inside => noArea i (Nat.lt_succ_of_lt inside)

theorem bindLoopPages {p : Pid} {arg : BitVec 32} {rounds : Nat → Round} {n : Nat} {s t : System}
    (ran : bindLoop p arg rounds n s = some t) : PagesKept p rounds n s t := by
  refine bindLoopRule (fun i u => PagesKept p rounds i s u)
    ⟨fun _ _ same => same, fun _ none => absurd none (Nat.not_lt_zero _), fun _ => rfl⟩ ?_ ran
  intro i u v _ pages last
  exact roundPages pages (bindRoundBound last)

/- Refused either interrupt, a bind goes back to the pin, where it may not have been before. -/
theorem requestRefused {s t : System} {answers : BindAnswers} {ret : Int}
    (failed : answers.enableMsi ≠ 0 ∨ answers.requestIrq ≠ 0)
    (requested : requestInterrupts s answers = (ret, t)) :
    ret ≠ 0 ∧ t.requested = s.requested ∧
      t.pdevIrq = if answers.enableMsi = 0 then s.pinIrq else s.pdevIrq := by
  unfold requestInterrupts at requested
  split at requested
  · rename_i msi
    cases requested
    exact ⟨msi, rfl, (if_neg msi).symm⟩
  · rename_i msi
    have irq : answers.requestIrq ≠ 0 := failed.resolve_left msi
    dsimp only at requested
    rw [if_pos irq] at requested
    cases requested
    exact ⟨irq, rfl, (if_pos (not_not.mp msi)).symm⟩

/- A bind that got nothing in its loop, where there was nothing to lose: no buffer and no area,
`k_base` null already, the addresses read the ones recorded, and MSI not switched off. -/
structure GotNothing (s : System) (answers : BindAnswers) : Prop where
  memory : ∀ i, i < 8 → (answers.rounds i).place = none
  area : ∀ i, i < 8 → ∀ vma, (answers.rounds i).area ≠ .mapped vma
  null : ∀ i, i < 8 → s.dmaKBase i = 0
  recorded : ∀ i, i < 8 → (answers.rounds i).area.start = s.buffInfo i
  msi : answers.enableMsi = 0 → s.pdevIrq = s.pinIrq

def Harmless (s : System) : Call → Prop
  | .bindDma _ answers => GotNothing s answers
  | _ => False

theorem allocatedNone {rounds : Nat → Round} {n : Nat} (none : ∀ i, i < n → (rounds i).place = none) :
    allocatedIn rounds n = [] := by
  induction n with
  | zero => rfl
  | succ n ih =>
    rw [allocatedIn, ih fun i inside => none i (Nat.lt_succ_of_lt inside), roundMemory, Round.memory,
      none n (Nat.lt_succ_self n)]
    rfl

section Failed
variable {s m t : System} {p : Pid} {arg : BitVec 32} {answers : BindAnswers} {ret : Int}

theorem nothingUnchanged (ran : bindLoop p arg answers.rounds 8 s = some m)
    (looped : Looped p arg answers.rounds 8 s m) (frame : Requested m t)
    (failed : answers.enableMsi ≠ 0 ∨ answers.requestIrq ≠ 0) (requested : requestInterrupts m answers = (ret, t))
    (nothing : GotNothing s answers) : ChangesNothing s ret t := by
  obtain ⟨error, irq, msi⟩ := requestRefused failed requested
  have fifo : m.k.fifo = s.k.fifo := by rw [looped.rest]
  have bases : ∀ i, baseAfter s answers.rounds 8 i = (s.k.dmabuffs i).pBase := by
    intro i
    unfold baseAfter
    split
    · rename_i inside
      rw [nothing.memory i inside]
      rfl
    · rfl
  have live : t.live = s.live := by
    rw [frame.live, looped.live, allocatedNone nothing.memory]
    rfl
  refine ⟨error, by rw [frame.fifo, fifo], by rw [frame.fifo, fifo], fun _ => by rw [live], ?_, ?_, ?_,
    irq.trans looped.requested⟩
  · rw [frame.pages]
    exact (bindLoopPages ran).same nothing.area
  · intro i
    refine ⟨?_, ?_, ?_⟩
    · rw [dmaMemory, dmaMemory, frame.buffers, frame.kBases, looped.base, looped.kBases, bases]
      split
      · rename_i inside
        rw [nothing.memory i inside, nothing.null i inside]
        rfl
      · rfl
    · rw [frame.info, looped.info]
      split
      · rename_i inside
        exact nothing.recorded i inside
      · rfl
    · rw [frame.buffers, looped.buffs]
  · rw [msi, looped.pinIrq, looped.pdevIrq]
    split
    · rename_i enabled
      exact (nothing.msi enabled).symm
    · rfl

theorem unchangedNothing (ran : bindLoop p arg answers.rounds 8 s = some m)
    (looped : Looped p arg answers.rounds 8 s m) (frame : Requested m t)
    (failed : answers.enableMsi ≠ 0 ∨ answers.requestIrq ≠ 0) (requested : requestInterrupts m answers = (ret, t))
    (unchanged : ChangesNothing s ret t) : GotNothing s answers := by
  obtain ⟨_, _, msi⟩ := requestRefused failed requested
  have memory : ∀ i, i < 8 → (answers.rounds i).place = none := by
    intro i inside
    cases place : (answers.rounds i).place with
    | none => rfl
    | some at' =>
      have mem : at'.memory dmaBytes ∈ roundMemory answers.rounds i := by
        rw [roundMemory, Round.memory, place]
        exact List.mem_singleton_self _
      have fresh := freshNotLive (looped.fresh i inside _ mem) (show 0 < dmaBytes by decide)
      have kept : at'.memory dmaBytes ∈ t.live := by
        rw [frame.live, looped.live]
        exact List.mem_append_left _ (allocatedSome inside mem)
      exact absurd (List.mem_append_right _ ((unchanged.allocated _).mp kept)) fresh
  refine ⟨memory, ?_, ?_, ?_, ?_⟩
  · intro i inside vma mapped
    have there := looped.maps i vma inside mapped 0 (by decide)
    have before := (bindLoopPages ran).new i inside vma mapped
    rw [← frame.pages, unchanged.mapped] at there
    exact absurd (there.symm.trans before) (Option.some_ne_none _)
  · intro i inside
    have handle := congrArg DmaMemory.kBase (unchanged.dmabuffs i).1
    rw [dmaMemory, dmaMemory, frame.kBases, looped.kBases, if_pos inside, memory i inside] at handle
    exact handle.symm
  · intro i inside
    have info := (unchanged.dmabuffs i).2.1
    rw [frame.info, looped.info, if_pos inside] at info
    exact info
  · intro enabled
    have same := unchanged.msi
    rw [msi, if_pos enabled, looped.pinIrq] at same
    exact same.symm

end Failed

/- Neither memory nor an area is to be had, nor an interrupt. -/
def emptyAnswers : BindAnswers := ⟨fun _ => ⟨none, .absent 0⟩, -12, 0, 0⟩
def emptyBind : Call := .bindDma 0x602000 emptyAnswers

def opened : System := {coldSystem with vma := some 0x20000000}

/- The interrupt line is taken: `request_irq` answers -EBUSY. -/
def busyAnswers : BindAnswers := {answersCold with requestIrq := -16}
def busyBind : Call := .bindDma 0x602000 busyAnswers

end KernelLabs.Ioctl
