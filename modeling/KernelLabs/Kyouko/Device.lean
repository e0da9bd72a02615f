import KernelLabs.Kyouko.Driver
import KernelLabs.Library.Pages

/-! The calls of the driver that allocate, map and release: open, release, mmap and the
two DMA ioctls, over the FIFO and the ring of `Driver`. What the kernel's own functions
answer is an argument, failures included; an answer they do not give makes the call refuse,
and so does an access through a null pointer, from which the call does not return. -/
namespace KernelLabs.Device
open Kyouko Buffer Pages

abbrev Pid := Nat

def pageShift : Nat := 12
def pageSize : Nat := 4096
def fifoBytes : Nat := 8192
def dmaBytes : Nat := 124 * 1024
def controlOffset : BitVec 64 := 0x0
def framebufferOffset : BitVec 64 := 0x80000000
def dmaOffset : BitVec 64 := 0x90000000

/- The part of `struct vm_area_struct` the driver reads, as the kernel builds it. -/
structure Vma where
  vmStart : BitVec 64
  vmEnd : BitVec 64
  vmPgoff : BitVec 64
  startAligned : vmStart.toNat % pageSize = 0
  endAligned : vmEnd.toNat % pageSize = 0
  nonempty : vmStart < vmEnd
  deriving DecidableEq

/- What `pci_alloc_consistent` hands out: a kernel address, a bus address, a size. -/
structure DmaMemory where
  kBase : BitVec 64
  pBase : BitVec 64
  size : Nat
  deriving DecidableEq, Repr

def Apart (a b : DmaMemory) : Prop :=
  a.pBase.toNat + a.size ≤ b.pBase.toNat ∨ b.pBase.toNat + b.size ≤ a.pBase.toNat
instance (a b : DmaMemory) : Decidable (Apart a b) := by unfold Apart; infer_instance

/- At an address, aligned to a page, and nowhere inside what is allocated. -/
def Fresh (live : List DmaMemory) (m : DmaMemory) : Prop :=
  m.kBase ≠ 0 ∧ m.pBase.toNat % pageSize = 0 ∧ ∀ other ∈ live, Apart m other
instance (live : List DmaMemory) (m : DmaMemory) : Decidable (Fresh live m) := by
  unfold Fresh; infer_instance

/- The driver, and of the kernel what its calls change: the address spaces and the words
of user memory, the consistent memory allocated, the interrupts requested and the open
files. Of `kyouko3.vma`, null at first, only `vm_start` is ever read; `index` is static in
`mmap`. -/
structure System where
  k : Kyouko3
  pControlBase : BitVec 64
  pCardRamBase : BitVec 64
  fifoKBase : BitVec 64
  dmaKBase : Nat → BitVec 64
  buffInfo : Nat → BitVec 64
  vma : Option (BitVec 64)
  index : BitVec 32
  pages : Pid → Space
  user : Pid → BitVec 64 → BitVec 64
  live : List DmaMemory
  requested : List Nat
  pdevIrq : Nat
  pinIrq : Nat
  opens : Nat

/- Where `pci_alloc_consistent` puts a buffer. -/
structure Place where
  kBase : BitVec 64
  pBase : BitVec 64
  deriving DecidableEq, Repr

def Place.memory (place : Place) (size : Nat) : DmaMemory := ⟨place.kBase, place.pBase, size⟩

/- Without memory it returns null and leaves the bus address alone. -/
def kBaseOf (place : Option Place) : BitVec 64 := place.elim 0 Place.kBase
def pBaseOf (place : Option Place) (old : BitVec 64) : BitVec 64 := place.elim old Place.pBase

def pciAllocConsistent (s : System) (place : Option Place) (size : Nat) : Option System :=
  match place with
  | none => some s
  | some place =>
      if Fresh s.live (place.memory size) then some {s with live := place.memory size :: s.live} else none

def pciFreeConsistent (s : System) (m : DmaMemory) : System := {s with live := s.live.erase m}

def fifoMemory (s : System) : DmaMemory := ⟨s.fifoKBase, s.k.fifo.pBase, fifoBytes⟩
def dmaMemory (s : System) (i : Nat) : DmaMemory := ⟨s.dmaKBase i, (s.k.dmabuffs i).pBase, dmaBytes⟩

def kyouko3Open (s : System) (place : Option Place) (memory : Nat → FifoEntry) (head : BitVec 32) :
    Option System :=
  (pciAllocConsistent s place fifoBytes).map fun s => {s with
    k := Kyouko.kyouko3Open s.k (pBaseOf place s.k.fifo.pBase) memory head,
    fifoKBase := kBaseOf place,
    opens := s.opens + 1}

def kyouko3Release (s : System) : System :=
  {pciFreeConsistent s (fifoMemory s) with opens := s.opens - 1}

/- `ret` is what the function answers; 0 is success. -/
def remapPfnRange (s : System) (p : Pid) (addr pfn size : BitVec 64) (ret : Int) : System :=
  if ret = 0 then
    let space := mapRange (s.pages p) (addr.toNat / pageSize) pfn.toNat (size.toNat / pageSize)
    {s with pages := store s.pages p space}
  else s

def takesDmaBranch (vma : Vma) : Bool :=
  vma.vmPgoff <<< pageShift != controlOffset && vma.vmPgoff <<< pageShift != framebufferOffset

/- `p` is the current process and `ret` the answer of `remap_pfn_range`. -/
def kyouko3Mmap (s : System) (p : Pid) (vma : Vma) (ret : Int) : Int × System :=
  let s := {s with vma := some vma.vmStart}
  let size := vma.vmEnd - vma.vmStart
  if vma.vmPgoff <<< pageShift = controlOffset then
    (ret, remapPfnRange s p vma.vmStart (s.pControlBase >>> pageShift) size ret)
  else if vma.vmPgoff <<< pageShift = framebufferOffset then
    (ret, remapPfnRange s p vma.vmStart (s.pCardRamBase >>> pageShift) size ret)
  else
    let s := remapPfnRange s p vma.vmStart ((s.k.dmabuffs s.index.toNat).pBase >>> pageShift) size ret
    (ret, {s with index := (s.index + 1) % numBufs})

def vmMunmap (s : System) (p : Pid) (addr : BitVec 64) (len : Nat) : System :=
  {s with pages := store s.pages p (unmapRange (s.pages p) (addr.toNat / pageSize) (len / pageSize))}

/- The system call: `MAP_FIXED` may put the new area over old ones. -/
def mmap (s : System) (p : Pid) (vma : Vma) (ret : Int) : Int × System :=
  kyouko3Mmap (vmMunmap s p vma.vmStart (vma.vmEnd - vma.vmStart).toNat) p vma ret

/- How `vm_mmap` ends: the area it made is mapped; `kyouko3_mmap` could not map it, and it is
gone again; or it got no area. `stale` is what `kyouko3.vma`, which may then point to memory
that was freed, reads as. -/
inductive Area where
  | mapped (vma : Vma)
  | refused (vma : Vma) (ret : Int) (stale : BitVec 64)
  | absent (stale : BitVec 64)

/- Called with address 0, it looks for room. -/
def Suits (s : System) (p : Pid) (len : Nat) (offset : BitVec 64) (vma : Vma) : Prop :=
  vma.vmEnd - vma.vmStart = BitVec.ofNat 64 len ∧ vma.vmPgoff <<< pageShift = offset ∧
    Unmapped (s.pages p) (vma.vmStart.toNat / pageSize) (len / pageSize)
instance (s : System) (p : Pid) (len : Nat) (offset : BitVec 64) (vma : Vma) :
    Decidable (Suits s p len offset vma) := by unfold Suits; infer_instance

def vmMmap (s : System) (p : Pid) (len : Nat) (offset : BitVec 64) : Area → Option System
  | .mapped vma => if Suits s p len offset vma then some (kyouko3Mmap s p vma 0).2 else none
  | .refused vma ret stale =>
      if Suits s p len offset vma ∧ ret ≠ 0 then some {(kyouko3Mmap s p vma ret).2 with vma := some stale}
      else none
  | .absent stale => some {s with vma := s.vma.map fun _ => stale}

/- `sizeof(dmaInfo)` is 16: a pointer, a header and padding. -/
def dmaInfoAt (array : BitVec 64) (i : Nat) : BitVec 64 := array + BitVec.ofNat 64 (16 * i)

def putUser (s : System) (p : Pid) (addr word : BitVec 64) : System :=
  {s with user := store s.user p fun x => if x = addr then word else s.user p x}

/- The kernel's answers in one round of the loop of `BIND_DMA`. -/
structure Round where
  place : Option Place
  area : Area

structure BindAnswers where
  rounds : Nat → Round
  enableMsi : Int
  vector : Nat
  requestIrq : Int

def setDmabuff (s : System) (i : Nat) (place : Option Place) : System :=
  let buff := s.k.dmabuffs i
  {s with
    dmaKBase := store s.dmaKBase i (kBaseOf place),
    k := {s.k with dmabuffs := store s.k.dmabuffs i {buff with pBase := pBaseOf place buff.pBase}}}

/- `arg` is an `unsigned int`, used as a user address. Neither answer is looked at. -/
def bindRound (p : Pid) (arg : BitVec 32) (i : Nat) (answer : Round) (s : System) : Option System :=
  (pciAllocConsistent s answer.place dmaBytes).bind fun s =>
    (vmMmap (setDmabuff s i answer.place) p dmaBytes dmaOffset answer.area).bind fun s =>
      s.vma.map fun start =>
        let s := putUser s p (dmaInfoAt (arg.setWidth 64) i) start
        {s with buffInfo := store s.buffInfo i start}

def bindLoop (p : Pid) (arg : BitVec 32) (rounds : Nat → Round) : Nat → System → Option System
  | 0, s => some s
  | n + 1, s => (bindLoop p arg rounds n s).bind (bindRound p arg n (rounds n))

def pciDisableMsi (s : System) : System := {s with pdevIrq := s.pinIrq}

def requestInterrupts (s : System) (answers : BindAnswers) : Int × System :=
  if answers.enableMsi ≠ 0 then (answers.enableMsi, s)
  else
    let s := {s with pdevIrq := answers.vector}
    if answers.requestIrq ≠ 0 then (answers.requestIrq, pciDisableMsi s)
    else (0, {s with requested := s.pdevIrq :: s.requested, k := kWriteReg s.k interruptSet 0x02})

def bindDma (s : System) (p : Pid) (arg : BitVec 32) (answers : BindAnswers) : Option (Int × System) :=
  (bindLoop p arg answers.rounds numBufs.toNat s).map fun s => requestInterrupts s answers

def unbindRound (p : Pid) (i : Nat) (s : System) : System :=
  let s := vmMunmap s p (s.buffInfo i) dmaBytes
  pciFreeConsistent s (dmaMemory s i)

def unbindLoop (p : Pid) : Nat → System → System
  | 0, s => s
  | n + 1, s => unbindRound p n (unbindLoop p n s)

def freeIrq (s : System) : System := {s with requested := s.requested.erase s.pdevIrq}

def unbindDma (s : System) (p : Pid) : System :=
  let s := unbindLoop p numBufs.toNat s
  pciDisableMsi (freeIrq {s with k := kWriteReg s.k interruptSet 0x0})

def frameOf (pBase : BitVec 64) : Nat := (pBase >>> pageShift).toNat
def pageOf (addr : BitVec 64) : Nat := addr.toNat / pageSize

/- What a successful allocation adds to the consistent memory. -/
def allocated (place : Option Place) (size : Nat) : List DmaMemory := (place.map (fun at' => at'.memory size)).toList

theorem allocExact {s t : System} {place : Option Place} {size : Nat}
    (done : pciAllocConsistent s place size = some t) :
    (∀ m ∈ allocated place size, Fresh s.live m) ∧ t = {s with live := allocated place size ++ s.live} := by
  cases place with
  | none =>
    cases Option.some.inj done
    exact ⟨fun m none => absurd none List.not_mem_nil, rfl⟩
  | some place =>
    simp only [pciAllocConsistent] at done
    split at done <;> try contradiction
    rename_i fresh
    refine ⟨fun m mem => ?_, (Option.some.inj done).symm⟩
    cases List.mem_singleton.mp mem
    exact fresh

theorem freshNotLive {live : List DmaMemory} {m : DmaMemory} (fresh : Fresh live m)
    (positive : 0 < m.size) : m ∉ live := by
  intro mem
  have apart := fresh.2.2 m mem
  unfold Apart at apart
  omega

theorem openExact {s dev : System} {place : Option Place} {memory : Nat → FifoEntry} {head : BitVec 32}
    (opened : kyouko3Open s place memory head = some dev) :
    (∀ m ∈ allocated place fifoBytes, Fresh s.live m) ∧ dev = {s with
      live := allocated place fifoBytes ++ s.live,
      k := Kyouko.kyouko3Open s.k (pBaseOf place s.k.fifo.pBase) memory head,
      fifoKBase := kBaseOf place,
      opens := s.opens + 1} := by
  obtain ⟨a, done, rfl⟩ := Option.map_eq_some_iff.mp opened
  obtain ⟨fresh, rfl⟩ := allocExact done
  exact ⟨fresh, rfl⟩

/- The DMA branch: the area is mapped to the buffer at `index`, which moves on. -/
theorem mmapDma (s : System) (p : Pid) {vma : Vma} (branch : takesDmaBranch vma = true) :
    (kyouko3Mmap s p vma 0).2 = {s with
      vma := some vma.vmStart,
      index := (s.index + 1) % numBufs,
      pages := store s.pages p (mapRange (s.pages p) (pageOf vma.vmStart)
        (frameOf (s.k.dmabuffs s.index.toNat).pBase) ((vma.vmEnd - vma.vmStart).toNat / pageSize))} := by
  simp only [takesDmaBranch, Bool.and_eq_true, bne_iff_ne] at branch
  unfold kyouko3Mmap
  dsimp only
  rw [if_neg branch.1, if_neg branch.2]
  rfl

theorem mmapDmaRefused (s : System) (p : Pid) {vma : Vma} (branch : takesDmaBranch vma = true) {ret : Int}
    (failed : ret ≠ 0) : (kyouko3Mmap s p vma ret).2 = {s with
      vma := some vma.vmStart,
      index := (s.index + 1) % numBufs} := by
  simp only [takesDmaBranch, Bool.and_eq_true, bne_iff_ne] at branch
  unfold kyouko3Mmap
  dsimp only
  rw [if_neg branch.1, if_neg branch.2]
  dsimp only [remapPfnRange]
  rw [if_neg failed]

theorem remapIndex (s : System) (p : Pid) (addr pfn size : BitVec 64) (ret : Int) :
    (remapPfnRange s p addr pfn size ret).index = s.index := by
  unfold remapPfnRange
  split <;> rfl

theorem mmapIndex (s : System) (p : Pid) (vma : Vma) (ret : Int) :
    (kyouko3Mmap s p vma ret).2.index =
      if takesDmaBranch vma then (s.index + 1) % numBufs else s.index := by
  unfold kyouko3Mmap
  dsimp only
  split
  · rename_i control
    simp [takesDmaBranch, control, remapIndex]
  · rename_i notControl
    split
    · rename_i framebuffer
      simp [takesDmaBranch, framebuffer, remapIndex]
    · rename_i notFramebuffer
      simp [takesDmaBranch, notControl, notFramebuffer, remapIndex]

/- The index counts the calls that took the branch, around the ring. -/
def IndexAt (s : System) (calls : Nat) : Prop := s.index.toNat = calls % 8

theorem indexLow {s : System} {calls : Nat} (index : IndexAt s calls) : s.index.toNat < 8 := by
  rw [index]
  exact Nat.mod_lt _ (by decide)

theorem mmapCounted {s : System} {calls : Nat} (index : IndexAt s calls) (p : Pid) (vma : Vma)
    (ret : Int) : IndexAt (mmap s p vma ret).2 (calls + (takesDmaBranch vma).toNat) := by
  simp only [IndexAt, mmap, mmapIndex]
  split
  · rename_i branch
    rw [branch]
    exact bufferSlot index
  · rename_i other
    rw [Bool.not_eq_true] at other
    rw [other]
    exact index

/- What the driver reads through `kyouko3.vma` after `vm_mmap`, and whether it was called. -/
def Area.start : Area → BitVec 64
  | .mapped vma => vma.vmStart
  | .refused _ _ stale => stale
  | .absent stale => stale

def Area.entered : Area → Bool
  | .absent _ => false
  | _ => true

def Area.made : Area → Option Vma
  | .mapped vma => some vma
  | _ => none

theorem madeMapped {area : Area} (made : area.made ≠ none) : ∃ vma, area = .mapped vma := by
  cases area with
  | mapped vma => exact ⟨vma, rfl⟩
  | refused | absent => exact absurd rfl made

def Area.mapInto (area : Area) (space : Space) (frame : Nat) : Space :=
  match area with
  | .mapped vma => mapRange space (pageOf vma.vmStart) frame 31
  | _ => space

/- What one round of the loop of `BIND_DMA` finds and leaves. -/
structure Bound (p : Pid) (arg : BitVec 32) (i : Nat) (answer : Round) (s t : System) : Prop where
  fresh : ∀ m ∈ allocated answer.place dmaBytes, Fresh s.live m
  room : ∀ vma, answer.area = .mapped vma → Suits s p dmaBytes dmaOffset vma
  k : t.k = {s.k with dmabuffs := store s.k.dmabuffs i {s.k.dmabuffs i with
    pBase := pBaseOf answer.place (s.k.dmabuffs i).pBase}}
  kBase : t.dmaKBase = store s.dmaKBase i (kBaseOf answer.place)
  fifoKBase : t.fifoKBase = s.fifoKBase
  info : t.buffInfo = store s.buffInfo i answer.area.start
  index : t.index = if answer.area.entered then (s.index + 1) % numBufs else s.index
  pages : t.pages = store s.pages p (answer.area.mapInto (s.pages p)
    (frameOf (t.k.dmabuffs s.index.toNat).pBase))
  user : t.user = store s.user p fun x =>
    if x = dmaInfoAt (arg.setWidth 64) i then answer.area.start else s.user p x
  live : t.live = allocated answer.place dmaBytes ++ s.live
  requested : t.requested = s.requested
  pdevIrq : t.pdevIrq = s.pdevIrq
  pinIrq : t.pinIrq = s.pinIrq
  opens : t.opens = s.opens
  control : t.pControlBase = s.pControlBase
  cardRam : t.pCardRamBase = s.pCardRamBase

theorem suitsBranch {s : System} {p : Pid} {vma : Vma} (suits : Suits s p dmaBytes dmaOffset vma) :
    takesDmaBranch vma = true ∧ (vma.vmEnd - vma.vmStart).toNat / pageSize = 31 := by
  refine ⟨?_, ?_⟩
  · rw [takesDmaBranch, suits.2.1]; decide
  · rw [suits.1]; decide

theorem bindRoundBound {p : Pid} {arg : BitVec 32} {i : Nat} {answer : Round} {s t : System}
    (bound : bindRound p arg i answer s = some t) : Bound p arg i answer s t := by
  obtain ⟨a, done, rest⟩ := Option.bind_eq_some_iff.mp bound
  obtain ⟨fresh, rfl⟩ := allocExact done
  obtain ⟨b, asked, last⟩ := Option.bind_eq_some_iff.mp rest
  obtain ⟨start, read, rfl⟩ := Option.map_eq_some_iff.mp last
  obtain ⟨place, area⟩ := answer
  cases area with
  | mapped vma =>
    simp only [vmMmap] at asked
    split at asked <;> try contradiction
    rename_i suits
    obtain ⟨branch, length⟩ := suitsBranch suits
    cases Option.some.inj asked
    rw [mmapDma _ p branch] at read ⊢
    cases Option.some.inj read
    rw [length]
    refine ⟨fresh, ?_, rfl, rfl, rfl, rfl, rfl, rfl, rfl, rfl, rfl, rfl, rfl, rfl, rfl, rfl⟩
    intro other same
    cases same
    exact suits
  | refused vma ret stale =>
    simp only [vmMmap] at asked
    split at asked <;> try contradiction
    rename_i failed
    obtain ⟨branch, _⟩ := suitsBranch failed.1
    cases Option.some.inj asked
    rw [mmapDmaRefused _ p branch failed.2] at read ⊢
    cases Option.some.inj read
    refine ⟨fresh, (fun _ same => nomatch same), rfl, rfl, rfl, rfl, rfl, ?_, rfl, rfl, rfl, rfl, rfl, rfl, rfl, rfl⟩
    exact (storeOld ..).symm
  | absent stale =>
    cases Option.some.inj asked
    have here : start = stale := by
      dsimp only at read
      obtain ⟨_, _, same⟩ := Option.map_eq_some_iff.mp read
      exact same.symm
    subst here
    refine ⟨fresh, (fun _ same => nomatch same), rfl, rfl, rfl, rfl, rfl, ?_, rfl, rfl, rfl, rfl, rfl, rfl, rfl, rfl⟩
    exact (storeOld ..).symm

/- What every round keeps, the loop keeps. -/
theorem bindLoopRule {p : Pid} {arg : BitVec 32} {rounds : Nat → Round} (inv : Nat → System → Prop)
    {s : System} (start : inv 0 s) {n : Nat}
    (keep : ∀ i u v, i < n → inv i u → bindRound p arg i (rounds i) u = some v → inv (i + 1) v)
    {t : System} (ran : bindLoop p arg rounds n s = some t) : inv n t := by
  induction n generalizing t with
  | zero =>
    cases Option.some.inj ran
    exact start
  | succ n ih =>
    obtain ⟨m, before, last⟩ := Option.bind_eq_some_iff.mp ran
    have earlier := ih (fun i u v inside => keep i u v (Nat.lt_succ_of_lt inside)) before
    exact keep n m t (Nat.lt_succ_self n) earlier last

/- What the loop has allocated after `n` rounds, and how often it has come to the index. -/
def Round.memory (answer : Round) : Option DmaMemory := answer.place.map fun place => place.memory dmaBytes
def roundMemory (rounds : Nat → Round) (i : Nat) : List DmaMemory := (rounds i).memory.toList

def allocatedIn (rounds : Nat → Round) : Nat → List DmaMemory
  | 0 => []
  | n + 1 => roundMemory rounds n ++ allocatedIn rounds n

def entered (rounds : Nat → Round) : Nat → Nat
  | 0 => 0
  | n + 1 => entered rounds n + (rounds n).area.entered.toNat

theorem allocatedSome {rounds : Nat → Round} {n i : Nat} (inside : i < n) {m : DmaMemory}
    (mem : m ∈ roundMemory rounds i) : m ∈ allocatedIn rounds n := by
  induction n with
  | zero => contradiction
  | succ n ih =>
    rw [allocatedIn, List.mem_append]
    rcases Nat.lt_succ_iff_lt_or_eq.mp inside with earlier | rfl
    · exact Or.inr (ih earlier)
    · exact Or.inl mem

/- Where every `vm_mmap` succeeds, it comes there once a round. -/
def AllMapped (rounds : Nat → Round) (n : Nat) : Prop := ∀ i, i < n → (rounds i).area.made ≠ none
instance (rounds : Nat → Round) (n : Nat) : Decidable (AllMapped rounds n) := by unfold AllMapped; infer_instance

theorem allMappedEntered {rounds : Nat → Round} {n : Nat} (all : AllMapped rounds n) : entered rounds n = n := by
  induction n with
  | zero => rfl
  | succ n ih =>
    have last := all n (Nat.lt_succ_self n)
    rw [entered, ih fun i inside => all i (Nat.lt_succ_of_lt inside)]
    cases area : (rounds n).area with
    | mapped => rfl
    | refused | absent =>
      rw [area] at last
      exact absurd rfl last

/- The bus address round `i` maps: that of the slot `index` stands at, which the loop may
or may not have come to by then. -/
def mappedSlot (s : System) (rounds : Nat → Round) (i : Nat) : Nat :=
  if entered rounds i = 0 then s.index.toNat else (s.index.toNat + entered rounds i) % 8

theorem mappedSlotLow {s : System} (low : s.index.toNat < 8) (rounds : Nat → Round) (i : Nat) :
    mappedSlot s rounds i = (s.index.toNat + entered rounds i) % 8 := by
  unfold mappedSlot
  split
  · rename_i none
    rw [none]
    exact (Nat.mod_eq_of_lt low).symm
  · rfl

def baseAfter (s : System) (rounds : Nat → Round) (n slot : Nat) : BitVec 64 :=
  if slot < n then pBaseOf (rounds slot).place (s.k.dmabuffs slot).pBase else (s.k.dmabuffs slot).pBase

def mappedBase (s : System) (rounds : Nat → Round) (i : Nat) : BitVec 64 :=
  baseAfter s rounds (i + 1) (mappedSlot s rounds i)

/- The loop of `BIND_DMA` after `n` rounds. -/
structure Looped (p : Pid) (arg : BitVec 32) (rounds : Nat → Round) (n : Nat) (s t : System) : Prop where
  index : t.index.toNat = mappedSlot s rounds n
  buffs : ∀ i, t.k.dmabuffs i = {s.k.dmabuffs i with pBase := baseAfter s rounds n i}
  kBases : ∀ i, t.dmaKBase i = if i < n then kBaseOf (rounds i).place else s.dmaKBase i
  fifoKBase : t.fifoKBase = s.fifoKBase
  info : ∀ i, t.buffInfo i = if i < n then (rounds i).area.start else s.buffInfo i
  user : ∀ i, i < n → t.user p (dmaInfoAt (arg.setWidth 64) i) = (rounds i).area.start
  maps : ∀ i vma, i < n → (rounds i).area = .mapped vma →
    Maps (t.pages p) (pageOf vma.vmStart) (frameOf (mappedBase s rounds i)) 31
  live : t.live = allocatedIn rounds n ++ s.live
  fresh : ∀ i, i < n → ∀ m ∈ roundMemory rounds i, Fresh (allocatedIn rounds i ++ s.live) m
  requested : t.requested = s.requested
  pdevIrq : t.pdevIrq = s.pdevIrq
  pinIrq : t.pinIrq = s.pinIrq
  opens : t.opens = s.opens
  control : t.pControlBase = s.pControlBase
  cardRam : t.pCardRamBase = s.pCardRamBase
  rest : t.k = {s.k with dmabuffs := t.k.dmabuffs}

theorem dmaInfoApart (array : BitVec 64) {i j : Nat} (apart : i ≠ j) (left : i < 8) (right : j < 8) :
    dmaInfoAt array i ≠ dmaInfoAt array j := by
  unfold dmaInfoAt
  intro same
  have offsets := congrArg BitVec.toNat same
  simp only [BitVec.toNat_add, BitVec.toNat_ofNat] at offsets
  omega

theorem baseAfterNow (s : System) (rounds : Nat → Round) (n slot : Nat) :
    baseAfter s rounds (n + 1) slot =
      if slot = n then pBaseOf (rounds n).place (s.k.dmabuffs n).pBase else baseAfter s rounds n slot := by
  unfold baseAfter
  by_cases here : slot = n
  · subst here
    rw [if_pos (Nat.lt_succ_self slot), if_pos rfl]
  · have before : slot < n + 1 ↔ slot < n := by omega
    simp only [before, if_neg here]

theorem loopedStart (p : Pid) (arg : BitVec 32) (rounds : Nat → Round) (s : System) :
    Looped p arg rounds 0 s s where
  index := rfl
  buffs := fun _ => rfl
  kBases := fun _ => rfl
  fifoKBase := rfl
  info := fun _ => rfl
  user := fun _ none => absurd none (Nat.not_lt_zero _)
  maps := fun _ _ none => absurd none (Nat.not_lt_zero _)
  live := rfl
  fresh := fun _ none => absurd none (Nat.not_lt_zero _)
  requested := rfl
  pdevIrq := rfl
  pinIrq := rfl
  opens := rfl
  control := rfl
  cardRam := rfl
  rest := rfl

theorem Looped.base {p : Pid} {arg : BitVec 32} {rounds : Nat → Round} {n : Nat} {s t : System}
    (looped : Looped p arg rounds n s t) (i : Nat) : (t.k.dmabuffs i).pBase = baseAfter s rounds n i := by
  rw [looped.buffs]

theorem roundBuffs {p : Pid} {arg : BitVec 32} {rounds : Nat → Round} {n : Nat} {s t u : System}
    (looped : Looped p arg rounds n s t) (bound : Bound p arg n (rounds n) t u) (i : Nat) :
    u.k.dmabuffs i = {s.k.dmabuffs i with pBase := baseAfter s rounds (n + 1) i} := by
  have old : baseAfter s rounds n n = (s.k.dmabuffs n).pBase := if_neg (Nat.lt_irrefl n)
  rw [bound.k, baseAfterNow]
  dsimp only
  by_cases here : i = n
  · subst here
    rw [storeSame, if_pos rfl, looped.buffs, old]
  · rw [storeOther here, if_neg here, looped.buffs]

theorem roundIndex {p : Pid} {arg : BitVec 32} {rounds : Nat → Round} {n : Nat} {s t u : System}
    (looped : Looped p arg rounds n s t) (bound : Bound p arg n (rounds n) t u) :
    u.index.toNat = mappedSlot s rounds (n + 1) := by
  have before := looped.index
  rw [bound.index]
  unfold mappedSlot at before ⊢
  rw [entered]
  cases (rounds n).area.entered with
  | false => exact before
  | true =>
    simp only [if_true, bufferNext, before, Bool.toNat_true, Nat.succ_ne_zero, if_false]
    split <;> omega

theorem loopedRound {p : Pid} {arg : BitVec 32} {rounds : Nat → Round} {n : Nat} {s t u : System}
    (few : n < 8) (looped : Looped p arg rounds n s t) (bound : Bound p arg n (rounds n) t u) :
    Looped p arg rounds (n + 1) s u where
  index := roundIndex looped bound
  buffs := roundBuffs looped bound
  kBases := by
    rw [bound.kBase]
    exact storeRound looped.kBases rfl
  fifoKBase := bound.fifoKBase.trans looped.fifoKBase
  info := by
    rw [bound.info]
    exact storeRound looped.info rfl
  user := by
    intro i inside
    rw [bound.user, storeSame]
    by_cases here : i = n
    · subst here
      rw [if_pos rfl]
    · rw [if_neg (dmaInfoApart _ here (by omega) few)]
      exact looped.user i (by omega)
  maps := by
    intro i vma inside mapped
    rw [bound.pages, storeSame]
    by_cases here : i = n
    · subst here
      have base : (u.k.dmabuffs t.index.toNat).pBase = mappedBase s rounds i := by
        rw [roundBuffs looped bound, looped.index, mappedBase]
      rw [base, mapped]
      exact mapRangeMaps _ _ _ _
    · have kept := looped.maps i vma (by omega) mapped
      cases area : (rounds n).area with
      | mapped other => exact mapsKept kept (bound.room other area).2.2
      | refused | absent => exact kept
  live := by
    rw [bound.live, looped.live, allocatedIn, List.append_assoc]; rfl
  fresh := by
    intro i inside m mem
    by_cases here : i = n
    · subst here
      rw [← looped.live]; exact bound.fresh m mem
    · exact looped.fresh i (by omega) m mem
  requested := bound.requested.trans looped.requested
  pdevIrq := bound.pdevIrq.trans looped.pdevIrq
  pinIrq := bound.pinIrq.trans looped.pinIrq
  opens := bound.opens.trans looped.opens
  control := bound.control.trans looped.control
  cardRam := bound.cardRam.trans looped.cardRam
  rest := by
    rw [bound.k, looped.rest]

theorem bindLoopLooped {p : Pid} {arg : BitVec 32} {rounds : Nat → Round} {s : System}
    {n : Nat} (few : n ≤ 8) {t : System}
    (ran : bindLoop p arg rounds n s = some t) : Looped p arg rounds n s t := by
  refine bindLoopRule (fun i u => Looped p arg rounds i s u) (loopedStart p arg rounds s) ?_ ran
  intro i u v inside looped last
  exact loopedRound (inside.trans_le few) looped (bindRoundBound last)

/- After the loop only the interrupt is left to set up. -/
structure Requested (s t : System) : Prop where
  buffers : t.k.dmabuffs = s.k.dmabuffs
  fifo : t.k.fifo = s.k.fifo
  info : t.buffInfo = s.buffInfo
  kBases : t.dmaKBase = s.dmaKBase
  fifoKBase : t.fifoKBase = s.fifoKBase
  pages : t.pages = s.pages
  user : t.user = s.user
  index : t.index = s.index
  live : t.live = s.live
  opens : t.opens = s.opens
  control : t.pControlBase = s.pControlBase
  cardRam : t.pCardRamBase = s.pCardRamBase

theorem requestExact (s : System) (answers : BindAnswers) : ∃ control irq requested,
    (requestInterrupts s answers).2 =
      {s with k := {s.k with control := control}, pdevIrq := irq, requested := requested} := by
  unfold requestInterrupts
  split
  · exact ⟨_, _, _, rfl⟩
  · dsimp only
    split
    · exact ⟨_, _, _, rfl⟩
    · exact ⟨_, _, _, rfl⟩

theorem requestRequested (s : System) (answers : BindAnswers) :
    Requested s (requestInterrupts s answers).2 := by
  obtain ⟨control, irq, requested, same⟩ := requestExact s answers
  rw [same]
  exact ⟨rfl, rfl, rfl, rfl, rfl, rfl, rfl, rfl, rfl, rfl, rfl, rfl⟩

theorem requestSucceeds (s : System) {answers : BindAnswers} (msi : answers.enableMsi = 0)
    (irq : answers.requestIrq = 0) :
    requestInterrupts s answers = (0, {s with
      pdevIrq := answers.vector,
      requested := answers.vector :: s.requested,
      k := kWriteReg s.k interruptSet 0x02}) := by
  rw [requestInterrupts, if_neg (not_not.mpr msi)]
  dsimp only
  rw [if_neg (not_not.mpr irq)]

theorem requestFails {s t : System} {answers : BindAnswers} {ret : Int}
    (failed : answers.enableMsi ≠ 0 ∨ answers.requestIrq ≠ 0)
    (requested : requestInterrupts s answers = (ret, t)) : ret ≠ 0 := by
  unfold requestInterrupts at requested
  split at requested
  · rename_i msi
    cases requested
    exact msi
  · rename_i msi
    dsimp only at requested
    rw [if_pos (failed.resolve_left msi)] at requested
    cases requested
    exact failed.resolve_left msi

theorem bindExact {s t : System} {p : Pid} {arg : BitVec 32} {answers : BindAnswers} {ret : Int}
    (bound : bindDma s p arg answers = some (ret, t)) :
    ∃ m, Looped p arg answers.rounds 8 s m ∧ requestInterrupts m answers = (ret, t) ∧ Requested m t := by
  obtain ⟨m, ran, requested⟩ := Option.map_eq_some_iff.mp bound
  have frame := requestRequested m answers
  rw [requested] at frame
  exact ⟨m, bindLoopLooped (Nat.le_refl 8) ran, requested, frame⟩

/- Seen from the FIFO and the ring alone, a bind that succeeds stores the bus addresses. -/
theorem bindDriver {s t : System} {p : Pid} {arg : BitVec 32} {answers : BindAnswers}
    (msi : answers.enableMsi = 0) (irq : answers.requestIrq = 0) {ret : Int}
    (bound : bindDma s p arg answers = some (ret, t)) :
    ret = 0 ∧ t.k = Kyouko.bindDma s.k (baseAfter s answers.rounds 8) := by
  obtain ⟨m, looped, requested, _⟩ := bindExact bound
  rw [requestSucceeds m msi irq] at requested
  cases requested
  refine ⟨rfl, ?_⟩
  have buffs : m.k.dmabuffs = fun i =>
      if i < 8 then {s.k.dmabuffs i with pBase := baseAfter s answers.rounds 8 i} else s.k.dmabuffs i := by
    funext i
    rw [looped.buffs]
    split
    · rfl
    · rename_i past
      rw [baseAfter, if_neg past]
  rw [looped.rest, buffs]
  rfl

/- A bind moves the index once for each area it gets, so once around if it gets them all. -/
theorem bindCounted {s t : System} {p : Pid} {arg : BitVec 32} {answers : BindAnswers} {ret : Int} {calls : Nat}
    (index : IndexAt s calls) (bound : bindDma s p arg answers = some (ret, t)) :
    IndexAt t (calls + entered answers.rounds 8) := by
  obtain ⟨m, looped, _, frame⟩ := bindExact bound
  rw [IndexAt, frame.index, looped.index, mappedSlotLow (indexLow index), index, Nat.mod_add_mod]

/- `UNBIND_DMA` passes the eight handles it finds to `pci_free_consistent`, whatever they are. -/
def dmaHandles (s : System) (n : Nat) : List DmaMemory := (List.range n).map (dmaMemory s)

theorem handlesSucc (s : System) (n : Nat) : dmaHandles s (n + 1) = dmaHandles s n ++ [dmaMemory s n] := by
  rw [dmaHandles, List.range_succ, List.map_append]; rfl

/- After a bind whose allocations all succeed they are what its loop allocated. -/
def AllPlaced (rounds : Nat → Round) (n : Nat) : Prop := ∀ i, i < n → (rounds i).place ≠ none
instance (rounds : Nat → Round) (n : Nat) : Decidable (AllPlaced rounds n) := by unfold AllPlaced; infer_instance

theorem loopedHandle {p : Pid} {arg : BitVec 32} {rounds : Nat → Round} {n : Nat} {s t : System}
    (looped : Looped p arg rounds n s t) {i : Nat} (inside : i < n) {place : Place}
    (placed : (rounds i).place = some place) : dmaMemory t i = place.memory dmaBytes := by
  rw [dmaMemory, looped.kBases, looped.base, baseAfter, if_pos inside, if_pos inside, placed]
  rfl

theorem allocatedPerm {rounds : Nat → Round} {memory : Nat → DmaMemory} {n : Nat}
    (each : ∀ i, i < n → roundMemory rounds i = [memory i]) :
    (allocatedIn rounds n).Perm ((List.range n).map memory) := by
  induction n with
  | zero => exact List.Perm.refl _
  | succ n ih =>
    have before := ih fun i inside => each i (Nat.lt_succ_of_lt inside)
    rw [allocatedIn, each n (Nat.lt_succ_self n), List.range_succ, List.map_append, List.singleton_append]
    exact (before.cons _).trans (List.perm_append_singleton ..).symm

theorem bindHolds {s t : System} {p : Pid} {arg : BitVec 32} {answers : BindAnswers} {ret : Int}
    (placed : AllPlaced answers.rounds 8) (bound : bindDma s p arg answers = some (ret, t)) :
    t.live.Perm (dmaHandles t 8 ++ s.live) ∧ dmaMemory t 0 ∉ s.live := by
  obtain ⟨m, looped, _, frame⟩ := bindExact bound
  have same : dmaMemory t = dmaMemory m := by
    funext i
    simp only [dmaMemory, frame.buffers, frame.kBases]
  have each : ∀ i, i < 8 → roundMemory answers.rounds i = [dmaMemory m i] := by
    intro i inside
    obtain ⟨place, there⟩ := Option.ne_none_iff_exists'.mp (placed i inside)
    rw [loopedHandle looped inside there, roundMemory, Round.memory, there]
    rfl
  refine ⟨?_, ?_⟩
  · rw [frame.live, looped.live, dmaHandles, same]
    exact (allocatedPerm each).append_right _
  · have first : dmaMemory m 0 ∈ roundMemory answers.rounds 0 := by
      rw [each 0 (by decide)]
      exact List.mem_singleton_self _
    rw [same]
    exact freshNotLive (looped.fresh 0 (by decide) _ first) (show 0 < dmaBytes by decide)

/- What it leaves of everything but the address space. -/
structure Unbinds (s t : System) (n : Nat) : Prop where
  live : ∀ rest, s.live.Perm (dmaHandles s n ++ rest) → t.live.Perm rest
  buffers : t.k.dmabuffs = s.k.dmabuffs
  fifo : t.k.fifo = s.k.fifo
  kBases : t.dmaKBase = s.dmaKBase
  fifoKBase : t.fifoKBase = s.fifoKBase
  index : t.index = s.index
  opens : t.opens = s.opens

theorem unbindLoopUnbinds (p : Pid) (s : System) (n : Nat) : Unbinds s (unbindLoop p n s) n := by
  induction n with
  | zero => exact ⟨fun _ => id, rfl, rfl, rfl, rfl, rfl, rfl⟩
  | succ n ih =>
    refine ⟨?_, ih.buffers, ih.fifo, ih.kBases, ih.fifoKBase, ih.index, ih.opens⟩
    intro rest held
    have handle : dmaMemory (unbindLoop p n s) n = dmaMemory s n := by
      simp only [dmaMemory, ih.buffers, ih.kBases]
    rw [handlesSucc, List.append_assoc] at held
    have before := ih.live _ held
    change ((unbindLoop p n s).live.erase (dmaMemory (unbindLoop p n s) n)).Perm rest
    rw [handle]
    simpa using before.erase (dmaMemory s n)

theorem unbindLoopInterrupt (p : Pid) (s : System) (n : Nat) :
    (unbindLoop p n s).pdevIrq = s.pdevIrq ∧ (unbindLoop p n s).requested = s.requested := by
  induction n with
  | zero => exact ⟨rfl, rfl⟩
  | succ n ih => exact ih

theorem unbindRequested (s : System) (p : Pid) :
    (unbindDma s p).requested = s.requested.erase s.pdevIrq := by
  obtain ⟨irq, requested⟩ := unbindLoopInterrupt p s numBufs.toNat
  change (unbindLoop p numBufs.toNat s).requested.erase (unbindLoop p numBufs.toNat s).pdevIrq = _
  rw [irq, requested]

/- Every handle the loop passes on is then still allocated. -/
theorem unbindLoopLive {s : System} {rest : List DmaMemory} {n : Nat} (p : Pid)
    (held : s.live.Perm (dmaHandles s n ++ rest)) {i : Nat} (inside : i < n) :
    dmaMemory (unbindLoop p i s) i ∈ (unbindLoop p i s).live := by
  have loop := unbindLoopUnbinds p s i
  have handle : dmaMemory (unbindLoop p i s) i = dmaMemory s i := by
    simp only [dmaMemory, loop.buffers, loop.kBases]
  obtain ⟨more, split⟩ : ∃ more, dmaHandles s n = dmaHandles s (i + 1) ++ more := by
    obtain ⟨m, rfl⟩ := Nat.exists_eq_add_of_le (show i + 1 ≤ n from inside)
    exact ⟨_, by rw [dmaHandles, List.range_add, List.map_append]; rfl⟩
  rw [split, handlesSucc, List.append_assoc, List.append_assoc] at held
  rw [handle, (loop.live _ held).mem_iff]
  exact List.mem_cons_self

theorem unbindFrees (s : System) (p : Pid) : Unbinds s (unbindDma s p) 8 := by
  have loop := unbindLoopUnbinds p s 8
  exact ⟨loop.live, loop.buffers, loop.fifo, loop.kBases, loop.fifoKBase, loop.index, loop.opens⟩

def roomAt (i : Nat) : Vma where
  vmStart := BitVec.ofNat 64 (0x20000000 + 0x20000 * (i % 8))
  vmEnd := BitVec.ofNat 64 (0x20000000 + 0x20000 * (i % 8) + dmaBytes)
  vmPgoff := 0x90000
  startAligned := by simp only [BitVec.toNat_ofNat, pageSize]; omega
  endAligned := by simp only [BitVec.toNat_ofNat, pageSize, dmaBytes]; omega
  nonempty := by
    simp only [BitVec.lt_def, BitVec.toNat_ofNat, dmaBytes]
    omega

/- Buffer `i` of 124 KiB in its own 128 KiB, the same for the place it is mapped at. -/
def answersCold : BindAnswers :=
  ⟨fun i => ⟨some ⟨BitVec.ofNat 64 (0x10000 * (i + 1)), BitVec.ofNat 64 (0x100000 + 0x20000 * (i % 8))⟩,
    .mapped (roomAt i)⟩, 0, 40, 0⟩

def coldSystem : System :=
  ⟨coldKyouko, 0xF0000000, 0xE0000000, 0x9000, fun _ => 0, fun _ => 0, none, 0, fun _ _ => none, fun _ _ => 0,
    [], [], 11, 11, 0⟩

end KernelLabs.Device
