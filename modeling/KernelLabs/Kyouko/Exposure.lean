import Mathlib.Data.List.Pairwise
import KernelLabs.Kyouko.Session

/-! What memory an mmap of the card can reach. The function checks neither the length it
is asked for nor, in the branch of the DMA buffers, that there is a buffer at all. -/
namespace KernelLabs.Exposure
open Kyouko Buffer Pages Device Ioctl Session Runs

def controlBytes : Nat := 65536

def areaBytes (vma : Vma) : Nat := (vma.vmEnd - vma.vmStart).toNat
def areaPages (vma : Vma) : Nat := areaBytes vma / pageSize

/- The memory the offset of an area selects: for the buffers, any one of them that is
allocated. -/
def Selects (s : Machine) (vma : Vma) (w : Window) : Prop :=
  if vma.vmPgoff <<< pageShift = controlOffset then w = ⟨s.dev.pControlBase.toNat, controlBytes⟩
  else if vma.vmPgoff <<< pageShift = framebufferOffset then w = ⟨s.dev.pCardRamBase.toNat, s.ram⟩
  else ∃ m ∈ s.dev.live, m.size = dmaBytes ∧ w = ⟨m.pBase.toNat, dmaBytes⟩

def MapsInside (s : Machine) (p : Pid) (vma : Vma) : Prop :=
  Unmapped (s.dev.pages p) (pageOf vma.vmStart) (areaPages vma) ∨
    ∃ w, Selects s vma w ∧
      MapsInto (s.dev.pages p) (pageOf vma.vmStart) (areaPages vma) (w.Holds pageSize)

/- Of an ioctl these are the areas that the loop of `BIND_DMA` has mapped, one a round. -/
def DeviceOnly (s : Machine) (op : Op) (t : Machine) : Prop :=
  match op with
  | .kyouko3Mmap p vma _ => MapsInside t p vma
  | .kyouko3Ioctl p (.bindDma arg answers) =>
      ∀ i dev vma, i < 8 → bindLoop p arg answers.rounds (i + 1) s.dev = some dev →
        (answers.rounds i).area = .mapped vma → MapsInside {s with dev := dev} p vma
  | _ => True

/- A slot that has a buffer maps as much as that is long. An address left from a buffer freed
since is mapped as well, and may by now lie in another one. -/
def Covered (live : List DmaMemory) (buffer : Option DmaMemory) (base : BitVec 64) (bytes : Nat) : Prop :=
  match buffer with
  | some _ => bytes ≤ dmaBytes
  | none => ∃ m ∈ live, m.size = dmaBytes ∧ m.pBase.toNat ≤ base.toNat ∧
      base.toNat + bytes ≤ m.pBase.toNat + dmaBytes

def Fits (s : Machine) (vma : Vma) : Prop :=
  if vma.vmPgoff <<< pageShift = controlOffset then areaBytes vma ≤ controlBytes
  else if vma.vmPgoff <<< pageShift = framebufferOffset then areaBytes vma ≤ s.ram
  else Covered s.dev.live (s.buffer s.dev.index.toNat) (s.dev.k.dmabuffs s.dev.index.toNat).pBase (areaBytes vma)

/- The area is no longer than the memory selected. A round of a bind maps the slot that the
index has come to, whether or not the bind has filled it by then. -/
def Fitting (s : Machine) (op : Op) (_ : Machine) : Prop :=
  match op with
  | .kyouko3Mmap _ vma ret => ret = 0 → Fits s vma
  | .kyouko3Ioctl _ (.bindDma _ answers) =>
      ∀ i, i < 8 → (answers.rounds i).area.made ≠ none →
        Covered (allocatedIn answers.rounds (i + 1) ++ s.dev.live)
          (bufferIn s.buffer answers.rounds (i + 1) (mappedSlot s.dev answers.rounds i))
          (mappedBase s.dev answers.rounds i) dmaBytes
  | _ => True

/- Allocations lie apart, each at an address and at the start of a page. -/
structure Laid (live : List DmaMemory) : Prop where
  apart : live.Pairwise Apart
  aligned : ∀ m ∈ live, m.pBase.toNat % pageSize = 0
  address : ∀ m ∈ live, m.kBase ≠ 0
  positive : ∀ m ∈ live, 0 < m.size

theorem Laid.nodup {live : List DmaMemory} (laid : Laid live) : live.Nodup := by
  refine laid.apart.imp_of_mem ?_
  intro m n left _ apart same
  subst same
  have positive := laid.positive m left
  unfold Apart at apart
  omega

theorem allocatedLaid {live : List DmaMemory} {place : Option Place} {size : Nat} (positive : 0 < size)
    (laid : Laid live) (fresh : ∀ m ∈ allocated place size, Fresh live m) :
    Laid (allocated place size ++ live) := by
  cases place with
  | none => exact laid
  | some place =>
    have new := fresh _ (List.mem_singleton_self _)
    refine ⟨List.pairwise_cons.mpr ⟨new.2.2, laid.apart⟩, ?_, ?_, ?_⟩
    · exact List.forall_mem_cons.mpr ⟨new.2.1, laid.aligned⟩
    · exact List.forall_mem_cons.mpr ⟨new.1, laid.address⟩
    · exact List.forall_mem_cons.mpr ⟨positive, laid.positive⟩

theorem fewerLaid {live fewer : List DmaMemory} (laid : Laid live) (sub : fewer.Sublist live) :
    Laid fewer where
  apart := laid.apart.sublist sub
  aligned := fun m mem => laid.aligned m (sub.subset mem)
  address := fun m mem => laid.address m (sub.subset mem)
  positive := fun m mem => laid.positive m (sub.subset mem)

/- What slot `i` holds: an allocated buffer, which its handle names as long as the handle
has a kernel address. -/
structure Holds (s : System) (i : Nat) (m : DmaMemory) : Prop where
  live : m ∈ s.live
  size : m.size = dmaBytes
  base : m.pBase = (dmaMemory s i).pBase
  handle : (dmaMemory s i).kBase = 0 ∨ m = dmaMemory s i

/- No buffer is held by two slots, and the handle of a slot without one frees nothing. -/
structure Slots (s : System) (buffer : Nat → Option DmaMemory) : Prop where
  holds : ∀ i m, i < 8 → buffer i = some m → Holds s i m
  distinct : ∀ i j m, i < 8 → j < 8 → buffer i = some m → buffer j = some m → i = j
  spent : ∀ i, i < 8 → buffer i = none → (dmaMemory s i).kBase = 0 ∨ dmaMemory s i ∉ s.live
  bases : ∀ i, (dmaMemory s i).pBase.toNat % pageSize = 0

structure Owned (s : Machine) : Prop where
  indexed : Indexed s
  control : s.dev.pControlBase.toNat % pageSize = 0
  cardRam : s.dev.pCardRamBase.toNat % pageSize = 0
  ram : s.ram % pageSize = 0
  laid : Laid s.dev.live
  slots : Slots s.dev s.buffer

/- A call that neither allocates nor frees, and moves none of the handles. -/
structure SameMemory (s t : System) : Prop where
  live : t.live = s.live
  handles : dmaMemory t = dmaMemory s
  control : t.pControlBase = s.pControlBase
  cardRam : t.pCardRamBase = s.pCardRamBase

theorem sameSlots {s t : System} {buffer : Nat → Option DmaMemory} (slots : Slots s buffer)
    (live : t.live = s.live) (handles : dmaMemory t = dmaMemory s) : Slots t buffer where
  holds := by
    intro i m low held
    have before := slots.holds i m low held
    exact ⟨live ▸ before.live, before.size, handles ▸ before.base, handles ▸ before.handle⟩
  distinct := slots.distinct
  spent := by
    rw [handles, live]
    exact slots.spent
  bases := handles ▸ slots.bases

theorem ownedKept {s t : Machine} (owned : Owned s) (same : SameMemory s.dev t.dev)
    (ram : t.ram = s.ram) (buffer : t.buffer = s.buffer) (indexed : Indexed t) : Owned t where
  indexed := indexed
  control := same.control ▸ owned.control
  cardRam := same.cardRam ▸ owned.cardRam
  ram := ram ▸ owned.ram
  laid := same.live ▸ owned.laid
  slots := buffer ▸ sameSlots owned.slots same.live same.handles

/- The base whose frames an mmap maps. -/
def mmapBase (s : System) (vma : Vma) : BitVec 64 :=
  if vma.vmPgoff <<< pageShift = controlOffset then s.pControlBase
  else if vma.vmPgoff <<< pageShift = framebufferOffset then s.pCardRamBase
  else (s.k.dmabuffs s.index.toNat).pBase

/- The system call first takes the old mappings of the area away. -/
def mmapSpace (s : System) (p : Pid) (vma : Vma) (ret : Int) : Space :=
  let space := unmapRange (s.pages p) (pageOf vma.vmStart) (areaPages vma)
  if ret = 0 then mapRange space (pageOf vma.vmStart) (frameOf (mmapBase s vma)) (areaPages vma) else space

theorem mmapExact (s : System) (p : Pid) (vma : Vma) (ret : Int) :
    SameMemory s (Device.mmap s p vma ret).2 ∧
      (Device.mmap s p vma ret).2.pages p = mmapSpace s p vma ret := by
  unfold Device.mmap kyouko3Mmap mmapSpace mmapBase remapPfnRange vmMunmap
  dsimp only
  split
  · split
    · exact ⟨⟨rfl, rfl, rfl, rfl⟩, by simp [pageOf, areaPages, areaBytes, frameOf]⟩
    · exact ⟨⟨rfl, rfl, rfl, rfl⟩, by simp [pageOf, areaPages, areaBytes]⟩
  · split
    · split
      · exact ⟨⟨rfl, rfl, rfl, rfl⟩, by simp [pageOf, areaPages, areaBytes, frameOf]⟩
      · exact ⟨⟨rfl, rfl, rfl, rfl⟩, by simp [pageOf, areaPages, areaBytes]⟩
    · split
      · exact ⟨⟨rfl, rfl, rfl, rfl⟩, by simp [pageOf, areaPages, areaBytes, frameOf]⟩
      · exact ⟨⟨rfl, rfl, rfl, rfl⟩, by simp [pageOf, areaPages, areaBytes]⟩

theorem sameBuffers {s : System} {k : Kyouko3} (bases : ∀ i, (k.dmabuffs i).pBase = (s.k.dmabuffs i).pBase) :
    SameMemory s {s with k := k} :=
  ⟨rfl, funext fun i => by simp only [dmaMemory, bases], rfl, rfl⟩

theorem kWriteRegsBuffers (k : Kyouko3) (writes : List (BitVec 32 × BitVec 32)) :
    (kWriteRegs k writes).dmabuffs = k.dmabuffs := by
  induction writes generalizing k with
  | nil => rfl
  | cons w writes ih => exact ih _

theorem fifoWritesBuffers (k : Kyouko3) (writes : List (BitVec 32 × BitVec 32)) :
    (fifoWrites k writes).dmabuffs = k.dmabuffs := by
  induction writes generalizing k with
  | nil => rfl
  | cons w writes ih => exact ih _

theorem vmodeBuffers (k : Kyouko3) (arg : BitVec 32) : (vmode k arg).dmabuffs = k.dmabuffs := by
  unfold vmode
  split
  · rw [fifoWritesBuffers, kWriteRegsBuffers]
  · rw [kWriteRegsBuffers]

theorem transferBases (k : Kyouko3) (cmdCount : BitVec 32) (i : Nat) :
    ((initiateTransfer k cmdCount).2.dmabuffs i).pBase = (k.dmabuffs i).pBase := by
  cases direct : takesDirectPath k with
  | true => rw [(startDirect k cmdCount direct).2.1]
  | false =>
    have slot := congrArg Prod.fst ((startQueued k cmdCount direct).2.1 i)
    refine Eq.trans slot ?_
    unfold store
    split
    · rename_i here
      rw [here]
    · rfl

theorem interruptBuffers (k : Kyouko3) : (rkintr k).2.dmabuffs = k.dmabuffs := by
  have same : kWriteReg k interruptStatus (kReadReg k interruptStatus) = k := by
    rw [kWriteReg, kReadReg, storeOld]
  exact (interruptIssues k (kReadReg k interruptStatus) _ (by rw [same])).2.1

/- What a slot holds in the loop of `BIND_DMA`: the buffer its round was given, or the one
it held before. -/
theorem bufferInCases {buffer : Nat → Option DmaMemory} {rounds : Nat → Round} {n i : Nat} {m : DmaMemory}
    (held : bufferIn buffer rounds n i = some m) :
    (i < n ∧ (rounds i).memory = some m) ∨ (buffer i = some m ∧ (i < n → (rounds i).place = none)) := by
  unfold bufferIn at held
  split at held
  · rename_i inside
    cases place : (rounds i).place with
    | none =>
      rw [Round.memory, place] at held
      exact Or.inr ⟨held, fun _ => rfl⟩
    | some place' =>
      refine Or.inl ⟨inside, ?_⟩
      rw [Round.memory, place] at held ⊢
      exact held
  · rename_i past
    exact Or.inr ⟨held, fun inside => absurd inside past⟩

theorem memoryMem {rounds : Nat → Round} {i : Nat} {m : DmaMemory} (given : (rounds i).memory = some m) :
    m ∈ roundMemory rounds i := by
  rw [roundMemory, given]
  exact List.mem_singleton_self m

theorem loopedHolds {p : Pid} {arg : BitVec 32} {rounds : Nat → Round} {n : Nat} {s t : System}
    {buffer : Nat → Option DmaMemory} (slots : Slots s buffer) (looped : Looped p arg rounds n s t)
    {i : Nat} {m : DmaMemory} (low : i < 8) (held : bufferIn buffer rounds n i = some m) : Holds t i m := by
  rcases bufferInCases held with ⟨inside, given⟩ | ⟨old, failed⟩
  · obtain ⟨place, placed, rfl⟩ := Option.map_eq_some_iff.mp given
    have handle := loopedHandle looped inside placed
    refine ⟨?_, rfl, ?_, Or.inr handle.symm⟩
    · rw [looped.live]
      exact List.mem_append_left _ (allocatedSome inside (memoryMem given))
    · rw [handle]
  · have before := slots.holds i m low old
    have base : (dmaMemory t i).pBase = (dmaMemory s i).pBase := by
      change (t.k.dmabuffs i).pBase = (s.k.dmabuffs i).pBase
      rw [looped.base, baseAfter]
      split
      · rename_i inside
        rw [failed inside]; rfl
      · rfl
    refine ⟨?_, before.size, before.base.trans base.symm, ?_⟩
    · rw [looped.live]
      exact List.mem_append_right _ before.live
    · by_cases inside : i < n
      · refine Or.inl ?_
        change t.dmaKBase i = 0
        rw [looped.kBases, if_pos inside, failed inside]; rfl
      · have same : dmaMemory t i = dmaMemory s i := by
          rw [dmaMemory, dmaMemory, looped.kBases, looped.base, baseAfter, if_neg inside, if_neg inside]
        rw [same]
        exact before.handle

/- A new buffer is none of those allocated before. -/
theorem givenNew {p : Pid} {arg : BitVec 32} {rounds : Nat → Round} {n : Nat} {s t : System}
    (looped : Looped p arg rounds n s t) {i : Nat} {m : DmaMemory} (inside : i < n)
    (given : (rounds i).memory = some m) : m ∉ allocatedIn rounds i ++ s.live := by
  have fresh := looped.fresh i inside m (memoryMem given)
  obtain ⟨place, _, rfl⟩ := Option.map_eq_some_iff.mp given
  exact freshNotLive fresh (show 0 < dmaBytes by decide)

theorem givenOnce {p : Pid} {arg : BitVec 32} {rounds : Nat → Round} {n : Nat} {s t : System}
    (looped : Looped p arg rounds n s t) {i j : Nat} {m : DmaMemory} (inside : j < n) (before : i < j)
    (given : (rounds i).memory = some m) : (rounds j).memory ≠ some m := by
  intro again
  exact givenNew looped inside again (List.mem_append_left _ (allocatedSome before (memoryMem given)))

theorem loopedDistinct {p : Pid} {arg : BitVec 32} {rounds : Nat → Round} {n : Nat} {s t : System}
    {buffer : Nat → Option DmaMemory} (slots : Slots s buffer) (looped : Looped p arg rounds n s t)
    {i j : Nat} {m : DmaMemory} (low : i < 8) (low' : j < 8) (held : bufferIn buffer rounds n i = some m)
    (held' : bufferIn buffer rounds n j = some m) : i = j := by
  rcases bufferInCases held with ⟨inside, given⟩ | ⟨old, _⟩
  · rcases bufferInCases held' with ⟨inside', given'⟩ | ⟨old', _⟩
    · rcases Nat.lt_trichotomy i j with before | same | after
      · exact absurd given' (givenOnce looped inside' before given)
      · exact same
      · exact absurd given (givenOnce looped inside after given')
    · exact absurd (List.mem_append_right _ (slots.holds j m low' old').live) (givenNew looped inside given)
  · rcases bufferInCases held' with ⟨inside', given'⟩ | ⟨old', _⟩
    · exact absurd (List.mem_append_right _ (slots.holds i m low old).live) (givenNew looped inside' given')
    · exact slots.distinct i j m low low' old old'

theorem loopedLaid {p : Pid} {arg : BitVec 32} {rounds : Nat → Round} {n : Nat} {s t : System}
    (laid : Laid s.live) (looped : Looped p arg rounds n s t) : Laid t.live := by
  have upTo : ∀ j, j ≤ n → Laid (allocatedIn rounds j ++ s.live) := by
    intro j
    induction j with
    | zero => exact fun _ => laid
    | succ j ih =>
      intro inside
      rw [allocatedIn, List.append_assoc]
      exact allocatedLaid (show 0 < dmaBytes by decide) (ih (Nat.le_of_succ_le inside)) (looped.fresh j inside)
  rw [looped.live]
  exact upTo n (Nat.le_refl n)

theorem loopedBases {p : Pid} {arg : BitVec 32} {rounds : Nat → Round} {n : Nat} {s t : System}
    {buffer : Nat → Option DmaMemory} (slots : Slots s buffer) (looped : Looped p arg rounds n s t) (i : Nat) :
    (dmaMemory t i).pBase.toNat % pageSize = 0 := by
  change (t.k.dmabuffs i).pBase.toNat % pageSize = 0
  rw [looped.base, baseAfter]
  split
  · rename_i inside
    cases place : (rounds i).place with
    | none => exact slots.bases i
    | some place' =>
      refine (looped.fresh i inside (place'.memory dmaBytes) (memoryMem ?_)).2.1
      rw [Round.memory, place]; rfl
  · exact slots.bases i

/- After all eight rounds a slot without a buffer is one whose last allocation failed. -/
theorem bindSlots {s t : System} {p : Pid} {arg : BitVec 32} {answers : BindAnswers} {ret : Int}
    {buffer : Nat → Option DmaMemory} (slots : Slots s buffer)
    (bound : Device.bindDma s p arg answers = some (ret, t)) : Slots t (bufferIn buffer answers.rounds 8) := by
  obtain ⟨m, looped, _, frame⟩ := bindExact bound
  have handles : dmaMemory t = dmaMemory m := by
    funext i
    simp only [dmaMemory, frame.buffers, frame.kBases]
  refine sameSlots (s := m) ⟨?_, ?_, ?_, loopedBases slots looped⟩ frame.live handles
  · exact fun i n low held => loopedHolds slots looped low held
  · exact fun i j n low low' held held' => loopedDistinct slots looped low low' held held'
  · intro i low none
    refine Or.inl ?_
    change m.dmaKBase i = 0
    rw [looped.kBases, if_pos low]
    unfold bufferIn at none
    rw [if_pos low] at none
    have failed := (Option.or_eq_none_iff.mp none).1
    rw [Option.map_eq_none_iff.mp failed]; rfl

theorem bindOwned {s : Machine} {p : Pid} {arg : BitVec 32} {answers : BindAnswers} {ret : Int}
    {dev : System} (owned : Owned s) (bound : Device.bindDma s.dev p arg answers = some (ret, dev)) :
    Owned {s with
      dev := dev,
      dmaMmaps := s.dmaMmaps + entered answers.rounds 8,
      buffer := bufferIn s.buffer answers.rounds 8} := by
  obtain ⟨m, looped, _, frame⟩ := bindExact bound
  refine ⟨bindCounted owned.indexed bound, ?_, ?_, owned.ram, ?_, bindSlots owned.slots bound⟩
  · change dev.pControlBase.toNat % pageSize = 0
    rw [frame.control, looped.control]; exact owned.control
  · change dev.pCardRamBase.toNat % pageSize = 0
    rw [frame.cardRam, looped.cardRam]; exact owned.cardRam
  · exact frame.live ▸ loopedLaid owned.laid looped

/- Round `n` of an unbind frees what the handle of slot `n` names, if anything. -/
theorem unbindRoundSlots {s : System} {buffer : Nat → Option DmaMemory} (p : Pid) {n : Nat} (few : n < 8)
    (laid : Laid s.live) (slots : Slots s buffer) :
    Slots (unbindRound p n s) fun i => if i = n ∧ s.dmaKBase i ≠ 0 then none else buffer i := by
  have live : (unbindRound p n s).live = s.live.erase (dmaMemory s n) := rfl
  have handles : dmaMemory (unbindRound p n s) = dmaMemory s := rfl
  refine ⟨?_, ?_, ?_, slots.bases⟩
  · intro i m low held
    split at held <;> try contradiction
    rename_i kept
    have before := slots.holds i m low held
    refine ⟨?_, before.size, before.base, before.handle⟩
    rw [live, List.mem_erase_of_ne]
    · exact before.live
    · -- The buffer is that of slot `n` only if `i` is `n`, whose handle then has an address.
      intro same
      have address : s.dmaKBase n ≠ 0 := by
        have nonzero := laid.address m before.live
        rw [same] at nonzero
        exact nonzero
      cases buffer' : buffer n with
      | none =>
        rcases slots.spent n few buffer' with zero | gone
        · exact address zero
        · exact gone (same ▸ before.live)
      | some other =>
        have named := (slots.holds n other few buffer').handle.resolve_left address
        rw [← same] at named
        have here := slots.distinct i n m low few held (named ▸ buffer')
        exact kept ⟨here, here ▸ address⟩
  · intro i j m low low' held held'
    split at held <;> try contradiction
    split at held' <;> try contradiction
    exact slots.distinct i j m low low' held held'
  · intro i low none
    rw [handles, live]
    split at none
    · rename_i here
      refine Or.inr ?_
      rw [here.1]
      exact laid.nodup.not_mem_erase
    · rcases slots.spent i low none with zero | gone
      · exact Or.inl zero
      · exact Or.inr fun mem => gone (List.mem_of_mem_erase mem)

theorem unbindLoopSlots {s : System} {buffer : Nat → Option DmaMemory} (p : Pid) {n : Nat} (few : n ≤ 8)
    (laid : Laid s.live) (slots : Slots s buffer) :
    Laid (unbindLoop p n s).live ∧ Slots (unbindLoop p n s) (bufferLeft s buffer n) := by
  induction n with
  | zero =>
    refine ⟨laid, ?_⟩
    have none : bufferLeft s buffer 0 = buffer := by
      funext i
      exact if_neg fun inside => absurd inside.1 (Nat.not_lt_zero i)
    rw [none]
    exact slots
  | succ n ih =>
    obtain ⟨laidBefore, before⟩ := ih (Nat.le_of_succ_le few)
    refine ⟨fewerLaid laidBefore List.erase_sublist, ?_⟩
    have round := unbindRoundSlots p few laidBefore before
    have next : bufferLeft s buffer (n + 1) = fun i =>
        if i = n ∧ (unbindLoop p n s).dmaKBase i ≠ 0 then none else bufferLeft s buffer n i := by
      funext i
      rw [(unbindLoopUnbinds p s n).kBases]
      unfold bufferLeft
      by_cases here : i = n
      · subst here
        simp only [Nat.lt_succ_self, Nat.lt_irrefl, true_and, false_and, if_false]
      · have before : i < n + 1 ↔ i < n := by omega
        simp only [before, here, false_and, if_false]
    rw [next]
    exact round

theorem unbindLoopBars (p : Pid) (s : System) (n : Nat) :
    (unbindLoop p n s).pControlBase = s.pControlBase ∧ (unbindLoop p n s).pCardRamBase = s.pCardRamBase := by
  induction n with
  | zero => exact ⟨rfl, rfl⟩
  | succ n ih => exact ih

theorem unbindOwned {s : Machine} (owned : Owned s) (p : Pid) :
    Owned {s with dev := Device.unbindDma s.dev p, buffer := bufferLeft s.dev s.buffer 8} := by
  obtain ⟨laid, slots⟩ := unbindLoopSlots p (Nat.le_refl 8) owned.laid owned.slots
  obtain ⟨control, cardRam⟩ := unbindLoopBars p s.dev 8
  refine ⟨?_, ?_, ?_, owned.ram, laid, sameSlots slots rfl rfl⟩
  · exact (congrArg BitVec.toNat (unbindFrees s.dev p).index).trans owned.indexed
  · change (unbindLoop p 8 s.dev).pControlBase.toNat % pageSize = 0
    rw [control]; exact owned.control
  · change (unbindLoop p 8 s.dev).pCardRamBase.toNat % pageSize = 0
    rw [cardRam]; exact owned.cardRam

theorem ramAligned (megabytes : Nat) : megabytes * (1024 * 1024) % pageSize = 0 := by
  rw [pageSize]; omega

/- The memory of the FIFO is none of the buffers: their sizes differ. -/
theorem openOwned {s : Machine} {place : Option Place} {memory : Nat → FifoEntry} {head : BitVec 32} {dev : System}
    (owned : Owned s) (opened : Device.kyouko3Open s.dev place memory head = some dev) (megabytes : Nat) :
    Owned {s with dev := dev, ram := megabytes * (1024 * 1024)} := by
  obtain ⟨fresh, rfl⟩ := openExact opened
  have laid := allocatedLaid (show 0 < fifoBytes by decide) owned.laid fresh
  refine ⟨owned.indexed, owned.control, owned.cardRam, ramAligned megabytes, laid, ?_, owned.slots.distinct,
    ?_, owned.slots.bases⟩
  · intro i m low held
    have before := owned.slots.holds i m low held
    exact ⟨List.mem_append_right _ before.live, before.size, before.base, before.handle⟩
  · intro i low none
    rcases owned.slots.spent i low none with zero | gone
    · exact Or.inl zero
    · refine Or.inr fun mem => ?_
      rcases List.mem_append.mp mem with new | old
      · obtain ⟨place', _, same⟩ := Option.map_eq_some_iff.mp (Option.mem_toList.mp new)
        exact absurd (congrArg DmaMemory.size same) (show fifoBytes ≠ dmaBytes by decide)
      · exact gone old

theorem releaseOwned {s : Machine} (owned : Owned s) :
    Owned {s with dev := Device.kyouko3Release s.dev} := by
  have sub : (Device.kyouko3Release s.dev).live.Sublist s.dev.live := List.erase_sublist
  refine ⟨owned.indexed, owned.control, owned.cardRam, owned.ram, fewerLaid owned.laid sub, ?_,
    owned.slots.distinct, ?_, owned.slots.bases⟩
  · intro i m low held
    have before := owned.slots.holds i m low held
    refine ⟨?_, before.size, before.base, before.handle⟩
    have other : m ≠ fifoMemory s.dev := by
      intro same
      have size := before.size
      rw [same] at size
      exact absurd size (show fifoBytes ≠ dmaBytes by decide)
    exact (List.mem_erase_of_ne other).mpr before.live
  · intro i low none
    exact (owned.slots.spent i low none).imp_right fun gone mem => gone (sub.subset mem)

theorem stepOwned {s t : Machine} {op : Op} (owned : Owned s) (taken : step s op = some t) : Owned t := by
  have indexed := stepIndexed owned.indexed taken
  cases op with
  | kyouko3Open place memory head =>
    obtain ⟨dev, opened, rfl⟩ := Option.map_eq_some_iff.mp taken
    exact openOwned owned opened _
  | kyouko3Mmap p vma ret =>
    obtain rfl := mmapTaken taken
    exact ownedKept owned (mmapExact s.dev p vma ret).1 rfl rfl indexed
  | kyouko3Ioctl p call =>
    obtain ⟨ret, dev, ran, rfl⟩ := ioctlTaken taken
    cases call with
    | bindDma arg answers => exact bindOwned owned ran
    | unbindDma =>
      cases Option.some.inj ran
      exact unbindOwned owned p
    | vmode arg =>
      simp only [Ioctl.kyouko3Ioctl] at ran
      split at ran <;> try contradiction
      cases Option.some.inj ran
      exact ownedKept owned (sameBuffers fun i => by rw [vmodeBuffers]) rfl rfl indexed
    | startDma cmdCount =>
      simp only [Ioctl.kyouko3Ioctl] at ran
      split at ran <;> try contradiction
      cases Option.some.inj ran
      exact ownedKept owned (sameBuffers (transferBases s.dev.k cmdCount)) rfl rfl indexed
    | fifoQueue =>
      simp only [Ioctl.kyouko3Ioctl] at ran
      split at ran <;> try contradiction
      cases Option.some.inj ran
      exact ownedKept owned (sameBuffers fun _ => rfl) rfl rfl indexed
    | fifoFlush | other =>
      cases Option.some.inj ran
      exact ownedKept owned (sameBuffers fun _ => rfl) rfl rfl indexed
  | flushRound =>
    simp only [step] at taken
    split at taken <;> try contradiction
    cases Option.some.inj taken
    exact ownedKept owned (sameBuffers fun _ => rfl) rfl rfl indexed
  | kyouko3Release =>
    simp only [step] at taken
    split at taken <;> try contradiction
    cases Option.some.inj taken
    exact releaseOwned owned
  | munmap p addr len =>
    cases Option.some.inj taken
    exact ownedKept owned ⟨rfl, rfl, rfl, rfl⟩ rfl rfl indexed
  | interrupt =>
    simp only [step] at taken
    split at taken <;> try contradiction
    cases Option.some.inj taken
    exact ownedKept owned (sameBuffers fun i => by rw [interruptBuffers]) rfl rfl indexed
  | register reg value =>
    cases Option.some.inj taken
    exact ownedKept owned (sameBuffers fun _ => rfl) rfl rfl indexed

theorem initialOwned (base : System) (control cardRam : Bar) : Owned (initial base control cardRam) where
  indexed := rfl
  control := control.aligned
  cardRam := cardRam.aligned
  ram := rfl
  laid := by constructor <;> simp [initial]
  slots := by
    refine ⟨?_, ?_, fun _ _ _ => Or.inl rfl, fun _ => rfl⟩
    · intro i m _ held
      contradiction
    · intro i j m _ _ held
      contradiction

theorem frameStart {base : BitVec 64} (aligned : base.toNat % pageSize = 0) :
    frameOf base * pageSize = base.toNat := by
  simp only [frameOf, pageShift, pageSize, BitVec.toNat_ushiftRight, Nat.shiftRight_eq_div_pow] at aligned ⊢
  omega

theorem wholePages (vma : Vma) : 0 < areaPages vma ∧ areaPages vma * pageSize = areaBytes vma := by
  have start := vma.startAligned
  have ends := vma.endAligned
  have nonempty := BitVec.lt_def.mp vma.nonempty
  have length : areaBytes vma = vma.vmEnd.toNat - vma.vmStart.toNat :=
    BitVec.toNat_sub_of_le (BitVec.le_of_lt vma.nonempty)
  rw [areaPages, length]
  simp only [pageSize] at start ends ⊢
  omega

/- An area lies in a window exactly if what it maps starts and ends there. -/
theorem intoIff {space : Space} {start : Nat} {vma : Vma} {base : BitVec 64} {w : Window}
    (aligned : base.toNat % pageSize = 0) (maps : Maps space start (frameOf base) (areaPages vma)) :
    MapsInto space start (areaPages vma) (w.Holds pageSize) ↔
      w.base ≤ base.toNat ∧ base.toNat + areaBytes vma ≤ w.base + w.bytes := by
  rw [mapsIntoIff maps, windowHolds (wholePages vma).1, frameStart aligned, (wholePages vma).2]

theorem ownWindow {space : Space} {start : Nat} {vma : Vma} {base : BitVec 64} {bytes : Nat}
    (aligned : base.toNat % pageSize = 0) (maps : Maps space start (frameOf base) (areaPages vma)) :
    MapsInto space start (areaPages vma) (Window.Holds ⟨base.toNat, bytes⟩ pageSize) ↔ areaBytes vma ≤ bytes := by
  rw [intoIff aligned maps]
  simp only [Nat.le_refl, true_and, Nat.add_le_add_iff_left]

theorem mapsNotUnmapped {space : Space} {start frame count : Nat} (positive : 0 < count)
    (maps : Maps space start frame count) : ¬ Unmapped space start count := by
  intro none
  have mapped := maps 0 positive
  rw [none 0 positive] at mapped
  contradiction

instance apartSymm : Std.Symm Apart := ⟨fun _ _ apart => apart.symm⟩

/- An area that starts where one buffer does lies in no other one. -/
theorem sameBuffer {live : List DmaMemory} (laid : Laid live) {m n : DmaMemory} (left : m ∈ live)
    (right : n ∈ live) (starts : n.pBase.toNat ≤ m.pBase.toNat)
    (inside : m.pBase.toNat < n.pBase.toNat + n.size) : m = n := by
  by_contra other
  have apart := laid.apart.forall left right other
  have positive := laid.positive m left
  unfold Apart at apart
  omega

theorem coveredIff {live : List DmaMemory} {buffer : Option DmaMemory} {base : BitVec 64} {space : Space}
    {start : Nat} {vma : Vma} (laid : Laid live) (aligned : base.toNat % pageSize = 0)
    (held : ∀ m, buffer = some m → m ∈ live ∧ m.size = dmaBytes ∧ m.pBase = base)
    (maps : Maps space start (frameOf base) (areaPages vma)) :
    (∃ w : Window, (∃ m ∈ live, m.size = dmaBytes ∧ w = ⟨m.pBase.toNat, dmaBytes⟩) ∧
      MapsInto space start (areaPages vma) (w.Holds pageSize)) ↔ Covered live buffer base (areaBytes vma) := by
  cases buffer with
  | none =>
    constructor
    · rintro ⟨_, ⟨m, there, size, rfl⟩, into⟩
      exact ⟨m, there, size, (intoIff aligned maps).mp into⟩
    · rintro ⟨m, there, size, inside⟩
      exact ⟨_, ⟨m, there, size, rfl⟩, (intoIff aligned maps).mpr inside⟩
  | some m =>
    obtain ⟨allocated, size, rfl⟩ := held m rfl
    constructor
    · rintro ⟨_, ⟨n, there, sameSize, rfl⟩, into⟩
      obtain ⟨starts, ends⟩ := (intoIff aligned maps).mp into
      dsimp only at starts ends
      have positive : 0 < areaBytes vma := (wholePages vma).2 ▸ Nat.mul_pos (wholePages vma).1 (by decide)
      have same : m = n := sameBuffer laid allocated there starts (by rw [sameSize]; omega)
      subst same
      exact (ownWindow aligned maps).mp into
    · intro fits
      exact ⟨_, ⟨m, allocated, size, rfl⟩, (ownWindow aligned maps).mpr fits⟩

theorem selectsIff {s : Machine} (owned : Owned s) {space : Space} {start : Nat} {vma : Vma}
    (maps : Maps space start (frameOf (mmapBase s.dev vma)) (areaPages vma)) :
    (∃ w, Selects s vma w ∧ MapsInto space start (areaPages vma) (w.Holds pageSize)) ↔ Fits s vma := by
  unfold mmapBase at maps
  unfold Selects Fits
  split at maps
  · rename_i control
    simp only [if_pos control, exists_eq_left]
    exact ownWindow owned.control maps
  · rename_i notControl
    split at maps
    · rename_i framebuffer
      simp only [if_neg notControl, if_pos framebuffer, exists_eq_left]
      exact ownWindow owned.cardRam maps
    · rename_i notFramebuffer
      simp only [if_neg notControl, if_neg notFramebuffer]
      refine coveredIff owned.laid (owned.slots.bases _) ?_ maps
      intro m held
      have holds := owned.slots.holds _ m (indexLow owned.indexed) held
      exact ⟨holds.live, holds.size, holds.base⟩

theorem mmapInsideIff {s t : Machine} {p : Pid} {vma : Vma} {ret : Int} (owned : Owned s)
    (taken : step s (.kyouko3Mmap p vma ret) = some t) : MapsInside t p vma ↔ (ret = 0 → Fits s vma) := by
  obtain rfl := mmapTaken taken
  obtain ⟨same, pages⟩ := mmapExact s.dev p vma ret
  have selects : ∀ w, Selects {s with
      dev := (Device.mmap s.dev p vma ret).2,
      dmaMmaps := s.dmaMmaps + (takesDmaBranch vma).toNat} vma w ↔ Selects s vma w := by
    intro w
    simp only [Selects, same.control, same.cardRam, same.live]
  unfold MapsInside
  simp only [pages, selects]
  by_cases mapped : ret = 0
  · have maps : Maps (mmapSpace s.dev p vma ret) (pageOf vma.vmStart) (frameOf (mmapBase s.dev vma))
        (areaPages vma) := by
      rw [mmapSpace, if_pos mapped]
      exact mapRangeMaps _ _ _ _
    rw [selectsIff owned maps, or_iff_right (mapsNotUnmapped (wholePages vma).1 maps)]
    exact (imp_iff_right mapped).symm
  · rw [mmapSpace, if_neg mapped]
    exact ⟨fun _ success => absurd success mapped, fun _ => Or.inl (unmapRangeUnmapped _ _ _)⟩

/- The area of a round is as long as a buffer, so it has to start where one does. -/
theorem roundInsideIff {s : Machine} {p : Pid} {arg : BitVec 32} {rounds : Nat → Round} {i : Nat}
    {dev : System} {vma : Vma} (owned : Owned s) (few : i < 8)
    (ran : bindLoop p arg rounds (i + 1) s.dev = some dev) (mapped : (rounds i).area = .mapped vma) :
    MapsInside {s with dev := dev} p vma ↔
      Covered (allocatedIn rounds (i + 1) ++ s.dev.live)
        (bufferIn s.buffer rounds (i + 1) (mappedSlot s.dev rounds i)) (mappedBase s.dev rounds i) dmaBytes := by
  have looped := bindLoopLooped few ran
  obtain ⟨_, _, last⟩ := Option.bind_eq_some_iff.mp ran
  obtain ⟨length, offset, _⟩ := (bindRoundBound last).room vma mapped
  have bytes : areaBytes vma = dmaBytes := by
    rw [areaBytes, length]; decide
  have maps := looped.maps i vma (Nat.lt_succ_self i) mapped
  rw [show 31 = areaPages vma by rw [areaPages, bytes]; decide] at maps
  have low : mappedSlot s.dev rounds i < 8 := by
    rw [mappedSlotLow (indexLow owned.indexed)]
    exact Nat.mod_lt _ (by decide)
  have base : (dmaMemory dev (mappedSlot s.dev rounds i)).pBase = mappedBase s.dev rounds i := looped.base _
  let held := bufferIn s.buffer rounds (i + 1) (mappedSlot s.dev rounds i)
  have own : ∀ m, held = some m → m ∈ dev.live ∧ m.size = dmaBytes ∧ m.pBase = mappedBase s.dev rounds i := by
    intro m filled
    have holds := loopedHolds owned.slots looped low filled
    exact ⟨holds.live, holds.size, holds.base.trans base⟩
  have covered := coveredIff (loopedLaid owned.laid looped) (base ▸ loopedBases owned.slots looped _) own maps
  rw [← looped.live, ← bytes, ← covered]
  unfold MapsInside
  rw [or_iff_right (mapsNotUnmapped (wholePages vma).1 maps)]
  have control : ¬ dmaOffset = controlOffset := by decide
  have framebuffer : ¬ dmaOffset = framebufferOffset := by decide
  simp only [Selects, offset, if_neg control, if_neg framebuffer]

theorem bindLoopPrefix {p : Pid} {arg : BitVec 32} {rounds : Nat → Round} {n m : Nat} {s t : System}
    (ran : bindLoop p arg rounds n s = some t) (fewer : m ≤ n) : ∃ u, bindLoop p arg rounds m s = some u := by
  induction n generalizing t with
  | zero =>
    cases Nat.le_zero.mp fewer
    exact ⟨t, ran⟩
  | succ n ih =>
    rcases Nat.le_succ_iff.mp fewer with earlier | rfl
    · obtain ⟨u, before, _⟩ := Option.bind_eq_some_iff.mp ran
      exact ih before earlier
    · exact ⟨t, ran⟩

theorem bindInsideIff {s t : Machine} {p : Pid} {arg : BitVec 32} {answers : BindAnswers} (owned : Owned s)
    (taken : step s (.kyouko3Ioctl p (.bindDma arg answers)) = some t) :
    DeviceOnly s (.kyouko3Ioctl p (.bindDma arg answers)) t ↔
      Fitting s (.kyouko3Ioctl p (.bindDma arg answers)) t := by
  constructor
  · intro only i few made
    obtain ⟨vma, mapped⟩ := madeMapped made
    obtain ⟨ret, dev, bound, _⟩ := ioctlTaken taken
    obtain ⟨last, looped, _⟩ := Option.map_eq_some_iff.mp bound
    obtain ⟨u, ran⟩ := bindLoopPrefix looped (show i + 1 ≤ 8 from few)
    exact (roundInsideIff owned few ran mapped).mp (only i u vma few ran mapped)
  · intro fitting i dev vma few ran mapped
    refine (roundInsideIff owned few ran mapped).mpr (fitting i few ?_)
    rw [mapped]
    exact Option.some_ne_none vma

def InsideIffFits (s : Machine) (op : Op) (t : Machine) : Prop := DeviceOnly s op t ↔ Fitting s op t

theorem stepInside {s t : Machine} {op : Op} (owned : Owned s) (taken : step s op = some t) :
    InsideIffFits s op t := by
  cases op with
  | kyouko3Mmap p vma ret => exact mmapInsideIff owned taken
  | kyouko3Ioctl p call =>
    cases call with
    | bindDma arg answers => exact bindInsideIff owned taken
    | vmode | fifoQueue | fifoFlush | startDma | unbindDma | other => exact Iff.rfl
  | kyouko3Open | flushRound | kyouko3Release | munmap | interrupt | register => exact Iff.rfl

theorem insideIffFits (base : System) (control cardRam : Bar) (ops : List Op) :
    EachStep step InsideIffFits (initial base control cardRam) ops :=
  eachStepInvariant (fun _ _ _ => stepOwned) (fun _ _ _ => stepInside) (initialOwned base control cardRam) ops

/- One page of the DMA buffers, before any is allocated. -/
def earlyArea : Vma := ⟨0x30000000, 0x30001000, 0x90000, by decide, by decide, by decide⟩

def mappedUnbound : List Op := [.kyouko3Open (some coldPlace) coldMemory 0, .kyouko3Mmap 0 earlyArea 0]

/- The slot's address is still 0: the first page of memory is mapped. -/
theorem unboundMapsMemory : ¬ EachStep step DeviceOnly coldMachine mappedUnbound := by
  intro each
  have runs : (exec step coldMachine mappedUnbound).isSome = true := by decide +kernel
  obtain ⟨t, ran⟩ := Option.isSome_iff_exists.mp runs
  obtain ⟨s, opened, rest⟩ := execConsSome ran
  obtain ⟨u, mapped, _⟩ := execConsSome rest
  have owned : Owned s := stepOwned (initialOwned coldSystem coldControl coldCardRam) opened
  have inside : MapsInside u 0 earlyArea := ((each s opened).2 u mapped).1
  have fits : Fits s earlyArea := (mmapInsideIff owned mapped).mp inside rfl
  simp only [step] at opened
  obtain ⟨dev, isOpen, rfl⟩ := Option.map_eq_some_iff.mp opened
  obtain ⟨_, rfl⟩ := openExact isOpen
  -- Nothing but the memory of the FIFO is allocated.
  obtain ⟨m, live, size, _⟩ := fits
  cases List.mem_singleton.mp live
  exact absurd size (show fifoBytes ≠ dmaBytes by decide)

end KernelLabs.Exposure
