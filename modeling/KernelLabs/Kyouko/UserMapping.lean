import KernelLabs.Kyouko.Device
import KernelLabs.Library.Runs

/-! Which DMA buffer a user buffer maps. The loop of `BIND_DMA` never tells `mmap` for
which buffer it asks: the index is static there, and every other call that takes the
same branch moves it on too. -/
namespace KernelLabs.UserMapping
open Kyouko Device Pages Runs

/- Beside the driver: how many calls of users took the branch. -/
structure Machine where
  dev : System
  dmaMmaps : Nat

inductive Op where
  | mmap (p : Pid) (vma : Vma) (ret : Int)
  | bindDma (p : Pid) (arg : BitVec 64) (answers : BindAnswers)
  | unbindDma (p : Pid)

/- The ioctl takes the low 32 bits of the user's pointer. Every `vm_mmap` succeeds. -/
def step (s : Machine) : Op → Option Machine
  | .mmap p vma ret => some ⟨(Device.mmap s.dev p vma ret).2, s.dmaMmaps + (takesDmaBranch vma).toNat⟩
  | .bindDma p arg answers =>
      if AllMapped answers.rounds numBufs.toNat then
        (Device.bindDma s.dev p (arg.setWidth 32) answers).map fun bound => {s with dev := bound.2}
      else none
  | .unbindDma p => some {s with dev := Device.unbindDma s.dev p}

/- A static variable starts as zero; the rest may be anything. -/
def initial (base : System) : Machine := ⟨{base with index := 0}, 0⟩

/- The user buffer at `addr` lies on the 31 pages of buffer `i`. -/
def MapsBuffer (s : System) (p : Pid) (addr : BitVec 64) (i : Nat) : Prop :=
  addr.toNat % pageSize = 0 ∧ Maps (s.pages p) (pageOf addr) (frameOf (transferAt s.k i).1) 31

def MapsOwn (_ : Machine) (op : Op) (t : Machine) : Prop :=
  ∀ p arg answers, op = .bindDma p arg answers → ∀ i, i < numBufs.toNat →
    MapsBuffer t.dev p (t.dev.user p (dmaInfoAt arg i)) i ∧ MapsBuffer t.dev p (t.dev.buffInfo i) i

/- The index is back at 0, and the pointer survives as an `unsigned int`. -/
def InStep (s : Machine) (op : Op) (_ : Machine) : Prop :=
  ∀ p arg answers, op = .bindDma p arg answers →
    s.dmaMmaps % numBufs.toNat = 0 ∧ arg.toNat < 2 ^ 32

def Indexed (s : Machine) : Prop := IndexAt s.dev s.dmaMmaps

theorem bindTaken {s t : Machine} {p : Pid} {arg : BitVec 64} {answers : BindAnswers}
    (taken : step s (.bindDma p arg answers) = some t) : AllMapped answers.rounds 8 ∧
      ∃ ret dev, Device.bindDma s.dev p (arg.setWidth 32) answers = some (ret, dev) ∧ t = {s with dev := dev} := by
  simp only [step] at taken
  split at taken <;> try contradiction
  rename_i all
  obtain ⟨⟨ret, dev⟩, bound, rfl⟩ := Option.map_eq_some_iff.mp taken
  exact ⟨all, ret, dev, bound, rfl⟩

theorem stepIndexed {s t : Machine} {op : Op} (indexed : Indexed s) (taken : step s op = some t) :
    Indexed t := by
  cases op with
  | mmap p vma ret =>
    cases Option.some.inj taken
    exact mmapCounted indexed p vma ret
  | bindDma p arg answers =>
    obtain ⟨all, ret, dev, bound, rfl⟩ := bindTaken taken
    have counted := bindCounted indexed bound
    rw [allMappedEntered all] at counted
    exact counted.trans (Nat.add_mod_right ..)
  | unbindDma p =>
    cases Option.some.inj taken
    exact (congrArg BitVec.toNat (unbindFrees s.dev p).index).trans indexed

/- What a bind leaves in the address space of its caller, wherever the index stood. -/
theorem bindMaps {s t : System} {p : Pid} {arg : BitVec 32} {answers : BindAnswers} {ret : Int}
    (bound : Device.bindDma s p arg answers = some (ret, t)) {i : Nat} (inside : i < 8) {vma : Vma}
    (mapped : (answers.rounds i).area = .mapped vma) :
    t.buffInfo i = vma.vmStart ∧
    t.user p (dmaInfoAt (arg.setWidth 64) i) = vma.vmStart ∧
    (transferAt t.k i).1 = baseAfter s answers.rounds 8 i ∧
    Maps (t.pages p) (pageOf vma.vmStart) (frameOf (mappedBase s answers.rounds i)) 31 := by
  obtain ⟨m, looped, _, frame⟩ := bindExact bound
  refine ⟨?_, ?_, ?_, ?_⟩
  · rw [frame.info, looped.info, if_pos inside, mapped]
    rfl
  · rw [frame.user, looped.user i inside, mapped]
    rfl
  · rw [transferAt, frame.buffers, looped.base]
  · rw [frame.pages]
    exact looped.maps i vma inside mapped

theorem allMappedSlot {s : System} {answers : BindAnswers} (low : s.index.toNat < 8)
    (all : AllMapped answers.rounds 8) {i : Nat} (inside : i < 8) :
    mappedSlot s answers.rounds i = (s.index.toNat + i) % 8 := by
  rw [mappedSlotLow low, allMappedEntered fun j before => all j (before.trans inside)]

theorem bindMapsOwn {s t : Machine} {op : Op} (indexed : Indexed s) (taken : step s op = some t)
    (meets : InStep s op t) : MapsOwn s op t := by
  intro p arg answers same i inside
  obtain ⟨around, small⟩ := meets p arg answers same
  subst same
  obtain ⟨all, ret, dev, bound, rfl⟩ := bindTaken taken
  obtain ⟨vma, mapped⟩ := madeMapped (all i inside)
  obtain ⟨info, user, base, maps⟩ := bindMaps bound inside mapped
  have pointer : (arg.setWidth 32).setWidth 64 = arg := by
    apply BitVec.eq_of_toNat_eq
    simp only [BitVec.toNat_setWidth]
    omega
  have zero : s.dev.index.toNat = 0 := indexed.trans around
  have own : mappedBase s.dev answers.rounds i = (transferAt dev.k i).1 := by
    have slot : (0 + i) % 8 = i := by rw [Nat.zero_add]; exact Nat.mod_eq_of_lt inside
    have before : i < 8 := inside
    rw [mappedBase, allMappedSlot (indexLow indexed) all inside, zero, slot, base, baseAfter, baseAfter,
      if_pos (Nat.lt_succ_self i), if_pos before]
  have buffer : MapsBuffer dev p vma.vmStart i := ⟨vma.startAligned, own ▸ maps⟩
  rw [pointer] at user
  exact ⟨user.symm ▸ buffer, info.symm ▸ buffer⟩

theorem userBuffersMapped (base : System) (ops : List Op)
    (meets : EachStep step InStep (initial base) ops) : EachStep step MapsOwn (initial base) ops :=
  eachStepOfInvariant (fun _ _ _ indexed taken _ => stepIndexed indexed taken)
    (fun _ _ _ => bindMapsOwn) (show Indexed (initial base) from rfl) meets

/- Two buffers of one bind share no frame. -/
theorem framesApart {s t : System} {p : Pid} {arg : BitVec 32} {rounds : Nat → Round} {n : Nat}
    (looped : Looped p arg rounds n s t) {i j : Nat} (later : j < i) (inside : i < n) {first second : Place}
    (placedFirst : (rounds j).place = some first) (placedSecond : (rounds i).place = some second) :
    frameOf second.pBase ≠ frameOf first.pBase := by
  have memories : ∀ k place, (rounds k).place = some place → place.memory dmaBytes ∈ roundMemory rounds k := by
    intro k place placed
    rw [roundMemory, Round.memory, placed]
    exact List.mem_singleton_self _
  obtain ⟨_, aligned, apart⟩ := looped.fresh i inside _ (memories i second placedSecond)
  obtain ⟨_, alignedFirst, _⟩ := looped.fresh j (later.trans inside) _ (memories j first placedFirst)
  have clear := apart _ (List.mem_append_left _ (allocatedSome later (memories j first placedFirst)))
  intro same
  simp only [frameOf, pageShift, BitVec.toNat_ushiftRight, Nat.shiftRight_eq_div_pow] at same
  simp only [Place.memory, pageSize, Apart, dmaBytes] at aligned alignedFirst clear
  omega

/- Off its start, the index wraps inside the loop and hands out buffer 0 again. -/
theorem outOfStepElsewhere {s t : Machine} {p : Pid} {arg : BitVec 64} {answers : BindAnswers}
    (indexed : Indexed s) (taken : step s (.bindDma p arg answers) = some t) (placed : AllPlaced answers.rounds 8)
    (moved : s.dmaMmaps % numBufs.toNat ≠ 0) : ¬ MapsOwn s (.bindDma p arg answers) t := by
  intro own
  obtain ⟨all, ret, dev, bound, rfl⟩ := bindTaken taken
  have low := indexLow indexed
  have index : s.dev.index.toNat = s.dmaMmaps % 8 := indexed
  have positive : s.dev.index.toNat ≠ 0 := fun zero => moved (index.symm.trans zero)
  have inside : 8 - s.dev.index.toNat < 8 := by omega
  obtain ⟨vma, mapped⟩ := madeMapped (all _ inside)
  obtain ⟨first, placedFirst⟩ := Option.ne_none_iff_exists'.mp (placed 0 (by decide))
  obtain ⟨second, placedSecond⟩ := Option.ne_none_iff_exists'.mp (placed _ inside)
  obtain ⟨info, _, base, maps⟩ := bindMaps bound inside mapped
  obtain ⟨m, looped, _, _⟩ := bindExact bound
  have wrapped : mappedBase s.dev answers.rounds (8 - s.dev.index.toNat) = first.pBase := by
    have slot : (s.dev.index.toNat + (8 - s.dev.index.toNat)) % 8 = 0 := by omega
    rw [mappedBase, allMappedSlot low all inside, slot, baseAfter, if_pos (Nat.succ_pos _), placedFirst]
    rfl
  have mine := (own p arg answers rfl _ inside).2.2
  rw [info, base, baseAfter, if_pos inside, placedSecond] at mine
  rw [wrapped] at maps
  exact framesApart looped (by omega) inside placedFirst placedSecond (mapsUnique (by decide) mine maps)

def boundOnce : List Op := [.bindDma 0 0x602000 answersCold]

theorem boundOnceMapped :
    (∃ t, exec step (initial coldSystem) boundOnce = some t) ∧
      EachStep step MapsOwn (initial coldSystem) boundOnce := by
  refine ⟨?_, ?_⟩
  · have runs : (exec step (initial coldSystem) boundOnce).isSome = true := by decide +kernel
    exact Option.isSome_iff_exists.mp runs
  · apply userBuffersMapped
    intro t _
    refine ⟨?_, trivial⟩
    intro p arg answers same
    cases same
    exact ⟨rfl, by decide⟩

/- One page at offset 0x1000: any offset but two takes the branch. -/
def strayArea : Vma := ⟨0x10000000, 0x10001000, 1, by decide, by decide, by decide⟩

def strayThenBound : List Op := [.mmap 0 strayArea 0, .bindDma 0 0x602000 answersCold]

theorem strayShiftsBuffers : ¬ EachStep step MapsOwn (initial coldSystem) strayThenBound := by
  intro each
  let strayed : Machine := ⟨(Device.mmap (initial coldSystem).dev 0 strayArea 0).2, 1⟩
  have mapped : exec step (initial coldSystem) [.mmap 0 strayArea 0] = some strayed := rfl
  have binds : (step strayed (.bindDma 0 0x602000 answersCold)).isSome = true := by decide +kernel
  obtain ⟨t, bound⟩ := Option.isSome_iff_exists.mp binds
  have indexed : Indexed strayed := by unfold Indexed IndexAt; decide
  have own : MapsOwn strayed (.bindDma 0 0x602000 answersCold) t := eachStepAt each mapped bound
  exact outOfStepElsewhere indexed bound (by decide) (by decide) own

end KernelLabs.UserMapping
