import KernelLabs.Kyouko.Device
import KernelLabs.Library.Runs

/-! What the driver allocates and gives back, over any order of its calls. Every handle
lives in the one global structure: a second open or bind writes over the first one's,
and unbind and release free whatever is stored there. -/
namespace KernelLabs.Resources
open Kyouko Buffer Pages Device Runs

/- Beside the driver: which processes have bound and not unbound, and whether the last
of those ioctls was a bind. One that reports an error has not bound. -/
structure Shared where
  dev : System
  boundBy : Pid → Bool
  bound : Bool

/- Which process opens or releases the file makes no difference. -/
inductive Op where
  | kyouko3Open (place : Place) (memory : Nat → FifoEntry) (head : BitVec 32)
  | bindDma (p : Pid) (arg : BitVec 64) (answers : BindAnswers)
  | unbindDma (p : Pid)
  | kyouko3Release

def Shared.mark (s : Shared) (p : Pid) (bound : Bool) : Shared :=
  {s with boundBy := fun x => if x = p then bound else s.boundBy x, bound := bound}

/- All allocations succeed, and ioctls and releases come through an open file. -/
def step (s : Shared) : Op → Option Shared
  | .kyouko3Open place memory head =>
      (Device.kyouko3Open s.dev (some place) memory head).map fun dev => {s with dev := dev}
  | .bindDma p arg answers =>
      if s.dev.opens ≠ 0 ∧ AllPlaced answers.rounds numBufs.toNat then
        (Device.bindDma s.dev p (arg.setWidth 32) answers).map fun done =>
          if done.1 = 0 then {s with dev := done.2}.mark p true else {s with dev := done.2}
      else none
  | .unbindDma p =>
      if s.dev.opens ≠ 0 then some ({s with dev := Device.unbindDma s.dev p}.mark p false) else none
  | .kyouko3Release =>
      if s.dev.opens ≠ 0 then some {s with dev := Device.kyouko3Release s.dev} else none

/- The module has just been loaded. -/
def loaded (base : System) : System := {base with index := 0, live := [], requested := [], opens := 0}

def initial (base : System) : Shared := ⟨loaded base, fun _ => false, false⟩

/- Whatever is passed to `pci_free_consistent` or `free_irq` is there to be freed. -/
def FreesLive (s : Shared) (op : Op) (_ : Shared) : Prop :=
  match op with
  | .unbindDma p =>
      (∀ i, i < numBufs.toNat → dmaMemory (unbindLoop p i s.dev) i ∈ (unbindLoop p i s.dev).live) ∧
      (unbindLoop p numBufs.toNat s.dev).pdevIrq ∈ (unbindLoop p numBufs.toNat s.dev).requested
  | .kyouko3Release => fifoMemory s.dev ∈ s.dev.live
  | _ => True

/- Once every process has unbound and released, nothing is left allocated. -/
def NoLeak (s : Shared) : Prop :=
  s.dev.opens = 0 → (∀ p, s.boundBy p = false) → s.dev.live = []

/- One open file and one bind at a time, every bind gets its interrupt, and there is no unbind
without a bind. -/
def Orderly (s : Shared) (op : Op) (_ : Shared) : Prop :=
  match op with
  | .kyouko3Open .. => s.dev.opens = 0
  | .bindDma _ _ answers => s.bound = false ∧ answers.enableMsi = 0 ∧ answers.requestIrq = 0
  | .unbindDma _ => s.bound = true
  | .kyouko3Release => True

def fifoHeld (s : System) : List DmaMemory := if s.opens = 0 then [] else [fifoMemory s]
def dmaHeld (s : Shared) : List DmaMemory := if s.bound then dmaHandles s.dev 8 else []

/- The handles stored are exactly what is allocated. -/
structure Accounted (s : Shared) : Prop where
  live : s.dev.live.Perm (fifoHeld s.dev ++ dmaHeld s)
  single : s.dev.opens ≤ 1
  interrupt : s.dev.requested = if s.bound then [s.dev.pdevIrq] else []
  owner : s.bound = true → ∃ p, s.boundBy p = true

theorem fifoHeldOpen {s : System} (opened : s.opens ≠ 0) : fifoHeld s = [fifoMemory s] := if_neg opened

theorem openAccounted {s : Shared} {place : Place} {memory : Nat → FifoEntry} {head : BitVec 32} {dev : System}
    (accounted : Accounted s) (closed : s.dev.opens = 0)
    (opened : Device.kyouko3Open s.dev (some place) memory head = some dev) :
    Accounted {s with dev := dev} := by
  obtain ⟨_, rfl⟩ := openExact opened
  have live := accounted.live
  rw [fifoHeld, if_pos closed, List.nil_append] at live
  refine ⟨?_, ?_, accounted.interrupt, accounted.owner⟩
  · rw [fifoHeldOpen (Nat.succ_ne_zero _)]
    exact live.cons _
  · change s.dev.opens + 1 ≤ 1
    rw [closed]

/- What a bind leaves of the FIFO, and of what was allocated before. -/
theorem bindKeeps {s dev : System} {p : Pid} {arg : BitVec 32} {answers : BindAnswers} {ret : Int}
    (taken : Device.bindDma s p arg answers = some (ret, dev)) :
    fifoHeld dev = fifoHeld s ∧ fifoMemory dev = fifoMemory s ∧ dev.opens = s.opens := by
  obtain ⟨m, looped, _, frame⟩ := bindExact taken
  have ring : m.k.fifo = s.k.fifo := by rw [looped.rest]
  have opens : dev.opens = s.opens := frame.opens.trans looped.opens
  have memory : fifoMemory dev = fifoMemory s := by
    simp only [fifoMemory, frame.fifo, frame.fifoKBase, ring, looped.fifoKBase]
  refine ⟨?_, memory, opens⟩
  rw [fifoHeld, fifoHeld, opens, memory]

theorem bindAccounted {s : Shared} {p : Pid} {arg : BitVec 32} {answers : BindAnswers} {ret : Int}
    {dev : System} (accounted : Accounted s) (placed : AllPlaced answers.rounds 8) (msi : answers.enableMsi = 0)
    (irq : answers.requestIrq = 0) (free : s.bound = false)
    (taken : Device.bindDma s.dev p arg answers = some (ret, dev)) :
    Accounted ({s with dev := dev}.mark p true) := by
  obtain ⟨m, looped, requested, _⟩ := bindExact taken
  obtain ⟨held, _⟩ := bindHolds placed taken
  obtain ⟨fifo, _, opens⟩ := bindKeeps taken
  have live := accounted.live
  have none : dmaHeld s = [] := by rw [dmaHeld, free]; rfl
  rw [none, List.append_nil] at live
  have interrupt : dev.requested = [dev.pdevIrq] := by
    rw [requestSucceeds m msi irq] at requested
    cases requested
    change answers.vector :: m.requested = [answers.vector]
    rw [looped.requested, accounted.interrupt, free]
    rfl
  refine ⟨?_, ?_, interrupt, fun _ => ⟨p, if_pos rfl⟩⟩
  · change dev.live.Perm (fifoHeld dev ++ dmaHandles dev 8)
    rw [fifo]
    exact held.trans ((live.append_left _).trans List.perm_append_comm)
  · change dev.opens ≤ 1
    rw [opens]
    exact accounted.single

theorem unbindAccounted {s : Shared} (accounted : Accounted s) (p : Pid) (bound : s.bound = true) :
    Accounted ({s with dev := Device.unbindDma s.dev p}.mark p false) := by
  have unbinds := unbindFrees s.dev p
  have held : s.dev.live.Perm (dmaHandles s.dev 8 ++ fifoHeld s.dev) := by
    have live := accounted.live
    rw [dmaHeld, if_pos bound] at live
    exact live.trans List.perm_append_comm
  have fifo : fifoHeld (Device.unbindDma s.dev p) = fifoHeld s.dev := by
    simp only [fifoHeld, fifoMemory, unbinds.opens, unbinds.fifo, unbinds.fifoKBase]
  refine ⟨?_, ?_, ?_, fun still => absurd still Bool.false_ne_true⟩
  · change (Device.unbindDma s.dev p).live.Perm (fifoHeld (Device.unbindDma s.dev p) ++ [])
    rw [fifo, List.append_nil]
    exact unbinds.live _ held
  · exact unbinds.opens.trans_le accounted.single
  · change (Device.unbindDma s.dev p).requested = []
    rw [unbindRequested, accounted.interrupt, if_pos bound]
    exact List.erase_cons_head ..

theorem releaseAccounted {s : Shared} (accounted : Accounted s) (opened : s.dev.opens ≠ 0) :
    Accounted {s with dev := Device.kyouko3Release s.dev} := by
  have last : s.dev.opens - 1 = 0 := by have := accounted.single; omega
  have live := accounted.live
  rw [fifoHeldOpen opened, List.singleton_append] at live
  refine ⟨?_, ?_, accounted.interrupt, accounted.owner⟩
  · have none : fifoHeld (Device.kyouko3Release s.dev) = [] := if_pos last
    rw [none]
    change (s.dev.live.erase (fifoMemory s.dev)).Perm (dmaHeld s)
    simpa using live.erase (fifoMemory s.dev)
  · exact (Nat.sub_le _ 1).trans accounted.single

theorem bindTaken {s t : Shared} {p : Pid} {arg : BitVec 64} {answers : BindAnswers}
    (taken : step s (.bindDma p arg answers) = some t) : AllPlaced answers.rounds 8 ∧
      ∃ ret dev, Device.bindDma s.dev p (arg.setWidth 32) answers = some (ret, dev) ∧
        t = if ret = 0 then {s with dev := dev}.mark p true else {s with dev := dev} := by
  simp only [step] at taken
  split at taken <;> try contradiction
  rename_i placed
  obtain ⟨⟨ret, dev⟩, bound, rfl⟩ := Option.map_eq_some_iff.mp taken
  exact ⟨placed.2, ret, dev, bound, rfl⟩

theorem stepAccounted {s t : Shared} {op : Op} (accounted : Accounted s) (taken : step s op = some t)
    (meets : Orderly s op t) : Accounted t := by
  cases op with
  | kyouko3Open place memory head =>
    obtain ⟨dev, opened, rfl⟩ := Option.map_eq_some_iff.mp taken
    exact openAccounted accounted meets opened
  | bindDma p arg answers =>
    obtain ⟨placed, ret, dev, bound, rfl⟩ := bindTaken taken
    obtain ⟨free, msi, irq⟩ := meets
    obtain ⟨zero, _⟩ := bindDriver msi irq bound
    rw [if_pos zero]
    exact bindAccounted accounted placed msi irq free bound
  | unbindDma p =>
    simp only [step] at taken
    split at taken <;> try contradiction
    cases Option.some.inj taken
    exact unbindAccounted accounted p meets
  | kyouko3Release =>
    simp only [step] at taken
    split at taken <;> try contradiction
    rename_i opened
    cases Option.some.inj taken
    exact releaseAccounted accounted opened

theorem stepFreesLive {s t : Shared} {op : Op} (accounted : Accounted s) (taken : step s op = some t)
    (meets : Orderly s op t) : FreesLive s op t := by
  cases op with
  | kyouko3Open place memory head => trivial
  | bindDma p arg answers => trivial
  | unbindDma p =>
    have held := accounted.live
    rw [dmaHeld, if_pos (show s.bound = true from meets)] at held
    obtain ⟨irq, requested⟩ := unbindLoopInterrupt p s.dev numBufs.toNat
    refine ⟨fun i inside => unbindLoopLive p (held.trans List.perm_append_comm) inside, ?_⟩
    rw [irq, requested, accounted.interrupt, if_pos (show s.bound = true from meets)]
    exact List.mem_singleton_self _
  | kyouko3Release =>
    simp only [step] at taken
    split at taken <;> try contradiction
    rename_i opened
    rw [FreesLive, accounted.live.mem_iff, fifoHeldOpen opened]
    exact List.mem_cons_self

theorem accountedNoLeak {s : Shared} (accounted : Accounted s) : NoLeak s := by
  intro closed unbound
  have free : s.bound = false := by
    by_contra bound
    obtain ⟨p, owner⟩ := accounted.owner (Bool.eq_true_of_not_eq_false bound)
    rw [unbound p] at owner; contradiction
  have live := accounted.live
  rw [fifoHeld, if_pos closed, dmaHeld, free] at live
  exact live.eq_nil

theorem initialAccounted (base : System) : Accounted (initial base) where
  live := List.Perm.refl _
  single := Nat.zero_le 1
  interrupt := rfl
  owner := fun bound => absurd bound Bool.false_ne_true

theorem releasedOnce (base : System) (ops : List Op) (meets : EachStep step Orderly (initial base) ops) :
    EachStep step FreesLive (initial base) ops ∧ EachState step NoLeak (initial base) ops := by
  have keep : ∀ s op t, Accounted s → step s op = some t → Orderly s op t → Accounted t :=
    fun _ _ _ => stepAccounted
  exact ⟨eachStepOfInvariant keep (fun _ _ _ => stepFreesLive) (initialAccounted base) meets,
    eachStateOfInvariant keep (fun _ => accountedNoLeak) (initialAccounted base) meets⟩

/- None of the four conditions can be dropped. A release after a second open and a
release frees the second buffer again. -/
theorem secondOpenFreedTwice {s t u v : Shared} {place : Place} {memory : Nat → FifoEntry} {head : BitVec 32}
    (opened : step s (.kyouko3Open place memory head) = some t)
    (first : step t .kyouko3Release = some u) : ¬ FreesLive u .kyouko3Release v := by
  simp only [step] at opened
  obtain ⟨dev, took, rfl⟩ := Option.map_eq_some_iff.mp opened
  obtain ⟨fresh, rfl⟩ := openExact took
  simp only [step] at first
  split at first <;> try contradiction
  cases Option.some.inj first
  have left : (place.memory fifoBytes :: s.dev.live).erase (place.memory fifoBytes) = s.dev.live :=
    List.erase_cons_head ..
  change ¬ (place.memory fifoBytes ∈ (place.memory fifoBytes :: s.dev.live).erase (place.memory fifoBytes))
  rw [left]
  exact freshNotLive (fresh _ (List.mem_singleton_self _)) (show 0 < fifoBytes by decide)

theorem dmaMarked (s : Shared) (p : Pid) (dev : System) (ret : Int) :
    (if ret = 0 then {s with dev := dev}.mark p true else {s with dev := dev}).dev = dev := by
  split <;> rfl

/- Two unbinds after a bind free its buffers twice, whether or not another bind came before. -/
theorem secondUnbindFreesAgain {s t u v : Shared} {p q r : Pid} {arg : BitVec 64} {answers : BindAnswers}
    (bound : step s (.bindDma p arg answers) = some t)
    (first : step t (.unbindDma q) = some u) : ¬ FreesLive u (.unbindDma r) v := by
  obtain ⟨placed, ret, dev, ran, rfl⟩ := bindTaken bound
  simp only [step, dmaMarked] at first
  split at first <;> try contradiction
  cases Option.some.inj first
  rintro ⟨again, _⟩
  obtain ⟨held, fresh⟩ := bindHolds placed ran
  have unbinds := unbindFrees dev q
  have handle : dmaMemory (Device.unbindDma dev q) 0 = dmaMemory dev 0 := by
    simp only [dmaMemory, unbinds.buffers, unbinds.kBases]
  have passed : dmaMemory (Device.unbindDma dev q) 0 ∈ (Device.unbindDma dev q).live := again 0 (by decide)
  rw [handle, (unbinds.live _ held).mem_iff] at passed
  exact fresh passed

/- A bind that reports an error is followed by no unbind, and its buffers stay. -/
theorem failedBindLeaks {s t u : Shared} {p : Pid} {arg : BitVec 64} {answers : BindAnswers}
    (accounted : Accounted s) (unbound : ∀ p, s.boundBy p = false)
    (failed : answers.enableMsi ≠ 0 ∨ answers.requestIrq ≠ 0) (bound : step s (.bindDma p arg answers) = some t)
    (closed : step t .kyouko3Release = some u) : ¬ NoLeak u := by
  obtain ⟨placed, ret, dev, ran, rfl⟩ := bindTaken bound
  obtain ⟨m, _, requested, _⟩ := bindExact ran
  have error : ret ≠ 0 := requestFails failed requested
  rw [if_neg error] at closed
  simp only [step] at closed
  split at closed <;> try contradiction
  rename_i opened
  cases Option.some.inj closed
  obtain ⟨held, _⟩ := bindHolds placed ran
  obtain ⟨_, _, opens⟩ := bindKeeps ran
  intro noLeak
  have last : dev.opens - 1 = 0 := by
    have single := accounted.single
    omega
  have empty : dev.live.erase (fifoMemory dev) = [] := noLeak last unbound
  have buffer : dmaMemory dev 0 ∈ dev.live := held.mem_iff.mpr (List.mem_append_left _ List.mem_cons_self)
  have other : dmaMemory dev 0 ≠ fifoMemory dev := fun same =>
    absurd (congrArg DmaMemory.size same) (show dmaBytes ≠ fifoBytes by decide)
  have kept := (List.mem_erase_of_ne other).mpr buffer
  rw [empty] at kept
  exact absurd kept List.not_mem_nil

/- An unbind with nothing bound frees an interrupt that is not requested. -/
theorem idleUnbindFrees {s t : Shared} {p : Pid} (accounted : Accounted s) (idle : s.bound = false) :
    ¬ FreesLive s (.unbindDma p) t := by
  rintro ⟨_, freed⟩
  obtain ⟨irq, requested⟩ := unbindLoopInterrupt p s.dev numBufs.toNat
  rw [irq, requested, accounted.interrupt, idle] at freed
  contradiction

def firstRing : Place := ⟨0x9000, 0x8000⟩
def secondRing : Place := ⟨0xB000, 0xA000⟩

def usedOnce : List Op :=
  [.kyouko3Open firstRing coldMemory 0, .bindDma 0 0x602000 answersCold, .unbindDma 0, .kyouko3Release]

theorem usedOnceReleased : (∃ t, exec step (initial coldSystem) usedOnce = some t) ∧
    EachStep step FreesLive (initial coldSystem) usedOnce ∧
    EachState step NoLeak (initial coldSystem) usedOnce := by
  refine ⟨?_, ?_⟩
  · have runs : (exec step (initial coldSystem) usedOnce).isSome = true := by decide +kernel
    exact Option.isSome_iff_exists.mp runs
  · apply releasedOnce
    intro s opened
    refine ⟨rfl, ?_⟩
    simp only [step] at opened
    obtain ⟨_, _, rfl⟩ := Option.map_eq_some_iff.mp opened
    intro t bound
    refine ⟨⟨rfl, rfl, rfl⟩, ?_⟩
    obtain ⟨_, ret, dev, ran, rfl⟩ := bindTaken bound
    rw [if_pos (bindDriver rfl rfl ran).1]
    intro u _
    exact ⟨rfl, fun _ _ => ⟨trivial, trivial⟩⟩

def opened (s : Shared) (ring : Place) : Shared :=
  {s with dev := {s.dev with
    k := Kyouko.kyouko3Open s.dev.k ring.pBase coldMemory 0,
    fifoKBase := ring.kBase,
    live := ring.memory fifoBytes :: s.dev.live,
    opens := s.dev.opens + 1}}

theorem openTaken {s : Shared} {ring : Place} (fresh : Fresh s.dev.live (ring.memory fifoBytes)) :
    step s (.kyouko3Open ring coldMemory 0) = some (opened s ring) := by
  simp only [step, Device.kyouko3Open, pciAllocConsistent]
  rw [if_pos fresh]
  rfl

def released (s : Shared) : Shared := {s with dev := Device.kyouko3Release s.dev}

theorem releaseTaken {s : Shared} (open' : s.dev.opens ≠ 0) :
    step s .kyouko3Release = some (released s) := if_pos open'

/- Two processes open the file; the second buffer's handle replaces the first one's. -/
def openedTwice : List Op :=
  [.kyouko3Open firstRing coldMemory 0, .kyouko3Open secondRing coldMemory 0, .kyouko3Release]

theorem secondHandleFreedTwice :
    ¬ EachStep step FreesLive (initial coldSystem) (openedTwice ++ [.kyouko3Release]) ∧
    ¬ EachState step NoLeak (initial coldSystem) (openedTwice ++ [.kyouko3Release]) := by
  let one := opened (initial coldSystem) firstRing
  let two := opened one secondRing
  have first : step (initial coldSystem) (.kyouko3Open firstRing coldMemory 0) = some one :=
    openTaken (by decide)
  have second : step one (.kyouko3Open secondRing coldMemory 0) = some two := openTaken (by decide)
  have third : step two .kyouko3Release = some (released two) := releaseTaken (by decide)
  have fourth : step (released two) .kyouko3Release = some (released (released two)) :=
    releaseTaken (by decide)
  have reached : exec step (initial coldSystem) openedTwice = some (released two) := by
    rw [openedTwice, execCons first, execCons second, execCons third]; rfl
  refine ⟨?_, ?_⟩
  · intro each
    exact secondOpenFreedTwice second third (eachStepLast each reached fourth)
  · intro each
    have ended : exec step (initial coldSystem) (openedTwice ++ [.kyouko3Release]) =
        some (released (released two)) := by
      rw [execAppend, reached, Option.bind_some, execCons fourth]; rfl
    have empty := eachStateLast each ended rfl fun _ => rfl
    exact absurd empty (by decide)

end KernelLabs.Resources
