import KernelLabs.Kyouko.Interrupted
import KernelLabs.Kyouko.Ioctl

/-! The FIFO as a circular buffer: what any run of `FIFO_WRITE` leaves of its memory,
store by store and entry by entry, from any head inside the ring. -/
namespace KernelLabs.FifoRing
open Kyouko Buffer StoreLog Statements Interrupted Ioctl

def entryOf (w : BitVec 32 × BitVec 32) : FifoEntry := ⟨w.1, w.2⟩

/- The memory of the ring in words from `k_base` on, an entry being two of them. -/
def ringWords (kBase : Nat → FifoEntry) (w : Nat) : BitVec 32 :=
  if w % 2 = 0 then (kBase (w / 2)).command else (kBase (w / 2)).value

/- What the statement about to be executed stores there, and what five of them do. -/
def stepStores (entry : FifoEntry) (s : WritePc × Kyouko3) : List (Nat × BitVec 32) :=
  match s.1 with
  | .command => [(2 * s.2.fifo.head.toNat, entry.command)]
  | .value => [(2 * s.2.fifo.head.toNat + 1, entry.value)]
  | _ => []

def writeStores (entry : FifoEntry) : Nat → WritePc × Kyouko3 → List (Nat × BitVec 32)
  | 0, _ => []
  | n + 1, s => stepStores entry s ++ writeStores entry n (writeStep entry s)

def fifoStores (k : Kyouko3) : List (BitVec 32 × BitVec 32) → List (Nat × BitVec 32)
  | [] => []
  | w :: ws => writeStores (entryOf w) 5 (.command, k) ++ fifoStores (fifoWrite k w.1 w.2) ws

/- The ring `k'` is left with when `writes` went to `k`. Slots past the last are the
memory beside it. -/
structure Circular (k : Kyouko3) (writes : List (BitVec 32 × BitVec 32)) (k' : Kyouko3) : Prop where
  accesses : ∀ s ∈ fifoStores k writes, 4 * s.1 + 4 ≤ Device.fifoBytes
  memory : ringWords k'.fifo.kBase = storeAll (ringWords k.fifo.kBase) (fifoStores k writes)
  head : k'.fifo.head.toNat = (k.fifo.head.toNat + writes.length) % 1024
  latest : ∀ j, (written : j < writes.length) → writes.length - min writes.length 1024 ≤ j →
    k'.fifo.kBase ((k.fifo.head.toNat + j) % 1024) = entryOf writes[j]
  rest : ∀ i, (∀ j, j < writes.length → writes.length - min writes.length 1024 ≤ j →
    i ≠ (k.fifo.head.toNat + j) % 1024) → k'.fifo.kBase i = k.fifo.kBase i

theorem wordsEven (kBase : Nat → FifoEntry) (i : Nat) : ringWords kBase (2 * i) = (kBase i).command := by
  rw [ringWords, if_pos (by omega), Nat.mul_div_cancel_left i (by decide)]

theorem wordsOdd (kBase : Nat → FifoEntry) (i : Nat) : ringWords kBase (2 * i + 1) = (kBase i).value := by
  have slot : (2 * i + 1) / 2 = i := by omega
  rw [ringWords, if_neg (by omega), slot]

theorem wordsStore (kBase : Nat → FifoEntry) (i : Nat) (e : FifoEntry) :
    ringWords (store kBase i e) =
      store (store (ringWords kBase) (2 * i) e.command) (2 * i + 1) e.value := by
  funext w
  by_cases slot : w / 2 = i
  · have side : w = 2 * i ∨ w = 2 * i + 1 := by omega
    rcases side with rfl | rfl
    · rw [wordsEven, storeSame, storeOther (by omega), storeSame]
    · rw [wordsOdd, storeSame, storeSame]
  · rw [storeOther (show w ≠ 2 * i + 1 by omega), storeOther (show w ≠ 2 * i by omega)]
    simp only [ringWords, storeOther slot]

/- Half an entry is one word. -/
theorem wordsCommand (kBase : Nat → FifoEntry) (i : Nat) (command : BitVec 32) :
    ringWords (store kBase i {kBase i with command := command}) =
      store (ringWords kBase) (2 * i) command := by
  have kept : (kBase i).value = store (ringWords kBase) (2 * i) command (2 * i + 1) := by
    rw [storeOther (by omega), wordsOdd]
  rw [wordsStore, kept, storeOld]

theorem wordsValue (kBase : Nat → FifoEntry) (i : Nat) (value : BitVec 32) :
    ringWords (store kBase i {kBase i with value := value}) =
      store (ringWords kBase) (2 * i + 1) value := by
  rw [wordsStore, ← wordsEven, storeOld]

/- A statement changes what it stores to and nothing else of the ring. -/
theorem stepWords (entry : FifoEntry) (s : WritePc × Kyouko3) :
    ringWords (writeStep entry s).2.fifo.kBase =
      storeAll (ringWords s.2.fifo.kBase) (stepStores entry s) := by
  obtain ⟨pc, k⟩ := s
  cases pc with
  | command => exact wordsCommand ..
  | value => exact wordsValue ..
  | increment => rfl
  | test => rfl
  | reset => rfl
  | done => rfl

theorem stepsWords (entry : FifoEntry) (n : Nat) (s : WritePc × Kyouko3) :
    ringWords (writeSteps entry n s).2.fifo.kBase =
      storeAll (ringWords s.2.fifo.kBase) (writeStores entry n s) := by
  induction n generalizing s with
  | zero => rfl
  | succ n ih => rw [writeSteps, ih, stepWords, writeStores, storeAllAppend]

theorem fifoWritesWords (k : Kyouko3) (writes : List (BitVec 32 × BitVec 32)) :
    ringWords (fifoWrites k writes).fifo.kBase =
      storeAll (ringWords k.fifo.kBase) (fifoStores k writes) := by
  induction writes generalizing k with
  | nil => rfl
  | cons w ws ih =>
    have one := stepsWords (entryOf w) 5 (.command, k)
    rw [writeStepsWhole _ _ 0] at one
    rw [fifoStores, storeAllAppend, ← one]
    exact ih (fifoWrite k w.1 w.2)

/- Behind its two stores a call only moves the head. -/
theorem writeStoresWhole (entry : FifoEntry) (k : Kyouko3) :
    writeStores entry 5 (.command, k) =
      [(2 * k.fifo.head.toNat, entry.command), (2 * k.fifo.head.toNat + 1, entry.value)] := by
  by_cases last : k.fifo.head + 1 ≥ fifoEntries
  · simp only [writeStores, stepStores, writeStep, storeAtHead, last, if_true]
    rfl
  · simp only [writeStores, stepStores, writeStep, storeAtHead, last, if_false]
    rfl

theorem fifoStoresInside {k : Kyouko3} (inside : k.fifo.head.toNat < 1024)
    {writes : List (BitVec 32 × BitVec 32)} {s : Nat × BitVec 32} (stored : s ∈ fifoStores k writes) :
    4 * s.1 + 4 ≤ Device.fifoBytes := by
  induction writes generalizing k with
  | nil => exact absurd stored List.not_mem_nil
  | cons w ws ih =>
    rw [fifoStores, writeStoresWhole] at stored
    rcases List.mem_append.mp stored with first | later
    · have words : s.1 = 2 * k.fifo.head.toNat ∨ s.1 = 2 * k.fifo.head.toNat + 1 := by
        rcases List.mem_pair.mp first with rfl | rfl
        · exact Or.inl rfl
        · exact Or.inr rfl
      unfold Device.fifoBytes
      omega
    · exact ih (advanceInside _) later

/- Call by call the entries go to consecutive slots. -/
theorem fifoWritesPlace {k : Kyouko3} {slot : Nat} (head : k.fifo.head.toNat = slot % 1024)
    (writes : List (BitVec 32 × BitVec 32)) :
    (fifoWrites k writes).fifo.kBase = placed k.fifo.kBase slot (writes.map entryOf) ∧
      (fifoWrites k writes).fifo.head.toNat = (slot + writes.length) % 1024 := by
  induction writes generalizing k slot with
  | nil => exact ⟨rfl, head⟩
  | cons w ws ih =>
    obtain ⟨own, next⟩ := fifoWritePlaces (entryOf w) head
    obtain ⟨rest, last⟩ := ih next
    rw [own] at rest
    rw [Nat.add_right_comm, Nat.add_assoc] at last
    exact ⟨rest, last⟩

theorem fifoWritesCircular (k : Kyouko3) (writes : List (BitVec 32 × BitVec 32))
    (inside : k.fifo.head.toNat < 1024) : Circular k writes (fifoWrites k writes) := by
  have head : k.fifo.head.toNat = k.fifo.head.toNat % 1024 := (Nat.mod_eq_of_lt inside).symm
  obtain ⟨kBase, last⟩ := fifoWritesPlace head writes
  refine ⟨fun s => fifoStoresInside inside, fifoWritesWords k writes, last, ?_, ?_⟩
  · intro j written late
    rw [kBase, placedLatest (by rwa [List.length_map]) (by rw [List.length_map]; omega),
      List.getElem_map]
  · intro i other
    rw [kBase]
    apply placedOther
    intro j written late
    rw [List.length_map] at written late
    exact other j written (by omega)

def lastSlot : Kyouko3 := {coldKyouko with fifo := {coldKyouko.fifo with head := 1023}}

/- The second of two calls from there goes to the front of the ring. -/
theorem wrappedCircular : lastSlot.fifo.head.toNat < 1024 ∧
    Circular lastSlot [(0x3000, 1), (0x3FFC, 0)] (fifoWrites lastSlot [(0x3000, 1), (0x3FFC, 0)]) :=
  ⟨by decide, fifoWritesCircular lastSlot _ (by decide)⟩

end KernelLabs.FifoRing
