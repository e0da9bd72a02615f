import KernelLabs.Kyouko.Driver
import KernelLabs.Library.Runs

/-! One caller's `FIFO_QUEUE` and `FIFO_FLUSH` calls against the device. The ring does
not tell full from empty, so a flush delivers what was queued exactly when that was
less than the ring holds. -/
namespace KernelLabs.FifoDelivery
open Kyouko Buffer Runs

/- `flushedAt` is how much had been written when the last flush returned. -/
structure Line where
  k : Kyouko3
  pc : FlushPc
  consumed : List FifoEntry
  flushedAt : Nat

inductive Op where
  | fifoQueue (entry : FifoEntry)
  | fifoFlush
  | test
  | body
  | device
  deriving DecidableEq, Repr

def step (s : Line) : Op → Option Line
  | .fifoQueue entry =>
      if s.pc = .outside then some {s with k := fifoWrite s.k entry.command entry.value} else none
  | .fifoFlush => if s.pc = .outside then some {s with k := kickFifo s.k, pc := .test} else none
  | .test =>
      if s.pc = .test then
        if flushWaits s.k then some {s with pc := .body}
        else some {s with pc := .outside, flushedAt := s.k.fifo.written.length}
      else none
  | .body => if s.pc = .body then some {s with k := refreshTail s.k, pc := .test} else none
  | .device => (deviceNext s.k).map fun r => {s with k := r.2, consumed := s.consumed ++ [r.1]}

def initial (s : Kyouko3) (pBase : BitVec 64) (memory : Nat → FifoEntry) (head : BitVec 32) : Line :=
  ⟨initFifo s pBase memory head, .outside, [], 0⟩

/- The flush has returned, and the device has consumed all that was queued, in order. -/
def FlushDelivers (_ : Line) (op : Op) (t : Line) : Prop :=
  op = .test → t.pc = .outside → t.consumed = t.k.fifo.written

/- The flush returns with less than a ringful queued since the last one did. -/
def LessThanRing (s : Line) (op : Op) (t : Line) : Prop :=
  op = .test → t.pc = .outside → s.k.fifo.written.length < s.flushedAt + fifoEntries.toNat
instance (s : Line) (op : Op) (t : Line) : Decidable (LessThanRing s op t) := by
  unfold LessThanRing; infer_instance

/- The three registers and the cached tail, as positions in the history. Past a
ringful the device stops short: it sees no more than the remainder. -/
structure Delivering (s : Line) : Prop where
  ring : RingAt s.k.fifo
  tail : (kReadReg s.k fifoTail).toNat = s.consumed.length % 1024
  kicked : (kReadReg s.k fifoHead).toNat =
    (if s.pc = .outside then s.flushedAt else s.k.fifo.written.length) % 1024
  cached : ∃ seen, s.flushedAt ≤ seen ∧ seen ≤ s.consumed.length ∧
    s.k.fifo.tailCache.toNat = seen % 1024
  flushed : s.flushedAt ≤ s.k.fifo.written.length
  idle : s.pc = .outside → s.consumed.length = s.flushedAt
  short : s.consumed.length ≤ s.flushedAt + (s.k.fifo.written.length - s.flushedAt) % 1024
  taken : s.pc = .outside ∨ s.k.fifo.written.length < s.flushedAt + 1024 →
    s.consumed = s.k.fifo.written.take s.consumed.length

theorem initialDelivering (s : Kyouko3) (pBase : BitVec 64) (memory : Nat → FifoEntry) {head : BitVec 32}
    (restarted : head = 0) : Delivering (initial s pBase memory head) where
  ring := initFifoRing s pBase memory head
  tail := rfl
  kicked := congrArg BitVec.toNat restarted
  cached := ⟨0, Nat.le_refl _, Nat.le_refl _, rfl⟩
  flushed := Nat.le_refl _
  idle := fun _ => rfl
  short := Nat.zero_le _
  taken := fun _ => rfl

theorem queueDelivering {s : Line} (d : Delivering s) (outside : s.pc = .outside) (reg value : BitVec 32) :
    Delivering {s with k := fifoWrite s.k reg value} where
  ring := fifoWriteRing d.ring reg value
  tail := d.tail
  kicked := by
    have kicked := d.kicked
    rw [if_pos outside] at kicked ⊢
    exact kicked
  cached := d.cached
  flushed := by
    simp only [fifoWrite, List.length_append]
    exact Nat.le_trans d.flushed (Nat.le_add_right ..)
  idle := d.idle
  short := by
    simp only [d.idle outside]
    exact Nat.le_add_right ..
  taken := by
    intro _
    have same := d.taken (Or.inl outside)
    have inside : s.consumed.length ≤ s.k.fifo.written.length := d.idle outside ▸ d.flushed
    simp only [fifoWrite]
    rw [List.take_append_of_le_length inside]
    exact same

theorem flushDelivering {s : Line} (d : Delivering s) (outside : s.pc = .outside) :
    Delivering {s with k := kickFifo s.k, pc := .test} where
  ring := d.ring
  tail := d.tail
  kicked := by
    simp only [kickHead]
    exact d.ring.head
  cached := d.cached
  flushed := d.flushed
  idle := fun outside => absurd outside testInside
  short := d.short
  taken := fun _ => d.taken (Or.inl outside)

theorem flushedConsumed {s : Line} (d : Delivering s) : s.flushedAt ≤ s.consumed.length := by
  obtain ⟨seen, low, high, _⟩ := d.cached
  exact Nat.le_trans low high

theorem bodyDelivering {s : Line} (d : Delivering s) (body : s.pc = .body) :
    Delivering {s with k := refreshTail s.k, pc := .test} where
  ring := ⟨d.ring.head, d.ring.latest⟩
  tail := d.tail
  kicked := by
    have kicked := d.kicked
    rw [if_neg (by rw [body]; exact bodyInside)] at kicked
    exact kicked
  cached := ⟨s.consumed.length, show s.flushedAt ≤ _ from flushedConsumed d, Nat.le_refl _, d.tail⟩
  flushed := d.flushed
  idle := fun outside => absurd outside testInside
  short := d.short
  taken := fun room => d.taken (room.imp_left fun outside => absurd outside testInside)

/- In a flush the device has something left exactly until it reaches the head. -/
theorem deviceRoom {s : Line} (d : Delivering s)
    (more : kReadReg s.k fifoTail ≠ kReadReg s.k fifoHead) :
    s.pc ≠ .outside ∧
      s.consumed.length + 1 ≤ s.flushedAt + (s.k.fifo.written.length - s.flushedAt) % 1024 := by
  have apart : (kReadReg s.k fifoTail).toNat ≠ (kReadReg s.k fifoHead).toNat :=
    fun same => more (BitVec.eq_of_toNat_eq same)
  rw [d.tail, d.kicked] at apart
  have inside : s.pc ≠ .outside := by
    intro outside
    rw [if_pos outside, d.idle outside] at apart
    exact apart rfl
  rw [if_neg inside] at apart
  have short := d.short
  have flushed := d.flushed
  exact ⟨inside, by omega⟩

theorem deviceDelivering {s : Line} (d : Delivering s)
    (more : kReadReg s.k fifoTail ≠ kReadReg s.k fifoHead) :
    Delivering {s with
      k := kWriteReg s.k fifoTail (advance (kReadReg s.k fifoTail)),
      consumed := s.consumed ++ [s.k.fifo.kBase (kReadReg s.k fifoTail).toNat]} := by
  obtain ⟨inside, room⟩ := deviceRoom d more
  have length : (s.consumed ++ [s.k.fifo.kBase (kReadReg s.k fifoTail).toNat]).length =
      s.consumed.length + 1 := by simp
  refine ⟨d.ring, ?_, ?_, ?_, d.flushed, fun outside => absurd outside inside, ?_, ?_⟩
  · rw [readWriteSame, length]; exact advanceSlot d.tail
  · rw [readWriteOther (by decide)]; exact d.kicked
  · obtain ⟨seen, low, high, cache⟩ := d.cached
    exact ⟨seen, low, by rw [length]; omega, cache⟩
  · rw [length]; exact room
  · intro fits
    have fits : s.k.fifo.written.length < s.flushedAt + 1024 := fits.resolve_left inside
    have flushed := d.flushed
    have before : s.consumed.length < s.k.fifo.written.length := by omega
    have entry : s.k.fifo.kBase (s.consumed.length % 1024) = s.k.fifo.written[s.consumed.length] := by
      apply d.ring.latest
      · have := flushedConsumed d
        omega
      · exact List.getElem?_eq_getElem before
    change s.consumed ++ _ = s.k.fifo.written.take (s.consumed ++ _).length
    rw [length, List.take_succ_eq_append_getElem before, ← d.taken (Or.inr fits), d.tail, entry]

/- A flush that finds the cached tail at the head has seen the device there. -/
theorem returnAgree {s : Line} (d : Delivering s)
    (caught : s.k.fifo.tailCache = s.k.fifo.head) :
    s.consumed = s.k.fifo.written ↔ s.k.fifo.written.length < s.flushedAt + 1024 := by
  obtain ⟨seen, low, high, cache⟩ := d.cached
  have short := d.short
  have flushed := d.flushed
  rw [caught, d.ring.head] at cache
  constructor
  · intro all
    have length := congrArg List.length all
    omega
  · intro fits
    have all : s.consumed.length = s.k.fifo.written.length := by omega
    have taken := d.taken (Or.inr fits)
    rw [all, List.take_length] at taken
    exact taken

theorem returnDelivering {s : Line} (d : Delivering s) (inside : s.pc ≠ .outside)
    (caught : s.k.fifo.tailCache = s.k.fifo.head) (all : s.consumed = s.k.fifo.written) :
    Delivering {s with pc := .outside, flushedAt := s.k.fifo.written.length} where
  ring := d.ring
  tail := d.tail
  kicked := by
    have kicked := d.kicked
    rw [if_neg inside] at kicked
    exact kicked
  cached := ⟨s.k.fifo.written.length, Nat.le_refl _, by rw [all], by rw [caught]; exact d.ring.head⟩
  flushed := Nat.le_refl _
  idle := fun _ => by rw [all]
  short := by rw [all]; exact Nat.le_add_right ..
  taken := fun _ => by rw [all, List.take_length]

theorem testCases {s t : Line} (taken : step s .test = some t) :
    s.pc = .test ∧
    ((s.k.fifo.tailCache ≠ s.k.fifo.head ∧ t = {s with pc := .body}) ∨
      (s.k.fifo.tailCache = s.k.fifo.head ∧
        t = {s with pc := .outside, flushedAt := s.k.fifo.written.length})) := by
  simp only [step] at taken
  split at taken <;> try contradiction
  rename_i testing
  refine ⟨testing, ?_⟩
  split at taken
  · rename_i waits
    cases Option.some.inj taken
    exact Or.inl ⟨by simpa [flushWaits] using waits, rfl⟩
  · rename_i returns
    cases Option.some.inj taken
    exact Or.inr ⟨by simpa [flushWaits] using returns, rfl⟩

theorem stepDelivering {s t : Line} {op : Op} (d : Delivering s) (taken : step s op = some t)
    (delivers : FlushDelivers s op t) : Delivering t := by
  cases op with
  | fifoQueue entry =>
    simp only [step] at taken
    split at taken <;> try contradiction
    rename_i outside
    cases Option.some.inj taken
    exact queueDelivering d outside entry.command entry.value
  | fifoFlush =>
    simp only [step] at taken
    split at taken <;> try contradiction
    rename_i outside
    cases Option.some.inj taken
    exact flushDelivering d outside
  | test =>
    obtain ⟨testing, ⟨_, rfl⟩ | ⟨caught, rfl⟩⟩ := testCases taken
    · have kicked := d.kicked
      rw [if_neg (by rw [testing]; exact testInside)] at kicked
      exact ⟨d.ring, d.tail, kicked, d.cached, d.flushed, fun outside => absurd outside bodyInside,
        d.short, fun room => d.taken (room.imp_left fun outside => absurd outside bodyInside)⟩
    · exact returnDelivering d (by rw [testing]; exact testInside) caught (delivers rfl rfl)
  | body =>
    simp only [step] at taken
    split at taken <;> try contradiction
    rename_i body
    cases Option.some.inj taken
    exact bodyDelivering d body
  | device =>
    obtain ⟨⟨entry, k⟩, next, rfl⟩ := Option.map_eq_some_iff.mp taken
    obtain ⟨more, rfl, rfl⟩ := deviceExact next
    exact deviceDelivering d more

theorem stepAgree {s t : Line} {op : Op} (d : Delivering s) (taken : step s op = some t) :
    FlushDelivers s op t ↔ LessThanRing s op t := by
  by_cases testing : op = .test
  · subst testing
    obtain ⟨_, ⟨_, rfl⟩ | ⟨caught, rfl⟩⟩ := testCases taken
    · exact ⟨fun _ _ outside => absurd outside bodyInside, fun _ _ outside => absurd outside bodyInside⟩
    · have agree := returnAgree d caught
      exact ⟨fun delivers _ _ => agree.mp (delivers rfl rfl), fun fits _ _ => agree.mpr (fits rfl rfl)⟩
  · exact ⟨fun _ same => absurd same testing, fun _ same => absurd same testing⟩

/- A device that is given a ring forgets how far it was kicked in the one before: the driver
leaves that to it. -/
theorem everyFlushDeliversIff (s : Kyouko3) (pBase : BitVec 64) (memory : Nat → FifoEntry) (head : BitVec 32)
    (restarted : head = 0) (ops : List Op) :
    EachStep step FlushDelivers (initial s pBase memory head) ops ↔
      EachStep step LessThanRing (initial s pBase memory head) ops :=
  eachStepIff (fun _ _ _ => stepAgree) (fun _ _ _ => stepDelivering) (initialDelivering s pBase memory restarted)

def twoThenFlush : List Op :=
  [.fifoQueue ⟨0x3000, 1⟩, .fifoQueue ⟨0x3FFC, 0⟩, .fifoFlush, .test, .device, .body, .test, .device, .body, .test]

theorem twoDelivered : (exec step (initial coldKyouko 0 coldMemory 0) twoThenFlush).isSome = true ∧
    EachStep step FlushDelivers (initial coldKyouko 0 coldMemory 0) twoThenFlush := by
  refine ⟨by decide, ?_⟩
  apply (everyFlushDeliversIff coldKyouko 0 coldMemory 0 rfl twoThenFlush).mpr
  decide +kernel

/- Queueing moves nothing but the ring. -/
theorem queueMany (n : Nat) (entry : FifoEntry) {s : Line} (outside : s.pc = .outside) :
    ∃ k, exec step s (List.replicate n (.fifoQueue entry)) = some {s with k := k} ∧
      k.fifo.tailCache = s.k.fifo.tailCache ∧
      k.fifo.written.length = s.k.fifo.written.length + n := by
  induction n generalizing s with
  | zero => exact ⟨s.k, rfl, rfl, rfl⟩
  | succ n ih =>
    have taken : step s (.fifoQueue entry) =
        some {s with k := fifoWrite s.k entry.command entry.value} := if_pos outside
    obtain ⟨k, ran, cache, length⟩ :=
      ih (s := {s with k := fifoWrite s.k entry.command entry.value}) outside
    refine ⟨k, ?_, cache, ?_⟩
    · rw [List.replicate_succ, execCons taken]; exact ran
    · rw [length]
      simp only [fifoWrite, List.length_append, List.length_singleton]
      omega

def ringfulThenFlush : List Op :=
  List.replicate 1024 (.fifoQueue ⟨0x3FFC, 0⟩) ++ [.fifoFlush, .test]

/- The head is back where the tail is, so the flush finds nothing to wait for. -/
theorem ringfulNotDelivered :
    ¬ EachStep step FlushDelivers (initial coldKyouko 0 coldMemory 0) ringfulThenFlush := by
  intro each
  obtain ⟨k, ran, cache, length⟩ := queueMany 1024 ⟨0x3FFC, 0⟩ (s := initial coldKyouko 0 coldMemory 0) rfl
  have states := eachStateOfInvariant (fun _ _ _ => stepDelivering) (fun _ d => d)
    (initialDelivering coldKyouko 0 coldMemory rfl) each
  have d := eachStateAt states ran
  let flushing : Line := ⟨kickFifo k, .test, [], 0⟩
  have reached : exec step (initial coldKyouko 0 coldMemory 0)
      (List.replicate 1024 (.fifoQueue ⟨0x3FFC, 0⟩) ++ [.fifoFlush]) = some flushing := by
    rw [execAppend, ran]; rfl
  have none : k.fifo.written.length = 1024 := by rw [length]; exact Nat.zero_add 1024
  have back : k.fifo.head = 0 := by
    apply BitVec.eq_of_toNat_eq
    rw [d.ring.head, none]; rfl
  have returned : step flushing .test = some {flushing with pc := .outside, flushedAt := k.fifo.written.length} := by
    have waits : flushWaits (kickFifo k) = false := by
      simp only [flushWaits, kickFifo, kWriteReg, back, cache]; rfl
    simp only [step, flushing, waits]; rfl
  have delivers := eachStepLast (by rw [List.append_assoc]; exact each) reached returned
  have all : [] = k.fifo.written := delivers rfl rfl
  rw [← all, List.length_nil] at none
  exact absurd none (by decide)

end KernelLabs.FifoDelivery
