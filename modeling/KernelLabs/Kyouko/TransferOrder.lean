import KernelLabs.Kyouko.DmaRing

/-! Transfers are issued in the order submitted as long as handlers and calls keep apart,
an interrupt finds one to issue and a call finds a slot that is not waiting. The driver
checks none of it. -/
namespace KernelLabs.TransferOrder
open Kyouko Buffer Runs Statements DmaRing

def issued (s : Machine) : List Transfer := transfersIn s.cpus.k.fifo.written

def InOrder (s : Machine) : Prop := issued s <+: s.submitted

/- An interrupt finds a transfer submitted and not issued, and a call finds less than a
ringful of them; neither comes between the statements of the other. -/
def SlotsReady (s : Machine) (op : Op) (_ : Machine) : Prop :=
  KeptApart s op ∧
  match op with
  | .startDma _ _ => s.submitted.length < (issued s).length + numBufs.toNat
  | .interrupt _ => (issued s).length < s.submitted.length
  | _ => True
instance : (s : Machine) → (op : Op) → (t : Machine) → Decidable (SlotsReady s op t)
  | _, .startDma .., _ => inferInstanceAs (Decidable (_ ∧ _ < _))
  | _, .interrupt _, _ => inferInstanceAs (Decidable (_ ∧ _ < _))
  | _, .run _, _ | _, .signal _, _ => inferInstanceAs (Decidable (_ ∧ True))

/- Slots are positions in the order of submission. The first transfer takes the direct
path; from then on the drain stays on the last one issued. -/
structure Issues (base : Nat → BitVec 64) (r : BufferRing) (submitted : List Transfer) (count : Nat) : Prop where
  written : r.written = (submitted.take count).flatMap transferEntries
  le : count ≤ submitted.length
  near : submitted.length ≤ count + 8
  begun : count = 0 → submitted.length = 0
  fill : r.fill.toNat = submitted.length % 8
  drain : r.drain.toNat = (count - 1) % 8
  full : r.isFull = decide (count + 7 ≤ submitted.length)
  bound : ∀ i, i < 8 → (r.dmabuffs i).pBase = base i
  slots : Window r.transferAt 8 submitted count
  low : ∀ t ∈ submitted, t.1.toNat < 2 ^ 32

section Step
variable {base : Nat → BitVec 64} {r : BufferRing} {submitted : List Transfer} {count : Nat}

theorem issuedTake (issues : Issues base r submitted count) : transfersIn r.written = submitted.take count := by
  rw [issues.written]
  exact transfersBack fun t mem => issues.low t (List.mem_of_mem_take mem)

theorem issuedLength (issues : Issues base r submitted count) : (transfersIn r.written).length = count := by
  rw [issuedTake issues, List.length_take]
  exact Nat.min_eq_left issues.le

theorem fillBelow (issues : Issues base r submitted count) : r.fillSlot < 8 := by
  rw [BufferRing.fillSlot, issues.fill]
  exact Nat.mod_lt _ (by decide)

theorem submittedLow (low : ∀ i, (base i).toNat < 2 ^ 32) (issues : Issues base r submitted count)
    (cmdCount : BitVec 32) :
    ∀ t ∈ submitted ++ [((r.dmabuffs r.fillSlot).pBase, cmdCount)], t.1.toNat < 2 ^ 32 := by
  intro t mem
  rcases List.mem_append.mp mem with before | last
  · exact issues.low t before
  · cases List.mem_singleton.mp last
    rw [issues.bound _ (fillBelow issues)]
    exact low _

/- The direct path is taken by the first call and by no other. -/
theorem directIff (issues : Issues base r submitted count) :
    r.direct = true ↔ submitted.length = 0 ∧ count = 0 := by
  simp only [BufferRing.direct, Bool.and_eq_true, beq_iff_eq, slotEq issues.fill issues.drain,
    issues.full, Bool.not_eq_true', decide_eq_false_iff_not]
  have le := issues.le
  have begun := issues.begun
  omega

theorem directIssues (low : ∀ i, (base i).toNat < 2 ^ 32) (issues : Issues base r submitted count)
    (direct : r.direct = true) (cmdCount : BitVec 32) :
    Issues base (r.submit cmdCount) (submitted ++ [((r.dmabuffs r.fillSlot).pBase, cmdCount)]) 1 := by
  obtain ⟨none, rfl⟩ := (directIff issues).mp direct
  have start : r.written = [] := by rw [issues.written]; rfl
  have lows := submittedLow low issues cmdCount
  have empty : submitted = [] := List.length_eq_zero_iff.mp none
  subst empty
  rw [BufferRing.submit, if_pos direct]
  refine ⟨?_, Nat.le_refl _, Nat.le_add_right .., fun zero => absurd zero (by decide), ?_, issues.drain, ?_,
    issues.bound, ?_, lows⟩
  · simp only [start]; rfl
  · exact bufferSlot issues.fill
  · exact issues.full
  · intro n x late found
    rw [List.getElem?_eq_none late] at found
    contradiction

theorem queuedIssues (low : ∀ i, (base i).toNat < 2 ^ 32) (issues : Issues base r submitted count)
    (queued : r.direct = false) (room : submitted.length < count + 8) (cmdCount : BitVec 32) :
    Issues base (r.submit cmdCount) (submitted ++ [((r.dmabuffs r.fillSlot).pBase, cmdCount)]) count := by
  have next := bufferSlot issues.fill
  have le := issues.le
  have begun : count ≠ 0 := by
    intro zero
    rw [(directIff issues).mpr ⟨issues.begun zero, zero⟩] at queued
    contradiction
  have length : (submitted ++ [((r.dmabuffs r.fillSlot).pBase, cmdCount)]).length = submitted.length + 1 := by simp
  rw [BufferRing.submit, if_neg (by rw [queued]; decide)]
  refine ⟨?_, ?_, ?_, fun zero => absurd zero begun, ?_, issues.drain, ?_, ?_, ?_, submittedLow low issues cmdCount⟩
  · rw [issues.written, List.take_append_of_le_length le]
  · rw [length]; omega
  · rw [length]; omega
  · rw [length]; exact next
  · rw [length]
    simp only [issues.full, slotEq next issues.drain]
    split
    · exact (decide_eq_true (by omega)).symm
    · exact decide_eq_decide.mpr (by omega)
  · intro i inside
    rw [← issues.bound i inside]
    change (store r.dmabuffs r.fillSlot _ i).pBase = _
    unfold store
    split
    · rename_i here
      rw [here]
    · rfl
  · have moved : (fun i => ((store r.dmabuffs r.fillSlot ⟨(r.dmabuffs r.fillSlot).pBase, cmdCount⟩ i).pBase,
        (store r.dmabuffs r.fillSlot ⟨(r.dmabuffs r.fillSlot).pBase, cmdCount⟩ i).cmdCount)) =
        store r.transferAt (submitted.length % 8) ((r.dmabuffs r.fillSlot).pBase, cmdCount) := by
      have slot : submitted.length % 8 = r.fillSlot := issues.fill.symm
      funext i
      rw [slot]
      by_cases here : i = r.fillSlot
      · subst here
        simp only [storeSame]
      · simp only [storeOther here]
        rfl
    have window := windowStore issues.slots room ((r.dmabuffs r.fillSlot).pBase, cmdCount)
    rw [← moved] at window
    exact window

theorem completeIssues (issues : Issues base r submitted count) (work : count < submitted.length)
    (inflight : List Bool) : Issues base {r with inflight := inflight}.complete submitted (count + 1) := by
  have begun : count ≠ 0 := by
    intro zero
    have := issues.begun zero
    omega
  have next : ((r.drain + 1) % numBufs).toNat = count % 8 := by
    rw [bufferSlot issues.drain]
    omega
  have entry : r.transferAt r.issueSlot = submitted[count] := by
    rw [BufferRing.issueSlot, next]
    exact issues.slots count _ (Nat.le_refl _) (List.getElem?_eq_getElem work)
  have near := issues.near
  refine ⟨?_, work, by omega, fun zero => absurd zero (Nat.succ_ne_zero count), issues.fill, ?_, ?_,
    issues.bound, windowLater issues.slots (Nat.le_succ count), issues.low⟩
  · change r.written ++ transferEntries (r.transferAt r.issueSlot) = _
    rw [issues.written, List.take_succ_eq_append_getElem work, List.flatMap_append, entry]
    simp
  · exact next
  · change (if r.fill ≠ (r.drain + 1) % numBufs then false else r.isFull) = _
    rw [issues.full]
    simp only [ne_eq, slotEq issues.fill next]
    split
    · exact (decide_eq_false (by omega)).symm
    · exact decide_eq_decide.mpr (by omega)

end Step

/- The invariant is that of the ring as it will be when what has begun is through. -/
structure Ordered (base : Nat → BitVec 64) (s : Machine) : Prop where
  tidy : Tidy s.cpus
  issues : ∃ count, Issues base (settled s) s.submitted count

theorem stepOrdered {base : Nat → BitVec 64} (low : ∀ i, (base i).toNat < 2 ^ 32) {s t : Machine} {op : Op}
    (ordered : Ordered base s) (taken : step s op = some t) (ready : SlotsReady s op t) : Ordered base t := by
  obtain ⟨tidy, count, issues⟩ := ordered
  obtain ⟨tidy', settles⟩ := stepSettles tidy taken ready.1
  refine ⟨tidy', ?_⟩
  cases op with
  | startDma thread cmdCount =>
    obtain ⟨here, submits, _, submitted⟩ := settles
    have room : s.submitted.length < count + 8 := by
      rw [← issuedLength issues, here]; exact ready.2
    rw [submits, submitted, ← here]
    cases path : (settled s).direct with
    | true => exact ⟨1, directIssues low issues path cmdCount⟩
    | false => exact ⟨count, queuedIssues low issues path room cmdCount⟩
  | interrupt status =>
    obtain ⟨accepted, rest, _, here, completes, _, submitted⟩ := settles
    have work : count < s.submitted.length := by
      rw [← issuedLength issues, here]; exact ready.2
    rw [completes, submitted]
    exact ⟨count + 1, completeIssues issues work rest⟩
  | run | signal =>
    obtain ⟨same, _, submitted⟩ := settles
    rw [same, submitted]
    exact ⟨count, issues⟩

theorem orderedInOrder {base : Nat → BitVec 64} {s : Machine} (ordered : Ordered base s) : InOrder s := by
  obtain ⟨_, count, issues⟩ := ordered
  have cut : s.cpus.k.fifo.written <+: (s.submitted.take count).flatMap transferEntries := by
    rw [← issues.written]
    exact settledWritten s
  have first := transfersCut (fun t mem => issues.low t (List.mem_of_mem_take mem)) cut
  exact first.trans (List.take_prefix ..)

theorem initialOrdered (control : Nat → BitVec 32) (pBase : BitVec 64) (memory : Nat → FifoEntry) (head : BitVec 32)
    (dmaBase : Nat → BitVec 64) : Ordered dmaBase (initial control pBase memory head dmaBase) := by
  refine ⟨idleTidy _, 0, rfl, Nat.le_refl _, Nat.zero_le _, fun _ => rfl, rfl, rfl, rfl, ?_, ?_, ?_⟩
  · intro i inside
    exact congrArg KDmabuff.pBase (if_pos inside)
  · intro n x _ found
    simp [initial] at found
  · intro t mem
    simp [initial] at mem

/- `pci_alloc_consistent` hands out 32-bit addresses unless a driver asks for wider ones. -/
theorem transfersInOrder (control : Nat → BitVec 32) (pBase : BitVec 64) (memory : Nat → FifoEntry)
    (head : BitVec 32) (dmaBase : Nat → BitVec 64) (low : ∀ i, (dmaBase i).toNat < 2 ^ 32) (ops : List Op)
    (ready : EachStep step SlotsReady (initial control pBase memory head dmaBase) ops) :
    EachState step InOrder (initial control pBase memory head dmaBase) ops :=
  eachStateOfInvariant (fun _ _ _ => stepOrdered low) (fun _ => orderedInOrder)
    (initialOrdered control pBase memory head dmaBase) ready

theorem twoInOrder : EachState step InOrder coldRing twoThenInterrupt := by
  apply transfersInOrder
  · intro i
    simp only [coldBase, BitVec.toNat_ofNat]
    omega
  · decide +kernel

def firstThenInterrupt : List Op := directCall 0 1801 ++ alone (.interrupt 2) .handler 17

/- The buffer after the only one submitted is handed to the device. -/
theorem emptyRingIssues : ¬ EachState step InOrder coldRing firstThenInterrupt := by
  intro each
  have ran : (exec step coldRing firstThenInterrupt).map (fun s => (issued s, s.submitted)) =
      some ([(0, 1801), (0x20000, 0)], [(0, 1801)]) := by decide +kernel
  obtain ⟨s, reached, lists⟩ := Option.map_eq_some_iff.mp ran
  have last := eachStateLast each reached
  obtain ⟨handed, submitted⟩ := Prod.mk.inj lists
  rw [InOrder, handed, submitted] at last
  exact absurd last (by decide)

end KernelLabs.TransferOrder
