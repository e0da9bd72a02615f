import KernelLabs.Kyouko.DmaRing

/-! The DMA ring stays within its eight buffers as long as handlers and calls keep apart, no
call gets the lock while the ring is full, awake or not, and none takes the direct path over
a transfer the device still has. The wait of a full ring comes after the slot is taken, so it
prevents none of it. -/
namespace KernelLabs.DmaOverrun
open Kyouko Buffer Runs Statements DmaRing

/- The handler has moved the drain and has not come to the end, where it clears the flag. -/
def drainMoved : List Stmt → Bool
  | [] | .status :: _ | .clear :: _ | .mask _ :: _ | .drain :: _ => false
  | _ => true

/- Accepted and not completed is at most a ringful, and but for that stretch of the handler
the flag describes the ring. -/
def WithinRing (s : Machine) : Prop :=
  s.submitted.length ≤ s.completed + numBufs.toNat ∧
    (drainMoved s.cpus.handler = false → s.cpus.k.isFull = true → s.cpus.k.dmaFill = s.cpus.k.dmaDrain)

/- A call that stores its count stores it over no transfer that is still to be issued. -/
def NoOverwrite (s : Machine) (op : Op) (_ : Machine) : Prop :=
  ∀ thread cmdCount rest, op = .run (.thread thread) → s.cpus.code thread = .count cmdCount :: rest →
    fillSlot s.cpus.k ∉ s.waiting

def EntersFree (s : Machine) (op : Op) (_ : Machine) : Prop :=
  KeptApart s op ∧
  match op with
  | .startDma _ _ => s.cpus.k.isFull = false ∧ (takesDirectPath s.cpus.k = true → s.inflight = [])
  | _ => True
instance : (s : Machine) → (op : Op) → (t : Machine) → Decidable (EntersFree s op t)
  | _, .startDma .., _ => inferInstanceAs (Decidable (_ ∧ _ ∧ (_ → _)))
  | _, .interrupt _, _ | _, .run _, _ | _, .signal _, _ => inferInstanceAs (Decidable (_ ∧ True))

/- The slots of the last `len` submissions. -/
def lastSlots (total len : Nat) : List Nat := (List.range' (total - len) len).map (· % 8)

/- `used` slots lie from the drain to the fill, the first of them the one that was issued
last; the waiting ones are the latest of the others. -/
structure Occupied (r : BufferRing) (total used len : Nat) : Prop where
  fill : r.fill.toNat = total % 8
  drain : r.drain.toNat = (total + 8 - used) % 8
  most : used ≤ 8
  full : r.isFull = decide (used = 8)
  inside : len + 1 ≤ used ∨ len = 0
  fits : len ≤ total

theorem lastSlotsSnoc {total len : Nat} (fits : len ≤ total) :
    lastSlots (total + 1) (len + 1) = lastSlots total len ++ [total % 8] := by
  unfold lastSlots
  rw [Nat.add_sub_add_right, List.range'_concat, List.map_append]
  simp [Nat.sub_add_cancel fits]

theorem lastSlotsCons {total len : Nat} (fits : len + 1 ≤ total) :
    lastSlots total (len + 1) = (total - (len + 1)) % 8 :: lastSlots total len := by
  have next : total - (len + 1) + 1 = total - len := by omega
  rw [lastSlots, List.range'_succ, List.map_cons, next, lastSlots]

/- Fewer than eight back, a slot from further back is another one. -/
theorem notLast {total len used : Nat} (fits : len ≤ total) (inside : len < used) (most : used ≤ 8) :
    (total + 8 - used) % 8 ∉ lastSlots total len := by
  intro mem
  obtain ⟨n, range, same⟩ := List.mem_map.mp mem
  have bounds := List.mem_range'_1.mp range
  omega

section Step
variable {r : BufferRing} {total used len : Nat}

theorem sameSlotIff (occupied : Occupied r total used len) :
    r.fill = r.drain ↔ used = 0 ∨ used = 8 := by
  rw [slotEq occupied.fill occupied.drain]
  have most := occupied.most
  omega

theorem occupiedDirectIff (occupied : Occupied r total used len) :
    r.direct = true ↔ used = 0 := by
  simp only [BufferRing.direct, Bool.and_eq_true, beq_iff_eq, sameSlotIff occupied, occupied.full,
    Bool.not_eq_true', decide_eq_false_iff_not]
  omega

theorem directOccupied (occupied : Occupied r total used len) (direct : r.direct = true)
    (cmdCount : BitVec 32) : len = 0 ∧ Occupied (r.submit cmdCount) (total + 1) 1 0 := by
  have empty := (occupiedDirectIff occupied).mp direct
  subst empty
  have inside := occupied.inside
  rw [BufferRing.submit, if_pos direct]
  refine ⟨by omega, bufferSlot occupied.fill, ?_, by decide, occupied.full, Or.inr rfl, Nat.zero_le _⟩
  change r.drain.toNat = _
  rw [occupied.drain]
  omega

theorem queuedOccupied (occupied : Occupied r total used len) (queued : r.direct = false)
    (free : r.isFull = false) (cmdCount : BitVec 32) :
    total % 8 ∉ lastSlots total len ∧
      Occupied (r.submit cmdCount) (total + 1) (used + 1) (len + 1) := by
  have next := bufferSlot occupied.fill
  have some : used ≠ 0 := by
    intro none
    rw [(occupiedDirectIff occupied).mpr none] at queued
    contradiction
  have notFull : used ≠ 8 := by
    have full := occupied.full
    rw [free] at full
    exact of_decide_eq_false full.symm
  have most := occupied.most
  have inside := occupied.inside
  have fits := occupied.fits
  constructor
  · have apart := notLast fits (show len < 8 by omega) (Nat.le_refl 8)
    rw [Nat.add_sub_cancel] at apart
    exact apart
  · rw [BufferRing.submit, if_neg (by rw [queued]; decide)]
    refine ⟨next, ?_, by omega, ?_, Or.inl (by omega), by omega⟩
    · change r.drain.toNat = _
      rw [occupied.drain]
      congr 1
      omega
    · simp only [free, slotEq next occupied.drain]
      split
      · exact (decide_eq_true (by omega)).symm
      · exact (decide_eq_false (by omega)).symm

/- What an interrupt leaves occupied: the ring of an idle device looks nearly full. -/
def usedAfter (used : Nat) : Nat := if used = 0 then 7 else used - 1

theorem issueSlotAt (occupied : Occupied r total used len) :
    r.issueSlot = (total + 8 - usedAfter used) % 8 := by
  rw [BufferRing.issueSlot, bufferSlot occupied.drain, usedAfter]
  have most := occupied.most
  split
  · omega
  · congr 1
    omega

theorem interruptWaiting (occupied : Occupied r total used len) :
    ∃ left, (lastSlots total len).erase (r.issueSlot) = lastSlots total left ∧
      len = left + (decide (r.issueSlot ∈ lastSlots total len)).toNat ∧
      (left + 1 ≤ usedAfter used ∨ left = 0) := by
  rw [issueSlotAt occupied]
  have most := occupied.most
  have fits := occupied.fits
  cases len with
  | zero => exact ⟨0, rfl, rfl, Or.inr rfl⟩
  | succ len =>
    have inside : len + 2 ≤ used := by
      have := occupied.inside
      omega
    have after : usedAfter used = used - 1 := if_neg (by omega)
    rw [after]
    rcases Nat.eq_or_lt_of_le inside with last | more
    · -- every slot but the one issued last is waiting: its neighbour is the oldest
      have first : (total + 8 - (used - 1)) % 8 = (total - (len + 1)) % 8 := by omega
      have member : (total - (len + 1)) % 8 ∈ lastSlots total (len + 1) := by
        rw [lastSlotsCons fits]; exact List.mem_cons_self
      rw [first]
      refine ⟨len, ?_, ?_, Or.inl (by omega)⟩
      · rw [lastSlotsCons fits, List.erase_cons_head]
      · rw [decide_eq_true member]; rfl
    · have apart := notLast fits (show len + 1 < used - 1 by omega) (by omega)
      refine ⟨len + 1, List.erase_of_not_mem apart, ?_, Or.inl (by omega)⟩
      rw [decide_eq_false apart]; rfl

theorem completeOccupied (occupied : Occupied r total used len) (inflight : List Bool) {left : Nat}
    (fewer : left ≤ len) (inside : left + 1 ≤ usedAfter used ∨ left = 0) :
    Occupied {r with inflight := inflight}.complete total (usedAfter used) left := by
  have next : ((r.drain + 1) % numBufs).toNat = (total + 8 - usedAfter used) % 8 :=
    issueSlotAt occupied
  have most := occupied.most
  have after : usedAfter used ≤ 7 := by
    unfold usedAfter
    split <;> omega
  refine ⟨occupied.fill, next, by omega, ?_, inside, Nat.le_trans fewer occupied.fits⟩
  have notFull : decide (usedAfter used = 8) = false := decide_eq_false (by omega)
  change (if r.fill ≠ (r.drain + 1) % numBufs then false else r.isFull) = _
  rw [occupied.full, notFull]
  simp only [ne_eq, slotEq occupied.fill next]
  split
  · rfl
  · rename_i same
    rw [not_not] at same
    unfold usedAfter at same
    exact decide_eq_false (by split at same <;> omega)

end Step

/- The device has at most one transfer, and every accepted one is with it, waiting or
completed. -/
structure Counted (r : BufferRing) (total completed used len : Nat) : Prop where
  occupied : Occupied r total used len
  waiting : r.waiting = lastSlots total len
  accounts : total = completed + r.inflight.count true + len
  single : r.inflight.length ≤ 1

def SomeCounted (r : BufferRing) (total completed : Nat) : Prop := ∃ used len, Counted r total completed used len

theorem submitCounted {r : BufferRing} {total completed : Nat} (counted : SomeCounted r total completed)
    (cmdCount : BitVec 32) (free : r.isFull = false) (alone : r.direct = true → r.inflight = []) :
    SomeCounted (r.submit cmdCount) (total + 1) completed := by
  obtain ⟨used, len, counted⟩ := counted
  have accounts := counted.accounts
  cases path : r.direct with
  | true =>
    obtain ⟨rfl, occupied⟩ := directOccupied counted.occupied path cmdCount
    have none := alone path
    refine ⟨1, 0, occupied, ?_, ?_, ?_⟩
    · rw [BufferRing.submit, if_pos path]
      exact counted.waiting
    · rw [BufferRing.submit, if_pos path]
      simp only [none, accounts, List.nil_append, List.count_nil, List.count_singleton_self]
    · rw [BufferRing.submit, if_pos path]
      simp [none]
  | false =>
    obtain ⟨_, occupied⟩ := queuedOccupied counted.occupied path free cmdCount
    refine ⟨used + 1, len + 1, occupied, ?_, ?_, ?_⟩
    · rw [BufferRing.submit, if_neg (by rw [path]; decide), lastSlotsSnoc counted.occupied.fits]
      change r.waiting ++ [r.fillSlot] = _
      rw [counted.waiting, BufferRing.fillSlot, counted.occupied.fill]
    · rw [BufferRing.submit, if_neg (by rw [path]; decide)]
      change total + 1 = completed + r.inflight.count true + (len + 1)
      omega
    · rw [BufferRing.submit, if_neg (by rw [path]; decide)]
      exact counted.single

theorem completeCounted {r : BufferRing} {total completed : Nat} (counted : SomeCounted r total completed)
    {accepted : Bool} {rest : List Bool} (inflight : r.inflight = accepted :: rest) :
    SomeCounted {r with inflight := rest}.complete total (completed + accepted.toNat) := by
  obtain ⟨used, len, counted⟩ := counted
  obtain ⟨left, erased, fewer, inside⟩ := interruptWaiting counted.occupied
  have single := counted.single
  have accounts := counted.accounts
  rw [inflight] at single accounts
  have none : rest = [] := List.eq_nil_of_length_eq_zero (by simpa using single)
  subst none
  refine ⟨usedAfter used, left, completeOccupied counted.occupied [] (by omega) inside, ?_, ?_, Nat.le_refl _⟩
  · change r.waiting.erase r.issueSlot = _
    rw [counted.waiting, erased]
  · change total = completed + accepted.toNat + List.count true [decide (r.issueSlot ∈ r.waiting)] + left
    rw [counted.waiting]
    cases accepted <;> cases member : decide (r.issueSlot ∈ lastSlots total len) <;>
      simp only [member, Bool.toNat_true, Bool.toNat_false] at fewer accounts ⊢ <;>
      simp at accounts ⊢ <;> omega

def setsFull : List Stmt → Bool
  | .setFull :: _ => true
  | _ => false

/- A call that has the lock sets the flag last, and over a full ring. -/
def Shown (r : BufferRing) (left : List Stmt) : Prop :=
  (r.isFull = true → r.fill = r.drain ∧ ∃ direct, left = [.unlock direct]) ∧ (setsFull left = true → r.fill = r.drain)

def late : Stmt → Bool
  | .write .. | .kick | .storeHead _ | .drainAddress | .drainConfig | .testEmpty | .clearFull => true
  | _ => false

/- What a handler may have left to execute: it moves the drain once. -/
inductive Handling : List Stmt → Prop where
  | status : Handling [.status]
  | clear (iflags : BitVec 32) : Handling [.clear, .mask iflags]
  | mask (iflags : BitVec 32) : Handling [.mask iflags]
  | drain {rest : List Stmt} (later : rest.all late = true) : Handling (.drain :: rest)
  | later {left : List Stmt} (all : left.all late = true) : Handling left

/- Until it moves the drain a handler leaves the flag as it found it. -/
structure Early (c : Cpus) : Prop where
  handling : Handling c.handler
  shown : c.handler ≠ [] → drainMoved c.handler = false → c.k.isFull = true → c.k.dmaFill = c.k.dmaDrain

structure Within (s : Machine) : Prop where
  tidy : Tidy s.cpus
  counted : SomeCounted (settled s) s.submitted.length s.completed
  shown : ∀ n, s.cpus.holder = some n → Shown (view s) (s.cpus.code n)
  early : Early s.cpus

theorem clearShown {r : BufferRing} {left : List Stmt} (clear : r.isFull = false) (later : setsFull left = false) :
    Shown r left := by
  refine ⟨fun full => ?_, fun here => ?_⟩
  · rw [clear] at full
    contradiction
  · rw [later] at here
    contradiction

theorem sectionShown (s : Machine) {stmt : Stmt} {rest : List Stmt} (inside : Section (stmt :: rest))
    (locked : stmt.isUnlock = false) (shown : Shown (view s) (stmt :: rest)) :
    Shown (view (after s stmt)) ((execStmt s.cpus.k stmt).1 ++ rest) := by
  have clear : (view s).isFull = false := by
    refine Bool.eq_false_iff.mpr fun full => ?_
    obtain ⟨direct, last⟩ := (shown.1 full).2
    cases last
    contradiction
  cases inside with
  | choose cmdCount =>
    refine clearShown clear ?_
    rw [execStmt]
    dsimp only
    split <;> rfl
  | address | config | fillDirect | count | fillQueued => exact clearShown clear rfl
  | writeAddress pc entry cmdCount | writeConfig pc entry =>
    have kept : (view (after s (.write pc entry))).isFull = (view s).isFull := by cases pc <;> rfl
    refine clearShown (kept.trans clear) ?_
    rcases writeNext s.cpus.k pc entry with finished | ⟨pc', going⟩
    · rw [finished]; rfl
    · rw [going]; rfl
  | testFull =>
    rw [execStmt]
    dsimp only
    split
    · rename_i same
      refine ⟨fun full => ?_, fun _ => same⟩
      exact absurd (clear.symm.trans full) Bool.false_ne_true
    · exact clearShown clear rfl
  | setFull =>
    have same := shown.2 rfl
    exact ⟨fun _ => ⟨same, false, rfl⟩, fun _ => same⟩
  | unlock => contradiction

theorem runShown {s t : Machine} {actor : Actor} (within : Within s) (taken : step s (.run actor) = some t)
    (n : Nat) (holds : t.cpus.holder = some n) : Shown (view t) (t.cpus.code n) := by
  by_cases own : ∃ m, actor = .thread m ∧ s.cpus.holder ≠ some m
  · obtain ⟨m, rfl, other⟩ := own
    obtain ⟨moves, _⟩ := otherMoves within.tidy other taken
    rw [moves.holder] at holds
    rw [moves.view, moves.kept holds]
    exact within.shown n holds
  · obtain ⟨⟨stmt, cpus⟩, next, rfl⟩ := Option.map_eq_some_iff.mp taken
    obtain ⟨rest, left, _, rfl⟩ := nextExact next
    cases locked : stmt.isUnlock with
    | true =>
      simp only [gotoHolder, locked, if_true] at holds
      contradiction
    | false =>
      simp only [gotoHolder, locked, Bool.false_eq_true, if_false] at holds
      cases actor with
      | handler =>
        change s.cpus.handler = stmt :: rest at left
        rw [within.tidy.apart (by rw [holds]; exact Option.some_ne_none n)] at left
        contradiction
      | thread m =>
        have here : s.cpus.holder = some m := by
          by_contra other
          exact own ⟨m, rfl, other⟩
        rw [here] at holds
        cases Option.some.inj holds
        change s.cpus.code n = stmt :: rest at left
        have inside := within.tidy.held n here
        have shown := within.shown n here
        rw [left] at inside shown
        simp only [Cpus.goto, storeSame]
        exact sectionShown s inside locked shown

theorem lateExec {stmt : Stmt} (here : late stmt = true) (k : Kyouko3) : (execStmt k stmt).1.all late = true := by
  cases stmt with
  | write pc entry =>
    rcases writeNext k pc entry with finished | ⟨pc', going⟩
    · rw [finished]; rfl
    · rw [going]; rfl
  | testEmpty =>
    rw [execStmt]
    dsimp only
    split <;> rfl
  | kick | storeHead | drainAddress | drainConfig | clearFull => rfl
  | _ => exact absurd here Bool.false_ne_true

theorem laterMoved {left : List Stmt} (all : left.all late = true) (going : left ≠ []) : drainMoved left = true := by
  cases left with
  | nil => contradiction
  | cons stmt rest =>
    have here : late stmt = true := (Bool.and_eq_true_iff.mp all).1
    cases stmt with
    | write | kick | storeHead | drainAddress | drainConfig | testEmpty | clearFull => rfl
    | _ => exact absurd here Bool.false_ne_true

theorem laterEarly {c : Cpus} (all : c.handler.all late = true) : Early c := by
  refine ⟨.later all, fun going still => ?_⟩
  rw [laterMoved all going] at still
  contradiction

theorem idleEarly {c : Cpus} (none : c.handler = []) : Early c := laterEarly (by rw [none]; rfl)

theorem handlerEarly {s t : Machine} (early : Early s.cpus) (taken : step s (.run .handler) = some t) :
    Early t.cpus := by
  obtain ⟨⟨stmt, cpus⟩, next, rfl⟩ := Option.map_eq_some_iff.mp taken
  obtain ⟨rest, left, _, rfl⟩ := nextExact next
  change s.cpus.handler = stmt :: rest at left
  have handling := early.handling
  have shown := early.shown
  rw [left] at handling shown
  cases handling with
  | status => exact ⟨.clear _, fun _ _ => shown (List.cons_ne_nil _ _) rfl⟩
  | clear iflags => exact ⟨.mask iflags, fun _ _ => shown (List.cons_ne_nil _ _) rfl⟩
  | mask iflags =>
    refine ⟨?_, fun _ _ => shown (List.cons_ne_nil _ _) rfl⟩
    simp only [Cpus.goto, execStmt, if_neg (statusUnmasked iflags)]
    exact .drain rfl
  | drain later => exact laterEarly later
  | later all =>
    obtain ⟨here, more⟩ := Bool.and_eq_true_iff.mp all
    refine laterEarly ?_
    simp only [Cpus.goto, List.all_append, lateExec here, more, Bool.and_self]

/- A call that takes no step of the ring, or any call where no handler is under way. -/
theorem threadEarly {s t : Machine} (early : Early s.cpus) (same : t.cpus.handler = s.cpus.handler)
    (kept : s.cpus.handler ≠ [] → view t = view s) : Early t.cpus := by
  by_cases none : s.cpus.handler = []
  · exact idleEarly (same.trans none)
  · have view := kept none
    have isFull : t.cpus.k.isFull = s.cpus.k.isFull := congrArg BufferRing.isFull view
    have fill : t.cpus.k.dmaFill = s.cpus.k.dmaFill := congrArg BufferRing.fill view
    have drain : t.cpus.k.dmaDrain = s.cpus.k.dmaDrain := congrArg BufferRing.drain view
    refine ⟨?_, ?_⟩
    · rw [same]; exact early.handling
    · rw [same, isFull, fill, drain]; exact early.shown

/- Between handlers the flag describes the ring. -/
theorem idleShown {s : Machine} (within : Within s) (still : s.cpus.handler = [])
    (full : s.cpus.k.isFull = true) : s.cpus.k.dmaFill = s.cpus.k.dmaDrain := by
  cases holds : s.cpus.holder with
  | some n => exact ((within.shown n holds).1 full).1
  | none =>
    obtain ⟨used, len, counted⟩ := within.counted
    have here : settled s = view s := by rw [settled, holds, still]; rfl
    have occupied := counted.occupied
    rw [here] at occupied
    have all : used = 8 := by
      have shown := occupied.full
      change s.cpus.k.isFull = _ at shown
      rw [full] at shown
      exact of_decide_eq_true shown.symm
    exact (sameSlotIff occupied).mpr (Or.inr all)

theorem stepEarly {s t : Machine} {op : Op} (within : Within s) (taken : step s op = some t)
    (apart : KeptApart s op) : Early t.cpus := by
  cases op with
  | startDma thread cmdCount =>
    obtain ⟨cpus, started, rfl⟩ := Option.map_eq_some_iff.mp taken
    obtain ⟨_, _, rfl⟩ := startExact started
    exact idleEarly apart
  | interrupt status =>
    obtain ⟨_, _, _, idle, rfl⟩ := interruptTaken taken
    exact ⟨.status, fun _ _ full => idleShown (s := s) within idle full⟩
  | run actor =>
    cases actor with
    | handler => exact handlerEarly within.early taken
    | thread n =>
      have same : t.cpus.handler = s.cpus.handler := by
        obtain ⟨⟨stmt, cpus⟩, next, rfl⟩ := Option.map_eq_some_iff.mp taken
        obtain ⟨rest, _, _, rfl⟩ := nextExact next
        rfl
      refine threadEarly within.early same fun going => ?_
      have other : s.cpus.holder ≠ some n := fun holds =>
        going (within.tidy.apart (by rw [holds]; exact Option.some_ne_none n))
      exact (otherMoves within.tidy other taken).1.view
  | signal thread =>
    obtain ⟨moves, _⟩ := signalMoves within.tidy taken
    exact threadEarly within.early moves.handler fun _ => moves.view

theorem stepWithin {s t : Machine} {op : Op} (within : Within s) (taken : step s op = some t)
    (free : EntersFree s op t) : Within t := by
  obtain ⟨tidy', settles⟩ := stepSettles within.tidy taken free.1
  refine ⟨tidy', ?_, ?_, stepEarly within taken free.1⟩
  · cases op with
    | startDma thread cmdCount =>
      obtain ⟨here, submits, completed, submitted⟩ := settles
      rw [submits, completed, submitted, List.length_append, List.length_singleton]
      refine submitCounted within.counted cmdCount ?_ ?_
      · rw [here]; exact free.2.1
      · rw [here]; exact free.2.2
    | interrupt status =>
      obtain ⟨accepted, rest, given, here, completes, completed, submitted⟩ := settles
      rw [completes, completed, submitted]
      exact completeCounted within.counted (by rw [here]; exact given)
    | run | signal =>
      obtain ⟨same, completed, submitted⟩ := settles
      rw [same, completed, submitted]
      exact within.counted
  · intro n holds
    cases op with
    | startDma thread cmdCount =>
      obtain ⟨cpus, started, rfl⟩ := Option.map_eq_some_iff.mp taken
      obtain ⟨_, _, rfl⟩ := startExact started
      cases Option.some.inj holds
      refine clearShown free.2.1 ?_
      simp only [Cpus.goto, storeSame]
      rfl
    | interrupt status =>
      obtain ⟨_, _, _, _, rfl⟩ := interruptTaken taken
      have none : s.cpus.holder = none := free.1
      exact absurd (none.symm.trans holds) (Option.some_ne_none n).symm
    | run actor => exact runShown within taken n holds
    | signal thread =>
      obtain ⟨moves, _⟩ := signalMoves within.tidy taken
      rw [moves.holder] at holds
      rw [moves.view, moves.kept holds]
      exact within.shown n holds

theorem lastSlotsNodup {total len : Nat} (few : len ≤ 8) : (lastSlots total len).Nodup := by
  refine List.pairwise_map.mpr ((List.pairwise_lt_range' _ (by decide)).imp_of_mem ?_)
  intro i j left right before same
  have low := List.mem_range'_1.mp left
  have high := List.mem_range'_1.mp right
  omega

theorem countedWithin {s : Machine} (within : Within s) : WithinRing s := by
  obtain ⟨used, len, counted⟩ := within.counted
  have inside := counted.occupied.inside
  have most := counted.occupied.most
  have device := List.count_le_length (a := true) (l := (settled s).inflight)
  have single := counted.single
  have accounts := counted.accounts
  constructor
  · change s.submitted.length ≤ s.completed + 8
    omega
  · intro still
    by_cases none : s.cpus.handler = []
    · exact idleShown within none
    · exact within.early.shown none still

theorem countedNoOverwrite {s t : Machine} {op : Op} (within : Within s) : NoOverwrite s op t := by
  intro thread cmdCount rest _ left
  have holds : s.cpus.holder = some thread := by
    by_contra other
    have outside := within.tidy.others thread other
    rw [left] at outside
    contradiction
  have inside := within.tidy.held thread holds
  rw [left] at inside
  cases inside with
  | count =>
    obtain ⟨used, len, counted⟩ := within.counted
    have waits : (settled s).waiting = s.waiting ++ [fillSlot s.cpus.k] := by
      rw [settled, holds]
      dsimp only
      rw [left, finishGoes (.count cmdCount) rfl, finishGoes .fill rfl, finishGoes .testFull rfl,
        finishEnds (.unlock false) rfl]
      rfl
    have distinct : (settled s).waiting.Nodup := by
      rw [counted.waiting]
      have inside := counted.occupied.inside
      have most := counted.occupied.most
      exact lastSlotsNodup (by omega)
    rw [waits] at distinct
    intro mem
    exact (List.nodup_append.mp distinct).2.2 _ mem _ (List.mem_singleton_self _) rfl

theorem initialWithin (control : Nat → BitVec 32) (pBase : BitVec 64) (memory : Nat → FifoEntry) (head : BitVec 32)
    (dmaBase : Nat → BitVec 64) : Within (initial control pBase memory head dmaBase) where
  tidy := idleTidy _
  counted := ⟨0, 0, ⟨rfl, show 0 = (0 + 8 - 0) % 8 by decide, by decide, rfl, Or.inr rfl, Nat.le_refl _⟩, rfl, rfl,
    Nat.zero_le _⟩
  shown := fun n holds => absurd holds (Option.some_ne_none n).symm
  early := idleEarly rfl

/- In that stretch the flag says full of a ring that no longer is, whenever an interrupt
finds it full. -/
theorem fullInterruptShows {s t : Machine} {rest : List Stmt} (left : s.cpus.handler = .drain :: rest)
    (full : s.cpus.k.isFull = true) (same : s.cpus.k.dmaFill = s.cpus.k.dmaDrain)
    (taken : step s (.run .handler) = some t) :
    t.cpus.k.isFull = true ∧ t.cpus.k.dmaFill ≠ t.cpus.k.dmaDrain := by
  obtain ⟨⟨stmt, cpus⟩, next, rfl⟩ := Option.map_eq_some_iff.mp taken
  obtain ⟨rest', left', _, rfl⟩ := nextExact next
  change s.cpus.handler = stmt :: rest' at left'
  rw [left] at left'
  cases left'
  refine ⟨full, fun equal => ?_⟩
  change s.cpus.k.dmaFill = (s.cpus.k.dmaDrain + 1) % numBufs at equal
  rw [same] at equal
  have index := congrArg BitVec.toNat equal
  rw [BitVec.toNat_umod, BitVec.toNat_add] at index
  change _ = (s.cpus.k.dmaDrain.toNat + 1) % 2 ^ 32 % 8 at index
  omega

theorem ringNeverOverruns (control : Nat → BitVec 32) (pBase : BitVec 64) (memory : Nat → FifoEntry)
    (head : BitVec 32) (dmaBase : Nat → BitVec 64) (ops : List Op)
    (free : EachStep step EntersFree (initial control pBase memory head dmaBase) ops) :
    EachState step WithinRing (initial control pBase memory head dmaBase) ops ∧
      EachStep step NoOverwrite (initial control pBase memory head dmaBase) ops := by
  have start := initialWithin control pBase memory head dmaBase
  exact ⟨eachStateOfInvariant (fun _ _ _ => stepWithin) (fun _ => countedWithin) start free,
    eachStepOfInvariant (fun _ _ _ => stepWithin) (fun _ _ _ within _ _ => countedNoOverwrite within) start free⟩

theorem twoWithinRing : EachState step WithinRing coldRing twoThenInterrupt ∧
    EachStep step NoOverwrite coldRing twoThenInterrupt := by
  apply ringNeverOverruns
  decide +kernel

def nineCalls : List Op :=
  directCall 0 1801 ++ (List.range 6).flatMap (fun i => queuedCall (i + 1) 1801) ++ queuedCall 7 1801 ++
    [.run (.thread 7), .startDma 8 1801]

/- The eighth call finds its slot to be the last and goes to sleep; the ninth is another
thread, which the full ring does not stop. -/
theorem ninthAccepted : ¬ EachState step WithinRing coldRing nineCalls := by
  intro each
  have ran : (exec step coldRing nineCalls).map (fun s => (s.submitted.length, s.completed)) = some (9, 0) := by
    decide +kernel
  obtain ⟨s, reached, lists⟩ := Option.map_eq_some_iff.mp ran
  obtain ⟨submitted, completed⟩ := Prod.mk.inj lists
  have last := (eachStateLast each reached).1
  rw [submitted, completed] at last
  exact absurd last (by decide)

end KernelLabs.DmaOverrun
