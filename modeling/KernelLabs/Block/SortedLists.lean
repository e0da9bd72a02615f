import KernelLabs.Block.ShortestSeek

/-! The representation the greedy elevator is meant to keep: two sorted lists, split
around the last position served. Dispatch keeps it whichever side it serves, sorted
insertion hardly ever does, and the nearer head is found as long as the low halves of
the two distances compare like the distances. -/
namespace KernelLabs.SortedLists
open Block LinkedList ShortestSeek

structure Represents (s : BlockState) : Prop where
  ascending : s.q.gd.higher.Pairwise (fun a b => s.pos a ≤ s.pos b)
  descending : s.q.gd.lower.Pairwise (fun a b => s.pos b ≤ s.pos a)
  above : ∀ x ∈ s.q.gd.higher, s.q.gd.prevPos ≤ s.pos x
  below : ∀ x ∈ s.q.gd.lower, s.pos x < s.q.gd.prevPos

theorem representsIff {s : BlockState} : Represents s ↔
    s.q.gd.higher.Pairwise (fun a b => s.pos a ≤ s.pos b) ∧
    s.q.gd.lower.Pairwise (fun a b => s.pos b ≤ s.pos a) ∧
    (∀ x ∈ s.q.gd.higher, s.q.gd.prevPos ≤ s.pos x) ∧
    ∀ x ∈ s.q.gd.lower, s.pos x < s.q.gd.prevPos :=
  ⟨fun rep => ⟨rep.ascending, rep.descending, rep.above, rep.below⟩,
    fun ⟨asc, desc, above, below⟩ => ⟨asc, desc, above, below⟩⟩

instance (s : BlockState) : Decidable (Represents s) := decidable_of_iff _ representsIff.symm

theorem positionsMiss {s : BlockState} (rep : Represents s) {r : Ref} (mem : r ∈ s.q.gd.higher) :
    r ∉ s.q.gd.lower :=
  fun low => BitVec.not_le.mpr (rep.below r low) (rep.above r mem)

section Add
variable {s : BlockState} {r : Ref}

/- The list `greedy_add_request` chooses. -/
def chosenList (s : BlockState) (r : Ref) : List Ref :=
  if s.q.gd.prevPos > s.pos r then s.q.gd.lower else s.q.gd.higher

theorem higherAddedIff (rep : Represents s) :
    (scanAdd (fun x => s.pos x > s.pos r) r s.q.gd.higher).Pairwise (fun a b => s.pos a ≤ s.pos b) ↔
      ∀ x ∈ s.q.gd.higher, s.pos x = s.pos r := by
  have later : ∀ y, decide (s.pos y > s.pos r) = true ↔ ¬ s.pos y ≤ s.pos r := by
    intro y
    rw [decide_eq_true_eq, BitVec.not_le]
  rw [scanAddSortedIff (fun a b => s.pos a ≤ s.pos b) later rep.ascending]
  constructor
  · intro same x mem
    exact BitVec.le_antisymm (same x mem).2 (same x mem).1
  · intro same x mem
    exact ⟨BitVec.le_of_eq (same x mem).symm, BitVec.le_of_eq (same x mem)⟩

theorem lowerAddedIff (rep : Represents s) :
    (scanAdd (fun x => s.pos x < s.pos r) r s.q.gd.lower).Pairwise (fun a b => s.pos b ≤ s.pos a) ↔
      ∀ x ∈ s.q.gd.lower, s.pos x = s.pos r := by
  have later : ∀ y, decide (s.pos y < s.pos r) = true ↔ ¬ s.pos r ≤ s.pos y := by
    intro y
    rw [decide_eq_true_eq, BitVec.not_le]
  rw [scanAddSortedIff (fun a b => s.pos b ≤ s.pos a) later rep.descending]
  constructor
  · intro same x mem
    exact BitVec.le_antisymm (same x mem).1 (same x mem).2
  · intro same x mem
    exact ⟨BitVec.le_of_eq (same x mem), BitVec.le_of_eq (same x mem).symm⟩

/- The split survives every insertion; the order survives only among equals. -/
theorem addRepresentsIff (rep : Represents s) :
    (Represents (greedyAddRequest s r) ∧ (greedyAddRequest s r).queued.Perm (r :: s.queued)) ↔
      ∀ x ∈ chosenList s r, s.pos x = s.pos r := by
  obtain ⟨above, below⟩ := addSides r rep.above rep.below
  have kept : Represents (greedyAddRequest s r) ↔
      (greedyAddRequest s r).q.gd.higher.Pairwise (fun a b => s.pos a ≤ s.pos b) ∧
      (greedyAddRequest s r).q.gd.lower.Pairwise (fun a b => s.pos b ≤ s.pos a) := by
    simp only [representsIff, addPos, addPrev]
    exact ⟨fun h => ⟨h.1, h.2.1⟩, fun h => ⟨h.1, h.2, above, below⟩⟩
  rw [and_iff_left (addQueuedPerm s r), kept]
  rcases addCases s r with ⟨side, hh, hl⟩ | ⟨side, hl, hh⟩
  · rw [hh, hl, and_iff_right rep.ascending, lowerAddedIff rep, chosenList, if_pos side]
  · rw [hh, hl, and_iff_left rep.descending, higherAddedIff rep, chosenList,
      if_neg (BitVec.not_lt.mpr side)]

end Add

/- Sectors 5 and 10, queued around a given position. -/
def around (prevPos : Sector) (higher lower : List Ref) : BlockState :=
  {twoRequests with q := {emptyQueue with gd := ⟨higher, lower, prevPos⟩}}

theorem firstAboveSorted : Represents (greedyAddRequest (around 7 [] [0]) 1) ∧
    (greedyAddRequest (around 7 [] [0]) 1).queued.Perm [1, 0] :=
  (addRepresentsIff (by decide)).mpr (by decide)

/- Sector 10 after sector 5: the scan runs off the end, and the list head is where the
new request is linked in. -/
theorem largerGoesFirst : Represents (around 4 [0] []) ∧ 1 ∉ (around 4 [0] []).queued ∧
    ¬ (Represents (greedyAddRequest (around 4 [0] []) 1) ∧
      (greedyAddRequest (around 4 [0] []) 1).queued.Perm [1, 0]) := by
  decide

/- Queued requests are non-empty and do not overlap. -/
structure NonOverlapping (s : BlockState) : Prop where
  nonEmpty : ∀ x ∈ s.queued, 0 < s.sectors x
  apart : s.queued.Pairwise (Apart s)

section Dispatch
variable {s : BlockState} {r x : Ref}

theorem startsBeyond (apart : Apart s r x) (nonEmpty : 0 < s.sectors x)
    (le : s.pos r ≤ s.pos x) : first s r + s.sectors r ≤ first s x := by
  have le := BitVec.le_def.mp le
  simp only [Apart, first] at *
  omega

theorem endsAt (fits : first s r + s.sectors r < 2 ^ 64) :
    (s.endOf r).toNat = first s r + s.sectors r := by
  rw [BlockState.endToNat]
  exact Nat.mod_eq_of_lt fits

/- Serving the head of `higher` moves the split up, past everything on `lower`. -/
theorem serveHigher (rep : Represents s) (ranges : NonOverlapping s)
    (fits : ∀ x ∈ s.queued, first s x + s.sectors x < 2 ^ 64) {h : List Ref}
    (head : s.q.gd.higher = r :: h) :
    Represents (greedyMove s r) ∧ (greedyMove s r).q.gd.higher = h ∧
      (greedyMove s r).q.gd.lower = s.q.gd.lower := by
  have memR : r ∈ s.q.gd.higher := by simp [head]
  have higherT : (greedyMove s r).q.gd.higher = h := by rw [moveHigher, head, List.erase_cons_head]
  have lowerT : (greedyMove s r).q.gd.lower = s.q.gd.lower := by
    rw [moveLower, List.erase_of_not_mem (positionsMiss rep memR)]
  refine ⟨representsIff.mpr ?_, higherT, lowerT⟩
  simp only [higherT, lowerT, movePos, movePrev]
  have ends := endsAt (fits r (List.mem_append_left _ memR))
  have ascending := rep.ascending
  rw [head] at ascending
  have apart := ranges.apart
  rw [BlockState.queued, head, List.cons_append] at apart
  refine ⟨(List.pairwise_cons.mp ascending).2, rep.descending, ?_, ?_⟩
  · intro x mem
    have queuedX : x ∈ s.queued := by simp [BlockState.queued, head, mem]
    have beyond := startsBeyond ((List.pairwise_cons.mp apart).1 x (List.mem_append_left _ mem))
      (ranges.nonEmpty x queuedX) ((List.pairwise_cons.mp ascending).1 x mem)
    rw [BitVec.le_def, ends]
    exact beyond
  · intro x mem
    have under := BitVec.lt_def.mp (rep.below x mem)
    have atLeast := BitVec.le_def.mp (rep.above r memR)
    rw [BitVec.lt_def, ends]
    simp only [first]
    omega

/- Serving the head of `lower` moves the split to its end, which nothing on `higher`
starts before: both lie beyond the old split, and they do not overlap. -/
theorem serveLower (rep : Represents s) (ranges : NonOverlapping s)
    (fits : ∀ x ∈ s.queued, first s x + s.sectors x < 2 ^ 64) {l : List Ref}
    (head : s.q.gd.lower = r :: l) :
    Represents (greedyMove s r) ∧ (greedyMove s r).q.gd.lower = l ∧
      (greedyMove s r).q.gd.higher = s.q.gd.higher := by
  have memR : r ∈ s.q.gd.lower := by simp [head]
  have lowerT : (greedyMove s r).q.gd.lower = l := by rw [moveLower, head, List.erase_cons_head]
  have higherT : (greedyMove s r).q.gd.higher = s.q.gd.higher := by
    rw [moveHigher, List.erase_of_not_mem fun high => positionsMiss rep high memR]
  refine ⟨representsIff.mpr ?_, lowerT, higherT⟩
  simp only [higherT, lowerT, movePos, movePrev]
  have queuedR : r ∈ s.queued := List.mem_append_right _ memR
  have ends := endsAt (fits r queuedR)
  have descending := rep.descending
  rw [head] at descending
  have belowR := BitVec.lt_def.mp (rep.below r memR)
  refine ⟨rep.ascending, (List.pairwise_cons.mp descending).2, ?_, ?_⟩
  · intro x mem
    have queuedX : x ∈ s.queued := List.mem_append_left _ mem
    have above := BitVec.le_def.mp (rep.above x mem)
    have apart : Apart s x r := (List.pairwise_append.mp ranges.apart).2.2 x mem r memR
    have beyond := startsBeyond apart.symm (ranges.nonEmpty x queuedX)
      (BitVec.le_def.mpr (Nat.le_trans (Nat.le_of_lt belowR) above))
    rw [BitVec.le_def, ends]
    exact beyond
  · intro x mem
    have under := BitVec.le_def.mp ((List.pairwise_cons.mp descending).1 x mem)
    have nonEmpty := ranges.nonEmpty r queuedR
    rw [BitVec.lt_def, ends]
    simp only [first]
    omega

theorem dispatchRepresents {t : BlockState} {force : Bool} (rep : Represents s)
    (ranges : NonOverlapping s) (fits : ∀ x ∈ s.queued, first s x + s.sectors x < 2 ^ 64)
    (moved : greedyDispatch s force = some t) :
    Represents t ∧ ∃ r ∈ s.queued, t.q.gd.prevPos = s.endOf r ∧
      (s.q.gd.higher = r :: t.q.gd.higher ∧ t.q.gd.lower = s.q.gd.lower ∨
        s.q.gd.lower = r :: t.q.gd.lower ∧ t.q.gd.higher = s.q.gd.higher) := by
  obtain ⟨r, chosen, rfl⟩ := dispatchExact.mp moved
  rcases targetHead chosen with ⟨h, head⟩ | ⟨l, head⟩
  · obtain ⟨kept, rest, other⟩ := serveHigher rep ranges fits head
    exact ⟨kept, r, targetQueued chosen, movePrev s r, Or.inl ⟨by rw [head, rest], other⟩⟩
  · obtain ⟨kept, rest, other⟩ := serveLower rep ranges fits head
    exact ⟨kept, r, targetQueued chosen, movePrev s r, Or.inr ⟨by rw [head, rest], other⟩⟩

end Dispatch

theorem betweenServed : ∃ t, greedyDispatch (around 7 [1] [0]) false = some t ∧ Represents t ∧
    ∃ r ∈ (around 7 [1] [0]).queued, t.q.gd.prevPos = (around 7 [1] [0]).endOf r ∧
      ((around 7 [1] [0]).q.gd.higher = r :: t.q.gd.higher ∧
          t.q.gd.lower = (around 7 [1] [0]).q.gd.lower ∨
        (around 7 [1] [0]).q.gd.lower = r :: t.q.gd.lower ∧
          t.q.gd.higher = (around 7 [1] [0]).q.gd.higher) := by
  have moved : greedyDispatch (around 7 [1] [0]) false = some (greedyMove (around 7 [1] [0]) 0) := rfl
  exact ⟨_, moved, dispatchRepresents (by decide) ⟨by decide, by decide⟩ (by decide) moved⟩

/- A dispatch returns 1, and what it moves to the dispatch queue is nearest. -/
def ServesNearest (s : BlockState) : Prop :=
  ∀ force, ∃ t r, greedyDispatch s force = some t ∧ Nearest s r ∧
    t.q.queueHead = s.q.queueHead.erase r ++ [r] ∧
    t.q.gd.higher = s.q.gd.higher.erase r ∧ t.q.gd.lower = s.q.gd.lower.erase r

/- The low 32 bits of a distance, read as a signed number. -/
def low (distance : Nat) : Int := Int.bmod distance (2 ^ 32)

/- They compare the way the distances do, up to the tie that goes to the higher list. -/
def LowAgrees (up down : Nat) : Prop :=
  (up < down → low up ≤ low down) ∧ (down < up → low down < low up)
instance (up down : Nat) : Decidable (LowAgrees up down) := by unfold LowAgrees; infer_instance

theorem lowSmall {distance : Nat} (small : distance < 2 ^ 31) : low distance = distance := by
  unfold low
  exact Int.bmod_eq_of_le (by omega) (by omega)

theorem agreesBelow {up down : Nat} (upSmall : up < 2 ^ 31) (downSmall : down < 2 ^ 31) :
    LowAgrees up down := by
  unfold LowAgrees
  rw [lowSmall upSmall, lowSmall downSmall]
  omega

theorem intOfSectorLow {a b : Sector} (le : b.toNat ≤ a.toNat) :
    intOfSector (a - b) = low (a.toNat - b.toNat) := by
  have diff : (a - b).toNat = a.toNat - b.toNat := BitVec.toNat_sub_of_le (BitVec.le_def.mpr le)
  unfold intOfSector low
  rw [BitVec.toInt_eq_toNat_bmod, BitVec.toNat_setWidth, diff, Int.natCast_emod, Int.emod_bmod]

section Nearest
variable {s : BlockState} {r : Ref}

theorem aboveNat (rep : Represents s) (mem : r ∈ s.q.gd.higher) : prev s ≤ first s r :=
  BitVec.le_def.mp (rep.above r mem)

theorem belowNat (rep : Represents s) (mem : r ∈ s.q.gd.lower) : first s r < prev s :=
  BitVec.lt_def.mp (rep.below r mem)

theorem upLow (rep : Represents s) (mem : r ∈ s.q.gd.higher) :
    intOfSector (s.pos r - s.q.gd.prevPos) = low (distance s r) := by
  have above := aboveNat rep mem
  rw [intOfSectorLow above, distanceAbove above]
  rfl

theorem downLow (rep : Represents s) (mem : r ∈ s.q.gd.lower) :
    intOfSector (s.q.gd.prevPos - s.pos r) = low (distance s r) := by
  have below := belowNat rep mem
  rw [intOfSectorLow (Nat.le_of_lt below), distanceBelow below]
  rfl

theorem higherHeadNearest (rep : Represents s) {h : List Ref} (head : s.q.gd.higher = r :: h) :
    ∀ x ∈ s.q.gd.higher, distance s r ≤ distance s x := by
  have ascending := rep.ascending
  rw [head] at ascending
  have aboveR := aboveNat rep (r := r) (by simp [head])
  intro x mem
  have order : s.pos r ≤ s.pos x := by
    rcases List.mem_cons.mp (head ▸ mem) with rfl | behind
    · exact BitVec.le_refl _
    · exact (List.pairwise_cons.mp ascending).1 x behind
  have order : first s r ≤ first s x := BitVec.le_def.mp order
  rw [distanceAbove aboveR, distanceAbove (aboveNat rep mem)]
  exact Nat.sub_le_sub_right order _

theorem lowerHeadNearest (rep : Represents s) {l : List Ref} (head : s.q.gd.lower = r :: l) :
    ∀ x ∈ s.q.gd.lower, distance s r ≤ distance s x := by
  have descending := rep.descending
  rw [head] at descending
  have belowR := belowNat rep (r := r) (by simp [head])
  intro x mem
  have order : s.pos x ≤ s.pos r := by
    rcases List.mem_cons.mp (head ▸ mem) with rfl | behind
    · exact BitVec.le_refl _
    · exact (List.pairwise_cons.mp descending).1 x behind
  have order : first s x ≤ first s r := BitVec.le_def.mp order
  rw [distanceBelow belowR, distanceBelow (belowNat rep mem)]
  exact Nat.sub_le_sub_left order _

theorem servesIff (s : BlockState) : ServesNearest s ↔ ∃ r, greedyTarget s = some r ∧ Nearest s r := by
  constructor
  · intro serves
    obtain ⟨t, r, moved, near, appended, _⟩ := serves false
    obtain ⟨target, chosen, rfl⟩ := dispatchExact.mp moved
    rw [moveHead] at appended
    have same : target = r := by
      have lasts := congrArg List.getLast? appended
      simpa using lasts
    exact ⟨r, same ▸ chosen, near⟩
  · rintro ⟨r, chosen, near⟩ force
    exact ⟨greedyMove s r, r, dispatchExact.mpr ⟨r, chosen, rfl⟩, near, moveHead s r, moveHigher s r,
      moveLower s r⟩

theorem headsNearest (rep : Represents s) {h l : List Ref} {a b : Ref}
    (higher : s.q.gd.higher = a :: h) (lower : s.q.gd.lower = b :: l) {r : Ref} (mem : r ∈ s.queued)
    (near : distance s r ≤ distance s a ∧ distance s r ≤ distance s b) : Nearest s r := by
  refine ⟨mem, fun x memX => ?_⟩
  rcases List.mem_append.mp memX with up | down
  · exact Nat.le_trans near.1 (higherHeadNearest rep higher x up)
  · exact Nat.le_trans near.2 (lowerHeadNearest rep lower x down)

theorem onlyHigherNearest (rep : Represents s) {h : List Ref} (higher : s.q.gd.higher = r :: h)
    (lower : s.q.gd.lower = []) : Nearest s r := by
  have queued : s.queued = s.q.gd.higher := by rw [BlockState.queued, lower, List.append_nil]
  refine ⟨by simp [queued, higher], fun x mem => ?_⟩
  exact higherHeadNearest rep higher x (queued ▸ mem)

theorem onlyLowerNearest (rep : Represents s) {l : List Ref} (lower : s.q.gd.lower = r :: l)
    (higher : s.q.gd.higher = []) : Nearest s r := by
  have queued : s.queued = s.q.gd.lower := by rw [BlockState.queued, higher, List.nil_append]
  refine ⟨by simp [queued, lower], fun x mem => ?_⟩
  exact lowerHeadNearest rep lower x (queued ▸ mem)

/- The low halves of the two heads' distances were compared, and the one served won. -/
theorem agreesOfNearest (rep : Represents s) {h l : List Ref} {a b : Ref}
    (higher : s.q.gd.higher = a :: h) (lower : s.q.gd.lower = b :: l)
    (chosen : greedyTarget s = some r) (near : Nearest s r) :
    LowAgrees (distance s a) (distance s b) := by
  have memA : a ∈ s.q.gd.higher := by simp [higher]
  have memB : b ∈ s.q.gd.lower := by simp [lower]
  have nearA := near.2 a (List.mem_append_left _ memA)
  have nearB := near.2 b (List.mem_append_right _ memB)
  rcases targetCases chosen with ⟨_, _, _, hh, hl, cmp⟩ | ⟨_, _, _, hl, hh, cmp⟩ | ⟨_, _, hl⟩ | ⟨_, _, hh⟩
  · cases higher.symm.trans hh
    cases lower.symm.trans hl
    rw [upLow rep memA, downLow rep memB] at cmp
    exact ⟨fun _ => cmp, fun farther => absurd nearB (Nat.not_le.mpr farther)⟩
  · cases higher.symm.trans hh
    cases lower.symm.trans hl
    rw [upLow rep memA, downLow rep memB] at cmp
    exact ⟨fun nearer => absurd nearA (Nat.not_le.mpr nearer), fun _ => cmp⟩
  · rw [hl] at lower; contradiction
  · rw [hh] at higher; contradiction

theorem nearestOfAgrees (rep : Represents s)
    (agrees : ∀ a h b l, s.q.gd.higher = a :: h → s.q.gd.lower = b :: l →
      LowAgrees (distance s a) (distance s b))
    (chosen : greedyTarget s = some r) : Nearest s r := by
  have mem := targetQueued chosen
  rcases targetCases chosen with ⟨h, b, l, hh, hl, cmp⟩ | ⟨l, a, h, hl, hh, cmp⟩ | ⟨h, hh, hl⟩ | ⟨l, hl, hh⟩
  · have memR : r ∈ s.q.gd.higher := by simp [hh]
    have memB : b ∈ s.q.gd.lower := by simp [hl]
    rw [upLow rep memR, downLow rep memB] at cmp
    have nearer : distance s r ≤ distance s b := by
      by_contra farther
      exact absurd ((agrees r h b l hh hl).2 (Nat.not_le.mp farther)) (Int.not_lt.mpr cmp)
    exact headsNearest rep hh hl mem ⟨Nat.le_refl _, nearer⟩
  · have memR : r ∈ s.q.gd.lower := by simp [hl]
    have memA : a ∈ s.q.gd.higher := by simp [hh]
    rw [upLow rep memA, downLow rep memR] at cmp
    have nearer : distance s r ≤ distance s a := by
      by_contra farther
      exact absurd ((agrees a h r l hh hl).1 (Nat.not_le.mp farther)) (Int.not_le.mpr cmp)
    exact headsNearest rep hh hl mem ⟨nearer, Nat.le_refl _⟩
  · exact onlyHigherNearest rep hh hl
  · exact onlyLowerNearest rep hl hh

theorem servesNearestIff (rep : Represents s) (nonempty : s.queued ≠ []) :
    ServesNearest s ↔ ∀ a h b l, s.q.gd.higher = a :: h → s.q.gd.lower = b :: l →
      LowAgrees (distance s a) (distance s b) := by
  rw [servesIff]
  constructor
  · rintro ⟨r, chosen, near⟩ a h b l higher lower
    exact agreesOfNearest rep higher lower chosen near
  · intro agrees
    cases chosen : greedyTarget s with
    | none =>
      obtain ⟨hh, hl⟩ := targetNone.mp chosen
      exact absurd (by simp [BlockState.queued, hh, hl]) nonempty
    | some r => exact ⟨r, rfl, nearestOfAgrees rep agrees chosen⟩

end Nearest

/- Sector 10, and one exactly 2^32 sectors away from the position served last. -/
def farApart : BlockState :=
  ⟨fun r => oneSector (if r = 0 then 10 else 11 + 0x100000000),
    {emptyQueue with gd := ⟨[1], [0], 11⟩}, 0⟩

theorem neighboursServed : ServesNearest (around 7 [1] [0]) :=
  (servesNearestIff (by decide) (by decide)).mpr (by
    intro a h b l higher lower
    cases higher
    cases lower
    exact agreesBelow (by decide) (by decide))

/- The int distance of the far request is 0. -/
theorem farServedFirst : Represents farApart ∧ farApart.queued ≠ [] ∧ ¬ ServesNearest farApart := by
  refine ⟨by decide, by decide, fun serves => ?_⟩
  obtain ⟨r, chosen, near⟩ := (servesIff farApart).mp serves
  have far : greedyTarget farApart = some 1 := by decide
  cases Option.some.inj (chosen.symm.trans far)
  exact absurd (near.2 0 (by decide)) (by decide)

end KernelLabs.SortedLists
