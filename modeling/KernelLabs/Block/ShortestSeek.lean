import KernelLabs.Block.GreedyIosched
import KernelLabs.Library.Runs
import Mathlib.Data.List.Pairwise

/-! Which runs of the greedy elevator serve the nearest request each time. Insertion
links a new request behind the first one past it, so a list is headed by its request
farthest from the last position served, and a dispatch is a shortest seek exactly
when the list it takes from holds nothing else. -/
namespace KernelLabs.ShortestSeek
open Block LinkedList Runs

def first (s : BlockState) (r : Ref) : Nat := (s.pos r).toNat
def prev (s : BlockState) : Nat := s.q.gd.prevPos.toNat
def distance (s : BlockState) (r : Ref) : Nat := ((first s r : Int) - prev s).natAbs

/- A non-empty sector range below 2^31. -/
def Fits (s : BlockState) (r : Ref) : Prop := 0 < s.sectors r ∧ first s r + s.sectors r ≤ 2 ^ 31
def Apart (s : BlockState) (a b : Ref) : Prop :=
  first s a + s.sectors a ≤ first s b ∨ first s b + s.sectors b ≤ first s a
instance (s r) : Decidable (Fits s r) := by unfold Fits; infer_instance
instance (s a b) : Decidable (Apart s a b) := by unfold Apart; infer_instance

inductive Op where
  | add (r : Ref)
  | dispatch (force : Bool)
  deriving DecidableEq, Repr

def Admissible (s : BlockState) (r : Ref) : Prop :=
  Fits s r ∧ (∀ x ∈ s.queued, Apart s r x) ∧ r ∉ s.q.queueHead
instance (s r) : Decidable (Admissible s r) := by unfold Admissible; infer_instance

def step (s : BlockState) : Op → Option BlockState
  | .add r => if Admissible s r then some (greedyAddRequest s r) else none
  | .dispatch force => some ((greedyDispatch s force).getD s)

def initial (base : BlockState) : BlockState := (greedyInitQueue base true true).2

def Nearest (s : BlockState) (r : Ref) : Prop :=
  r ∈ s.queued ∧ ∀ x ∈ s.queued, distance s r ≤ distance s x

/- A dispatch that returns 1 appends a nearest request to the dispatch queue. -/
def MovesNearest (s : BlockState) (op : Op) (_ : BlockState) : Prop :=
  ∀ force t, op = .dispatch force → greedyDispatch s force = some t →
    ∃ r, Nearest s r ∧ t.q.queueHead = s.q.queueHead ++ [r] ∧ r ∉ t.queued

def Alone (s : BlockState) (r : Ref) : Prop := s.q.gd.higher = [r] ∨ s.q.gd.lower = [r]

def NearestAlone (s : BlockState) (op : Op) (_ : BlockState) : Prop :=
  ∀ force, op = .dispatch force → s.queued ≠ [] → ∃ r, Nearest s r ∧ Alone s r

/- The lists are split around the last position served, and each is headed by its
farthest request. -/
structure Split (s : BlockState) : Prop where
  above : ∀ x ∈ s.q.gd.higher, prev s ≤ first s x
  below : ∀ x ∈ s.q.gd.lower, first s x < prev s
  higherFarthest : HeadFirst (fun a b => first s b ≤ first s a) s.q.gd.higher
  lowerFarthest : HeadFirst (fun a b => first s a ≤ first s b) s.q.gd.lower
  fits : ∀ x ∈ s.queued, Fits s x
  apart : s.queued.Pairwise (Apart s)
  undispatched : ∀ x ∈ s.queued, x ∉ s.q.queueHead

instance (s) : Std.Symm (Apart s) := ⟨fun _ _ => Or.symm⟩

theorem apartFirst {s : BlockState} {a b : Ref} (apart : Apart s a b) (ha : Fits s a)
    (hb : Fits s b) : first s a ≠ first s b := by
  have pa := ha.1
  have pb := hb.1
  unfold Apart at apart
  omega

theorem splitNodup {s : BlockState} (split : Split s) : s.queued.Nodup := by
  refine split.apart.imp_of_mem ?_
  intro a b ha hb apart same
  exact apartFirst apart (split.fits a ha) (split.fits b hb) (by rw [same])

theorem splitLower {s : BlockState} (split : Split s) {r : Ref} (mem : r ∈ s.q.gd.higher) :
    r ∉ s.q.gd.lower := by
  intro low
  have a := split.above r mem
  have b := split.below r low
  omega

theorem initialSplit (base : BlockState) : Split (initial base) where
  above := by simp [initial, greedyInitQueue]
  below := by simp [initial, greedyInitQueue]
  higherFarthest := trivial
  lowerFarthest := trivial
  fits := by simp [initial, greedyInitQueue, BlockState.queued]
  apart := List.Pairwise.nil
  undispatched := by simp [initial, greedyInitQueue, BlockState.queued]

section Add
variable {s : BlockState} {r : Ref}

@[simp] theorem addFirst (x : Ref) : first (greedyAddRequest s r) x = first s x := by
  simp only [first, addPos]
@[simp] theorem addFits (x : Ref) : Fits (greedyAddRequest s r) x ↔ Fits s x := by
  simp only [Fits, addFirst, addSectors]
@[simp] theorem addApart (a b : Ref) : Apart (greedyAddRequest s r) a b ↔ Apart s a b := by
  simp only [Apart, addFirst, addSectors]
@[simp] theorem addPrevNat : prev (greedyAddRequest s r) = prev s := by
  simp only [prev, addPrev]

/- `addSplit` in two parts: what depends only on the queued requests together, and
the head of the list that received the new one. -/
theorem addQueued (split : Split s) (fresh : Admissible s r) :
    (∀ x ∈ (greedyAddRequest s r).queued, Fits s x) ∧
    (greedyAddRequest s r).queued.Pairwise (Apart s) ∧
    ∀ x ∈ (greedyAddRequest s r).queued, x ∉ s.q.queueHead := by
  obtain ⟨fits, apart, undispatched⟩ := fresh
  have perm := addQueuedPerm s r
  refine ⟨?_, ?_, ?_⟩
  · intro x mem
    rcases List.mem_cons.mp (perm.mem_iff.mp mem) with rfl | old
    · exact fits
    · exact split.fits x old
  · exact (perm.pairwise_iff (fun h => h.symm)).mpr (List.pairwise_cons.mpr ⟨apart, split.apart⟩)
  · intro x mem
    rcases List.mem_cons.mp (perm.mem_iff.mp mem) with rfl | old
    · exact undispatched
    · exact split.undispatched x old

theorem addFarthest (split : Split s) (r : Ref) :
    HeadFirst (fun a b => first s b ≤ first s a) (greedyAddRequest s r).q.gd.higher ∧
    HeadFirst (fun a b => first s a ≤ first s b) (greedyAddRequest s r).q.gd.lower := by
  rcases addCases s r with ⟨_, hh, hl⟩ | ⟨_, hl, hh⟩
  · rw [hh, hl]
    refine ⟨split.higherFarthest, ?_⟩
    apply scanAddHeadFirst _ _ _ split.lowerFarthest
    · intro a b c; exact Nat.le_trans
    · intro y _ passed
      exact Nat.not_lt.mp (fun lt => by simp [BitVec.lt_def.mpr lt] at passed)
    · intro y _ stopped
      exact Nat.le_of_lt (BitVec.lt_def.mp (of_decide_eq_true stopped))
  · rw [hh, hl]
    refine ⟨?_, split.lowerFarthest⟩
    apply scanAddHeadFirst _ _ _ split.higherFarthest
    · intro a b c ab bc; exact Nat.le_trans bc ab
    · intro y _ passed
      exact Nat.not_lt.mp (fun lt => by simp [BitVec.lt_def.mpr lt] at passed)
    · intro y _ stopped
      exact Nat.le_of_lt (BitVec.lt_def.mp (of_decide_eq_true stopped))

theorem addSplit (split : Split s) (fresh : Admissible s r) : Split (greedyAddRequest s r) := by
  have sides := addSides r split.above split.below
  have above : ∀ x ∈ (greedyAddRequest s r).q.gd.higher, prev s ≤ first s x := sides.1
  have below : ∀ x ∈ (greedyAddRequest s r).q.gd.lower, first s x < prev s := sides.2
  obtain ⟨higherFarthest, lowerFarthest⟩ := addFarthest split r
  obtain ⟨fits, apart, undispatched⟩ := addQueued split fresh
  refine ⟨?_, ?_, ?_, ?_, ?_, ?_, ?_⟩
  · simpa only [addPrevNat, addFirst] using above
  · simpa only [addPrevNat, addFirst] using below
  · simpa only [addFirst] using higherFarthest
  · simpa only [addFirst] using lowerFarthest
  · simpa only [addFits] using fits
  · exact apart.imp (addApart _ _).mpr
  · simpa only [addHead] using undispatched

end Add

/- Below 2^31 the `int` distances of `greedy_dispatch` are the true ones. -/
theorem intOfSectorExact {a b : Sector} (le : b.toNat ≤ a.toNat) (small : a.toNat < 2 ^ 31) :
    intOfSector (a - b) = a.toNat - b.toNat := by
  have diff : (a - b).toNat = a.toNat - b.toNat := BitVec.toNat_sub_of_le (BitVec.le_def.mpr le)
  have low : ((a - b).setWidth 32).toNat = a.toNat - b.toNat := by
    rw [BitVec.toNat_setWidth, diff]
    omega
  rw [intOfSector, BitVec.toInt_eq_toNat_of_lt (by omega), low]
  omega

section Dispatch
variable {s : BlockState} {r : Ref}

theorem distanceAbove (above : prev s ≤ first s r) : distance s r = first s r - prev s := by
  unfold distance; omega
theorem distanceBelow (below : first s r < prev s) : distance s r = prev s - first s r := by
  unfold distance; omega

/- On either side of the last position served, the one that starts closer to it is
nearer. -/
theorem closerNearer (split : Split s) {x : Ref} (memR : r ∈ s.queued) (memX : x ∈ s.queued)
    (apart : Apart s r x)
    (side : prev s ≤ first s x ∧ first s x ≤ first s r ∨
      first s r ≤ first s x ∧ first s x < prev s) : distance s x < distance s r := by
  have differ := apartFirst apart (split.fits r memR) (split.fits x memX)
  rcases side with ⟨above, closer⟩ | ⟨closer, below⟩
  · rw [distanceAbove above, distanceAbove (Nat.le_trans above closer)]
    omega
  · rw [distanceBelow below, distanceBelow (Nat.lt_of_le_of_lt closer below)]
    omega

/- Every request behind a list head is nearer than the head. -/
theorem chosenAlone (split : Split s) (chosen : greedyTarget s = some r) (near : Nearest s r) :
    Alone s r := by
  rcases targetHead chosen with ⟨h, hh⟩ | ⟨l, hl⟩
  · cases h with
    | nil => exact Or.inl hh
    | cons x h =>
      have memX : x ∈ s.q.gd.higher := by simp [hh]
      have queuedX : x ∈ s.queued := List.mem_append_left _ memX
      have closer : first s x ≤ first s r := by
        have farthest := split.higherFarthest
        rw [hh] at farthest
        exact farthest x List.mem_cons_self
      have apart : Apart s r x := by
        have pairs := split.apart
        simp only [BlockState.queued, hh, List.cons_append, List.pairwise_cons] at pairs
        exact pairs.1 x List.mem_cons_self
      have nearer := closerNearer split near.1 queuedX apart (Or.inl ⟨split.above x memX, closer⟩)
      exact absurd (near.2 x queuedX) (Nat.not_le.mpr nearer)
  · cases l with
    | nil => exact Or.inr hl
    | cons x l =>
      have memX : x ∈ s.q.gd.lower := by simp [hl]
      have queuedX : x ∈ s.queued := List.mem_append_right _ memX
      have closer : first s r ≤ first s x := by
        have farthest := split.lowerFarthest
        rw [hl] at farthest
        exact farthest x List.mem_cons_self
      have apart : Apart s r x := by
        have pairs := (List.pairwise_append.mp split.apart).2.1
        simp only [hl, List.pairwise_cons] at pairs
        exact pairs.1 x List.mem_cons_self
      have nearer := closerNearer split near.1 queuedX apart (Or.inr ⟨closer, split.below x memX⟩)
      exact absurd (near.2 x queuedX) (Nat.not_le.mpr nearer)

theorem upDistance (split : Split s) (mem : r ∈ s.q.gd.higher) :
    intOfSector (s.pos r - s.q.gd.prevPos) = distance s r := by
  have above := split.above r mem
  have fits := split.fits r (List.mem_append_left _ mem)
  rw [distanceAbove above, intOfSectorExact above]
  · simp only [first, prev] at *; omega
  · have := fits.1; have := fits.2; simp only [first] at *; omega

/- A lower distance is only computed next to a higher request, which bounds `prev_pos`. -/
theorem downDistance (split : Split s) (mem : r ∈ s.q.gd.lower) {h : Ref}
    (memH : h ∈ s.q.gd.higher) : intOfSector (s.q.gd.prevPos - s.pos r) = distance s r := by
  have below := split.below r mem
  have above := split.above h memH
  have fits := split.fits h (List.mem_append_left _ memH)
  rw [distanceBelow below, intOfSectorExact (Nat.le_of_lt below)]
  · simp only [first, prev] at *; omega
  · have := fits.1; have := fits.2; simp only [first, prev] at *; omega

theorem chosenNotFarther (split : Split s) (chosen : greedyTarget s = some r) {a : Ref}
    (alone : Alone s a) : distance s r ≤ distance s a := by
  rcases targetCases chosen with ⟨h, l, ls, hh, hl, cmp⟩ | ⟨l, h, hs, hl, hh, cmp⟩ | ⟨h, hh, hl⟩ | ⟨l, hl, hh⟩
  · have memR : r ∈ s.q.gd.higher := by simp [hh]
    have memL : l ∈ s.q.gd.lower := by simp [hl]
    rw [upDistance split memR, downDistance split memL memR] at cmp
    rcases alone with ha | ha
    · rw [hh] at ha; cases ha; exact Nat.le_refl _
    · rw [hl] at ha; cases ha; omega
  · have memR : r ∈ s.q.gd.lower := by simp [hl]
    have memH : h ∈ s.q.gd.higher := by simp [hh]
    rw [upDistance split memH, downDistance split memR memH] at cmp
    rcases alone with ha | ha
    · rw [hh] at ha; cases ha; omega
    · rw [hl] at ha; cases ha; exact Nat.le_refl _
  · rcases alone with ha | ha
    · rw [hh] at ha; cases ha; exact Nat.le_refl _
    · rw [hl] at ha; contradiction
  · rcases alone with ha | ha
    · rw [hh] at ha; contradiction
    · rw [hl] at ha; cases ha; exact Nat.le_refl _

theorem chosenNearestIff (split : Split s) (chosen : greedyTarget s = some r) :
    Nearest s r ↔ ∃ a, Nearest s a ∧ Alone s a := by
  constructor
  · intro near
    exact ⟨r, near, chosenAlone split chosen near⟩
  · rintro ⟨a, near, alone⟩
    refine ⟨targetQueued chosen, ?_⟩
    intro x mem
    exact Nat.le_trans (chosenNotFarther split chosen alone) (near.2 x mem)

theorem moveHeadQueued (split : Split s) (mem : r ∈ s.queued) :
    (greedyMove s r).q.queueHead = s.q.queueHead ++ [r] ∧ r ∉ (greedyMove s r).queued := by
  have nodup := splitNodup split
  have parts := List.nodup_append.mp nodup
  refine ⟨?_, ?_⟩
  · rw [moveHead, List.erase_of_not_mem (split.undispatched r mem)]
  · simp only [BlockState.queued, moveHigher, moveLower, List.mem_append, not_or]
    exact ⟨parts.1.not_mem_erase, parts.2.1.not_mem_erase⟩

@[simp] theorem moveFirst (s : BlockState) (r x : Ref) :
    first (greedyMove s r) x = first s x := by
  simp only [first, movePos]

theorem movePrevNat (fits : Fits s r) : prev (greedyMove s r) = first s r + s.sectors r := by
  have small := fits.2
  rw [prev, movePrev, BlockState.endToNat]
  simp only [first] at *
  omega

theorem moveQueuedSublist (s : BlockState) (r : Ref) :
    (greedyMove s r).queued.Sublist s.queued := by
  simp only [BlockState.queued, moveHigher, moveLower]
  exact List.erase_sublist.append List.erase_sublist

/- With its only request gone, the list served is empty. -/
theorem moveLists (split : Split s) (alone : Alone s r) :
    (s.q.gd.higher = [r] ∧ (greedyMove s r).q.gd.higher = [] ∧
      (greedyMove s r).q.gd.lower = s.q.gd.lower) ∨
    (s.q.gd.lower = [r] ∧ (greedyMove s r).q.gd.lower = [] ∧
      (greedyMove s r).q.gd.higher = s.q.gd.higher) := by
  rw [moveHigher, moveLower]
  rcases alone with only | only
  · refine Or.inl ⟨only, by rw [only, List.erase_cons_head], ?_⟩
    exact List.erase_of_not_mem (splitLower split (by simp [only]))
  · refine Or.inr ⟨only, by rw [only, List.erase_cons_head], ?_⟩
    exact List.erase_of_not_mem fun high => splitLower split high (by simp [only])

/- A shortest seek re-establishes the split around the end of the request served:
its list is empty now, and the other list lies beyond it by disjointness. -/
theorem moveSplit (split : Split s) (mem : r ∈ s.queued) (alone : Alone s r) :
    Split (greedyMove s r) := by
  have sub := moveQueuedSublist s r
  have prevR := movePrevNat (split.fits r mem)
  obtain ⟨appended, gone⟩ := moveHeadQueued split mem
  have lists := moveLists split alone
  refine ⟨?_, ?_, ?_, ?_, ?_, ?_, ?_⟩
  · intro x inHigher
    rw [prevR, moveFirst]
    rcases lists with ⟨_, empty, _⟩ | ⟨only, _, same⟩
    · rw [empty] at inHigher; contradiction
    · rw [same] at inHigher
      have queuedX : x ∈ s.queued := List.mem_append_left _ inHigher
      have differ : r ≠ x := by
        rintro rfl
        exact splitLower split inHigher (by simp [only])
      have apart : Apart s r x := split.apart.forall mem queuedX differ
      have above := split.above x inHigher
      have below := split.below r (by simp [only])
      have nonEmpty := (split.fits x queuedX).1
      unfold Apart at apart
      omega
  · intro x inLower
    rw [prevR, moveFirst]
    rcases lists with ⟨only, _, same⟩ | ⟨_, empty, _⟩
    · rw [same] at inLower
      have below := split.below x inLower
      have above := split.above r (by simp [only])
      omega
    · rw [empty] at inLower; contradiction
  · simp only [moveFirst]
    rcases lists with ⟨_, empty, _⟩ | ⟨_, _, same⟩
    · rw [empty]; trivial
    · rw [same]; exact split.higherFarthest
  · simp only [moveFirst]
    rcases lists with ⟨_, _, same⟩ | ⟨_, empty, _⟩
    · rw [same]; exact split.lowerFarthest
    · rw [empty]; trivial
  · intro x inQueued
    have fits := split.fits x (sub.subset inQueued)
    simpa only [Fits, moveFirst, moveSectors] using fits
  · refine (split.apart.sublist sub).imp ?_
    intro a b apart
    simpa only [Apart, moveFirst, moveSectors] using apart
  · intro x inQueued inHead
    rw [appended] at inHead
    rcases List.mem_append.mp inHead with old | new
    · exact split.undispatched x (sub.subset inQueued) old
    · exact gone (List.mem_singleton.mp new ▸ inQueued)

end Dispatch

theorem dispatchAgree {s : BlockState} (split : Split s) (force : Bool) (t : BlockState) :
    MovesNearest s (.dispatch force) t ↔ NearestAlone s (.dispatch force) t := by
  cases chosen : greedyTarget s with
  | none =>
    obtain ⟨hh, hl⟩ := targetNone.mp chosen
    constructor
    · intro _ _ _ nonempty
      exact absurd (by simp [BlockState.queued, hh, hl]) nonempty
    · intro _ _ u _ moved
      simp [greedyDispatch, chosen] at moved
  | some r =>
    have mem := targetQueued chosen
    have moved : ∀ f, greedyDispatch s f = some (greedyMove s r) :=
      fun f => dispatchExact.mpr ⟨r, chosen, rfl⟩
    have placed := moveHeadQueued split mem
    constructor
    · intro nearest _ _ _
      obtain ⟨a, near, appended, _⟩ := nearest force (greedyMove s r) rfl (moved force)
      have same : r = a := by simpa using placed.1.symm.trans appended
      exact (chosenNearestIff split chosen).mp (same ▸ near)
    · intro alone f u _ moves
      cases Option.some.inj ((moved f).symm.trans moves)
      have near := (chosenNearestIff split chosen).mpr (alone force rfl (List.ne_nil_of_mem mem))
      exact ⟨r, near, placed⟩

theorem stepSplit {s t : BlockState} {op : Op} (split : Split s) (taken : step s op = some t)
    (nearest : MovesNearest s op t) : Split t := by
  cases op with
  | add r =>
    simp only [step] at taken
    split at taken <;> try contradiction
    rename_i fresh
    cases Option.some.inj taken
    exact addSplit split fresh
  | dispatch force =>
    cases Option.some.inj taken
    cases chosen : greedyTarget s with
    | none => simpa [greedyDispatch, chosen] using split
    | some r =>
      have mem := targetQueued chosen
      have moved : greedyDispatch s force = some (greedyMove s r) :=
        dispatchExact.mpr ⟨r, chosen, rfl⟩
      obtain ⟨a, near, appended, _⟩ := nearest force _ rfl moved
      have same : r = a := by simpa using (moveHeadQueued split mem).1.symm.trans appended
      rw [moved]
      exact moveSplit split mem (chosenAlone split chosen (same ▸ near))

theorem everyDispatchNearestIff (base : BlockState) (ops : List Op) :
    EachStep step MovesNearest (initial base) ops ↔
      EachStep step NearestAlone (initial base) ops := by
  refine eachStepIff ?_ (fun s op t => stepSplit) (initialSplit base)
  intro s op t split _
  cases op with
  | add r =>
    constructor
    · intro _ _ h; contradiction
    · intro _ _ _ h; contradiction
  | dispatch force => exact dispatchAgree split force t

def oneSector (sector : Sector) : Request :=
  ⟨sector, 512, .fs, ⟨false, false, false, false, true, false⟩, .zero, .zero⟩

def twoRequests : BlockState := ⟨fun r => oneSector (if r = 0 then 5 else 10), emptyQueue, 0⟩

/- Sector 5 is queued first, sector 10 then goes in front of it and is served first. -/
theorem nearerPassedOver :
    ¬ EachStep step MovesNearest (initial twoRequests) [.add 0, .add 1, .dispatch false] := by
  intro each
  let queued := greedyAddRequest (greedyAddRequest (initial twoRequests) 0) 1
  have reached : exec step (initial twoRequests) [Op.add 0, Op.add 1] = some queued := rfl
  have moves := eachStepLast each reached rfl
  obtain ⟨r, near, appended, _⟩ := moves false _ rfl rfl
  have last : [1] = [r] := appended
  have last : 1 = r := (List.cons.inj last).1
  have closer : distance queued 1 ≤ distance queued 0 := by
    rw [last]
    exact near.2 0 (by decide)
  exact absurd closer (by decide)

end KernelLabs.ShortestSeek
