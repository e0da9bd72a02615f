import KernelLabs.Block.Request
import KernelLabs.Library.LinkedList

/-! The greedy elevator: sorted insertion into two lists around the last position
served, and dispatch of the nearer of the two list heads. `elv_dispatch_add_tail`,
which dispatch calls back into the elevator core, stands here with it. -/
namespace KernelLabs.Block
open LinkedList

def elvDispatchAddTail (s : BlockState) (r : Ref) : BlockState :=
  let s := if s.q.lastMerge = some r then {s with q := {s.q with lastMerge := none}} else s
  let s := elvRqhashDel s r
  {s with q := {s.q with
    nrSorted := s.q.nrSorted - 1,
    endSector := s.endOf r,
    boundaryRq := some r,
    queueHead := s.q.queueHead ++ [r]}}

def greedyMergedRequests (s : BlockState) (_rq next : Ref) : BlockState := s.listDelInit next

/- Assigning a 64-bit sector difference to an `int` keeps its low 32 bits. -/
def intOfSector (d : Sector) : Int := (d.setWidth 32).toInt

/- The first half of `greedy_dispatch`: which request it moves, if any. -/
def greedyTarget (s : BlockState) : Option Ref :=
  match s.q.gd.higher, s.q.gd.lower with
  | target :: _, lower :: _ =>
      let upDist := intOfSector (s.pos target - s.q.gd.prevPos)
      let downDist := intOfSector (s.q.gd.prevPos - s.pos lower)
      if upDist > downDist then some lower else some target
  | target :: _, [] => some target
  | [], target :: _ => some target
  | [], [] => none

def greedyMove (s : BlockState) (target : Ref) : BlockState :=
  let s := elvDispatchAddTail (s.listDelInit target) target
  {s with q := {s.q with gd := {s.q.gd with prevPos := s.endOf target}}}

/- `none` is the return value 0, which changes nothing. -/
def greedyDispatch (s : BlockState) (_force : Bool) : Option BlockState :=
  (greedyTarget s).map (greedyMove s)

def addToHigher (s : BlockState) (r : Ref) : BlockState :=
  let pos := listForEach (fun listRq => s.pos listRq > s.pos r) s.q.gd.higher
  {s with q := {s.q with gd := {s.q.gd with higher := listAdd r pos s.q.gd.higher}}}

def addToLower (s : BlockState) (r : Ref) : BlockState :=
  let pos := listForEach (fun listRq => s.pos listRq < s.pos r) s.q.gd.lower
  {s with q := {s.q with gd := {s.q.gd with lower := listAdd r pos s.q.gd.lower}}}

def greedyAddRequest (s : BlockState) (r : Ref) : BlockState :=
  if s.q.gd.prevPos > s.pos r then addToLower s r else addToHigher s r

def enomem : Int := 12

def greedyInitQueue (s : BlockState) (eqAllocated gdAllocated : Bool) : Int × BlockState :=
  if !eqAllocated then (-enomem, s)
  else if !gdAllocated then (-enomem, s)
  else (0, {s with q := {s.q with gd := ⟨[], [], 0⟩}})

/- `none` is one of the two `BUG_ON`s. -/
def greedyExitQueue (s : BlockState) : Option Unit :=
  if !s.q.gd.higher.isEmpty then none
  else if !s.q.gd.lower.isEmpty then none
  else some ()

section Dispatch
variable (s : BlockState) (r : Ref)

@[simp] theorem rqhashDelQ : (elvRqhashDel s r).q = s.q := by
  unfold elvRqhashDel; split <;> rfl
@[simp] theorem rqhashDelPos (x : Ref) : (elvRqhashDel s r).pos x = s.pos x := by
  unfold elvRqhashDel; split <;> simp
@[simp] theorem rqhashDelEnd (x : Ref) : (elvRqhashDel s r).endOf x = s.endOf x := by
  unfold elvRqhashDel; split <;> simp
@[simp] theorem rqhashDelSectors (x : Ref) : (elvRqhashDel s r).sectors x = s.sectors x := by
  unfold elvRqhashDel; split <;> simp
@[simp] theorem rqhashDelStamps (x : Ref) : (elvRqhashDel s r).stamps x = s.stamps x := by
  unfold elvRqhashDel; split <;> simp

@[simp] theorem moveHead :
    (greedyMove s r).q.queueHead = s.q.queueHead.erase r ++ [r] := by
  simp only [greedyMove, elvDispatchAddTail, rqhashDelQ]; split <;> rfl
@[simp] theorem moveHigher : (greedyMove s r).q.gd.higher = s.q.gd.higher.erase r := by
  simp only [greedyMove, elvDispatchAddTail, rqhashDelQ]; split <;> rfl
@[simp] theorem moveLower : (greedyMove s r).q.gd.lower = s.q.gd.lower.erase r := by
  simp only [greedyMove, elvDispatchAddTail, rqhashDelQ]; split <;> rfl
@[simp] theorem moveSorted : (greedyMove s r).q.nrSorted = s.q.nrSorted - 1 := by
  simp only [greedyMove, elvDispatchAddTail, rqhashDelQ]; split <;> rfl
@[simp] theorem movePos (x : Ref) : (greedyMove s r).pos x = s.pos x := by
  change (elvRqhashDel _ r).pos x = s.pos x
  rw [rqhashDelPos]; split <;> rfl
@[simp] theorem moveEnd (x : Ref) : (greedyMove s r).endOf x = s.endOf x := by
  change (elvRqhashDel _ r).endOf x = s.endOf x
  rw [rqhashDelEnd]; split <;> rfl
@[simp] theorem moveSectors (x : Ref) : (greedyMove s r).sectors x = s.sectors x := by
  change (elvRqhashDel _ r).sectors x = s.sectors x
  rw [rqhashDelSectors]; split <;> rfl
@[simp] theorem moveStamps (x : Ref) : (greedyMove s r).stamps x = s.stamps x := by
  change (elvRqhashDel _ r).stamps x = s.stamps x
  rw [rqhashDelStamps]; split <;> rfl
@[simp] theorem movePrev : (greedyMove s r).q.gd.prevPos = s.endOf r := by
  change (greedyMove s r).endOf r = s.endOf r
  exact moveEnd s r r

end Dispatch

theorem dispatchExact {s t : BlockState} {force : Bool} :
    greedyDispatch s force = some t ↔ ∃ target, greedyTarget s = some target ∧ t = greedyMove s target := by
  simp only [greedyDispatch, Option.map_eq_some_iff]
  constructor
  · rintro ⟨target, chosen, same⟩
    exact ⟨target, chosen, same.symm⟩
  · rintro ⟨target, chosen, same⟩
    exact ⟨target, chosen, same.symm⟩

theorem targetNone {s : BlockState} :
    greedyTarget s = none ↔ s.q.gd.higher = [] ∧ s.q.gd.lower = [] := by
  unfold greedyTarget
  split
  · rename_i hh hl
    dsimp only
    split <;> simp [hh]
  · rename_i hh hl
    simp [hh]
  · rename_i hh hl
    simp [hl]
  · rename_i hh hl
    simp [hh, hl]

/- Everything a dispatch decides: it takes the only head, or the nearer one by the
`int` comparison, the higher one on a tie. -/
theorem targetCases {s : BlockState} {r : Ref} (chosen : greedyTarget s = some r) :
    (∃ h l ls, s.q.gd.higher = r :: h ∧ s.q.gd.lower = l :: ls ∧
      intOfSector (s.pos r - s.q.gd.prevPos) ≤ intOfSector (s.q.gd.prevPos - s.pos l)) ∨
    (∃ l h hs, s.q.gd.lower = r :: l ∧ s.q.gd.higher = h :: hs ∧
      intOfSector (s.q.gd.prevPos - s.pos r) < intOfSector (s.pos h - s.q.gd.prevPos)) ∨
    (∃ h, s.q.gd.higher = r :: h ∧ s.q.gd.lower = []) ∨
    (∃ l, s.q.gd.lower = r :: l ∧ s.q.gd.higher = []) := by
  unfold greedyTarget at chosen
  split at chosen
  · rename_i h hs l ls hh hl
    dsimp only at chosen
    split at chosen
    · rename_i farther
      cases Option.some.inj chosen
      exact Or.inr (Or.inl ⟨ls, h, hs, hl, hh, farther⟩)
    · rename_i nearer
      cases Option.some.inj chosen
      exact Or.inl ⟨hs, l, ls, hh, hl, Int.not_lt.mp nearer⟩
  · rename_i h hs hh hl
    cases Option.some.inj chosen
    exact Or.inr (Or.inr (Or.inl ⟨hs, hh, hl⟩))
  · rename_i l ls hh hl
    cases Option.some.inj chosen
    exact Or.inr (Or.inr (Or.inr ⟨ls, hl, hh⟩))
  · contradiction

/- What the callers that do not care about distances need of the choice. -/
theorem targetHead {s : BlockState} {r : Ref} (chosen : greedyTarget s = some r) :
    (∃ h, s.q.gd.higher = r :: h) ∨ ∃ l, s.q.gd.lower = r :: l := by
  rcases targetCases chosen with ⟨h, _, _, hh, _⟩ | ⟨l, _, _, hl, _⟩ | ⟨h, hh, _⟩ | ⟨l, hl, _⟩
  · exact Or.inl ⟨h, hh⟩
  · exact Or.inr ⟨l, hl⟩
  · exact Or.inl ⟨h, hh⟩
  · exact Or.inr ⟨l, hl⟩

theorem targetQueued {s : BlockState} {r : Ref} (chosen : greedyTarget s = some r) : r ∈ s.queued := by
  rcases targetHead chosen with ⟨h, hh⟩ | ⟨l, hl⟩
  · simp [BlockState.queued, hh]
  · simp [BlockState.queued, hl]

section Add
variable (s : BlockState) (r : Ref)

@[simp] theorem addReq : (greedyAddRequest s r).req = s.req := by
  unfold greedyAddRequest; split <;> rfl
@[simp] theorem addPos (x : Ref) : (greedyAddRequest s r).pos x = s.pos x := by
  simp only [BlockState.pos, addReq]
@[simp] theorem addSectors (x : Ref) : (greedyAddRequest s r).sectors x = s.sectors x := by
  simp only [BlockState.sectors, addReq]
@[simp] theorem addStamps (x : Ref) : (greedyAddRequest s r).stamps x = s.stamps x := by
  simp only [BlockState.stamps, addReq]
@[simp] theorem addPrev : (greedyAddRequest s r).q.gd.prevPos = s.q.gd.prevPos := by
  unfold greedyAddRequest; split <;> rfl
@[simp] theorem addHead : (greedyAddRequest s r).q.queueHead = s.q.queueHead := by
  unfold greedyAddRequest; split <;> rfl
@[simp] theorem addSorted : (greedyAddRequest s r).q.nrSorted = s.q.nrSorted := by
  unfold greedyAddRequest; split <;> rfl

theorem addCases :
    (s.pos r < s.q.gd.prevPos ∧ (greedyAddRequest s r).q.gd.higher = s.q.gd.higher ∧
      (greedyAddRequest s r).q.gd.lower =
        scanAdd (fun x => s.pos x < s.pos r) r s.q.gd.lower) ∨
    (s.q.gd.prevPos ≤ s.pos r ∧ (greedyAddRequest s r).q.gd.lower = s.q.gd.lower ∧
      (greedyAddRequest s r).q.gd.higher =
        scanAdd (fun x => s.pos x > s.pos r) r s.q.gd.higher) := by
  unfold greedyAddRequest
  split
  · rename_i below
    exact Or.inl ⟨below, rfl, rfl⟩
  · rename_i above
    exact Or.inr ⟨BitVec.not_lt.mp above, rfl, rfl⟩

theorem addQueuedPerm : (greedyAddRequest s r).queued.Perm (r :: s.queued) := by
  rcases addCases s r with ⟨_, hh, hl⟩ | ⟨_, hl, hh⟩
  · rw [BlockState.queued, hh, hl]
    exact ((scanAddPerm _ r _).append_left _).trans List.perm_middle
  · rw [BlockState.queued, hh, hl]
    exact (scanAddPerm _ r _).append_right _

/- The request goes to the list on its side of the last position served. -/
theorem addSides {s : BlockState} (r : Ref)
    (above : ∀ x ∈ s.q.gd.higher, s.q.gd.prevPos ≤ s.pos x)
    (below : ∀ x ∈ s.q.gd.lower, s.pos x < s.q.gd.prevPos) :
    (∀ x ∈ (greedyAddRequest s r).q.gd.higher, s.q.gd.prevPos ≤ s.pos x) ∧
    ∀ x ∈ (greedyAddRequest s r).q.gd.lower, s.pos x < s.q.gd.prevPos := by
  rcases addCases s r with ⟨side, hh, hl⟩ | ⟨side, hl, hh⟩
  · refine ⟨fun x mem => above x (hh ▸ mem), fun x mem => ?_⟩
    rw [hl] at mem
    rcases scanAddMem.mp mem with rfl | old
    · exact side
    · exact below x old
  · refine ⟨fun x mem => ?_, fun x mem => below x (hl ▸ mem)⟩
    rw [hh] at mem
    rcases scanAddMem.mp mem with rfl | old
    · exact side
    · exact above x old

end Add

end KernelLabs.Block
