import KernelLabs.Block.Elevator
import KernelLabs.Block.SortedLists

/-! The merges of the block core on queued requests. They change a request's range in
place, and the greedy elevator registers no hook to be told, so its lists stay as they
are. Only a front merge moves the sector that the lists are keyed by. -/
namespace KernelLabs.Merging
open Block ShortestSeek SortedLists

structure Bio where
  biSector : Sector
  biSize : BitVec 32
  deriving DecidableEq, Repr

def bioSectors (bio : Bio) : BitVec 32 := bio.biSize >>> 9

inductive ElvMerge where
  | noMerge | frontMerge | backMerge
  deriving DecidableEq, Repr

/- `allowed` is what `ll_back_merge_fn`, and below `ll_front_merge_fn`, answered. -/
def bioAttemptBackMerge (allowed : Bool) (s : BlockState) (req : Ref) (bio : Bio) : Bool × BlockState :=
  if !allowed then (false, s)
  else (true, s.setReq req fun rq => {rq with dataLen := rq.dataLen + bio.biSize})

def bioAttemptFrontMerge (allowed : Bool) (s : BlockState) (req : Ref) (bio : Bio) : Bool × BlockState :=
  if !allowed then (false, s)
  else (true, s.setReq req fun rq => {rq with sector := bio.biSector, dataLen := rq.dataLen + bio.biSize})

/- The greedy elevator has no `elevator_merged_fn`. -/
def elvMergedRequest (s : BlockState) (rq : Ref) (type : ElvMerge) : Option BlockState :=
  (if type = .backMerge then elvRqhashReposition s rq else some s).map fun s =>
    {s with q := {s.q with lastMerge := some rq}}

inductive Merge where
  | back (allowed : Bool) (rq : Ref) (bio : Bio)
  | front (allowed : Bool) (rq : Ref) (bio : Bio)
  | requests (rq next : Ref)
  deriving DecidableEq, Repr

/- After `elv_merge_requests` the core extends the survivor over what it absorbed. -/
def absorb (s : BlockState) (rq next : Ref) : BlockState :=
  s.setReq rq fun r => {r with dataLen := r.dataLen + (s.req next).dataLen}

def merge (s : BlockState) : Merge → Option BlockState
  | .back allowed rq bio =>
      match bioAttemptBackMerge allowed s rq bio with
      | (true, s) => elvMergedRequest s rq .backMerge
      | (false, s) => some s
  | .front allowed rq bio =>
      match bioAttemptFrontMerge allowed s rq bio with
      | (true, s) => elvMergedRequest s rq .frontMerge
      | (false, s) => some s
  | .requests rq next => (elvMergeRequests s rq next).map fun s => absorb s rq next

def BioApart (s : BlockState) (x : Ref) (bio : Bio) : Prop :=
  first s x + s.sectors x ≤ bio.biSector.toNat ∨
    bio.biSector.toNat + (bioSectors bio).toNat ≤ first s x
instance (s x bio) : Decidable (BioApart s x bio) := by unfold BioApart; infer_instance

/- The merges the core tries: a bio of sectors not queued yet, right behind or right
before a queued request, or a queued request right behind another one. -/
def Adjacent (s : BlockState) : Merge → Prop
  | .back _ rq bio => rq ∈ s.queued ∧ (∀ x ∈ s.queued, BioApart s x bio) ∧
      first s rq + s.sectors rq = bio.biSector.toNat
  | .front _ rq bio => rq ∈ s.queued ∧ (∀ x ∈ s.queued, BioApart s x bio) ∧
      bio.biSector.toNat + (bioSectors bio).toNat = first s rq
  | .requests rq next => rq ∈ s.queued ∧ next ∈ s.queued ∧ rq ≠ next ∧
      first s rq + s.sectors rq = first s next

/- No request on `higher` is made to start before the split. -/
def StaysAbove (s : BlockState) : Merge → Prop
  | .front allowed rq bio => allowed = true → rq ∈ s.q.gd.higher → s.q.gd.prevPos ≤ bio.biSector
  | _ => True

section Keep
variable {s t : BlockState}

/- Requests may leave the lists as long as those that stay keep their positions. -/
theorem representsFewer (rep : Represents s) (positions : ∀ x, t.pos x = s.pos x)
    (prevPos : t.q.gd.prevPos = s.q.gd.prevPos) (higher : t.q.gd.higher.Sublist s.q.gd.higher)
    (lower : t.q.gd.lower.Sublist s.q.gd.lower) : Represents t := by
  refine representsIff.mpr ?_
  simp only [positions, prevPos]
  exact ⟨rep.ascending.sublist higher, rep.descending.sublist lower,
    fun x mem => rep.above x (higher.subset mem), fun x mem => rep.below x (lower.subset mem)⟩

theorem setReqPos (s : BlockState) (r x : Ref) (f : Request → Request) :
    (s.setReq r f).pos x = if x = r then (f (s.req r)).sector else s.pos x := by
  unfold BlockState.pos BlockState.setReq blkRqPos
  dsimp only
  split
  · rename_i same
    rw [same]
  · rfl

theorem setLenPos (s : BlockState) (r x : Ref) (len : BitVec 32) :
    (s.setReq r fun rq => {rq with dataLen := rq.dataLen + len}).pos x = s.pos x := by
  rw [setReqPos]
  split
  · rename_i same
    rw [same]; rfl
  · rfl

theorem repositionKeeps (s : BlockState) (r : Ref) :
    ∃ t, elvRqhashReposition s r = some t ∧ t.q = s.q ∧ ∀ x, t.pos x = s.pos x := by
  refine ⟨_, repositionExact s r, rfl, fun x => ?_⟩
  rw [BlockState.setFlagsPos, BlockState.setFlagsPos]

theorem mergedRequestLists (s : BlockState) (rq : Ref) (type : ElvMerge) :
    ∃ t, elvMergedRequest s rq type = some t ∧ t.q.gd = s.q.gd ∧ ∀ x, t.pos x = s.pos x := by
  unfold elvMergedRequest
  split
  · obtain ⟨u, repositioned, lists, positions⟩ := repositionKeeps s rq
    rw [repositioned]
    exact ⟨_, rfl, congrArg (·.gd) lists, positions⟩
  · exact ⟨_, rfl, rfl, fun _ => rfl⟩

theorem mergeRequestsLists (s : BlockState) (rq next : Ref) :
    ∃ t, elvMergeRequests s rq next = some t ∧ (∀ x, t.pos x = s.pos x) ∧
      t.q.gd.prevPos = s.q.gd.prevPos ∧ t.q.gd.higher.Sublist s.q.gd.higher ∧
      t.q.gd.lower.Sublist s.q.gd.lower := by
  unfold elvMergeRequests
  dsimp only
  cases (s.req next).cmdFlags.sorted with
  | true =>
    obtain ⟨u, repositioned, lists, positions⟩ := repositionKeeps (greedyMergedRequests s rq next) rq
    simp only [if_true, repositioned, Option.map_some]
    refine ⟨_, rfl, fun x => ?_, ?_⟩
    · exact (rqhashDelPos u next x).trans (positions x)
    · rw [rqhashDelQ, lists]
      exact ⟨rfl, List.erase_sublist, List.erase_sublist⟩
  | false =>
    obtain ⟨u, repositioned, lists, positions⟩ := repositionKeeps s rq
    simp only [Bool.false_eq_true, if_false, repositioned, Option.map_some]
    refine ⟨_, rfl, positions, ?_⟩
    rw [lists]
    exact ⟨rfl, List.Sublist.refl _, List.Sublist.refl _⟩

/- A request that starts no later than the one extended starts no later than the bio. -/
theorem beforeBio (ranges : NonOverlapping s) {rq x : Ref} {bio : Bio} (memRq : rq ∈ s.queued)
    (mem : x ∈ s.queued) (apart : BioApart s x bio) (other : x ≠ rq)
    (adjacent : bio.biSector.toNat + (bioSectors bio).toNat = first s rq)
    (le : s.pos x ≤ s.pos rq) : s.pos x ≤ bio.biSector := by
  have le := BitVec.le_def.mp le
  have apartRq : Apart s x rq := ranges.apart.forall mem memRq other
  have nonEmpty := ranges.nonEmpty x mem
  have nonEmptyRq := ranges.nonEmpty rq memRq
  rw [BitVec.le_def]
  simp only [Apart, BioApart, first] at *
  omega

end Keep

section Front
variable {s t : BlockState} {rq : Ref} {bio : Bio}

theorem frontRepresents (rep : Represents s) (ranges : NonOverlapping s)
    (adjacent : Adjacent s (.front true rq bio)) (lists : t.q.gd = s.q.gd)
    (positions : ∀ x, t.pos x = if x = rq then bio.biSector else s.pos x)
    (stays : rq ∈ s.q.gd.higher → s.q.gd.prevPos ≤ bio.biSector) : Represents t := by
  obtain ⟨memRq, apart, ends⟩ := adjacent
  have earlier : bio.biSector ≤ s.pos rq := by
    rw [BitVec.le_def]
    simp only [first] at ends
    omega
  have order : ∀ x ∈ s.queued, ∀ y ∈ s.queued, s.pos x ≤ s.pos y → t.pos x ≤ t.pos y := by
    intro x memX y memY le
    rw [positions, positions]
    by_cases sameX : x = rq
    · rw [if_pos sameX]
      split
      · exact BitVec.le_refl _
      · exact BitVec.le_trans earlier (sameX ▸ le)
    · rw [if_neg sameX]
      split
      · rename_i sameY
        exact beforeBio ranges memRq memX (apart x memX) sameX ends (sameY ▸ le)
      · exact le
  have inHigher : ∀ x ∈ s.q.gd.higher, x ∈ s.queued := fun x mem => List.mem_append_left _ mem
  have inLower : ∀ x ∈ s.q.gd.lower, x ∈ s.queued := fun x mem => List.mem_append_right _ mem
  refine representsIff.mpr ?_
  rw [lists]
  refine ⟨?_, ?_, ?_, ?_⟩
  · exact rep.ascending.imp_of_mem fun memA memB le => order _ (inHigher _ memA) _ (inHigher _ memB) le
  · exact rep.descending.imp_of_mem fun memA memB le => order _ (inLower _ memB) _ (inLower _ memA) le
  · intro x mem
    rw [positions]
    split
    · rename_i same
      exact stays (same ▸ mem)
    · exact rep.above x mem
  · intro x mem
    rw [positions]
    split
    · rename_i same
      exact BitVec.lt_def.mpr (Nat.lt_of_le_of_lt (BitVec.le_def.mp earlier)
        (BitVec.lt_def.mp (rep.below rq (same ▸ mem))))
    · exact rep.below x mem

theorem frontRepresentsIff (rep : Represents s) (ranges : NonOverlapping s)
    (adjacent : Adjacent s (.front true rq bio)) (lists : t.q.gd = s.q.gd)
    (positions : ∀ x, t.pos x = if x = rq then bio.biSector else s.pos x) :
    Represents t ↔ StaysAbove s (.front true rq bio) := by
  constructor
  · intro kept _ mem
    have above := kept.above rq (lists ▸ mem)
    rwa [positions, if_pos rfl, lists] at above
  · intro stays
    exact frontRepresents rep ranges adjacent lists positions (stays rfl)

end Front

/- Each merge goes through, and keeps the lists sorted and split exactly when it does
not make a request of `higher` start below the split. -/
theorem mergeRepresentsIff {s : BlockState} {m : Merge} (rep : Represents s) (ranges : NonOverlapping s)
    (adjacent : Adjacent s m) : ∃ t, merge s m = some t ∧ (Represents t ↔ StaysAbove s m) := by
  cases m with
  | back allowed rq bio =>
    cases allowed with
    | false => exact ⟨s, rfl, fun _ => trivial, fun _ => rep⟩
    | true =>
      obtain ⟨t, merged, lists, positions⟩ := mergedRequestLists
        (s.setReq rq fun r => {r with dataLen := r.dataLen + bio.biSize}) rq .backMerge
      have same : ∀ x, t.pos x = s.pos x := fun x => (positions x).trans (setLenPos s rq x _)
      have listsT : t.q.gd = s.q.gd := lists
      refine ⟨t, merged, fun _ => trivial, fun _ => ?_⟩
      apply representsFewer rep same
      · rw [listsT]
      · rw [listsT]
      · rw [listsT]
  | front allowed rq bio =>
    cases allowed with
    | false => exact ⟨s, rfl, fun _ h => absurd h (by decide), fun _ => rep⟩
    | true =>
      obtain ⟨t, merged, lists, positions⟩ := mergedRequestLists
        (s.setReq rq fun r => {r with sector := bio.biSector, dataLen := r.dataLen + bio.biSize})
        rq .frontMerge
      have moved : ∀ x, t.pos x = if x = rq then bio.biSector else s.pos x :=
        fun x => (positions x).trans (setReqPos s rq x _)
      exact ⟨t, merged, frontRepresentsIff rep ranges adjacent lists moved⟩
  | requests rq next =>
    obtain ⟨u, merged, positions, prevPos, higher, lower⟩ := mergeRequestsLists s rq next
    have same : ∀ x, (absorb u rq next).pos x = s.pos x :=
      fun x => (setLenPos u rq x _).trans (positions x)
    refine ⟨absorb u rq next, by simp only [merge, merged, Option.map_some], fun _ => trivial, fun _ => ?_⟩
    exact representsFewer rep same prevPos higher lower

def fiveAndTen : BlockState := around 7 [1] [0]

theorem tenExtended : ∃ t, merge fiveAndTen (.front true 1 ⟨9, 512⟩) = some t ∧
    (Represents t ↔ StaysAbove fiveAndTen (.front true 1 ⟨9, 512⟩)) :=
  mergeRepresentsIff (by decide) ⟨by decide, by decide⟩ ⟨by decide, by decide, by decide⟩

/- Four sectors in front of sector 10 start at sector 6, below the split at 7. -/
theorem mergedBelowSplit : Represents fiveAndTen ∧ NonOverlapping fiveAndTen ∧
    Adjacent fiveAndTen (.front true 1 ⟨6, 2048⟩) ∧
    ∃ t, merge fiveAndTen (.front true 1 ⟨6, 2048⟩) = some t ∧ ¬ Represents t := by
  refine ⟨by decide, ⟨by decide, by decide⟩, ⟨by decide, by decide, by decide⟩, _, rfl, ?_⟩
  intro kept
  exact absurd (kept.above 1 (by decide)) (by decide)

end KernelLabs.Merging
