import KernelLabs.Block.ShortestSeek

/-! Which request the elevator calls the former and the latter of another. The same
links are followed on both lists, but `lower` runs from higher sectors to lower ones. -/
namespace KernelLabs.Neighbours
open Block LinkedList ShortestSeek

/- What a `queuelist` pointer of a queued request points to. -/
inductive Link where
  | higher | lower
  | entry (r : Ref)
  deriving DecidableEq, Repr

def queuelistPrev (s : BlockState) (rq : Ref) : Link :=
  if rq ∈ s.q.gd.higher then ((listPrev rq s.q.gd.higher).map .entry).getD .higher
  else ((listPrev rq s.q.gd.lower).map .entry).getD .lower

def queuelistNext (s : BlockState) (rq : Ref) : Link :=
  if rq ∈ s.q.gd.higher then ((listNext rq s.q.gd.higher).map .entry).getD .higher
  else ((listNext rq s.q.gd.lower).map .entry).getD .lower

/- The list entry a pointer stands in, unless it is one of the two list heads. -/
def listEntry : Link → Option Ref
  | .higher | .lower => none
  | .entry r => some r

def greedyFormerRequest (s : BlockState) (rq : Ref) : Option Ref := listEntry (queuelistPrev s rq)
def greedyLatterRequest (s : BlockState) (rq : Ref) : Option Ref := listEntry (queuelistNext s rq)

structure Ordered (s : BlockState) : Prop where
  ascending : s.q.gd.higher.Pairwise (fun a b => first s a < first s b)
  descending : s.q.gd.lower.Pairwise (fun a b => first s b < first s a)
  distinct : ∀ a ∈ s.q.gd.higher, ∀ b ∈ s.q.gd.lower, first s a ≠ first s b

def Before (s : BlockState) (a b : Ref) : Prop := first s a < first s b
def After (s : BlockState) (a b : Ref) : Prop := first s b < first s a

/- Among the requests of its own list, the former one is the closest on disk before
it and the latter one the closest after it. -/
def FollowsSectors (s : BlockState) (rq : Ref) (l : List Ref) : Prop :=
  Precedes (Before s) l rq (greedyFormerRequest s rq) ∧
    Precedes (After s) l rq (greedyLatterRequest s rq)

def ownList (s : BlockState) (rq : Ref) : List Ref :=
  if rq ∈ s.q.gd.higher then s.q.gd.higher else s.q.gd.lower

section Lookup
variable {s : BlockState} {rq : Ref}

theorem entryOrHead (o : Option Ref) {head : Link} (isHead : listEntry head = none) :
    listEntry ((o.map .entry).getD head) = o := by
  cases o with
  | none => exact isHead
  | some r => rfl

theorem lookups (s : BlockState) (rq : Ref) :
    greedyFormerRequest s rq = listPrev rq (ownList s rq) ∧
      greedyLatterRequest s rq = listNext rq (ownList s rq) := by
  unfold greedyFormerRequest greedyLatterRequest queuelistPrev queuelistNext ownList
  split
  · exact ⟨entryOrHead _ rfl, entryOrHead _ rfl⟩
  · exact ⟨entryOrHead _ rfl, entryOrHead _ rfl⟩

theorem higherFollows (ordered : Ordered s) (mem : rq ∈ s.q.gd.higher) :
    FollowsSectors s rq s.q.gd.higher := by
  have trans : ∀ a b c, Before s a b → Before s b c → Before s a c := fun _ _ _ => Nat.lt_trans
  have irrefl : ∀ a, ¬ Before s a a := fun _ => Nat.lt_irrefl _
  obtain ⟨former, latter⟩ := lookups s rq
  rw [ownList, if_pos mem] at former latter
  unfold FollowsSectors
  rw [former, latter]
  exact ⟨prevPrecedes trans irrefl ordered.ascending mem, nextPrecedes trans irrefl ordered.ascending mem⟩

/- On `lower` the links lead the other way. -/
theorem lowerTurned (ordered : Ordered s) (high : rq ∉ s.q.gd.higher) (mem : rq ∈ s.q.gd.lower) :
    Precedes (After s) s.q.gd.lower rq (greedyFormerRequest s rq) ∧
      Precedes (Before s) s.q.gd.lower rq (greedyLatterRequest s rq) := by
  have trans : ∀ a b c, After s a b → After s b c → After s a c := fun _ _ _ ab bc => Nat.lt_trans bc ab
  have irrefl : ∀ a, ¬ After s a a := fun _ => Nat.lt_irrefl _
  obtain ⟨former, latter⟩ := lookups s rq
  rw [ownList, if_neg high] at former latter
  rw [former, latter]
  exact ⟨prevPrecedes trans irrefl ordered.descending mem,
    nextPrecedes trans irrefl ordered.descending mem⟩

theorem precedesAlone {lt : Ref → Ref → Prop} (irrefl : ¬ lt rq rq) : Precedes lt [rq] rq none where
  first := by simpa using irrefl
  closest := by
    intro y found
    contradiction

theorem lowerFollows (ordered : Ordered s) (high : rq ∉ s.q.gd.higher) (mem : rq ∈ s.q.gd.lower)
    (follows : FollowsSectors s rq s.q.gd.lower) : s.q.gd.lower = [rq] := by
  obtain ⟨former, latter⟩ := lowerTurned ordered high mem
  have descending := ordered.descending
  obtain ⟨pre, post, lists⟩ := List.append_of_mem mem
  rw [lists] at descending
  obtain ⟨_, behind, across⟩ := List.pairwise_append.mp descending
  have noneBefore : ∀ y ∈ post, False := by
    intro y memY
    have less : Before s y rq := (List.pairwise_cons.mp behind).1 y memY
    cases found : greedyFormerRequest s rq with
    | none => exact follows.1.first.mp found y (by simp [lists, memY]) less
    | some z =>
      have down : Before s z rq := (follows.1.closest z found).2.1
      have up : After s z rq := (former.closest z found).2.1
      exact Nat.lt_asymm down up
  have noneAfter : ∀ y ∈ pre, False := by
    intro y memY
    have more : After s y rq := across y memY rq List.mem_cons_self
    cases found : greedyLatterRequest s rq with
    | none => exact follows.2.first.mp found y (by simp [lists, memY]) more
    | some z =>
      have up : After s z rq := (follows.2.closest z found).2.1
      have down : Before s z rq := (latter.closest z found).2.1
      exact Nat.lt_asymm down up
  rw [lists, List.eq_nil_iff_forall_not_mem.mpr noneAfter, List.eq_nil_iff_forall_not_mem.mpr noneBefore]
  rfl

theorem followsSectorsIff (ordered : Ordered s) (mem : rq ∈ s.queued) :
    FollowsSectors s rq (ownList s rq) ↔ rq ∈ s.q.gd.higher ∨ s.q.gd.lower = [rq] := by
  by_cases high : rq ∈ s.q.gd.higher
  · rw [ownList, if_pos high]
    exact ⟨fun _ => Or.inl high, fun _ => higherFollows ordered high⟩
  · have low : rq ∈ s.q.gd.lower := (List.mem_append.mp mem).resolve_left high
    rw [or_iff_right high]
    constructor
    · intro follows
      rw [ownList, if_neg high] at follows
      exact lowerFollows ordered high low follows
    · intro alone
      obtain ⟨former, latter⟩ := lookups s rq
      have own : ownList s rq = [rq] := (if_neg high).trans alone
      unfold FollowsSectors
      rw [former, latter, own]
      simp only [listPrev, listNext, if_true, List.head?_nil]
      exact ⟨precedesAlone (Nat.lt_irrefl _), precedesAlone (Nat.lt_irrefl _)⟩

end Lookup

/- Sectors 5 and 10 on one of the lists. -/
def bothHigher : BlockState := {twoRequests with q := {emptyQueue with gd := ⟨[0, 1], [], 4⟩}}
def bothLower : BlockState := {twoRequests with q := {emptyQueue with gd := ⟨[], [1, 0], 11⟩}}

theorem higherInOrder : FollowsSectors bothHigher 1 (ownList bothHigher 1) :=
  (followsSectorsIff ⟨by decide, by decide, by decide⟩ (by decide)).mpr (by decide)

/- Nothing is before sector 10, the elevator says, though sector 5 is queued. -/
theorem lowerOutOfOrder : Ordered bothLower ∧ 1 ∈ bothLower.queued ∧
    greedyFormerRequest bothLower 1 = none ∧ ¬ FollowsSectors bothLower 1 (ownList bothLower 1) := by
  refine ⟨⟨by decide, by decide, by decide⟩, by decide, by decide, fun follows => ?_⟩
  have alone : ∀ y ∈ ownList bothLower 1, ¬ Before bothLower y 1 := follows.1.first.mp (by decide)
  exact alone 0 (by decide) (by unfold Before; decide)

end KernelLabs.Neighbours
