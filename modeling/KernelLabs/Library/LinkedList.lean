import Mathlib.Data.List.Perm.Basic
import Mathlib.Data.List.InsertIdx

/-! The kernel's circular lists as the sequence of their entries from the head on.
A position is an entry's index, or `none` for the list head itself, which is where
`list_for_each` stands when no `break` stopped it. -/
namespace KernelLabs.LinkedList

variable {α : Type}

def listForEach (stop : α → Bool) (l : List α) : Option Nat := l.findIdx? stop

/- `list_add` links the new entry right after the given position. -/
def listAdd (x : α) (pos : Option Nat) (l : List α) : List α :=
  match pos with
  | none => x :: l
  | some i => l.insertIdx (i + 1) x

def scanAdd (stop : α → Bool) (x : α) (l : List α) : List α := listAdd x (listForEach stop l) l

theorem insertBehind (x y : α) (pre post : List α) :
    (pre ++ y :: post).insertIdx (pre.length + 1) x = pre ++ y :: x :: post := by
  induction pre with
  | nil => rfl
  | cons z pre ih => simpa using ih

/- The two ways a scan ends: at the list head, or at an entry that stopped it. -/
theorem scanAddCases (stop : α → Bool) (x : α) (l : List α) :
    ((∀ y ∈ l, stop y = false) ∧ scanAdd stop x l = x :: l) ∨
    ∃ pre y post, l = pre ++ y :: post ∧ stop y = true ∧ scanAdd stop x l = pre ++ y :: x :: post := by
  cases found : listForEach stop l with
  | none =>
    refine Or.inl ⟨List.findIdx?_eq_none_iff.mp found, ?_⟩
    simp only [scanAdd, found, listAdd]
  | some i =>
    obtain ⟨inside, hit, _⟩ := List.findIdx?_eq_some_iff_getElem.mp found
    have parts : l = l.take i ++ l[i] :: l.drop (i + 1) := by
      rw [List.getElem_cons_drop inside, List.take_append_drop]
    have before : (l.take i).length = i := List.length_take_of_le (Nat.le_of_lt inside)
    refine Or.inr ⟨l.take i, l[i], l.drop (i + 1), parts, hit, ?_⟩
    have placed := insertBehind x l[i] (l.take i) (l.drop (i + 1))
    rw [← parts, before] at placed
    simpa only [scanAdd, found, listAdd] using placed

theorem scanAddPerm (stop : α → Bool) (x : α) (l : List α) : (scanAdd stop x l).Perm (x :: l) := by
  rcases scanAddCases stop x l with ⟨_, front⟩ | ⟨pre, y, post, rfl, _, behind⟩
  · rw [front]
  · have moved : pre ++ y :: x :: post = (pre ++ [y]) ++ x :: post := by simp
    have old : pre ++ y :: post = (pre ++ [y]) ++ post := by simp
    rw [behind, moved, old]
    exact List.perm_middle

theorem scanAddMem {stop : α → Bool} {x y : α} {l : List α} :
    y ∈ scanAdd stop x l ↔ y = x ∨ y ∈ l := by
  rw [(scanAddPerm stop x l).mem_iff, List.mem_cons]

/- The first entry stands in a given relation to all entries behind it. -/
def HeadFirst (rel : α → α → Prop) : List α → Prop
  | [] => True
  | y :: l => ∀ z ∈ l, rel y z

theorem headFirstTail {rel : α → α → Prop} {x : α} {l : List α} (first : ∀ z ∈ l, rel x z) :
    HeadFirst rel (x :: l) := first

/- Scanning for an entry that the new one does not precede and linking behind it
keeps the first entry first, but nothing more: the new entry goes to the front when
it precedes every entry and never before the entry that stopped the scan. -/
theorem scanAddHeadFirst {rel : α → α → Prop} {stop : α → Bool} {x : α} {l : List α}
    (trans : ∀ a b c, rel a b → rel b c → rel a c)
    (pass : ∀ y ∈ l, stop y = false → rel x y) (stopped : ∀ y ∈ l, stop y = true → rel y x)
    (first : HeadFirst rel l) : HeadFirst rel (scanAdd stop x l) := by
  rcases scanAddCases stop x l with ⟨passed, front⟩ | ⟨pre, y, post, rfl, hit, behind⟩
  · rw [front]
    exact headFirstTail fun z mem => pass z mem (passed z mem)
  · have after : rel y x := stopped y (by simp) hit
    rw [behind]
    cases pre with
    | nil =>
      intro z mem
      rcases List.mem_cons.mp mem with rfl | old
      · exact after
      · exact first z old
    | cons w pre =>
      have head : rel w y := first y (by simp)
      intro z mem
      rcases List.mem_append.mp mem with early | here
      · exact first z (List.mem_append_left _ early)
      · rcases List.mem_cons.mp here with rfl | rest
        · exact head
        · rcases List.mem_cons.mp rest with rfl | late
          · exact trans w y z head after
          · exact first z (List.mem_append_right _ (List.mem_cons_of_mem y late))

/- What sorted insertion this is: the new entry ends up in order only among entries
that are its equals. -/
theorem scanAddSortedIff (rel : α → α → Prop) {stop : α → Bool} {x : α} {l : List α}
    (later : ∀ y, stop y = true ↔ ¬ rel y x) (sorted : l.Pairwise rel) :
    (scanAdd stop x l).Pairwise rel ↔ ∀ y ∈ l, rel x y ∧ rel y x := by
  rcases scanAddCases stop x l with ⟨passed, front⟩ | ⟨pre, y, post, rfl, stopped, behind⟩
  · have before : ∀ y ∈ l, rel y x := by
      intro y mem
      by_contra after
      have stopped := (later y).mpr after
      rw [passed y mem] at stopped
      contradiction
    rw [front, List.pairwise_cons]
    constructor
    · rintro ⟨first, _⟩ y mem
      exact ⟨first y mem, before y mem⟩
    · intro same
      exact ⟨fun y mem => (same y mem).1, sorted⟩
  · have after : ¬ rel y x := (later y).mp stopped
    rw [behind]
    constructor
    · intro kept
      have pairs := (List.pairwise_append.mp kept).2.1
      exact absurd ((List.pairwise_cons.mp pairs).1 x List.mem_cons_self) after
    · intro same
      exact absurd (same y (by simp)).2 after

/- The entries linked before and after one on the list, `none` for the list head. -/
section Neighbours
variable [DecidableEq α]

def listPrev (x : α) : List α → Option α
  | y :: l => if y = x then none else if l.head? = some x then some y else listPrev x l
  | [] => none

def listNext (x : α) : List α → Option α
  | y :: l => if y = x then l.head? else listNext x l
  | [] => none

theorem listPrevSplit {x : α} {pre : List α} (new : x ∉ pre) (post : List α) :
    listPrev x (pre ++ x :: post) = pre.getLast? := by
  induction pre with
  | nil => exact if_pos rfl
  | cons y pre ih =>
    have rest := ih fun mem => new (List.mem_cons_of_mem y mem)
    have other : y ≠ x := fun same => new (by simp [same])
    rw [List.cons_append, listPrev, if_neg other]
    cases pre with
    | nil => exact if_pos rfl
    | cons z pre =>
      have apart : (z :: pre ++ x :: post).head? ≠ some x := by
        intro same
        exact new (by simp [Option.some.inj same])
      rw [if_neg apart, rest, List.getLast?_cons_cons]

theorem listNextSplit {x : α} {pre : List α} (new : x ∉ pre) (post : List α) :
    listNext x (pre ++ x :: post) = post.head? := by
  induction pre with
  | nil => exact if_pos rfl
  | cons y pre ih =>
    have other : y ≠ x := fun same => new (by simp [same])
    rw [List.cons_append, listNext, if_neg other]
    exact ih fun mem => new (List.mem_cons_of_mem y mem)

end Neighbours

/- The entry right before `x` in a given order: `none` when nothing comes before it. -/
structure Precedes (lt : α → α → Prop) (l : List α) (x : α) (o : Option α) : Prop where
  first : o = none ↔ ∀ y ∈ l, ¬ lt y x
  closest : ∀ y, o = some y → y ∈ l ∧ lt y x ∧ ∀ z ∈ l, lt z x → ¬ lt y z

section Sorted
variable [DecidableEq α] {lt : α → α → Prop} {l : List α} {x : α}

theorem prevPrecedes (trans : ∀ a b c, lt a b → lt b c → lt a c) (irrefl : ∀ a, ¬ lt a a)
    (sorted : l.Pairwise lt) (mem : x ∈ l) : Precedes lt l x (listPrev x l) := by
  obtain ⟨pre, post, rfl⟩ := List.append_of_mem mem
  obtain ⟨sortedPre, sortedPost, across⟩ := List.pairwise_append.mp sorted
  have before : ∀ y ∈ pre, lt y x := fun y memY => across y memY x List.mem_cons_self
  have behind : ∀ y ∈ post, lt x y := (List.pairwise_cons.mp sortedPost).1
  have new : x ∉ pre := fun memX => irrefl x (before x memX)
  have earlier : ∀ z ∈ pre ++ x :: post, lt z x → z ∈ pre := by
    intro z memZ less
    rcases List.mem_append.mp memZ with early | late
    · exact early
    · rcases List.mem_cons.mp late with rfl | late
      · exact absurd less (irrefl z)
      · exact absurd (trans z x z less (behind z late)) (irrefl z)
  rw [listPrevSplit new]
  constructor
  · rw [List.getLast?_eq_none_iff]
    constructor
    · rintro rfl y memY less
      exact absurd (earlier y memY less) List.not_mem_nil
    · intro none
      apply List.eq_nil_iff_forall_not_mem.mpr
      intro y memY
      exact none y (List.mem_append_left _ memY) (before y memY)
  · intro y last
    obtain ⟨init, rfl⟩ := List.getLast?_eq_some_iff.mp last
    have memY : y ∈ init ++ [y] := by simp
    refine ⟨List.mem_append_left _ memY, before y memY, ?_⟩
    intro z memZ less after
    rcases List.mem_append.mp (earlier z memZ less) with early | same
    · have order := (List.pairwise_append.mp sortedPre).2.2 z early y (by simp)
      exact irrefl z (trans z y z order after)
    · rw [List.mem_singleton.mp same] at after
      exact irrefl y after

theorem nextPrecedes (trans : ∀ a b c, lt a b → lt b c → lt a c) (irrefl : ∀ a, ¬ lt a a)
    (sorted : l.Pairwise lt) (mem : x ∈ l) :
    Precedes (fun a b => lt b a) l x (listNext x l) := by
  obtain ⟨pre, post, rfl⟩ := List.append_of_mem mem
  obtain ⟨_, sortedPost, across⟩ := List.pairwise_append.mp sorted
  have before : ∀ y ∈ pre, lt y x := fun y memY => across y memY x List.mem_cons_self
  have behind : ∀ y ∈ post, lt x y := (List.pairwise_cons.mp sortedPost).1
  have new : x ∉ pre := fun memX => irrefl x (before x memX)
  have later : ∀ z ∈ pre ++ x :: post, lt x z → z ∈ post := by
    intro z memZ less
    rcases List.mem_append.mp memZ with early | late
    · exact absurd (trans z x z (before z early) less) (irrefl z)
    · rcases List.mem_cons.mp late with rfl | late
      · exact absurd less (irrefl z)
      · exact late
  rw [listNextSplit new]
  cases post with
  | nil =>
    constructor
    · exact ⟨fun _ y memY less => absurd (later y memY less) List.not_mem_nil, fun _ => rfl⟩
    · intro y next
      contradiction
  | cons y post =>
    constructor
    · constructor
      · intro none
        contradiction
      · intro none
        exact absurd (behind y List.mem_cons_self) (none y (by simp))
    · intro w next
      cases Option.some.inj next
      refine ⟨by simp, behind y List.mem_cons_self, ?_⟩
      intro z memZ less before'
      rcases List.mem_cons.mp (later z memZ less) with rfl | late
      · exact irrefl z before'
      · have order := (List.pairwise_cons.mp (List.pairwise_cons.mp sortedPost).2).1 z late
        exact irrefl z (trans z y z before' order)

end Sorted

end KernelLabs.LinkedList
