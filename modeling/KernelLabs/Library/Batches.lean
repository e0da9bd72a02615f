import Mathlib.Data.List.Pairwise
import Mathlib.Order.Lattice

/-! A loop over items that opens something when an item's key differs from the one before,
and closes it at the next change of key or at the end. It works through the list batch by
batch; where the keys never decrease, it opens every key once. -/
namespace KernelLabs.Batches

section
variable {α κ : Type} (key : α → κ)

/- The list cut where the key changes. -/
structure Cut (l : List α) (groups : List (List α)) : Prop where
  flat : groups.flatten = l
  some' : ∀ g ∈ groups, g ≠ []
  same : ∀ g ∈ groups, ∀ x ∈ g, ∀ y ∈ g, key x = key y
  differ : groups.IsChain (fun g h => ∀ x ∈ g, ∀ y ∈ h, key x ≠ key y)

variable {key}

theorem cutNil : Cut key [] [] := ⟨rfl, (fun _ member => by cases member),
  (fun _ member => by cases member), List.IsChain.nil⟩

theorem cutCons {x : α} {inside l : List α} {groups : List (List α)} (keys : ∀ y ∈ inside, key y = key x)
    (cut : Cut key l groups) (next : ∀ g ∈ groups.head?, ∀ y ∈ g, key y ≠ key x) :
    Cut key (x :: inside ++ l) ((x :: inside) :: groups) := by
  have group : ∀ y ∈ x :: inside, key y = key x := by
    intro y member
    rcases List.mem_cons.mp member with rfl | later
    · rfl
    · exact keys y later
  refine ⟨by rw [List.flatten_cons, cut.flat], ?_, ?_, ?_⟩
  · intro g member
    rcases List.mem_cons.mp member with rfl | later
    · exact List.cons_ne_nil x inside
    · exact cut.some' g later
  · intro g member
    rcases List.mem_cons.mp member with rfl | later
    · exact fun y here z there => (group y here).trans (group z there).symm
    · exact cut.same g later
  · cases groups with
    | nil => exact List.IsChain.singleton _
    | cons h more =>
      refine List.IsChain.cons_cons ?_ cut.differ
      intro y here z there same
      exact next h rfl z there (same.symm.trans (group y here))

/- Keys that never decrease: no key comes back in a later batch. -/
theorem cutApart [LinearOrder κ] {l : List α} {groups : List (List α)} (cut : Cut key l groups)
    (sorted : l.Pairwise (fun x y => key x ≤ key y)) :
    groups.Pairwise (fun g h => ∀ x ∈ g, ∀ y ∈ h, key x < key y) := by
  obtain ⟨rfl, some', same, differ⟩ := cut
  induction groups with
  | nil => exact List.Pairwise.nil
  | cons g groups ih =>
    rw [List.flatten_cons, List.pairwise_append] at sorted
    obtain ⟨-, later, across⟩ := sorted
    have rest := ih (fun h member => some' h (List.mem_cons_of_mem g member))
      (fun h member => same h (List.mem_cons_of_mem g member)) (List.IsChain.of_cons differ) later
    refine List.Pairwise.cons ?_ rest
    cases groups with
    | nil => exact fun h member => by cases member
    | cons h more =>
      have second : h ∈ h :: more := List.mem_cons_self
      obtain ⟨z, there⟩ := List.exists_mem_of_ne_nil h (some' h (List.mem_cons_of_mem g second))
      have below : ∀ x ∈ g, ∀ y ∈ h, key x < key y := by
        intro x here y there
        have le := across x here y (List.mem_flatten.mpr ⟨h, second, there⟩)
        have off : key x ≠ key y := (List.isChain_cons_cons.mp differ).1 x here y there
        exact lt_of_le_of_ne le off
      intro k member x here y found
      rcases List.mem_cons.mp member with rfl | further
      · exact below x here y found
      · exact (below x here z there).trans ((List.pairwise_cons.mp rest).1 k further z there y found)

end

section
variable {α κ ε : Type} [DecidableEq κ]
variable (key : α → κ) (opening : κ → List ε) (each : α → List ε) (counted : α → Bool)
  (closing : κ → Nat → List ε)

def closeOpen : Option κ → Nat → List ε
  | none, _ => []
  | some k, n => closing k n

/- `n` counts the items counted since the last opening. -/
def sweep : Option κ → Nat → List α → List ε
  | current, n, [] => closeOpen closing current n
  | current, n, x :: rest =>
    if current = some (key x) then
      each x ++ sweep current (if counted x then n + 1 else n) rest
    else
      closeOpen closing current n ++ opening (key x) ++ each x ++
        sweep (some (key x)) (if counted x then 1 else 0) rest

def batch : List α → List ε
  | [] => []
  | x :: rest =>
    opening (key x) ++ (x :: rest).flatMap each ++ closing (key x) ((x :: rest).countP counted)

/- Inside a batch with `n` counted items so far: its rest, then the batches after it. -/
theorem sweepInside (k : κ) (n : Nat) (l : List α) : ∃ inside groups, inside ++ groups.flatten = l ∧
    (∀ x ∈ inside, key x = k) ∧ Cut key groups.flatten groups ∧
    (∀ g ∈ groups.head?, ∀ x ∈ g, key x ≠ k) ∧
    sweep key opening each counted closing (some k) n l =
      inside.flatMap each ++ closing k (n + inside.countP counted) ++
        groups.flatMap (batch key opening each counted closing) := by
  induction l generalizing k n with
  | nil =>
    refine ⟨[], [], rfl, (fun _ member => by cases member), cutNil, (fun _ member => by cases member), ?_⟩
    simp [sweep, closeOpen]
  | cons x rest ih =>
    rw [sweep]
    split
    · rename_i stays
      obtain ⟨inside, groups, flat, keys, cut, next, ran⟩ := ih k (if counted x then n + 1 else n)
      refine ⟨x :: inside, groups, congrArg _ flat, ?_, cut, next, ?_⟩
      · intro y member
        rcases List.mem_cons.mp member with rfl | later
        · exact (Option.some.inj stays).symm
        · exact keys y later
      · have counts : (if counted x then n + 1 else n) + inside.countP counted =
            n + (x :: inside).countP counted := by
          rw [List.countP_cons]
          split <;> omega
        rw [ran, counts, List.flatMap_cons]
        simp only [List.append_assoc]
    · rename_i changes
      obtain ⟨inside, groups, flat, keys, cut, next, ran⟩ := ih (key x) (if counted x then 1 else 0)
      have whole := cutCons keys cut next
      refine ⟨[], (x :: inside) :: groups, ?_, (fun _ member => by cases member), ?_, ?_, ?_⟩
      · rw [List.nil_append, List.flatten_cons, List.cons_append, flat]
      · exact whole
      · intro g member y here same
        cases Option.some.inj member
        have head := whole.same _ List.mem_cons_self x List.mem_cons_self y here
        exact changes (congrArg some (head.trans same).symm)
      · have counts : (if counted x then 1 else 0) + inside.countP counted = (x :: inside).countP counted := by
          rw [List.countP_cons, Nat.add_comm]
        rw [ran, counts, List.flatMap_cons, batch]
        simp only [closeOpen, List.flatMap_nil, List.countP_nil, Nat.add_zero, List.flatMap_cons,
          List.append_assoc, List.nil_append]

/- The loop is its batches, one after the other. -/
theorem sweepBatches (l : List α) : ∃ groups, Cut key l groups ∧
    sweep key opening each counted closing none 0 l =
      groups.flatMap (batch key opening each counted closing) := by
  cases l with
  | nil => exact ⟨[], cutNil, rfl⟩
  | cons x rest =>
    obtain ⟨inside, groups, flat, keys, cut, next, ran⟩ :=
      sweepInside key opening each counted closing (key x) (if counted x then 1 else 0) rest
    refine ⟨(x :: inside) :: groups, ?_, ?_⟩
    · rw [← flat]
      exact cutCons keys cut next
    · have counts : (if counted x then 1 else 0) + inside.countP counted = (x :: inside).countP counted := by
        rw [List.countP_cons, Nat.add_comm]
      rw [sweep, if_neg (Option.some_ne_none _).symm, ran, counts, List.flatMap_cons, batch]
      simp only [closeOpen, List.flatMap_cons, List.append_assoc, List.nil_append]

end

end KernelLabs.Batches
