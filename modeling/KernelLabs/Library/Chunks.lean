import Mathlib.Algebra.Ring.Nat
import Mathlib.Data.List.Basic

/-! A list of chunks consumed from its front. Each chunk is a run of consecutive units of
one owner; consuming may stop inside a chunk, which then starts later and is shorter. The
meaning of such a list is the flat list of its units, and consuming `n` is dropping `n`. -/
namespace KernelLabs.Chunks

structure Chunk (α : Type) where
  owner : α
  start : Nat
  len : Nat
  deriving DecidableEq, Repr

variable {α : Type}

def Chunk.units (c : Chunk α) : List (α × Nat) :=
  (List.range' c.start c.len).map (fun i => (c.owner, i))

def flat (chunks : List (Chunk α)) : List (α × Nat) := chunks.flatMap Chunk.units

def total (chunks : List (Chunk α)) : Nat := (chunks.map Chunk.len).sum

def Chunk.advance (c : Chunk α) (n : Nat) : Chunk α := ⟨c.owner, c.start + n, c.len - n⟩

/- A chunk of which nothing is left goes at once, so an empty chunk in front of `n = 0`
goes as well; the round after it does not start unless something is left to consume. -/
def eat : List (Chunk α) → Nat → List (Chunk α)
  | [], _ => []
  | c :: cs, n =>
    if c.len ≤ n then
      if n - c.len = 0 then cs else eat cs (n - c.len)
    else c.advance n :: cs

@[simp] theorem unitsLength (c : Chunk α) : c.units.length = c.len := by
  simp only [Chunk.units, List.length_map, List.length_range']

@[simp] theorem flatCons (c : Chunk α) (cs : List (Chunk α)) : flat (c :: cs) = c.units ++ flat cs := by
  simp only [flat, List.flatMap_cons]

@[simp] theorem totalCons (c : Chunk α) (cs : List (Chunk α)) : total (c :: cs) = c.len + total cs := by
  simp only [total, List.map_cons, List.sum_cons]

theorem flatLength (chunks : List (Chunk α)) : (flat chunks).length = total chunks := by
  induction chunks with
  | nil => rfl
  | cons c cs ih => simp only [flatCons, List.length_append, unitsLength, totalCons, ih]

theorem memberLen {c : Chunk α} {chunks : List (Chunk α)} (member : c ∈ chunks) : c.len ≤ total chunks := by
  induction chunks with
  | nil => cases member
  | cons d ds ih =>
    rw [totalCons]
    rcases List.mem_cons.mp member with rfl | later
    · exact Nat.le_add_right ..
    · exact Nat.le_trans (ih later) (Nat.le_add_left ..)

theorem unitsAdvance (c : Chunk α) (n : Nat) :
    (c.advance n).units = c.units.drop n := by
  simp only [Chunk.units, Chunk.advance, ← List.map_drop, List.drop_range', Nat.mul_one]

theorem flatEat (chunks : List (Chunk α)) (n : Nat) : flat (eat chunks n) = (flat chunks).drop n := by
  induction chunks generalizing n with
  | nil => simp only [eat, flat, List.flatMap_nil, List.drop_nil]
  | cons c cs ih =>
    have past : c.len ≤ n → (flat (c :: cs)).drop n = (flat cs).drop (n - c.len) := fun covered => by
      rw [flatCons, List.drop_append, unitsLength, List.drop_of_length_le (by simpa using covered),
        List.nil_append]
    simp only [eat]
    split
    · rename_i covered
      rw [past covered]
      split
      · rename_i none
        rw [none, List.drop_zero]
      · exact ih _
    · rename_i inside
      have within : n ≤ c.len := by omega
      rw [flatCons, flatCons, List.drop_append_of_le_length (by simpa using within), unitsAdvance c n]

theorem eatTotal (chunks : List (Chunk α)) (n : Nat) : total (eat chunks n) = total chunks - n := by
  rw [← flatLength, flatEat, List.length_drop, flatLength]

def Solid (chunks : List (Chunk α)) : Prop := ∀ c ∈ chunks, 0 < c.len

theorem solidTail {c : Chunk α} {cs : List (Chunk α)} (solid : Solid (c :: cs)) : Solid cs :=
  fun d member => solid d (List.mem_cons_of_mem c member)

theorem eatSolid {chunks : List (Chunk α)} (solid : Solid chunks) (n : Nat) : Solid (eat chunks n) := by
  induction chunks generalizing n with
  | nil => exact solid
  | cons c cs ih =>
    simp only [eat]
    split
    · split
      · exact solidTail solid
      · exact ih (solidTail solid) _
    · rename_i inside
      intro d member
      rcases List.mem_cons.mp member with rfl | later
      · simp only [Chunk.advance]; omega
      · exact solidTail solid d later

theorem eatZero {chunks : List (Chunk α)} (solid : Solid chunks) : eat chunks 0 = chunks := by
  cases chunks with
  | nil => rfl
  | cons c cs =>
    have some : ¬ c.len ≤ 0 := by have := solid c (List.mem_cons_self ..); omega
    simp only [eat, if_neg some, Chunk.advance, Nat.add_zero, Nat.sub_zero]

/- Where the cuts fall does not matter, only how much was consumed. -/
theorem eatEat {chunks : List (Chunk α)} (solid : Solid chunks) (n m : Nat) :
    eat (eat chunks n) m = eat chunks (n + m) := by
  induction chunks generalizing n with
  | nil => rfl
  | cons c cs ih =>
    by_cases covered : c.len ≤ n
    · have both : c.len ≤ n + m := by omega
      have rest : n + m - c.len = (n - c.len) + m := by omega
      simp only [eat, if_pos covered, if_pos both, rest]
      split
      · rename_i none
        rw [none, Nat.zero_add]
        split
        · rename_i nothing
          rw [nothing, eatZero (solidTail solid)]
        · rfl
      · rename_i more
        rw [if_neg (by omega), ih (solidTail solid)]
    · by_cases both : c.len ≤ n + m
      · have step : c.len - n ≤ m := by omega
        have same : m - (c.len - n) = n + m - c.len := by omega
        simp only [eat, if_neg covered, if_pos both, Chunk.advance, if_pos step, same]
      · have step : ¬ c.len - n ≤ m := by omega
        simp only [eat, if_neg covered, if_neg both, Chunk.advance, if_neg step, Nat.add_assoc,
          Nat.sub_sub]

/- Consuming everything leaves nothing, unless the last of several chunks is empty: the
consumer stops as soon as nothing is left to consume, and that chunk stays. -/
theorem eatAll (chunks : List (Chunk α)) :
    eat chunks (total chunks) = [] ↔
      chunks.length ≤ 1 ∨ ∃ c, chunks.getLast? = some c ∧ 0 < c.len := by
  induction chunks with
  | nil => simp only [eat, List.length_nil, Nat.zero_le, true_or]
  | cons c cs ih =>
    have rest : c.len + total cs - c.len = total cs := by omega
    simp only [totalCons, eat, if_pos (Nat.le_add_right c.len (total cs)), rest]
    cases cs with
    | nil => simp [total]
    | cons d ds =>
      have several : ¬ (c :: d :: ds).length ≤ 1 := by simp
      have last : (c :: d :: ds).getLast? = (d :: ds).getLast? := by simp [List.getLast?_cons_cons]
      simp only [several, false_or, last]
      split
      · rename_i empty
        constructor
        · intro impossible; cases impossible
        · rintro ⟨e, isLast, some⟩
          have member : e ∈ d :: ds := List.mem_of_getLast? isLast
          have bound : e.len ≤ total (d :: ds) := memberLen member
          omega
      · rename_i more
        rw [ih]
        constructor
        · rintro (single | found)
          · have nil : ds = [] := by simpa using single
            subst nil
            refine ⟨d, rfl, ?_⟩
            simp only [total, List.map_cons, List.map_nil, List.sum_cons, List.sum_nil, Nat.add_zero] at more
            omega
          · exact found
        · exact Or.inr

end KernelLabs.Chunks
