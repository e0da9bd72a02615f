import Mathlib.Data.List.Basic
import Mathlib.Data.Nat.ModEq

/-! Arrays as memory, and rings of a given capacity laid over them. The entries ever
written are a list; entry `k` of it goes to slot `k % cap`, so two entries share a
slot only when they are at least a capacity apart. -/
namespace KernelLabs.Buffer

variable {α : Type}

def store (mem : Nat → α) (i : Nat) (x : α) : Nat → α := fun j => if j = i then x else mem j

@[simp] theorem storeSame (mem : Nat → α) (i : Nat) (x : α) : store mem i x i = x := if_pos rfl

theorem storeOther {mem : Nat → α} {i j : Nat} {x : α} (other : j ≠ i) :
    store mem i x j = mem j := if_neg other

@[simp] theorem storeTwice (mem : Nat → α) (i : Nat) (x y : α) :
    store (store mem i x) i y = store mem i y := by
  funext j
  simp only [store]
  split <;> rfl

@[simp] theorem storeOld (mem : Nat → α) (i : Nat) : store mem i (mem i) = mem := by
  funext j
  simp only [store]
  split
  · rename_i same
    rw [same]
  · rfl

/- A loop that writes cell `n` in round `n` has written the first cells. -/
theorem storeRound {mem new old : Nat → α} {n : Nat} {x : α}
    (before : ∀ i, mem i = if i < n then new i else old i) (written : x = new n) (i : Nat) :
    store mem n x i = if i < n + 1 then new i else old i := by
  by_cases here : i = n
  · subst here
    rw [storeSame, if_pos (Nat.lt_succ_self i), written]
  · have rounds : i < n + 1 ↔ i < n := by omega
    rw [storeOther here, before]
    simp only [rounds]

def cells (mem : Nat → α) (n : Nat) : List α := (List.range n).map mem

@[simp] theorem cellsLength (mem : Nat → α) (n : Nat) : (cells mem n).length = n := by
  simp [cells]

theorem cellsStore (mem : Nat → α) (n : Nat) (x : α) :
    cells (store mem n x) (n + 1) = cells mem n ++ [x] := by
  have kept : cells (store mem n x) n = cells mem n := by
    apply List.map_congr_left
    intro i inside
    exact storeOther (Nat.ne_of_lt (List.mem_range.mp inside))
  simp only [cells] at kept ⊢
  rw [List.range_succ, List.map_append, kept]
  simp

/- A log cut off at a capacity takes an entry exactly while it is short of it. -/
theorem takeSnoc (l : List α) (x : α) (cap : Nat) :
    (l ++ [x]).take cap = if l.length < cap then l.take cap ++ [x] else l.take cap := by
  split
  · rename_i room
    have fits : (l ++ [x]).length ≤ cap := by
      rw [List.length_append, List.length_singleton]
      exact room
    rw [List.take_of_length_le (Nat.le_of_lt room), List.take_of_length_le fits]
  · rename_i full
    rw [List.take_append_of_le_length (Nat.not_lt.mp full)]

theorem sameSlot {cap a b : Nat} (same : a % cap = b % cap) (le : a ≤ b) (near : b < a + cap) :
    a = b := by
  have divides : cap ∣ b - a := (Nat.modEq_iff_dvd' le).mp same
  rcases Nat.eq_zero_or_pos (b - a) with zero | positive
  · omega
  · have far := Nat.le_of_dvd positive divides
    omega

/- The slot after a slot, as a counter that is reset when it reaches the capacity. -/
theorem nextSlot {cap : Nat} (k : Nat) (positive : 0 < cap) :
    (k + 1) % cap = if k % cap + 1 ≥ cap then 0 else k % cap + 1 := by
  have below := Nat.mod_lt k positive
  rw [Nat.add_mod]
  split
  · have last : k % cap + 1 = cap := by omega
    rcases Nat.eq_or_lt_of_le (Nat.succ_le_of_lt positive) with one | more
    · subst one; simp [Nat.mod_one]
    · rw [Nat.mod_eq_of_lt (a := 1) more, last, Nat.mod_self]
  · rename_i room
    rw [Nat.mod_eq_of_lt (a := 1) (by omega), Nat.mod_eq_of_lt (by omega)]

/- From entry `lo` on, every entry written is still in its slot. -/
def Window (mem : Nat → α) (cap : Nat) (log : List α) (lo : Nat) : Prop :=
  ∀ k x, lo ≤ k → log[k]? = some x → mem (k % cap) = x

theorem windowLater {mem : Nat → α} {cap lo hi : Nat} {log : List α}
    (window : Window mem cap log lo) (le : lo ≤ hi) : Window mem cap log hi :=
  fun k x late found => window k x (Nat.le_trans le late) found

theorem windowStore {mem : Nat → α} {cap lo : Nat} {log : List α}
    (window : Window mem cap log lo) (room : log.length < lo + cap) (x : α) :
    Window (store mem (log.length % cap) x) cap (log ++ [x]) lo := by
  intro k y late found
  rcases Nat.lt_or_ge k log.length with old | new
  · rw [List.getElem?_append_left old] at found
    rw [storeOther]
    · exact window k y late found
    · intro same
      have := sameSlot same (Nat.le_of_lt old) (by omega)
      omega
  · rw [List.getElem?_append_right new] at found
    have last : k = log.length := by
      have inside := (List.getElem?_eq_some_iff.mp found).1
      simp only [List.length_singleton] at inside
      omega
    subst last
    simpa using found

end KernelLabs.Buffer
