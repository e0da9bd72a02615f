import KernelLabs.Library.Buffer

/-! A run of stores as a list: where each goes and what it puts there. A cell then holds
what the last store to it put there, and what it held before when there is none. -/
namespace KernelLabs.StoreLog
open Buffer

variable {α : Type}

def storeAll (mem : Nat → α) (stores : List (Nat × α)) : Nat → α :=
  stores.foldl (fun mem s => store mem s.1 s.2) mem

@[simp] theorem storeAllCons (mem : Nat → α) (s : Nat × α) (stores : List (Nat × α)) :
    storeAll mem (s :: stores) = storeAll (store mem s.1 s.2) stores := rfl

theorem storeAllAppend (mem : Nat → α) (earlier later : List (Nat × α)) :
    storeAll mem (earlier ++ later) = storeAll (storeAll mem earlier) later := List.foldl_append

theorem storeAllOther {stores : List (Nat × α)} {i : Nat} (other : ∀ s ∈ stores, s.1 ≠ i)
    (mem : Nat → α) : storeAll mem stores i = mem i := by
  induction stores generalizing mem with
  | nil => rfl
  | cons s stores ih =>
    have rest := ih (fun t later => other t (List.mem_cons_of_mem s later)) (store mem s.1 s.2)
    rw [storeAllCons, rest]
    exact storeOther (other s List.mem_cons_self).symm

/- Where no cell is stored to twice, the order of the stores does not matter. -/
theorem storeAllOnce {stores : List (Nat × α)} (once : (stores.map Prod.fst).Nodup) {i : Nat} {x : α}
    (stored : (i, x) ∈ stores) (mem : Nat → α) : storeAll mem stores i = x := by
  induction stores generalizing mem with
  | nil => exact absurd stored List.not_mem_nil
  | cons s stores ih =>
    rw [List.map_cons] at once
    obtain ⟨alone, rest⟩ := List.nodup_cons.mp once
    rw [storeAllCons]
    rcases List.mem_cons.mp stored with rfl | later
    · rw [storeAllOther, storeSame]
      intro t later same
      exact alone (List.mem_map.mpr ⟨t, later, same⟩)
    · exact ih rest later _

/- Entries laid into consecutive slots of a ring. -/
def ringStores (cap slot : Nat) : List α → List (Nat × α)
  | [] => []
  | x :: xs => (slot % cap, x) :: ringStores cap (slot + 1) xs

theorem ringStoresSlot {cap slot : Nat} {xs : List α} {s : Nat × α}
    (stored : s ∈ ringStores cap slot xs) : ∃ j, j < xs.length ∧ s.1 = (slot + j) % cap := by
  induction xs generalizing slot with
  | nil => exact absurd stored List.not_mem_nil
  | cons x xs ih =>
    rcases List.mem_cons.mp stored with rfl | later
    · exact ⟨0, Nat.zero_lt_succ _, rfl⟩
    · obtain ⟨j, inside, same⟩ := ih later
      refine ⟨j + 1, Nat.succ_lt_succ inside, ?_⟩
      rw [same, Nat.add_right_comm, Nat.add_assoc]

/- An entry stays until its slot comes round again. -/
theorem ringStoresLatest {cap slot j : Nat} {xs : List α} (inside : j < xs.length)
    (late : xs.length ≤ j + cap) (mem : Nat → α) :
    storeAll mem (ringStores cap slot xs) ((slot + j) % cap) = xs[j] := by
  induction xs generalizing mem slot j with
  | nil => exact absurd inside (Nat.not_lt_zero j)
  | cons x xs ih =>
    rw [List.length_cons] at inside late
    rw [ringStores, storeAllCons]
    cases j with
    | zero =>
      rw [storeAllOther]
      · exact storeSame ..
      · intro s later same
        obtain ⟨i, within, place⟩ := ringStoresSlot later
        have again := sameSlot (same.symm.trans place) (by omega) (by omega)
        omega
    | succ j =>
      have inner : j < xs.length := Nat.lt_of_succ_lt_succ inside
      have rest : storeAll (store mem (slot % cap) x) (ringStores cap (slot + 1) xs)
          ((slot + 1 + j) % cap) = xs[j] := ih inner (by omega) _
      rw [Nat.add_right_comm, Nat.add_assoc] at rest
      exact rest

/- Every slot an entry went to holds one of the last entries. -/
theorem latestSlot {cap n j : Nat} (slot : Nat) (positive : 0 < cap) (inside : j < n) :
    ∃ i, i < n ∧ n ≤ i + cap ∧ (slot + j) % cap = (slot + i) % cap := by
  have left := Nat.mod_lt (n - 1 - j) positive
  have rounds := Nat.mod_add_div (n - 1 - j) cap
  refine ⟨j + cap * ((n - 1 - j) / cap), by omega, by omega, ?_⟩
  rw [← Nat.add_assoc, Nat.add_mul_mod_self_left]

theorem ringStoresOther {cap slot i : Nat} {xs : List α} (positive : 0 < cap)
    (other : ∀ j, j < xs.length → xs.length ≤ j + cap → i ≠ (slot + j) % cap) (mem : Nat → α) :
    storeAll mem (ringStores cap slot xs) i = mem i := by
  apply storeAllOther
  rintro s stored rfl
  obtain ⟨j, inside, place⟩ := ringStoresSlot stored
  obtain ⟨last, within, late, same⟩ := latestSlot slot positive inside
  exact other last within late (place.trans same)

end KernelLabs.StoreLog
