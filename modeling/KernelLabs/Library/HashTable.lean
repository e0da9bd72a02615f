import Mathlib.Data.List.Nodup

/-! A hash table of chained buckets, with the slot of an item computed from the item's
current state. An item must be taken out before its slot changes; the lemmas say what the
table holds after an item is put in or dropped, and when a change of slots is harmless. -/
namespace KernelLabs.HashTable

variable {α : Type} [DecidableEq α]

def put (table : Nat → List α) (slot : Nat) (x : α) : Nat → List α :=
  fun k => if k = slot then x :: table k else table k

/- Unlinking a node does not look at the bucket it is in. -/
def drop (table : Nat → List α) (x : α) : Nat → List α := fun k => (table k).erase x

/- Exactly the filed items are in the table, each once and in the bucket of its slot. -/
structure Filed (slot : α → Nat) (filed : α → Prop) (table : Nat → List α) : Prop where
  found : ∀ k x, x ∈ table k ↔ filed x ∧ slot x = k
  once : ∀ k, (table k).Nodup

variable {slot slot' : α → Nat} {filed filed' : α → Prop} {table : Nat → List α}

omit [DecidableEq α] in
theorem filedEmpty (none' : ∀ x, ¬ filed x) : Filed slot filed (fun _ => []) where
  found _ x := ⟨(fun member => by cases member), fun h => absurd h.1 (none' x)⟩
  once _ := List.nodup_nil

omit [DecidableEq α] in
theorem filedCongr (ok : Filed slot filed table) (same : ∀ x, filed x ↔ filed' x)
    (slots : ∀ x, filed x → slot x = slot' x) : Filed slot' filed' table where
  found k x := by
    rw [ok.found, ← same x]
    exact and_congr_right (fun here => by rw [slots x here])
  once := ok.once

theorem filedDrop (ok : Filed slot filed table) (x : α) :
    Filed slot (fun y => filed y ∧ y ≠ x) (drop table x) where
  found k y := by
    rw [drop, (ok.once k).mem_erase_iff, ok.found]
    exact ⟨fun h => ⟨⟨h.2.1, h.1⟩, h.2.2⟩, fun h => ⟨h.1.2, h.1.1, h.2⟩⟩
  once k := (ok.once k).erase x

omit [DecidableEq α] in
theorem filedPut (ok : Filed slot filed table) {x : α} (fresh : ¬ filed x) :
    Filed slot (fun y => filed y ∨ y = x) (put table (slot x) x) where
  found k y := by
    rw [put]
    split
    · rename_i here
      rw [List.mem_cons, ok.found]
      constructor
      · rintro (rfl | old)
        · exact ⟨Or.inr rfl, here.symm⟩
        · exact ⟨Or.inl old.1, old.2⟩
      · rintro ⟨old | rfl, place⟩
        · exact Or.inr ⟨old, place⟩
        · exact Or.inl rfl
    · rename_i elsewhere
      rw [ok.found]
      constructor
      · exact fun old => ⟨Or.inl old.1, old.2⟩
      · rintro ⟨old | rfl, place⟩
        · exact ⟨old, place⟩
        · exact absurd place.symm elsewhere
  once k := by
    rw [put]
    split
    · rename_i here
      refine List.nodup_cons.mpr ⟨fun there => fresh ((ok.found k x).mp there).1, ok.once k⟩
    · exact ok.once k

end KernelLabs.HashTable
