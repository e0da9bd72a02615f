import Mathlib.Data.BitVec
import Mathlib.Data.List.DropRight

/-! Circular scans: a head that only moves forward over positions that wrap around, and a
list of what waits in the order in which the head comes past. -/
namespace KernelLabs.CircularScan

variable {w : Nat} {α : Type}

/- How far the head has to go. -/
def forward (start goal : BitVec w) : Nat := (goal - start).toNat

/- What lies at least as far as `h`, and not inside the `n` positions from `h` on, is nearer by
that much once the head has passed them. -/
theorem forwardPast {start h goal : BitVec w} {n : BitVec w} (behind : forward start h ≤ forward start goal)
    (clear : n.toNat ≤ forward h goal) :
    forward start goal = forward start h + n.toNat + forward (h + n) goal := by
  have step : forward h goal = forward start goal - forward start h := by
    have split' : goal - h = (goal - start) - (h - start) := (sub_sub_sub_cancel_right goal h start).symm
    rw [forward, split', BitVec.toNat_sub_of_le (BitVec.le_def.mpr behind)]
    rfl
  have past : forward (h + n) goal = forward h goal - n.toNat := by
    have split' : goal - (h + n) = (goal - h) - n := sub_add_eq_sub_sub goal h n
    rw [forward, split', BitVec.toNat_sub_of_le (BitVec.le_def.mpr clear)]
    rfl
  rw [past]
  omega

/- `list_for_each_prev` passes the entries at the end that do not stop it; `list_add` then links
the new entry behind the one that did. -/
def scanBackAdd (stop : α → Bool) (x : α) (l : List α) : List α :=
  l.rdropWhile (fun y => !stop y) ++ x :: l.rtakeWhile (fun y => !stop y)

theorem scanBackCases (stop : α → Bool) (x : α) (l : List α) : ∃ before after, l = before ++ after ∧
    scanBackAdd stop x l = before ++ x :: after ∧ (∀ y ∈ after, stop y = false) ∧
    ∀ y ∈ before.getLast?, stop y = true := by
  refine ⟨l.rdropWhile (fun y => !stop y), l.rtakeWhile (fun y => !stop y), ?_, rfl, fun y there => ?_, fun y last => ?_⟩
  · rw [List.rdropWhile, List.rtakeWhile, ← List.reverse_append, List.takeWhile_append_dropWhile, List.reverse_reverse]
  · simpa using List.mem_rtakeWhile_imp there
  · have some' : l.rdropWhile (fun y => !stop y) ≠ [] := by
      intro none'
      rw [none'] at last
      cases last
    have stopped := List.rdropWhile_last_not (fun y => !stop y) l some'
    rw [List.getLast?_eq_some_getLast some'] at last
    cases Option.some.inj last
    simpa using stopped

theorem scanBackPerm (stop : α → Bool) (x : α) (l : List α) : (scanBackAdd stop x l).Perm (x :: l) := by
  obtain ⟨before, after, rfl, placed, _⟩ := scanBackCases stop x l
  rw [placed]
  exact List.perm_middle

theorem scanBackConcat (stop : α → Bool) (x y : α) (l : List α) :
    scanBackAdd stop x (l ++ [y]) = if stop y then l ++ [y] ++ [x] else scanBackAdd stop x l ++ [y] := by
  unfold scanBackAdd
  rw [List.rdropWhile_concat, List.rtakeWhile_concat]
  cases stop y <;> simp

theorem scanBackFront {stop : α → Bool} {front : List α} (stopped : ∀ y ∈ front, stop y = true) (x : α) (l : List α) :
    scanBackAdd stop x (front ++ l) = front ++ scanBackAdd stop x l := by
  induction l using List.reverseRecOn with
  | nil =>
    cases front using List.reverseRecOn with
    | nil => rfl
    | append_singleton front y =>
      rw [List.append_nil, scanBackConcat, if_pos (stopped y (by simp))]
      rfl
  | append_singleton l y ih =>
    rw [← List.append_assoc, scanBackConcat, scanBackConcat, ih]
    split <;> simp

/- A scan that stops by a key keeps a list in the order of the key. -/
theorem scanBackSorted {key : α → Nat} {stop : α → Bool} {x : α} {l : List α}
    (agrees : ∀ y ∈ l, stop y = decide (key y ≤ key x)) (sorted : l.Pairwise (fun y z => key y ≤ key z)) :
    (scanBackAdd stop x l).Pairwise (fun y z => key y ≤ key z) := by
  obtain ⟨before, after, rfl, placed, passed, stopped⟩ := scanBackCases stop x l
  obtain ⟨first, second, across⟩ := List.pairwise_append.mp sorted
  have above : ∀ z ∈ after, key x ≤ key z := by
    intro z there
    have beyond := (agrees z (List.mem_append_right _ there)).symm.trans (passed z there)
    exact Nat.le_of_lt (Nat.lt_of_not_le (of_decide_eq_false beyond))
  have below : ∀ y ∈ before, key y ≤ key x := by
    intro y there
    obtain ⟨front, last, rfl⟩ : ∃ front last, before = front ++ [last] :=
      ⟨before.dropLast, before.getLast (List.ne_nil_of_mem there), (List.dropLast_append_getLast _).symm⟩
    have hit : stop last = true := stopped last (by simp)
    have lastBelow : key last ≤ key x :=
      of_decide_eq_true ((agrees last (by simp)).symm.trans hit)
    rcases List.mem_append.mp there with inside | same
    · exact Nat.le_trans ((List.pairwise_append.mp first).2.2 y inside last List.mem_cons_self) lastBelow
    · cases List.mem_singleton.mp same
      exact lastBelow
  rw [placed]
  refine List.pairwise_append.mpr ⟨first, List.pairwise_cons.mpr ⟨above, second⟩, fun y inBefore z inAfter => ?_⟩
  rcases List.mem_cons.mp inAfter with rfl | behind
  · exact below y inBefore
  · exact across y inBefore z behind

/- The order in which a head that stands at `start` comes past. -/
def Ahead (start : BitVec w) (pos : α → BitVec w) (l : List α) : Prop :=
  l.Pairwise (fun y z => forward start (pos y) ≤ forward start (pos z))

/- Once the first is passed with its `n` positions the others are still in order. -/
theorem aheadPast {start : BitVec w} {pos : α → BitVec w} {h : α} {l : List α} {n : BitVec w}
    (ahead : Ahead start pos (h :: l)) (clear : ∀ y ∈ l, n.toNat ≤ forward (pos h) (pos y)) :
    Ahead (pos h + n) pos l := by
  obtain ⟨first, rest⟩ := List.pairwise_cons.mp ahead
  refine rest.imp_of_mem (fun {y z} inY inZ order => ?_)
  have pastY := forwardPast (first y inY) (clear y inY)
  have pastZ := forwardPast (first z inZ) (clear z inZ)
  omega

end KernelLabs.CircularScan
