import Mathlib.Data.List.Nodup

/-! Stretches of consecutive addresses, which wrap at the width of an address, and lists
gathered from owners. One stretch behind the other is a stretch; an owner that gains some
addresses adds just these to what is gathered. -/
namespace KernelLabs.Stretches

def stretch {w : Nat} (first : BitVec w) (n : Nat) : List (BitVec w) :=
  (List.range n).map (fun i => first + BitVec.ofNat w i)

theorem stretchAdd {w : Nat} (first : BitVec w) (n k : Nat) :
    stretch first (n + k) = stretch first n ++ stretch (first + BitVec.ofNat w n) k := by
  rw [stretch, List.range_add, List.map_append, List.map_map]
  refine congrArg (stretch first n ++ ·) (List.map_congr_left fun i _ => ?_)
  rw [Function.comp, BitVec.ofNat_add, BitVec.add_assoc]

@[simp] theorem stretchLength {w : Nat} (first : BitVec w) (n : Nat) : (stretch first n).length = n := by
  rw [stretch, List.length_map, List.length_range]

section
variable {α β : Type} {f g : α → List β} {l : List α} {x : α}

theorem gatherSame (same : ∀ y ∈ l, g y = f y) : l.flatMap g = l.flatMap f := by
  rw [List.flatMap_def, List.flatMap_def, List.map_congr_left same]

variable [DecidableEq α]

theorem gatherErase (f : α → List β) (member : x ∈ l) : (l.flatMap f).Perm ((l.erase x).flatMap f ++ f x) := by
  refine ((List.perm_cons_erase member).flatMap_right f).trans ?_
  rw [List.flatMap_cons]
  exact List.perm_append_comm

theorem gatherGrown (once : l.Nodup) (member : x ∈ l) (others : ∀ y ∈ l, y ≠ x → g y = f y) {more : List β}
    (here : (g x).Perm (f x ++ more)) : (l.flatMap g).Perm (l.flatMap f ++ more) := by
  have rest : (l.erase x).flatMap g = (l.erase x).flatMap f := by
    refine gatherSame (fun y there => ?_)
    obtain ⟨apart, before⟩ := once.mem_erase_iff.mp there
    exact others y before apart
  refine (gatherErase g member).trans ?_
  rw [rest]
  refine (here.append_left _).trans ?_
  rw [← List.append_assoc]
  exact (gatherErase f member).symm.append_right more

end

end KernelLabs.Stretches
