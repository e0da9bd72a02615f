import Mathlib.Data.Nat.Notation
import Mathlib.Order.Basic

/-! Address spaces as partial maps from virtual pages to physical frames, with the
mapping and unmapping of runs of consecutive pages. -/
namespace KernelLabs.Pages

abbrev Space := Nat → Option Nat

def mapRange (space : Space) (start frame count : Nat) : Space := fun page =>
  if start ≤ page ∧ page < start + count then some (frame + (page - start)) else space page

def unmapRange (space : Space) (start count : Nat) : Space := fun page =>
  if start ≤ page ∧ page < start + count then none else space page

/- Consecutive pages on consecutive frames. -/
def Maps (space : Space) (start frame count : Nat) : Prop :=
  ∀ j, j < count → space (start + j) = some (frame + j)
instance (space : Space) (start frame count : Nat) : Decidable (Maps space start frame count) := by
  unfold Maps; infer_instance

def Unmapped (space : Space) (start count : Nat) : Prop := ∀ j, j < count → space (start + j) = none
instance (space : Space) (start count : Nat) : Decidable (Unmapped space start count) := by
  unfold Unmapped; infer_instance

theorem mapRangeMaps (space : Space) (start frame count : Nat) :
    Maps (mapRange space start frame count) start frame count := by
  intro j inside
  rw [mapRange, if_pos ⟨Nat.le_add_right .., Nat.add_lt_add_left inside start⟩, Nat.add_sub_cancel_left]

theorem mapRangeOther {space : Space} {start frame count page : Nat}
    (outside : ¬ (start ≤ page ∧ page < start + count)) :
    mapRange space start frame count page = space page := if_neg outside

/- A new mapping put where nothing was mapped leaves the old ones. -/
theorem mapsKept {space : Space} {start frame count at' other more : Nat}
    (maps : Maps space start frame count) (free : Unmapped space at' more) :
    Maps (mapRange space at' other more) start frame count := by
  intro j inside
  have mapped := maps j inside
  rw [mapRangeOther]
  · exact mapped
  · rintro ⟨low, high⟩
    have unmapped := free (start + j - at') (by omega)
    rw [Nat.add_sub_cancel' low, mapped] at unmapped
    contradiction

/- A run of pages is mapped to one run of frames only. -/
theorem mapsUnique {space : Space} {start frame other count : Nat} (positive : 0 < count)
    (maps : Maps space start frame count) (again : Maps space start other count) : frame = other :=
  Option.some.inj ((maps 0 positive).symm.trans (again 0 positive))

/- A stretch of physical memory, in bytes, and the frames that lie in it. -/
structure Window where
  base : Nat
  bytes : Nat

def Window.Holds (w : Window) (pageSize frame : Nat) : Prop :=
  w.base ≤ frame * pageSize ∧ (frame + 1) * pageSize ≤ w.base + w.bytes

/- Whatever is mapped on a run of pages lies on the given frames. -/
def MapsInto (space : Space) (start count : Nat) (frames : Nat → Prop) : Prop :=
  ∀ j frame, j < count → space (start + j) = some frame → frames frame

theorem unmapRangeUnmapped (space : Space) (start count : Nat) :
    Unmapped (unmapRange space start count) start count := by
  intro j inside
  exact if_pos ⟨Nat.le_add_right .., Nat.add_lt_add_left inside start⟩

theorem mapsIntoIff {space : Space} {start frame count : Nat} {frames : Nat → Prop}
    (maps : Maps space start frame count) :
    MapsInto space start count frames ↔ ∀ j, j < count → frames (frame + j) := by
  constructor
  · intro into j inside
    exact into j _ inside (maps j inside)
  · intro each j mapped inside found
    rw [maps j inside] at found
    exact Option.some.inj found ▸ each j inside

/- Consecutive frames lie in a window exactly if the first starts and the last ends in it. -/
theorem windowHolds {w : Window} {pageSize frame count : Nat} (positive : 0 < count) :
    (∀ j, j < count → w.Holds pageSize (frame + j)) ↔
      w.base ≤ frame * pageSize ∧ frame * pageSize + count * pageSize ≤ w.base + w.bytes := by
  have ends : ∀ j, (frame + j + 1) * pageSize = frame * pageSize + (j + 1) * pageSize := by
    intro j
    rw [Nat.add_assoc, Nat.add_mul]
  constructor
  · intro each
    have last := (each (count - 1) (by omega)).2
    rw [ends, Nat.sub_add_cancel positive] at last
    exact ⟨(each 0 positive).1, last⟩
  · rintro ⟨starts, fits⟩ j inside
    refine ⟨?_, ?_⟩
    · rw [Nat.add_mul]
      exact Nat.le_trans starts (Nat.le_add_right ..)
    · have rounds := Nat.mul_le_mul_right pageSize (show j + 1 ≤ count from inside)
      rw [ends]
      omega

end KernelLabs.Pages
