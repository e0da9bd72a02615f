import Mathlib.Algebra.Ring.Int.Defs
import KernelLabs.Block.PublishedCsv

/-! The kernel's running totals against the table. `blk_finish_request` adds up truncated
differences, a reader of the table subtracts truncated times, and each request costs
the comparison at most a millisecond. -/
namespace KernelLabs.KernelTotals
open Block Buffer RequestLog PublishedCsv

structure Completion where
  now : Timespec
  pid : Int
  req : Request
  deriving DecidableEq, Repr

def finish (t : ReqTrack) (c : Completion) : ReqTrack := blkFinishRequest c.now c.pid c.req t

def AllRecorded : ReqTrack → List Completion → Prop
  | _, [] => True
  | t, c :: cs => records t c.req = true ∧ AllRecorded (finish t c) cs

def Normalised (t : Timespec) : Prop := 0 ≤ t.tvNsec ∧ t.tvNsec < 1000000000

def NormalisedTimes (c : Completion) : Prop :=
  Normalised c.req.startWait ∧ Normalised c.req.startService ∧ Normalised c.now

/- The lines of the table that these completions fill. -/
def rowsOf (data : Nat → ReqStuff) (t : ReqTrack) (cs : List Completion) : List Row :=
  ((printLoop (copied data (endReqTrack (cs.foldl finish t)).2)).drop t.requestsSeen.toNat).take cs.length

def waitOf (row : Row) : Int := row.servStart - row.arrival
def serviceOf (row : Row) : Int := row.endTime - row.servStart

/- Between 0 and `n` milliseconds. -/
def Within (difference : Int) (n : Nat) : Prop := 0 ≤ difference ∧ difference ≤ n

def nanos (t : Timespec) : Int := t.tvSec * 1000000000 + t.tvNsec

theorem msNanos {t : Timespec} (nonneg : 0 ≤ t.tvNsec) : msOf t = nanos t / 1000000 := by
  have floor : t.tvNsec.tdiv 1000000 = t.tvNsec / 1000000 := Int.tdiv_eq_ediv_of_nonneg nonneg
  rw [msOf, floor, msecPerSec, nanos]
  omega

theorem subNanos (a b : Timespec) : nanos (timespecSub a b) = nanos a - nanos b := by
  simp only [nanos, timespecSub]
  omega

theorem subNonneg (a b : Timespec) : 0 ≤ (timespecSub a b).tvNsec :=
  Int.emod_nonneg _ (by decide)

/- Truncating a difference against the difference of two truncations. -/
theorem gapRounding {a b : Timespec} (left : Normalised a) (right : Normalised b) :
    Within (getMs a - getMs b - msOf (timespecSub a b)) 1 := by
  have first : getMs a = nanos a / 1000000 := msNanos left.1
  have second : getMs b = nanos b / 1000000 := msNanos right.1
  rw [first, second, msNanos (subNonneg a b), subNanos, Within]
  omega

theorem sumWithin {α : Type} {f g : α → Int} {l : List α}
    (each : ∀ x ∈ l, Within (f x - g x) 1) : Within ((l.map f).sum - (l.map g).sum) l.length := by
  induction l with
  | nil => exact ⟨Int.le_refl 0, Int.le_refl 0⟩
  | cons x l ih =>
    have here := each x List.mem_cons_self
    have rest := ih fun y mem => each y (List.mem_cons_of_mem x mem)
    simp only [Within, List.map_cons, List.sum_cons, List.length_cons] at *
    omega

section Run
variable {t : ReqTrack} {cs : List Completion}

def waitAdded (c : Completion) : Int := msOf (timespecSub c.req.startService c.req.startWait)
def serviceAdded (c : Completion) : Int := msOf (timespecSub c.now c.req.startService)
def entry (c : Completion) : ReqStuff := entryOf c.now c.pid c.req

theorem finishTotals (t : ReqTrack) (c : Completion) :
    (finish t c).sumOfWaits = t.sumOfWaits + waitAdded c ∧
    (finish t c).sumOfServices = t.sumOfServices + serviceAdded c := by
  unfold finish blkFinishRequest
  dsimp only
  split
  · exact ⟨rfl, rfl⟩
  · exact ⟨rfl, rfl⟩

theorem runTotals (t : ReqTrack) (cs : List Completion) :
    (cs.foldl finish t).sumOfWaits - t.sumOfWaits = (cs.map waitAdded).sum ∧
    (cs.foldl finish t).sumOfServices - t.sumOfServices = (cs.map serviceAdded).sum := by
  induction cs generalizing t with
  | nil => exact ⟨Int.sub_self _, Int.sub_self _⟩
  | cons c cs ih =>
    obtain ⟨waits, services⟩ := ih (finish t c)
    obtain ⟨wait, service⟩ := finishTotals t c
    simp only [List.foldl_cons, List.map_cons, List.sum_cons]
    omega

theorem finishAdds {c : Completion} (recorded : records t c.req = true) :
    (finish t c).requestsSeen.toNat = t.requestsSeen.toNat + 1 ∧
    cells (finish t c).storedReqs (finish t c).requestsSeen.toNat =
      cells t.storedReqs t.requestsSeen.toNat ++ [entry c] := by
  have effect := finishCells c.now c.pid c.req t
  rw [if_pos recorded, if_pos recorded] at effect
  exact effect

theorem runStored (recorded : AllRecorded t cs) :
    cells (cs.foldl finish t).storedReqs (cs.foldl finish t).requestsSeen.toNat =
      cells t.storedReqs t.requestsSeen.toNat ++ cs.map entry := by
  induction cs generalizing t with
  | nil => exact (List.append_nil _).symm
  | cons c cs ih =>
    rw [List.foldl_cons, ih recorded.2, (finishAdds recorded.1).2, List.append_assoc]
    rfl

theorem runInside (recorded : AllRecorded t cs) {i : Nat} (inside : i < cs.length) :
    t.requestsSeen.toNat + i < reqsRequested := by
  induction cs generalizing t i with
  | nil => contradiction
  | cons c cs ih =>
    have next := (finishAdds recorded.1).1
    cases i with
    | zero => exact (recordsIff.mp recorded.1).2
    | succ i =>
      have rest := ih recorded.2 (Nat.lt_of_succ_lt_succ inside)
      omega

/- The line a completion fills; the pid is the first entry's on every line. -/
def rowOf (pid : Int) (c : Completion) : Row :=
  ⟨pid, getMs c.req.startWait, getMs c.req.startService, getMs c.now⟩

theorem rowsFilled (data : Nat → ReqStuff) (recorded : AllRecorded t cs) :
    ∃ pid, rowsOf data t cs = cs.map (rowOf pid) := by
  let printed := copied data (endReqTrack (cs.foldl finish t)).2
  have entries : (endReqTrack (cs.foldl finish t)).2 =
      cells t.storedReqs t.requestsSeen.toNat ++ cs.map entry := runStored recorded
  refine ⟨(printed 0).pid, List.ext_getElem? fun i => ?_⟩
  rw [rowsOf, List.getElem?_take, List.getElem?_map]
  split
  · rename_i inside
    have line : cs[i]? = some cs[i] := List.getElem?_eq_getElem inside
    have cell : printed (t.requestsSeen.toNat + i) = entry cs[i] := by
      simp only [printed, copied]
      rw [entries, List.getElem?_append_right (by rw [cellsLength]; omega), cellsLength,
        Nat.add_sub_cancel_left, List.getElem?_map, line]
      rfl
    rw [List.getElem?_drop, printLoop, List.getElem?_map,
      List.getElem?_range (runInside recorded inside), line]
    simp only [Option.map_some]
    rw [show copied data (endReqTrack (cs.foldl finish t)).2 = printed from rfl, cell]
    rfl
  · rename_i outside
    rw [List.getElem?_eq_none (Nat.not_lt.mp outside)]
    rfl

end Run

/- Over any run of recorded completions the table is never behind the totals, and ahead
by a millisecond a request at most. -/
theorem totalsAgree {t : ReqTrack} {cs : List Completion} (data : Nat → ReqStuff)
    (recorded : AllRecorded t cs) (normalised : ∀ c ∈ cs, NormalisedTimes c) :
    Within (((rowsOf data t cs).map waitOf).sum - ((cs.foldl finish t).sumOfWaits - t.sumOfWaits))
      cs.length ∧
    Within (((rowsOf data t cs).map serviceOf).sum -
      ((cs.foldl finish t).sumOfServices - t.sumOfServices)) cs.length := by
  obtain ⟨pid, rows⟩ := rowsFilled data recorded
  obtain ⟨waits, services⟩ := runTotals t cs
  rw [rows, waits, services, List.map_map, List.map_map]
  refine ⟨sumWithin fun c mem => ?_, sumWithin fun c mem => ?_⟩
  · obtain ⟨wait, service, _⟩ := normalised c mem
    exact gapRounding service wait
  · obtain ⟨_, service, now⟩ := normalised c mem
    exact gapRounding now service

def started : ReqTrack := startReqTrack bootTrack
def coldData : Nat → ReqStuff := fun _ => ⟨0, .zero, .zero, .zero⟩

/- The first wait, 500.5 ms, is 501 in the table and 500 in the total. -/
def twoCompletions : List Completion :=
  [⟨⟨3, 500000⟩, 7, ⟨8, 512, .fs, ⟨true, false, false, true, true, false⟩, ⟨1, 900000⟩, ⟨1, 501400000⟩⟩⟩,
    ⟨⟨6, 0⟩, 7, ⟨9, 512, .fs, ⟨true, false, false, true, true, false⟩, ⟨4, 1⟩, ⟨5, 2500000⟩⟩⟩]

theorem twoAgree :
    Within (((rowsOf coldData started twoCompletions).map waitOf).sum -
      ((twoCompletions.foldl finish started).sumOfWaits - started.sumOfWaits)) twoCompletions.length ∧
    Within (((rowsOf coldData started twoCompletions).map serviceOf).sum -
      ((twoCompletions.foldl finish started).sumOfServices - started.sumOfServices))
      twoCompletions.length := by
  apply totalsAgree
  · exact ⟨rfl, rfl, trivial⟩
  · simp [twoCompletions, NormalisedTimes, Normalised]

end KernelLabs.KernelTotals
