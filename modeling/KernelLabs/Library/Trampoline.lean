import Mathlib.Data.List.Perm.Basic

/-! Recursion flattened into a queue. A job may ask for more jobs; run by recursion they are
done at once, one inside the other, and run from a queue they wait for their turn. Where
every job asks only for jobs of a lower rank, both end, and do the same jobs. -/
namespace KernelLabs.Trampoline

variable {α : Type} (sub : α → List α)

/- By recursion: the job, then all of what it asks for, to depth `n`. -/
def descend : Nat → α → List α
  | 0, x => [x]
  | n + 1, x => x :: (sub x).flatMap (descend n)

/- From the queue, for at most `fuel` jobs: the jobs in the order they are done. -/
def serve : Nat → List α → Option (List α)
  | _, [] => some []
  | 0, _ :: _ => none
  | fuel + 1, x :: queue => (serve fuel (queue ++ sub x)).map (x :: ·)

def Ranked (rank : α → Nat) : Prop := ∀ x, ∀ y ∈ sub x, rank y < rank x

variable {sub}

theorem descendDeeper {rank : α → Nat} (ranked : Ranked sub rank) {n m : Nat} {x : α}
    (deep : rank x ≤ n) (deeper : rank x ≤ m) : descend sub n x = descend sub m x := by
  induction n generalizing m x with
  | zero =>
    have leaf : sub x = [] := List.eq_nil_iff_forall_not_mem.mpr (fun y member => by
      have := ranked x y member
      omega)
    cases m with
    | zero => rfl
    | succ m => simp only [descend, leaf, List.flatMap_nil]
  | succ n ih =>
    cases m with
    | zero =>
      have leaf : sub x = [] := List.eq_nil_iff_forall_not_mem.mpr (fun y member => by
        have := ranked x y member
        omega)
      simp only [descend, leaf, List.flatMap_nil]
    | succ m =>
      have same : (sub x).flatMap (descend sub n) = (sub x).flatMap (descend sub m) := by
        refine List.flatMap_congr (fun y member => ?_)
        have := ranked x y member
        exact ih (by omega) (by omega)
      simp only [descend, same]

/- All the jobs behind a queue. -/
def jobs (sub : α → List α) (rank : α → Nat) (queue : List α) : List α :=
  queue.flatMap (fun x => descend sub (rank x) x)

theorem jobsCons {rank : α → Nat} (ranked : Ranked sub rank) (x : α) (queue : List α) :
    jobs sub rank (x :: queue) = x :: (jobs sub rank (sub x) ++ jobs sub rank queue) := by
  have below : ∀ y ∈ sub x, descend sub (rank x) y = descend sub (rank y) y := fun y member =>
    descendDeeper ranked (Nat.le_of_lt (ranked x y member)) (Nat.le_refl _)
  have unfold' : descend sub (rank x) x = x :: jobs sub rank (sub x) := by
    rw [descendDeeper ranked (Nat.le_refl _) (Nat.le_succ _), descend, jobs]
    exact congrArg _ (List.flatMap_congr below)
  simp only [jobs, List.flatMap_cons, unfold', List.cons_append]

theorem jobsAppend (rank : α → Nat) (queue more : List α) :
    jobs sub rank (queue ++ more) = jobs sub rank queue ++ jobs sub rank more := by
  simp only [jobs, List.flatMap_append]

/- The queue is served to its end, and what is done is what recursion would have done. -/
theorem serveJobs {rank : α → Nat} (ranked : Ranked sub rank) (queue : List α) :
    ∃ done, serve sub (jobs sub rank queue).length queue = some done ∧
      done.Perm (jobs sub rank queue) := by
  generalize size : (jobs sub rank queue).length = fuel
  induction fuel generalizing queue with
  | zero =>
    cases queue with
    | nil => exact ⟨[], rfl, List.Perm.nil⟩
    | cons x queue =>
      rw [jobsCons ranked] at size
      cases size
  | succ fuel ih =>
    cases queue with
    | nil => cases size
    | cons x queue =>
      rw [jobsCons ranked, List.length_cons, Nat.add_right_cancel_iff, List.length_append] at size
      have next : (jobs sub rank (queue ++ sub x)).length = fuel := by
        rw [jobsAppend, List.length_append]
        omega
      obtain ⟨done, served, same⟩ := ih (queue ++ sub x) next
      refine ⟨x :: done, by rw [serve, served]; rfl, ?_⟩
      rw [jobsCons ranked]
      refine List.Perm.cons x (same.trans ?_)
      rw [jobsAppend]
      exact List.perm_append_comm

end KernelLabs.Trampoline
