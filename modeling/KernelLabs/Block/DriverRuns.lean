import KernelLabs.Block.DriverCalls

/-! Runs of a queue, its driver and runtime power management, in any order of their calls. A
ledger beside the queue keeps the requests the driver holds; the program keeps only counters. -/
namespace KernelLabs.DriverRuns
open Block DriverSide DriverCalls Runs

/- `gone` counts the normal requests put without having been added, `mark` is what `resumes`
was when the device last began to suspend, and `failed` tells of a failed resume since then. -/
structure Watch where
  q : DriverQueue
  held : List Ref
  gone : Nat
  mark : Nat
  failed : Bool

inductive Op where
  | add (now : Timespec) (r : Ref) (rq : Request) (p : Prep) (point : InsertionPoint) (merged : Bool)
  | merge (rq next : Ref) (segments : BitVec 16)
  | abandon (r : Ref) (rq : Request) (p : Prep)
  | peek (rounds : Nat → PeekRound)
  | fetch (rounds : Nat → PeekRound)
  | complete (r : Ref)
  | requeue (now : Timespec) (r : Ref)
  | unprep (r : Ref)
  | preSuspend
  | postSuspend (failed : Bool)
  | preResume
  | postResume (failed : Bool)

def place (q : DriverQueue) (r : Ref) (rq : Request) (p : Prep) : DriverQueue :=
  {q with b := q.b.setReq r (fun _ => rq), prep := fun x => if x = r then p else q.prep x}

/- A request as it was allocated. -/
def New (s : Watch) (r : Ref) (rq : Request) : Prop :=
  r ∉ places s.q.b ∧ r ∉ s.held ∧ rq.cmdFlags.started = false ∧ rq.cmdFlags.hashed = false
instance (s : Watch) (r : Ref) (rq : Request) : Decidable (New s r rq) := by unfold New; infer_instance

/- It may be added where the insertion can take it. Requests take memory: there are not 2^32. -/
def Addable (s : Watch) (r : Ref) (rq : Request) (point : InsertionPoint) : Prop :=
  New s r rq ∧ insertionPoint rq point ≠ .flush ∧
    (insertionPoint rq point = .sort ∨ insertionPoint rq point = .sortMerge → rq.cmdType = .fs) ∧
    (places s.q.b ++ s.held).length + 1 < 2 ^ 32
instance (s : Watch) (r : Ref) (rq : Request) (point : InsertionPoint) : Decidable (Addable s r rq point) := by
  unfold Addable; infer_instance

section
variable (c : Config) (attempt : AttemptMerge)

/- A call that its caller may not make at the time changes nothing. `none` is a `BUG_ON`, or a
loop that does not end. -/
def step (s : Watch) : Op → Option Watch
  | .add now r rq p point merged =>
    if Addable s r rq point then
      (elvAddRequest c now merged (place s.q r rq p) r point).map fun q => {s with q := q}
    else some s
  | .merge rq next segments =>
    if rq ∈ s.q.b.queued ∧ next ∈ s.q.b.queued ∧ rq ≠ next then
      (attempt s.q rq next segments).map fun (_, q) => {s with q := q}
    else some s
  | .abandon r rq p =>
    if New s r rq then
      (blkPutRequest c (place s.q r rq p) r).map fun q =>
        {s with q := q, gone := if normal c (place s.q r rq p) r then s.gone + 1 else s.gone}
    else some s
  | .peek rounds =>
    (blkPeekRequest c rounds ((places s.q.b).length + 1) s.q).map fun (_, q) => {s with q := q}
  | .fetch rounds =>
    (blkFetchRequest c rounds ((places s.q.b).length + 1) s.q).map fun (answer, q) =>
      {s with q := q, held := answer.toList ++ s.held}
  | .complete r =>
    if r ∈ s.held then (blkFinishRequest c s.q r).map fun q => {s with q := q, held := s.held.erase r} else some s
  | .requeue now r =>
    if r ∈ s.held then (blkRequeueRequest c now s.q r).map fun q => {s with q := q, held := s.held.erase r}
    else some s
  | .unprep r => if r ∈ s.held then some {s with q := blkUnprepRequest s.q r} else some s
  | .preSuspend =>
    if s.q.rpmStatus = .active then
      match blkPreRuntimeSuspend s.q with
      | (true, q) => some {s with q := q, mark := q.resumes, failed := false}
      | (false, q) => some {s with q := q}
    else some s
  | .postSuspend failed =>
    if s.q.rpmStatus = .suspending then some {s with q := blkPostRuntimeSuspend s.q failed} else some s
  | .preResume => if s.q.rpmStatus = .suspended then some {s with q := blkPreRuntimeResume s.q} else some s
  | .postResume failed =>
    if s.q.rpmStatus = .resuming then some {s with q := blkPostRuntimeResume s.q failed, failed := failed} else some s

end

def initial : Watch :=
  ⟨⟨⟨fun _ => unused, emptyQueue, 0⟩, fun _ => ⟨false, false, false, false, 0⟩, fun _ => 0, 0, .active, 0⟩, [], 0, 0, false⟩

/- The counters are exact; while the device is not active the driver holds no normal request,
and while it suspends or is suspended one that waits has had it woken. -/
structure Sound (c : Config) (s : Watch) : Prop where
  driven : Driven c s.q s.held s.gone
  few : (places s.q.b ++ s.held).length < 2 ^ 32
  quiet : s.gone = 0 → s.q.rpmStatus ≠ .active → ∀ r ∈ s.held, normal c s.q r = false
  woken : s.gone = 0 → s.failed = false → s.q.rpmStatus = .suspended ∨ s.q.rpmStatus = .suspending →
    (∃ r ∈ places s.q.b, normal c s.q r = true) → s.mark < s.q.resumes
  marked : s.mark ≤ s.q.resumes

section
variable {c : Config} {attempt : AttemptMerge} {s t : Watch}

theorem pendingNone (sound : Sound c s) (all : s.gone = 0) (zero : s.q.nrPending = 0) :
    ∀ r ∈ places s.q.b ++ s.held, normal c s.q r = false := by
  have pending := sound.driven.pending
  have short : (places s.q.b ++ s.held).countP (normal c s.q) < 2 ^ 32 :=
    Nat.lt_of_le_of_lt List.countP_le_length sound.few
  rw [all, zero] at pending
  have none' : (places s.q.b ++ s.held).countP (normal c s.q) = 0 := by
    have eq := congrArg BitVec.toNat pending
    rw [BitVec.toNat_ofNat, Nat.mod_eq_of_lt short] at eq
    exact eq.symm
  exact fun r there => Bool.eq_false_iff.mpr (List.countP_eq_zero.mp none' r there)

theorem pendingSome (sound : Sound c s) (all : s.gone = 0) (some' : s.q.nrPending ≠ 0) :
    ∃ r ∈ places s.q.b ++ s.held, normal c s.q r = true := by
  have pending := sound.driven.pending
  rw [all] at pending
  have positive : 0 < (places s.q.b ++ s.held).countP (normal c s.q) := by
    refine Nat.pos_of_ne_zero (fun zero => some' ?_)
    rw [zero] at pending
    exact (BitVec.add_zero _).symm.trans pending
  exact List.countP_pos_iff.mp positive

theorem placeDriven (sound : Sound c s) {r : Ref} {rq : Request} (p : Prep) (new : New s r rq) :
    Driven c (place s.q r rq p) s.held s.gone ∧ startedFlag (place s.q r rq p).b r = false ∧
    elvOnHash (place s.q r rq p).b r = false ∧ (place s.q r rq p).b.req r = rq ∧
    ∀ x ∈ places s.q.b ++ s.held, normal c (place s.q r rq p) x = normal c s.q x := by
  obtain ⟨out, free, idle, off⟩ := new
  have driven := sound.driven
  have here : (place s.q r rq p).b.req r = rq := if_pos rfl
  have others : ∀ x, x ≠ r → (place s.q r rq p).b.req x = s.q.b.req x := fun x other => if_neg other
  have preps : ∀ x, x ≠ r → (place s.q r rq p).prep x = s.q.prep x := fun x other => if_neg other
  have apart : ∀ x ∈ places s.q.b ++ s.held, x ≠ r := by
    intro x there same
    rw [same] at there
    exact (List.mem_append.mp there).elim out free
  have inQueue : ∀ x ∈ s.q.b.queued, x ≠ r := fun x there =>
    apart x (List.mem_append_left _ (List.mem_append_left _ there))
  have normals : ∀ x ∈ places s.q.b ++ s.held, normal c (place s.q r rq p) x = normal c s.q x := by
    intro x there
    rw [normal, normal, preps x (apart x there)]
  have offHere : elvOnHash (place s.q r rq p).b r = false := by rw [elvOnHash, here, off]
  refine ⟨⟨⟨⟨driven.tidy.linked.once, driven.tidy.linked.counted⟩, fun x mark => ?_, fun x there => ?_⟩,
    driven.apart, fun x there => ?_, fun x there => ?_, fun d => ?_, ?_⟩, ?_, offHere, here, normals⟩
  · have other : x ≠ r := by
      intro same
      rw [same, offHere] at mark
      cases mark
    rw [elvOnHash, others x other] at mark
    exact driven.tidy.hashed x mark
  · rw [sortedFlag, others x (inQueue x there)]
    exact driven.tidy.sorted x there
  · rw [startedFlag, others x (inQueue x there)]
    exact driven.idle x there
  · rw [startedFlag, others x (apart x (List.mem_append_right _ there))]
    exact driven.started x there
  · have same : s.held.countP (countsAt (place s.q r rq p) d) = s.held.countP (countsAt s.q d) := by
      refine List.countP_congr (fun x there => ?_)
      have other := apart x (List.mem_append_right _ there)
      rw [countsAt, countsAt, others x other, preps x other]
    rw [same]
    exact driven.inFlight d
  · refine driven.pending.trans (congrArg _ (List.countP_congr (fun x there => ?_)))
    rw [normals x there]
  · rw [startedFlag, here, idle]

end

section
variable {c : Config} {attempt : AttemptMerge} {s t : Watch}

/- The calls that only look at the queue or take from it, and leave power management alone. -/
theorem soundUntold (sound : Sound c s) {q : DriverQueue} {held : List Ref} (driven : Driven c q held s.gone)
    (untold : Untold s.q q) (fewer : ∀ r ∈ places q.b, r ∈ places s.q.b)
    (few : (places q.b ++ held).length ≤ (places s.q.b ++ s.held).length)
    (quiet : s.gone = 0 → s.q.rpmStatus ≠ .active → ∀ r ∈ held, r ∈ s.held ∨ normal c s.q r = false) :
    Sound c {s with q := q, held := held} where
  driven := driven
  few := Nat.lt_of_le_of_lt few sound.few
  quiet all idle r there := by
    have idle' : s.q.rpmStatus ≠ .active := fun active => idle (untold.status.trans active)
    change normal c q r = false
    rw [untoldNormal untold]
    exact (quiet all idle' r there).elim (sound.quiet all idle' r) id
  woken all went suspended waits := by
    have status : q.rpmStatus = s.q.rpmStatus := untold.status
    obtain ⟨r, there, isNormal⟩ := waits
    change s.mark < q.resumes
    rw [untold.resumes]
    change q.rpmStatus = .suspended ∨ q.rpmStatus = .suspending at suspended
    rw [status] at suspended
    have isNormal' : normal c q r = true := isNormal
    rw [untoldNormal untold] at isNormal'
    exact sound.woken all went suspended ⟨r, fewer r there, isNormal'⟩
  marked := untold.resumes.symm ▸ sound.marked

theorem peekSound (sound : Sound c s) (rounds : Nat → PeekRound) :
    ∃ t, step c attempt s (.peek rounds) = some t ∧ Sound c t := by
  obtain ⟨answer, q, ran, peeked⟩ := peekDriven rounds ((places s.q.b).length + 1) sound.driven (Nat.lt_succ_self _)
  refine ⟨{s with q := q}, by simp only [step, ran, Option.map_some], ?_⟩
  have once := (List.nodup_append.mp peeked.driven.apart).1
  have few : (places q.b).length ≤ (places s.q.b).length := (List.subperm_of_subset once peeked.fewer).length_le
  refine soundUntold sound peeked.driven peeked.untold peeked.fewer ?_ (fun _ _ _ there => Or.inl there)
  rw [List.length_append, List.length_append]
  exact Nat.add_le_add_right few _

theorem fetchSound (sound : Sound c s) (rounds : Nat → PeekRound) :
    ∃ t, step c attempt s (.fetch rounds) = some t ∧ Sound c t := by
  obtain ⟨answer, q, ran, peeked⟩ := peekDriven rounds ((places s.q.b).length + 1) sound.driven (Nat.lt_succ_self _)
  have once := (List.nodup_append.mp peeked.driven.apart).1
  have few : (places q.b).length ≤ (places s.q.b).length := (List.subperm_of_subset once peeked.fewer).length_le
  cases answer with
  | none =>
    refine ⟨{s with q := q}, by simp only [step, blkFetchRequest, ran, Option.map_some]; rfl, ?_⟩
    refine soundUntold sound peeked.driven peeked.untold peeked.fewer ?_ (fun _ _ _ there => Or.inl there)
    rw [List.length_append, List.length_append]
    exact Nat.add_le_add_right few _
  | some r =>
    obtain ⟨top, marked, free⟩ := peeked.top r rfl
    obtain ⟨u, started, driven, untold, perm, _⟩ := dequeueDriven peeked.driven top marked
    have whole := untoldTrans peeked.untold untold
    refine ⟨{s with q := u, held := r :: s.held}, by simp only [step, blkFetchRequest, ran, started, Option.map_some]; rfl,
      ?_⟩
    refine soundUntold sound driven whole (fun x there => ?_) ?_ (fun _ idle x there => ?_)
    · exact peeked.fewer x (perm.mem_iff.mpr (List.mem_cons_of_mem r there))
    · have len := perm.length_eq
      simp only [List.length_append, List.length_cons] at len ⊢
      omega
    · rcases List.mem_cons.mp there with rfl | old
      · right
        rw [heldBackSame peeked.untold, heldBack] at free
        rw [normal]
        cases dev : c.dev with
        | false => rfl
        | true =>
          rw [dev, Bool.true_and, Bool.or_eq_false_iff, Bool.and_eq_false_iff] at free
          rw [Bool.true_and]
          refine free.2.resolve_left (fun active => ?_)
          exact idle (by simpa using active)
      · exact Or.inl old

theorem completeSound (sound : Sound c s) (r : Ref) : ∃ t, step c attempt s (.complete r) = some t ∧ Sound c t := by
  by_cases member : r ∈ s.held
  · obtain ⟨q, finished, driven, untold, sameB, _⟩ := finishDriven sound.driven member
    refine ⟨{s with q := q, held := s.held.erase r}, by simp only [step, if_pos member, finished, Option.map_some], ?_⟩
    refine soundUntold sound driven untold (fun x there => sameB ▸ there) ?_
      (fun _ _ x there => Or.inl (List.mem_of_mem_erase there))
    rw [sameB, List.length_append, List.length_append]
    exact Nat.add_le_add_left (List.erase_sublist).length_le _
  · exact ⟨s, if_neg member, sound⟩

theorem unprepSound (sound : Sound c s) (r : Ref) : ∃ t, step c attempt s (.unprep r) = some t ∧ Sound c t := by
  by_cases member : r ∈ s.held
  · obtain ⟨driven, untold⟩ := prepDriven sound.driven r (fun p => {p with dontPrep := false}) (fun _ => rfl) (fun _ => rfl)
    refine ⟨_, if_pos member, ?_⟩
    exact soundUntold sound driven untold (fun _ there => there) (Nat.le_refl _) (fun _ _ _ there => Or.inl there)
  · exact ⟨s, if_neg member, sound⟩

theorem mergeSound (rules : AttemptRules c attempt) (sound : Sound c s) (rq next : Ref) (segments : BitVec 16) :
    ∃ t, step c attempt s (.merge rq next segments) = some t ∧ Sound c t := by
  by_cases both : rq ∈ s.q.b.queued ∧ next ∈ s.q.b.queued ∧ rq ≠ next
  · obtain ⟨q, merged, driven, untold, perm, _⟩ := mergeDriven sound.driven both.1 both.2.1 both.2.2 segments
    rcases rules.attempts s.q rq next segments with left | merges
    · exact ⟨s, by simp only [step, if_pos both, left, Option.map_some], sound⟩
    refine ⟨{s with q := q}, by simp only [step, if_pos both, merges, merged, Option.map_some], ?_⟩
    refine soundUntold sound driven untold (fun x there => perm.mem_iff.mpr (List.mem_cons_of_mem next there)) ?_
      (fun _ _ _ there => Or.inl there)
    have len := perm.length_eq
    simp only [List.length_append, List.length_cons] at len ⊢
    omega
  · exact ⟨s, if_neg both, sound⟩

theorem requeueSound (sound : Sound c s) (now : Timespec) (r : Ref) :
    ∃ t, step c attempt s (.requeue now r) = some t ∧ Sound c t := by
  by_cases member : r ∈ s.held
  · obtain ⟨q, back, driven, status, resumes, prep, perm, _⟩ := requeueDriven now sound.driven member
    have normals : ∀ x, normal c q x = normal c s.q x := by
      intro x
      rw [normal, normal, prep]
    refine ⟨{s with q := q, held := s.held.erase r}, by simp only [step, if_pos member, back, Option.map_some],
      ⟨driven, ?_, fun all idle x there => ?_, fun all went suspended waits => ?_, Nat.le_trans sound.marked resumes⟩⟩
    · refine Nat.lt_of_le_of_lt (Nat.le_of_eq ?_) sound.few
      have len := perm.length_eq
      have one := List.length_erase_of_mem member
      have positive := List.length_pos_of_mem member
      simp only [List.length_append, List.length_cons] at len ⊢
      omega
    · have idle' : s.q.rpmStatus ≠ .active := fun active => idle (status.trans active)
      exact (normals x).trans (sound.quiet all idle' x (List.mem_of_mem_erase there))
    · obtain ⟨x, there, isNormal⟩ := waits
      have isNormal' : normal c s.q x = true := (normals x).symm.trans isNormal
      have suspended' : s.q.rpmStatus = .suspended ∨ s.q.rpmStatus = .suspending := status ▸ suspended
      refine Nat.lt_of_lt_of_le (sound.woken all went suspended' ⟨x, ?_, isNormal'⟩) resumes
      rcases List.mem_cons.mp (perm.mem_iff.mp there) with rfl | old
      · -- the driver held no normal request that it could put back
        have idle : s.q.rpmStatus ≠ .active := by
          intro active
          rw [active] at suspended'
          exact suspended'.elim (fun h => by cases h) (fun h => by cases h)
        rw [sound.quiet all idle x member] at isNormal'
        cases isNormal'
      · exact old
  · exact ⟨s, if_neg member, sound⟩

theorem abandonSound (sound : Sound c s) (r : Ref) (rq : Request) (p : Prep) :
    ∃ t, step c attempt s (.abandon r rq p) = some t ∧ Sound c t := by
  by_cases new : New s r rq
  · obtain ⟨driven, idle, off, here, normals⟩ := placeDriven sound p new
    obtain ⟨q, put, sameB, prep, untold, pending, flight⟩ := putExact (c := c) (q := place s.q r rq p) new.1 off
    have idle' : ∀ d, countsAt (place s.q r rq p) d r = false := by
      intro d
      have started : ((place s.q r rq p).b.req r).cmdFlags.started = false := idle
      rw [countsAt, blkAccountRq, started]
      rfl
    have normalSame : normal c q = normal c (place s.q r rq p) := funext (untoldNormal untold)
    have drivenQ : Driven c q s.held (if normal c (place s.q r rq p) r then s.gone + 1 else s.gone) := by
      refine ⟨sameB ▸ driven.tidy, ?_, ?_, fun x there => ?_, fun d => ?_, ?_⟩
      · rw [sameB]
        exact driven.apart
      · rw [sameB]
        exact driven.idle
      · rw [sameB]
        exact driven.started x there
      · have same : countsAt q d = countsAt (place s.q r rq p) d := by
          funext x
          rw [countsAt, countsAt, sameB, prep]
        rw [flight, same, idle' d, ← driven.inFlight d]
        exact BitVec.sub_zero _
      · rw [pending, sameB, normalSame, ← driven.pending, oneIf]
        split
        · rw [BitVec.ofNat_add, BitVec.add_comm (BitVec.ofNat 32 s.gone), ← BitVec.add_assoc]
          congr 1
          exact BitVec.sub_add_cancel ..
        · congr 1
          exact BitVec.sub_zero _
    refine ⟨{s with q := q, gone := if normal c (place s.q r rq p) r then s.gone + 1 else s.gone},
      by simp only [step, if_pos new, put, Option.map_some], ⟨drivenQ, ?_, fun all active x there => ?_,
      fun all went suspended waits => ?_, untold.resumes.symm ▸ sound.marked⟩⟩
    · rw [sameB]
      exact sound.few
    · have all' : s.gone = 0 := by
        change (if _ then _ else _) = 0 at all
        split at all
        · exact absurd all (Nat.succ_ne_zero _)
        · exact all
      change normal c q x = false
      rw [normalSame, normals x (List.mem_append_right _ there)]
      exact sound.quiet all' (fun h => active (untold.status.trans h)) x there
    · have all' : s.gone = 0 := by
        change (if _ then _ else _) = 0 at all
        split at all
        · exact absurd all (Nat.succ_ne_zero _)
        · exact all
      obtain ⟨x, there, isNormal⟩ := waits
      change x ∈ places q.b at there
      rw [sameB] at there
      change normal c q x = true at isNormal
      rw [normalSame, normals x (List.mem_append_left _ there)] at isNormal
      change s.mark < q.resumes
      rw [untold.resumes]
      change q.rpmStatus = .suspended ∨ q.rpmStatus = .suspending at suspended
      rw [untold.status] at suspended
      exact sound.woken all' went suspended ⟨x, there, isNormal⟩
  · exact ⟨s, if_neg new, sound⟩

/- The request that finds the device going to sleep, or asleep, with nothing pending wakes it. -/
theorem addSound (sound : Sound c s) (now : Timespec) (r : Ref) (rq : Request) (p : Prep) (point : InsertionPoint)
    (merged : Bool) : ∃ t, step c attempt s (.add now r rq p point merged) = some t ∧ Sound c t := by
  by_cases addable : Addable s r rq point
  · have enabled := addable
    obtain ⟨new, known, fs, room⟩ := addable
    obtain ⟨driven, idle, off, here, normals⟩ := placeDriven sound p new
    have ready : Ready (place s.q r rq p) s.held r point := by
      refine ⟨new.1, new.2.1, idle, ?_, ?_⟩
      · rw [here]
        exact known
      · rw [here]
        exact fs
    obtain ⟨q, added, drivenQ, told, prep, lists, _⟩ := addDriven now merged driven ready
    have inside : ∀ x ∈ places q.b, x = r ∨ x ∈ places s.q.b := by
      intro x there
      have there' := lists.mem_iff.mp there
      split at there'
      · exact Or.inr there'
      · exact List.mem_cons.mp there'
    have normalSame : ∀ x ∈ places s.q.b ++ s.held, normal c q x = normal c s.q x := by
      intro x there
      rw [← normals x there, normal, normal, prep]
    have more : (place s.q r rq p).resumes ≤ q.resumes := by
      rw [told.resumes]
      split
      · exact Nat.le_succ _
      · exact Nat.le_refl _
    refine ⟨{s with q := q}, by simp only [step, if_pos enabled, added, Option.map_some],
      ⟨drivenQ, ?_, fun all active x there => ?_, fun all went suspended waits => ?_,
        Nat.le_trans sound.marked more⟩⟩
    · have len : (places q.b).length ≤ (places s.q.b).length + 1 := by
        rw [lists.length_eq]
        split
        · exact Nat.le_succ _
        · exact Nat.le_refl _
      rw [List.length_append] at room ⊢
      change (places q.b).length + s.held.length < _
      omega
    · change normal c q x = false
      rw [normalSame x (List.mem_append_right _ there)]
      exact sound.quiet all (fun h => active (told.status.trans h)) x there
    · change s.mark < q.resumes
      change q.rpmStatus = .suspended ∨ q.rpmStatus = .suspending at suspended
      rw [told.status] at suspended
      have suspended' : s.q.rpmStatus = .suspended ∨ s.q.rpmStatus = .suspending := suspended
      have active : s.q.rpmStatus ≠ .active := by
        intro active
        rw [active] at suspended'
        exact suspended'.elim (fun h => by cases h) (fun h => by cases h)
      obtain ⟨x, there, isNormal⟩ := waits
      have old : (∃ y ∈ places s.q.b, normal c s.q y = true) → s.mark < q.resumes := fun waited =>
        Nat.lt_of_lt_of_le (sound.woken all went suspended' waited) more
      rcases inside x there with rfl | before
      · by_cases zero : s.q.nrPending = 0
        · have asked : normal c (place s.q x rq p) x = true ∧ asks (place s.q x rq p) := by
            refine ⟨?_, zero, suspended⟩
            have same : normal c q x = normal c (place s.q x rq p) x := by rw [normal, normal, prep]
            exact same.symm.trans isNormal
          rw [told.resumes, if_pos asked]
          exact Nat.lt_succ_of_le sound.marked
        · obtain ⟨y, thereY, normalY⟩ := pendingSome sound all zero
          refine old ⟨y, ?_, normalY⟩
          refine (List.mem_append.mp thereY).resolve_right (fun inHeld => ?_)
          rw [sound.quiet all active y inHeld] at normalY
          cases normalY
      · refine old ⟨x, before, ?_⟩
        exact (normalSame x (List.mem_append_left _ before)).symm.trans isNormal
  · exact ⟨s, if_neg addable, sound⟩

end

section
variable {c : Config} {attempt : AttemptMerge} {s : Watch}

theorem statusDriven (driven : Driven c s.q s.held s.gone) (status : RpmStatus) :
    Driven c {s.q with rpmStatus := status} s.held s.gone :=
  ⟨driven.tidy, driven.apart, driven.idle, driven.started, driven.inFlight, driven.pending⟩

/- The device may only begin to suspend when no normal request is on the queue or the driver. -/
theorem preSuspendSound (sound : Sound c s) : ∃ t, step c attempt s .preSuspend = some t ∧ Sound c t := by
  by_cases active : s.q.rpmStatus = .active
  · by_cases zero : s.q.nrPending = 0
    · have began : step c attempt s .preSuspend =
          some {s with q := {s.q with rpmStatus := .suspending}, mark := s.q.resumes, failed := false} := by
        simp only [step, if_pos active, blkPreRuntimeSuspend, zero, ne_eq, not_true, if_false]
      refine ⟨_, began, statusDriven sound.driven _, sound.few, fun all _ r there => ?_, fun all _ _ waits => ?_,
        Nat.le_refl _⟩
      · exact pendingNone sound all zero r (List.mem_append_right _ there)
      · obtain ⟨r, there, isNormal⟩ := waits
        have none' : normal c s.q r = false := pendingNone sound all zero r (List.mem_append_left _ there)
        have isNormal' : normal c s.q r = true := isNormal
        rw [none'] at isNormal'
        cases isNormal'
    · refine ⟨s, ?_, sound⟩
      simp only [step, if_pos active, blkPreRuntimeSuspend, zero, ne_eq, not_false_eq_true, if_true]
  · exact ⟨s, if_neg active, sound⟩

theorem postSuspendSound (sound : Sound c s) (failed : Bool) :
    ∃ t, step c attempt s (.postSuspend failed) = some t ∧ Sound c t := by
  by_cases suspending : s.q.rpmStatus = .suspending
  · have idle : s.q.rpmStatus ≠ .active := by
      rw [suspending]
      exact fun h => by cases h
    exact ⟨_, if_pos suspending, statusDriven sound.driven _, sound.few, fun all _ => sound.quiet all idle,
      fun all went _ => sound.woken all went (Or.inr suspending), sound.marked⟩
  · exact ⟨s, if_neg suspending, sound⟩

theorem preResumeSound (sound : Sound c s) : ∃ t, step c attempt s .preResume = some t ∧ Sound c t := by
  by_cases suspended : s.q.rpmStatus = .suspended
  · have idle : s.q.rpmStatus ≠ .active := by
      rw [suspended]
      exact fun h => by cases h
    exact ⟨_, if_pos suspended, statusDriven sound.driven _, sound.few, fun all _ => sound.quiet all idle,
      fun _ _ asleep => asleep.elim (fun h => by cases h) (fun h => by cases h), sound.marked⟩
  · exact ⟨s, if_neg suspended, sound⟩

theorem postResumeSound (sound : Sound c s) (failed : Bool) :
    ∃ t, step c attempt s (.postResume failed) = some t ∧ Sound c t := by
  by_cases resuming : s.q.rpmStatus = .resuming
  · have idle : s.q.rpmStatus ≠ .active := by
      rw [resuming]
      exact fun h => by cases h
    refine ⟨_, if_pos resuming, statusDriven sound.driven _, sound.few, fun all _ => sound.quiet all idle,
      fun _ went asleep => ?_, sound.marked⟩
    have resumed : failed = false := went
    rw [resumed] at asleep
    exact asleep.elim (fun h => by cases h) (fun h => by cases h)
  · exact ⟨s, if_neg resuming, sound⟩

theorem stepSound (rules : AttemptRules c attempt) (sound : Sound c s) (op : Op) : ∃ t, step c attempt s op = some t ∧ Sound c t := by
  cases op with
  | add now r rq p point merged => exact addSound sound now r rq p point merged
  | merge rq next segments => exact mergeSound rules sound rq next segments
  | abandon r rq p => exact abandonSound sound r rq p
  | peek rounds => exact peekSound sound rounds
  | fetch rounds => exact fetchSound sound rounds
  | complete r => exact completeSound sound r
  | requeue now r => exact requeueSound sound now r
  | unprep r => exact unprepSound sound r
  | preSuspend => exact preSuspendSound sound
  | postSuspend failed => exact postSuspendSound sound failed
  | preResume => exact preResumeSound sound
  | postResume failed => exact postResumeSound sound failed

theorem initialSound : Sound c initial where
  driven := by
    refine ⟨⟨⟨List.nodup_nil, rfl⟩, (fun _ mark => by cases mark), (fun _ there => by cases there)⟩, List.nodup_nil,
      (fun _ there => by cases there), (fun _ there => by cases there), fun _ => rfl, rfl⟩
  few := by decide
  quiet _ idle := absurd rfl idle
  woken _ _ asleep := asleep.elim (fun h => by cases h) (fun h => by cases h)
  marked := Nat.le_refl _

end

theorem runSound {c : Config} {attempt : AttemptMerge} (rules : AttemptRules c attempt) (ops : List Op) :
    ∃ t, exec (step c attempt) initial ops = some t ∧ Sound c t :=
  execTotal (fun _ op sound => stepSound rules sound op) initialSound ops

def scsiLike : Config := ⟨true, true, true⟩

/- Requests that meet are merged. -/
def meeting (c : Config) : AttemptMerge := fun s rq next segments =>
  if s.b.endOf rq = s.b.pos next then (mergeQueued c s rq next segments).map fun s => (true, s) else some (false, s)

theorem meetingRules (c : Config) : AttemptRules c (meeting c) where
  attempts s rq next segments := by
    by_cases meets : s.b.endOf rq = s.b.pos next
    · exact Or.inr (if_pos meets)
    · exact Or.inl (if_neg meets)

def eightSectors (first : Sector) : Request :=
  {unused with sector := first, dataLen := 4096, cmdType := .fs, cmdFlags := {unused.cmdFlags with elvPriv := true}}

def rounds (result : BlkPrep) : Nat → PeekRound := fun _ => ⟨.zero, result, result == .ok⟩

section
variable {c : Config} {attempt : AttemptMerge}

/- A device that goes to sleep is woken by a write; a second write is deferred, started, put
back and killed; of two more that meet one is left. -/
def wokenByWrite : List Op :=
  [.preSuspend, .add .zero 1 (eightSectors 8) ⟨false, false, false, true, 1⟩ .sort false, .postSuspend false,
    .fetch (rounds .ok), .preResume, .postResume false, .fetch (rounds .ok),
    .add .zero 2 (eightSectors 64) ⟨false, false, false, false, 2⟩ .sort false, .peek (rounds .defer),
    .fetch (rounds .ok), .unprep 2, .requeue .zero 2, .fetch (rounds .kill), .preSuspend,
    .add .zero 3 (eightSectors 128) ⟨false, false, false, false, 1⟩ .sort false,
    .add .zero 4 (eightSectors 136) ⟨false, false, false, false, 1⟩ .sort false, .merge 3 4 2, .fetch (rounds .ok)]

/- While the device resumes, its own request is fetched and the write before it waits. -/
def resumeFirst : List Op :=
  [.preSuspend, .postSuspend false, .add .zero 1 (eightSectors 8) ⟨false, false, false, true, 1⟩ .sort false,
    .preResume, .add .zero 2 (eightSectors 0) ⟨false, false, true, true, 1⟩ .front false, .fetch (rounds .ok),
    .fetch (rounds .ok)]

end

end KernelLabs.DriverRuns
