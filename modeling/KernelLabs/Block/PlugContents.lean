import KernelLabs.Block.PlugRuns

/-! What is on a plug over whole runs. One rule carries a property of the plugged list and of
the requests handed over through merges, callbacks, nested flushes and sleeps; the bound on
the list and the shape of the requests are instances of it. -/
namespace KernelLabs.PlugContents
open Block Runs Plugging PlugRuns

/- What keeps a property `p` of the plugged list and a property `r` of the requests handed
over, for submissions that are `allowed`. A request is added to a list with fewer than
`BLK_MAX_REQUEST_COUNT` of its queue, unless nobody counted. -/
structure PlugRule (m : BlkMerge) (allowed : Submission → Prop) (p : List PlugRequest → Prop)
    (r : PlugRequest → Prop) : Prop where
  empty : p []
  handed : ∀ l, p l → ∀ rq ∈ l, r rq
  fresh : ∀ sub rq, allowed sub → r (initRequestFromBio sub rq)
  merge : ∀ sub before rq after merged, allowed sub → p (before ++ rq :: after) →
    attemptMerge m sub.q sub.bio rq = some merged → p (before ++ merged :: after)
  push : ∀ sub rq l, allowed sub → p l →
    (sub.flushFua = true ∨ sub.nomerges = true ∨ l.countP (fun rq => rq.q = sub.q) < blkMaxRequestCount) →
    p (l ++ [initRequestFromBio sub rq])

section
variable {σ : Type} {p : List PlugRequest → Prop} {r : PlugRequest → Prop} {allowed : Submission → Prop}

variable (p r) in
structure Holds (t : PlugTask σ) : Prop where
  list : p t.plugged
  events : ∀ e ∈ t.events, ∀ rq ∈ handed e, r rq

theorem holdsLog {t : PlugTask σ} {more : List PlugEvent} (holds : Holds p r t)
    (none' : ∀ e ∈ more, ∀ rq ∈ handed e, r rq) : Holds p r (t.log more) := by
  refine ⟨holds.list, fun e member => ?_⟩
  rcases List.mem_append.mp member with old | new
  · exact holds.events e old
  · exact none' e new

theorem pluggedSet (t : PlugTask σ) (f : Plug → Plug) :
    (t.setPlug f).plugged = (t.plug.map (fun p => (f p.2).list)).getD [] := by
  cases found : t.plug <;> simp [PlugTask.plugged, PlugTask.setPlug, found]

theorem holdsCheck {t : PlugTask σ} (holds : Holds p r t) (cb : PlugCb) (allocated : Bool) :
    Holds p r (blkCheckPlugged t cb allocated) := by
  unfold blkCheckPlugged
  split
  · exact holds
  · rename_i pair plug found
    split
    · exact holds
    · split
      · refine ⟨?_, holds.events⟩
        have same : ((t.setPlug fun plug => {plug with cbList := cb :: plug.cbList}).arrive
            (.callback cb)).plugged = t.plugged := by
          simp [PlugTask.plugged, PlugTask.setPlug, PlugTask.arrive, found]
        rw [same]
        exact holds.list
      · exact holds

/- A flush that keeps the rule's properties and leaves nothing plugged. -/
def FlushHolds (p : List PlugRequest → Prop) (r : PlugRequest → Prop)
    (flush : PlugTask σ → Bool → Option (PlugTask σ)) : Prop :=
  ∀ t fromSchedule u, Holds p r t → flush t fromSchedule = some u → Holds p r u ∧ u.plugged = []

theorem sleepHolds {flush : PlugTask σ → Bool → Option (PlugTask σ)} (flushes : FlushHolds p r flush)
    {q : Ref} {sleeps : Nat} {t u : PlugTask σ} (holds : Holds p r t)
    (ran : sleepForRequest flush q sleeps t = some u) :
    Holds p r u ∧ (u.plugged = t.plugged ∨ u.plugged = []) := by
  induction sleeps generalizing t with
  | zero =>
    cases Option.some.inj ran
    exact ⟨holds, Or.inl rfl⟩
  | succ n ih =>
    rw [sleepForRequest] at ran
    split at ran <;> try contradiction
    rename_i v slept
    have unlocked : Holds p r (t.log [.unlock q]) := holdsLog holds (by simp [handed])
    unfold flushIfPlugged at slept
    split at slept
    · cases Option.some.inj slept
      have locked : Holds p r ((t.log [.unlock q]).log [.lock q]) := holdsLog unlocked (by simp [handed])
      exact ih (t := (t.log [.unlock q]).log [.lock q]) locked ran
    · obtain ⟨after, empty⟩ := flushes _ _ _ unlocked slept
      have locked : Holds p r (v.log [.lock q]) := holdsLog after (by simp [handed])
      obtain ⟨last, same | empty'⟩ := ih locked ran
      · exact ⟨last, Or.inr (same.trans empty)⟩
      · exact ⟨last, Or.inr empty'⟩

theorem addRequestHolds {m : BlkMerge} (rule : PlugRule m allowed p r)
    {flush : PlugTask σ → Bool → Option (PlugTask σ)} (flushes : FlushHolds p r flush) {t u : PlugTask σ}
    {sub : Submission} (ok : allowed sub) {rq : FreshRequest} {point : InsertionPoint} {count : Nat}
    (holds : Holds p r t)
    (counted : sub.flushFua = true ∨ sub.nomerges = true ∨ t.plugged.countP (fun rq => rq.q = sub.q) ≤ count)
    (ran : addRequest flush t (initRequestFromBio sub rq) point count = some u) : Holds p r u := by
  unfold addRequest at ran
  split at ran
  · obtain ⟨v, made, rfl⟩ := Option.map_eq_some_iff.mp ran
    have room : Holds p r v ∧ (sub.flushFua = true ∨ sub.nomerges = true ∨
        v.plugged.countP (fun rq => rq.q = sub.q) < blkMaxRequestCount) := by
      split at made
      · obtain ⟨after, empty⟩ := flushes _ _ _ holds made
        refine ⟨after, Or.inr (Or.inr ?_)⟩
        rw [empty]
        exact Nat.succ_pos 15
      · rename_i few
        cases Option.some.inj made
        refine ⟨holds, counted.imp_right (fun rest => rest.imp_right (fun le => ?_))⟩
        omega
    refine ⟨?_, room.1.events⟩
    rw [pluggedSet]
    cases found : v.plug with
    | none => exact rule.empty
    | some pair =>
      have list : v.plugged = pair.2.list := by rw [PlugTask.plugged, found]; rfl
      rw [list] at room
      exact rule.push sub rq pair.2.list ok (list ▸ room.1.list) room.2
  · cases Option.some.inj ran
    refine holdsLog holds ?_
    simpa [handed] using rule.fresh sub rq ok

theorem getRqHolds {m : BlkMerge} (rule : PlugRule m allowed p r)
    {flush : PlugTask σ → Bool → Option (PlugTask σ)} (flushes : FlushHolds p r flush) {t u : PlugTask σ}
    {sub : Submission} (ok : allowed sub) {point : InsertionPoint} {count : Nat} (holds : Holds p r t)
    (counted : sub.flushFua = true ∨ sub.nomerges = true ∨ t.plugged.countP (fun rq => rq.q = sub.q) ≤ count)
    (ran : getRq flush t sub point count = some u) : Holds p r u := by
  unfold getRq at ran
  split at ran <;> try contradiction
  rename_i v slept
  obtain ⟨after, list⟩ := sleepHolds flushes holds slept
  split at ran
  · cases Option.some.inj ran
    exact holdsLog after (by simp [handed])
  · rename_i rq _
    have unlocked : Holds p r (v.log [.unlock sub.q]) := holdsLog after (by simp [handed])
    have made : Holds p r ((v.log [.unlock sub.q]).arrive (.request rq.addr)) := ⟨unlocked.list, unlocked.events⟩
    refine addRequestHolds rule flushes ok made ?_ ran
    refine counted.imp_right (fun rest => rest.imp_right (fun le => ?_))
    change v.plugged.countP _ ≤ count
    rcases list with same | empty
    · rw [same]
      exact le
    · rw [empty]
      exact Nat.zero_le count

theorem queueBioHolds {outer : Outer σ} (rule : PlugRule outer.merging allowed p r)
    {flush : PlugTask σ → Bool → Option (PlugTask σ)} (flushes : FlushHolds p r flush) {t u : PlugTask σ}
    {sub : Submission} (ok : allowed sub) (holds : Holds p r t)
    (ran : queueBioWith outer flush t sub = some u) : Holds p r u := by
  have came : Holds p r (t.arrive (.bio sub.bio.addr)) := ⟨holds.list, holds.events⟩
  unfold queueBioWith at ran
  generalize t.arrive (.bio sub.bio.addr) = v at came ran
  have locked : Holds p r (v.log [.lock sub.q]) := holdsLog came (by simp [handed])
  have unmerged : ∀ {count : Nat}, (sub.flushFua = true ∨ sub.nomerges = true ∨
      v.plugged.countP (fun rq => rq.q = sub.q) ≤ count) → queueUnmerged flush v sub count = some u →
      Holds p r u := by
    intro count counted ran
    unfold queueUnmerged at ran
    split at ran
    · cases Option.some.inj ran
      exact holdsLog came (by simp [handed])
    · exact getRqHolds rule flushes ok locked counted ran
  dsimp only at ran
  split at ran
  · cases Option.some.inj ran
    exact holdsLog came (by simp [handed])
  · split at ran
    · rename_i flush'
      exact getRqHolds rule flushes ok locked (Or.inl flush') ran
    · split at ran
      · rename_i nomerges
        exact unmerged (Or.inr (Or.inl nomerges)) ran
      · cases looped : plugMergeLoop outer.merging sub.q sub.bio v.plugged.reverse with
        | mk count out =>
          cases out with
          | none =>
            simp only [blkAttemptPlugMerge, looped] at ran
            refine unmerged (Or.inr (Or.inr ?_)) ran
            rw [plugMergeCounts looped, List.countP_reverse]
          | some out =>
            simp only [blkAttemptPlugMerge, looped, Option.some.injEq] at ran
            subst ran
            obtain ⟨before, x, after, merged, whole, rfl, joined⟩ := plugMergeCases looped
            have list : v.plugged = after.reverse ++ x :: before.reverse := by
              rw [← List.reverse_reverse v.plugged, whole]
              simp
            refine ⟨?_, came.events⟩
            rw [pluggedSet]
            cases found : v.plug with
            | none => exact rule.empty
            | some pair =>
              have before' := came.list
              rw [list] at before'
              have next := rule.merge sub after.reverse x before.reverse merged ok before' joined
              simpa using next

theorem flushRequestsHolds {outer : Outer σ} (sorts : ListSort outer.listSort)
    (rule : PlugRule outer.merging allowed p r) {t u : PlugTask σ} {fromSchedule : Bool} (holds : Holds p r t)
    (ran : flushRequests outer t fromSchedule = some u) : Holds p r u := by
  obtain ⟨-, empty, -⟩ := flushRequestsCarries sorts ran
  refine ⟨by rw [empty]; exact rule.empty, ?_⟩
  unfold flushRequests at ran
  split at ran
  · cases Option.some.inj ran
    exact holds.events
  · obtain ⟨events, looped, rfl⟩ := Option.map_eq_some_iff.mp ran
    intro e member
    rcases List.mem_append.mp member with old | new
    · exact holds.events e old
    · intro rq there
      have listed := flushLoopHands looped e new rq there
      exact rule.handed t.plugged holds.list rq ((sorts.perm t.plugged).mem_iff.mp listed)

/- What a callback may submit is what the rule allows. -/
def CallbacksAllowed (outer : Outer σ) (allowed : Submission → Prop) : Prop :=
  ∀ world cb fromSchedule sub, CbCall.submit sub ∈ (outer.unplug world cb fromSchedule).2 → allowed sub

theorem flushHolds {outer : Outer σ} (sets : SetsMixed outer.merging) (sorts : ListSort outer.listSort)
    (rule : PlugRule outer.merging allowed p r) (callbacksOk : CallbacksAllowed outer allowed) (fuel : Nat) :
    FlushHolds p r (blkFlushPlugList outer fuel) ∧
    (∀ t fromSchedule cbs u, Holds p r t → flushPlugCallbacks outer fuel t fromSchedule cbs = some u →
      Holds p r u) ∧
    (∀ t calls u, (∀ sub, CbCall.submit sub ∈ calls → allowed sub) → Holds p r t →
      cbCalls outer fuel t calls = some u → Holds p r u) := by
  induction fuel with
  | zero =>
    refine ⟨fun t fromSchedule u holds ran => ?_, fun t fromSchedule cbs u holds ran => ?_,
      fun t calls u ok holds ran => ?_⟩
    · rw [blkFlushPlugList] at ran
      contradiction
    · rw [flushPlugCallbacks] at ran
      contradiction
    · rw [cbCalls] at ran
      contradiction
  | succ fuel ih =>
    obtain ⟨flushes, loops, calls'⟩ := ih
    refine ⟨fun t fromSchedule u holds ran => ?_, fun t fromSchedule cbs u holds ran => ?_,
      fun t calls u ok holds ran => ?_⟩
    · have empty := ((flushCarries sets sorts (fuel + 1)).1 _ _ _ ran).2.1
      rw [blkFlushPlugList] at ran
      split at ran <;> try contradiction
      rename_i v looped
      exact ⟨flushRequestsHolds sorts rule (loops _ _ _ _ holds looped) ran, empty⟩
    · cases cbs with
      | nil =>
        rw [flushPlugCallbacks] at ran
        split at ran
        · cases Option.some.inj ran
          exact holds
        · have emptied : Holds p r (t.setPlug fun plug => {plug with cbList := []}) := by
            refine ⟨?_, holds.events⟩
            rw [pluggedSet]
            exact holds.list
          exact loops _ _ _ _ emptied ran
      | cons cb cbs =>
        rw [flushPlugCallbacks] at ran
        split at ran <;> try contradiction
        rename_i v called
        have logged : Holds p r (t.log [.callback cb fromSchedule]) := holdsLog holds (by simp [handed])
        have entered : Holds p r {t.log [.callback cb fromSchedule] with
            world := (outer.unplug t.world cb fromSchedule).1} := ⟨logged.list, logged.events⟩
        exact loops _ _ _ _ (calls' _ _ _ (callbacksOk t.world cb fromSchedule) entered called) ran
    · cases calls with
      | nil =>
        rw [cbCalls] at ran
        cases Option.some.inj ran
        exact holds
      | cons call calls =>
        have later : ∀ sub, CbCall.submit sub ∈ calls → allowed sub := fun sub member =>
          ok sub (List.mem_cons_of_mem call member)
        cases call with
        | check cb allocated =>
          rw [cbCalls] at ran
          exact calls' _ _ _ later (holdsCheck holds cb allocated) ran
        | submit sub =>
          rw [cbCalls] at ran
          split at ran <;> try contradiction
          rename_i v queued
          exact calls' _ _ _ later (queueBioHolds rule flushes (ok sub List.mem_cons_self) holds queued) ran

theorem runHolds {outer : Outer σ} (sets : SetsMixed outer.merging) (sorts : ListSort outer.listSort)
    (rule : PlugRule outer.merging allowed p r) (callbacksOk : CallbacksAllowed outer allowed) {fuel : Nat}
    {s t : PlugTask σ} {ops : List TaskOp} (opsOk : ∀ sub, TaskOp.submit sub ∈ ops → allowed sub)
    (holds : Holds p r s) (ran : exec (step outer fuel) s ops = some t) : Holds p r t := by
  obtain ⟨flushes, -, -⟩ := flushHolds sets sorts rule callbacksOk fuel
  induction ops generalizing s with
  | nil =>
    cases Option.some.inj ran
    exact holds
  | cons op ops ih =>
    obtain ⟨u, taken, rest⟩ := execConsSome ran
    refine ih (fun sub member => opsOk sub (List.mem_cons_of_mem op member)) ?_ rest
    cases op with
    | start q =>
      cases Option.some.inj taken
      unfold blkStartPlug
      split
      · exact holds
      · exact ⟨rule.empty, holds.events⟩
    | finish q =>
      simp only [step, blkFinishPlug] at taken
      split at taken
      · cases Option.some.inj taken
        exact holds
      · obtain ⟨v, flushed, rfl⟩ := Option.map_eq_some_iff.mp taken
        exact ⟨rule.empty, (flushes _ _ _ holds flushed).1.events⟩
    | submit sub => exact queueBioHolds rule flushes (opsOk sub List.mem_cons_self) holds taken
    | check cb allocated =>
      cases Option.some.inj taken
      exact holdsCheck holds cb allocated
    | flush fromSchedule =>
      simp only [step, flushIfPlugged] at taken
      split at taken
      · cases Option.some.inj taken
        exact holds
      · exact (flushes _ _ _ holds taken).1

end

/- Requests of `q` that were counted when they were plugged. -/
def counted (q : Ref) (rq : PlugRequest) : Bool := decide (rq.q = q) && !rq.flushFua

theorem sixteenRule {m : BlkMerge} (sets : SetsMixed m) (q : Ref) :
    PlugRule m (fun sub => sub.q = q → sub.nomerges = false)
      (fun l => l.countP (counted q) ≤ blkMaxRequestCount) (fun _ => True) where
  empty := Nat.zero_le _
  handed _ _ _ _ := trivial
  fresh _ _ _ := trivial
  merge sub before rq after merged _ before' joined := by
    obtain ⟨-, sameQ, sameFlush, -, -, -⟩ := mixedKeeps sets rq sub.bio
    have same : counted q merged = counted q rq := by
      rcases (attemptMergeCases joined).2 with ⟨-, -, rfl⟩ | ⟨-, -, rfl⟩ <;>
        simp only [counted, sameQ, sameFlush]
    rw [List.countP_append, List.countP_cons] at before' ⊢
    rw [same]
    exact before'
  push sub rq l on le room := by
    rw [List.countP_append, List.countP_singleton]
    split
    · rename_i here
      rw [counted, Bool.and_eq_true, decide_eq_true_iff, Bool.not_eq_true'] at here
      obtain ⟨same, plain⟩ := here
      have flush : sub.flushFua = false := plain
      have owner : sub.q = q := same
      rw [flush, on owner] at room
      have few : l.countP (fun rq => rq.q = sub.q) < blkMaxRequestCount := by simpa using room
      have part : l.countP (counted q) ≤ l.countP (fun rq => rq.q = sub.q) := by
        refine List.countP_mono_left (fun x _ mine => ?_)
        rw [counted, Bool.and_eq_true, decide_eq_true_iff] at mine
        exact decide_eq_true (mine.1.trans owner.symm)
      omega
    · exact le

/- A plug never holds more than `BLK_MAX_REQUEST_COUNT` requests of a queue, flushes aside,
in whatever order the bios come and whatever callbacks add; a queue that switches merging
off has no such limit, since nobody counts its requests. -/
theorem plugHoldsSixteen {σ : Type} {outer : Outer σ} (sets : SetsMixed outer.merging)
    (sorts : ListSort outer.listSort) {q : Ref}
    (callbacksMerge : CallbacksAllowed outer (fun sub => sub.q = q → sub.nomerges = false))
    {fuel : Nat} {world : σ} {ops : List TaskOp} {t : PlugTask σ}
    (opsMerge : ∀ sub, TaskOp.submit sub ∈ ops → sub.q = q → sub.nomerges = false)
    (ran : exec (step outer fuel) (idleTask world) ops = some t) :
    t.plugged.countP (fun rq => decide (rq.q = q) && !rq.flushFua) ≤ blkMaxRequestCount :=
  (runHolds sets sorts (sixteenRule sets q) callbacksMerge opsMerge
    ⟨Nat.zero_le _, (fun _ member => by cases member)⟩ ran).list

def apartSubmission (n : Nat) : Submission := plainSubmission n 9 (BitVec.ofNat 64 (100 * n))

/- Sixteen requests fill the plug; the next one flushes it, and the callback adds one. Then a
bio has to sleep for its request, which flushes the plug again, and more fill it. -/
def heldRun : List TaskOp :=
  [.start 1, .check ⟨1, 8⟩ true] ++ (List.range 17).map (.submit <| apartSubmission ·) ++
    .submit {apartSubmission 17 with sleeps := 1} :: (List.range' 18 15).map (.submit <| apartSubmission ·)

theorem heldAsks {sub : Submission} (member : TaskOp.submit sub ∈ heldRun) : sub.nomerges = false := by
  simp only [heldRun, List.mem_append, List.mem_cons, List.mem_map, TaskOp.submit.injEq, reduceCtorEq,
    List.not_mem_nil, or_self, false_or] at member
  rcases member with ⟨n, _, rfl⟩ | rfl | ⟨n, _, rfl⟩ <;> rfl

theorem heldSixteen : ∃ t, exec (step raidOuter 12) (idleTask ()) heldRun = some t ∧ t.plugged.length = 16 ∧
    t.plugged.countP (fun rq => decide (rq.q = 9) && !rq.flushFua) ≤ blkMaxRequestCount := by
  have callbacksMerge : CallbacksAllowed raidOuter (fun sub => sub.q = 9 → sub.nomerges = false) := by
    intro world cb fromSchedule sub member _
    rw [raidSubmits member]
    rfl
  have full : (exec (step raidOuter 12) (idleTask ()) heldRun).map (·.plugged.length) = some 16 := by decide +kernel
  obtain ⟨t, ran, held⟩ := Option.map_eq_some_iff.mp full
  exact ⟨t, ran, held,
    plugHoldsSixteen plainSets plugSortSorts callbacksMerge (fun sub member _ => heldAsks member) ran⟩

/- The sector behind bios that follow each other from `start` on. -/
def runsTo : Sector → List Bio → Option Sector
  | start, [] => some start
  | start, b :: rest => if b.biSector = start then runsTo (start + (b.biSize >>> 9).setWidth 64) rest else none

/- The bios of a request follow each other from its sector to its end, and are its bytes. -/
structure Consecutive (rq : PlugRequest) : Prop where
  run : runsTo rq.sector rq.bio = some (rqEndSector rq.toRequest)
  bytes : rq.dataLen.toNat = bioTotal rq.bio
  whole : 512 ∣ rq.dataLen.toNat

/- What `blk-merge.c` is relied on for: a merge is tried only where the ranges touch, and
the limits of the queue keep the length of a request below 32 bits. -/
structure TouchesFirst (m : BlkMerge) : Prop where
  back : ∀ rq bio, m.tryMerge rq bio = .backMerge → rqEndSector rq.toRequest = bio.biSector
  front : ∀ rq bio, m.tryMerge rq bio = .frontMerge →
    blkRqPos rq.toRequest - (bio.biSize >>> 9).setWidth 64 = bio.biSector
  backFits : ∀ rq bio, m.llBackMerge rq bio = true → rq.dataLen.toNat + bio.biSize.toNat < 2 ^ 32
  frontFits : ∀ rq bio, m.llFrontMerge rq bio = true → rq.dataLen.toNat + bio.biSize.toNat < 2 ^ 32

theorem runsToAppend (start : Sector) (bios more : List Bio) :
    runsTo start (bios ++ more) = (runsTo start bios).bind (fun next => runsTo next more) := by
  induction bios generalizing start with
  | nil => rfl
  | cons b rest ih =>
    rw [List.cons_append, runsTo, runsTo]
    split
    · exact ih _
    · rfl

/- A run depends on where the bios are, not on their other fields. -/
theorem runsToPlaces (start : Sector) {bios others : List Bio}
    (same : bios.map (fun b => (b.addr, b.biSector, b.biSize)) =
      others.map (fun b => (b.addr, b.biSector, b.biSize))) :
    runsTo start bios = runsTo start others ∧ bioTotal bios = bioTotal others := by
  induction bios generalizing start others with
  | nil =>
    cases others with
    | nil => exact ⟨rfl, rfl⟩
    | cons b rest => cases same
  | cons b rest ih =>
    cases others with
    | nil => cases same
    | cons c others =>
      rw [List.map_cons, List.map_cons] at same
      obtain ⟨first, later⟩ := List.cons.inj same
      have sector : b.biSector = c.biSector := congrArg (fun x => x.2.1) first
      have size : b.biSize = c.biSize := congrArg (fun x => x.2.2) first
      rw [runsTo, runsTo, bioTotalCons, bioTotalCons, sector, size, (ih _ later).1,
        (ih start later).2]
      exact ⟨rfl, rfl⟩

/- Whole sectors and no overflow: the end moves by the sectors that were added. -/
theorem sectorsAdd {len size : BitVec 32} (whole : 512 ∣ len.toNat) (fits : len.toNat + size.toNat < 2 ^ 32) :
    ((len + size) >>> 9).setWidth 64 = (len >>> 9).setWidth 64 + (size >>> 9).setWidth 64 := by
  apply BitVec.eq_of_toNat_eq
  have sum : (len + size).toNat = len.toNat + size.toNat := by
    rw [BitVec.toNat_add, Nat.mod_eq_of_lt fits]
  have low := len.isLt
  have small := size.isLt
  simp only [BitVec.toNat_setWidth, BitVec.toNat_ushiftRight, BitVec.toNat_add, sum, Nat.shiftRight_eq_div_pow]
  omega

theorem freshConsecutive {sub : Submission} (whole : 512 ∣ sub.bio.biSize.toNat) (rq : FreshRequest) :
    Consecutive (initRequestFromBio sub rq) where
  run := by
    simp only [initRequestFromBio, runsTo, if_true]
    rfl
  bytes := (Nat.add_zero _).symm
  whole := whole

theorem mergeConsecutive {m : BlkMerge} (sets : SetsMixed m) (touches : TouchesFirst m) {q : Ref} {bio : Bio}
    {rq merged : PlugRequest} (whole : 512 ∣ bio.biSize.toNat) (before : Consecutive rq)
    (joined : attemptMerge m q bio rq = some merged) : Consecutive merged := by
  obtain ⟨-, -, -, sector, dataLen, bios⟩ := mixedKeeps sets rq bio
  obtain ⟨places, total⟩ := runsToPlaces rq.sector bios
  have sum : rq.dataLen.toNat + bio.biSize.toNat < 2 ^ 32 →
      (rq.dataLen + bio.biSize).toNat = rq.dataLen.toNat + bio.biSize.toNat := fun fits => by
    rw [BitVec.toNat_add, Nat.mod_eq_of_lt fits]
  rcases (attemptMergeCases joined).2 with ⟨side, limits, rfl⟩ | ⟨side, limits, rfl⟩
  · have fits := touches.backFits rq bio limits
    have grown := sectorsAdd before.whole fits
    have touch : rq.sector + (rq.dataLen >>> 9).setWidth 64 = bio.biSector := touches.back rq bio side
    refine ⟨?_, ?_, ?_⟩
    · simp only [rqEndSector, blkRqPos, blkRqSectors, blkRqBytes, sector, dataLen, runsToAppend, places,
        before.run, Option.bind_some, runsTo, touch, if_true, grown, ← BitVec.add_assoc]
    · simp only [dataLen, bioTotalAppend, total, sum fits, before.bytes]
      rfl
    · simp only [dataLen, sum fits]
      exact Nat.dvd_add before.whole whole
  · have fits := touches.frontFits rq bio limits
    have grown := sectorsAdd before.whole fits
    have touch : bio.biSector + (bio.biSize >>> 9).setWidth 64 = rq.sector := by
      rw [← touches.front rq bio side]
      exact BitVec.sub_add_cancel _ _
    refine ⟨?_, ?_, ?_⟩
    · simp only [rqEndSector, blkRqPos, blkRqSectors, blkRqBytes, dataLen, runsTo, if_true, touch, places,
        before.run, grown]
      rw [← touch, BitVec.add_assoc, BitVec.add_comm ((bio.biSize >>> 9).setWidth 64)]
    · simp only [dataLen, bioTotalCons, total, sum fits, before.bytes]
      exact Nat.add_comm _ _
    · simp only [dataLen, sum fits]
      exact Nat.dvd_add before.whole whole

theorem consecutiveRule {m : BlkMerge} (sets : SetsMixed m) (touches : TouchesFirst m) :
    PlugRule m (fun sub => 512 ∣ sub.bio.biSize.toNat) (fun l => ∀ rq ∈ l, Consecutive rq) Consecutive where
  empty _ member := by cases member
  handed _ all := all
  fresh _ rq whole := freshConsecutive whole rq
  merge sub before rq after merged whole all joined x member := by
    rcases List.mem_append.mp member with left | right
    · exact all x (List.mem_append_left _ left)
    · rcases List.mem_cons.mp right with rfl | later
      · have one := all rq (List.mem_append_right before List.mem_cons_self)
        exact mergeConsecutive sets touches whole one joined
      · exact all x (List.mem_append_right before (List.mem_cons_of_mem rq later))
  push sub rq l whole all _ x member := by
    rcases List.mem_append.mp member with old | new
    · exact all x old
    · rw [List.mem_singleton.mp new]
      exact freshConsecutive whole rq

/- Merging without the queue lock, in any order: every request on the plug, and every request
that ever left it, is one run of sectors, its bios in disk order and its bytes their sum. -/
theorem requestsAreRuns {σ : Type} {outer : Outer σ} (sets : SetsMixed outer.merging)
    (touches : TouchesFirst outer.merging) (sorts : ListSort outer.listSort)
    (callbacksWhole : CallbacksAllowed outer (fun sub => 512 ∣ sub.bio.biSize.toNat))
    {fuel : Nat} {world : σ} {ops : List TaskOp} {t : PlugTask σ}
    (opsWhole : ∀ sub, TaskOp.submit sub ∈ ops → 512 ∣ sub.bio.biSize.toNat)
    (ran : exec (step outer fuel) (idleTask world) ops = some t) :
    (∀ rq ∈ t.plugged, Consecutive rq) ∧ ∀ e ∈ t.events, ∀ rq ∈ handed e, Consecutive rq := by
  have start : Holds (fun l => ∀ rq ∈ l, Consecutive rq) Consecutive (idleTask world) :=
    ⟨(fun _ member => by cases member), (fun _ member => by cases member)⟩
  have holds := runHolds sets sorts (consecutiveRule sets touches) callbacksWhole opsWhole start ran
  exact ⟨holds.list, holds.events⟩

theorem plainTouches : TouchesFirst plainMerge where
  back rq bio side := by
    simp only [plainMerge] at side
    split at side
    · assumption
    · split at side <;> cases side
  front rq bio side := by
    simp only [plainMerge] at side
    split at side
    · cases side
    · split at side
      · assumption
      · cases side
  backFits rq bio fits := by
    have := of_decide_eq_true fits
    omega
  frontFits rq bio fits := by
    have := of_decide_eq_true fits
    omega

theorem raidConsecutive : ∃ t, exec (step raidOuter 9) (idleTask ()) raidRun = some t ∧
    ∀ e ∈ t.events, ∀ rq ∈ handed e, Consecutive rq := by
  have callbacksWhole : CallbacksAllowed raidOuter (fun sub => 512 ∣ sub.bio.biSize.toNat) := by
    intro world cb fromSchedule sub member
    rw [raidSubmits member]
    exact Nat.dvd_refl 512
  have opsWhole : ∀ sub, TaskOp.submit sub ∈ raidRun → 512 ∣ sub.bio.biSize.toNat := by
    intro sub member
    obtain ⟨addr, q, sector, rfl⟩ := raidAsks member
    exact Nat.dvd_refl 512
  have some' : (exec (step raidOuter 9) (idleTask ()) raidRun).isSome := by decide +kernel
  obtain ⟨t, ran⟩ := Option.isSome_iff_exists.mp some'
  exact ⟨t, ran, (requestsAreRuns plainSets plainTouches plugSortSorts callbacksWhole opsWhole ran).2⟩

end KernelLabs.PlugContents
