import KernelLabs.Block.Completion
import KernelLabs.Library.Trampoline

/-! `generic_make_request`: the checks on a submitted bio, and the flattening of stacked
drivers. A driver's `make_request_fn` is outside: it may submit further bios while it runs,
and these calls come back here with `current->bio_list` set. -/
namespace KernelLabs.MakeRequest
open Block

/- What the checks read of a queue; `flushFlags` is `q->flush_flags` tested for zero. -/
structure QueueLimits where
  flushFlags : Bool
  discard : Bool
  secdiscard : Bool
  writeSame : Bool
  deriving DecidableEq, Repr

/- `iSize` is `i_size_read` of the inode, `startSect` that of `bd_part`. -/
structure BlockDevice where
  bdContains : Ref
  iSize : BitVec 64
  startSect : Sector
  queue : Option QueueLimits
  deriving DecidableEq, Repr

structure SubmitBio extends Bio where
  bdev : Ref
  flush : Bool
  fua : Bool
  discard : Bool
  secure : Bool
  writeSame : Bool
  deriving DecidableEq, Repr

/- `blkcg_bio_issue_check` is outside: it answers whether the bio may go on now. -/
structure Env where
  dev : Ref → BlockDevice
  blkcgBioIssueCheck : SubmitBio → Bool

def bioSectors (b : SubmitBio) : BitVec 32 := b.biSize >>> 9

def maxsector (d : BlockDevice) : Sector := d.iSize.sshiftRight 9

def bioCheckEod (env : Env) (b : SubmitBio) (nrSectors : BitVec 32) : Bool :=
  if nrSectors = 0 then false
  else
    let max := maxsector (env.dev b.bdev)
    if max = 0 then false
    else max < nrSectors.setWidth 64 || max - nrSectors.setWidth 64 < b.biSector

def blkPartitionRemap (env : Env) (b : SubmitBio) : SubmitBio :=
  let d := env.dev b.bdev
  if bioSectors b ≠ 0 ∧ b.bdev ≠ d.bdContains then
    {b with biSector := b.biSector + d.startSect, bdev := d.bdContains}
  else b

def bdevWriteSame (d : BlockDevice) : Bool :=
  match d.queue with
  | some q => q.writeSame
  | none => false

inductive Verdict where
  | accept (b : SubmitBio)
  | hold (b : SubmitBio)
  | refuse (b : SubmitBio)
  deriving DecidableEq, Repr

def Verdict.bio : Verdict → SubmitBio
  | .accept b => b
  | .hold b => b
  | .refuse b => b

def eopnotsupp : Int := -95

def refuseWith (b : SubmitBio) (error : Int) : Verdict := .refuse {b with biError := error}

def blkQueueSecdiscard (q : QueueLimits) : Bool := q.discard && q.secdiscard

def dropsFlush (q : QueueLimits) (b : SubmitBio) : Bool := (b.flush || b.fua) && !q.flushFlags

def filterFlush (q : QueueLimits) (b : SubmitBio) : SubmitBio :=
  if dropsFlush q b then {b with flush := false, fua := false} else b

/- From the flush filter on, with the queue found before the bio was remapped. -/
def checkFlags (env : Env) (q : QueueLimits) (b : SubmitBio) (nrSectors : BitVec 32) : Verdict :=
  let drop := dropsFlush q b
  let b := filterFlush q b
  if drop && nrSectors == 0 then refuseWith b 0
  else if b.discard && (!q.discard || (b.secure && !blkQueueSecdiscard q)) then refuseWith b eopnotsupp
  else if b.writeSame && !bdevWriteSame (env.dev b.bdev) then refuseWith b eopnotsupp
  else if env.blkcgBioIssueCheck b then .accept b
  else .hold b

/- Built without `CONFIG_FAIL_MAKE_REQUEST`: `should_fail_request` is false. -/
def genericMakeRequestChecks (env : Env) (b : SubmitBio) : Verdict :=
  let nrSectors := bioSectors b
  if bioCheckEod env b nrSectors then refuseWith b eio
  else
    match (env.dev b.bdev).queue with
    | none => refuseWith b eio
    | some q =>
      let b := blkPartitionRemap env b
      if bioCheckEod env b nrSectors then refuseWith b eio
      else checkFlags env q b nrSectors

/- The submitting task. `bioList` is `current->bio_list`, `none` for `NULL`; `world` is all
that drivers keep. The rest are logs: the calls made, what became of their bios, the bios
given to a `make_request_fn`, and how many of these functions were ever active at once. -/
structure Task (σ : Type) where
  bioList : Option (List SubmitBio)
  world : σ
  asked : List SubmitBio
  accepted : List SubmitBio
  held : List SubmitBio
  ended : List SubmitBio
  handled : List SubmitBio
  active : Nat
  mostActive : Nat

/- `make_request_fn`: the driver's state and the bios this call of it submits. -/
abbrev Drivers (σ : Type) := σ → SubmitBio → σ × List SubmitBio

section
variable {σ : Type} (env : Env) (drivers : Drivers σ)

/- The checks, with what they do to the bio logged; the bio if it goes on. -/
def submitChecks (t : Task σ) (b : SubmitBio) : Task σ × Option SubmitBio :=
  let t := {t with asked := t.asked ++ [b]}
  match genericMakeRequestChecks env b with
  | .accept b => ({t with accepted := t.accepted ++ [b]}, some b)
  | .hold b => ({t with held := t.held ++ [b]}, none)
  | .refuse b => ({t with ended := t.ended ++ [b]}, none)

mutual

/- The fuel bounds the calls and rounds that are still to come; `none` is too little of it,
or a list taken from under the loop. -/
def genericMakeRequest : Nat → Task σ → SubmitBio → Option (Task σ)
  | 0, _, _ => none
  | fuel + 1, t, b =>
    match submitChecks env t b with
    | (t, none) => some t
    | (t, some b) =>
      match t.bioList with
      | some list => some {t with bioList := some (list ++ [b])}
      | none => makeRequestLoop fuel {t with bioList := some []} b

def makeRequestLoop : Nat → Task σ → SubmitBio → Option (Task σ)
  | 0, _, _ => none
  | fuel + 1, t, b =>
    match makeRequestFn fuel t b with
    | none => none
    | some t =>
      match t.bioList with
      | none => none
      | some [] => some {t with bioList := none}
      | some (b :: list) => makeRequestLoop fuel {t with bioList := some list} b

def makeRequestFn : Nat → Task σ → SubmitBio → Option (Task σ)
  | 0, _, _ => none
  | fuel + 1, t, b =>
    let (world, submitted) := drivers t.world b
    let t := {t with world := world, handled := t.handled ++ [b], active := t.active + 1,
                     mostActive := max t.mostActive (t.active + 1)}
    (submitted.foldlM (fun t b => genericMakeRequest fuel t b) t).map
      (fun t => {t with active := t.active - 1})

end

variable {env drivers}

/- Every bio submitted so far went one way: on to a driver, back with an error or a
completed flush, or into the hands of the throttling code. -/
def oneVerdictEach (t : Task σ) : Prop :=
  (t.asked.map (·.addr)).Perm ((t.accepted ++ t.held ++ t.ended).map (·.addr))

def acceptedBio (env : Env) (b : SubmitBio) : Option SubmitBio :=
  match genericMakeRequestChecks env b with
  | .accept b => some b
  | _ => none

theorem filterFlushAddr (q : QueueLimits) (b : SubmitBio) : (filterFlush q b).addr = b.addr := by
  simp only [filterFlush]
  split <;> rfl

theorem checkFlagsAddr (q : QueueLimits) (b : SubmitBio) (nrSectors : BitVec 32) :
    (checkFlags env q b nrSectors).bio.addr = b.addr := by
  simp only [checkFlags]
  split
  · exact filterFlushAddr q b
  · split
    · exact filterFlushAddr q b
    · split
      · exact filterFlushAddr q b
      · split <;> exact filterFlushAddr q b

theorem remapAddr (b : SubmitBio) : (blkPartitionRemap env b).addr = b.addr := by
  simp only [blkPartitionRemap]
  split <;> rfl

theorem checksAddr (b : SubmitBio) : (genericMakeRequestChecks env b).bio.addr = b.addr := by
  simp only [genericMakeRequestChecks]
  split
  · rfl
  · split
    · rfl
    · split
      · exact remapAddr b
      · exact (checkFlagsAddr _ _ _).trans (remapAddr b)

/- What the checks change besides the logs: nothing. -/
structure Checked (t u : Task σ) (verdict : Option SubmitBio) : Prop where
  bioList : u.bioList = t.bioList
  world : u.world = t.world
  handled : u.handled = t.handled
  active : u.active = t.active
  mostActive : u.mostActive = t.mostActive
  accepted : u.accepted = t.accepted ++ verdict.toList
  verdicts : oneVerdictEach t → oneVerdictEach u

variable (env) in
theorem submitChecked (t : Task σ) (b : SubmitBio) :
    Checked t (submitChecks env t b).1 (acceptedBio env b) ∧ (submitChecks env t b).2 = acceptedBio env b := by
  have addr : (genericMakeRequestChecks env b).bio.addr = b.addr := checksAddr b
  have logged : ∀ (pre post : List SubmitBio) (c : SubmitBio), c.addr = b.addr →
      t.accepted ++ t.held ++ t.ended = pre ++ post → oneVerdictEach t →
      ((t.asked ++ [b]).map (·.addr)).Perm ((pre ++ c :: post).map (·.addr)) := by
    intro pre post c same whole before
    rw [oneVerdictEach, whole, List.map_append] at before
    simp only [List.map_append, List.map_cons, List.map_nil, same]
    exact (List.perm_append_singleton ..).trans ((before.cons _).trans List.perm_middle.symm)
  simp only [submitChecks, acceptedBio]
  cases verdict : genericMakeRequestChecks env b with
  | accept c =>
    rw [verdict] at addr
    refine ⟨⟨rfl, rfl, rfl, rfl, rfl, rfl, fun before => ?_⟩, rfl⟩
    have perm := logged t.accepted (t.held ++ t.ended) c addr (List.append_assoc ..) before
    simpa [oneVerdictEach] using perm
  | hold c =>
    rw [verdict] at addr
    refine ⟨⟨rfl, rfl, rfl, rfl, rfl, (List.append_nil _).symm, fun before => ?_⟩, rfl⟩
    have perm := logged (t.accepted ++ t.held) t.ended c addr rfl before
    simpa [oneVerdictEach] using perm
  | refuse c =>
    rw [verdict] at addr
    refine ⟨⟨rfl, rfl, rfl, rfl, rfl, (List.append_nil _).symm, fun before => ?_⟩, rfl⟩
    have perm := logged (t.accepted ++ t.held ++ t.ended) [] c addr (List.append_nil _).symm before
    simpa [oneVerdictEach] using perm

/- A call from inside a driver: at most one bio more at the end of the list. -/
structure Queued (t u : Task σ) (more : List SubmitBio) : Prop where
  bioList : ∀ list, t.bioList = some list → u.bioList = some (list ++ more)
  world : u.world = t.world
  handled : u.handled = t.handled
  active : u.active = t.active
  mostActive : u.mostActive = t.mostActive
  accepted : u.accepted = t.accepted ++ more
  verdicts : oneVerdictEach t → oneVerdictEach u

theorem queuedNone (t : Task σ) : Queued t t [] :=
  ⟨fun list found => by rw [found, List.append_nil], rfl, rfl, rfl, rfl, (List.append_nil _).symm, id⟩

theorem queuedTrans {t u v : Task σ} {more last : List SubmitBio} (first : Queued t u more)
    (second : Queued u v last) : Queued t v (more ++ last) :=
  ⟨fun list found => by rw [second.bioList _ (first.bioList list found), List.append_assoc],
    second.world.trans first.world, second.handled.trans first.handled, second.active.trans first.active,
    second.mostActive.trans first.mostActive, by rw [second.accepted, first.accepted, List.append_assoc],
    fun before => second.verdicts (first.verdicts before)⟩

theorem nestedCall {t : Task σ} {list : List SubmitBio} (fuel : Nat) (b : SubmitBio)
    (nested : t.bioList = some list) :
    ∃ u, genericMakeRequest env drivers (fuel + 1) t b = some u ∧ Queued t u (acceptedBio env b).toList := by
  obtain ⟨checked, found⟩ := submitChecked env t b
  rw [genericMakeRequest]
  generalize checks : submitChecks env t b = result at checked found
  obtain ⟨u, verdict⟩ := result
  have still : u.bioList = some list := checked.bioList.trans nested
  cases verdict with
  | none =>
    refine ⟨u, rfl, fun list' same => ?_, checked.world, checked.handled, checked.active,
      checked.mostActive, checked.accepted, checked.verdicts⟩
    rw [show acceptedBio env b = none from found.symm, checked.bioList, same]
    exact congrArg some (List.append_nil _).symm
  | some c =>
    refine ⟨{u with bioList := some (list ++ [c])}, by simp only [still], fun list' same => ?_,
      checked.world, checked.handled, checked.active, checked.mostActive, checked.accepted, checked.verdicts⟩
    cases Option.some.inj (nested.symm.trans same)
    rw [show acceptedBio env b = some c from found.symm]
    rfl

variable (env drivers) in
theorem nestedCalls (fuel : Nat) {t : Task σ} {list : List SubmitBio} (submitted : List SubmitBio)
    (nested : t.bioList = some list) :
    ∃ u, submitted.foldlM (fun t b => genericMakeRequest env drivers (fuel + 1) t b) t = some u ∧
      Queued t u (submitted.filterMap (acceptedBio env)) := by
  induction submitted generalizing t list with
  | nil => exact ⟨t, rfl, queuedNone t⟩
  | cons b rest ih =>
    obtain ⟨u, called, first⟩ := nestedCall fuel b nested
    obtain ⟨v, others, second⟩ := ih (first.bioList list nested)
    refine ⟨v, ?_, ?_⟩
    · rw [List.foldlM_cons, called]
      exact others
    · have both := queuedTrans first second
      rw [List.filterMap_cons]
      cases accepted : acceptedBio env b <;> rw [accepted] at both <;> exact both

theorem nestedCallsTaken {fuel : Nat} {t u : Task σ} {list submitted : List SubmitBio}
    (nested : t.bioList = some list)
    (ran : submitted.foldlM (fun t b => genericMakeRequest env drivers fuel t b) t = some u) :
    Queued t u (submitted.filterMap (acceptedBio env)) := by
  cases fuel with
  | zero =>
    cases submitted with
    | nil =>
      cases Option.some.inj ran
      exact queuedNone t
    | cons b rest =>
      rw [List.foldlM_cons, genericMakeRequest] at ran
      contradiction
  | succ fuel =>
    obtain ⟨v, called, queued⟩ := nestedCalls env drivers fuel submitted nested
    cases Option.some.inj (called.symm.trans ran)
    exact queued

/- One `make_request_fn`: the bio it is for is handled, and what it submits waits. -/
structure DriverDone (env : Env) (drivers : Drivers σ) (t u : Task σ) (b : SubmitBio)
    (list : List SubmitBio) : Prop where
  bioList : u.bioList = some (list ++ (drivers t.world b).2.filterMap (acceptedBio env))
  handled : u.handled = t.handled ++ [b]
  accepted : u.accepted = t.accepted ++ (drivers t.world b).2.filterMap (acceptedBio env)
  active : u.active = t.active
  mostActive : u.mostActive = max t.mostActive (t.active + 1)
  verdicts : oneVerdictEach t → oneVerdictEach u

def startDriver (drivers : Drivers σ) (t : Task σ) (b : SubmitBio) : Task σ :=
  {t with world := (drivers t.world b).1, handled := t.handled ++ [b], active := t.active + 1,
          mostActive := max t.mostActive (t.active + 1)}

theorem queuedDone {t u : Task σ} {b : SubmitBio} {list : List SubmitBio} (looping : t.bioList = some list)
    (queued : Queued (startDriver drivers t b) u ((drivers t.world b).2.filterMap (acceptedBio env))) :
    DriverDone env drivers t {u with active := u.active - 1} b list :=
  ⟨queued.bioList list looping, queued.handled, queued.accepted,
    (congrArg (· - 1) queued.active).trans rfl, queued.mostActive, queued.verdicts⟩

theorem driverTaken {fuel : Nat} {t u : Task σ} {b : SubmitBio} {list : List SubmitBio}
    (looping : t.bioList = some list) (ran : makeRequestFn env drivers fuel t b = some u) :
    DriverDone env drivers t u b list := by
  cases fuel with
  | zero =>
    rw [makeRequestFn] at ran
    contradiction
  | succ fuel =>
    rw [makeRequestFn] at ran
    obtain ⟨v, called, rfl⟩ := Option.map_eq_some_iff.mp ran
    exact queuedDone looping (nestedCallsTaken (t := startDriver drivers t b) looping called)

variable (env drivers) in
theorem driverReturns (fuel : Nat) {t : Task σ} (b : SubmitBio) {list : List SubmitBio}
    (looping : t.bioList = some list) : ∃ u, makeRequestFn env drivers (fuel + 2) t b = some u := by
  obtain ⟨u, ran, -⟩ := nestedCalls env drivers fuel (t := startDriver drivers t b)
    (drivers t.world b).2 looping
  refine ⟨{u with active := u.active - 1}, ?_⟩
  rw [makeRequestFn]
  exact congrArg (Option.map (fun t : Task σ => {t with active := t.active - 1})) ran

/- Between two drivers: every bio accepted so far was handled, except those that wait. -/
theorem loopDrains {fuel : Nat} {t u : Task σ} {b : SubmitBio} {list : List SubmitBio}
    (looping : t.bioList = some list) (waiting : t.accepted = t.handled ++ b :: list)
    (ran : makeRequestLoop env drivers fuel t b = some u) :
    u.bioList = none ∧ u.accepted = u.handled ∧ u.active = t.active ∧
      u.mostActive = max t.mostActive (t.active + 1) ∧ (oneVerdictEach t → oneVerdictEach u) := by
  induction fuel generalizing t b list with
  | zero =>
    rw [makeRequestLoop] at ran
    contradiction
  | succ fuel ih =>
    rw [makeRequestLoop] at ran
    cases called : makeRequestFn env drivers fuel t b with
    | none =>
      rw [called] at ran
      contradiction
    | some v =>
      have done := driverTaken looping called
      have ledger : v.accepted = v.handled ++ (list ++ (drivers t.world b).2.filterMap (acceptedBio env)) := by
        rw [done.accepted, done.handled, waiting]
        simp only [List.append_assoc, List.cons_append, List.nil_append]
      have bios := done.bioList
      simp only [called] at ran
      generalize list ++ (drivers t.world b).2.filterMap (acceptedBio env) = left at bios ledger
      simp only [bios] at ran
      cases left with
      | nil =>
        cases Option.some.inj ran
        exact ⟨rfl, ledger.trans (List.append_nil _), done.active, done.mostActive, done.verdicts⟩
      | cons c rest =>
        obtain ⟨none', all, active, most, verdicts⟩ := ih (t := {v with bioList := some rest}) rfl ledger ran
        have same : max v.mostActive (v.active + 1) = max t.mostActive (t.active + 1) := by
          rw [done.mostActive, done.active]
          omega
        exact ⟨none', all, active.trans done.active, most.trans same,
          fun before => verdicts (done.verdicts before)⟩

/- A task that is not inside `generic_make_request`. -/
structure Outside (t : Task σ) : Prop where
  bioList : t.bioList = none
  handled : t.accepted = t.handled
  active : t.active = 0
  mostActive : t.mostActive ≤ 1
  verdicts : oneVerdictEach t

theorem callReturnsOutside {fuel : Nat} {t u : Task σ} {b : SubmitBio} (outside : Outside t)
    (ran : genericMakeRequest env drivers fuel t b = some u) : Outside u := by
  cases fuel with
  | zero =>
    rw [genericMakeRequest] at ran
    contradiction
  | succ fuel =>
    rw [genericMakeRequest] at ran
    obtain ⟨checked, found⟩ := submitChecked env t b
    generalize checks : submitChecks env t b = result at checked found ran
    obtain ⟨v, verdict⟩ := result
    have free : v.bioList = none := checked.bioList.trans outside.bioList
    have active : v.active = 0 := checked.active.trans outside.active
    have most : v.mostActive ≤ 1 := Nat.le_trans (Nat.le_of_eq checked.mostActive) outside.mostActive
    have accepted := checked.accepted
    rw [show acceptedBio env b = verdict from found.symm, outside.handled, ← checked.handled] at accepted
    cases verdict with
    | none =>
      cases Option.some.inj ran
      exact ⟨free, accepted.trans (List.append_nil _), active, most, checked.verdicts outside.verdicts⟩
    | some c =>
      simp only [free] at ran
      obtain ⟨none', all, active', most', verdicts⟩ :=
        loopDrains (t := {v with bioList := some []}) rfl accepted ran
      refine ⟨none', all, active'.trans active, ?_, verdicts (checked.verdicts outside.verdicts)⟩
      rw [most']
      show max v.mostActive (v.active + 1) ≤ 1
      omega

def idleTask (world : σ) : Task σ := ⟨none, world, [], [], [], [], [], 0, 0⟩

/- Whatever the stacked drivers submit, from whatever state: bios reach the drivers in the
order they were accepted, each once, and no driver is entered while another is active. -/
theorem oneDriverAtATime {fuel : Nat} {world : σ} {submissions : List SubmitBio} {t : Task σ}
    (ran : submissions.foldlM (fun t b => genericMakeRequest env drivers fuel t b) (idleTask world) = some t) :
    Outside t := by
  have keep : ∀ (bios : List SubmitBio) (s : Task σ), Outside s →
      bios.foldlM (fun t b => genericMakeRequest env drivers fuel t b) s = some t → Outside t := by
    intro bios
    induction bios with
    | nil =>
      intro s outside done
      cases Option.some.inj done
      exact outside
    | cons b rest ih =>
      intro s outside done
      rw [List.foldlM_cons] at done
      obtain ⟨u, called, after⟩ := Option.bind_eq_some_iff.mp done
      exact ih u (callReturnsOutside outside called) after
  exact keep submissions (idleTask world) ⟨rfl, rfl, rfl, Nat.zero_le 1, List.Perm.refl _⟩ ran

/- A mirror on top of a disk of four sectors with one partition. -/
def mirrorEnv : Env :=
  ⟨fun bdev => ⟨if bdev = 1 then 3 else bdev, if bdev = 1 then 1024 else 2048, 1, some ⟨true, false, false, false⟩⟩,
    fun _ => true⟩

def sectorBio (addr bdev : Ref) : SubmitBio := ⟨⟨addr, 0, 512, 0, 0, false⟩, bdev, false, false, false, false, false⟩

def mirrored (b : SubmitBio) : List SubmitBio := if b.bdev = 2 then [sectorBio 11 1, sectorBio 12 3] else []

theorem mirrorOneAtATime : ∃ t : Task Unit, [sectorBio 10 2].foldlM (fun t b =>
    genericMakeRequest mirrorEnv (fun world b => (world, mirrored b)) 9 t b) (idleTask ()) = some t ∧ Outside t :=
  have ⟨t, ran⟩ := Option.isSome_iff_exists.mp (show ([sectorBio 10 2].foldlM (fun t b =>
    genericMakeRequest mirrorEnv (fun world b => (world, mirrored b)) 9 t b)
      (idleTask ())).isSome = true by decide +kernel)
  ⟨t, ran, oneDriverAtATime ran⟩

/- The bios a driver's call for `b` brings into the queue, where drivers go by the bio alone. -/
def resubmitted (env : Env) (subs : SubmitBio → List SubmitBio) (b : SubmitBio) : List SubmitBio :=
  (subs b).filterMap (acceptedBio env)

def ByBio (drivers : Drivers σ) (subs : SubmitBio → List SubmitBio) : Prop :=
  ∀ world b, (drivers world b).2 = subs b

open Trampoline in
theorem loopServes {subs : SubmitBio → List SubmitBio} (extra : Nat)
    (byBio : ByBio drivers subs) {rounds : Nat} {t : Task σ} {b : SubmitBio} {list done : List SubmitBio} (looping : t.bioList = some list)
    (served : serve (resubmitted env subs) rounds (b :: list) = some done) :
    ∃ u, makeRequestLoop env drivers (rounds + 2 + extra) t b = some u ∧
      u.handled = t.handled ++ done ∧ u.bioList = none := by
  induction rounds generalizing t b list done with
  | zero =>
    rw [serve] at served
    contradiction
  | succ rounds ih =>
    rw [serve] at served
    obtain ⟨rest, later, rfl⟩ := Option.map_eq_some_iff.mp served
    obtain ⟨v, called⟩ := driverReturns env drivers (rounds + extra) b looping
    have did := driverTaken looping called
    have bios := did.bioList
    rw [byBio] at bios
    rw [show rounds + 1 + 2 + extra = rounds + extra + 2 + 1 by omega, makeRequestLoop]
    simp only [called]
    change v.bioList = some (list ++ resubmitted env subs b) at bios
    generalize list ++ resubmitted env subs b = left at bios later
    cases left with
    | nil =>
      simp only [bios]
      rw [serve] at later
      cases Option.some.inj later
      exact ⟨_, rfl, did.handled, rfl⟩
    | cons c waiting =>
      simp only [bios]
      obtain ⟨u, ran, handled, none'⟩ := ih (t := {v with bioList := some waiting}) rfl later
      refine ⟨u, by rw [← ran]; congr 1; omega, ?_, none'⟩
      rw [handled, show ({v with bioList := some waiting} : Task σ).handled = v.handled from rfl, did.handled,
        List.append_assoc]
      rfl

/- Stacked drivers that only go down the stack: the queue comes to an end, and what it hands
to drivers is what plain recursion would have handed to them, in another order. -/
theorem flattensRecursion {subs : SubmitBio → List SubmitBio} (byBio : ByBio drivers subs)
    {level : SubmitBio → Nat} (lower : Trampoline.Ranked (resubmitted env subs) level) {t : Task σ}
    {b c : SubmitBio} (outside : Outside t) (accepted : acceptedBio env b = some c) :
    ∃ enough, ∀ fuel, enough ≤ fuel → ∃ u done, genericMakeRequest env drivers fuel t b = some u ∧
      u.handled = t.handled ++ done ∧ u.bioList = none ∧
      done.Perm (Trampoline.descend (resubmitted env subs) (level c) c) := by
  obtain ⟨done, served, perm⟩ := Trampoline.serveJobs lower [c]
  have jobs : Trampoline.jobs (resubmitted env subs) level [c] =
      Trampoline.descend (resubmitted env subs) (level c) c := List.append_nil _
  rw [jobs] at served perm
  generalize (Trampoline.descend (resubmitted env subs) (level c) c).length = rounds at served
  refine ⟨rounds + 3, fun fuel enough => ?_⟩
  obtain ⟨extra, rfl⟩ := Nat.exists_eq_add_of_le enough
  obtain ⟨checked, found⟩ := submitChecked env t b
  generalize checks : submitChecks env t b = result at checked found
  obtain ⟨v, verdict⟩ := result
  cases (show verdict = some c from found.trans accepted)
  have free : v.bioList = none := checked.bioList.trans outside.bioList
  obtain ⟨u, ran, handled, none'⟩ := loopServes extra byBio
    (t := {v with bioList := some []}) rfl served
  refine ⟨u, done, ?_, ?_, none', perm⟩
  · rw [show rounds + 3 + extra = rounds + 2 + extra + 1 by omega, genericMakeRequest, checks]
    simp only [free]
    exact ran
  · rw [handled, ← checked.handled]

theorem mirrorFlattened : ∃ enough, ∀ fuel, enough ≤ fuel → ∃ (u : Task Unit) (done : List SubmitBio),
    genericMakeRequest mirrorEnv (fun world b => (world, mirrored b)) fuel (idleTask ()) (sectorBio 10 2) = some u ∧
      u.handled = done ∧ u.bioList = none ∧
      done.Perm (Trampoline.descend (resubmitted mirrorEnv mirrored) 1 (sectorBio 10 2)) := by
  have lower : Trampoline.Ranked (resubmitted mirrorEnv mirrored) (fun b => if b.bdev = 2 then 1 else 0) := by
    intro x y member
    by_cases top : x.bdev = 2
    · have below : ∀ y ∈ (mirrored (sectorBio 0 2)).filterMap (acceptedBio mirrorEnv), y.bdev ≠ 2 := by decide
      have off : y.bdev ≠ 2 := below y (by simpa [resubmitted, mirrored, top, sectorBio] using member)
      simp only [if_pos top, if_neg off, Nat.lt_add_one]
    · simp [resubmitted, mirrored, top] at member
  obtain ⟨enough, runs⟩ := flattensRecursion (t := idleTask ())
    (show ByBio (fun world b => (world, mirrored b)) mirrored from fun _ _ => rfl) lower ⟨rfl, rfl, rfl, Nat.zero_le 1, List.Perm.refl _⟩
    (show acceptedBio mirrorEnv (sectorBio 10 2) = some (sectorBio 10 2) by decide)
  exact ⟨enough, runs⟩

end

/- The end of device test is right for every sector number: nothing in it wraps around. -/
theorem eodIff (env : Env) (b : SubmitBio) (nrSectors : BitVec 32) :
    bioCheckEod env b nrSectors = true ↔ nrSectors.toNat ≠ 0 ∧ (maxsector (env.dev b.bdev)).toNat ≠ 0 ∧
      (maxsector (env.dev b.bdev)).toNat < b.biSector.toNat + nrSectors.toNat := by
  have nrZero : nrSectors = 0 ↔ nrSectors.toNat = 0 := BitVec.toNat_inj.symm
  have maxZero : maxsector (env.dev b.bdev) = 0 ↔ (maxsector (env.dev b.bdev)).toNat = 0 :=
    BitVec.toNat_inj.symm
  have wide : (nrSectors.setWidth 64).toNat = nrSectors.toNat := by
    rw [BitVec.toNat_setWidth]
    have := nrSectors.isLt
    omega
  simp only [bioCheckEod, nrZero, maxZero]
  split
  · simp_all
  · split
    · simp_all
    · rename_i nr max
      simp only [Bool.or_eq_true, decide_eq_true_eq, BitVec.lt_def, BitVec.toNat_sub, wide]
      have := (maxsector (env.dev b.bdev)).isLt
      have := nrSectors.isLt
      have := b.biSector.isLt
      omega

/- A disk, or a partition that lies on its disk, of known size. -/
structure Sane (env : Env) (bdev : Ref) : Prop where
  queue : (env.dev bdev).queue ≠ none
  known : (maxsector (env.dev bdev)).toNat ≠ 0
  onDisk : bdev ≠ (env.dev bdev).bdContains →
    (env.dev bdev).startSect.toNat + (maxsector (env.dev bdev)).toNat ≤
      (maxsector (env.dev (env.dev bdev).bdContains)).toNat

def startOf (env : Env) (bdev : Ref) : Nat :=
  if bdev = (env.dev bdev).bdContains then 0 else (env.dev bdev).startSect.toNat

theorem remapPlace {env : Env} {b : SubmitBio} (sane : Sane env b.bdev) (data : bioSectors b ≠ 0)
    (inside : b.biSector.toNat + (bioSectors b).toNat ≤ (maxsector (env.dev b.bdev)).toNat) :
    (blkPartitionRemap env b).bdev = (env.dev b.bdev).bdContains ∧
      (blkPartitionRemap env b).biSector.toNat = startOf env b.bdev + b.biSector.toNat := by
  by_cases whole : b.bdev = (env.dev b.bdev).bdContains
  · rw [blkPartitionRemap, if_neg (fun remap => remap.2 whole), startOf, if_pos whole]
    exact ⟨whole, (Nat.zero_add _).symm⟩
  · have onDisk := sane.onDisk whole
    have disk := (maxsector (env.dev (env.dev b.bdev).bdContains)).isLt
    rw [blkPartitionRemap, if_pos ⟨data, whole⟩, startOf, if_neg whole]
    refine ⟨rfl, ?_⟩
    rw [BitVec.toNat_add]
    omega

theorem plainFlags {env : Env} {q : QueueLimits} {b : SubmitBio} {nrSectors : BitVec 32} (data : nrSectors ≠ 0)
    (noDiscard : b.discard = false) (noWriteSame : b.writeSame = false)
    (goesOn : ∀ c, env.blkcgBioIssueCheck c = true) :
    checkFlags env q b nrSectors = .accept (filterFlush q b) := by
  have some' : (dropsFlush q b && nrSectors == 0) = false := by
    rw [beq_eq_false_iff_ne.mpr data, Bool.and_false]
  have discard : (filterFlush q b).discard = false := by
    simp only [filterFlush]
    split <;> exact noDiscard
  have writeSame : (filterFlush q b).writeSame = false := by
    simp only [filterFlush]
    split <;> exact noWriteSame
  simp only [checkFlags, some', discard, writeSame, Bool.false_and, Bool.false_eq_true, if_false, goesOn, if_true]

/- A bio with data for a disk or partition of known size goes on exactly when it lies inside,
whatever its 64 bits of sector number; it then lies at its place on the disk, and outside
it comes back with `-EIO`. -/
theorem acceptedIffInside {env : Env} {b : SubmitBio} (sane : Sane env b.bdev) (data : bioSectors b ≠ 0)
    (noDiscard : b.discard = false) (noWriteSame : b.writeSame = false)
    (goesOn : ∀ c, env.blkcgBioIssueCheck c = true) :
    (b.biSector.toNat + (bioSectors b).toNat ≤ (maxsector (env.dev b.bdev)).toNat →
      ∃ c, genericMakeRequestChecks env b = .accept c ∧ c.addr = b.addr ∧ c.biSize = b.biSize ∧
        c.bdev = (env.dev b.bdev).bdContains ∧ c.biSector.toNat = startOf env b.bdev + b.biSector.toNat ∧
        c.biSector.toNat + (bioSectors c).toNat ≤ startOf env b.bdev + (maxsector (env.dev b.bdev)).toNat ∧
        c.biSector.toNat + (bioSectors c).toNat ≤ (maxsector (env.dev c.bdev)).toNat) ∧
    ((maxsector (env.dev b.bdev)).toNat < b.biSector.toNat + (bioSectors b).toNat →
      genericMakeRequestChecks env b = refuseWith b eio) := by
  have nonzero : (bioSectors b).toNat ≠ 0 := fun zero => data (BitVec.toNat_inj.mp zero)
  constructor
  · intro inside
    obtain ⟨q, queue⟩ := Option.ne_none_iff_exists'.mp sane.queue
    obtain ⟨bdev, sector⟩ := remapPlace sane data inside
    have firstOk : bioCheckEod env b (bioSectors b) = false :=
      Bool.eq_false_iff.mpr (fun past => by have := ((eodIff env b _).mp past).2.2; omega)
    have onDisk : (blkPartitionRemap env b).biSector.toNat + (bioSectors b).toNat ≤
        (maxsector (env.dev (blkPartitionRemap env b).bdev)).toNat := by
      rw [bdev, sector, startOf]
      by_cases whole : b.bdev = (env.dev b.bdev).bdContains
      · rw [if_pos whole, ← whole]
        omega
      · have := sane.onDisk whole
        rw [if_neg whole]
        omega
    have secondOk : bioCheckEod env (blkPartitionRemap env b) (bioSectors b) = false :=
      Bool.eq_false_iff.mpr (fun past => by have := ((eodIff env _ _).mp past).2.2; omega)
    have size : (blkPartitionRemap env b).biSize = b.biSize := by
      simp only [blkPartitionRemap]
      split <;> rfl
    have plain : (blkPartitionRemap env b).discard = false ∧ (blkPartitionRemap env b).writeSame = false := by
      simp only [blkPartitionRemap]
      split <;> exact ⟨noDiscard, noWriteSame⟩
    have kept : ∀ x : SubmitBio, (filterFlush q x).biSize = x.biSize ∧ (filterFlush q x).bdev = x.bdev ∧
        (filterFlush q x).biSector = x.biSector := fun x => by
      simp only [filterFlush]
      split <;> exact ⟨rfl, rfl, rfl⟩
    obtain ⟨sameSize, sameBdev, sameSector⟩ := kept (blkPartitionRemap env b)
    have sectors : bioSectors (filterFlush q (blkPartitionRemap env b)) = bioSectors b := by
      rw [bioSectors, sameSize, size, bioSectors]
    refine ⟨filterFlush q (blkPartitionRemap env b), ?_, ?_, sameSize.trans size, sameBdev.trans bdev, ?_, ?_, ?_⟩
    · simp only [genericMakeRequestChecks, firstOk, secondOk, queue, Bool.false_eq_true, if_false]
      exact plainFlags data plain.1 plain.2 goesOn
    · rw [filterFlushAddr, remapAddr]
    · rw [sameSector, sector]
    · rw [sectors, sameSector, sector]
      omega
    · rw [sectors, sameSector, sameBdev]
      exact onDisk
  · intro past
    have eod : bioCheckEod env b (bioSectors b) = true := (eodIff env b _).mpr ⟨nonzero, sane.known, past⟩
    simp only [genericMakeRequestChecks, eod, if_true]

theorem partitionEdges :
    (∃ c, genericMakeRequestChecks mirrorEnv {sectorBio 7 1 with biSector := 1} = .accept c ∧ c.biSector.toNat = 2) ∧
    genericMakeRequestChecks mirrorEnv {sectorBio 7 1 with biSector := 2} =
      refuseWith {sectorBio 7 1 with biSector := 2} eio :=
  have sane : Sane mirrorEnv 1 := ⟨by decide, by decide, by decide⟩
  have ⟨c, accepted, _, _, _, place, _⟩ := (acceptedIffInside (b := {sectorBio 7 1 with biSector := 1}) sane
    (by decide) rfl rfl (fun _ => rfl)).1 (by decide)
  ⟨⟨c, accepted, place⟩, (acceptedIffInside (b := {sectorBio 7 1 with biSector := 2}) sane
    (by decide) rfl rfl (fun _ => rfl)).2 (by decide)⟩

end KernelLabs.MakeRequest
