import KernelLabs.Block.PlugContents

/-! A flush comes to its end. A callback may register callbacks and submit bios that fill the
plug again, so this needs a reason: whatever a callback registers ranks below it. -/
namespace KernelLabs.PlugReturns
open Block Runs Plugging PlugRuns PlugContents

section
variable {σ : Type}

/- More calls allowed, the same result. -/
def Below (flush flush' : PlugTask σ → Bool → Option (PlugTask σ)) : Prop :=
  ∀ t fromSchedule u, flush t fromSchedule = some u → flush' t fromSchedule = some u

section
variable {flush flush' : PlugTask σ → Bool → Option (PlugTask σ)} (below : Below flush flush')
include below

theorem flushIfBelow {t u : PlugTask σ} {fromSchedule : Bool}
    (ran : flushIfPlugged flush t fromSchedule = some u) : flushIfPlugged flush' t fromSchedule = some u := by
  unfold flushIfPlugged at ran ⊢
  split at ran
  · exact ran
  · exact below _ _ _ ran

theorem sleepBelow {q : Ref} {sleeps : Nat} {t u : PlugTask σ}
    (ran : sleepForRequest flush q sleeps t = some u) : sleepForRequest flush' q sleeps t = some u := by
  induction sleeps generalizing t with
  | zero => exact ran
  | succ n ih =>
    rw [sleepForRequest] at ran ⊢
    split at ran <;> try contradiction
    rename_i v slept
    simp only [flushIfBelow below slept, ih ran]

theorem addRequestBelow {t u : PlugTask σ} {req : PlugRequest} {point : InsertionPoint} {count : Nat}
    (ran : addRequest flush t req point count = some u) : addRequest flush' t req point count = some u := by
  unfold addRequest at ran ⊢
  split at ran
  · obtain ⟨v, made, rfl⟩ := Option.map_eq_some_iff.mp ran
    split at made
    · rename_i full
      simp only [if_pos full, below _ _ _ made, Option.map_some]
    · rename_i room
      simp only [if_neg room, made, Option.map_some]
  · exact ran

theorem getRqBelow {t u : PlugTask σ} {sub : Submission} {point : InsertionPoint} {count : Nat}
    (ran : getRq flush t sub point count = some u) : getRq flush' t sub point count = some u := by
  unfold getRq at ran ⊢
  split at ran <;> try contradiction
  rename_i v slept
  simp only [sleepBelow below slept]
  split at ran
  · exact ran
  · exact addRequestBelow below ran

theorem queueBioBelow {outer : Outer σ} {t u : PlugTask σ} {sub : Submission}
    (ran : queueBioWith outer flush t sub = some u) : queueBioWith outer flush' t sub = some u := by
  have unmerged : ∀ {w : PlugTask σ} {count : Nat}, queueUnmerged flush w sub count = some u →
      queueUnmerged flush' w sub count = some u := by
    intro w count ran
    unfold queueUnmerged at ran ⊢
    split at ran
    · rename_i taken
      rw [if_pos taken, ran]
    · rename_i left
      rw [if_neg left, getRqBelow below ran]
  unfold queueBioWith at ran ⊢
  dsimp only at ran ⊢
  split at ran
  · rename_i fails
    rw [if_pos fails, ran]
  · rename_i integral
    rw [if_neg integral]
    split at ran
    · rename_i flushes
      rw [if_pos flushes, getRqBelow below ran]
    · rename_i plain
      rw [if_neg plain]
      split at ran
      · rename_i nomerges
        rw [if_pos nomerges, unmerged ran]
      · rename_i merges
        rw [if_neg merges]
        split at ran
        · exact ran
        · exact unmerged ran

end

theorem flushMore (outer : Outer σ) (fuel : Nat) :
    Below (blkFlushPlugList outer fuel) (blkFlushPlugList outer (fuel + 1)) ∧
    (∀ t fromSchedule cbs u, flushPlugCallbacks outer fuel t fromSchedule cbs = some u →
      flushPlugCallbacks outer (fuel + 1) t fromSchedule cbs = some u) ∧
    (∀ t calls u, cbCalls outer fuel t calls = some u → cbCalls outer (fuel + 1) t calls = some u) := by
  induction fuel with
  | zero =>
    refine ⟨fun t fromSchedule u ran => ?_, fun t fromSchedule cbs u ran => ?_, fun t calls u ran => ?_⟩
    · rw [blkFlushPlugList] at ran
      contradiction
    · rw [flushPlugCallbacks] at ran
      contradiction
    · rw [cbCalls] at ran
      contradiction
  | succ fuel ih =>
    obtain ⟨flushes, loops, calls'⟩ := ih
    refine ⟨fun t fromSchedule u ran => ?_, fun t fromSchedule cbs u ran => ?_, fun t calls u ran => ?_⟩
    · rw [blkFlushPlugList] at ran ⊢
      split at ran <;> try contradiction
      rename_i v looped
      simp only [loops _ _ _ _ looped, ran]
    · cases cbs with
      | nil =>
        rw [flushPlugCallbacks] at ran ⊢
        split at ran
        · exact ran
        · exact loops _ _ _ _ ran
      | cons cb cbs =>
        rw [flushPlugCallbacks] at ran ⊢
        split at ran <;> try contradiction
        rename_i v called
        simp only [calls' _ _ _ called, loops _ _ _ _ ran]
    · cases calls with
      | nil =>
        rw [cbCalls] at ran ⊢
        exact ran
      | cons call calls =>
        cases call with
        | check cb allocated =>
          rw [cbCalls] at ran ⊢
          exact calls' _ _ _ ran
        | submit sub =>
          rw [cbCalls] at ran ⊢
          split at ran <;> try contradiction
          rename_i v queued
          simp only [queueBioBelow flushes queued, calls' _ _ _ ran]

theorem flushMono (outer : Outer σ) {fuel fuel' : Nat} (le : fuel ≤ fuel') :
    Below (blkFlushPlugList outer fuel) (blkFlushPlugList outer fuel') ∧
    (∀ t fromSchedule cbs u, flushPlugCallbacks outer fuel t fromSchedule cbs = some u →
      flushPlugCallbacks outer fuel' t fromSchedule cbs = some u) ∧
    (∀ t calls u, cbCalls outer fuel t calls = some u → cbCalls outer fuel' t calls = some u) := by
  induction le with
  | refl => exact ⟨fun _ _ _ => id, fun _ _ _ _ => id, fun _ _ _ => id⟩
  | @step m le ih =>
    obtain ⟨flushes, loops, calls'⟩ := flushMore outer m
    exact ⟨fun t fromSchedule u ran => flushes t fromSchedule u (ih.1 t fromSchedule u ran),
      fun t fromSchedule cbs u ran => loops t fromSchedule cbs u (ih.2.1 t fromSchedule cbs u ran),
      fun t calls u ran => calls' t calls u (ih.2.2 t calls u ran)⟩

/- What a callback registers ranks below it, and what it submits belongs to a queue. -/
structure Ranked (outer : Outer σ) (rank : PlugCb → Nat) : Prop where
  registers : ∀ world cb fromSchedule lower allocated,
    CbCall.check lower allocated ∈ (outer.unplug world cb fromSchedule).2 → rank lower < rank cb
  owned : CallbacksAllowed outer (fun sub => sub.q ≠ 0)

/- Only callbacks below `n` wait, and no request trips `BUG_ON(!rq->q)`. -/
structure Ready (rank : PlugCb → Nat) (n : Nat) (t : PlugTask σ) : Prop where
  owned : ∀ rq ∈ t.plugged, rq.q ≠ 0
  low : ∀ cb ∈ callbacks t, rank cb < n

variable {outer : Outer σ} {rank : PlugCb → Nat} {n : Nat}

theorem clearReady {t : PlugTask σ} (clear : Clear t) : Ready rank n t :=
  ⟨(fun rq member => by rw [clear.1] at member; cases member),
    (fun cb member => by rw [clear.2] at member; cases member)⟩

theorem readySet {t : PlugTask σ} {f : Plug → Plug}
    (owned : ∀ p, t.plugged = p.list → ∀ rq ∈ (f p).list, rq.q ≠ 0)
    (low : ∀ p, callbacks t = p.cbList → ∀ cb ∈ (f p).cbList, rank cb < n) : Ready rank n (t.setPlug f) := by
  cases found : t.plug with
  | none =>
    refine ⟨fun rq member => ?_, fun cb member => ?_⟩
    · rw [pluggedSet, found] at member
      cases member
    · rw [callbacks, PlugTask.setPlug, found] at member
      cases member
  | some pair =>
    refine ⟨fun rq member => ?_, fun cb member => ?_⟩
    · rw [pluggedSet, found] at member
      exact owned pair.2 (by rw [PlugTask.plugged, found]; rfl) rq member
    · rw [callbacks, PlugTask.setPlug, found] at member
      exact low pair.2 (by rw [callbacks, found]; rfl) cb member

/- A way to flush that comes to its end on tasks of rank `n`, with enough calls allowed. -/
def FlushReturns (outer : Outer σ) (rank : PlugCb → Nat) (n : Nat) : Prop :=
  ∀ (t : PlugTask σ) (fromSchedule : Bool), Ready rank n t →
    ∃ fuel u, blkFlushPlugList outer fuel t fromSchedule = some u ∧ Clear u

theorem sleepReturns (returns : FlushReturns outer rank n) (q : Ref) (sleeps : Nat) {t : PlugTask σ}
    (ready : Ready rank n t) :
    ∃ fuel u, sleepForRequest (blkFlushPlugList outer fuel) q sleeps t = some u ∧ Ready rank n u := by
  induction sleeps generalizing t with
  | zero => exact ⟨0, t, rfl, ready⟩
  | succ sleeps ih =>
    have unlocked : Ready rank n (t.log [.unlock q]) := ⟨ready.owned, ready.low⟩
    have once : ∃ fuel v, flushIfPlugged (blkFlushPlugList outer fuel) (t.log [.unlock q]) true = some v ∧
        Ready rank n v := by
      unfold flushIfPlugged
      split
      · exact ⟨0, _, rfl, unlocked⟩
      · obtain ⟨fuel, v, flushed, clear⟩ := returns _ true unlocked
        exact ⟨fuel, v, flushed, clearReady clear⟩
    obtain ⟨fuel, v, flushed, next⟩ := once
    obtain ⟨fuel', u, rest, last⟩ := ih (t := v.log [.lock q]) ⟨next.owned, next.low⟩
    refine ⟨max fuel fuel', u, ?_, last⟩
    have first := flushIfBelow (flushMono outer (Nat.le_max_left fuel fuel')).1 flushed
    have second := sleepBelow (flushMono outer (Nat.le_max_right fuel fuel')).1 rest
    simp only [sleepForRequest, first, second]

theorem addRequestReturns (returns : FlushReturns outer rank n) {t : PlugTask σ} (req : PlugRequest)
    (owned : req.q ≠ 0) (point : InsertionPoint) (count : Nat) (ready : Ready rank n t) :
    ∃ fuel u, addRequest (blkFlushPlugList outer fuel) t req point count = some u ∧ Ready rank n u := by
  unfold addRequest
  split
  · have push : ∀ v : PlugTask σ, Ready rank n v →
        Ready rank n (v.setPlug fun plug => {plug with list := plug.list ++ [req]}) := by
      intro v before
      refine readySet (fun p same rq member => ?_) (fun p same cb member => before.low cb (same ▸ member))
      rcases List.mem_append.mp member with old | new
      · exact before.owned rq (same ▸ old)
      · rw [List.mem_singleton.mp new]
        exact owned
    split
    · obtain ⟨fuel, v, flushed, clear⟩ := returns t false ready
      exact ⟨fuel, _, by rw [flushed]; rfl, push v (clearReady clear)⟩
    · exact ⟨0, _, rfl, push t ready⟩
  · exact ⟨0, _, rfl, ready.owned, ready.low⟩

theorem getRqReturns (returns : FlushReturns outer rank n) {t : PlugTask σ} {sub : Submission}
    (owned : sub.q ≠ 0) (point : InsertionPoint) (count : Nat) (ready : Ready rank n t) :
    ∃ fuel u, getRq (blkFlushPlugList outer fuel) t sub point count = some u ∧ Ready rank n u := by
  obtain ⟨fuel, v, slept, next⟩ := sleepReturns returns sub.q sub.sleeps ready
  cases answer : sub.request with
  | error e =>
    refine ⟨fuel, v.log [.endBio sub.bio e, .unlock sub.q], ?_, next.owned, next.low⟩
    simp only [getRq, slept, answer]
  | ok rq =>
    have made : Ready rank n ((v.log [.unlock sub.q]).arrive (.request rq.addr)) := ⟨next.owned, next.low⟩
    obtain ⟨fuel', u, added, last⟩ :=
      addRequestReturns returns (initRequestFromBio sub rq) owned point count made
    refine ⟨max fuel fuel', u, ?_, last⟩
    have first := sleepBelow (flushMono outer (Nat.le_max_left fuel fuel')).1 slept
    have second := addRequestBelow (flushMono outer (Nat.le_max_right fuel fuel')).1 added
    simp only [getRq, first, answer, second]

theorem plugMergeReady (sets : SetsMixed outer.merging) {t u : PlugTask σ} {sub : Submission} {count : Nat}
    (ready : Ready rank n t) (joined : blkAttemptPlugMerge outer.merging t sub = (count, true, u)) :
    Ready rank n u := by
  unfold blkAttemptPlugMerge at joined
  split at joined <;> cases joined
  rename_i out looped
  obtain ⟨before, rq, after, merged, whole, rfl, one⟩ := plugMergeCases looped
  refine readySet (fun p same x member => ?_) (fun p same cb member => ready.low cb (same ▸ member))
  have list : ∀ x, x ∈ t.plugged ↔ x ∈ before ++ rq :: after := fun x => by
    rw [← whole, List.mem_reverse]
  have kept : merged.q = rq.q := by
    obtain ⟨-, q, -⟩ := mixedKeeps sets rq sub.bio
    rcases (attemptMergeCases one).2 with ⟨-, -, rfl⟩ | ⟨-, -, rfl⟩ <;> exact q
  rcases List.mem_append.mp (List.mem_reverse.mp member) with left | right
  · exact ready.owned x ((list x).mpr (List.mem_append_left _ left))
  · rcases List.mem_cons.mp right with rfl | later
    · rw [kept]
      exact ready.owned rq ((list rq).mpr (List.mem_append_right before List.mem_cons_self))
    · exact ready.owned x ((list x).mpr (List.mem_append_right before (List.mem_cons_of_mem rq later)))

theorem queueBioReturns (sets : SetsMixed outer.merging) (returns : FlushReturns outer rank n) {t : PlugTask σ}
    {sub : Submission} (owned : sub.q ≠ 0) (ready : Ready rank n t) :
    ∃ fuel u, queueBioWith outer (blkFlushPlugList outer fuel) t sub = some u ∧ Ready rank n u := by
  have came : Ready rank n (t.arrive (.bio sub.bio.addr)) := ⟨ready.owned, ready.low⟩
  unfold queueBioWith
  generalize t.arrive (.bio sub.bio.addr) = v at came
  have locked : Ready rank n (v.log [.lock sub.q]) := ⟨came.owned, came.low⟩
  have unmerged : ∀ count, ∃ fuel u, queueUnmerged (blkFlushPlugList outer fuel) v sub count = some u ∧
      Ready rank n u := by
    intro count
    unfold queueUnmerged
    split
    · exact ⟨0, _, rfl, came.owned, came.low⟩
    · exact getRqReturns returns owned .sort count locked
  dsimp only
  split
  · exact ⟨0, _, rfl, came.owned, came.low⟩
  · split
    · exact getRqReturns returns owned .flush 0 locked
    · split
      · exact unmerged 0
      · cases joined : blkAttemptPlugMerge outer.merging v sub with
        | mk count rest =>
          obtain ⟨merged, w⟩ := rest
          cases merged with
          | true => exact ⟨0, w, rfl, plugMergeReady sets came joined⟩
          | false =>
            unfold blkAttemptPlugMerge at joined
            split at joined <;> cases joined
            exact unmerged count

theorem checkReady {t : PlugTask σ} (ready : Ready rank n t) {cb : PlugCb} (low : rank cb < n)
    (allocated : Bool) : Ready rank n (blkCheckPlugged t cb allocated) := by
  unfold blkCheckPlugged
  split
  · exact ready
  · split
    · exact ready
    · split
      · have pushed : Ready rank n (t.setPlug fun plug => {plug with cbList := cb :: plug.cbList}) := by
          refine readySet (fun p same rq member => ready.owned rq (same ▸ member)) ?_
          intro p same x member
          rcases List.mem_cons.mp member with rfl | old
          · exact low
          · exact ready.low x (same ▸ old)
        exact ⟨pushed.owned, pushed.low⟩
      · exact ready

theorem callsReturn (sets : SetsMixed outer.merging) (returns : FlushReturns outer rank n) {t : PlugTask σ}
    {calls : List CbCall} (low : ∀ cb allocated, CbCall.check cb allocated ∈ calls → rank cb < n)
    (owned : ∀ sub, CbCall.submit sub ∈ calls → sub.q ≠ 0) (ready : Ready rank n t) :
    ∃ fuel u, cbCalls outer fuel t calls = some u ∧ Ready rank n u := by
  induction calls generalizing t with
  | nil => exact ⟨1, t, rfl, ready⟩
  | cons call calls ih =>
    have low' : ∀ cb allocated, CbCall.check cb allocated ∈ calls → rank cb < n := fun cb allocated member =>
      low cb allocated (List.mem_cons_of_mem call member)
    have owned' : ∀ sub, CbCall.submit sub ∈ calls → sub.q ≠ 0 := fun sub member =>
      owned sub (List.mem_cons_of_mem call member)
    cases call with
    | check cb allocated =>
      obtain ⟨fuel, u, rest, last⟩ := ih low' owned' (checkReady ready (low cb allocated List.mem_cons_self) allocated)
      exact ⟨fuel + 1, u, by rw [cbCalls, rest], last⟩
    | submit sub =>
      obtain ⟨fuel, v, queued, next⟩ := queueBioReturns sets returns (owned sub List.mem_cons_self) ready
      obtain ⟨fuel', u, rest, last⟩ := ih low' owned' next
      refine ⟨max fuel fuel' + 1, u, ?_, last⟩
      have first := queueBioBelow (flushMono outer (Nat.le_max_left fuel fuel')).1 queued
      have second := (flushMono outer (Nat.le_max_right fuel fuel')).2.2 _ _ _ rest
      simp only [cbCalls, first, second]

/- Callbacks of rank up to `n`, where flushes of callbacks below `n` return. -/
theorem loopReturns (sets : SetsMixed outer.merging) (ranked : Ranked outer rank)
    (returns : FlushReturns outer rank n)
    (last : ∀ (t : PlugTask σ) fromSchedule, Ready rank n t →
      ∃ fuel u, flushPlugCallbacks outer fuel t fromSchedule [] = some u ∧ Ready rank 0 u)
    {t : PlugTask σ} (fromSchedule : Bool) {cbs : List PlugCb} (low : ∀ cb ∈ cbs, rank cb < n + 1)
    (ready : Ready rank n t) :
    ∃ fuel u, flushPlugCallbacks outer fuel t fromSchedule cbs = some u ∧ Ready rank 0 u := by
  induction cbs generalizing t with
  | nil => exact last t fromSchedule ready
  | cons cb cbs ih =>
    have here : rank cb < n + 1 := low cb List.mem_cons_self
    have checks : ∀ lower allocated,
        CbCall.check lower allocated ∈ (outer.unplug t.world cb fromSchedule).2 → rank lower < n := by
      intro lower allocated member
      have := ranked.registers _ _ _ _ _ member
      omega
    have entered : Ready rank n {t.log [.callback cb fromSchedule] with
        world := (outer.unplug t.world cb fromSchedule).1} := ⟨ready.owned, ready.low⟩
    obtain ⟨fuel, v, called, next⟩ := callsReturn sets returns checks (ranked.owned t.world cb fromSchedule) entered
    obtain ⟨fuel', u, rest, done⟩ := ih (fun x member => low x (List.mem_cons_of_mem cb member)) next
    refine ⟨max fuel fuel' + 1, u, ?_, done⟩
    have first := (flushMono outer (Nat.le_max_left fuel fuel')).2.2 _ _ _ called
    have second := (flushMono outer (Nat.le_max_right fuel fuel')).2.1 _ _ _ _ rest
    simp only [flushPlugCallbacks, first, second]

/- The requests of the plug are handed over without tripping the `BUG_ON`. -/
theorem requestsReturn (sorts : ListSort outer.listSort) {t : PlugTask σ} (ready : Ready rank 0 t)
    (fromSchedule : Bool) : ∃ u, flushRequests outer t fromSchedule = some u ∧ Clear u := by
  have none' : callbacks t = [] :=
    List.eq_nil_iff_forall_not_mem.mpr (fun cb member => Nat.not_lt_zero _ (ready.low cb member))
  have owned : ∀ rq ∈ outer.listSort t.plugged, rq.q ≠ 0 := fun rq member =>
    ready.owned rq ((sorts.perm t.plugged).mem_iff.mp member)
  have ends : ∃ u, flushRequests outer t fromSchedule = some u := by
    unfold flushRequests
    split
    · exact ⟨t, rfl⟩
    · rw [flushLoopSweep _ fromSchedule owned]
      exact ⟨_, rfl⟩
  obtain ⟨u, ran⟩ := ends
  obtain ⟨-, list, same⟩ := flushRequestsCarries sorts ran
  exact ⟨u, ran, list, same.trans none'⟩

theorem flushOfLoop (sorts : ListSort outer.listSort)
    (loops : ∀ (t : PlugTask σ) fromSchedule, Ready rank n t →
      ∃ fuel u, flushPlugCallbacks outer fuel t fromSchedule [] = some u ∧ Ready rank 0 u) :
    FlushReturns outer rank n := by
  intro t fromSchedule ready
  obtain ⟨fuel, v, looped, next⟩ := loops t fromSchedule ready
  obtain ⟨u, ran, clear⟩ := requestsReturn sorts next fromSchedule
  exact ⟨fuel + 1, u, by simp only [blkFlushPlugList, looped, ran], clear⟩

/- By induction on the rank: the callbacks waiting now register only lower ones, and these
are run by the loop's next round or by a flush inside a callback. -/
theorem callbacksReturn (sets : SetsMixed outer.merging) (sorts : ListSort outer.listSort)
    (ranked : Ranked outer rank) (n : Nat) : ∀ (t : PlugTask σ) fromSchedule, Ready rank n t →
    ∃ fuel u, flushPlugCallbacks outer fuel t fromSchedule [] = some u ∧ Ready rank 0 u := by
  induction n with
  | zero =>
    intro t fromSchedule ready
    have none' : callbacks t = [] :=
      List.eq_nil_iff_forall_not_mem.mpr (fun cb member => Nat.not_lt_zero _ (ready.low cb member))
    refine ⟨1, t, ?_, ready⟩
    rw [callbacks] at none'
    simp only [flushPlugCallbacks, none']
  | succ n ih =>
    intro t fromSchedule ready
    cases waiting : callbacks t with
    | nil =>
      refine ⟨1, t, ?_, ready.owned, fun cb member => by rw [waiting] at member; cases member⟩
      rw [callbacks] at waiting
      simp only [flushPlugCallbacks, waiting]
    | cons cb cbs =>
      have emptied : Ready rank n (t.setPlug fun plug => {plug with cbList := []}) := by
        refine ⟨fun rq member => ?_, fun x member => ?_⟩
        · rw [pluggedSet] at member
          exact ready.owned rq member
        · cases found : t.plug <;> simp [callbacks, PlugTask.setPlug, found] at member
      obtain ⟨fuel, u, ran, done⟩ := loopReturns sets ranked (flushOfLoop sorts ih) ih fromSchedule
        (fun x member => ready.low x (waiting ▸ member)) emptied
      refine ⟨fuel + 1, u, ?_, done⟩
      rw [callbacks] at waiting
      simp only [flushPlugCallbacks, waiting]
      exact ran

theorem stepBelow {fuel fuel' : Nat} (le : fuel ≤ fuel') {t u : PlugTask σ} {op : TaskOp}
    (taken : step outer fuel t op = some u) : step outer fuel' t op = some u := by
  have below := (flushMono outer le).1
  cases op with
  | start p => exact taken
  | finish p =>
    simp only [step, blkFinishPlug] at taken ⊢
    split at taken
    · rename_i other
      rw [if_pos other, taken]
    · rename_i same
      obtain ⟨v, flushed, rfl⟩ := Option.map_eq_some_iff.mp taken
      rw [if_neg same, below _ _ _ flushed]
      rfl
  | submit sub => exact queueBioBelow below taken
  | check cb allocated => exact taken
  | flush fromSchedule => exact flushIfBelow below taken

theorem stepReturns (sets : SetsMixed outer.merging) (sorts : ListSort outer.listSort)
    (ranked : Ranked outer rank) {t : PlugTask σ} {op : TaskOp}
    (owned : ∀ sub, op = .submit sub → sub.q ≠ 0) (ready : ∃ n, Ready rank n t) :
    ∃ fuel u, step outer fuel t op = some u ∧ ∃ n, Ready rank n u := by
  obtain ⟨n, ready⟩ := ready
  have returns := flushOfLoop sorts (callbacksReturn sets sorts ranked n)
  cases op with
  | start p =>
    refine ⟨0, _, rfl, n, ?_⟩
    unfold blkStartPlug
    split
    · exact ready
    · exact ⟨(fun rq member => by cases member), (fun cb member => by cases member)⟩
  | finish p =>
    simp only [step, blkFinishPlug]
    split
    · exact ⟨0, t, rfl, n, ready⟩
    · obtain ⟨fuel, u, flushed, -⟩ := returns t false ready
      refine ⟨fuel, {u with plug := none}, by rw [flushed]; rfl, n, ?_⟩
      exact ⟨(fun rq member => by cases member), (fun cb member => by cases member)⟩
  | submit sub =>
    obtain ⟨fuel, u, queued, last⟩ := queueBioReturns sets returns (owned sub rfl) ready
    exact ⟨fuel, u, queued, n, last⟩
  | check cb allocated =>
    have wider : Ready rank (max n (rank cb + 1)) t := ⟨ready.owned, fun x member => by
      have := ready.low x member
      omega⟩
    exact ⟨0, _, rfl, _, checkReady wider (by omega) allocated⟩
  | flush fromSchedule =>
    simp only [step, flushIfPlugged]
    split
    · exact ⟨0, t, rfl, n, ready⟩
    · obtain ⟨fuel, u, flushed, clear⟩ := returns t fromSchedule ready
      exact ⟨fuel, u, flushed, n, clearReady clear⟩

theorem runReturns (sets : SetsMixed outer.merging) (sorts : ListSort outer.listSort)
    (ranked : Ranked outer rank) {ops : List TaskOp} (owned : ∀ sub, TaskOp.submit sub ∈ ops → sub.q ≠ 0)
    {s : PlugTask σ} (ready : ∃ n, Ready rank n s) :
    ∃ enough t, ∀ fuel, enough ≤ fuel → exec (step outer fuel) s ops = some t := by
  induction ops generalizing s with
  | nil => exact ⟨0, s, fun _ _ => rfl⟩
  | cons op ops ih =>
    obtain ⟨fuel, u, taken, next⟩ := stepReturns sets sorts ranked
      (fun sub same => owned sub (same ▸ List.mem_cons_self)) ready
    obtain ⟨enough, t, rest⟩ := ih (fun sub member => owned sub (List.mem_cons_of_mem op member)) next
    refine ⟨max fuel enough, t, fun more le => ?_⟩
    rw [execCons (stepBelow ((Nat.le_max_left fuel enough).trans le) taken)]
    exact rest more ((Nat.le_max_right fuel enough).trans le)

/- Every call of a task that plugs returns and trips no `BUG_ON`, where each callback only
registers callbacks of lower rank; what it submits may fill the plug as often as it likes. -/
theorem plugCallsReturn (sets : SetsMixed outer.merging) (sorts : ListSort outer.listSort)
    (ranked : Ranked outer rank) (world : σ) {ops : List TaskOp}
    (owned : ∀ sub, TaskOp.submit sub ∈ ops → sub.q ≠ 0) :
    ∃ enough t, ∀ fuel, enough ≤ fuel → exec (step outer fuel) (idleTask world) ops = some t :=
  runReturns sets sorts ranked owned
    ⟨0, (fun rq member => by cases member), (fun cb member => by cases member)⟩

end

theorem raidReturns : ∃ enough t, ∀ fuel, enough ≤ fuel →
    exec (step raidOuter fuel) (idleTask ()) raidRun = some t := by
  have ranked : Ranked raidOuter PlugCb.callback := by
    refine ⟨fun world cb fromSchedule lower allocated member => ?_, fun world cb fromSchedule sub member => ?_⟩
    · by_cases first : cb.callback = 1
      · simp only [raidOuter, if_pos first, List.mem_cons, CbCall.check.injEq, List.not_mem_nil, reduceCtorEq,
          or_false] at member
        rw [member.1, first]
        exact Nat.zero_lt_one
      · simp only [raidOuter, if_neg first, List.not_mem_nil] at member
    · rw [raidSubmits member]
      exact Nat.succ_ne_zero _
  refine plugCallsReturn plainSets plugSortSorts ranked () (fun sub member => ?_)
  obtain ⟨addr, q, sector, rfl⟩ := raidAsks member
  exact Nat.succ_ne_zero q

end KernelLabs.PlugReturns
