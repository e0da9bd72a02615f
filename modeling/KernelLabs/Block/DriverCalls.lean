import KernelLabs.Block.DriverSide

/-! What each call of the driver's side leaves: which requests are on the queue and which the
driver holds, and the counters read off these two. -/
namespace KernelLabs.DriverCalls
open Block Conservation Drain DriverSide

/- What the driver's side looks at in a request. -/
def driverView (rq : Request) : Bool × CmdType × BitVec 32 := (rq.cmdFlags.started, rq.cmdType, rq.dataLen)

/- The flags by which the elevator knows its requests. -/
def hashView (rq : Request) : Bool × Bool := (rq.cmdFlags.hashed, rq.cmdFlags.sorted)

def SameView (b c : BlockState) : Prop := ∀ x, driverView (c.req x) = driverView (b.req x)

def places (b : BlockState) : List Ref := b.queued ++ b.q.queueHead

/- The queue's own part: no request is linked twice, and only the elevator's are on the hash. -/
structure Tidy (b : BlockState) : Prop where
  linked : Linked b
  hashed : ∀ r, elvOnHash b r = true → r ∈ b.queued
  sorted : ∀ r ∈ b.queued, sortedFlag b r = true

/- Requests moved towards the driver. -/
structure Moved (b c : BlockState) : Prop where
  tidy : Tidy c
  places : (places c).Perm (places b)
  shrinks : ∀ r ∈ c.queued, r ∈ b.queued
  same : SameView b c

section
variable {b c d : BlockState}

theorem viewTrans (first : SameView b c) (second : SameView c d) : SameView b d :=
  fun x => (second x).trans (first x)

theorem movedRefl (tidy : Tidy b) : Moved b b := ⟨tidy, .refl _, fun _ => id, fun _ => rfl⟩

theorem movedTrans (first : Moved b c) (second : Moved c d) : Moved b d where
  tidy := second.tidy
  places := second.places.trans first.places
  shrinks r there := first.shrinks r (second.shrinks r there)
  same := viewTrans first.same second.same

theorem setReqKeeps {α : Type} (view : Request → α) (b : BlockState) (r : Ref) (f : Request → Request)
    (keeps : ∀ rq, view (f rq) = view rq) (x : Ref) : view ((b.setReq r f).req x) = view (b.req x) := by
  simp only [BlockState.setReq]
  split
  · exact keeps _
  · rfl

theorem setReqView (b : BlockState) (r : Ref) (f : Request → Request) (keeps : ∀ rq, driverView (f rq) = driverView rq) :
    SameView b (b.setReq r f) := setReqKeeps driverView b r f keeps

theorem delHashView (b : BlockState) (r : Ref) : SameView b (elvRqhashDel b r) := by
  unfold elvRqhashDel
  split
  · exact setReqView b r _ (fun _ => rfl)
  · exact fun _ => rfl

theorem moveView (b : BlockState) (r : Ref) : SameView b (greedyMove b r) := by
  intro x
  have hashDel := delHashView (if (b.listDelInit r).q.lastMerge = some r then
    {b.listDelInit r with q := {(b.listDelInit r).q with lastMerge := none}} else b.listDelInit r) r x
  refine Eq.trans ?_ (hashDel.trans ?_)
  · rfl
  · split <;> rfl

theorem moveMoved (tidy : Tidy b) {r : Ref} (held : r ∈ b.queued) : Moved b (greedyMove b r) where
  tidy := by
    refine ⟨moveLinked tidy.linked held, fun x mark => ?_, fun x there => ?_⟩
    · rw [moveOnHash] at mark
      obtain ⟨here, apart⟩ := Bool.and_eq_true_iff.mp mark
      rw [moveQueued tidy.linked]
      exact (linkedQueued tidy.linked).mem_erase_iff.mpr ⟨bne_iff_ne.mp apart, tidy.hashed x here⟩
    · rw [moveQueued tidy.linked] at there
      rw [moveSortedFlag]
      exact tidy.sorted x (List.mem_of_mem_erase there)
  places := by
    rw [places, moveQueued tidy.linked, moveDispatched tidy.linked held, ← List.append_assoc]
    refine (List.perm_append_singleton r _).trans ?_
    exact ((List.perm_cons_erase held).append_right b.q.queueHead).symm
  shrinks x there := by
    rw [moveQueued tidy.linked] at there
    exact List.mem_of_mem_erase there
  same := moveView b r

theorem drainMoved (tidy : Tidy b) : Moved b (drainLoop b).2 := by
  induction b using drainLoop.induct with
  | case1 b done =>
    have loop : drainLoop b = (0, b) := by rw [drainLoop]; split <;> simp_all
    rw [loop]
    exact movedRefl tidy
  | case2 b t moves ih =>
    obtain ⟨r, chosen, rfl⟩ := dispatchExact.mp moves
    have moved := moveMoved tidy (targetQueued chosen)
    have loop : drainLoop b = ((drainLoop (greedyMove b r)).1 + 1, (drainLoop (greedyMove b r)).2) := by
      rw [drainLoop]; split <;> simp_all
    rw [loop]
    exact movedTrans moved (ih moved.tidy)

/- A change that leaves the lists and the hash alone. -/
theorem quietTidy (tidy : Tidy b) (gd : c.q.gd = b.q.gd) (head : c.q.queueHead = b.q.queueHead)
    (sorted : c.q.nrSorted = b.q.nrSorted) (marks : ∀ x, hashView (c.req x) = hashView (b.req x)) :
    Tidy c ∧ places c = places b ∧ c.queued = b.queued := by
  have lists : c.queued = b.queued := by rw [BlockState.queued, gd]; rfl
  refine ⟨⟨⟨?_, ?_⟩, fun r mark => ?_, fun r there => ?_⟩, ?_, lists⟩
  · rw [lists, head]
    exact tidy.linked.once
  · rw [lists, sorted]
    exact tidy.linked.counted
  · rw [lists]
    exact tidy.hashed r ((congrArg Prod.fst (marks r)).symm.trans mark)
  · exact (congrArg Prod.snd (marks r)).trans (tidy.sorted r (lists ▸ there))
  · rw [places, places, lists, head]

theorem quietMoved (tidy : Tidy b) (gd : c.q.gd = b.q.gd) (head : c.q.queueHead = b.q.queueHead)
    (sorted : c.q.nrSorted = b.q.nrSorted) (marks : ∀ x, hashView (c.req x) = hashView (b.req x))
    (same : SameView b c) : Moved b c := by
  obtain ⟨tidyC, lists, queued⟩ := quietTidy tidy gd head sorted marks
  exact ⟨tidyC, .of_eq lists, fun r there => queued ▸ there, same⟩

theorem setReqHash (b : BlockState) (r : Ref) (f : Request → Request)
    (keeps : ∀ rq, hashView (f rq) = hashView rq) (x : Ref) :
    hashView ((b.setReq r f).req x) = hashView (b.req x) := setReqKeeps hashView b r f keeps x

/- The next request is the first of the dispatch list by then. -/
theorem nextMoved (now : Timespec) (tidy : Tidy b) : Moved b (Block.elvNextRequest now b).2 ∧
    ∀ r, (Block.elvNextRequest now b).1 = some r → r ∈ (Block.elvNextRequest now b).2.q.queueHead := by
  have stamp : ∀ c : BlockState, Tidy c → ∀ r rest, c.q.queueHead = r :: rest →
      Moved c (Block.elvNextRequest now c).2 ∧
        ∀ x, (Block.elvNextRequest now c).1 = some x → x ∈ (Block.elvNextRequest now c).2.q.queueHead := by
    intro c tidy r rest head
    rw [Stamps.nextOfHead now head]
    refine ⟨quietMoved tidy rfl rfl rfl (setReqHash c r (fun rq => {rq with startService := now}) (fun _ => rfl))
      (setReqView c r (fun rq => {rq with startService := now}) (fun _ => rfl)), fun x first => ?_⟩
    · cases Option.some.inj first
      change r ∈ c.q.queueHead
      rw [head]
      exact List.mem_cons_self
  cases head : b.q.queueHead with
  | cons r rest => exact stamp b tidy r rest head
  | nil =>
    rw [Block.elvNextRequest]
    split
    · rename_i first others same
      rw [head] at same
      cases same
    · split
      · exact ⟨quietMoved tidy rfl rfl rfl (fun _ => rfl) (fun _ => rfl), (fun _ none' => by cases none')⟩
      · split
        · exact ⟨movedRefl tidy, (fun _ none' => by cases none')⟩
        · split
          · exact ⟨movedRefl tidy, (fun _ none' => by cases none')⟩
          · rename_i t moves
            obtain ⟨r, chosen, rfl⟩ := dispatchExact.mp moves
            have moved := moveMoved tidy (targetQueued chosen)
            have filled : (greedyMove b r).q.queueHead = [r] := by rw [moveHead, head]; rfl
            obtain ⟨rest, first⟩ := stamp _ moved.tidy r [] filled
            exact ⟨movedTrans moved rest, first⟩

/- A request that joins the queue, at the top, at the back behind everything, or sorted in. -/
structure Joined (b c : BlockState) (r : Ref) : Prop where
  tidy : Tidy c
  places : (places c).Perm (r :: places b)
  shrinks : ∀ x ∈ c.queued, x ∈ b.queued ∨ x = r
  same : SameView b c

theorem movedJoined (moved : Moved b c) {r : Ref} (joined : Joined c d r) : Joined b d r where
  tidy := joined.tidy
  places := joined.places.trans (moved.places.cons r)
  shrinks x there := (joined.shrinks x there).imp_left (moved.shrinks x)
  same := viewTrans moved.same joined.same

theorem frontJoined (tidy : Tidy b) {r : Ref} (new : r ∉ places b) : Joined b (queueFront b r) r where
  tidy := by
    refine ⟨⟨?_, tidy.linked.counted⟩, tidy.hashed, tidy.sorted⟩
    exact (List.perm_middle.nodup_iff).mpr (List.nodup_cons.mpr ⟨new, tidy.linked.once⟩)
  places := List.perm_middle
  shrinks _ there := Or.inl there
  same _ := rfl

theorem tailJoined (tidy : Tidy b) {r : Ref} (new : r ∉ places b) : Joined b (queueTail b r) r := by
  have perm : (places (queueTail b r)).Perm (r :: places b) := by
    change (b.queued ++ (b.q.queueHead ++ [r])).Perm _
    rw [← List.append_assoc]
    exact List.perm_append_singleton r _
  exact ⟨⟨⟨perm.nodup_iff.mpr (List.nodup_cons.mpr ⟨new, tidy.linked.once⟩), tidy.linked.counted⟩, tidy.hashed,
    tidy.sorted⟩, perm, fun _ there => Or.inl there, fun _ => rfl⟩

theorem hashMergeableView {t : BlockState} {r : Ref} (hashed : hashMergeable b r = some t) : SameView b t := by
  unfold hashMergeable at hashed
  split at hashed
  · obtain ⟨u, added, rfl⟩ := Option.map_eq_some_iff.mp hashed
    unfold elvRqhashAdd at added
    split at added <;> try contradiction
    cases Option.some.inj added
    have view := setReqView b r (fun rq => {rq with cmdFlags := {rq.cmdFlags with hashed := true}}) (fun _ => rfl)
    split
    · exact view
    · exact view
  · cases Option.some.inj hashed
    exact fun _ => rfl

theorem sortJoined (tidy : Tidy b) {r : Ref} (new : r ∉ places b) (fs : (b.req r).cmdType = .fs) :
    ∃ t, elvInsertSort b r = some t ∧ Joined b t r := by
  have off : elvOnHash b r = false :=
    Bool.eq_false_iff.mpr (fun mark => new (List.mem_append_left _ (tidy.hashed r mark)))
  obtain ⟨t, inserted⟩ := insertSortNoBug fs off
  refine ⟨t, inserted, ?_⟩
  have inserted' := inserted
  unfold elvInsertSort at inserted'
  split at inserted' <;> try contradiction
  obtain ⟨u, hashes, rfl⟩ := Option.map_eq_some_iff.mp inserted'
  have hashed := hashMergeableCases hashes
  have lists : u.queued = b.queued := by
    simp only [BlockState.queued, hashed.lists]
    rfl
  have perm : (greedyAddRequest u r).queued.Perm (r :: b.queued) := lists ▸ addQueuedPerm u r
  have head : (greedyAddRequest u r).q.queueHead = b.q.queueHead := (addHead u r).trans hashed.head
  have whole : (places (greedyAddRequest u r)).Perm (r :: places b) := by
    rw [places, head]
    exact perm.append_right _
  refine ⟨⟨⟨whole.nodup_iff.mpr (List.nodup_cons.mpr ⟨new, tidy.linked.once⟩), ?_⟩, fun x mark => ?_,
    fun x there => ?_⟩, whole, fun x there => ?_, fun x => ?_⟩
  · rw [addSorted, hashed.nrSorted, perm.length_eq, List.length_cons, BitVec.ofNat_add]
    change b.q.nrSorted + 1 = _
    rw [tidy.linked.counted]
    rfl
  · rw [addOnHash] at mark
    refine perm.mem_iff.mpr ?_
    rcases hashed.onHash x mark with old | rfl
    · rw [markSortedOnHash] at old
      exact List.mem_cons_of_mem r (tidy.hashed x old)
    · exact List.mem_cons_self
  · rw [addSortedFlag, hashed.sorted, markSortedFlag]
    rcases List.mem_cons.mp (perm.mem_iff.mp there) with rfl | old
    · simp
    · simp [tidy.sorted x old]
  · rcases List.mem_cons.mp (perm.mem_iff.mp there) with rfl | old
    · exact Or.inr rfl
    · exact Or.inl old
  · have view := hashMergeableView hashes x
    rw [addReq]
    refine view.trans ?_
    exact setReqView b r (fun rq => {rq with cmdFlags := {rq.cmdFlags with sorted := true}}) (fun _ => rfl) x

theorem stampMoved (tidy : Tidy b) (now : Timespec) (r : Ref) :
    Moved b (b.setReq r (fun rq => {rq with startWait := now})) :=
  quietMoved tidy rfl rfl rfl (setReqHash b r _ (fun _ => rfl)) (setReqView b r _ (fun _ => rfl))

theorem barrierMoved (tidy : Tidy b) (r : Ref) : Moved b (softBarrier b r) :=
  quietMoved tidy rfl rfl rfl
    (setReqHash b r (fun rq => {rq with cmdFlags := {rq.cmdFlags with softBarrier := true}}) (fun _ => rfl))
    (setReqView b r (fun rq => {rq with cmdFlags := {rq.cmdFlags with softBarrier := true}}) (fun _ => rfl))

theorem boundaryMoved (tidy : Tidy b) (r : Ref) : Moved b (noteBoundary b r) := by
  unfold noteBoundary
  split
  · exact quietMoved tidy rfl rfl rfl (fun _ => rfl) (fun _ => rfl)
  · exact movedRefl tidy

theorem drainElevatorMoved (tidy : Tidy b) : Moved b (elvDrainElevator b) := by
  rw [drainElevatorIsLoop tidy.linked]
  exact drainMoved tidy

theorem notedPoint (now : Timespec) (b : BlockState) (r : Ref) (point : InsertionPoint) :
    insertionPoint ((noteBoundary (b.setReq r (fun rq => {rq with startWait := now})) r).req r) point =
      insertionPoint (b.req r) point := by
  have req : (noteBoundary (b.setReq r (fun rq => {rq with startWait := now})) r).req r =
      {b.req r with startWait := now} := by
    unfold noteBoundary
    split
    · exact if_pos rfl
    · exact if_pos rfl
  rw [req]
  rfl

/- A new request, or one put back, joins the queue; or it was merged at once. -/
theorem addJoined (now : Timespec) (merged : Bool) (tidy : Tidy b) {r : Ref} (new : r ∉ places b)
    {point : InsertionPoint} (known : insertionPoint (b.req r) point ≠ .flush)
    (fs : insertionPoint (b.req r) point = .sort ∨ insertionPoint (b.req r) point = .sortMerge →
      (b.req r).cmdType = .fs) :
    ∃ t, Block.elvAddRequest now merged .offQueue b r point = some t ∧
      ((merged && insertionPoint (b.req r) point == .sortMerge) = true → Moved b t) ∧
      ((merged && insertionPoint (b.req r) point == .sortMerge) = false → Joined b t r) ∧
      (insertionPoint (b.req r) point = .requeue → ∀ x ∈ t.queued, x ∈ b.queued) := by
  have stamped := stampMoved tidy now r
  have noted := movedTrans stamped (boundaryMoved stamped.tidy r)
  have marked := movedTrans noted (barrierMoved noted.tidy r)
  have out : ∀ d : BlockState, Moved b d → r ∉ places d := fun d moved there => new (moved.places.mem_iff.mp there)
  unfold Block.elvAddRequest
  dsimp only
  rw [notedPoint]
  cases at' : insertionPoint (b.req r) point with
  | requeue =>
    exact ⟨_, rfl, (by simp), fun _ => movedJoined marked (frontJoined marked.tidy (out _ marked)),
      fun _ => marked.shrinks⟩
  | front =>
    exact ⟨_, rfl, (by simp), fun _ => movedJoined marked (frontJoined marked.tidy (out _ marked)),
      (fun other => by cases other)⟩
  | back =>
    have drained := movedTrans marked (drainElevatorMoved marked.tidy)
    exact ⟨_, rfl, (by simp), fun _ => movedJoined drained (tailJoined drained.tidy (out _ drained)),
      (fun other => by cases other)⟩
  | sort =>
    obtain ⟨t, inserted, joined⟩ := sortJoined noted.tidy (out _ noted)
      ((congrArg (fun view => view.2.1) (noted.same r)).trans (fs (Or.inl at')))
    exact ⟨t, inserted, (by simp), fun _ => movedJoined noted joined, (fun other => by cases other)⟩
  | sortMerge =>
    cases merged with
    | true => exact ⟨_, rfl, fun _ => noted, (by simp), (fun other => by cases other)⟩
    | false =>
      obtain ⟨t, inserted, joined⟩ := sortJoined noted.tidy (out _ noted)
        ((congrArg (fun view => view.2.1) (noted.same r)).trans (fs (Or.inr at')))
      exact ⟨t, inserted, (by simp), fun _ => movedJoined noted joined, (fun other => by cases other)⟩
  | flush => exact absurd at' known

end

def startedFlag (b : BlockState) (r : Ref) : Bool := (b.req r).cmdFlags.started

def countsAt (q : DriverQueue) (d : Bool) (r : Ref) : Bool := blkAccountRq (q.b.req r) && (q.prep r).sync == d

/- The counters against the requests `held` by the driver; `gone` is how many normal requests
were put that had not been added. -/
structure Driven (c : Config) (q : DriverQueue) (held : List Ref) (gone : Nat) : Prop where
  tidy : Tidy q.b
  apart : (places q.b ++ held).Nodup
  idle : ∀ r ∈ q.b.queued, startedFlag q.b r = false
  started : ∀ r ∈ held, startedFlag q.b r = true
  inFlight : ∀ d, q.inFlight d = BitVec.ofNat 32 (held.countP (countsAt q d))
  pending : q.nrPending + BitVec.ofNat 32 gone = BitVec.ofNat 32 ((places q.b ++ held).countP (normal c q))

/- What the driver's calls leave alone of power management. -/
structure Untold (q t : DriverQueue) : Prop where
  status : t.rpmStatus = q.rpmStatus
  resumes : t.resumes = q.resumes
  pm : ∀ r, (t.prep r).pm = (q.prep r).pm

section
variable {c : Config} {q t u : DriverQueue} {held : List Ref} {gone : Nat}

theorem untoldTrans (first : Untold q t) (second : Untold t u) : Untold q u :=
  ⟨second.status.trans first.status, second.resumes.trans first.resumes, fun r => (second.pm r).trans (first.pm r)⟩

theorem untoldNormal (untold : Untold q t) (r : Ref) : normal c t r = normal c q r := by
  rw [normal, normal, untold.pm]

theorem heldOut (driven : Driven c q held gone) {r : Ref} (member : r ∈ held) : r ∉ places q.b :=
  fun there => (List.nodup_append.mp driven.apart).2.2 r there r member rfl

theorem headNotQueued (driven : Driven c q held gone) {r : Ref} (top : r ∈ q.b.q.queueHead) : r ∉ q.b.queued :=
  fun there => (List.nodup_append.mp driven.tidy.linked.once).2.2 r there r top rfl

theorem countsSame (same : SameView q.b t.b) (prep : t.prep = q.prep) (d : Bool) : countsAt t d = countsAt q d := by
  funext r
  have view := same r
  have started : (t.b.req r).cmdFlags.started = (q.b.req r).cmdFlags.started := congrArg Prod.fst view
  have type : (t.b.req r).cmdType = (q.b.req r).cmdType := congrArg (fun v => v.2.1) view
  rw [countsAt, countsAt, blkAccountRq, blkAccountRq, started, type, prep]

theorem movedDriven (driven : Driven c q held gone) {b : BlockState} (moved : Moved q.b b) :
    Driven c {q with b := b} held gone where
  tidy := moved.tidy
  apart := ((moved.places.append_right held).nodup_iff).mpr driven.apart
  idle r there := (congrArg Prod.fst (moved.same r)).trans (driven.idle r (moved.shrinks r there))
  started r there := (congrArg Prod.fst (moved.same r)).trans (driven.started r there)
  inFlight d := by
    have same := countsSame (t := {q with b := b}) moved.same rfl d
    rw [same]
    exact driven.inFlight d
  pending := driven.pending.trans (congrArg _ ((moved.places.append_right held).countP_eq _).symm)

/- The mark of a request that the driver has seen, while it is first on the dispatch list. -/
theorem startedDriven (driven : Driven c q held gone) {r : Ref} (top : r ∈ q.b.q.queueHead) :
    Driven c (markStarted q r) held gone := by
  have there : r ∈ places q.b := List.mem_append_right _ top
  have others : ∀ x, x ≠ r → (markStarted q r).b.req x = q.b.req x := fun x other => if_neg other
  have marks : ∀ x, hashView ((markStarted q r).b.req x) = hashView (q.b.req x) :=
    setReqHash q.b r (fun rq => {rq with cmdFlags := {rq.cmdFlags with started := true}}) (fun _ => rfl)
  obtain ⟨tidy, lists, queued⟩ := quietTidy (c := (markStarted q r).b) driven.tidy rfl rfl rfl marks
  refine ⟨tidy, driven.apart, fun x member => ?_, fun x member => ?_, fun d => ?_, driven.pending⟩
  · have apart : x ≠ r := fun same => headNotQueued driven top (same ▸ member)
    rw [startedFlag, others x apart]
    exact driven.idle x member
  · have apart : x ≠ r := fun same => heldOut driven member (same ▸ there)
    rw [startedFlag, others x apart]
    exact driven.started x member
  · have same : held.countP (countsAt (markStarted q r) d) = held.countP (countsAt q d) := by
      refine List.countP_congr (fun x member => ?_)
      have apart : x ≠ r := fun same => heldOut driven member (same ▸ there)
      rw [countsAt, countsAt, others x apart]
      rfl
    rw [same]
    exact driven.inFlight d

theorem prepDriven (driven : Driven c q held gone) (r : Ref) (f : Prep → Prep) (pm : ∀ p, (f p).pm = p.pm)
    (sync : ∀ p, (f p).sync = p.sync) : Driven c (q.setPrep r f) held gone ∧ Untold q (q.setPrep r f) := by
  have pm' : ∀ x, ((q.setPrep r f).prep x).pm = (q.prep x).pm := by
    intro x
    simp only [DriverQueue.setPrep]
    split
    · exact pm _
    · rfl
  have sync' : ∀ x, ((q.setPrep r f).prep x).sync = (q.prep x).sync := by
    intro x
    simp only [DriverQueue.setPrep]
    split
    · exact sync _
    · rfl
  refine ⟨⟨driven.tidy, driven.apart, driven.idle, driven.started, fun d => ?_, ?_⟩, ⟨rfl, rfl, pm'⟩⟩
  · have same : countsAt (q.setPrep r f) d = countsAt q d := by
      funext x
      rw [countsAt, countsAt, sync']
      rfl
    rw [same]
    exact driven.inFlight d
  · have same : normal c (q.setPrep r f) = normal c q := by
      funext x
      rw [normal, normal, pm']
    rw [same]
    exact driven.pending

/- Taken off the top, a request is the driver's. -/
theorem dequeueDriven (driven : Driven c q held gone) {r : Ref} (top : r ∈ q.b.q.queueHead)
    (marked : startedFlag q.b r = true) : ∃ t, blkStartRequest q r = some t ∧ Driven c t (r :: held) gone ∧
    Untold q t ∧ (places q.b).Perm (r :: places t.b) ∧ t.b.queued = q.b.queued ∧ t.prep = q.prep ∧
    t.b.req = q.b.req := by
  have once := driven.tidy.linked.once
  have notQueued := headNotQueued driven top
  have off : ¬ elvOnHash q.b r = true := fun mark => notQueued (driven.tidy.hashed r mark)
  have listed : r ∈ q.b.q.queueHead ++ q.b.queued := List.mem_append_left _ top
  have inHigher : r ∉ q.b.q.gd.higher := fun there => notQueued (List.mem_append_left _ there)
  have inLower : r ∉ q.b.q.gd.lower := fun there => notQueued (List.mem_append_right _ there)
  have queued : (q.b.listDelInit r).queued = q.b.queued := by
    rw [BlockState.queued, BlockState.delHigher, BlockState.delLower, List.erase_of_not_mem inHigher,
      List.erase_of_not_mem inLower]
    rfl
  have split' : (places q.b).Perm (r :: places (q.b.listDelInit r)) := by
    rw [places, places, queued, BlockState.delHead]
    exact ((List.perm_cons_erase top).append_left _).trans List.perm_middle
  have whole : (places q.b ++ held).Perm (places (q.b.listDelInit r) ++ r :: held) :=
    (split'.append_right held).trans List.perm_middle.symm
  have taken : blkStartRequest q r = some (count {q with b := q.b.listDelInit r} r 1) := by
    rw [blkStartRequest, blkDequeueRequest, Stamps.blkDequeueRequest, if_neg (not_not.mpr listed), if_neg off]
    rfl
  have block : ∀ n, (count {q with b := q.b.listDelInit r} r n).b = q.b.listDelInit r := by
    intro n
    unfold count
    split <;> rfl
  have prep : (count {q with b := q.b.listDelInit r} r 1).prep = q.prep := by
    unfold count
    split <;> rfl
  have untold : Untold q (count {q with b := q.b.listDelInit r} r 1) := by
    unfold count
    split <;> exact ⟨rfl, rfl, fun _ => rfl⟩
  have pendingSame : (count {q with b := q.b.listDelInit r} r 1).nrPending = q.nrPending := by
    unfold count
    split <;> rfl
  have normalSame : normal c (count {q with b := q.b.listDelInit r} r 1) = normal c q :=
    funext (untoldNormal untold)
  have countsSame' : ∀ d, countsAt (count {q with b := q.b.listDelInit r} r 1) d = countsAt q d := by
    intro d
    funext x
    rw [countsAt, countsAt, block, prep]
    rfl
  refine ⟨_, taken, ⟨⟨⟨?_, ?_⟩, fun x mark => ?_, fun x there => ?_⟩, ?_, fun x there => ?_, fun x there => ?_,
    fun d => ?_, ?_⟩, untold, ?_, ?_, prep, ?_⟩
  · rw [block]
    exact (List.nodup_cons.mp (split'.nodup_iff.mp once)).2
  · rw [block, queued]
    exact driven.tidy.linked.counted
  · rw [block] at mark ⊢
    rw [queued]
    exact driven.tidy.hashed x mark
  · rw [block] at there ⊢
    exact driven.tidy.sorted x (queued ▸ there)
  · rw [block]
    exact whole.nodup_iff.mp driven.apart
  · rw [block] at there ⊢
    exact driven.idle x (queued ▸ there)
  · rw [block]
    rcases List.mem_cons.mp there with rfl | old
    · exact marked
    · exact driven.started x old
  · rw [countsSame' d, List.countP_cons]
    have before := driven.inFlight d
    unfold count
    rw [countsAt]
    change (if blkAccountRq (q.b.req r) = true then _ else _ : DriverQueue).inFlight d = _
    split
    · rename_i account
      rw [account]
      dsimp only
      by_cases same : d = (q.prep r).sync
      · rw [if_pos same, before, if_pos (by simp [same]), BitVec.ofNat_add]
        rfl
      · rw [if_neg same, before, if_neg (by simpa using fun eq => same eq.symm)]
        rfl
    · rename_i account
      rw [Bool.not_eq_true] at account
      rw [account, if_neg (by simp)]
      exact before
  · rw [pendingSame, normalSame, block]
    exact driven.pending.trans (congrArg _ (whole.countP_eq _))
  · rw [block]
    exact split'
  · rw [block, queued]
  · rw [block]
    rfl

end

section
variable {c : Config} {q t u : DriverQueue} {held : List Ref} {gone : Nat}

def oneIf (b : Bool) : BitVec 32 := if b then 1 else 0

theorem countExact (q : DriverQueue) (r : Ref) (n : BitVec 32) : (count q r n).b = q.b ∧
    (count q r n).prep = q.prep ∧ (count q r n).nrPending = q.nrPending ∧ Untold q (count q r n) ∧
    ∀ d, (count q r n).inFlight d = q.inFlight d + if countsAt q d r then n else 0 := by
  unfold count
  split
  · rename_i account
    refine ⟨rfl, rfl, rfl, ⟨rfl, rfl, fun _ => rfl⟩, fun d => ?_⟩
    dsimp only
    rw [countsAt, account]
    by_cases same : d = (q.prep r).sync
    · rw [if_pos same, if_pos (by simp [same])]
    · rw [if_neg same, if_neg (by simpa using fun eq => same eq.symm)]
      exact (BitVec.add_zero _).symm
  · rename_i account
    refine ⟨rfl, rfl, rfl, ⟨rfl, rfl, fun _ => rfl⟩, fun d => ?_⟩
    rw [Bool.not_eq_true] at account
    rw [countsAt, account, if_neg (by simp)]
    exact (BitVec.add_zero _).symm

theorem putExact (out : r ∉ places q.b) (off : elvOnHash q.b r = false) : ∃ t, blkPutRequest c q r = some t ∧
    t.b = q.b ∧ t.prep = q.prep ∧ Untold q t ∧ t.nrPending = q.nrPending - oneIf (normal c q r) ∧
    ∀ d, t.inFlight d = q.inFlight d - oneIf (countsAt q d r) := by
  have put : blkPutRequest c q r = some (count (blkPmPutRequest c q r) r (-1)) := by
    rw [blkPutRequest, if_neg]
    · rfl
    · rw [off]
      exact fun bug => bug.elim out (by simp)
  have pm : (blkPmPutRequest c q r).b = q.b ∧ (blkPmPutRequest c q r).prep = q.prep ∧
      Untold q (blkPmPutRequest c q r) ∧ (blkPmPutRequest c q r).inFlight = q.inFlight ∧
      (blkPmPutRequest c q r).nrPending = q.nrPending - oneIf (normal c q r) := by
    unfold blkPmPutRequest oneIf
    split
    · exact ⟨rfl, rfl, ⟨rfl, rfl, fun _ => rfl⟩, rfl, rfl⟩
    · exact ⟨rfl, rfl, ⟨rfl, rfl, fun _ => rfl⟩, rfl, (BitVec.sub_zero _).symm⟩
  obtain ⟨pmB, pmPrep, pmUntold, pmFlight, pmPending⟩ := pm
  obtain ⟨b, prep, pending, untold, flight⟩ := countExact (blkPmPutRequest c q r) r (-1)
  refine ⟨_, put, b.trans pmB, prep.trans pmPrep, untoldTrans pmUntold untold, pending.trans pmPending, fun d => ?_⟩
  have same : countsAt (blkPmPutRequest c q r) d r = countsAt q d r := by
    rw [countsAt, countsAt, pmB, pmPrep]
  rw [flight, same, pmFlight, oneIf]
  split
  · exact (BitVec.sub_eq_add_neg ..).symm
  · exact (BitVec.add_zero _).trans (BitVec.sub_zero _).symm

theorem countOne (p : Ref → Bool) (r : Ref) (l : List Ref) :
    BitVec.ofNat 32 ((r :: l).countP p) - oneIf (p r) = BitVec.ofNat 32 (l.countP p) := by
  rw [List.countP_cons, oneIf]
  split
  · rw [BitVec.ofNat_add]
    exact BitVec.add_sub_cancel ..
  · exact BitVec.sub_zero _

/- A request that the driver held and has put. -/
theorem finishDriven (driven : Driven c q held gone) {r : Ref} (member : r ∈ held) :
    ∃ t, blkFinishRequest c q r = some t ∧ Driven c t (held.erase r) gone ∧ Untold q t ∧ t.b = q.b ∧
    ∀ x, x ≠ r → t.prep x = q.prep x := by
  have out := heldOut driven member
  have unprepped : Driven c (if (q.prep r).dontPrep then blkUnprepRequest q r else q) held gone ∧
      Untold q (if (q.prep r).dontPrep then blkUnprepRequest q r else q) ∧
      (if (q.prep r).dontPrep then blkUnprepRequest q r else q).b = q.b ∧
      ∀ x, x ≠ r → (if (q.prep r).dontPrep then blkUnprepRequest q r else q).prep x = q.prep x := by
    split
    · obtain ⟨after, untold⟩ := prepDriven driven r (fun p => {p with dontPrep := false}) (fun _ => rfl) (fun _ => rfl)
      exact ⟨after, untold, rfl, fun x other => if_neg other⟩
    · exact ⟨driven, ⟨rfl, rfl, fun _ => rfl⟩, rfl, fun _ _ => rfl⟩
  have notListed : ¬ queuedRq q.b r := out
  rw [blkFinishRequest, if_neg notListed]
  generalize (if (q.prep r).dontPrep then blkUnprepRequest q r else q) = u at unprepped
  obtain ⟨drivenU, untoldU, sameB, others⟩ := unprepped
  have outU : r ∉ places u.b := sameB.symm ▸ out
  have off : elvOnHash u.b r = false :=
    Bool.eq_false_iff.mpr (fun mark => outU (List.mem_append_left _ (drivenU.tidy.hashed r mark)))
  obtain ⟨t, put, b, prep, untold, pending, flight⟩ := putExact (c := c) outU off
  have split' : held.Perm (r :: held.erase r) := List.perm_cons_erase member
  have normalSame : normal c t = normal c u := funext (untoldNormal untold)
  refine ⟨t, put, ⟨?_, ?_, ?_, fun x there => ?_, fun d => ?_, ?_⟩, untoldTrans untoldU untold, b.trans sameB,
    fun x other => (congrFun prep x).trans (others x other)⟩
  · rw [b]
    exact drivenU.tidy
  · rw [b]
    exact drivenU.apart.sublist ((List.erase_sublist).append_left _)
  · rw [b]
    exact drivenU.idle
  · rw [b]
    exact drivenU.started x (List.mem_of_mem_erase there)
  · have same : countsAt t d = countsAt u d := by
      funext x
      rw [countsAt, countsAt, b, prep]
    rw [flight, same, drivenU.inFlight d, split'.countP_eq, countOne]
  · have perm : (places u.b ++ held).Perm (r :: (places u.b ++ held.erase r)) :=
      (split'.append_left _).trans List.perm_middle
    rw [pending, b, normalSame, BitVec.sub_add_comm, drivenU.pending, perm.countP_eq, countOne]

/- What a call of the driver that only looks and kills leaves. -/
structure Peeked (c : Config) (q t : DriverQueue) (held : List Ref) (gone : Nat) (answer : Option Ref) : Prop where
  driven : Driven c t held gone
  untold : Untold q t
  fewer : ∀ r ∈ places t.b, r ∈ places q.b
  top : ∀ r, answer = some r → r ∈ t.b.q.queueHead ∧ startedFlag t.b r = true ∧ heldBack c t r = false

theorem heldBackSame (untold : Untold q t) (r : Ref) : heldBack c t r = heldBack c q r := by
  rw [heldBack, heldBack, untold.status, untold.pm]

theorem killDriven (driven : Driven c q held gone) {r : Ref} (top : r ∈ q.b.q.queueHead)
    (marked : startedFlag q.b r = true) : ∃ t, kill c q r = some t ∧ Driven c t held gone ∧ Untold q t ∧
    (places q.b).Perm (r :: places t.b) ∧ t.b.queued = q.b.queued ∧ t.b.req = q.b.req ∧
    ∀ x, x ≠ r → t.prep x = q.prep x := by
  obtain ⟨quieted, untold⟩ := prepDriven driven r (fun p => {p with quiet := true}) (fun _ => rfl) (fun _ => rfl)
  obtain ⟨u, started, drivenU, untoldU, perm, queued, prep, req⟩ := dequeueDriven quieted top marked
  obtain ⟨t, finished, drivenT, untoldT, sameB, others⟩ := finishDriven drivenU (List.mem_cons_self (a := r) (l := held))
  refine ⟨t, ?_, ?_, untoldTrans untold (untoldTrans untoldU untoldT), ?_, by rw [sameB]; exact queued,
    by rw [sameB]; exact req, fun x other => ?_⟩
  · rw [kill, started]
    exact finished
  · rw [List.erase_cons_head] at drivenT
    exact drivenT
  · rw [sameB]
    exact perm
  · rw [others x other, prep]
    exact if_neg other

theorem addRoomDriven (driven : Driven c q held gone) (r : Ref) (n : BitVec 16) :
    Driven c (addRoom c q r n) held gone ∧ Untold q (addRoom c q r n) ∧ (addRoom c q r n).b = q.b := by
  unfold addRoom
  split
  · obtain ⟨after, untold⟩ := prepDriven driven r (fun p => {p with nrPhysSegments := p.nrPhysSegments + n})
      (fun _ => rfl) (fun _ => rfl)
    exact ⟨after, untold, rfl⟩
  · exact ⟨driven, ⟨rfl, rfl, fun _ => rfl⟩, rfl⟩

/- A request is looked at for the first time, or again: marked, and first still. -/
theorem seenDriven (driven : Driven c q held gone) {r : Ref} (top : r ∈ q.b.q.queueHead) :
    Driven c (noteEnd (markStarted q r) r) held gone ∧ Untold q (noteEnd (markStarted q r) r) ∧
    places (noteEnd (markStarted q r) r).b = places q.b ∧ r ∈ (noteEnd (markStarted q r) r).b.q.queueHead ∧
    startedFlag (noteEnd (markStarted q r) r).b r = true := by
  have marked := startedDriven driven top
  have flag : startedFlag (markStarted q r).b r = true :=
    congrArg (fun rq : Request => rq.cmdFlags.started) (if_pos rfl)
  unfold noteEnd
  split
  · exact ⟨movedDriven marked (quietMoved marked.tidy rfl rfl rfl (fun _ => rfl) (fun _ => rfl)),
      ⟨rfl, rfl, fun _ => rfl⟩, rfl, top, flag⟩
  · exact ⟨marked, ⟨rfl, rfl, fun _ => rfl⟩, rfl, top, flag⟩

theorem callPrepDriven (driven : Driven c q held gone) (r : Ref) (round : PeekRound) :
    Driven c (callPrep q r round) held gone ∧ Untold q (callPrep q r round) :=
  prepDriven driven r (fun p => {p with dontPrep := p.dontPrep || round.dontPrep}) (fun _ => rfl) (fun _ => rfl)

/- Peeking ends: each round but the last takes a request off the queue for good. -/
theorem peekDriven (rounds : Nat → PeekRound) (fuel : Nat) (driven : Driven c q held gone)
    (enough : (places q.b).length < fuel) :
    ∃ answer t, blkPeekRequest c rounds fuel q = some (answer, t) ∧ Peeked c q t held gone answer := by
  induction fuel generalizing q with
  | zero => exact absurd enough (Nat.not_lt_zero _)
  | succ fuel ih =>
    obtain ⟨moved, first⟩ := nextMoved (rounds fuel).now driven.tidy
    have drivenN := movedDriven driven moved
    unfold blkPeekRequest
    dsimp only
    cases taken : Block.elvNextRequest (rounds fuel).now q.b with
    | mk next b =>
      rw [taken] at moved first drivenN
      have fewerN : ∀ r ∈ places b, r ∈ places q.b := fun r there => moved.places.mem_iff.mp there
      have lookedN : Untold q {q with b := b} := ⟨rfl, rfl, fun _ => rfl⟩
      cases next with
      | none => exact ⟨none, _, rfl, drivenN, lookedN, fewerN, (fun _ none' => by cases none')⟩
      | some r =>
        have top : r ∈ b.q.queueHead := first r rfl
        dsimp only
        split
        · exact ⟨none, _, rfl, drivenN, lookedN, fewerN, (fun _ none' => by cases none')⟩
        · rename_i free
          obtain ⟨drivenS, untoldS, listsS, topS, flagS⟩ := seenDriven drivenN top
          generalize noteEnd (markStarted {q with b := b} r) r = s at drivenS untoldS listsS topS flagS
          have untold := untoldTrans lookedN untoldS
          -- whatever is prepared, the request answered is the one on top
          have answer : ∀ u, Driven c u held gone → Untold s u → u.b = s.b → Peeked c q u held gone (some r) := by
            intro u drivenU untoldU sameB
            have back : heldBack c u r = heldBack c q r := heldBackSame (untoldTrans untold untoldU) r
            refine ⟨drivenU, untoldTrans untold untoldU, fun x there => ?_, fun x found => ?_⟩
            · rw [sameB, listsS] at there
              exact fewerN x there
            · cases Option.some.inj found
              rw [sameB, back]
              refine ⟨topS, flagS, ?_⟩
              rw [← heldBackSame lookedN]
              exact Bool.eq_false_iff.mpr free
          have nothing : ∀ u, Driven c u held gone → Untold s u → u.b = s.b → Peeked c q u held gone none := by
            intro u drivenU untoldU sameB
            have same := answer u drivenU untoldU sameB
            exact ⟨same.driven, same.untold, same.fewer, (fun _ none' => by cases none')⟩
          split
          · exact ⟨some r, s, rfl, answer s drivenS ⟨rfl, rfl, fun _ => rfl⟩ rfl⟩
          · obtain ⟨drivenR, untoldR, sameR⟩ := addRoomDriven drivenS r 1
            split
            · exact ⟨some r, _, rfl, answer _ drivenR untoldR sameR⟩
            · obtain ⟨drivenP, untoldP⟩ := callPrepDriven drivenR r (rounds fuel)
              have untoldSP := untoldTrans untoldR untoldP
              have sameP : (callPrep (addRoom c s r 1) r (rounds fuel)).b = s.b := sameR
              generalize callPrep (addRoom c s r 1) r (rounds fuel) = p at drivenP untoldSP sameP
              cases (rounds fuel).result with
              | ok => exact ⟨some r, _, rfl, answer _ drivenP untoldSP sameP⟩
              | other => exact ⟨some r, _, rfl, answer _ drivenP untoldSP sameP⟩
              | defer =>
                dsimp only
                split
                · exact ⟨none, _, rfl, nothing _ drivenP untoldSP sameP⟩
                · obtain ⟨drivenB, untoldB, sameB⟩ := addRoomDriven drivenP r (-1)
                  exact ⟨none, _, rfl, nothing _ drivenB (untoldTrans untoldSP untoldB) (sameB.trans sameP)⟩
              | kill =>
                have topP : r ∈ p.b.q.queueHead := sameP ▸ topS
                have flagP : startedFlag p.b r = true := sameP ▸ flagS
                obtain ⟨k, killed, drivenK, untoldK, perm, _⟩ := killDriven drivenP topP flagP
                rw [sameP, listsS] at perm
                have shorter : (places k.b).length < fuel := by
                  have whole := (perm.symm.trans moved.places).length_eq
                  rw [List.length_cons] at whole
                  omega
                obtain ⟨last, t, ran, peeked⟩ := ih drivenK shorter
                dsimp only
                rw [killed]
                refine ⟨last, t, ran, peeked.driven,
                  untoldTrans untold (untoldTrans untoldSP (untoldTrans untoldK peeked.untold)), fun x there => ?_,
                  peeked.top⟩
                exact fewerN x (perm.mem_iff.mpr (List.mem_cons_of_mem r (peeked.fewer x there)))

end

/- Power management is asked to wake the device. -/
def asks (q : DriverQueue) : Prop := q.nrPending = 0 ∧ (q.rpmStatus = .suspended ∨ q.rpmStatus = .suspending)
instance (q : DriverQueue) : Decidable (asks q) := by unfold asks; infer_instance

/- What an insertion tells power management. -/
structure Told (c : Config) (q t : DriverQueue) (r : Ref) : Prop where
  status : t.rpmStatus = q.rpmStatus
  resumes : t.resumes = if normal c q r ∧ asks q then q.resumes + 1 else q.resumes
  pm : ∀ x, (t.prep x).pm = (q.prep x).pm

section
variable {c : Config} {q t u : DriverQueue} {held : List Ref} {gone : Nat}

theorem pmAddExact (q : DriverQueue) (r : Ref) : (blkPmAddRequest c q r).b = q.b ∧
    (blkPmAddRequest c q r).prep = q.prep ∧ (blkPmAddRequest c q r).inFlight = q.inFlight ∧
    (blkPmAddRequest c q r).nrPending = q.nrPending + oneIf (normal c q r) ∧ Told c q (blkPmAddRequest c q r) r := by
  unfold blkPmAddRequest oneIf
  split
  · rename_i here
    refine ⟨rfl, rfl, rfl, rfl, rfl, ?_, fun _ => rfl⟩
    simp only [asks, here, true_and]
  · rename_i here
    refine ⟨rfl, rfl, rfl, (BitVec.add_zero _).symm, rfl, ?_, fun _ => rfl⟩
    exact (if_neg (fun both => here both.1)).symm

theorem countMore (p : Ref → Bool) (r : Ref) (l : List Ref) :
    BitVec.ofNat 32 (l.countP p) + oneIf (p r) = BitVec.ofNat 32 ((r :: l).countP p) := by
  rw [List.countP_cons, oneIf]
  split
  · rw [BitVec.ofNat_add]
    rfl
  · exact BitVec.add_zero _

/- A request outside the queue and the driver, in a state to be added. -/
structure Ready (q : DriverQueue) (held : List Ref) (r : Ref) (point : InsertionPoint) : Prop where
  out : r ∉ places q.b
  free : r ∉ held
  idle : startedFlag q.b r = false
  known : insertionPoint (q.b.req r) point ≠ .flush
  fs : insertionPoint (q.b.req r) point = .sort ∨ insertionPoint (q.b.req r) point = .sortMerge →
    (q.b.req r).cmdType = .fs

/- What an insertion leaves alone of the requests. -/
structure Landed (q t : DriverQueue) (r : Ref) (point : InsertionPoint) : Prop where
  len : ∀ x, (t.b.req x).dataLen = (q.b.req x).dataLen
  queued : ∀ x ∈ t.b.queued, x ∈ q.b.queued ∨ x = r
  front : insertionPoint (q.b.req r) point = .requeue → ∀ x ∈ t.b.queued, x ∈ q.b.queued

/- Added, a request is on the queue; or it was merged and put at once. -/
theorem addDriven (now : Timespec) (merged : Bool) (driven : Driven c q held gone) {r : Ref} {point : InsertionPoint}
    (ready : Ready q held r point) : ∃ t, elvAddRequest c now merged q r point = some t ∧ Driven c t held gone ∧
    Told c q t r ∧ t.prep = q.prep ∧ (places t.b).Perm
      (if merged && insertionPoint (q.b.req r) point == .sortMerge then places q.b else r :: places q.b) ∧
    Landed q t r point := by
  obtain ⟨pmB, pmPrep, pmFlight, pmPending, told⟩ := pmAddExact (c := c) q r
  have off : elvOnHash q.b r = false :=
    Bool.eq_false_iff.mpr (fun mark => ready.out (List.mem_append_left _ (driven.tidy.hashed r mark)))
  obtain ⟨b, added, whenMerged, whenJoined, whenPut⟩ := addJoined now merged driven.tidy ready.out ready.known ready.fs
  unfold DriverSide.elvAddRequest
  dsimp only
  rw [pmB, added]
  dsimp only
  generalize blkPmAddRequest c q r = u at pmB pmPrep pmFlight pmPending told
  have normalSame : normal c {u with b := b} = normal c q := by
    funext x
    rw [normal, normal, told.pm]
  cases gone' : (merged && insertionPoint (q.b.req r) point == .sortMerge) with
  | true =>
    rw [if_pos rfl, if_pos rfl]
    have moved := whenMerged gone'
    have counts : ∀ d, countsAt {u with b := b} d = countsAt q d := fun d =>
      countsSame (t := {u with b := b}) moved.same pmPrep d
    have out : r ∉ places b := fun there => ready.out (moved.places.mem_iff.mp there)
    have off' : elvOnHash b r = false :=
      Bool.eq_false_iff.mpr (fun mark => out (List.mem_append_left _ (moved.tidy.hashed r mark)))
    obtain ⟨t, put, sameB, prep, untold, pending, flight⟩ := putExact (c := c) (q := {u with b := b}) out off'
    have idle : ∀ d, countsAt q d r = false := by
      intro d
      have idle' : (q.b.req r).cmdFlags.started = false := ready.idle
      rw [countsAt, blkAccountRq, idle']
      rfl
    have prepT : t.prep = q.prep := prep.trans pmPrep
    have toldT : Told c q t r := ⟨untold.status.trans told.status, untold.resumes.trans told.resumes,
      fun x => (untold.pm x).trans (told.pm x)⟩
    have movedDriven' := movedDriven driven moved
    refine ⟨t, put, ⟨?_, ?_, ?_, fun x there => ?_, fun d => ?_, ?_⟩, toldT, prepT, ?_, ?_⟩
    · exact sameB ▸ moved.tidy
    · rw [sameB]
      exact movedDriven'.apart
    · rw [sameB]
      exact movedDriven'.idle
    · rw [sameB]
      exact movedDriven'.started x there
    · have same : countsAt t d = countsAt q d := by
        rw [← counts d]
        funext x
        rw [countsAt, countsAt, sameB, prep]
      rw [flight, same, counts d, idle d, ← driven.inFlight d]
      change u.inFlight d - 0 = q.inFlight d
      rw [pmFlight]
      exact BitVec.sub_zero _
    · have same : normal c t = normal c q := by
        funext x
        rw [normal, normal, prepT]
      rw [pending, sameB, same, normalSame]
      change u.nrPending - _ + _ = _
      rw [pmPending, BitVec.add_sub_cancel]
      exact driven.pending.trans (congrArg _ ((moved.places.append_right held).countP_eq _).symm)
    · rw [sameB]
      exact moved.places
    · refine ⟨fun x => ?_, fun x there => ?_, fun put' x there => ?_⟩
      · rw [sameB]
        exact congrArg (fun view => view.2.2) (moved.same x)
      · rw [sameB] at there
        exact Or.inl (moved.shrinks x there)
      · rw [sameB] at there
        exact whenPut put' x there
  | false =>
    rw [if_neg Bool.false_ne_true, if_neg Bool.false_ne_true]
    have joined := whenJoined gone'
    have counts : ∀ d, countsAt {u with b := b} d = countsAt q d := fun d =>
      countsSame (t := {u with b := b}) joined.same pmPrep d
    have whole : (places b ++ held).Perm (r :: (places q.b ++ held)) := joined.places.append_right held
    refine ⟨_, rfl, ⟨joined.tidy, ?_, fun x there => ?_, fun x there => ?_, fun d => ?_, ?_⟩,
      ⟨told.status, told.resumes, told.pm⟩, pmPrep, joined.places,
      fun x => congrArg (fun view => view.2.2) (joined.same x), joined.shrinks, whenPut⟩
    · refine whole.nodup_iff.mpr (List.nodup_cons.mpr ⟨fun there => ?_, driven.apart⟩)
      exact (List.mem_append.mp there).elim ready.out ready.free
    · refine (congrArg Prod.fst (joined.same x)).trans ?_
      rcases joined.shrinks x there with old | rfl
      · exact driven.idle x old
      · exact ready.idle
    · exact (congrArg Prod.fst (joined.same x)).trans (driven.started x there)
    · rw [counts d, ← driven.inFlight d]
      change u.inFlight d = q.inFlight d
      rw [pmFlight]
    · rw [normalSame, whole.countP_eq, ← countMore, ← driven.pending]
      change u.nrPending + _ = _
      rw [pmPending, BitVec.add_assoc, BitVec.add_comm (oneIf _), ← BitVec.add_assoc]

/- Put back, a request leaves the driver and is first on the queue. -/
theorem requeueDriven (now : Timespec) (driven : Driven c q held gone) {r : Ref} (member : r ∈ held) :
    ∃ t, blkRequeueRequest c now q r = some t ∧ Driven c t (held.erase r) gone ∧ t.rpmStatus = q.rpmStatus ∧
    q.resumes ≤ t.resumes ∧ t.prep = q.prep ∧ (places t.b).Perm (r :: places q.b) ∧
    (∀ x, (t.b.req x).dataLen = (q.b.req x).dataLen) ∧ ∀ x ∈ t.b.queued, x ∈ q.b.queued := by
  have out := heldOut driven member
  have split' : held.Perm (r :: held.erase r) := List.perm_cons_erase member
  have onceHeld : held.Nodup := (List.nodup_append.mp driven.apart).2.1
  obtain ⟨cB, cPrep, cPending, cUntold, cFlight⟩ := countExact q r (-1)
  have notListed : ¬ queuedRq q.b r := out
  rw [blkRequeueRequest, if_neg notListed, DriverSide.elvRequeueRequest]
  generalize before : blkPmRequeueRequest c {count q r (-1) with
    b := (count q r (-1)).b.setFlags r (fun f => {f with started := false})} r = u
  have pm : u.b = q.b.setFlags r (fun f => {f with started := false}) ∧ u.prep = q.prep ∧
      u.inFlight = (count q r (-1)).inFlight ∧ u.rpmStatus = q.rpmStatus ∧ u.resumes = q.resumes ∧
      u.nrPending = q.nrPending - oneIf (normal c q r) := by
    have same : normal c {count q r (-1) with b := (count q r (-1)).b.setFlags r (fun f => {f with started := false})} r =
        normal c q r := untoldNormal cUntold r
    rw [← before, blkPmRequeueRequest, same, oneIf]
    split
    · exact ⟨by rw [cB], cPrep, rfl, cUntold.status, cUntold.resumes, by rw [cPending]⟩
    · exact ⟨by rw [cB], cPrep, rfl, cUntold.status, cUntold.resumes, cPending.trans (BitVec.sub_zero _).symm⟩
  obtain ⟨uB, uPrep, uFlight, uStatus, uResumes, uPending⟩ := pm
  have others : ∀ x, x ≠ r → u.b.req x = q.b.req x := fun x other => by rw [uB]; exact if_neg other
  have here : u.b.req r = {q.b.req r with cmdFlags := {(q.b.req r).cmdFlags with started := false}} := by
    rw [uB]
    exact if_pos rfl
  have marks : ∀ x, hashView (u.b.req x) = hashView (q.b.req x) := by
    rw [uB]
    exact setReqHash q.b r (fun rq => {rq with cmdFlags := {rq.cmdFlags with started := false}}) (fun _ => rfl)
  obtain ⟨tidyU, listsU, queuedU⟩ := quietTidy (c := u.b) driven.tidy (by rw [uB]; rfl) (by rw [uB]; rfl)
    (by rw [uB]; rfl) marks
  have apartOf : ∀ x ∈ held.erase r, x ≠ r := fun x there => (onceHeld.mem_erase_iff.mp there).1
  have drivenU : Driven c u (held.erase r) gone := by
    refine ⟨tidyU, ?_, fun x there => ?_, fun x there => ?_, fun d => ?_, ?_⟩
    · rw [listsU]
      exact driven.apart.sublist ((List.erase_sublist).append_left _)
    · rw [queuedU] at there
      have apart : x ≠ r := fun same => out (List.mem_append_left _ (same ▸ there))
      rw [startedFlag, others x apart]
      exact driven.idle x there
    · rw [startedFlag, others x (apartOf x there)]
      exact driven.started x (List.mem_of_mem_erase there)
    · have same : (held.erase r).countP (countsAt u d) = (held.erase r).countP (countsAt q d) := by
        refine List.countP_congr (fun x there => ?_)
        rw [countsAt, countsAt, others x (apartOf x there), uPrep]
      rw [same, ← countOne (countsAt q d) r, ← split'.countP_eq, ← driven.inFlight d, uFlight, cFlight d, oneIf]
      split
      · exact (BitVec.sub_eq_add_neg ..).symm
      · exact (BitVec.add_zero _).trans (BitVec.sub_zero _).symm
    · have same : normal c u = normal c q := by
        funext x
        rw [normal, normal, uPrep]
      have perm : (places q.b ++ held).Perm (r :: (places q.b ++ held.erase r)) :=
        (split'.append_left _).trans List.perm_middle
      rw [uPending, same, listsU, BitVec.sub_add_comm, driven.pending, perm.countP_eq, countOne]
  have point : insertionPoint (u.b.req r) .requeue = .requeue := by
    unfold insertionPoint
    split
    · rfl
    · rw [if_neg (by simp)]
  have ready : Ready u (held.erase r) r .requeue := by
    refine ⟨listsU ▸ out, fun there => apartOf r there rfl, ?_, ?_, ?_⟩
    · rw [startedFlag, here]
    · rw [point]
      exact fun h => by cases h
    · rw [point]
      exact fun h => h.elim (fun h => by cases h) (fun h => by cases h)
  obtain ⟨t, added, drivenT, told, prepT, lists, landed⟩ := addDriven now false drivenU ready
  have len : ∀ x, (u.b.req x).dataLen = (q.b.req x).dataLen := by
    rw [uB]
    exact setReqKeeps Request.dataLen q.b r (fun rq => {rq with cmdFlags := {rq.cmdFlags with started := false}})
      (fun _ => rfl)
  refine ⟨t, added, drivenT, told.status.trans uStatus, ?_, prepT.trans uPrep, ?_,
    fun x => (landed.len x).trans (len x), fun x there => queuedU ▸ landed.front point x there⟩
  · rw [told.resumes, ← uResumes]
    split
    · exact Nat.le_succ _
    · exact Nat.le_refl _
  · rw [Bool.false_and, if_neg Bool.false_ne_true, listsU] at lists
    exact lists

end

section
variable {c : Config} {q t : DriverQueue} {held : List Ref} {gone : Nat}

/- A merge grows the survivor and moves marks of the hash. -/
def mergeView (rq : Request) : Bool × CmdType × Bool := (rq.cmdFlags.started, rq.cmdType, rq.cmdFlags.sorted)

theorem mergedView {a b : BlockState} {rq next : Ref} (merged : elvMergeRequests a rq next = some b) (x : Ref) :
    mergeView (b.req x) = mergeView (a.req x) ∧ (b.req x).dataLen = (a.req x).dataLen := by
  have hashing : ∀ (d : BlockState) (r : Ref) (on : Bool), ∀ y,
      (mergeView ((d.setFlags r (fun f => {f with hashed := on})).req y),
        ((d.setFlags r (fun f => {f with hashed := on})).req y).dataLen) = (mergeView (d.req y), (d.req y).dataLen) :=
    fun d r on y => setReqKeeps (fun rq => (mergeView rq, rq.dataLen)) d r
      (fun rq => {rq with cmdFlags := {rq.cmdFlags with hashed := on}}) (fun _ => rfl) y
  have unhashing : ∀ (d : BlockState) (r : Ref), ∀ y,
      (mergeView ((elvRqhashDel d r).req y), ((elvRqhashDel d r).req y).dataLen) =
        (mergeView (d.req y), (d.req y).dataLen) := by
    intro d r y
    unfold elvRqhashDel
    split
    · exact hashing d r false y
    · rfl
  have both : (mergeView (b.req x), (b.req x).dataLen) = (mergeView (a.req x), (a.req x).dataLen) := by
    unfold elvMergeRequests at merged
    simp only [repositionExact, Option.map_some, Option.some.injEq] at merged
    subst merged
    cases (a.req next).cmdFlags.sorted with
    | true =>
      simp only [if_true]
      exact (unhashing _ next x).trans ((hashing _ rq true x).trans (hashing _ rq false x))
    | false =>
      simp only [Bool.false_eq_true, if_false]
      exact (hashing _ rq true x).trans (hashing _ rq false x)
  exact ⟨congrArg Prod.fst both, congrArg Prod.snd both⟩

theorem absorbView (b : BlockState) (rq next x : Ref) : mergeView ((Merging.absorb b rq next).req x) = mergeView (b.req x) :=
  setReqKeeps mergeView b rq (fun r => {r with dataLen := r.dataLen + (b.req next).dataLen}) (fun _ => rfl) x

/- Of two queued requests that are merged one leaves the queue and is put. -/
theorem mergeDriven (driven : Driven c q held gone) {rq next : Ref} (inRq : rq ∈ q.b.queued) (inNext : next ∈ q.b.queued)
    (apart : rq ≠ next) (segments : BitVec 16) : ∃ t, mergeQueued c q rq next segments = some t ∧
    Driven c t held gone ∧ Untold q t ∧ (places q.b).Perm (next :: places t.b) ∧
    (∀ x, x ≠ rq → (t.b.req x).dataLen = (q.b.req x).dataLen) ∧
    t.prep = (q.setPrep rq (fun p => {p with nrPhysSegments := segments})).prep ∧
    t.b.queued = q.b.queued.erase next := by
  have nodup := linkedQueued driven.tidy.linked
  have sorted : sortedFlag (Merging.absorb q.b rq next) next = true :=
    (congrArg (fun v => v.2.2) (absorbView q.b rq next next)).trans (driven.tidy.sorted next inNext)
  obtain ⟨b, merged⟩ : ∃ b, elvMergeRequests (Merging.absorb q.b rq next) rq next = some b := by
    unfold elvMergeRequests
    simp only [repositionExact, Option.map_some]
    exact ⟨_, rfl⟩
  have view : ∀ x, mergeView (b.req x) = mergeView (q.b.req x) := fun x =>
    (mergedView merged x).1.trans (absorbView q.b rq next x)
  obtain ⟨higher, lower, head, count', sortedB, hashedB⟩ := mergeSortedCases sorted merged
  have queued : b.queued = q.b.queued.erase next := by
    rw [BlockState.queued, higher, lower]
    exact eraseBoth nodup next
  have headB : b.q.queueHead = q.b.q.queueHead := by
    rw [head]
    exact List.erase_of_not_mem (linkedApart driven.tidy.linked inNext)
  have split' : (places q.b).Perm (next :: places b) := by
    rw [places, places, queued, headB]
    exact (List.perm_cons_erase inNext).append_right _
  have once : (next :: places b).Nodup := split'.nodup_iff.mp driven.tidy.linked.once
  have tidy : Tidy b := by
    refine ⟨⟨(List.nodup_cons.mp once).2, ?_⟩, fun x mark => ?_, fun x there => ?_⟩
    · rw [count', queued, List.length_erase_of_mem inNext]
      change q.b.q.nrSorted - 1 = _
      rw [driven.tidy.linked.counted]
      exact countDown (List.length_pos_of_mem inNext)
    · obtain ⟨here, other⟩ := hashedB x mark
      rw [queued]
      refine nodup.mem_erase_iff.mpr ⟨other, ?_⟩
      rcases here with old | rfl
      · have same : elvOnHash (Merging.absorb q.b rq next) x = elvOnHash q.b x :=
          setReqKeeps (fun rq => rq.cmdFlags.hashed) q.b rq
            (fun r => {r with dataLen := r.dataLen + (q.b.req next).dataLen}) (fun _ => rfl) x
        exact driven.tidy.hashed x (same.symm.trans old)
      · exact inRq
    · rw [queued] at there
      exact (congrArg (fun v => v.2.2) (view x)).trans (driven.tidy.sorted x (List.mem_of_mem_erase there))
  have notHeld : next ∉ held := fun there => heldOut driven there (List.mem_append_left _ inNext)
  generalize before : (({q with b := b} : DriverQueue).setPrep rq (fun p => {p with nrPhysSegments := segments})) = u
  have uB : u.b = b := by rw [← before]; rfl
  have uPrep : u.prep = (q.setPrep rq (fun p => {p with nrPhysSegments := segments})).prep := by rw [← before]; rfl
  have uSame : ∀ x, (u.prep x).pm = (q.prep x).pm ∧ (u.prep x).sync = (q.prep x).sync := by
    intro x
    rw [uPrep]
    simp only [DriverQueue.setPrep]
    split <;> exact ⟨rfl, rfl⟩
  have uRest : u.nrPending = q.nrPending ∧ u.inFlight = q.inFlight ∧ Untold q u := by
    refine ⟨by rw [← before]; rfl, by rw [← before]; rfl, ⟨by rw [← before]; rfl, by rw [← before]; rfl, fun x => ?_⟩⟩
    exact (uSame x).1
  have out : next ∉ places u.b := uB ▸ (List.nodup_cons.mp once).1
  have off : elvOnHash u.b next = false := by
    rw [uB]
    exact Bool.eq_false_iff.mpr (fun mark => (hashedB next mark).2 rfl)
  obtain ⟨t, put, tB, tPrep, untold, pending, flight⟩ := putExact (c := c) out off
  have counts : ∀ d, countsAt u d = countsAt q d := by
    intro d
    funext x
    have started := congrArg Prod.fst (view x)
    have type := congrArg (fun v => v.2.1) (view x)
    rw [countsAt, countsAt, blkAccountRq, blkAccountRq, (uSame x).2, uB]
    change ((b.req x).cmdFlags.started && (b.req x).cmdType == .fs && _) = _
    rw [show (b.req x).cmdFlags.started = (q.b.req x).cmdFlags.started from started,
      show (b.req x).cmdType = (q.b.req x).cmdType from type]
  have idle : ∀ d, countsAt q d next = false := by
    intro d
    have idle' : (q.b.req next).cmdFlags.started = false := driven.idle next inNext
    rw [countsAt, blkAccountRq, idle']
    rfl
  have normalSame : normal c u = normal c q := funext (untoldNormal uRest.2.2)
  refine ⟨t, ?_, ⟨?_, ?_, fun x there => ?_, fun x there => ?_, fun d => ?_, ?_⟩, untoldTrans uRest.2.2 untold, ?_,
    fun x other => ?_, tPrep.trans uPrep, by rw [tB, uB]; exact queued⟩
  · rw [mergeQueued, merged]
    exact (congrArg (blkPutRequest c · next) before).trans put
  · rw [tB, uB]
    exact tidy
  · rw [tB, uB]
    exact (List.nodup_cons.mp ((split'.append_right held).nodup_iff.mp driven.apart)).2
  · rw [tB, uB] at there ⊢
    rw [queued] at there
    exact (congrArg Prod.fst (view x)).trans (driven.idle x (List.mem_of_mem_erase there))
  · rw [tB, uB]
    exact (congrArg Prod.fst (view x)).trans (driven.started x there)
  · have same : countsAt t d = countsAt u d := by
      funext x
      rw [countsAt, countsAt, tB, tPrep]
    rw [flight, same, counts d, idle d, uRest.2.1, ← driven.inFlight d]
    exact BitVec.sub_zero _
  · have same : normal c t = normal c u := funext (untoldNormal untold)
    have perm : (places q.b ++ held).Perm (next :: (places b ++ held)) := split'.append_right held
    rw [pending, tB, uB, same, normalSame, uRest.1, BitVec.sub_add_comm, driven.pending, perm.countP_eq, countOne]
  · rw [tB, uB]
    exact split'
  · rw [tB, uB, (mergedView merged x).2]
    exact congrArg Request.dataLen (if_neg other)

end

end KernelLabs.DriverCalls
