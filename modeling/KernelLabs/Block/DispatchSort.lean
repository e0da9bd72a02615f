import KernelLabs.Library.CircularScan
import KernelLabs.Block.DriverSide

/-! Sorting into the dispatch list, for elevators that leave the order to it: `elv_dispatch_sort`
looks for the place from the back, from the sector on where the driver was last. -/
namespace KernelLabs.DispatchSort
open Block DriverSide CircularScan Runs

/- `REQ_DISCARD` and the direction of the data. -/
structure Way where
  discard : Bool
  write : Bool
  deriving DecidableEq, Repr

/- The loop breaks at `pos`. -/
def sortStops (way : Ref → Way) (b : BlockState) (r pos : Ref) : Bool :=
  let boundary := b.q.endSector
  if (way r).discard != (way pos).discard then true
  else if (way r).write != (way pos).write then true
  else if (b.req pos).cmdFlags.softBarrier || (b.req pos).cmdFlags.started then true
  else if boundary ≤ b.pos r then
    if b.pos pos < boundary then false else decide (b.pos pos ≤ b.pos r)
  else if boundary ≤ b.pos pos then true
  else decide (b.pos pos ≤ b.pos r)

def elvDispatchSort (way : Ref → Way) (b : BlockState) (r : Ref) : BlockState :=
  let b := if b.q.lastMerge = some r then {b with q := {b.q with lastMerge := none}} else b
  let b := elvRqhashDel b r
  let b := {b with q := {b.q with nrSorted := b.q.nrSorted - 1}}
  {b with q := {b.q with queueHead := scanBackAdd (sortStops way b r) r b.q.queueHead}}

/- Among requests of one way the loop goes by how far the driver has to go from the boundary. -/
theorem stopsExact {way : Ref → Way} {b : BlockState} {r y : Ref} (same : way r = way y)
    (plain : (b.req y).cmdFlags.softBarrier = false) : sortStops way b r y =
    ((b.req y).cmdFlags.started || decide (forward b.q.endSector (b.pos y) ≤ forward b.q.endSector (b.pos r))) := by
  rw [sortStops, same, plain]
  simp only [bne_self_eq_false, Bool.false_eq_true, if_false, Bool.false_or]
  cases (b.req y).cmdFlags.started with
  | true => rfl
  | false =>
    have bounds := And.intro (b.pos y).isLt (And.intro (b.pos r).isLt b.q.endSector.isLt)
    simp only [Bool.false_eq_true, if_false, Bool.false_or, forward, BitVec.toNat_sub, BitVec.le_def, BitVec.lt_def]
    split
    · split
      · rename_i above below
        exact (decide_eq_false (by omega)).symm
      · rename_i above behind
        exact decide_eq_decide.mpr (by omega)
    · split
      · rename_i below above
        exact (decide_eq_true (by omega)).symm
      · rename_i below behind
        exact decide_eq_decide.mpr (by omega)

/- A queue that its elevator only fills by sorting, and the end of the last request that the
driver has looked at. -/
structure Sweep where
  q : DriverQueue
  way : Ref → Way
  last : Sector

inductive Op where
  | sort (r : Ref) (rq : Request) (way : Way)
  | peek (rounds : Nat → PeekRound)
  | fetch (rounds : Nat → PeekRound)

def waiting (s : Sweep) : List Ref := s.q.b.q.queueHead.filter (fun r => !(s.q.b.req r).cmdFlags.started)

def place (s : Sweep) (r : Ref) (rq : Request) (way : Way) : Sweep :=
  {s with q := {s.q with b := s.q.b.setReq r (fun _ => rq)}, way := fun x => if x = r then way else s.way x}

/- Neither starts within the other. -/
def Clear (b : BlockState) (x y : Ref) : Prop :=
  b.sectors x ≤ forward (b.pos x) (b.pos y) ∧ b.sectors y ≤ forward (b.pos y) (b.pos x)
instance (b : BlockState) (x y : Ref) : Decidable (Clear b x y) := by unfold Clear; infer_instance

/- A new request, of the way of the others and apart from those that wait. -/
def Sortable (s : Sweep) (r : Ref) (rq : Request) (way : Way) : Prop :=
  r ∉ s.q.b.q.queueHead ∧ rq.cmdFlags.softBarrier = false ∧ rq.cmdFlags.started = false ∧
    (∀ x ∈ s.q.b.q.queueHead, s.way x = way) ∧ ∀ x ∈ waiting s, Clear (place s r rq way).q.b x r
instance (s : Sweep) (r : Ref) (rq : Request) (way : Way) : Decidable (Sortable s r rq way) := by
  unfold Sortable; infer_instance

def lookedAt (s : Sweep) (answer : Option Ref) (q : DriverQueue) : Sweep :=
  {s with q := q, last := match answer with | some r => q.b.endOf r | none => s.last}

/- The driver has no `prep_rq_fn`. A request that may not be sorted in changes nothing. -/
def step (c : Config) (s : Sweep) : Op → Option Sweep
  | .sort r rq way =>
    if Sortable s r rq way then
      let s := place s r rq way
      some {s with q := {s.q with b := elvDispatchSort s.way s.q.b r}}
    else some s
  | .peek rounds => (blkPeekRequest {c with prepFn := false} rounds 1 s.q).map fun (answer, q) => lookedAt s answer q
  | .fetch rounds => (blkFetchRequest {c with prepFn := false} rounds 1 s.q).map fun (answer, q) => lookedAt s answer q

/- What a scan and the driver's looking leave alone of a request. -/
def scanView (rq : Request) : Sector × BitVec 32 × Bool := (rq.sector, rq.dataLen, rq.cmdFlags.softBarrier)

def seen (b : BlockState) (r : Ref) : Bool := (b.req r).cmdFlags.started

structure Kept (b t : BlockState) : Prop where
  lists : t.queued = b.queued
  edge : t.q.boundaryRq = b.q.boundaryRq
  view : ∀ x, scanView (t.req x) = scanView (b.req x)

section
variable {b t u : BlockState}

theorem keptPos (kept : Kept b t) (x : Ref) : t.pos x = b.pos x := congrArg Prod.fst (kept.view x)

theorem keptLen (kept : Kept b t) (x : Ref) : (t.req x).dataLen = (b.req x).dataLen :=
  congrArg (fun view => view.2.1) (kept.view x)

theorem keptSectors (kept : Kept b t) (x : Ref) : t.sectors x = b.sectors x := by
  rw [BlockState.sectors, BlockState.sectors, blkRqSectors, blkRqSectors, blkRqBytes, blkRqBytes, keptLen kept x]

theorem keptClear (kept : Kept b t) {x y : Ref} (clear : Clear b x y) : Clear t x y := by
  rw [Clear, keptSectors kept, keptSectors kept, keptPos kept, keptPos kept]
  exact clear

theorem keptTrans (first : Kept b t) (second : Kept t u) : Kept b u :=
  ⟨second.lists.trans first.lists, second.edge.trans first.edge, fun x => (second.view x).trans (first.view x)⟩

theorem setReqKept (b : BlockState) (r : Ref) (f : Request → Request) (keeps : ∀ rq, scanView (f rq) = scanView rq) :
    Kept b (b.setReq r f) := by
  refine ⟨rfl, rfl, fun x => ?_⟩
  simp only [BlockState.setReq]
  split
  · exact keeps _
  · rfl

theorem endOfSplit (b : BlockState) (r : Ref) : b.endOf r = b.pos r + BitVec.ofNat 64 (b.sectors r) := by
  rw [BlockState.endOf, rqEndSector, BlockState.pos, BlockState.sectors]
  congr 1
  rw [BitVec.ofNat_toNat]

theorem sortExact (way : Ref → Way) (b : BlockState) (r : Ref) : Kept b (elvDispatchSort way b r) ∧
    (elvDispatchSort way b r).q.queueHead =
      scanBackAdd (sortStops way (elvDispatchSort way b r) r) r b.q.queueHead ∧
    (elvDispatchSort way b r).q.endSector = b.q.endSector ∧
    (∀ x, seen (elvDispatchSort way b r) x = seen b x) ∧
    ∀ x, elvOnHash (elvDispatchSort way b r) x = (elvOnHash b x && x != r) := by
  generalize noted : (if b.q.lastMerge = some r then {b with q := {b.q with lastMerge := none}} else b) = d
  have same : d.req = b.req ∧ d.queued = b.queued ∧ d.q.boundaryRq = b.q.boundaryRq ∧
      d.q.endSector = b.q.endSector ∧ d.q.queueHead = b.q.queueHead := by
    rw [← noted]
    split <;> exact ⟨rfl, rfl, rfl, rfl, rfl⟩
  obtain ⟨req, lists, edge, stands, head⟩ := same
  have unhashed : (elvRqhashDel d r).q = d.q ∧ (∀ x, scanView ((elvRqhashDel d r).req x) = scanView (d.req x)) ∧
      ∀ x, seen (elvRqhashDel d r) x = seen d x := by
    unfold elvRqhashDel
    split
    · refine ⟨rfl, (setReqKept d r (fun rq => {rq with cmdFlags := {rq.cmdFlags with hashed := false}})
        (fun _ => rfl)).view, fun x => ?_⟩
      simp only [seen, BlockState.setFlags, BlockState.setReq]
      split <;> rfl
    · exact ⟨rfl, fun _ => rfl, fun _ => rfl⟩
  obtain ⟨queue, view, flag⟩ := unhashed
  have whole : elvDispatchSort way b r = {elvRqhashDel d r with q := {(elvRqhashDel d r).q with
      nrSorted := (elvRqhashDel d r).q.nrSorted - 1,
      queueHead := scanBackAdd (sortStops way {elvRqhashDel d r with
        q := {(elvRqhashDel d r).q with nrSorted := (elvRqhashDel d r).q.nrSorted - 1}} r) r
        (elvRqhashDel d r).q.queueHead}} := by
    rw [← noted]
    rfl
  rw [whole]
  refine ⟨⟨?_, ?_, fun x => ?_⟩, ?_, ?_, fun x => ?_, fun x => ?_⟩
  · rw [← lists]
    simp only [BlockState.queued, queue]
  · rw [← edge]
    simp only [queue]
  · rw [← req]
    exact view x
  · simp only [queue, head]
    rfl
  · rw [← stands]
    simp only [queue]
  · exact (flag x).trans (by rw [seen, seen, req])
  · exact (rqhashDelOnHash d r x).trans (by rw [elvOnHash, elvOnHash, req])

end

/- What a look at the top of the queue leaves. -/
structure Looked (b t : BlockState) (answer : Option Ref) : Prop where
  kept : Kept b t
  head : t.q.queueHead = b.q.queueHead
  hash : ∀ x, elvOnHash t x = elvOnHash b x
  none' : answer = none → t.q.endSector = b.q.endSector ∧ ∀ x, seen t x = seen b x
  some' : ∀ r, answer = some r → b.q.queueHead.head? = some r ∧ t.q.endSector = b.endOf r ∧
    ∀ x, seen t x = (seen b x || x == r)

section
variable {c : Config} {q : DriverQueue}

theorem nextBare {b : BlockState} (bare : b.queued = []) (now : Timespec) :
    Looked b (Block.elvNextRequest now b).2 none ∧ (Block.elvNextRequest now b).1 = b.q.queueHead.head? := by
  cases head : b.q.queueHead with
  | cons r rest =>
    rw [Stamps.nextOfHead now head]
    have kept := setReqKept b r (fun rq => {rq with startService := now}) (fun _ => rfl)
    refine ⟨⟨kept, rfl, fun x => ?_, fun _ => ⟨rfl, fun x => ?_⟩, (fun _ no => by cases no)⟩, rfl⟩
    · simp only [elvOnHash, BlockState.setReq]
      split <;> rfl
    · simp only [seen, BlockState.setReq]
      split <;> rfl
  | nil =>
    obtain ⟨higher, lower⟩ := List.append_eq_nil_iff.mp bare
    have idle : greedyDispatch b false = none := by
      rw [greedyDispatch, targetNone.mpr ⟨higher, lower⟩]
      rfl
    rw [Block.elvNextRequest]
    split
    · rename_i r rest filled
      rw [head] at filled
      cases filled
    · have still : Looked b b none :=
        ⟨⟨rfl, rfl, fun _ => rfl⟩, rfl, fun _ => rfl, fun _ => ⟨rfl, fun _ => rfl⟩, (fun _ no => by cases no)⟩
      split
      · exact ⟨⟨⟨rfl, rfl, fun _ => rfl⟩, rfl, fun _ => rfl, fun _ => ⟨rfl, fun _ => rfl⟩, (fun _ no => by cases no)⟩, rfl⟩
      · split
        · exact ⟨still, rfl⟩
        · split
          · exact ⟨still, rfl⟩
          · rename_i t moves
            rw [idle] at moves
            cases moves

theorem noteExact {s : DriverQueue} {r : Ref} (top : s.b.q.queueHead.head? = some r) (edge : s.b.q.boundaryRq = none) :
    Looked s.b (noteEnd (markStarted s r) r).b (some r) := by
  have kept := setReqKept s.b r (fun rq => {rq with cmdFlags := {rq.cmdFlags with started := true}}) (fun _ => rfl)
  have noted : noteEnd (markStarted s r) r = {markStarted s r with b := {(markStarted s r).b with
      q := {(markStarted s r).b.q with endSector := (markStarted s r).b.endOf r, boundaryRq := none}}} :=
    if_pos (Or.inl edge)
  rw [noted]
  refine ⟨⟨rfl, edge.symm, kept.view⟩, rfl, fun x => ?_, (fun no => by cases no), fun x same => ?_⟩
  · simp only [elvOnHash, markStarted, BlockState.setFlags, BlockState.setReq]
    split <;> rfl
  · cases Option.some.inj same
    refine ⟨top, ?_, fun x => ?_⟩
    · simp only [markStarted, BlockState.setFlagsEnd]
    · simp only [seen, markStarted, BlockState.setFlags, BlockState.setReq]
      split
      · rename_i same
        simp [same]
      · rename_i other
        simp [other]

theorem lookedTrans {a b t : BlockState} {answer : Option Ref} (first : Looked a b none) (second : Looked b t answer) :
    Looked a t answer where
  kept := keptTrans first.kept second.kept
  head := second.head.trans first.head
  hash x := (second.hash x).trans (first.hash x)
  none' no := by
    obtain ⟨stands, flags⟩ := second.none' no
    obtain ⟨standsF, flagsF⟩ := first.none' rfl
    exact ⟨stands.trans standsF, fun x => (flags x).trans (flagsF x)⟩
  some' r same := by
    obtain ⟨top, stands, flags⟩ := second.some' r same
    have endSame : b.endOf r = a.endOf r := by
      rw [endOfSplit, endOfSplit, keptPos first.kept, keptSectors first.kept]
    exact ⟨first.head ▸ top, stands.trans endSame, fun x => by rw [flags x, (first.none' rfl).2 x]⟩

/- One round is enough without a `prep_rq_fn`. -/
theorem peekExact (rounds : Nat → PeekRound) (bare : q.b.queued = []) (edge : q.b.q.boundaryRq = none) :
    ∃ answer t, blkPeekRequest {c with prepFn := false} rounds 1 q = some (answer, t) ∧ Looked q.b t.b answer := by
  obtain ⟨first, top⟩ := nextBare bare (rounds 0).now
  unfold blkPeekRequest
  dsimp only
  cases taken : Block.elvNextRequest (rounds 0).now q.b with
  | mk next b =>
    rw [taken] at first top
    cases next with
    | none => exact ⟨none, _, rfl, first⟩
    | some r =>
      dsimp only
      split
      · exact ⟨none, _, rfl, first⟩
      · have seenTop : b.q.queueHead.head? = some r := first.head.symm ▸ top.symm
        have whole := lookedTrans first (noteExact (s := {q with b := b}) seenTop (first.kept.edge.trans edge))
        split
        · exact ⟨some r, _, rfl, whole⟩
        · refine ⟨some r, _, rfl, ?_⟩
          unfold addRoom
          split <;> exact whole

end

/- At most one request that was looked at, and behind it those that wait, in the order in which
the driver comes past. -/
structure Swept (s : Sweep) (old rest : List Ref) : Prop where
  head : s.q.b.q.queueHead = old ++ rest
  one : old.length ≤ 1
  once : s.q.b.q.queueHead.Nodup
  bare : s.q.b.queued = []
  edge : s.q.b.q.boundaryRq = none
  stands : s.q.b.q.endSector = s.last
  looked : ∀ r ∈ old, seen s.q.b r = true ∧ s.q.b.endOf r = s.last
  fresh : ∀ r ∈ rest, seen s.q.b r = false
  plain : ∀ r ∈ s.q.b.q.queueHead, (s.q.b.req r).cmdFlags.softBarrier = false ∧ elvOnHash s.q.b r = false
  way : ∀ r ∈ s.q.b.q.queueHead, ∀ x ∈ s.q.b.q.queueHead, s.way r = s.way x
  ahead : Ahead s.last s.q.b.pos rest
  clear : rest.Pairwise (Clear s.q.b)

def start : Sweep :=
  ⟨⟨⟨fun _ => unused, emptyQueue, 0⟩,
    fun _ => ⟨false, false, false, false, 0⟩, fun _ => 0, 0, .active, 0⟩, fun _ => ⟨false, false⟩, 0⟩

section
variable {c : Config} {s : Sweep} {old rest : List Ref}

theorem sweptWaiting (swept : Swept s old rest) : waiting s = rest := by
  have none' : old.filter (fun r => !(s.q.b.req r).cmdFlags.started) = [] :=
    List.filter_eq_nil_iff.mpr (fun r there => by
      have flag : (s.q.b.req r).cmdFlags.started = true := (swept.looked r there).1
      rw [flag]
      exact Bool.false_ne_true)
  have all : rest.filter (fun r => !(s.q.b.req r).cmdFlags.started) = rest :=
    List.filter_eq_self.mpr (fun r there => by
      have flag : (s.q.b.req r).cmdFlags.started = false := swept.fresh r there
      rw [flag]
      rfl)
  rw [waiting, swept.head, List.filter_append, none', all]
  rfl

theorem placeSwept (swept : Swept s old rest) {r : Ref} (new : r ∉ s.q.b.q.queueHead) (rq : Request) (way : Way) :
    Swept (place s r rq way) old rest := by
  have others : ∀ x ∈ s.q.b.q.queueHead, (place s r rq way).q.b.req x = s.q.b.req x := by
    intro x there
    exact if_neg (fun (same : x = r) => new (same ▸ there))
  have ways : ∀ x ∈ s.q.b.q.queueHead, (place s r rq way).way x = s.way x := by
    intro x there
    exact if_neg (fun (same : x = r) => new (same ▸ there))
  have inRest : ∀ x ∈ rest, x ∈ s.q.b.q.queueHead := fun x there => swept.head ▸ List.mem_append_right _ there
  have inOld : ∀ x ∈ old, x ∈ s.q.b.q.queueHead := fun x there => swept.head ▸ List.mem_append_left _ there
  refine ⟨swept.head, swept.one, swept.once, swept.bare, swept.edge, swept.stands, fun x there => ?_, fun x there => ?_,
    fun x there => ?_, fun x inX y inY => ?_, ?_, ?_⟩
  · rw [seen, BlockState.endOf, others x (inOld x there)]
    exact swept.looked x there
  · rw [seen, others x (inRest x there)]
    exact swept.fresh x there
  · rw [elvOnHash, others x there]
    exact swept.plain x there
  · rw [ways x inX, ways y inY]
    exact swept.way x inX y inY
  · refine swept.ahead.imp_of_mem (fun {x y} inX inY order => ?_)
    rw [BlockState.pos, BlockState.pos, others x (inRest x inX), others y (inRest y inY)]
    exact order
  · refine swept.clear.imp_of_mem (fun {x y} inX inY clear => ?_)
    rw [Clear, BlockState.sectors, BlockState.sectors, BlockState.pos, BlockState.pos, others x (inRest x inX),
      others y (inRest y inY)]
    exact clear

/- Sorted in, a request stands where the driver comes past it in turn. -/
theorem sortSwept (swept : Swept s old rest) {r : Ref} {rq : Request} {way : Way} (sortable : Sortable s r rq way) :
    ∃ rest', Swept {place s r rq way with q := {(place s r rq way).q with
      b := elvDispatchSort (place s r rq way).way (place s r rq way).q.b r}} old rest' := by
  obtain ⟨new, soft, unseen, ways, apart⟩ := sortable
  rw [sweptWaiting swept] at apart
  have here : (place s r rq way).q.b.req r = rq := if_pos rfl
  have wayHere : (place s r rq way).way r = way := if_pos rfl
  have waysThere : ∀ x ∈ s.q.b.q.queueHead, (place s r rq way).way x = way := fun x there =>
    (if_neg (fun (same : x = r) => new (same ▸ there))).trans (ways x there)
  have placed := placeSwept swept new rq way
  generalize place s r rq way = p at placed here wayHere waysThere apart
  have newP : r ∉ p.q.b.q.queueHead := by
    rw [placed.head, ← swept.head]
    exact new
  have inP : ∀ x ∈ p.q.b.q.queueHead, p.way x = way := fun x there => waysThere x (by
    rw [swept.head, ← placed.head]
    exact there)
  obtain ⟨kept, head, stands, flags, hash⟩ := sortExact p.way p.q.b r
  generalize elvDispatchSort p.way p.q.b r = t at kept head stands flags hash
  have softAt : ∀ x, (t.req x).cmdFlags.softBarrier = (p.q.b.req x).cmdFlags.softBarrier := fun x =>
    congrArg (fun view => view.2.2) (kept.view x)
  have stops : ∀ x ∈ p.q.b.q.queueHead, sortStops p.way t r x =
      (seen p.q.b x || decide (forward p.last (p.q.b.pos x) ≤ forward p.last (p.q.b.pos r))) := by
    intro x there
    rw [stopsExact (wayHere.trans (inP x there).symm) ((softAt x).trans (placed.plain x there).1), stands, placed.stands,
      keptPos kept, keptPos kept, ← flags x]
    rfl
  have inOld : ∀ x ∈ old, x ∈ p.q.b.q.queueHead := fun x there => placed.head ▸ List.mem_append_left _ there
  have inRest : ∀ x ∈ rest, x ∈ p.q.b.q.queueHead := fun x there => placed.head ▸ List.mem_append_right _ there
  have first : scanBackAdd (sortStops p.way t r) r (old ++ rest) = old ++ scanBackAdd (sortStops p.way t r) r rest :=
    scanBackFront (fun x there => by rw [stops x (inOld x there), (placed.looked x there).1, Bool.true_or]) r rest
  have perm := scanBackPerm (sortStops p.way t r) r rest
  have whole : t.q.queueHead.Perm (r :: p.q.b.q.queueHead) := head ▸ scanBackPerm _ r _
  have unseenP : seen p.q.b r = false := (congrArg (fun rq => rq.cmdFlags.started) here).trans unseen
  refine ⟨scanBackAdd (sortStops p.way t r) r rest, ⟨?_, placed.one, ?_, kept.lists.trans placed.bare,
    kept.edge.trans placed.edge, stands.trans placed.stands, fun x there => ?_, fun x there => ?_, fun x there => ?_,
    fun x inX y inY => ?_, ?_, ?_⟩⟩
  · exact head.trans ((congrArg _ placed.head).trans first)
  · exact whole.nodup_iff.mpr (List.nodup_cons.mpr ⟨newP, placed.once⟩)
  · rw [flags x, endOfSplit, keptPos kept, keptSectors kept, ← endOfSplit]
    exact placed.looked x there
  · rw [flags x]
    rcases List.mem_cons.mp (perm.mem_iff.mp there) with rfl | before
    · exact unseenP
    · exact placed.fresh x before
  · change (t.req x).cmdFlags.softBarrier = false ∧ elvOnHash t x = false
    rw [softAt x, hash x]
    rcases List.mem_cons.mp (whole.mem_iff.mp there) with rfl | before
    · exact ⟨(congrArg (fun rq => rq.cmdFlags.softBarrier) here).trans soft, by simp⟩
    · exact ⟨(placed.plain x before).1, by rw [(placed.plain x before).2, Bool.false_and]⟩
  · have wayOf : ∀ z ∈ t.q.queueHead, p.way z = way := by
      intro z there
      rcases List.mem_cons.mp (whole.mem_iff.mp there) with rfl | before
      · exact wayHere
      · exact inP z before
    exact (wayOf x inX).trans (wayOf y inY).symm
  · have sorted : (scanBackAdd (sortStops p.way t r) r rest).Pairwise
        (fun y z => forward p.last (p.q.b.pos y) ≤ forward p.last (p.q.b.pos z)) :=
      scanBackSorted (fun y there => by rw [stops y (inRest y there), placed.fresh y there, Bool.false_or]) placed.ahead
    refine sorted.imp (fun {y z} order => ?_)
    change forward p.last (t.pos y) ≤ forward p.last (t.pos z)
    rw [keptPos kept, keptPos kept]
    exact order
  · have symmetric : ∀ {y z}, Clear t y z → Clear t z y := fun both => ⟨both.2, both.1⟩
    refine (perm.pairwise_iff symmetric).mpr (List.pairwise_cons.mpr ⟨fun y there => ?_, ?_⟩)
    · exact symmetric (keptClear kept (apart y there))
    · exact placed.clear.imp (fun both => keptClear kept both)

theorem headOnce (swept : Swept s old rest) : (old ++ rest).Nodup := swept.head ▸ swept.once

theorem noneOrOne (swept : Swept s old rest) : old = [] ∨ ∃ r, old = [r] := by
  cases old with
  | nil => exact Or.inl rfl
  | cons r others =>
    have none' : others = [] := List.length_eq_zero_iff.mp (Nat.le_zero.mp (Nat.le_of_succ_le_succ swept.one))
    exact Or.inr ⟨r, none' ▸ rfl⟩

theorem endSame {b t : BlockState} (kept : Kept b t) (x : Ref) : t.endOf x = b.endOf x := by
  rw [endOfSplit, endOfSplit, keptPos kept, keptSectors kept]

/- A look leaves the list and the requests as they are; what is left to say is how far it went. -/
theorem sweptLooked (swept : Swept s old rest) {found : Option Ref} {q : DriverQueue} (looked : Looked s.q.b q.b found)
    {old' rest' : List Ref} (head : old ++ rest = old' ++ rest') (one : old'.length ≤ 1)
    (stands : q.b.q.endSector = (lookedAt s found q).last)
    (past : ∀ r ∈ old', seen q.b r = true ∧ s.q.b.endOf r = (lookedAt s found q).last)
    (fresh : ∀ r ∈ rest', seen q.b r = false) (ahead : Ahead (lookedAt s found q).last s.q.b.pos rest')
    (clear : rest'.Pairwise (Clear s.q.b)) : Swept (lookedAt s found q) old' rest' where
  head := looked.head.trans (swept.head.trans head)
  one := one
  once := looked.head ▸ swept.once
  bare := looked.kept.lists.trans swept.bare
  edge := looked.kept.edge.trans swept.edge
  stands := stands
  looked r there := ⟨(past r there).1, (endSame looked.kept r).trans (past r there).2⟩
  fresh := fresh
  plain r there := by
    have soft : (q.b.req r).cmdFlags.softBarrier = (s.q.b.req r).cmdFlags.softBarrier :=
      congrArg (fun view => view.2.2) (looked.kept.view r)
    change (q.b.req r).cmdFlags.softBarrier = false ∧ elvOnHash q.b r = false
    rw [looked.hash r, soft]
    exact swept.plain r (looked.head ▸ there)
  way r inR x inX := swept.way r (looked.head ▸ inR) x (looked.head ▸ inX)
  ahead := by
    refine ahead.imp (fun {y z} order => ?_)
    change forward _ (q.b.pos y) ≤ forward _ (q.b.pos z)
    rw [keptPos looked.kept, keptPos looked.kept]
    exact order
  clear := clear.imp (fun both => keptClear looked.kept both)

theorem lookedNothing (swept : Swept s old rest) {q : DriverQueue} (looked : Looked s.q.b q.b none) :
    Swept (lookedAt s none q) old rest := by
  obtain ⟨stands, flags⟩ := looked.none' rfl
  refine sweptLooked swept looked rfl swept.one (stands.trans swept.stands) (fun r there => ?_) (fun r there => ?_)
    swept.ahead swept.clear
  · rw [flags r]
    exact swept.looked r there
  · rw [flags r]
    exact swept.fresh r there

/- Of a list without repetition the others are not the first. -/
theorem othersApart {r : Ref} {l : List Ref} (once : (r :: l).Nodup) : ∀ x ∈ l, x ≠ r :=
  fun _ there same => (List.nodup_cons.mp once).1 (same ▸ there)

theorem lookedAgain {r : Ref} (swept : Swept s [r] rest) {q : DriverQueue} (looked : Looked s.q.b q.b (some r)) :
    Swept (lookedAt s (some r) q) [r] rest := by
  obtain ⟨_, stands, flags⟩ := looked.some' r rfl
  obtain ⟨seenR, endR⟩ := swept.looked r List.mem_cons_self
  have apart : ∀ x ∈ rest, x ≠ r := othersApart (headOnce swept)
  have last : (lookedAt s (some r) q).last = s.last := (endSame looked.kept r).trans endR
  refine sweptLooked swept looked rfl swept.one (stands.trans (endSame looked.kept r).symm) (fun x there => ?_)
    (fun x there => ?_) (last ▸ swept.ahead) swept.clear
  · cases List.mem_singleton.mp there
    exact ⟨by rw [flags, seenR, Bool.true_or], (endSame looked.kept r).symm⟩
  · rw [flags, swept.fresh x there, Bool.false_or]
    exact beq_false_of_ne (apart x there)

/- A first look moves the driver to the end of the first that waited. -/
theorem lookedFirst {r : Ref} (swept : Swept s [] (r :: rest)) {q : DriverQueue} (looked : Looked s.q.b q.b (some r)) :
    Swept (lookedAt s (some r) q) [r] rest := by
  obtain ⟨_, stands, flags⟩ := looked.some' r rfl
  have apart : ∀ x ∈ rest, x ≠ r := othersApart (headOnce swept)
  obtain ⟨clearR, clearRest⟩ := List.pairwise_cons.mp swept.clear
  have small : s.q.b.sectors r < 2 ^ 64 := Nat.lt_trans (blkRqSectors (s.q.b.req r)).isLt (by decide)
  have past : Ahead (s.q.b.pos r + BitVec.ofNat 64 (s.q.b.sectors r)) s.q.b.pos rest := by
    refine aheadPast swept.ahead (fun y there => ?_)
    rw [BitVec.toNat_ofNat, Nat.mod_eq_of_lt small]
    exact (clearR y there).1
  have last : (lookedAt s (some r) q).last = s.q.b.pos r + BitVec.ofNat 64 (s.q.b.sectors r) :=
    (endSame looked.kept r).trans (endOfSplit s.q.b r)
  refine sweptLooked swept looked rfl (Nat.le_refl _) (stands.trans (endSame looked.kept r).symm) (fun x there => ?_)
    (fun x there => ?_) (last ▸ past) clearRest
  · cases List.mem_singleton.mp there
    exact ⟨by rw [flags]; simp, (endSame looked.kept r).symm⟩
  · rw [flags, swept.fresh x (List.mem_cons_of_mem r there), Bool.false_or]
    exact beq_false_of_ne (apart x there)

theorem lookedTop {r : Ref} (swept : Swept s old rest) {q : DriverQueue} (looked : Looked s.q.b q.b (some r)) :
    ∃ rest', Swept (lookedAt s (some r) q) [r] rest' := by
  have top := (looked.some' r rfl).1
  rw [swept.head] at top
  rcases noneOrOne swept with rfl | ⟨first, rfl⟩
  · cases rest with
    | nil => cases top
    | cons first others =>
      cases Option.some.inj top
      exact ⟨others, lookedFirst swept looked⟩
  · cases Option.some.inj top
    exact ⟨rest, lookedAgain swept looked⟩

/- What waits and is looked at comes first of all that wait. -/
theorem topNearest {r : Ref} (swept : Swept s old rest) (top : s.q.b.q.queueHead.head? = some r) (waits : r ∈ rest) :
    ∀ x ∈ rest, forward s.last (s.q.b.pos r) ≤ forward s.last (s.q.b.pos x) := by
  rw [swept.head] at top
  rcases noneOrOne swept with rfl | ⟨first, rfl⟩
  · cases rest with
    | nil => cases top
    | cons first others =>
      cases Option.some.inj top
      intro x there
      rcases List.mem_cons.mp there with rfl | behind
      · exact Nat.le_refl _
      · exact (List.pairwise_cons.mp swept.ahead).1 x behind
  · cases Option.some.inj top
    exact absurd rfl (othersApart (headOnce swept) r waits)

/- Taken off, the request that was looked at leaves the others as they are. -/
theorem takenSwept {r : Ref} (swept : Swept s [r] rest) : ∃ q, blkStartRequest s.q r = some q ∧
    Swept {s with q := q} [] rest ∧ q.b.endOf r = s.q.b.endOf r := by
  have head : s.q.b.q.queueHead = r :: rest := swept.head
  have inHead : r ∈ s.q.b.q.queueHead := head ▸ List.mem_cons_self
  have listed : r ∈ s.q.b.q.queueHead ++ s.q.b.queued := List.mem_append_left _ inHead
  have off : ¬ elvOnHash s.q.b r = true := by
    rw [(swept.plain r inHead).2]
    exact Bool.false_ne_true
  have taken : blkStartRequest s.q r = some (count {s.q with b := s.q.b.listDelInit r} r 1) := by
    rw [blkStartRequest, DriverSide.blkDequeueRequest, Stamps.blkDequeueRequest, if_neg (not_not.mpr listed), if_neg off]
    rfl
  have block : (count {s.q with b := s.q.b.listDelInit r} r 1).b = s.q.b.listDelInit r := by
    unfold count
    split <;> rfl
  have left : (s.q.b.listDelInit r).q.queueHead = rest := by
    rw [BlockState.delHead, head, List.erase_cons_head]
  have inside : ∀ x ∈ rest, x ∈ s.q.b.q.queueHead := fun x there => head ▸ List.mem_cons_of_mem r there
  obtain ⟨higher, lower⟩ := List.append_eq_nil_iff.mp swept.bare
  refine ⟨_, taken, ?_⟩
  generalize count {s.q with b := s.q.b.listDelInit r} r 1 = q at block
  refine ⟨⟨?_, Nat.zero_le _, ?_, ?_, ?_, ?_, (fun _ there => by cases there), fun x there => ?_, fun x there => ?_,
    fun x inX y inY => ?_, ?_, ?_⟩, by rw [block]; rfl⟩
  · rw [block, left]
    rfl
  · rw [block, left]
    exact (List.nodup_cons.mp (head ▸ swept.once)).2
  · rw [block, BlockState.queued, BlockState.delHigher, BlockState.delLower, higher, lower]
    rfl
  · rw [block]
    exact swept.edge
  · rw [block]
    exact swept.stands
  · rw [block]
    exact swept.fresh x there
  · rw [block] at there ⊢
    exact swept.plain x (inside x (left ▸ there))
  · rw [block] at inX inY
    exact swept.way x (inside x (left ▸ inX)) y (inside y (left ▸ inY))
  · rw [block]
    exact swept.ahead
  · rw [block]
    exact swept.clear

/- The request that a step hands to the driver, or shows it. -/
def answer (c : Config) (s : Sweep) : Op → Option Ref
  | .sort _ _ _ => none
  | .peek rounds => (blkPeekRequest {c with prepFn := false} rounds 1 s.q).bind Prod.fst
  | .fetch rounds => (blkFetchRequest {c with prepFn := false} rounds 1 s.q).bind Prod.fst

/- A request that was not looked at before is the nearest of those that wait. -/
def ServesNearest (c : Config) (s : Sweep) (op : Op) (_ : Sweep) : Prop :=
  ∀ r, answer c s op = some r → r ∈ waiting s →
    ∀ x ∈ waiting s, forward s.last (s.q.b.pos r) ≤ forward s.last (s.q.b.pos x)

def Scanned (s : Sweep) : Prop := ∃ old rest, Swept s old rest

theorem servesScanned (scanned : Scanned s) (op : Op) (t : Sweep) : ServesNearest c s op t := by
  obtain ⟨old, rest, swept⟩ := scanned
  have nearest : ∀ rounds r, (blkPeekRequest {c with prepFn := false} rounds 1 s.q).bind Prod.fst = some r →
      r ∈ rest → ∀ x ∈ rest, forward s.last (s.q.b.pos r) ≤ forward s.last (s.q.b.pos x) := by
    intro rounds r answered
    obtain ⟨found, u, ran, looked⟩ := peekExact (c := c) rounds swept.bare swept.edge
    rw [ran] at answered
    exact topNearest swept (looked.some' r answered).1
  intro r answered
  rw [sweptWaiting swept]
  cases op with
  | sort r rq way => cases answered
  | peek rounds => exact nearest rounds r answered
  | fetch rounds =>
    refine nearest rounds r ?_
    simp only [answer, blkFetchRequest] at answered
    split at answered <;> try contradiction
    rename_i first u ran
    rw [ran]
    cases started : blkStartRequest u first with
    | none =>
      rw [started] at answered
      cases answered
    | some v =>
      rw [started] at answered
      exact answered

theorem stepScanned (scanned : Scanned s) (op : Op) : ∃ t, step c s op = some t ∧ Scanned t := by
  obtain ⟨old, rest, swept⟩ := scanned
  cases op with
  | sort r rq way =>
    by_cases sortable : Sortable s r rq way
    · obtain ⟨rest', after⟩ := sortSwept swept sortable
      exact ⟨_, if_pos sortable, old, rest', after⟩
    · exact ⟨s, if_neg sortable, old, rest, swept⟩
  | peek rounds =>
    obtain ⟨found, u, ran, looked⟩ := peekExact (c := c) rounds swept.bare swept.edge
    refine ⟨lookedAt s found u, by simp only [step, ran, Option.map_some], ?_⟩
    cases found with
    | none => exact ⟨old, rest, lookedNothing swept looked⟩
    | some r => exact ⟨[r], lookedTop swept looked⟩
  | fetch rounds =>
    obtain ⟨found, u, ran, looked⟩ := peekExact (c := c) rounds swept.bare swept.edge
    cases found with
    | none =>
      exact ⟨lookedAt s none u, by simp only [step, blkFetchRequest, ran, Option.map_some], old, rest,
        lookedNothing swept looked⟩
    | some r =>
      obtain ⟨rest', after⟩ := lookedTop swept looked
      obtain ⟨v, taken, left, endSame⟩ := takenSwept after
      have started : blkStartRequest u r = some v := taken
      have same : lookedAt s (some r) v = {lookedAt s (some r) u with q := v} :=
        congrArg (fun last => ({s with q := v, last := last} : Sweep)) endSame
      refine ⟨lookedAt s (some r) v, by simp only [step, blkFetchRequest, ran, started, Option.map_some], [], rest', ?_⟩
      rw [same]
      exact left

theorem startScanned : Scanned start :=
  ⟨[], [], rfl, Nat.zero_le _, List.nodup_nil, rfl, rfl, rfl, (fun _ there => by cases there),
    (fun _ there => by cases there), (fun _ there => by cases there), (fun _ there => by cases there), List.Pairwise.nil,
    List.Pairwise.nil⟩

end

/- A circular scan: whatever is sorted in between, the driver is served the waiting request that
it comes past next when it goes on from the end of the last one, and from the last sector to
the first. -/
theorem sortServesNearest (c : Config) (ops : List Op) : (∃ t, exec (step c) start ops = some t) ∧
    EachStep (step c) (ServesNearest c) start ops := by
  obtain ⟨t, ran, _⟩ := execTotal (fun _ op scanned => stepScanned scanned op) startScanned ops
  refine ⟨⟨t, ran⟩, eachStepInvariant (fun s op t scanned taken => ?_) (fun s op t scanned _ => ?_) startScanned ops⟩
  · obtain ⟨u, taken', after⟩ := stepScanned (c := c) scanned op
    cases Option.some.inj (taken'.symm.trans taken)
    exact after
  · exact servesScanned scanned op t

def block (first : Sector) : Request :=
  ⟨first, 4096, .fs, ⟨false, false, false, false, true, false⟩, .zero, .zero⟩

def now : Nat → PeekRound := fun _ => ⟨.zero, .ok, false⟩

/- The scan goes up from 64, turns at the end and comes back from the lowest. -/
def upThenAround : List Op :=
  [.sort 1 (block 64) ⟨false, false⟩, .fetch now, .sort 2 (block 8) ⟨false, false⟩, .sort 3 (block 200) ⟨false, false⟩,
    .sort 4 (block 100) ⟨false, false⟩, .sort 5 (block 32) ⟨false, false⟩, .fetch now]

example : (exec (step ⟨false, true, true⟩) start upThenAround).map (fun s => (s.q.b.q.queueHead, s.last)) =
    some ([3, 2, 5], 108) := by decide +kernel

end KernelLabs.DispatchSort
