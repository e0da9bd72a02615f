import KernelLabs.Block.MergeHash
import KernelLabs.Library.Runs
import KernelLabs.Library.Stretches

/-! Runs of requests and bios that meet on the merge hash. The sectors that have arrived
are those of the requests queued and of the requests handed over, whatever was merged. -/
namespace KernelLabs.MergeRuns
open Block Conservation LinkedList MergeHash Neighbours Runs Stretches
open Merging (ElvMerge bioSectors absorb)

/- A length in bytes of whole sectors, of one at least. -/
def WholeSectors (len : BitVec 32) : Prop := 0 < len.toNat ∧ len.toNat % 512 = 0
instance (len : BitVec 32) : Decidable (WholeSectors len) := by unfold WholeSectors; infer_instance

/- Where two requests may be merged: the limit of a request's length is far below the wrap. -/
def Joins (b : BlockState) (rq next : Ref) : Prop :=
  b.endOf rq = b.pos next ∧ (b.req rq).dataLen.toNat + (b.req next).dataLen.toNat < 2 ^ 32

/- What `blk-merge.c` is relied on for. A bio and a request are merged only where they meet, and two
requests too: the first is extended, and then the elevator merges the second into it. What has grown
is tried with the neighbour that the elevator tells. -/
structure MergeRules (m : BlkMerge) (a : BlkAttempt) : Prop where
  triesBack : ∀ b rq bio, m.tryMerge b rq bio = .backMerge → b.endOf rq = bio.biSector
  triesFront : ∀ b rq bio, m.tryMerge b rq bio = .frontMerge →
    b.pos rq - (bioSectors bio).setWidth 64 = bio.biSector
  backFits : ∀ b rq bio, m.llBackMerge b rq bio = true → (b.req rq).dataLen.toNat + bio.biSize.toNat < 2 ^ 32
  frontFits : ∀ b rq bio, m.llFrontMerge b rq bio = true → (b.req rq).dataLen.toNat + bio.biSize.toNat < 2 ^ 32
  attempts : ∀ s rq next, a.blkAttemptReqMerge s rq next = some (false, s) ∨ Joins s.b rq next ∧
    a.blkAttemptReqMerge s rq next =
      (elvMergeRequests m {s with b := absorb s.b rq next} rq next).map fun s => (true, s)
  behind : ∀ s rq, a.attemptBackMerge s rq =
    (greedyLatterRequest s.b rq).elim (some (false, s)) (fun next => a.blkAttemptReqMerge s rq next)
  before : ∀ s rq, a.attemptFrontMerge s rq =
    (greedyFormerRequest s.b rq).elim (some (false, s)) (fun prev => a.blkAttemptReqMerge s prev rq)

/- `arrived` and `fetched` are what a reader of the queue may add up: the sectors that were
accepted so far, and those of the requests the driver has taken. -/
structure Traffic where
  q : HashQueue
  arrived : List Sector
  fetched : List Sector

inductive Op where
  | add (r : Ref) (rq : Request) (tryMerge nomerges noxmerges : Bool)
  | bio (bio : Merging.Bio) (nomerges noxmerges : Bool)
  | dispatch
  | fetch
  | forbid (r : Ref)

def place (s : HashQueue) (r : Ref) (rq : Request) : HashQueue := {s with b := s.b.setReq r (fun _ => rq)}

/- The request was just allocated, and is an ordinary one that carries data. -/
def Fresh (b : BlockState) (r : Ref) (rq : Request) : Prop :=
  r ∉ b.queued ∧ r ∉ b.q.queueHead ∧ rq.cmdType = .fs ∧ rq.cmdFlags.sorted = false ∧
    rq.cmdFlags.hashed = false ∧ WholeSectors rq.dataLen
instance (b : BlockState) (r : Ref) (rq : Request) : Decidable (Fresh b r rq) := by unfold Fresh; infer_instance

section
variable (m : BlkMerge) (a : BlkAttempt)

/- The cases `ELEVATOR_INSERT_SORT_MERGE` and `ELEVATOR_INSERT_SORT`. -/
def elvAddSorted (tryMerge nomerges noxmerges : Bool) (s : HashQueue) (r : Ref) : Option HashQueue :=
  if tryMerge then
    match elvAttemptInsertMerge m a nomerges noxmerges (s.b.queued.length + 1) s r with
    | none => none
    | some (true, s) => some s
    | some (false, s) => elvInsertSort m s r
  else elvInsertSort m s r

def rqStretch (b : BlockState) (r : Ref) : List Sector := stretch (b.pos r) (b.sectors r)

def bioStretch (bio : Merging.Bio) : List Sector := stretch bio.biSector (bioSectors bio).toNat

def takeHead (s : HashQueue) (rest : List Ref) : HashQueue :=
  {s with b := {s.b with q := {s.b.q with queueHead := rest}}}

/- A request in use is not allocated again; a bio that cannot be merged arrives later, as a
request. `none` is a `BUG_ON`, or a loop that does not end. -/
def step (s : Traffic) : Op → Option Traffic
  | .add r rq tryMerge nomerges noxmerges =>
    if Fresh s.q.b r rq then
      let q := place s.q r rq
      (elvAddSorted m a tryMerge nomerges noxmerges q r).map fun t =>
        ⟨t, s.arrived ++ rqStretch q.b r, s.fetched⟩
    else some s
  | .bio bio nomerges noxmerges =>
    if WholeSectors bio.biSize then
      match elvMerge m nomerges noxmerges s.q bio with
      | none => none
      | some (answer, q) => (mergeBio m a q bio answer).map fun (merged, q) =>
        ⟨q, if merged then s.arrived ++ bioStretch bio else s.arrived, s.fetched⟩
    else some s
  | .dispatch => some {s with q := (MergeHash.greedyDispatch s.q false).getD s.q}
  | .fetch =>
    match s.q.b.q.queueHead with
    | [] => some s
    | r :: rest => some ⟨takeHead s.q rest, s.arrived, s.fetched ++ rqStretch s.q.b r⟩
  | .forbid r => some {s with q := forbidMerges s.q r}

end

def initial : Traffic := ⟨⟨⟨fun _ => unused, emptyQueue, 0⟩, fun _ => []⟩, [], []⟩

def Whole (b : BlockState) : Prop := ∀ r ∈ b.queued, WholeSectors (b.req r).dataLen

def gathered (b : BlockState) : List Sector := b.queued.flatMap (rqStretch b)

/- The elevator's requests cover `more` sectors more than before, and the requests already
handed over are as they were. -/
structure Extends (b c : BlockState) (more : List Sector) : Prop where
  gathered : (gathered c).Perm (gathered b ++ more)
  head : c.q.queueHead = b.q.queueHead
  untouched : ∀ x ∈ b.q.queueHead, bare (c.req x) = bare (b.req x)
  whole : Whole c

section
variable {b c d : BlockState}

theorem extendsTrans {more further : List Sector} (first : Extends b c more) (second : Extends c d further) :
    Extends b d (more ++ further) where
  gathered := by
    refine second.gathered.trans ?_
    rw [← List.append_assoc]
    exact first.gathered.append_right further
  head := second.head.trans first.head
  untouched x member := (second.untouched x (first.head ▸ member)).trans (first.untouched x member)
  whole := second.whole

theorem sameStretch (same : SameRequests b c) (x : Ref) : rqStretch c x = rqStretch b x := by
  rw [rqStretch, rqStretch, samePos same, BlockState.sectors, BlockState.sectors, blkRqSectors, blkRqSectors,
    blkRqBytes, blkRqBytes, sameLen same]

theorem sameExtends (same : SameRequests b c) (lists : c.queued = b.queued) (head : c.q.queueHead = b.q.queueHead)
    (whole : Whole b) : Extends b c [] where
  gathered := by
    rw [List.append_nil, gathered, gathered, lists, gatherSame (fun x _ => sameStretch same x)]
  head := head
  untouched x _ := same x
  whole x member := by
    rw [sameLen same]
    exact whole x (lists ▸ member)

/- A queued request with a new range, and nothing else. -/
theorem grownExtends (linked : Linked b) (whole : Whole b) {rq : Ref} (grown : Grown b c rq) (held : rq ∈ b.queued)
    {more : List Sector} (range : (rqStretch c rq).Perm (rqStretch b rq ++ more))
    (len : WholeSectors (c.req rq).dataLen) : Extends b c more where
  gathered := by
    rw [gathered, gathered, grownQueued grown]
    refine gatherGrown (linkedQueued linked) held (fun y _ other => ?_) range
    rw [rqStretch, rqStretch, BlockState.pos, BlockState.pos, BlockState.sectors, BlockState.sectors,
      grown.others y other]
  head := congrArg RequestQueue.queueHead grown.q
  untouched x member := congrArg bare (grown.others x (fun same => linkedApart linked held (same ▸ member)))
  whole x member := by
    by_cases same : x = rq
    · exact same ▸ len
    · rw [grown.others x same]
      exact whole x (grownQueued grown ▸ member)

theorem sectorsSum {len more : BitVec 32} (whole : WholeSectors len) (fits : len.toNat + more.toNat < 2 ^ 32) :
    ((len + more) >>> 9).toNat = (len >>> 9).toNat + (more >>> 9).toNat := by
  have sum : (len + more).toNat = len.toNat + more.toNat := by
    rw [BitVec.toNat_add, Nat.mod_eq_of_lt fits]
  obtain ⟨_, parts⟩ := whole
  simp only [BitVec.toNat_ushiftRight, Nat.shiftRight_eq_div_pow, sum]
  omega

theorem wholeSum {len more : BitVec 32} (whole : WholeSectors len) (wholeMore : WholeSectors more)
    (fits : len.toNat + more.toNat < 2 ^ 32) : WholeSectors (len + more) := by
  have sum : (len + more).toNat = len.toNat + more.toNat := by
    rw [BitVec.toNat_add, Nat.mod_eq_of_lt fits]
  rw [WholeSectors, sum]
  exact ⟨Nat.add_pos_left whole.1 _, by rw [Nat.add_mod, whole.2, wholeMore.2]⟩

theorem widened (n : BitVec 32) : BitVec.ofNat 64 n.toNat = n.setWidth 64 := by
  apply BitVec.eq_of_toNat_eq
  simp

/- Two ranges that meet are one range. -/
theorem stretchMeets {first next : Sector} {len more : BitVec 32} (whole : WholeSectors len)
    (fits : len.toNat + more.toNat < 2 ^ 32) (meets : first + (len >>> 9).setWidth 64 = next) :
    stretch first ((len + more) >>> 9).toNat = stretch first (len >>> 9).toNat ++ stretch next (more >>> 9).toNat := by
  rw [sectorsSum whole fits, stretchAdd, widened, meets]

end

section
variable {m : BlkMerge} {a : BlkAttempt} {s t : HashQueue}

theorem growBackExtends (rules : MergeRules m a) (linked : Linked s.b) (whole : Whole s.b) {rq : Ref} {bio : Merging.Bio}
    (held : rq ∈ s.b.queued) (meets : s.b.endOf rq = bio.biSector) (fits : m.llBackMerge s.b rq bio = true)
    (wholeBio : WholeSectors bio.biSize) : Extends s.b (growBack s rq bio).b (bioStretch bio) := by
  have short := rules.backFits _ _ _ fits
  have here : (growBack s rq bio).b.req rq = {s.b.req rq with dataLen := (s.b.req rq).dataLen + bio.biSize} := if_pos rfl
  refine grownExtends linked whole (growBackGrown s rq bio) held ?_ ?_
  · rw [rqStretch, BlockState.pos, BlockState.sectors, here]
    exact .of_eq (stretchMeets (whole rq held) short meets)
  · rw [here]
    exact wholeSum (whole rq held) wholeBio short

theorem growFrontExtends (rules : MergeRules m a) (linked : Linked s.b) (whole : Whole s.b) {rq : Ref}
    {bio : Merging.Bio} (held : rq ∈ s.b.queued) (meets : s.b.pos rq - (bioSectors bio).setWidth 64 = bio.biSector)
    (fits : m.llFrontMerge s.b rq bio = true) (wholeBio : WholeSectors bio.biSize) :
    Extends s.b (growFront s rq bio).b (bioStretch bio) ∧ (growFront s rq bio).b.endOf rq = s.b.endOf rq := by
  have short := rules.frontFits _ _ _ fits
  have swapped : bio.biSize.toNat + (s.b.req rq).dataLen.toNat < 2 ^ 32 := by rw [Nat.add_comm]; exact short
  have meets' : bio.biSector + (bio.biSize >>> 9).setWidth 64 = s.b.pos rq := by
    rw [← meets]
    exact BitVec.sub_add_cancel ..
  have here : (growFront s rq bio).b.req rq =
      {s.b.req rq with sector := bio.biSector, dataLen := (s.b.req rq).dataLen + bio.biSize} := if_pos rfl
  constructor
  · refine grownExtends linked whole (growFrontGrown s rq bio) held ?_ ?_
    · rw [rqStretch, BlockState.pos, BlockState.sectors, here]
      have joined := stretchMeets wholeBio swapped meets'
      rw [BitVec.add_comm] at joined
      exact (List.Perm.of_eq joined).trans List.perm_append_comm
    · rw [here]
      exact wholeSum (whole rq held) wholeBio short
  · rw [BlockState.endOf, here]
    change bio.biSector + (((s.b.req rq).dataLen + bio.biSize) >>> 9).setWidth 64 = s.b.endOf rq
    rw [BitVec.add_comm _ bio.biSize, ← widened, sectorsSum wholeBio swapped, BitVec.ofNat_add, ← BitVec.add_assoc,
      widened, widened, meets']
    rfl

theorem absorbExtends (linked : Linked s.b) (whole : Whole s.b) {rq next : Ref}
    (held : rq ∈ s.b.queued) (joins : Joins s.b rq next) (len : WholeSectors (s.b.req next).dataLen) :
    Extends s.b (absorb s.b rq next) (rqStretch s.b next) := by
  have here : (absorb s.b rq next).req rq =
      {s.b.req rq with dataLen := (s.b.req rq).dataLen + (s.b.req next).dataLen} := if_pos rfl
  refine grownExtends linked whole (absorbGrown s.b rq next) held ?_ ?_
  · rw [rqStretch, BlockState.pos, BlockState.sectors, here]
    exact .of_eq (stretchMeets (whole rq held) joins.2 joins.1)
  · rw [here]
    exact wholeSum (whole rq held) len joins.2

/- The absorbed request leaves the elevator if it was there: then nothing is gained. -/
theorem mergedExtends (linked : Linked s.b) (whole : Whole s.b) {rq next : Ref}
    (partner : Partner s.b rq next) (joins : Joins s.b rq next)
    (len : WholeSectors (s.b.req next).dataLen) (merged : Merged s.b (absorb s.b rq next) t.b rq next) :
    Extends s.b t.b (if next ∈ s.b.queued then [] else rqStretch s.b next) := by
  have grown := absorbExtends linked whole partner.held joins len
  have queued : (absorb s.b rq next).queued = s.b.queued := rfl
  have same : ∀ x, rqStretch t.b x = rqStretch (absorb s.b rq next) x := sameStretch merged.same
  refine ⟨?_, merged.head, fun x there => (merged.same x).trans (grown.untouched x there), fun x there => ?_⟩
  · have erased : gathered t.b = (s.b.queued.erase next).flatMap (rqStretch (absorb s.b rq next)) := by
      rw [gathered, merged.queued, gatherSame (fun x _ => same x)]
    have nextSame : rqStretch (absorb s.b rq next) next = rqStretch s.b next := by
      rw [rqStretch, rqStretch, BlockState.pos, BlockState.pos, BlockState.sectors, BlockState.sectors,
        (absorbGrown s.b rq next).others next partner.apart]
    rw [erased]
    split
    · rename_i member
      rw [List.append_nil]
      refine (List.perm_append_right_iff (rqStretch s.b next)).mp (List.Perm.trans ?_ grown.gathered)
      have split' := gatherErase (rqStretch (absorb s.b rq next)) member
      rw [nextSame] at split'
      exact split'.symm
    · rename_i absent
      rw [List.erase_of_not_mem absent]
      exact grown.gathered
  · rw [sameLen merged.same]
    refine grown.whole x ?_
    rw [merged.queued] at there
    exact List.mem_of_mem_erase there

/- A request that is not linked anywhere, as a new one is not. -/
structure Unlinked (b : BlockState) (r : Ref) : Prop where
  queued : r ∉ b.queued
  handed : r ∉ b.q.queueHead
  sorted : sortedFlag b r = false

theorem partnerOf {b : BlockState} {rq next : Ref} (held : rq ∈ b.queued) (apart : next ≠ rq)
    (known : next ∈ b.queued ∨ Unlinked b next) : Partner b rq next :=
  ⟨held, apart, fun absent => ⟨(known.resolve_left absent).handed, (known.resolve_left absent).sorted⟩⟩

/- An attempt to merge after the survivor may have grown, which the hash does not know yet. -/
theorem attemptExact (rules : MergeRules m a) (ok : Indexed m s) {rq next : Ref} {c : BlockState} (grown : Grown s.b c rq)
    (whole : Whole c) (partner : Partner s.b rq next) (len : WholeSectors (c.req next).dataLen) :
    ∃ merged t, a.blkAttemptReqMerge ⟨c, s.table⟩ rq next = some (merged, t) ∧
    (merged = false → t = ⟨c, s.table⟩) ∧
    (merged = true → Indexed m t ∧ t.b.queued = s.b.queued.erase next ∧ rq ∈ t.b.queued ∧
      Extends c t.b (if next ∈ s.b.queued then [] else rqStretch c next)) := by
  rcases rules.attempts ⟨c, s.table⟩ rq next with refused | ⟨joins, merges⟩
  · exact ⟨false, ⟨c, s.table⟩, refused, fun _ => rfl, (fun h => by cases h)⟩
  · obtain ⟨t, ran, indexed, merged⟩ := mergeIndexed ok (grownTrans grown (absorbGrown c rq next)) partner
    have lists : c.queued = s.b.queued := grownQueued grown
    have linked : Linked c := by
      refine ⟨?_, ?_⟩
      · rw [lists, grown.q]
        exact ok.linked.once
      · rw [lists, grown.q]
        exact ok.linked.counted
    have partner' : Partner c rq next := by
      refine ⟨lists ▸ partner.held, partner.apart, fun absent => ?_⟩
      rw [lists] at absent
      rw [grown.q, grownSorted grown]
      exact partner.fresh absent
    have merged' : Merged c (absorb c rq next) t.b rq next :=
      ⟨lists ▸ merged.queued, merged.head.trans (congrArg RequestQueue.queueHead grown.q).symm, merged.same⟩
    have more := mergedExtends (s := ⟨c, s.table⟩) linked whole partner' joins len merged'
    have there : rq ∈ t.b.queued := by
      rw [merged.queued]
      exact (linkedQueued ok.linked).mem_erase_iff.mpr ⟨fun same => partner.apart same.symm, partner.held⟩
    have step : elvMergeRequests m ⟨absorb c rq next, s.table⟩ rq next = some t := ran
    refine ⟨true, t, by rw [merges, step]; rfl, (fun h => by cases h), fun _ => ⟨indexed, merged.queued, there, ?_⟩⟩
    have more' : Extends c t.b (if next ∈ c.queued then [] else rqStretch c next) := more
    rwa [lists] at more'

end

section
variable {m : BlkMerge} {a : BlkAttempt} {s t : HashQueue}

theorem keptExtends {gone : List Ref} (ok : Indexed m s) (whole : Whole s.b)
    (stale : ∀ r ∈ gone, rqMergeable (s.b.req r) = false) : Extends s.b (gone.foldl hashDel s).b [] := by
  obtain ⟨_, same, q⟩ := dropsKeep ok stale
  have lists : (gone.foldl hashDel s).b.queued = s.b.queued := by
    rw [BlockState.queued, q]
    rfl
  exact sameExtends same lists (congrArg RequestQueue.queueHead q) whole

/- A request that carries sectors does not start behind its own end. -/
theorem notBehindItself {b : BlockState} {r : Ref} (len : WholeSectors (b.req r).dataLen) : b.endOf r ≠ b.pos r := by
  intro same
  have sectors : (b.sectors r : Nat) = (b.req r).dataLen.toNat / 512 := by
    rw [BlockState.sectors, blkRqSectors, blkRqBytes, BitVec.toNat_ushiftRight, Nat.shiftRight_eq_div_pow]
  have small := (b.req r).dataLen.isLt
  have pos := (b.pos r).isLt
  have ends := BlockState.endToNat b r
  rw [same, sectors] at ends
  obtain ⟨some', parts⟩ := len
  omega

/- The rounds in which the request in hand is a queued one. Each that merges takes it off the
elevator, so they end, and they gain no sectors. -/
theorem insertLoopQueued (rules : MergeRules m a) (fuel : Nat) (ok : Indexed m s) (whole : Whole s.b) {rq : Ref}
    (held : rq ∈ s.b.queued) (enough : s.b.queued.length ≤ fuel) :
    ∃ t, insertMergeLoop m a fuel s rq true = some (true, t) ∧ Indexed m t ∧ Extends s.b t.b [] := by
  induction fuel generalizing s rq with
  | zero => exact absurd (List.length_pos_of_mem held) (Nat.not_lt.mpr enough)
  | succ fuel ih =>
    obtain ⟨answer, gone, ran, stale, found, _⟩ := findExact ok (s.b.pos rq)
    obtain ⟨indexed, same, q⟩ := dropsKeep ok stale
    have kept := keptExtends ok whole stale
    have lists : (gone.foldl hashDel s).b.queued = s.b.queued := by
      rw [BlockState.queued, q]
      rfl
    rw [insertMergeLoop, ran]
    cases answer with
    | none => exact ⟨_, rfl, indexed, kept⟩
    | some before =>
      obtain ⟨there, _, key⟩ := found before rfl
      have apart : rq ≠ before := by
        intro same
        rw [rqHashKey, ← same] at key
        exact notBehindItself (whole rq held) key
      have len : WholeSectors ((gone.foldl hashDel s).b.req rq).dataLen := kept.whole rq (lists ▸ held)
      have partner : Partner (gone.foldl hashDel s).b before rq :=
        partnerOf (lists ▸ there) apart (Or.inl (lists ▸ held))
      obtain ⟨merged, t, tried, refused, merges⟩ := attemptExact rules indexed
        (c := (gone.foldl hashDel s).b) ⟨rfl, fun _ _ => rfl, fun _ => rfl, fun _ => rfl⟩ kept.whole partner len
      have tried' : a.blkAttemptReqMerge (gone.foldl hashDel s) before rq = some (merged, t) := tried
      dsimp only
      rw [tried']
      cases merged with
      | false => exact ⟨t, rfl, refused rfl ▸ indexed, refused rfl ▸ kept⟩
      | true =>
        obtain ⟨indexedT, erased, inT, more⟩ := merges rfl
        have heldT : rq ∈ (gone.foldl hashDel s).b.queued := lists ▸ held
        have shorter : t.b.queued.length ≤ fuel := by
          rw [erased, List.length_erase_of_mem heldT, lists]
          omega
        obtain ⟨u, rest, indexedU, further⟩ := ih indexedT more.whole inT shorter
        rw [if_pos heldT] at more
        exact ⟨u, rest, indexedU, extendsTrans (extendsTrans kept more) further⟩

/- What an attempt leaves when it merges nothing: requests dropped from the hash at most. -/
structure Unmerged (m : BlkMerge) (s t : HashQueue) : Prop where
  indexed : Indexed m t
  same : SameRequests s.b t.b
  q : t.b.q = s.b.q

theorem unmergedExtends (kept : Unmerged m s t) (whole : Whole s.b) : Extends s.b t.b [] := by
  have lists : t.b.queued = s.b.queued := by
    rw [BlockState.queued, kept.q]
    rfl
  exact sameExtends kept.same lists (congrArg RequestQueue.queueHead kept.q) whole

/- An attempt to merge a new request into those queued. -/
structure Attempt (m : BlkMerge) (s : HashQueue) (r : Ref) (merged : Bool) (t : HashQueue) : Prop where
  left : merged = false → Unmerged m s t
  joined : merged = true → Indexed m t ∧ Extends s.b t.b (rqStretch s.b r)

theorem attemptNew (rules : MergeRules m a) (ok : Indexed m s) (whole : Whole s.b) {r before : Ref}
    (new : Unlinked s.b r) (len : WholeSectors (s.b.req r).dataLen) (held : before ∈ s.b.queued) :
    ∃ merged t, a.blkAttemptReqMerge s before r = some (merged, t) ∧ Attempt m s r merged t ∧
      (merged = true → before ∈ t.b.queued ∧ t.b.queued = s.b.queued) := by
  have apart : r ≠ before := fun same => new.queued (same ▸ held)
  obtain ⟨merged, t, tried, refused, merges⟩ := attemptExact rules ok
    (c := s.b) ⟨rfl, fun _ _ => rfl, fun _ => rfl, fun _ => rfl⟩ whole (partnerOf held apart (Or.inr new)) len
  refine ⟨merged, t, tried, ⟨fun no => ?_, fun yes => ?_⟩, fun yes => ?_⟩
  · rw [refused no]
    exact ⟨ok, fun _ => rfl, rfl⟩
  · obtain ⟨indexed, _, _, more⟩ := merges yes
    rw [if_neg new.queued] at more
    exact ⟨indexed, more⟩
  · obtain ⟨_, erased, there, _⟩ := merges yes
    exact ⟨there, by rw [erased, List.erase_of_not_mem new.queued]⟩

theorem insertLoopExact (rules : MergeRules m a) (ok : Indexed m s) (whole : Whole s.b) {r : Ref}
    (new : Unlinked s.b r) (len : WholeSectors (s.b.req r).dataLen) : ∃ merged t,
    insertMergeLoop m a (s.b.queued.length + 1) s r false = some (merged, t) ∧ Attempt m s r merged t := by
  obtain ⟨answer, gone, ran, stale, found, _⟩ := findExact ok (s.b.pos r)
  obtain ⟨indexed, same, q⟩ := dropsKeep ok stale
  have kept := keptExtends ok whole stale
  have lists : (gone.foldl hashDel s).b.queued = s.b.queued := by
    rw [BlockState.queued, q]
    rfl
  have none' : Attempt m s r false (gone.foldl hashDel s) := ⟨fun _ => ⟨indexed, same, q⟩, (fun h => by cases h)⟩
  rw [insertMergeLoop, ran]
  cases answer with
  | none => exact ⟨false, _, rfl, none'⟩
  | some before =>
    have there : before ∈ (gone.foldl hashDel s).b.queued := lists ▸ (found before rfl).1
    have new' : Unlinked (gone.foldl hashDel s).b r := by
      refine ⟨lists ▸ new.queued, ?_, (sameSortedFlag same r).trans new.sorted⟩
      rw [q]
      exact new.handed
    have len' : WholeSectors ((gone.foldl hashDel s).b.req r).dataLen := by
      rw [sameLen same]
      exact len
    obtain ⟨merged, t, tried, attempt, stays⟩ := attemptNew rules indexed kept.whole new' len' there
    dsimp only
    rw [tried]
    cases merged with
    | false =>
      have left := attempt.left rfl
      exact ⟨false, t, rfl, ⟨fun _ => ⟨left.indexed, sameTrans same left.same, left.q.trans q⟩,
        (fun h => by cases h)⟩⟩
    | true =>
      obtain ⟨indexedT, more⟩ := attempt.joined rfl
      obtain ⟨inT, listsT⟩ := stays rfl
      have shorter : t.b.queued.length ≤ s.b.queued.length := Nat.le_of_eq (by rw [listsT, lists])
      obtain ⟨u, rest, indexedU, further⟩ := insertLoopQueued rules _ indexedT more.whole inT shorter
      refine ⟨true, u, rest, ⟨(fun h => by cases h), fun _ => ⟨indexedU, ?_⟩⟩⟩
      have all := extendsTrans (extendsTrans kept more) further
      rw [List.append_nil, List.nil_append, sameStretch same] at all
      exact all

end

section
variable {m : BlkMerge} {a : BlkAttempt} {s t : HashQueue}

theorem placeIndexed (ok : Indexed m s) (whole : Whole s.b) {r : Ref} {rq : Request} (fresh : Fresh s.b r rq) :
    Indexed m (place s r rq) ∧ Extends s.b (place s r rq).b [] ∧ Unlinked (place s r rq).b r := by
  obtain ⟨queued, handed, _, sorted, hashed, _⟩ := fresh
  have here : (place s r rq).b.req r = rq := if_pos rfl
  have others : ∀ x, x ≠ r → (place s r rq).b.req x = s.b.req x := fun x other => if_neg other
  have apart : ∀ x ∈ s.b.queued, x ≠ r := fun x there same => queued (same ▸ there)
  have off : ¬ elvOnHash s.b r = true := fun mark => queued (ok.queued r mark)
  have off' : elvOnHash (place s r rq).b r = false := by rw [elvOnHash, here, hashed]
  have marks : ∀ x, elvOnHash (place s r rq).b x = true ↔ elvOnHash s.b x = true := by
    intro x
    by_cases same : x = r
    · rw [same, off']
      exact ⟨(fun h => by cases h), fun mark => absurd mark off⟩
    · rw [elvOnHash, others x same, elvOnHash]
  refine ⟨⟨?_, fun x mark => ok.queued x ((marks x).mp mark), fun x there able => ?_, ok.last, fun x there => ?_,
    ⟨ok.linked.once, ok.linked.counted⟩⟩, ⟨?_, rfl, fun x there => ?_, fun x there => ?_⟩, ⟨queued, handed, ?_⟩⟩
  · refine HashTable.filedCongr ok.filed (fun x => (marks x).symm) (fun x mark => ?_)
    rw [rqHashKey, rqHashKey, BlockState.endOf, BlockState.endOf, others x (apart x (ok.queued x mark))]
  · rw [others x (apart x there)] at able
    exact (marks x).mpr (ok.known x there able)
  · rw [sortedFlag, others x (apart x there)]
    exact ok.sorted x there
  · have lists : (place s r rq).b.queued = s.b.queued := rfl
    rw [List.append_nil, gathered, gathered, lists, gatherSame (fun x there => ?_)]
    rw [rqStretch, rqStretch, BlockState.pos, BlockState.pos, BlockState.sectors, BlockState.sectors,
      others x (apart x there)]
  · rw [others x (fun same => handed (same ▸ there))]
  · rw [others x (apart x there)]
    exact whole x there
  · rw [sortedFlag, here, sorted]

theorem insertExtends (ok : Indexed m s) (whole : Whole s.b) {r : Ref} (fs : (s.b.req r).cmdType = .fs)
    (new : Unlinked s.b r) (len : WholeSectors (s.b.req r).dataLen) :
    ∃ t, elvInsertSort m s r = some t ∧ Indexed m t ∧ Extends s.b t.b (rqStretch s.b r) := by
  obtain ⟨t, inserted, indexed, perm, head, same⟩ := insertIndexed ok fs new.queued new.handed
  have marked : ∀ x, ((markSorted s.b r).req x).dataLen = (s.b.req x).dataLen ∧
      rqStretch (markSorted s.b r) x = rqStretch s.b x ∧
      (x ≠ r → (markSorted s.b r).req x = s.b.req x) := by
    intro x
    simp only [rqStretch, BlockState.pos, BlockState.sectors, markSorted, BlockState.setFlags, BlockState.setReq]
    split
    · rename_i here
      exact ⟨rfl, rfl, fun other => absurd here other⟩
    · exact ⟨rfl, rfl, fun _ => rfl⟩
  refine ⟨t, inserted, indexed, ⟨?_, head, fun x there => ?_, fun x there => ?_⟩⟩
  · have ranges : ∀ x ∈ t.b.queued, rqStretch t.b x = rqStretch s.b x := fun x _ =>
      (sameStretch same x).trans (marked x).2.1
    rw [gathered, gatherSame ranges]
    refine (perm.flatMap_right (rqStretch s.b)).trans ?_
    rw [List.flatMap_cons]
    exact List.perm_append_comm
  · rw [same x, (marked x).2.2 (fun eq => new.handed (eq ▸ there))]
  · rw [sameLen same, (marked x).1]
    rcases List.mem_cons.mp (perm.mem_iff.mp there) with rfl | old
    · exact len
    · exact whole x old

/- The cached request first, then the hash. -/
theorem attemptInsertExact (rules : MergeRules m a) (ok : Indexed m s) (whole : Whole s.b) {r : Ref}
    (new : Unlinked s.b r) (len : WholeSectors (s.b.req r).dataLen) (nomerges noxmerges : Bool) : ∃ merged t,
    elvAttemptInsertMerge m a nomerges noxmerges (s.b.queued.length + 1) s r = some (merged, t) ∧
      Attempt m s r merged t := by
  have nothing : Attempt m s r false s := ⟨fun _ => ⟨ok, fun _ => rfl, rfl⟩, (fun h => by cases h)⟩
  have cached : ∃ merged t, lastAttempt a s r = some (merged, t) ∧ Attempt m s r merged t ∧
      (merged = false → t = s) := by
    unfold lastAttempt
    split
    · exact ⟨false, s, rfl, nothing, fun _ => rfl⟩
    · rename_i last hit
      have apart : r ≠ last := fun same => new.queued (same ▸ ok.last last hit)
      obtain ⟨merged, t, tried, attempt, _⟩ := attemptNew rules ok whole new len (ok.last last hit)
      refine ⟨merged, t, tried, attempt, fun no => ?_⟩
      rcases rules.attempts s last r with left | ⟨_, merges⟩
      · cases Option.some.inj (left.symm.trans tried)
        rfl
      · obtain ⟨u, _, eq⟩ := Option.map_eq_some_iff.mp (merges.symm.trans tried)
        cases eq
        cases no
  unfold elvAttemptInsertMerge
  split
  · exact ⟨false, s, rfl, nothing⟩
  · obtain ⟨merged, t, tried, attempt, refused⟩ := cached
    rw [tried]
    cases merged with
    | true => exact ⟨true, t, rfl, attempt⟩
    | false =>
      rw [refused rfl]
      dsimp only
      split
      · exact ⟨false, s, rfl, nothing⟩
      · exact insertLoopExact rules ok whole new len

theorem addSortedExact (rules : MergeRules m a) (ok : Indexed m s) (whole : Whole s.b) {r : Ref}
    (fs : (s.b.req r).cmdType = .fs) (new : Unlinked s.b r) (len : WholeSectors (s.b.req r).dataLen)
    (tryMerge nomerges noxmerges : Bool) : ∃ t, elvAddSorted m a tryMerge nomerges noxmerges s r = some t ∧
    Indexed m t ∧ Extends s.b t.b (rqStretch s.b r) := by
  unfold elvAddSorted
  split
  · obtain ⟨merged, t, tried, attempt⟩ := attemptInsertExact rules ok whole new len nomerges noxmerges
    rw [tried]
    cases merged with
    | true =>
      obtain ⟨indexed, more⟩ := attempt.joined rfl
      exact ⟨t, rfl, indexed, more⟩
    | false =>
      have left := attempt.left rfl
      have kept := unmergedExtends left whole
      have lists : t.b.queued = s.b.queued := by
        rw [BlockState.queued, left.q]
        rfl
      have type : (t.b.req r).cmdType = (s.b.req r).cmdType := by
        have fields := congrArg Request.cmdType (left.same r)
        exact fields
      have new' : Unlinked t.b r := by
        refine ⟨lists ▸ new.queued, ?_, (sameSortedFlag left.same r).trans new.sorted⟩
        rw [left.q]
        exact new.handed
      have len' : WholeSectors (t.b.req r).dataLen := by
        rw [sameLen left.same]
        exact len
      obtain ⟨u, inserted, indexed, more⟩ := insertExtends left.indexed kept.whole (type.trans fs) new' len'
      have all := extendsTrans kept more
      rw [List.nil_append, sameStretch left.same] at all
      exact ⟨u, inserted, indexed, all⟩
  · exact insertExtends ok whole fs new len

/- A request found for a bio is queued, and the bio meets it on the side told. -/
structure Hit (b : BlockState) (bio : Merging.Bio) (type : ElvMerge) (rq : Ref) : Prop where
  held : rq ∈ b.queued
  back : type = .backMerge → b.endOf rq = bio.biSector
  front : type = .frontMerge → b.pos rq - (bioSectors bio).setWidth 64 = bio.biSector

theorem elvMergeExact (rules : MergeRules m a) (ok : Indexed m s) (nomerges noxmerges : Bool) (bio : Merging.Bio) :
    ∃ answer t, elvMerge m nomerges noxmerges s bio = some (answer, t) ∧ Unmerged m s t ∧
      ∀ type rq, answer = some (type, rq) → Hit s.b bio type rq := by
  have still : Unmerged m s s := ⟨ok, fun _ => rfl, rfl⟩
  unfold elvMerge
  split
  · exact ⟨none, s, rfl, still, (fun _ _ h => by cases h)⟩
  · dsimp only
    split
    · rename_i hit found
      refine ⟨some hit, s, rfl, still, fun type rq answer => ?_⟩
      cases Option.some.inj answer
      split at found
      · rename_i last cached
        split at found
        · cases Option.some.inj found
          exact ⟨ok.last _ cached, rules.triesBack _ _ _, rules.triesFront _ _ _⟩
        · cases found
      · cases found
    · split
      · exact ⟨none, s, rfl, still, (fun _ _ h => by cases h)⟩
      · obtain ⟨answer, gone, ran, stale, found, _⟩ := findExact ok bio.biSector
        obtain ⟨indexed, same, q⟩ := dropsKeep ok stale
        rw [ran]
        cases answer with
        | none => exact ⟨none, _, rfl, ⟨indexed, same, q⟩, (fun _ _ h => by cases h)⟩
        | some r =>
          refine ⟨_, _, rfl, ⟨indexed, same, q⟩, fun type rq answer => ?_⟩
          split at answer
          · cases Option.some.inj answer
            obtain ⟨there, _, key⟩ := found r rfl
            exact ⟨there, fun _ => key, (fun h => by cases h)⟩
          · cases answer

end

/- Neighbours on one of the lists are queued, and are two requests. -/
theorem neighbours {b : BlockState} {rq x : Ref} (once : b.queued.Nodup) (held : rq ∈ b.queued)
    (side : greedyLatterRequest b rq = some x ∨ greedyFormerRequest b rq = some x) : x ∈ b.queued ∧ x ≠ rq := by
  obtain ⟨former, latter⟩ := lookups b rq
  rw [former, latter] at side
  have own : ownList b rq = b.q.gd.higher ∨ ownList b rq = b.q.gd.lower := by
    unfold ownList
    split
    · exact Or.inl rfl
    · exact Or.inr rfl
  have inside : ∀ y ∈ ownList b rq, y ∈ b.queued := by
    intro y there
    rcases own with eq | eq
    · exact List.mem_append_left _ (eq ▸ there)
    · exact List.mem_append_right _ (eq ▸ there)
  have member : rq ∈ ownList b rq := by
    unfold ownList
    split
    · assumption
    · rename_i high
      exact (List.mem_append.mp held).resolve_left high
  have once' : (ownList b rq).Nodup := by
    rcases own with eq | eq
    · exact eq ▸ (List.nodup_append.mp once).1
    · exact eq ▸ (List.nodup_append.mp once).2.1
  obtain ⟨pre, post, lists⟩ := List.append_of_mem member
  rw [lists] at once' inside
  obtain ⟨_, behind, across⟩ := List.nodup_append.mp once'
  have notBefore : rq ∉ pre := fun there => across rq there rq List.mem_cons_self rfl
  rw [lists, listNextSplit notBefore, listPrevSplit notBefore] at side
  rcases side with next | prev
  · have there : x ∈ post := List.mem_of_mem_head? next
    refine ⟨inside x (by simp [there]), fun same => ?_⟩
    exact (List.nodup_cons.mp behind).1 (same ▸ there)
  · have there : x ∈ pre := List.mem_of_mem_getLast? prev
    exact ⟨inside x (by simp [there]), fun same => notBefore (same ▸ there)⟩

section
variable {m : BlkMerge} {a : BlkAttempt} {s t : HashQueue}

/- A bio is merged or the queue is left as it was. -/
structure BioMerge (m : BlkMerge) (s : HashQueue) (bio : Merging.Bio) (merged : Bool) (t : HashQueue) : Prop where
  indexed : Indexed m t
  more : Extends s.b t.b (if merged then bioStretch bio else [])

theorem mergeBackExact (rules : MergeRules m a) (ok : Indexed m s) (whole : Whole s.b) {bio : Merging.Bio}
    (len : WholeSectors bio.biSize) {rq : Ref} (hit : Hit s.b bio .backMerge rq)
    (allowed : m.llBackMerge s.b rq bio = true) : ∃ t, mergeBio m a s bio (some (.backMerge, rq)) = some (true, t) ∧
    BioMerge m s bio true t := by
  have grown := growBackGrown s rq bio
  have more := growBackExtends rules ok.linked whole hit.held (hit.back rfl) allowed len
  have nodup := linkedQueued ok.linked
  have tail : ∃ t, elvMergedRequest m (growBack s rq bio) rq .backMerge = some t ∧ BioMerge m s bio true t := by
    obtain ⟨t, moved, indexed, lists, head, same⟩ := backMergedIndexed ok grown hit.held
    have kept := sameExtends same (lists.trans (grownQueued grown).symm)
      (head.trans (congrArg RequestQueue.queueHead grown.q).symm) more.whole
    have all := extendsTrans more kept
    rw [List.append_nil] at all
    exact ⟨t, moved, indexed, all⟩
  simp only [mergeBio, allowed, if_true, rules.behind]
  cases next : greedyLatterRequest (growBack s rq bio).b rq with
  | none =>
    obtain ⟨t, moved, result⟩ := tail
    simp only [Option.elim_none]
    exact ⟨t, by rw [moved]; rfl, result⟩
  | some x =>
    have linkedGrown : (growBack s rq bio).b.queued = s.b.queued := grownQueued grown
    obtain ⟨there, apart⟩ := neighbours (linkedGrown ▸ nodup) (linkedGrown ▸ hit.held) (Or.inl next)
    rw [linkedGrown] at there
    have lenX : WholeSectors ((growBack s rq bio).b.req x).dataLen := more.whole x (linkedGrown ▸ there)
    obtain ⟨merged, t, tried, refused, merges⟩ := attemptExact rules ok grown more.whole
      (partnerOf hit.held apart (Or.inl there)) lenX
    have tried' : a.blkAttemptReqMerge (growBack s rq bio) rq x = some (merged, t) := tried
    rw [Option.elim_some]
    rw [tried']
    cases merged with
    | true =>
      obtain ⟨indexed, _, _, further⟩ := merges rfl
      rw [if_pos there] at further
      have all := extendsTrans more further
      rw [List.append_nil] at all
      exact ⟨t, rfl, indexed, all⟩
    | false =>
      have back : t = growBack s rq bio := refused rfl
      obtain ⟨u, moved, result⟩ := tail
      dsimp only
      exact ⟨u, by rw [back, moved]; rfl, result⟩

theorem mergeFrontExact (rules : MergeRules m a) (ok : Indexed m s) (whole : Whole s.b) {bio : Merging.Bio}
    (len : WholeSectors bio.biSize) {rq : Ref} (hit : Hit s.b bio .frontMerge rq)
    (allowed : m.llFrontMerge s.b rq bio = true) : ∃ t, mergeBio m a s bio (some (.frontMerge, rq)) = some (true, t) ∧
    BioMerge m s bio true t := by
  have grown := growFrontGrown s rq bio
  obtain ⟨more, stays⟩ := growFrontExtends rules ok.linked whole hit.held (hit.front rfl) allowed len
  have indexed : Indexed m (growFront s rq bio) := grownIndexed ok grown stays
  have lists : (growFront s rq bio).b.queued = s.b.queued := grownQueued grown
  have held : rq ∈ (growFront s rq bio).b.queued := lists ▸ hit.held
  have last : Indexed m (setLast (growFront s rq bio) rq) := setLastIndexed indexed held
  have lastMore : Extends s.b (setLast (growFront s rq bio) rq).b (bioStretch bio) :=
    ⟨more.gathered, more.head, more.untouched, more.whole⟩
  simp only [mergeBio, allowed, if_true, rules.before]
  cases prev : greedyFormerRequest (growFront s rq bio).b rq with
  | none => exact ⟨_, rfl, last, lastMore⟩
  | some x =>
    obtain ⟨there, apart⟩ := neighbours (linkedQueued indexed.linked) held (Or.inr prev)
    obtain ⟨merged, t, tried, refused, merges⟩ := attemptExact (c := (growFront s rq bio).b) rules indexed
      ⟨rfl, fun _ _ => rfl, fun _ => rfl, fun _ => rfl⟩ more.whole
      (partnerOf there (fun same => apart same.symm) (Or.inl held)) (more.whole rq held)
    have tried' : a.blkAttemptReqMerge (growFront s rq bio) x rq = some (merged, t) := tried
    rw [Option.elim_some]
    rw [tried']
    cases merged with
    | true =>
      obtain ⟨indexedT, _, _, further⟩ := merges rfl
      rw [if_pos held] at further
      have all := extendsTrans more further
      rw [List.append_nil] at all
      exact ⟨t, rfl, indexedT, all⟩
    | false =>
      have back : t = growFront s rq bio := refused rfl
      dsimp only
      rw [back]
      exact ⟨_, rfl, last, lastMore⟩

theorem mergeBioExact (rules : MergeRules m a) (ok : Indexed m s) (whole : Whole s.b) {bio : Merging.Bio}
    (len : WholeSectors bio.biSize) {answer : Option (ElvMerge × Ref)}
    (hit : ∀ type rq, answer = some (type, rq) → Hit s.b bio type rq) :
    ∃ merged t, mergeBio m a s bio answer = some (merged, t) ∧ BioMerge m s bio merged t := by
  have still : BioMerge m s bio false s := ⟨ok, sameExtends (fun _ => rfl) rfl rfl whole⟩
  cases answer with
  | none => exact ⟨false, s, rfl, still⟩
  | some found =>
    obtain ⟨type, rq⟩ := found
    have here := hit type rq rfl
    cases type with
    | noMerge => exact ⟨false, s, rfl, still⟩
    | backMerge =>
      cases allowed : m.llBackMerge s.b rq bio with
      | true => exact ⟨true, mergeBackExact rules ok whole len here allowed⟩
      | false => exact ⟨false, s, by simp [mergeBio, allowed], still⟩
    | frontMerge =>
      cases allowed : m.llFrontMerge s.b rq bio with
      | true => exact ⟨true, mergeFrontExact rules ok whole len here allowed⟩
      | false => exact ⟨false, s, by simp [mergeBio, allowed], still⟩

end

/- The queue's lookups are right, and the sectors arrived are those queued, handed over and
fetched. -/
structure Sound (m : BlkMerge) (s : Traffic) : Prop where
  indexed : Indexed m s.q
  whole : Whole s.q.b
  sectors : (gathered s.q.b ++ s.q.b.q.queueHead.flatMap (rqStretch s.q.b) ++ s.fetched).Perm s.arrived

section
variable {m : BlkMerge} {a : BlkAttempt} {s : Traffic}

theorem bareStretch {b c : BlockState} {x : Ref} (same : bare (c.req x) = bare (b.req x)) :
    rqStretch c x = rqStretch b x := by
  have range := congrArg (fun rq => stretch (blkRqPos rq) (blkRqSectors rq).toNat) same
  exact range

theorem bareRange {b c : BlockState} {x : Ref} (same : bare (c.req x) = bare (b.req x)) :
    c.pos x = b.pos x ∧ (c.req x).dataLen = (b.req x).dataLen := by
  have sector := congrArg Request.sector same
  have len := congrArg Request.dataLen same
  exact ⟨sector, len⟩

theorem soundExtends (ok : Sound m s) {t : HashQueue} {more arrived : List Sector} (indexed : Indexed m t)
    (extends' : Extends s.q.b t.b more) (joined : arrived = s.arrived ++ more) : Sound m ⟨t, arrived, s.fetched⟩ := by
  refine ⟨indexed, extends'.whole, ?_⟩
  have handed : t.b.q.queueHead.flatMap (rqStretch t.b) = s.q.b.q.queueHead.flatMap (rqStretch s.q.b) := by
    rw [extends'.head]
    exact gatherSame (fun x there => bareStretch (extends'.untouched x there))
  rw [joined, handed, List.append_assoc]
  refine (extends'.gathered.append_right _).trans ?_
  have turned := (@List.perm_append_comm _ more
    (s.q.b.q.queueHead.flatMap (rqStretch s.q.b) ++ s.fetched)).append_left (gathered s.q.b)
  rw [List.append_assoc]
  refine turned.trans ?_
  rw [← List.append_assoc, ← List.append_assoc]
  exact ok.sectors.append_right more

/- What every step keeps, and what it leaves alone of the requests handed over. -/
structure Stepped (m : BlkMerge) (s t : Traffic) : Prop where
  sound : Sound m t
  untouched : ∀ x ∈ s.q.b.q.queueHead,
    t.q.b.pos x = s.q.b.pos x ∧ (t.q.b.req x).dataLen = (s.q.b.req x).dataLen

theorem dispatchStepped (ok : Sound m s) : Stepped m s {s with q := (MergeHash.greedyDispatch s.q false).getD s.q} := by
  unfold MergeHash.greedyDispatch
  cases chosen : greedyTarget s.q.b with
  | none => exact ⟨ok, fun _ _ => ⟨rfl, rfl⟩⟩
  | some r =>
    have held := targetQueued chosen
    obtain ⟨indexed, lists, head, same⟩ := moveIndexed ok.indexed held
    refine ⟨⟨indexed, fun x there => ?_, ?_⟩, fun x _ => bareRange (same x)⟩
    · change WholeSectors ((MergeHash.greedyMove s.q r).b.req x).dataLen
      rw [sameLen same]
      exact ok.whole x (List.mem_of_mem_erase (lists ▸ there))
    · change (gathered (MergeHash.greedyMove s.q r).b ++
        (MergeHash.greedyMove s.q r).b.q.queueHead.flatMap (rqStretch (MergeHash.greedyMove s.q r).b) ++ s.fetched).Perm s.arrived
      have ranges : ∀ l : List Ref, l.flatMap (rqStretch (MergeHash.greedyMove s.q r).b) = l.flatMap (rqStretch s.q.b) :=
        fun l => gatherSame (fun x _ => sameStretch same x)
      rw [gathered, lists, head, ranges, ranges, List.flatMap_append, List.flatMap_singleton]
      refine List.Perm.trans (List.Perm.append_right _ ?_) ok.sectors
      refine List.Perm.trans ?_ ((gatherErase (rqStretch s.q.b) held).symm.append_right _)
      rw [List.append_assoc]
      exact List.perm_append_comm.append_left _

theorem fetchStepped (ok : Sound m s) {r : Ref} {rest : List Ref} (head : s.q.b.q.queueHead = r :: rest) :
    Stepped m s ⟨takeHead s.q rest, s.arrived, s.fetched ++ rqStretch s.q.b r⟩ := by
  refine ⟨⟨?_, ok.whole, ?_⟩, fun _ _ => ⟨rfl, rfl⟩⟩
  · obtain ⟨filed, queued, known, last, sorted, linked⟩ := ok.indexed
    refine ⟨filed, queued, known, last, sorted, ⟨?_, linked.counted⟩⟩
    have once := linked.once
    rw [head] at once
    exact once.sublist ((List.sublist_cons_self r rest).append_left s.q.b.queued)
  · have sectors := ok.sectors
    rw [head, List.flatMap_cons] at sectors
    refine List.Perm.trans ?_ sectors
    change (gathered s.q.b ++ rest.flatMap (rqStretch s.q.b) ++ (s.fetched ++ rqStretch s.q.b r)).Perm _
    rw [List.append_assoc, List.append_assoc]
    refine List.Perm.append_left _ ?_
    rw [← List.append_assoc, List.append_assoc (rqStretch s.q.b r)]
    exact List.perm_append_comm

theorem forbidStepped (ok : Sound m s) (r : Ref) : Stepped m s {s with q := forbidMerges s.q r} := by
  obtain ⟨indexed, lists, head⟩ := forbidIndexed ok.indexed r
  have same : ∀ x, (forbidMerges s.q r).b.pos x = s.q.b.pos x ∧
      ((forbidMerges s.q r).b.req x).dataLen = (s.q.b.req x).dataLen := by
    intro x
    have req : (forbidMerges s.q r).b.req = (s.q.b.setFlags r (fun f => {f with noMerge := true})).req := by
      unfold forbidMerges
      dsimp only
      split <;> rfl
    rw [BlockState.pos, req]
    simp only [BlockState.pos, BlockState.setFlags, BlockState.setReq]
    split <;> exact ⟨rfl, rfl⟩
  have ranges : ∀ l : List Ref, l.flatMap (rqStretch (forbidMerges s.q r).b) = l.flatMap (rqStretch s.q.b) := by
    refine fun l => gatherSame (fun x _ => ?_)
    rw [rqStretch, rqStretch, (same x).1, BlockState.sectors, BlockState.sectors, blkRqSectors, blkRqSectors,
      blkRqBytes, blkRqBytes, (same x).2]
  refine ⟨⟨indexed, fun x there => ?_, ?_⟩, fun x _ => same x⟩
  · rw [(same x).2]
    exact ok.whole x (lists ▸ there)
  · change (gathered (forbidMerges s.q r).b ++ (forbidMerges s.q r).b.q.queueHead.flatMap
      (rqStretch (forbidMerges s.q r).b) ++ s.fetched).Perm s.arrived
    rw [gathered, lists, head, ranges, ranges]
    exact ok.sectors

/- No step runs into a `BUG_ON` or fails to end. -/
theorem stepExact (rules : MergeRules m a) (ok : Sound m s) (op : Op) : ∃ t, step m a s op = some t ∧ Stepped m s t := by
  have still : Stepped m s s := ⟨ok, fun _ _ => ⟨rfl, rfl⟩⟩
  cases op with
  | add r rq tryMerge nomerges noxmerges =>
    by_cases fresh : Fresh s.q.b r rq
    · obtain ⟨indexed, placed, new⟩ := placeIndexed ok.indexed ok.whole fresh
      have here : (place s.q r rq).b.req r = rq := if_pos rfl
      have fs : ((place s.q r rq).b.req r).cmdType = .fs := by
        rw [here]
        exact fresh.2.2.1
      have len : WholeSectors ((place s.q r rq).b.req r).dataLen := by
        rw [here]
        exact fresh.2.2.2.2.2
      obtain ⟨t, added, indexedT, more⟩ := addSortedExact rules indexed placed.whole fs new len tryMerge nomerges
        noxmerges
      have all := extendsTrans placed more
      rw [List.nil_append] at all
      refine ⟨_, ?_, soundExtends ok indexedT all rfl, fun x there => bareRange (all.untouched x there)⟩
      simp only [step, if_pos fresh, added, Option.map_some]
    · exact ⟨s, if_neg fresh, still⟩
  | bio bio nomerges noxmerges =>
    by_cases len : WholeSectors bio.biSize
    · obtain ⟨answer, q, tried, kept, hit⟩ := elvMergeExact rules ok.indexed nomerges noxmerges bio
      have first := unmergedExtends kept ok.whole
      have hit' : ∀ type rq, answer = some (type, rq) → Hit q.b bio type rq := by
        intro type rq found
        obtain ⟨held, back, front⟩ := hit type rq found
        have lists : q.b.queued = s.q.b.queued := by
          rw [BlockState.queued, kept.q]
          rfl
        refine ⟨lists ▸ held, fun isBack => ?_, fun isFront => ?_⟩
        · rw [sameEnd kept.same]
          exact back isBack
        · rw [samePos kept.same]
          exact front isFront
      obtain ⟨merged, t, ran, indexed, more⟩ := mergeBioExact rules kept.indexed first.whole len hit'
      have all := extendsTrans first more
      rw [List.nil_append] at all
      refine ⟨⟨t, if merged then s.arrived ++ bioStretch bio else s.arrived, s.fetched⟩, ?_,
        soundExtends ok indexed all ?_, fun x there => bareRange (all.untouched x there)⟩
      · simp only [step, if_pos len, tried, ran, Option.map_some]
      · cases merged with
        | true => rfl
        | false => exact (List.append_nil _).symm
    · exact ⟨s, if_neg len, still⟩
  | dispatch => exact ⟨_, rfl, dispatchStepped ok⟩
  | fetch =>
    cases head : s.q.b.q.queueHead with
    | nil => exact ⟨s, by simp only [step, head], still⟩
    | cons r rest => exact ⟨_, by simp only [step, head], fetchStepped ok head⟩
  | forbid r => exact ⟨_, rfl, forbidStepped ok r⟩

theorem initialSound : Sound m initial where
  indexed := by
    refine ⟨HashTable.filedEmpty (fun _ mark => ?_), fun _ mark => ?_, (fun _ there => ?_), (fun _ last => ?_),
      (fun _ there => ?_), ⟨List.nodup_nil, rfl⟩⟩
    · cases mark
    · cases mark
    · cases there
    · cases last
    · cases there
  whole _ there := by cases there
  sectors := .refl _

theorem runSound (rules : MergeRules m a) (ops : List Op) :
    ∃ t, exec (step m a) initial ops = some t ∧ Sound m t := by
  have goes : ∀ s op, Sound m s → ∃ t, step m a s op = some t ∧ Sound m t := by
    intro s op ok
    obtain ⟨t, taken, stepped⟩ := stepExact rules ok op
    exact ⟨t, taken, stepped.sound⟩
  exact execTotal goes initialSound ops

end

/- Eight buckets; what meets is merged while its length stays below a megabyte. -/
def plainMerge : BlkMerge where
  hashMin key := key.toNat % 8
  rqMergeOk b rq _ := rqMergeable (b.req rq)
  tryMerge b rq bio := if b.endOf rq = bio.biSector then .backMerge
    else if b.pos rq - (bioSectors bio).setWidth 64 = bio.biSector then .frontMerge else .noMerge
  llBackMerge b rq bio := (b.req rq).dataLen.toNat + bio.biSize.toNat ≤ 2 ^ 20
  llFrontMerge b rq bio := (b.req rq).dataLen.toNat + bio.biSize.toNat ≤ 2 ^ 20

def PlainJoins (b : BlockState) (rq next : Ref) : Prop :=
  b.endOf rq = b.pos next ∧ rqMergeable (b.req rq) ∧ rqMergeable (b.req next) ∧
    (b.req rq).dataLen.toNat + (b.req next).dataLen.toNat ≤ 2 ^ 20
instance (b : BlockState) (rq next : Ref) : Decidable (PlainJoins b rq next) := by unfold PlainJoins; infer_instance

def plainReqMerge (s : HashQueue) (rq next : Ref) : Option (Bool × HashQueue) :=
  if PlainJoins s.b rq next then
    (elvMergeRequests plainMerge {s with b := absorb s.b rq next} rq next).map fun s => (true, s)
  else some (false, s)

def plainAttempt : BlkAttempt where
  blkAttemptReqMerge := plainReqMerge
  attemptBackMerge s rq := (greedyLatterRequest s.b rq).elim (some (false, s)) (fun next => plainReqMerge s rq next)
  attemptFrontMerge s rq := (greedyFormerRequest s.b rq).elim (some (false, s)) (fun prev => plainReqMerge s prev rq)

theorem plainRules : MergeRules plainMerge plainAttempt where
  triesBack b rq bio back := by
    simp only [plainMerge] at back
    split at back
    · assumption
    · split at back <;> cases back
  triesFront b rq bio front := by
    simp only [plainMerge] at front
    split at front
    · cases front
    · split at front
      · assumption
      · cases front
  backFits b rq bio fits := Nat.lt_of_le_of_lt (of_decide_eq_true fits) (by decide)
  frontFits b rq bio fits := Nat.lt_of_le_of_lt (of_decide_eq_true fits) (by decide)
  attempts s rq next := by
    by_cases joins : PlainJoins s.b rq next
    · exact Or.inr ⟨⟨joins.1, Nat.lt_of_le_of_lt joins.2.2.2 (by decide)⟩, if_pos joins⟩
    · exact Or.inl (if_neg joins)
  behind _ _ := rfl
  before _ _ := rfl

def eightSectors (first : Sector) : Request := {unused with sector := first, dataLen := 4096, cmdType := .fs}

/- A gap is closed by a bio, a request in front is found by its end, and one is forbidden to
merge while it is on the hash. -/
def threeMerge : List Op :=
  [.add 1 (eightSectors 8) true false false, .add 2 (eightSectors 24) true false false,
    .bio ⟨16, 4096⟩ false false, .add 3 (eightSectors 32) true false false, .add 4 (eightSectors 0) false false false,
    .add 5 (eightSectors 64) false false false, .forbid 5, .bio ⟨72, 4096⟩ false false,
    .dispatch, .add 6 (eightSectors 40) true false false, .fetch, .dispatch]

section
variable {m : BlkMerge} {a : BlkAttempt}

/- In every run the hash and the cached request lead to requests on the elevator's lists, no
lookup trips its `BUG_ON`, and each answers a mergeable request that ends there unless the
lists hold none. -/
theorem lookupsStayExact (rules : MergeRules m a) (ops : List Op) : ∃ t, exec (step m a) initial ops = some t ∧
    (∀ r, elvOnHash t.q.b r = true → r ∈ t.q.b.queued) ∧
    (∀ r, t.q.b.q.lastMerge = some r → r ∈ t.q.b.queued) ∧
    ∀ offset, ∃ answer u, elvRqhashFind m t.q offset = some (answer, u) ∧
      (∀ r, answer = some r → r ∈ t.q.b.queued ∧ rqMergeable (t.q.b.req r) = true ∧ t.q.b.endOf r = offset) ∧
      (answer = none → ∀ r ∈ t.q.b.queued, rqMergeable (t.q.b.req r) = true → t.q.b.endOf r ≠ offset) := by
  obtain ⟨t, ran, sound⟩ := runSound rules ops
  refine ⟨t, ran, sound.indexed.queued, sound.indexed.last, fun offset => ?_⟩
  obtain ⟨answer, gone, found, _, right, complete⟩ := findExact sound.indexed offset
  exact ⟨answer, _, found, right, complete⟩

theorem threeLookups : ∃ t, exec (step plainMerge plainAttempt) initial threeMerge = some t ∧
    (∀ r, elvOnHash t.q.b r = true → r ∈ t.q.b.queued) ∧
    (∀ r, t.q.b.q.lastMerge = some r → r ∈ t.q.b.queued) ∧
    ∀ offset, ∃ answer u, elvRqhashFind plainMerge t.q offset = some (answer, u) ∧
      (∀ r, answer = some r → r ∈ t.q.b.queued ∧ rqMergeable (t.q.b.req r) = true ∧ t.q.b.endOf r = offset) ∧
      (answer = none → ∀ r ∈ t.q.b.queued, rqMergeable (t.q.b.req r) = true → t.q.b.endOf r ≠ offset) :=
  lookupsStayExact plainRules threeMerge

/- Merging loses no sector and doubles none, and every attempt to merge comes to an end. -/
theorem mergingKeepsSectors (rules : MergeRules m a) (ops : List Op) : ∃ t, exec (step m a) initial ops = some t ∧
    (t.q.b.queued.flatMap (rqStretch t.q.b) ++ t.q.b.q.queueHead.flatMap (rqStretch t.q.b) ++ t.fetched).Perm
      t.arrived := by
  obtain ⟨t, ran, sound⟩ := runSound rules ops
  exact ⟨t, ran, sound.sectors⟩

theorem threeKeepSectors : (∃ t, exec (step plainMerge plainAttempt) initial threeMerge = some t ∧
    (t.q.b.queued.flatMap (rqStretch t.q.b) ++ t.q.b.q.queueHead.flatMap (rqStretch t.q.b) ++ t.fetched).Perm
      t.arrived) ∧
    (exec (step plainMerge plainAttempt) initial threeMerge).map (fun t => (t.q.b.queued, t.fetched.length, t.arrived.length)) =
      some ([4], 8, 56) :=
  ⟨mergingKeepsSectors plainRules threeMerge, by decide +kernel⟩

/- No merge reaches a request that was handed to the driver. -/
theorem handedOverIsFrozen (rules : MergeRules m a) (ops : List Op) : EachStep (step m a) (fun s _ t =>
    ∀ x ∈ s.q.b.q.queueHead, t.q.b.pos x = s.q.b.pos x ∧ (t.q.b.req x).dataLen = (s.q.b.req x).dataLen)
    initial ops := by
  have same : ∀ s op t, Sound m s → step m a s op = some t → Stepped m s t := by
    intro s op t ok taken
    obtain ⟨u, ran, stepped⟩ := stepExact rules ok op
    cases Option.some.inj (ran.symm.trans taken)
    exact stepped
  exact eachStepInvariant (fun s op t ok taken => (same s op t ok taken).sound)
    (fun s op t ok taken => (same s op t ok taken).untouched) initialSound ops

theorem threeFrozen : EachStep (step plainMerge plainAttempt) (fun s _ t =>
    ∀ x ∈ s.q.b.q.queueHead, t.q.b.pos x = s.q.b.pos x ∧ (t.q.b.req x).dataLen = (s.q.b.req x).dataLen)
    initial threeMerge :=
  handedOverIsFrozen plainRules threeMerge

end

end KernelLabs.MergeRuns
