import KernelLabs.Block.Conservation
import KernelLabs.Block.Merging
import KernelLabs.Block.Neighbours
import KernelLabs.Library.HashTable

/-! The merge hash of the elevator core with its buckets, over the greedy elevator: requests
are found by the sector behind their end, and a request whose end moves has to change its
bucket. With it the two lookups for a merge, of a bio and of a new request. -/
namespace KernelLabs.MergeHash
open Block Conservation HashTable LinkedList Neighbours
open Merging (ElvMerge bioSectors absorb)

/- `table` is `e->hash`, by bucket; the rest of the queue is as before. -/
structure HashQueue where
  b : BlockState
  table : Nat → List Ref

def rqHashKey (b : BlockState) (r : Ref) : Sector := b.endOf r

/- `__elv_rqhash_del`: the node is unlinked from whichever bucket it is in. -/
def hashDel (s : HashQueue) (r : Ref) : HashQueue :=
  ⟨s.b.setFlags r (fun f => {f with hashed := false}), drop s.table r⟩

def elvRqhashDel (s : HashQueue) (r : Ref) : HashQueue := if elvOnHash s.b r then hashDel s r else s

/- `blk-merge.c` is outside: what it allows. So is `hash_min`, the bucket of a key. -/
structure BlkMerge where
  hashMin : Sector → Nat
  rqMergeOk : BlockState → Ref → Merging.Bio → Bool
  tryMerge : BlockState → Ref → Merging.Bio → ElvMerge
  llBackMerge : BlockState → Ref → Merging.Bio → Bool
  llFrontMerge : BlockState → Ref → Merging.Bio → Bool

/- Its functions that merge two requests, and call the elevator for it. They answer whether they
merged; `none` is a `BUG_ON`. -/
structure BlkAttempt where
  blkAttemptReqMerge : HashQueue → Ref → Ref → Option (Bool × HashQueue)
  attemptBackMerge : HashQueue → Ref → Option (Bool × HashQueue)
  attemptFrontMerge : HashQueue → Ref → Option (Bool × HashQueue)

section
variable (m : BlkMerge)

/- `none` is the `BUG_ON`. -/
def elvRqhashAdd (s : HashQueue) (r : Ref) : Option HashQueue :=
  if elvOnHash s.b r then none
  else some ⟨s.b.setFlags r (fun f => {f with hashed := true}), put s.table (m.hashMin (rqHashKey s.b r)) r⟩

def elvRqhashReposition (s : HashQueue) (r : Ref) : Option HashQueue := elvRqhashAdd m (hashDel s r) r

/- The walk along a bucket. A request that may no longer be merged is taken off the hash
as it is passed. `none` is the `BUG_ON`. -/
def findLoop (offset : Sector) : List Ref → HashQueue → Option (Option Ref × HashQueue)
  | [], s => some (none, s)
  | r :: rest, s =>
    if !elvOnHash s.b r then none
    else if !rqMergeable (s.b.req r) then findLoop offset rest (hashDel s r)
    else if rqHashKey s.b r = offset then some (some r, s)
    else findLoop offset rest s

def elvRqhashFind (s : HashQueue) (offset : Sector) : Option (Option Ref × HashQueue) :=
  findLoop offset (s.table (m.hashMin offset)) s

def setLast (s : HashQueue) (r : Ref) : HashQueue :=
  {s with b := {s.b with q := {s.b.q with lastMerge := some r}}}

def elvMergeRequests (s : HashQueue) (rq next : Ref) : Option HashQueue :=
  let nextSorted := (s.b.req next).cmdFlags.sorted
  let s := if nextSorted then {s with b := greedyMergedRequests s.b rq next} else s
  (elvRqhashReposition m s rq).map fun s =>
    let s := if nextSorted then
        let s := elvRqhashDel s next
        {s with b := {s.b with q := {s.b.q with nrSorted := s.b.q.nrSorted - 1}}}
      else s
    setLast s rq

variable (a : BlkAttempt)

/- The loop of `elv_attempt_insert_merge`; each round merges the request of the last one
into the request found behind it. `fuel` bounds the rounds. -/
def insertMergeLoop : Nat → HashQueue → Ref → Bool → Option (Bool × HashQueue)
  | 0, _, _, _ => none
  | fuel + 1, s, rq, ret =>
    match elvRqhashFind m s (s.b.pos rq) with
    | none => none
    | some (none, s) => some (ret, s)
    | some (some found, s) =>
      match a.blkAttemptReqMerge s found rq with
      | none => none
      | some (false, s) => some (ret, s)
      | some (true, s) => insertMergeLoop fuel s found true

/- The one-hit cache of `elv_attempt_insert_merge`. -/
def lastAttempt (s : HashQueue) (rq : Ref) : Option (Bool × HashQueue) :=
  match s.b.q.lastMerge with
  | none => some (false, s)
  | some last => a.blkAttemptReqMerge s last rq

def elvAttemptInsertMerge (nomerges noxmerges : Bool) (fuel : Nat) (s : HashQueue) (rq : Ref) :
    Option (Bool × HashQueue) :=
  if nomerges then some (false, s)
  else match lastAttempt a s rq with
    | none => none
    | some (true, s) => some (true, s)
    | some (false, s) => if noxmerges then some (false, s) else insertMergeLoop m a fuel s rq false

/- The greedy elevator has neither `elevator_merge_fn` nor `elevator_allow_merge_fn`. -/
def elvMerge (nomerges noxmerges : Bool) (s : HashQueue) (bio : Merging.Bio) :
    Option (Option (ElvMerge × Ref) × HashQueue) :=
  if nomerges then some (none, s)
  else
    let last := match s.b.q.lastMerge with
      | some last => if m.rqMergeOk s.b last bio ∧ m.tryMerge s.b last bio ≠ .noMerge then
          some (m.tryMerge s.b last bio, last) else none
      | none => none
    match last with
    | some hit => some (some hit, s)
    | none =>
      if noxmerges then some (none, s)
      else match elvRqhashFind m s bio.biSector with
        | none => none
        | some (some r, s) => some (if m.rqMergeOk s.b r bio then some (.backMerge, r) else none, s)
        | some (none, s) => some (none, s)

/- The greedy elevator has no `elevator_merged_fn`. -/
def elvMergedRequest (s : HashQueue) (rq : Ref) (type : ElvMerge) : Option HashQueue :=
  (if type = .backMerge then elvRqhashReposition m s rq else some s).map (setLast · rq)

def growBack (s : HashQueue) (rq : Ref) (bio : Merging.Bio) : HashQueue :=
  {s with b := (Merging.bioAttemptBackMerge true s.b rq bio).2}

def growFront (s : HashQueue) (rq : Ref) (bio : Merging.Bio) : HashQueue :=
  {s with b := (Merging.bioAttemptFrontMerge true s.b rq bio).2}

/- What `blk_queue_bio` does with the answer of `elv_merge`; false where a request is needed. -/
def mergeBio (s : HashQueue) (bio : Merging.Bio) : Option (ElvMerge × Ref) → Option (Bool × HashQueue)
  | some (.backMerge, rq) =>
    if m.llBackMerge s.b rq bio then
      let s := growBack s rq bio
      match a.attemptBackMerge s rq with
      | none => none
      | some (true, s) => some (true, s)
      | some (false, s) => (elvMergedRequest m s rq .backMerge).map fun s => (true, s)
    else some (false, s)
  | some (.frontMerge, rq) =>
    if m.llFrontMerge s.b rq bio then
      let s := growFront s rq bio
      match a.attemptFrontMerge s rq with
      | none => none
      | some (true, s) => some (true, s)
      | some (false, s) => (elvMergedRequest m s rq .frontMerge).map fun s => (true, s)
    else some (false, s)
  | some (.noMerge, _) => some (false, s)
  | none => some (false, s)

def hashMergeable (s : HashQueue) (r : Ref) : Option HashQueue :=
  if rqMergeable (s.b.req r) then
    (elvRqhashAdd m s r).map fun s => if s.b.q.lastMerge = none then setLast s r else s
  else some s

def elvInsertSort (s : HashQueue) (r : Ref) : Option HashQueue :=
  if (s.b.req r).cmdType ≠ .fs then none
  else (hashMergeable m {s with b := markSorted s.b r} r).map fun s => {s with b := greedyAddRequest s.b r}

end

def elvDispatchAddTail (s : HashQueue) (r : Ref) : HashQueue :=
  let s := if s.b.q.lastMerge = some r then {s with b := {s.b with q := {s.b.q with lastMerge := none}}} else s
  let s := elvRqhashDel s r
  {s with b := {s.b with q := {s.b.q with
    nrSorted := s.b.q.nrSorted - 1,
    endSector := s.b.endOf r,
    boundaryRq := some r,
    queueHead := s.b.q.queueHead ++ [r]}}}

def greedyMove (s : HashQueue) (target : Ref) : HashQueue :=
  let s := elvDispatchAddTail {s with b := s.b.listDelInit target} target
  {s with b := {s.b with q := {s.b.q with gd := {s.b.q.gd with prevPos := s.b.endOf target}}}}

def greedyDispatch (s : HashQueue) (_force : Bool) : Option HashQueue :=
  (greedyTarget s.b).map (greedyMove s)

/- `REQ_NOMERGE` is set where a limit of the queue is hit; a cached request is forgotten then. -/
def forbidMerges (s : HashQueue) (r : Ref) : HashQueue :=
  let b := s.b.setFlags r (fun f => {f with noMerge := true})
  {s with b := if b.q.lastMerge = some r then {b with q := {b.q with lastMerge := none}} else b}

/- A request without its mark of being on the hash. -/
def bare (rq : Request) : Request := {rq with cmdFlags := {rq.cmdFlags with hashed := false}}

/- Requests that differ in that mark at most. -/
def SameRequests (b c : BlockState) : Prop := ∀ x, bare (c.req x) = bare (b.req x)

section
variable {b c d : BlockState}

theorem sameTrans (first : SameRequests b c) (second : SameRequests c d) : SameRequests b d :=
  fun x => (second x).trans (first x)

theorem samePos (same : SameRequests b c) (x : Ref) : c.pos x = b.pos x := by
  have fields := congrArg Request.sector (same x)
  exact fields

theorem sameLen (same : SameRequests b c) (x : Ref) : (c.req x).dataLen = (b.req x).dataLen := by
  have fields := congrArg Request.dataLen (same x)
  exact fields

theorem sameEnd (same : SameRequests b c) (x : Ref) : c.endOf x = b.endOf x := by
  have fields := congrArg rqEndSector (same x)
  exact fields

theorem sameSortedFlag (same : SameRequests b c) (x : Ref) : sortedFlag c x = sortedFlag b x := by
  have fields := congrArg (fun rq => rq.cmdFlags.sorted) (same x)
  exact fields

theorem sameMergeable (same : SameRequests b c) (x : Ref) : rqMergeable (c.req x) = rqMergeable (b.req x) := by
  have fields := congrArg rqMergeable (same x)
  exact fields

theorem setHashedSame (b : BlockState) (r : Ref) (on : Bool) :
    SameRequests b (b.setFlags r (fun f => {f with hashed := on})) := by
  intro x
  simp only [BlockState.setFlags, BlockState.setReq]
  split <;> rfl

theorem setHashedOn (b : BlockState) (r x : Ref) (on : Bool) :
    elvOnHash (b.setFlags r (fun f => {f with hashed := on})) x = if x = r then on else elvOnHash b x := by
  simp only [elvOnHash, BlockState.setFlags, BlockState.setReq]
  split <;> rfl

end

/- Each request marked as hashed is in the bucket of its end, and no other is in a bucket. -/
def Files (m : BlkMerge) (s : HashQueue) : Prop :=
  Filed (fun r => m.hashMin (rqHashKey s.b r)) (fun r => elvOnHash s.b r = true) s.table

/- The hash finds its requests, and those on it, and the request cached for the next merge,
are on the elevator's lists; none that may be merged is missing. -/
structure Indexed (m : BlkMerge) (s : HashQueue) : Prop where
  filed : Files m s
  queued : ∀ r, elvOnHash s.b r = true → r ∈ s.b.queued
  known : ∀ r ∈ s.b.queued, rqMergeable (s.b.req r) = true → elvOnHash s.b r = true
  last : ∀ r, s.b.q.lastMerge = some r → r ∈ s.b.queued
  sorted : ∀ r ∈ s.b.queued, sortedFlag s.b r = true
  linked : Linked s.b

section
variable {m : BlkMerge} {s t : HashQueue}

theorem hashDelFiles (files : Files m s) (r : Ref) : Files m (hashDel s r) := by
  refine filedCongr (filedDrop files r) (fun x => ?_) (fun x _ => ?_)
  · rw [hashDel, setHashedOn]
    by_cases same : x = r
    · rw [if_pos same]
      exact ⟨fun h => absurd same h.2, (fun h => by cases h)⟩
    · rw [if_neg same]
      exact ⟨fun h => h.1, fun h => ⟨h, same⟩⟩
  · exact congrArg m.hashMin (sameEnd (setHashedSame s.b r false) x).symm

/- A change of the hash alone: which requests are on it after taking `r` off or putting it on. -/
structure Rehashed (m : BlkMerge) (b : BlockState) (t : HashQueue) (on : Ref → Prop) : Prop where
  filed : Files m t
  q : t.b.q = b.q
  same : SameRequests b t.b
  marks : ∀ x, elvOnHash t.b x = true ↔ on x

theorem hashDelRehashes (files : Files m s) (r : Ref) :
    Rehashed m s.b (hashDel s r) (fun x => elvOnHash s.b x = true ∧ x ≠ r) := by
  refine ⟨hashDelFiles files r, rfl, setHashedSame s.b r false, fun x => ?_⟩
  rw [hashDel, setHashedOn]
  by_cases same : x = r
  · rw [if_pos same]
    exact ⟨(fun h => by cases h), fun h => absurd same h.2⟩
  · rw [if_neg same]
    exact ⟨fun h => ⟨h, same⟩, fun h => h.1⟩

theorem rqhashDelRehashes (files : Files m s) (r : Ref) :
    Rehashed m s.b (elvRqhashDel s r) (fun x => elvOnHash s.b x = true ∧ x ≠ r) := by
  unfold elvRqhashDel
  split
  · exact hashDelRehashes files r
  · rename_i off
    exact ⟨files, rfl, fun _ => rfl, fun x => ⟨fun h => ⟨h, fun same => off (same ▸ h)⟩, fun h => h.1⟩⟩

theorem rqhashAddRehashes (files : Files m s) {r : Ref} (off : elvOnHash s.b r = false) :
    ∃ t, elvRqhashAdd m s r = some t ∧ Rehashed m s.b t (fun x => elvOnHash s.b x = true ∨ x = r) := by
  have fresh : ¬ elvOnHash s.b r = true := by rw [off]; exact Bool.false_ne_true
  rw [elvRqhashAdd, if_neg fresh]
  have marks : ∀ x, elvOnHash (s.b.setFlags r (fun f => {f with hashed := true})) x = true ↔
      elvOnHash s.b x = true ∨ x = r := by
    intro x
    rw [setHashedOn]
    by_cases same : x = r
    · rw [if_pos same]
      exact ⟨fun _ => Or.inr same, fun _ => rfl⟩
    · rw [if_neg same]
      exact ⟨Or.inl, fun h => h.resolve_right same⟩
  refine ⟨_, rfl, ?_, rfl, setHashedSame s.b r true, marks⟩
  refine filedCongr (filedPut files fresh) (fun x => (marks x).symm) (fun x _ => ?_)
  exact congrArg m.hashMin (sameEnd (setHashedSame s.b r true) x).symm

/- The hash is right for `b`, and `c` has moved the end of `r` alone: repositioned, it is right
for `c`. It never trips the `BUG_ON`, since the request is taken off first. -/
theorem repositionRehashes {b c : BlockState} {table : Nat → List Ref} (files : Files m ⟨b, table⟩) {r : Ref}
    (ends : ∀ x, x ≠ r → c.endOf x = b.endOf x) (marks : ∀ x, elvOnHash c x = elvOnHash b x) :
    ∃ t, elvRqhashReposition m ⟨c, table⟩ r = some t ∧
      Rehashed m c t (fun x => elvOnHash b x = true ∨ x = r) := by
  have gone : Files m (hashDel ⟨c, table⟩ r) := by
    refine filedCongr (filedDrop files r) (fun x => ?_) (fun x here => ?_)
    · rw [hashDel, setHashedOn, marks]
      by_cases same : x = r
      · rw [if_pos same]
        exact ⟨fun h => absurd same h.2, (fun h => by cases h)⟩
      · rw [if_neg same]
        exact ⟨fun h => h.1, fun h => ⟨h, same⟩⟩
    · exact congrArg m.hashMin ((sameEnd (setHashedSame c r false) x).trans (ends x here.2)).symm
  have off : elvOnHash (hashDel ⟨c, table⟩ r).b r = false := by rw [hashDel, setHashedOn, if_pos rfl]
  obtain ⟨t, added, rehashed⟩ := rqhashAddRehashes gone off
  refine ⟨t, added, rehashed.filed, rehashed.q, sameTrans (setHashedSame c r false) rehashed.same, fun x => ?_⟩
  rw [rehashed.marks, hashDel, setHashedOn, marks]
  by_cases same : x = r
  · exact ⟨fun _ => Or.inr same, fun _ => Or.inr same⟩
  · rw [if_neg same]

theorem hashDelIndexed (ok : Indexed m s) {r : Ref} (stale : rqMergeable (s.b.req r) = false) :
    Indexed m (hashDel s r) := by
  have rehashed := hashDelRehashes ok.filed r
  refine ⟨rehashed.filed, fun x mark => ok.queued x ((rehashed.marks x).mp mark).1, fun x there able => ?_, ok.last,
    fun x member => (sameSortedFlag rehashed.same x).trans (ok.sorted x member),
    ⟨ok.linked.once, ok.linked.counted⟩⟩
  have able' : rqMergeable (s.b.req x) = true := (sameMergeable rehashed.same x).symm.trans able
  refine (rehashed.marks x).mpr ⟨ok.known x there able', fun same => ?_⟩
  rw [same, stale] at able'
  cases able'

/- Requests taken off the hash one after the other. -/
theorem dropsKeep (ok : Indexed m s) {gone : List Ref} (stale : ∀ r ∈ gone, rqMergeable (s.b.req r) = false) :
    Indexed m (gone.foldl hashDel s) ∧ SameRequests s.b (gone.foldl hashDel s).b ∧
      (gone.foldl hashDel s).b.q = s.b.q := by
  induction gone generalizing s with
  | nil => exact ⟨ok, fun _ => rfl, rfl⟩
  | cons r gone ih =>
    have same := setHashedSame s.b r false
    obtain ⟨last, later, q⟩ := ih (hashDelIndexed ok (stale r List.mem_cons_self)) (fun x member =>
      (sameMergeable same x).trans (stale x (List.mem_cons_of_mem r member)))
    exact ⟨last, sameTrans same later, q⟩

/- The walk along a bucket whose requests are all marked: it answers the first mergeable one
with the key, and drops the unmergeable ones before it. -/
theorem findLoopFinds (offset : Sector) {l : List Ref} (marked : ∀ r ∈ l, elvOnHash s.b r = true)
    (once : l.Nodup) : ∃ answer, ∃ gone : List Ref, findLoop offset l s = some (answer, gone.foldl hashDel s) ∧
    (∀ r ∈ gone, rqMergeable (s.b.req r) = false) ∧
    (∀ r, answer = some r → r ∈ l ∧ rqMergeable (s.b.req r) = true ∧ rqHashKey s.b r = offset) ∧
    (answer = none → ∀ r ∈ l, rqMergeable (s.b.req r) = true → rqHashKey s.b r ≠ offset) := by
  induction l generalizing s with
  | nil => exact ⟨none, [], rfl, (fun _ member => by cases member), (fun _ found => by cases found),
      fun _ _ member => by cases member⟩
  | cons r rest ih =>
    obtain ⟨fresh, once'⟩ := List.nodup_cons.mp once
    have mark : elvOnHash s.b r = true := marked r List.mem_cons_self
    have later : ∀ x ∈ rest, elvOnHash s.b x = true := fun x member => marked x (List.mem_cons_of_mem r member)
    rw [findLoop, if_neg (by rw [mark]; exact Bool.false_ne_true)]
    by_cases mergeable : rqMergeable (s.b.req r) = true
    · rw [if_neg (by rw [mergeable]; exact Bool.false_ne_true)]
      split
      · rename_i hit
        refine ⟨some r, [], rfl, (fun _ member => by cases member), fun x found => ?_, fun none' => by cases none'⟩
        cases Option.some.inj found
        exact ⟨List.mem_cons_self, mergeable, hit⟩
      · rename_i miss
        obtain ⟨answer, gone, ran, dropped, found, absent⟩ := ih later once'
        refine ⟨answer, gone, ran, dropped, fun x hit => ?_, fun none' x member able => ?_⟩
        · obtain ⟨member, rest'⟩ := found x hit
          exact ⟨List.mem_cons_of_mem r member, rest'⟩
        · rcases List.mem_cons.mp member with rfl | further
          · exact miss
          · exact absent none' x further able
    · have stale : rqMergeable (s.b.req r) = false := Bool.eq_false_iff.mpr mergeable
      rw [if_pos (by rw [stale]; rfl)]
      have same := setHashedSame s.b r false
      have later' : ∀ x ∈ rest, elvOnHash (hashDel s r).b x = true := by
        intro x member
        have apart : x ≠ r := fun eq => fresh (eq ▸ member)
        rw [hashDel, setHashedOn, if_neg apart]
        exact later x member
      obtain ⟨answer, gone, ran, dropped, found, absent⟩ := ih later' once'
      refine ⟨answer, r :: gone, ran, fun x member => ?_, fun x hit => ?_, fun none' x member able => ?_⟩
      · rcases List.mem_cons.mp member with rfl | further
        · exact stale
        · exact (sameMergeable same x).symm.trans (dropped x further)
      · obtain ⟨member, able, key⟩ := found x hit
        exact ⟨List.mem_cons_of_mem r member, (sameMergeable same x).symm.trans able,
          (sameEnd same x).symm.trans key⟩
      · rcases List.mem_cons.mp member with rfl | further
        · exact absurd able mergeable
        · exact fun key => absent none' x further ((sameMergeable same x).trans able) ((sameEnd same x).trans key)

/- The lookup is exact: it never trips its `BUG_ON`, what it answers is on the elevator's
lists, may be merged and ends at the sector, and where it answers nothing no request on these
lists that may be merged ends there. -/
theorem findExact (ok : Indexed m s) (offset : Sector) : ∃ answer, ∃ gone : List Ref,
    elvRqhashFind m s offset = some (answer, gone.foldl hashDel s) ∧
    (∀ r ∈ gone, rqMergeable (s.b.req r) = false) ∧
    (∀ r, answer = some r → r ∈ s.b.queued ∧ rqMergeable (s.b.req r) = true ∧ rqHashKey s.b r = offset) ∧
    (answer = none → ∀ r ∈ s.b.queued, rqMergeable (s.b.req r) = true → rqHashKey s.b r ≠ offset) := by
  have marked : ∀ r ∈ s.table (m.hashMin offset), elvOnHash s.b r = true := fun r member =>
    ((ok.filed.found _ r).mp member).1
  obtain ⟨answer, gone, ran, dropped, found, absent⟩ := findLoopFinds offset marked (ok.filed.once _)
  refine ⟨answer, gone, ran, dropped, fun r hit => ?_, fun none' r there able key => ?_⟩
  · obtain ⟨member, able, key⟩ := found r hit
    exact ⟨ok.queued r (marked r member), able, key⟩
  · have member : r ∈ s.table (m.hashMin offset) :=
      (ok.filed.found _ r).mpr ⟨ok.known r there able, congrArg m.hashMin key⟩
    exact absent none' r member able key

theorem setLastIndexed (ok : Indexed m s) {r : Ref} (held : r ∈ s.b.queued) : Indexed m (setLast s r) :=
  ⟨ok.filed, ok.queued, ok.known, fun _ last => Option.some.inj last ▸ held, ok.sorted,
    ⟨ok.linked.once, ok.linked.counted⟩⟩

/- What a request is merged with: a queued one, or one that was never on the elevator. -/
structure Partner (b : BlockState) (rq next : Ref) : Prop where
  held : rq ∈ b.queued
  apart : next ≠ rq
  fresh : next ∉ b.queued → next ∉ b.q.queueHead ∧ sortedFlag b next = false

/- One request has a new range; the queue and the flags are as before. -/
structure Grown (b c : BlockState) (rq : Ref) : Prop where
  q : c.q = b.q
  others : ∀ x, x ≠ rq → c.req x = b.req x
  flags : ∀ x, (c.req x).cmdFlags = (b.req x).cmdFlags
  types : ∀ x, (c.req x).cmdType = (b.req x).cmdType

theorem grownBy (b : BlockState) (rq : Ref) (f : Request → Request) (keeps : ∀ r, (f r).cmdFlags = r.cmdFlags)
    (keepsType : ∀ r, (f r).cmdType = r.cmdType) : Grown b (b.setReq rq f) rq where
  q := rfl
  others x other := if_neg other
  flags x := by
    simp only [BlockState.setReq]
    split
    · exact keeps (b.req x)
    · rfl
  types x := by
    simp only [BlockState.setReq]
    split
    · exact keepsType (b.req x)
    · rfl

theorem absorbGrown (b : BlockState) (rq next : Ref) : Grown b (absorb b rq next) rq :=
  grownBy b rq (fun r => {r with dataLen := r.dataLen + (b.req next).dataLen}) (fun _ => rfl) (fun _ => rfl)

theorem growBackGrown (s : HashQueue) (rq : Ref) (bio : Merging.Bio) : Grown s.b (growBack s rq bio).b rq :=
  grownBy s.b rq (fun r => {r with dataLen := r.dataLen + bio.biSize}) (fun _ => rfl) (fun _ => rfl)

theorem growFrontGrown (s : HashQueue) (rq : Ref) (bio : Merging.Bio) : Grown s.b (growFront s rq bio).b rq :=
  grownBy s.b rq (fun r => {r with sector := bio.biSector, dataLen := r.dataLen + bio.biSize}) (fun _ => rfl) (fun _ => rfl)

theorem grownTrans {b c d : BlockState} {rq : Ref} (first : Grown b c rq) (second : Grown c d rq) :
    Grown b d rq where
  q := second.q.trans first.q
  others x other := (second.others x other).trans (first.others x other)
  flags x := (second.flags x).trans (first.flags x)
  types x := (second.types x).trans (first.types x)

section
variable {b c : BlockState} {rq : Ref}

theorem grownMark (grown : Grown b c rq) (x : Ref) : elvOnHash c x = elvOnHash b x :=
  congrArg CmdFlags.hashed (grown.flags x)

theorem grownSorted (grown : Grown b c rq) (x : Ref) : sortedFlag c x = sortedFlag b x :=
  congrArg CmdFlags.sorted (grown.flags x)

theorem grownMergeable (grown : Grown b c rq) (x : Ref) : rqMergeable (c.req x) = rqMergeable (b.req x) := by
  rw [rqMergeable, rqMergeable, grown.flags, grown.types]

theorem grownEnd (grown : Grown b c rq) (x : Ref) (other : x ≠ rq) : c.endOf x = b.endOf x :=
  congrArg rqEndSector (grown.others x other)

theorem grownQueued (grown : Grown b c rq) : c.queued = b.queued := by
  rw [BlockState.queued, grown.q]
  rfl

end

/- A request that has grown is put into the bucket of its new end. -/
theorem repositionIndexed {c : BlockState} (ok : Indexed m s) {rq : Ref} (grown : Grown s.b c rq)
    (held : rq ∈ s.b.queued) : ∃ t, elvRqhashReposition m ⟨c, s.table⟩ rq = some t ∧ Indexed m t ∧
    t.b.queued = s.b.queued ∧ t.b.q.queueHead = s.b.q.queueHead ∧ SameRequests c t.b := by
  obtain ⟨u, moved, filed⟩ := repositionRehashes ok.filed (grownEnd grown) (grownMark grown)
  have q : u.b.q = s.b.q := filed.q.trans grown.q
  have lists : u.b.queued = s.b.queued := by
    rw [BlockState.queued, q]
    rfl
  have head : u.b.q.queueHead = s.b.q.queueHead := congrArg RequestQueue.queueHead q
  refine ⟨u, moved, ⟨filed.filed, fun x mark => ?_, fun x there able => ?_, fun x last => ?_, fun x there => ?_, ?_,
    ?_⟩, lists, head, filed.same⟩
  · rw [lists]
    exact ((filed.marks x).mp mark).elim (ok.queued x) (fun eq => eq ▸ held)
  · have able' := (grownMergeable grown x).symm.trans ((sameMergeable filed.same x).symm.trans able)
    exact (filed.marks x).mpr (Or.inl (ok.known x (lists ▸ there) able'))
  · rw [lists]
    exact ok.last x ((congrArg RequestQueue.lastMerge q).symm.trans last)
  · have kept := (sameSortedFlag filed.same x).trans (grownSorted grown x)
    exact kept.trans (ok.sorted x (lists ▸ there))
  · rw [lists, head]
    exact ok.linked.once
  · rw [lists, q]
    exact ok.linked.counted

/- The queue after a merge, with the requests as the caller left them. -/
structure Merged (b c d : BlockState) (rq next : Ref) : Prop where
  queued : d.queued = b.queued.erase next
  head : d.q.queueHead = b.q.queueHead
  same : SameRequests c d

/- The survivor has grown before, and the hash does not know it. -/
theorem mergeIndexed {c : BlockState} (ok : Indexed m s) {rq next : Ref} (grown : Grown s.b c rq)
    (partner : Partner s.b rq next) : ∃ t, elvMergeRequests m ⟨c, s.table⟩ rq next = some t ∧ Indexed m t ∧
    Merged s.b c t.b rq next := by
  have nodup := linkedQueued ok.linked
  have flag : (c.req next).cmdFlags.sorted = sortedFlag s.b next := grownSorted grown next
  have inQueue : rq ∈ s.b.queued.erase next :=
    nodup.mem_erase_iff.mpr ⟨fun same => partner.apart same.symm, partner.held⟩
  unfold elvMergeRequests
  by_cases sorted : sortedFlag s.b next = true
  · have member : next ∈ s.b.queued := by
      by_contra absent
      rw [(partner.fresh absent).2] at sorted
      cases sorted
    simp only [flag, sorted, if_true]
    have ends := grownEnd grown
    have marks := grownMark grown
    obtain ⟨u, moved, filed⟩ := repositionRehashes (c := greedyMergedRequests c rq next) ok.filed ends marks
    have cleared := rqhashDelRehashes filed.filed next
    have q : (elvRqhashDel u next).b.q = (s.b.listDelInit next).q := by
      rw [cleared.q, filed.q]
      simp only [greedyMergedRequests, BlockState.listDelInit, grown.q]
    have same : SameRequests c (elvRqhashDel u next).b := sameTrans filed.same cleared.same
    have lists : (elvRqhashDel u next).b.queued = s.b.queued.erase next := by
      rw [BlockState.queued, q]
      exact eraseBoth nodup next
    have head : (elvRqhashDel u next).b.q.queueHead = s.b.q.queueHead := by
      rw [q]
      exact List.erase_of_not_mem (linkedApart ok.linked member)
    have counted : (elvRqhashDel u next).b.q.nrSorted = s.b.q.nrSorted := by
      rw [q]
      rfl
    rw [moved]
    refine ⟨_, rfl, ⟨cleared.filed, fun x mark => ?_, fun x there able => ?_, fun x last => ?_, fun x there => ?_,
      ?_, ?_⟩, lists, head, same⟩
    · change x ∈ (elvRqhashDel u next).b.queued
      obtain ⟨here, apart⟩ := (cleared.marks x).mp mark
      rw [lists]
      refine nodup.mem_erase_iff.mpr ⟨apart, ?_⟩
      exact ((filed.marks x).mp here).elim (ok.queued x) (fun eq => eq ▸ partner.held)
    · change x ∈ (elvRqhashDel u next).b.queued at there
      rw [lists] at there
      obtain ⟨apart, before⟩ := nodup.mem_erase_iff.mp there
      have able' := (grownMergeable grown x).symm.trans ((sameMergeable same x).symm.trans able)
      exact (cleared.marks x).mpr ⟨(filed.marks x).mpr (Or.inl (ok.known x before able')), apart⟩
    · change x ∈ (elvRqhashDel u next).b.queued
      cases Option.some.inj last
      rw [lists]
      exact inQueue
    · change x ∈ (elvRqhashDel u next).b.queued at there
      rw [lists] at there
      have kept := (sameSortedFlag same x).trans (grownSorted grown x)
      exact kept.trans (ok.sorted x (List.mem_of_mem_erase there))
    · change ((elvRqhashDel u next).b.queued ++ (elvRqhashDel u next).b.q.queueHead).Nodup
      rw [lists, head]
      exact ok.linked.once.sublist ((List.erase_sublist).append_right _)
    · change (elvRqhashDel u next).b.q.nrSorted - 1 = BitVec.ofNat 32 (elvRqhashDel u next).b.queued.length
      rw [counted, ok.linked.counted, lists, List.length_erase_of_mem member]
      exact countDown (List.length_pos_of_mem member)
  · have absent : next ∉ s.b.queued := fun member => sorted (ok.sorted next member)
    have unsorted : sortedFlag s.b next = false := (partner.fresh absent).2
    simp only [flag, unsorted, Bool.false_eq_true, if_false]
    obtain ⟨u, moved, indexed, lists, head, same⟩ := repositionIndexed ok grown partner.held
    rw [moved]
    refine ⟨_, rfl, setLastIndexed indexed (lists ▸ partner.held), ?_, head, same⟩
    exact lists.trans (List.erase_of_not_mem absent).symm

/- A bio appended: the end moves, so the request changes its bucket. -/
theorem backMergedIndexed {c : BlockState} (ok : Indexed m s) {rq : Ref} (grown : Grown s.b c rq)
    (held : rq ∈ s.b.queued) : ∃ t, elvMergedRequest m ⟨c, s.table⟩ rq .backMerge = some t ∧ Indexed m t ∧
    t.b.queued = s.b.queued ∧ t.b.q.queueHead = s.b.q.queueHead ∧ SameRequests c t.b := by
  obtain ⟨u, moved, indexed, lists, head, same⟩ := repositionIndexed ok grown held
  refine ⟨setLast u rq, ?_, setLastIndexed indexed (lists ▸ held), lists, head, same⟩
  rw [elvMergedRequest, if_pos rfl, moved]
  rfl

/- A bio prepended leaves the end and with it the bucket alone. -/
theorem grownIndexed {c : BlockState} (ok : Indexed m s) {rq : Ref} (grown : Grown s.b c rq)
    (stays : c.endOf rq = s.b.endOf rq) : Indexed m ⟨c, s.table⟩ := by
  have ends : ∀ x, c.endOf x = s.b.endOf x := by
    intro x
    by_cases same : x = rq
    · rw [same]
      exact stays
    · exact grownEnd grown x same
  have lists : c.queued = s.b.queued := grownQueued grown
  refine ⟨?_, fun x mark => ?_, fun x there able => ?_, fun x last => ?_, fun x there => ?_, ?_, ?_⟩
  · refine filedCongr ok.filed (fun x => ?_) (fun x _ => congrArg m.hashMin (ends x).symm)
    rw [grownMark grown]
  · exact lists ▸ ok.queued x ((grownMark grown x).symm.trans mark)
  · exact (grownMark grown x).trans (ok.known x (lists ▸ there) ((grownMergeable grown x).symm.trans able))
  · exact lists ▸ ok.last x ((congrArg RequestQueue.lastMerge grown.q).symm.trans last)
  · exact (grownSorted grown x).trans (ok.sorted x (lists ▸ there))
  · change (c.queued ++ c.q.queueHead).Nodup
    rw [lists, grown.q]
    exact ok.linked.once
  · change c.q.nrSorted = BitVec.ofNat 32 c.queued.length
    rw [lists, grown.q]
    exact ok.linked.counted

theorem forbidIndexed (ok : Indexed m s) (r : Ref) : Indexed m (forbidMerges s r) ∧
    (forbidMerges s r).b.queued = s.b.queued ∧ (forbidMerges s r).b.q.queueHead = s.b.q.queueHead := by
  have req : (forbidMerges s r).b.req = (s.b.setFlags r (fun f => {f with noMerge := true})).req := by
    unfold forbidMerges
    dsimp only
    split <;> rfl
  have gd : (forbidMerges s r).b.q.gd = s.b.q.gd := by
    unfold forbidMerges
    dsimp only
    split <;> rfl
  have head : (forbidMerges s r).b.q.queueHead = s.b.q.queueHead := by
    unfold forbidMerges
    dsimp only
    split <;> rfl
  have counted : (forbidMerges s r).b.q.nrSorted = s.b.q.nrSorted := by
    unfold forbidMerges
    dsimp only
    split <;> rfl
  have lists : (forbidMerges s r).b.queued = s.b.queued := by rw [BlockState.queued, gd]; rfl
  have table : (forbidMerges s r).table = s.table := rfl
  have fields : ∀ x, (forbidMerges s r).b.endOf x = s.b.endOf x ∧
      elvOnHash (forbidMerges s r).b x = elvOnHash s.b x ∧
      sortedFlag (forbidMerges s r).b x = sortedFlag s.b x ∧
      (rqMergeable ((forbidMerges s r).b.req x) = true → rqMergeable (s.b.req x) = true) := by
    intro x
    simp only [BlockState.endOf, elvOnHash, sortedFlag, req, BlockState.setFlags, BlockState.setReq]
    split
    · exact ⟨rfl, rfl, rfl, fun able => by simp [rqMergeable] at able⟩
    · exact ⟨rfl, rfl, rfl, id⟩
  refine ⟨⟨?_, fun x mark => ?_, fun x there able => ?_, fun x last => ?_, fun x there => ?_, ?_, ?_⟩, lists, head⟩
  · refine filedCongr ok.filed (fun x => by rw [(fields x).2.1]) (fun x _ => ?_)
    exact congrArg m.hashMin (fields x).1.symm
  · rw [lists]
    exact ok.queued x ((fields x).2.1.symm.trans mark)
  · exact (fields x).2.1.trans (ok.known x (lists ▸ there) ((fields x).2.2.2 able))
  · rw [lists]
    unfold forbidMerges at last
    dsimp only at last
    split at last
    · cases last
    · exact ok.last x last
  · rw [lists] at there
    exact (fields x).2.2.1.trans (ok.sorted x there)
  · rw [lists, head]
    exact ok.linked.once
  · rw [lists, counted]
    exact ok.linked.counted

/- Without its table a dispatch is the one on the bare queue. -/
theorem moveBare (s : HashQueue) (r : Ref) : (greedyMove s r).b = Block.greedyMove s.b r := by
  simp only [greedyMove, Block.greedyMove, elvDispatchAddTail, Block.elvDispatchAddTail, elvRqhashDel,
    Block.elvRqhashDel, hashDel]
  split <;> split <;> rfl

theorem rqhashAddBare (s : HashQueue) (r : Ref) :
    (elvRqhashAdd m s r).map HashQueue.b = Block.elvRqhashAdd s.b r := by
  unfold elvRqhashAdd Block.elvRqhashAdd
  split <;> rfl

/- The same of an insertion and of a merge: the table decides nothing but the lookups. -/
theorem insertBare (s : HashQueue) (r : Ref) :
    (elvInsertSort m s r).map HashQueue.b = Block.elvInsertSort s.b r := by
  unfold elvInsertSort Block.elvInsertSort hashMergeable Block.hashMergeable
  split
  · rfl
  · dsimp only
    split
    · rw [← rqhashAddBare (m := m) {s with b := markSorted s.b r} r]
      cases elvRqhashAdd m {s with b := markSorted s.b r} r with
      | none => rfl
      | some t =>
        simp only [Option.map_some]
        split <;> rfl
    · rfl

theorem mergeRequestsBare (s : HashQueue) (rq next : Ref) :
    (elvMergeRequests m s rq next).map HashQueue.b = Block.elvMergeRequests s.b rq next := by
  have reposition : ∀ t : HashQueue, (elvRqhashReposition m t rq).map HashQueue.b =
      Block.elvRqhashReposition t.b rq := fun t => rqhashAddBare (hashDel t rq) rq
  unfold elvMergeRequests Block.elvMergeRequests
  cases (s.b.req next).cmdFlags.sorted with
  | true =>
    simp only [if_true]
    rw [← reposition {s with b := greedyMergedRequests s.b rq next}]
    cases elvRqhashReposition m {s with b := greedyMergedRequests s.b rq next} rq with
    | none => rfl
    | some t =>
      simp only [Option.map_some, elvRqhashDel, Block.elvRqhashDel, hashDel]
      split <;> rfl
  | false =>
    simp only [Bool.false_eq_true, if_false]
    rw [← reposition s]
    cases elvRqhashReposition m s rq <;> rfl

theorem moveIndexed (ok : Indexed m s) {r : Ref} (held : r ∈ s.b.queued) : Indexed m (greedyMove s r) ∧
    (greedyMove s r).b.queued = s.b.queued.erase r ∧
    (greedyMove s r).b.q.queueHead = s.b.q.queueHead ++ [r] ∧ SameRequests s.b (greedyMove s r).b := by
  have lists : (greedyMove s r).b.queued = s.b.queued.erase r := by
    rw [moveBare, moveQueued ok.linked]
  have head : (greedyMove s r).b.q.queueHead = s.b.q.queueHead ++ [r] := by
    rw [moveBare, moveDispatched ok.linked held]
  generalize before : (if (s.b.listDelInit r).q.lastMerge = some r then
      {s.b.listDelInit r with q := {(s.b.listDelInit r).q with lastMerge := none}} else s.b.listDelInit r) = c
  have reqC : c.req = s.b.req := by
    rw [← before]
    split <;> rfl
  have lastC : ∀ x, c.q.lastMerge = some x → s.b.q.lastMerge = some x ∧ x ≠ r := by
    intro x last
    rw [← before] at last
    split at last
    · cases last
    · rename_i other
      exact ⟨last, fun same => other (same ▸ last)⟩
  have files : Files m ⟨c, s.table⟩ := by
    refine filedCongr ok.filed (fun x => ?_) (fun x _ => ?_)
    · rw [elvOnHash, elvOnHash, reqC]
    · rw [rqHashKey, rqHashKey, BlockState.endOf, BlockState.endOf, reqC]
  have cleared := rqhashDelRehashes files r
  have whole : greedyMove s r = {(elvRqhashDel ⟨c, s.table⟩ r) with
      b := {(elvRqhashDel ⟨c, s.table⟩ r).b with q := (greedyMove s r).b.q}} := by
    rw [← before]
    simp only [greedyMove, elvDispatchAddTail]
    split <;> rfl
  have lastT : ∀ x, (greedyMove s r).b.q.lastMerge = some x → c.q.lastMerge = some x := by
    intro x last
    rw [← cleared.q, ← last, ← before]
    simp only [greedyMove, elvDispatchAddTail]
    split <;> rfl
  have req : (greedyMove s r).b.req = (elvRqhashDel ⟨c, s.table⟩ r).b.req := congrArg (fun t => t.b.req) whole
  have same : SameRequests s.b (greedyMove s r).b := by
    intro x
    rw [req, cleared.same x]
    exact congrArg bare (congrFun reqC x)
  have marks : ∀ x, elvOnHash (greedyMove s r).b x = true ↔ elvOnHash s.b x = true ∧ x ≠ r := by
    intro x
    rw [elvOnHash, req]
    refine (cleared.marks x).trans ?_
    rw [elvOnHash, elvOnHash, reqC]
  refine ⟨⟨?_, fun x mark => ?_, fun x there able => ?_, fun x last => ?_, fun x there => ?_, ?_⟩, lists, head, same⟩
  · rw [whole]
    exact cleared.filed
  · obtain ⟨here, apart⟩ := (marks x).mp mark
    rw [lists]
    exact (linkedQueued ok.linked).mem_erase_iff.mpr ⟨apart, ok.queued x here⟩
  · rw [lists] at there
    obtain ⟨apart, before⟩ := (linkedQueued ok.linked).mem_erase_iff.mp there
    exact (marks x).mpr ⟨ok.known x before ((sameMergeable same x).symm.trans able), apart⟩
  · obtain ⟨here, apart⟩ := lastC x (lastT x last)
    rw [lists]
    exact (linkedQueued ok.linked).mem_erase_iff.mpr ⟨apart, ok.last x here⟩
  · rw [lists] at there
    exact (sameSortedFlag same x).trans (ok.sorted x (List.mem_of_mem_erase there))
  · rw [moveBare]
    exact moveLinked ok.linked held

theorem markSortedMergeable (b : BlockState) (r x : Ref) :
    rqMergeable ((markSorted b r).req x) = rqMergeable (b.req x) := by
  simp only [markSorted, BlockState.setFlags, BlockState.setReq]
  split <;> rfl

theorem insertIndexed (ok : Indexed m s) {r : Ref} (fs : (s.b.req r).cmdType = .fs) (new : r ∉ s.b.queued)
    (off : r ∉ s.b.q.queueHead) : ∃ t, elvInsertSort m s r = some t ∧ Indexed m t ∧
    t.b.queued.Perm (r :: s.b.queued) ∧ t.b.q.queueHead = s.b.q.queueHead ∧
    SameRequests (markSorted s.b r) t.b := by
  have marked : ∀ x, elvOnHash (markSorted s.b r) x = elvOnHash s.b x := markSortedOnHash s.b r
  have ends : ∀ x, (markSorted s.b r).endOf x = s.b.endOf x := fun x =>
    BlockState.setFlagsEnd s.b r x (fun f => {f with sorted := true})
  have files : Files m {s with b := markSorted s.b r} := by
    refine filedCongr ok.filed (fun x => by rw [marked]) (fun x _ => ?_)
    rw [rqHashKey, rqHashKey, ends]
  have unhashed : elvOnHash (markSorted s.b r) r = false := by
    rw [marked]
    exact Bool.eq_false_iff.mpr (fun mark => new (ok.queued r mark))
  have hashed : ∃ u, hashMergeable m {s with b := markSorted s.b r} r = some u ∧ Files m u ∧
      u.b.q.gd = s.b.q.gd ∧ u.b.q.queueHead = s.b.q.queueHead ∧ u.b.q.nrSorted = s.b.q.nrSorted + 1 ∧
      SameRequests (markSorted s.b r) u.b ∧ (∀ x, elvOnHash u.b x = true → elvOnHash s.b x = true ∨ x = r) ∧
      (∀ x, elvOnHash s.b x = true ∨ x = r ∧ rqMergeable (u.b.req x) = true → elvOnHash u.b x = true) ∧
      ∀ x, u.b.q.lastMerge = some x → s.b.q.lastMerge = some x ∨ x = r := by
    unfold hashMergeable
    split
    · obtain ⟨v, added, grown⟩ := rqhashAddRehashes files unhashed
      have kept : v.b.q = (markSorted s.b r).q := grown.q
      have gd : v.b.q.gd = s.b.q.gd := by rw [kept]; rfl
      have head : v.b.q.queueHead = s.b.q.queueHead := by rw [kept]; rfl
      have counted : v.b.q.nrSorted = s.b.q.nrSorted + 1 := by rw [kept]; rfl
      have marks : ∀ x, elvOnHash v.b x = true → elvOnHash s.b x = true ∨ x = r := fun x mark =>
        ((grown.marks x).mp mark).imp_left (fun h => (marked x).symm.trans h)
      have known : ∀ x, elvOnHash s.b x = true ∨ x = r ∧ rqMergeable (v.b.req x) = true → elvOnHash v.b x = true :=
        fun x old => (grown.marks x).mpr (old.imp (fun h => (marked x).trans h) And.left)
      rw [added, Option.map_some]
      split
      · refine ⟨setLast v r, rfl, grown.filed, gd, head, counted, grown.same, marks, known, fun x last => ?_⟩
        exact Or.inr (Option.some.inj last).symm
      · refine ⟨v, rfl, grown.filed, gd, head, counted, grown.same, marks, known, fun x last => ?_⟩
        rw [kept] at last
        exact Or.inl last
    · rename_i stale
      refine ⟨_, rfl, files, rfl, rfl, rfl, fun _ => rfl, fun x mark => Or.inl ((marked x).symm.trans mark),
        fun x old => ?_, fun x last => Or.inl last⟩
      rcases old with old | ⟨rfl, able⟩
      · exact (marked x).trans old
      · exact absurd able stale
  obtain ⟨u, mergeable, filesU, gd, head, counted, same, marks, known, last⟩ := hashed
  have lists : u.b.queued = s.b.queued := by rw [BlockState.queued, gd]; rfl
  have perm : (greedyAddRequest u.b r).queued.Perm (r :: s.b.queued) := lists ▸ addQueuedPerm u.b r
  have req : (greedyAddRequest u.b r).req = u.b.req := addReq u.b r
  have rest : (greedyAddRequest u.b r).q.lastMerge = u.b.q.lastMerge ∧
      (greedyAddRequest u.b r).q.nrSorted = u.b.q.nrSorted := by
    unfold greedyAddRequest addToLower addToHigher
    split <;> exact ⟨rfl, rfl⟩
  refine ⟨{u with b := greedyAddRequest u.b r}, ?_, ⟨?_, fun x mark => ?_, fun x there able => ?_, fun x hit => ?_,
    fun x there => ?_, ?_, ?_⟩, perm, (addHead u.b r).trans head, fun x => ?_⟩
  · rw [elvInsertSort, if_neg (not_not.mpr fs), mergeable]
    rfl
  · refine filedCongr filesU (fun x => ?_) (fun x _ => ?_)
    · rw [elvOnHash, elvOnHash, req]
    · rw [rqHashKey, rqHashKey, BlockState.endOf, BlockState.endOf, req]
  · rw [elvOnHash, req] at mark
    refine perm.mem_iff.mpr ((marks x mark).elim (fun old => ?_) (fun eq => eq ▸ List.mem_cons_self))
    exact List.mem_cons_of_mem r (ok.queued x old)
  · rw [req] at able
    rw [elvOnHash, req]
    rcases List.mem_cons.mp (perm.mem_iff.mp there) with rfl | old
    · exact known x (Or.inr ⟨rfl, able⟩)
    · have able' : rqMergeable ((markSorted s.b r).req x) = true := (sameMergeable same x).symm.trans able
      rw [markSortedMergeable] at able'
      exact known x (Or.inl (ok.known x old able'))
  · rw [rest.1] at hit
    refine perm.mem_iff.mpr ((last x hit).elim (fun old => ?_) (fun eq => eq ▸ List.mem_cons_self))
    exact List.mem_cons_of_mem r (ok.last x old)
  · have flag : sortedFlag (greedyAddRequest u.b r) x = sortedFlag (markSorted s.b r) x := by
      rw [sortedFlag, req]
      exact sameSortedFlag same x
    rw [flag, markSortedFlag]
    rcases List.mem_cons.mp (perm.mem_iff.mp there) with rfl | old
    · simp
    · rw [ok.sorted x old]
      rfl
  · change ((greedyAddRequest u.b r).queued ++ (greedyAddRequest u.b r).q.queueHead).Nodup
    rw [addHead, head, (perm.append_right _).nodup_iff, List.cons_append, List.nodup_cons]
    refine ⟨fun member => ?_, ok.linked.once⟩
    exact (List.mem_append.mp member).elim new off
  · change (greedyAddRequest u.b r).q.nrSorted = BitVec.ofNat 32 (greedyAddRequest u.b r).queued.length
    rw [rest.2, counted, perm.length_eq, List.length_cons, ok.linked.counted, BitVec.ofNat_add]
    rfl
  · rw [req]
    exact same x

end

end KernelLabs.MergeHash
