import KernelLabs.Block.DriverRuns

/-! The segment that `blk_peek_request` adds to a request for the drain of a device. A request
may be peeked at many times, deferred and put back; once prepared it keeps its room until it
is unprepared, and each time that happens the next preparation adds more. -/
namespace KernelLabs.DrainRoom
open Block DriverSide DriverCalls DriverRuns Runs

/- `first` is how many segments a request had, and `unprepped` how often it was unprepared. -/
def Fits (c : Config) (q : DriverQueue) (first : Ref → BitVec 16) (unprepped : Ref → Nat) (r : Ref) : Prop :=
  (q.prep r).nrPhysSegments = first r +
    if drains c q r then BitVec.ofNat 16 (unprepped r) + (if (q.prep r).dontPrep then 1 else 0) else 0

def Fresh (q : DriverQueue) (unprepped : Ref → Nat) (r : Ref) : Prop :=
  (q.prep r).dontPrep = false ∧ unprepped r = 0

structure Room (c : Config) (q : DriverQueue) (first : Ref → BitVec 16) (unprepped : Ref → Nat) (held : List Ref) :
    Prop where
  fits : ∀ r ∈ places q.b ++ held, Fits c q first unprepped r
  fresh : ∀ r ∈ q.b.queued, Fresh q unprepped r

/- A driver whose `prep_rq_fn` marks what it does not defer or kill. -/
def Marks (rounds : Nat → PeekRound) : Prop :=
  ∀ n, (rounds n).result = .ok ∨ (rounds n).result = .other → (rounds n).dontPrep = true

section
variable {c : Config} {q t : DriverQueue} {first first' : Ref → BitVec 16} {unprepped unprepped' : Ref → Nat}
variable {held held' : List Ref} {gone : Nat} {r : Ref}

/- Of the requests listed, at most one is touched. -/
theorem roomOthers (room : Room c q first unprepped held)
    (listed : ∀ x ∈ places t.b ++ held', x ≠ r → x ∈ places q.b ++ held)
    (queued : ∀ x ∈ t.b.queued, x ≠ r → x ∈ q.b.queued) (prep : ∀ x, x ≠ r → t.prep x = q.prep x)
    (len : ∀ x, x ≠ r → (t.b.req x).dataLen = (q.b.req x).dataLen)
    (noted : ∀ x, x ≠ r → first' x = first x ∧ unprepped' x = unprepped x)
    (here : r ∈ places t.b ++ held' → Fits c t first' unprepped' r)
    (young : r ∈ t.b.queued → Fresh t unprepped' r) : Room c t first' unprepped' held' where
  fits x there := by
    by_cases same : x = r
    · exact same ▸ here (same ▸ there)
    · have drain : drains c t x = drains c q x := by rw [drains, drains, len x same]
      rw [Fits, prep x same, drain, (noted x same).1, (noted x same).2]
      exact room.fits x (listed x there same)
  fresh x there := by
    by_cases same : x = r
    · exact same ▸ young (same ▸ there)
    · rw [Fresh, prep x same, (noted x same).2]
      exact room.fresh x (queued x there same)

theorem roomSame (room : Room c q first unprepped held) (listed : ∀ x ∈ places t.b ++ held', x ∈ places q.b ++ held)
    (queued : ∀ x ∈ t.b.queued, x ∈ q.b.queued) (prep : t.prep = q.prep)
    (len : ∀ x, (t.b.req x).dataLen = (q.b.req x).dataLen) : Room c t first unprepped held' where
  fits x there := by
    have drain : drains c t x = drains c q x := by rw [drains, drains, len x]
    rw [Fits, prep, drain]
    exact room.fits x (listed x there)
  fresh x there := by
    rw [Fresh, prep]
    exact room.fresh x (queued x there)

theorem movedRoom (room : Room c q first unprepped held) {b : BlockState} (moved : Moved q.b b) :
    Room c {q with b := b} first unprepped held :=
  roomSame room (fun _ there => ((moved.places.append_right held).mem_iff).mp there) moved.shrinks rfl
    (fun x => congrArg (fun view => view.2.2) (moved.same x))

theorem seenRoom (room : Room c q first unprepped held) (r : Ref) :
    Room c (noteEnd (markStarted q r) r) first unprepped held := by
  have len : ∀ x, ((markStarted q r).b.req x).dataLen = (q.b.req x).dataLen :=
    setReqKeeps Request.dataLen q.b r (fun rq => {rq with cmdFlags := {rq.cmdFlags with started := true}}) (fun _ => rfl)
  unfold noteEnd
  split
  · exact roomSame room (fun _ there => there) (fun _ there => there) rfl len
  · exact roomSame room (fun _ there => there) (fun _ there => there) rfl len

theorem addRoomSegments (q : DriverQueue) (r : Ref) (n : BitVec 16) :
    ((addRoom c q r n).prep r).nrPhysSegments = (q.prep r).nrPhysSegments + (if drains c q r then n else 0) ∧
    ((addRoom c q r n).prep r).dontPrep = (q.prep r).dontPrep ∧
    (∀ x, x ≠ r → (addRoom c q r n).prep x = q.prep x) ∧ (addRoom c q r n).b = q.b := by
  unfold addRoom
  split
  · have here : (q.setPrep r (fun p => {p with nrPhysSegments := p.nrPhysSegments + n})).prep r =
        {q.prep r with nrPhysSegments := (q.prep r).nrPhysSegments + n} := if_pos rfl
    rw [here]
    exact ⟨rfl, rfl, fun x other => if_neg other, rfl⟩
  · exact ⟨(BitVec.add_zero _).symm, rfl, fun _ _ => rfl, rfl⟩

theorem callPrepSegments (q : DriverQueue) (r : Ref) (round : PeekRound) :
    ((callPrep q r round).prep r).nrPhysSegments = (q.prep r).nrPhysSegments ∧
    ((callPrep q r round).prep r).dontPrep = ((q.prep r).dontPrep || round.dontPrep) ∧
    (∀ x, x ≠ r → (callPrep q r round).prep x = q.prep x) ∧ (callPrep q r round).b = q.b := by
  have here : (callPrep q r round).prep r = {q.prep r with dontPrep := (q.prep r).dontPrep || round.dontPrep} := if_pos rfl
  rw [here]
  exact ⟨rfl, rfl, fun x other => if_neg other, rfl⟩

/- A request that was not prepared gets its room with the mark, and loses it again without. -/
theorem preparedFits (round : PeekRound) (fits : Fits c q first unprepped r) (bare : (q.prep r).dontPrep = false) :
    (round.dontPrep = true → Fits c (callPrep (addRoom c q r 1) r round) first unprepped r) ∧
    (round.dontPrep = false → Fits c (addRoom c (callPrep (addRoom c q r 1) r round) r (-1)) first unprepped r) := by
  obtain ⟨segments, mark, _, block⟩ := addRoomSegments (c := c) q r 1
  obtain ⟨segmentsP, markP, _, blockP⟩ := callPrepSegments (addRoom c q r 1) r round
  obtain ⟨segmentsB, markB, _, blockB⟩ := addRoomSegments (c := c) (callPrep (addRoom c q r 1) r round) r (-1)
  have room : drains c (callPrep (addRoom c q r 1) r round) r = drains c q r := by
    rw [drains, drains, blockP, block]
  have roomB : drains c (addRoom c (callPrep (addRoom c q r 1) r round) r (-1)) r = drains c q r := by
    rw [drains, blockB, ← drains, room]
  have undone : ∀ x : BitVec 16, x + 1 + -1 = x := by
    intro x
    rw [BitVec.add_assoc]
    exact BitVec.add_zero x
  rw [Fits, bare] at fits
  constructor
  · intro marked
    rw [Fits, segmentsP, markP, marked, Bool.or_true, segments, room, fits]
    cases drains c q r with
    | true =>
      simp only [if_true, Bool.false_eq_true, if_false, BitVec.add_assoc]
      rfl
    | false => simp
  · intro unmarked
    rw [Fits, segmentsB, markB, markP, mark, bare, unmarked, segmentsP, segments, room, roomB, fits]
    cases drains c q r with
    | true => exact undone _
    | false => simp

/- What a round of peeking leaves when it prepared the request on top. -/
theorem preparedRoom (room : Room c q first unprepped held) (there : r ∈ places q.b) (out : r ∉ q.b.queued)
    (bare : (q.prep r).dontPrep = false) (round : PeekRound) :
    (round.dontPrep = true → Room c (callPrep (addRoom c q r 1) r round) first unprepped held) ∧
    (round.dontPrep = false → Room c (addRoom c (callPrep (addRoom c q r 1) r round) r (-1)) first unprepped held) := by
  obtain ⟨whenMarked, whenNot⟩ := preparedFits round (room.fits r (List.mem_append_left _ there)) bare
  obtain ⟨_, _, others, block⟩ := addRoomSegments (c := c) q r 1
  obtain ⟨_, _, othersP, blockP⟩ := callPrepSegments (addRoom c q r 1) r round
  obtain ⟨_, _, othersB, blockB⟩ := addRoomSegments (c := c) (callPrep (addRoom c q r 1) r round) r (-1)
  have whole := blockP.trans block
  have wholeB := blockB.trans whole
  constructor
  · intro marked
    refine roomOthers room (fun _ there _ => whole ▸ there) (fun _ there _ => whole ▸ there)
      (fun x other => (othersP x other).trans (others x other)) (fun x _ => ?_) (fun _ _ => ⟨rfl, rfl⟩)
      (fun _ => whenMarked marked) (fun there => absurd (whole ▸ there) out)
    rw [whole]
  · intro unmarked
    refine roomOthers room (fun _ there _ => wholeB ▸ there) (fun _ there _ => wholeB ▸ there)
      (fun x other => (othersB x other).trans ((othersP x other).trans (others x other))) (fun x _ => ?_)
      (fun _ _ => ⟨rfl, rfl⟩) (fun _ => whenNot unmarked) (fun there => absurd (wholeB ▸ there) out)
    rw [wholeB]

/- The request killed had room that goes with it. -/
theorem killedRoom (driven : Driven c q held gone) (room : Room c q first unprepped held) {p : DriverQueue}
    (sameP : p.b = q.b) (others : ∀ x, x ≠ r → p.prep x = q.prep x) (perm : (places p.b).Perm (r :: places t.b))
    (queued : t.b.queued = p.b.queued) (req : t.b.req = p.b.req) (prep : ∀ x, x ≠ r → t.prep x = p.prep x) :
    Room c t first unprepped held := by
  have whole : (places q.b ++ held).Perm (r :: (places t.b ++ held)) := (sameP ▸ perm).append_right held
  have gone' : r ∉ places t.b ++ held := (List.nodup_cons.mp (whole.nodup_iff.mp driven.apart)).1
  refine roomOthers room (fun x there _ => whole.mem_iff.mpr (List.mem_cons_of_mem r there)) (fun x there _ => ?_)
    (fun x other => (prep x other).trans (others x other)) (fun x _ => ?_) (fun _ _ => ⟨rfl, rfl⟩)
    (fun there => absurd there gone')
    (fun there => absurd (List.mem_append_left held (List.mem_append_left _ there)) gone')
  · rw [queued, sameP] at there
    exact there
  · rw [req, sameP]

/- The induction is on the rounds left: each but the last kills a request. -/
theorem peekRoom {rounds : Nat → PeekRound} (marks : Marks rounds) (prepares : c.prepFn = true) (fuel : Nat)
    {answer : Option Ref} (driven : Driven c q held gone) (room : Room c q first unprepped held)
    (ran : blkPeekRequest c rounds fuel q = some (answer, t)) : Room c t first unprepped held := by
  induction fuel generalizing q with
  | zero => cases ran
  | succ fuel ih =>
    obtain ⟨moved, top⟩ := nextMoved (rounds fuel).now driven.tidy
    have drivenN := movedDriven driven moved
    have roomN := movedRoom room moved
    unfold blkPeekRequest at ran
    dsimp only at ran
    cases taken : Block.elvNextRequest (rounds fuel).now q.b with
    | mk next b =>
      rw [taken] at moved top drivenN roomN ran
      cases next with
      | none =>
        cases Option.some.inj ran
        exact roomN
      | some r =>
        dsimp only at ran
        split at ran
        · cases Option.some.inj ran
          exact roomN
        · obtain ⟨drivenS, _, _, topS, flagS⟩ := seenDriven drivenN (top r rfl)
          have roomS := seenRoom roomN r
          generalize noteEnd (markStarted {q with b := b} r) r = s at drivenS topS flagS roomS ran
          have thereS : r ∈ places s.b := List.mem_append_right _ topS
          split at ran
          · cases Option.some.inj ran
            exact roomS
          · rename_i unmarked
            have bare : (s.prep r).dontPrep = false := Bool.eq_false_iff.mpr unmarked
            obtain ⟨whenMarked, whenNot⟩ := preparedRoom roomS thereS (headNotQueued drivenS topS) bare (rounds fuel)
            obtain ⟨drivenR, _, sameR⟩ := addRoomDriven drivenS r 1
            obtain ⟨drivenP, _⟩ := callPrepDriven drivenR r (rounds fuel)
            obtain ⟨_, mark, others, _⟩ := addRoomSegments (c := c) s r 1
            obtain ⟨_, markP, othersP, sameP⟩ := callPrepSegments (addRoom c s r 1) r (rounds fuel)
            have seen : ((callPrep (addRoom c s r 1) r (rounds fuel)).prep r).dontPrep = (rounds fuel).dontPrep := by
              rw [markP, mark, bare, Bool.false_or]
            rw [prepares, if_neg (by simp)] at ran
            cases result : (rounds fuel).result with
            | ok =>
              rw [result] at ran
              cases Option.some.inj ran
              exact whenMarked (marks fuel (Or.inl result))
            | other =>
              rw [result] at ran
              cases Option.some.inj ran
              exact whenMarked (marks fuel (Or.inr result))
            | defer =>
              rw [result] at ran
              cases Option.some.inj ran
              rw [seen]
              cases half : (rounds fuel).dontPrep with
              | true => exact whenMarked half
              | false => exact whenNot half
            | kill =>
              rw [result] at ran
              have topP : r ∈ (callPrep (addRoom c s r 1) r (rounds fuel)).b.q.queueHead := sameR ▸ topS
              have flagP : startedFlag (callPrep (addRoom c s r 1) r (rounds fuel)).b r = true := sameR ▸ flagS
              obtain ⟨k, killed, drivenK, _, perm, queued, req, prep⟩ := killDriven drivenP topP flagP
              dsimp only at ran
              rw [killed] at ran
              refine ih drivenK ?_ ran
              exact killedRoom drivenS roomS (sameP.trans sameR)
                (fun x other => (othersP x other).trans (others x other)) perm queued req prep

end

structure Ledger where
  s : Watch
  first : Ref → BitVec 16
  unprepped : Ref → Nat

/- `t` is the queue after the operation: a merge counts the segments of the one that stays anew. -/
def noteFirst (l : Ledger) (t : Watch) : Op → Ref → BitVec 16
  | .add _ r rq p point _ =>
    if Addable l.s r rq point then Function.update l.first r p.nrPhysSegments else l.first
  | .merge rq next _ =>
    if rq ∈ l.s.q.b.queued ∧ next ∈ l.s.q.b.queued ∧ rq ≠ next then
      Function.update l.first rq (t.q.prep rq).nrPhysSegments
    else l.first
  | _ => l.first

def noteUnprepped (l : Ledger) : Op → Ref → Nat
  | .add _ r rq _ point _ => if Addable l.s r rq point then Function.update l.unprepped r 0 else l.unprepped
  | .unprep r =>
    if r ∈ l.s.held ∧ (l.s.q.prep r).dontPrep then Function.update l.unprepped r (l.unprepped r + 1) else l.unprepped
  | _ => l.unprepped

def ledgerStep (c : Config) (attempt : AttemptMerge) (l : Ledger) (op : Op) : Option Ledger :=
  (step c attempt l.s op).map fun t => ⟨t, noteFirst l t op, noteUnprepped l op⟩

def start : Ledger := ⟨initial, fun _ => 0, fun _ => 0⟩

/- Requests come unprepared, and the driver marks what it prepared. -/
def Keeps : Op → Prop
  | .add _ _ _ p _ _ => p.dontPrep = false
  | .peek rounds => Marks rounds
  | .fetch rounds => Marks rounds
  | _ => True

def Full (c : Config) (l : Ledger) : Prop := Sound c l.s ∧ Room c l.s.q l.first l.unprepped l.s.held

section
variable {c : Config} {attempt : AttemptMerge} {l : Ledger} {t : Watch}

theorem addRoomStep (sound : Sound c l.s) (room : Room c l.s.q l.first l.unprepped l.s.held) {now : Timespec} {r : Ref}
    {rq : Request} {p : Prep} {point : InsertionPoint} {merged : Bool} (bare : p.dontPrep = false)
    (taken : step c attempt l.s (.add now r rq p point merged) = some t) :
    Room c t.q (noteFirst l t (.add now r rq p point merged)) (noteUnprepped l (.add now r rq p point merged)) t.held := by
  simp only [step] at taken
  simp only [noteFirst, noteUnprepped]
  split at taken
  · rename_i addable
    obtain ⟨new, known, fs, _⟩ := id addable
    obtain ⟨driven, idle, _, here, _⟩ := placeDriven sound p new
    have ready : Ready (place l.s.q r rq p) l.s.held r point :=
      ⟨new.1, new.2.1, idle, here.symm ▸ known, here.symm ▸ fs⟩
    obtain ⟨q, added, _, _, prep, lists, landed⟩ := addDriven now merged driven ready
    rw [added] at taken
    cases Option.some.inj taken
    rw [if_pos addable, if_pos addable]
    have prepHere : q.prep r = p := (congrFun prep r).trans (if_pos rfl)
    refine roomOthers (r := r) room (fun x there other => ?_) (fun x there other => (landed.queued x there).resolve_right other)
      (fun x other => (congrFun prep x).trans (if_neg other)) (fun x other => ?_)
      (fun x other => ⟨Function.update_of_ne other .., Function.update_of_ne other ..⟩) (fun _ => ?_) (fun _ => ?_)
    · rcases List.mem_append.mp there with listed | kept
      · have there' := lists.mem_iff.mp listed
        split at there'
        · exact List.mem_append_left _ there'
        · exact List.mem_append_left _ ((List.mem_cons.mp there').resolve_left other)
      · exact List.mem_append_right _ kept
    · exact (landed.len x).trans (congrArg Request.dataLen (if_neg other))
    · rw [Fits, prepHere, bare, Function.update_self, Function.update_self]
      split <;> exact (BitVec.add_zero _).symm
    · rw [Fresh, prepHere]
      exact ⟨bare, Function.update_self ..⟩
  · rename_i refused
    cases Option.some.inj taken
    rw [if_neg refused, if_neg refused]
    exact room

theorem mergeRoomStep (rules : AttemptRules c attempt) (sound : Sound c l.s) (room : Room c l.s.q l.first l.unprepped l.s.held) {rq next : Ref}
    {segments : BitVec 16} (taken : step c attempt l.s (.merge rq next segments) = some t) :
    Room c t.q (noteFirst l t (.merge rq next segments)) l.unprepped t.held := by
  simp only [step] at taken
  simp only [noteFirst]
  split at taken
  · rename_i both
    obtain ⟨bare, never⟩ := room.fresh rq both.1
    rw [if_pos both]
    rcases rules.attempts l.s.q rq next segments with left | merges
    · rw [left] at taken
      cases Option.some.inj taken
      refine roomOthers (r := rq) room (fun _ there _ => there) (fun _ there _ => there) (fun _ _ => rfl)
        (fun _ _ => rfl) (fun x other => ⟨Function.update_of_ne other .., rfl⟩) (fun _ => ?_) (fun _ => ⟨bare, never⟩)
      rw [Fits, Function.update_self, never, bare]
      split <;> exact (BitVec.add_zero _).symm
    obtain ⟨q, merged, _, _, perm, len, prep, queued⟩ := mergeDriven sound.driven both.1 both.2.1 both.2.2 segments
    rw [merges, merged] at taken
    cases Option.some.inj taken
    have prepHere : q.prep rq = {l.s.q.prep rq with nrPhysSegments := segments} := (congrFun prep rq).trans (if_pos rfl)
    refine roomOthers (r := rq) room (fun x there _ => ?_) (fun x there _ => List.mem_of_mem_erase (queued ▸ there))
      (fun x other => (congrFun prep x).trans (if_neg other)) len
      (fun x other => ⟨Function.update_of_ne other .., rfl⟩) (fun _ => ?_) (fun _ => ?_)
    · exact (perm.append_right l.s.held).mem_iff.mpr (List.mem_cons_of_mem next there)
    · rw [Fits, prepHere, Function.update_self, never, bare]
      split <;> exact (BitVec.add_zero _).symm
    · rw [Fresh, prepHere]
      exact ⟨bare, never⟩
  · rename_i refused
    cases Option.some.inj taken
    rw [if_neg refused]
    exact room

theorem unprepRoomStep (room : Room c l.s.q l.first l.unprepped l.s.held) (sound : Sound c l.s) {r : Ref}
    (taken : step c attempt l.s (.unprep r) = some t) : Room c t.q l.first (noteUnprepped l (.unprep r)) t.held := by
  simp only [step] at taken
  simp only [noteUnprepped]
  split at taken
  · rename_i member
    cases Option.some.inj taken
    have out : r ∉ l.s.q.b.queued := fun there => heldOut sound.driven member (List.mem_append_left _ there)
    have here : (blkUnprepRequest l.s.q r).prep r = {l.s.q.prep r with dontPrep := false} := if_pos rfl
    have fits := room.fits r (List.mem_append_right _ member)
    rw [Fits] at fits
    refine roomOthers (r := r) room (fun _ there _ => there) (fun _ there _ => there) (fun _ other => if_neg other)
      (fun _ _ => rfl) (fun x other => ⟨rfl, ?_⟩) (fun _ => ?_) (fun there => absurd there out)
    · split
      · exact Function.update_of_ne other ..
      · rfl
    · have drain : drains c (blkUnprepRequest l.s.q r) r = drains c l.s.q r := rfl
      rw [Fits, here, drain]
      dsimp only
      rw [fits]
      cases marked : (l.s.q.prep r).dontPrep with
      | true =>
        have counted : (if r ∈ l.s.held ∧ true = true then Function.update l.unprepped r (l.unprepped r + 1)
            else l.unprepped) r = l.unprepped r + 1 := by rw [if_pos ⟨member, rfl⟩, Function.update_self]
        rw [counted, BitVec.ofNat_add]
        simp
      | false =>
        have same : (if r ∈ l.s.held ∧ false = true then Function.update l.unprepped r (l.unprepped r + 1)
            else l.unprepped) = l.unprepped := if_neg (by simp)
        rw [same]
  · rename_i refused
    cases Option.some.inj taken
    rw [if_neg (fun both => refused both.1)]
    exact room

theorem roomStep (rules : AttemptRules c attempt) (prepares : c.prepFn = true) (sound : Sound c l.s)
    (room : Room c l.s.q l.first l.unprepped l.s.held) {op : Op} (keeps : Keeps op) (taken : step c attempt l.s op = some t) :
    Room c t.q (noteFirst l t op) (noteUnprepped l op) t.held := by
  cases op with
  | add now r rq p point merged => exact addRoomStep sound room keeps taken
  | merge rq next segments => exact mergeRoomStep rules sound room taken
  | unprep r => exact unprepRoomStep room sound taken
  | abandon r rq p =>
    simp only [step] at taken
    split at taken
    · rename_i new
      obtain ⟨_, _, off, _, _⟩ := placeDriven sound p new
      obtain ⟨q, put, sameB, prep, _⟩ := putExact (c := c) (q := place l.s.q r rq p) new.1 off
      rw [put] at taken
      cases Option.some.inj taken
      have out : r ∉ places q.b ++ l.s.held := by
        rw [sameB]
        exact fun there => (List.mem_append.mp there).elim new.1 new.2.1
      refine roomOthers (r := r) room (fun x there _ => ?_) (fun x there _ => ?_)
        (fun x other => (congrFun prep x).trans (if_neg other)) (fun x other => ?_) (fun _ _ => ⟨rfl, rfl⟩)
        (fun there => absurd there out)
        (fun there => absurd (List.mem_append_left _ (List.mem_append_left _ there)) out)
      · rw [sameB] at there
        exact there
      · rw [sameB] at there
        exact there
      · rw [sameB]
        exact congrArg Request.dataLen (if_neg other)
    · cases Option.some.inj taken
      exact room
  | peek rounds =>
    obtain ⟨⟨answer, q⟩, ran, rfl⟩ := Option.map_eq_some_iff.mp taken
    exact peekRoom keeps prepares _ sound.driven room ran
  | fetch rounds =>
    obtain ⟨⟨answer, q⟩, ran, rfl⟩ := Option.map_eq_some_iff.mp taken
    obtain ⟨first, u, peeks, peeked⟩ := peekDriven rounds ((places l.s.q.b).length + 1) sound.driven (Nat.lt_succ_self _)
    have roomU := peekRoom keeps prepares _ sound.driven room peeks
    rw [blkFetchRequest, peeks] at ran
    cases first with
    | none =>
      cases Option.some.inj ran
      exact roomU
    | some r =>
      obtain ⟨top, marked, _⟩ := peeked.top r rfl
      obtain ⟨v, started, _, _, perm, queued, prep, req⟩ := dequeueDriven peeked.driven top marked
      dsimp only at ran
      rw [started] at ran
      cases Option.some.inj ran
      refine roomSame roomU (fun x there => ?_) (fun x there => queued ▸ there) prep (fun x => by rw [req])
      refine (perm.append_right l.s.held).mem_iff.mpr ?_
      exact List.perm_middle.mem_iff.mp there
  | complete r =>
    simp only [step] at taken
    split at taken
    · rename_i member
      obtain ⟨q, finished, driven, _, sameB, others⟩ := finishDriven sound.driven member
      rw [finished] at taken
      cases Option.some.inj taken
      have once : l.s.held.Nodup := (List.nodup_append.mp sound.driven.apart).2.1
      have out : r ∉ places q.b ++ l.s.held.erase r := by
        rw [sameB]
        exact fun there => (List.mem_append.mp there).elim (heldOut sound.driven member) once.not_mem_erase
      refine roomOthers (r := r) room (fun x there _ => ?_) (fun x there _ => ?_) others (fun x _ => by rw [sameB])
        (fun _ _ => ⟨rfl, rfl⟩) (fun there => absurd there out)
        (fun there => absurd (List.mem_append_left _ (List.mem_append_left _ there)) out)
      · rw [sameB] at there
        exact (List.mem_append.mp there).elim (List.mem_append_left _)
          (fun kept => List.mem_append_right _ (List.mem_of_mem_erase kept))
      · rw [sameB] at there
        exact there
    · cases Option.some.inj taken
      exact room
  | requeue now r =>
    simp only [step] at taken
    split at taken
    · rename_i member
      obtain ⟨q, back, _, _, _, prep, perm, len, queued⟩ := requeueDriven now sound.driven member
      rw [back] at taken
      cases Option.some.inj taken
      refine roomSame room (fun x there => ?_) queued prep len
      rcases List.mem_append.mp there with listed | kept
      · rcases List.mem_cons.mp (perm.mem_iff.mp listed) with rfl | old
        · exact List.mem_append_right _ member
        · exact List.mem_append_left _ old
      · exact List.mem_append_right _ (List.mem_of_mem_erase kept)
    · cases Option.some.inj taken
      exact room
  | preSuspend =>
    simp only [step, blkPreRuntimeSuspend] at taken
    split at taken
    · split at taken <;> (cases Option.some.inj taken; rename_i same; split at same <;> cases same)
      · exact ⟨room.fits, room.fresh⟩
      · exact room
    · cases Option.some.inj taken
      exact room
  | postSuspend failed =>
    simp only [step] at taken
    split at taken <;> (cases Option.some.inj taken; exact ⟨room.fits, room.fresh⟩)
  | preResume =>
    simp only [step] at taken
    split at taken <;> (cases Option.some.inj taken; exact ⟨room.fits, room.fresh⟩)
  | postResume failed =>
    simp only [step] at taken
    split at taken <;> (cases Option.some.inj taken; exact ⟨room.fits, room.fresh⟩)

theorem fullStep (rules : AttemptRules c attempt) (prepares : c.prepFn = true) (op : Op) (keeps : Keeps op) (full : Full c l) :
    ∃ m, ledgerStep c attempt l op = some m ∧ Full c m := by
  obtain ⟨t, taken, sound⟩ := stepSound rules full.1 op
  refine ⟨⟨t, noteFirst l t op, noteUnprepped l op⟩, ?_, sound, roomStep rules prepares full.1 full.2 keeps taken⟩
  rw [ledgerStep, taken]
  rfl

end

theorem roomsMarked {result : BlkPrep} (plain : result ≠ .other) : Marks (rounds result) :=
  fun _ done => (beq_iff_eq).mpr (done.resolve_right plain)

/- Two segments, deferred twice, fetched, unprepared, put back and fetched again. -/
def preparedTwice : List Op :=
  [.add .zero 1 (eightSectors 8) ⟨false, false, false, true, 2⟩ .sort false, .peek (rounds .defer), .peek (rounds .defer),
    .fetch (rounds .ok), .unprep 1, .requeue .zero 1, .fetch (rounds .ok)]

theorem preparedTwiceKeeps : ∀ op ∈ preparedTwice, Keeps op := by
  simp only [preparedTwice, List.forall_mem_cons, Keeps, true_and]
  exact ⟨roomsMarked (by decide), roomsMarked (by decide), roomsMarked (by decide), roomsMarked (by decide), by simp⟩

example : (exec (ledgerStep scsiLike (meeting scsiLike)) start preparedTwice).map (fun l =>
    (l.s.held, (l.s.q.prep 1).nrPhysSegments, l.first 1, l.unprepped 1)) = some ([1], 4, 2, 1) := by decide +kernel

end KernelLabs.DrainRoom
