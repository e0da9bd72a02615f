import KernelLabs.Block.Plugging
import KernelLabs.Block.Stamps

/-! Whole runs of a task that plugs: what arrives at the plug leaves it once, no queue lock
is taken under another one or kept over a callback, and what the plug can hold. -/
namespace KernelLabs.PlugRuns
open Block Batches Runs Plugging
open Merging (ElvMerge)

/- The queue lock the task holds, if any. `none` of the outer option is a wrong use: a lock
taken under a lock, a queue touched without its lock, a callback called with a lock held. -/
def lockStep : Option Ref → PlugEvent → Option (Option Ref)
  | held, .endBio _ _ => some held
  | none, .lock q => some (some q)
  | none, .callback _ _ => some none
  | some p, .unlock q => if p = q then some none else none
  | some p, .insert rq _ => if p = rq.q then some (some p) else none
  | some p, .endAll rq _ => if p = rq.q then some (some p) else none
  | some p, .mergeBio q _ => if p = q then some (some p) else none
  | some p, .run q _ => if p = q then some (some p) else none
  | some p, .traceUnplug q _ _ => if p = q then some (some p) else none
  | _, _ => none

def requestItems (rq : PlugRequest) : List Item := .request rq.addr :: rq.bio.map (fun b => .bio b.addr)

def plugItems (p : Plug) : List Item := p.list.flatMap requestItems ++ p.cbList.map .callback

/- What an event takes off the task's hands. -/
def gone : PlugEvent → List Item
  | .insert rq _ => requestItems rq
  | .endAll rq _ => requestItems rq
  | .mergeBio _ b => [.bio b.addr]
  | .endBio b _ => [.bio b.addr]
  | .callback cb _ => [.callback cb]
  | _ => []

/- The requests an event hands over. -/
def handed : PlugEvent → List PlugRequest
  | .insert rq _ => [rq]
  | .endAll rq _ => [rq]
  | _ => []

section
variable {σ : Type}

def held (t : PlugTask σ) : List Item := (t.plug.map (fun p => plugItems p.2)).getD []

def callbacks (t : PlugTask σ) : List PlugCb := (t.plug.map (·.2.cbList)).getD []

/- From `t` to `u` with the lock `lock` held before and `lock'` after, and with the items
`hand`, which are on no list, before and `hand'` after: nothing is lost or doubled. -/
structure Carries (lock lock' : Option Ref) (hand hand' : List Item) (t u : PlugTask σ) : Prop where
  same : u.plug.map Prod.fst = t.plug.map Prod.fst
  single : (callbacks t).Nodup → (callbacks u).Nodup
  ledger : ∃ more fresh, u.events = t.events ++ more ∧ u.arrived = t.arrived ++ fresh ∧
    exec lockStep lock more = some lock' ∧
    (hand ++ held t ++ fresh).Perm (hand' ++ held u ++ more.flatMap gone)

theorem carriesRefl (lock : Option Ref) (hand : List Item) (t : PlugTask σ) : Carries lock lock hand hand t t :=
  ⟨rfl, id, [], [], (List.append_nil _).symm, (List.append_nil _).symm, rfl, List.Perm.refl _⟩

theorem carriesTrans {lock lock' lock'' : Option Ref} {hand hand' hand'' : List Item} {t u v : PlugTask σ}
    (first : Carries lock lock' hand hand' t u) (second : Carries lock' lock'' hand' hand'' u v) :
    Carries lock lock'' hand hand'' t v := by
  obtain ⟨more, fresh, events, arrived, locks, perm⟩ := first.ledger
  obtain ⟨more', fresh', events', arrived', locks', perm'⟩ := second.ledger
  refine ⟨second.same.trans first.same, fun nodup => second.single (first.single nodup), more ++ more',
    fresh ++ fresh', by rw [events', events, List.append_assoc], by rw [arrived', arrived, List.append_assoc],
    by rw [execAppend, locks]; exact locks', ?_⟩
  rw [List.perm_iff_count] at *
  intro item
  have left := perm item
  have right := perm' item
  simp only [List.count_append, List.flatMap_append] at *
  omega

/- What is in hand besides stays in hand. -/
theorem carriesMore {lock lock' : Option Ref} {hand hand' : List Item} {t u : PlugTask σ} (extra : List Item)
    (carries : Carries lock lock' hand hand' t u) : Carries lock lock' (extra ++ hand) (extra ++ hand') t u := by
  obtain ⟨more, fresh, events, arrived, locks, perm⟩ := carries.ledger
  refine ⟨carries.same, carries.single, more, fresh, events, arrived, locks, ?_⟩
  simp only [List.append_assoc] at *
  exact List.Perm.append_left extra perm

theorem carriesLog {lock lock' : Option Ref} {hand hand' : List Item} (t : PlugTask σ) {more : List PlugEvent}
    (locks : exec lockStep lock more = some lock') (perm : hand.Perm (hand' ++ more.flatMap gone)) :
    Carries lock lock' hand hand' t (t.log more) := by
  refine ⟨rfl, id, more, [], rfl, (List.append_nil _).symm, locks, ?_⟩
  rw [List.perm_iff_count] at *
  intro item
  have count := perm item
  simp only [List.count_append, List.count_nil, PlugTask.log, held] at *
  omega

theorem carriesArrive (lock : Option Ref) (hand : List Item) (t : PlugTask σ) (item : Item) :
    Carries lock lock hand (item :: hand) t (t.arrive item) := by
  refine ⟨rfl, id, [], [item], (List.append_nil _).symm, rfl, rfl, ?_⟩
  simp only [List.flatMap_nil, List.append_nil, held, PlugTask.arrive]
  exact List.perm_append_comm

/- A change of the plug alone. -/
theorem carriesPlug {lock : Option Ref} {hand hand' : List Item} {t : PlugTask σ} {f : Plug → Plug}
    (single : ∀ p, t.plug.map Prod.snd = some p → p.cbList.Nodup → (f p).cbList.Nodup)
    (perm : ∀ p, t.plug.map Prod.snd = some p → (hand ++ plugItems p).Perm (hand' ++ plugItems (f p)))
    (none' : t.plug = none → hand.Perm hand') : Carries lock lock hand hand' t (t.setPlug f) := by
  refine ⟨?_, ?_, [], [], (List.append_nil _).symm, (List.append_nil _).symm, rfl, ?_⟩
  · cases found : t.plug <;> simp [PlugTask.setPlug, found]
  · cases found : t.plug with
    | none => simp [callbacks, PlugTask.setPlug, found]
    | some p => simpa [callbacks, PlugTask.setPlug, found] using single p.2 (by rw [found]; rfl)
  · simp only [List.flatMap_nil, List.append_nil]
    cases found : t.plug with
    | none => simpa [held, PlugTask.setPlug, found] using none' found
    | some p => simpa [held, PlugTask.setPlug, found] using perm p.2 (by rw [found]; rfl)

end

theorem handOverLocks (died : Ref → Bool) (rq : PlugRequest) :
    lockStep (some rq.q) (handOver died rq) = some (some rq.q) ∧ gone (handOver died rq) = requestItems rq := by
  unfold handOver
  split <;> exact ⟨if_pos rfl, rfl⟩

theorem unpluggedLocks (fromSchedule : Bool) (q : Ref) (depth : Nat) :
    exec lockStep (some q) (queueUnplugged fromSchedule q depth) = some none ∧
      (queueUnplugged fromSchedule q depth).flatMap gone = [] := by
  simp [queueUnplugged, exec, lockStep, gone]

/- The loop of `blk_flush_plug_list` from the lock of `q`, or from none: it ends without a
lock and hands over exactly its requests. -/
theorem flushLoopCarries {died : Ref → Bool} {fromSchedule : Bool} {q : Ref} {depth : Nat}
    {l : List PlugRequest} {events : List PlugEvent} (ran : flushLoop died fromSchedule q depth l = some events) :
    exec lockStep (if q = 0 then none else some q) events = some none ∧
      events.flatMap gone = l.flatMap requestItems := by
  induction l generalizing q depth events with
  | nil =>
    cases Option.some.inj ran
    by_cases null : q = 0
    · rw [if_neg (not_not.mpr null), if_pos null]
      exact ⟨rfl, rfl⟩
    · rw [if_pos null, if_neg null]
      exact unpluggedLocks fromSchedule q depth
  | cons rq rest ih =>
    rw [flushLoop] at ran
    split at ran <;> try contradiction
    rename_i owned
    obtain ⟨later, looped, rfl⟩ := Option.map_eq_some_iff.mp ran
    obtain ⟨locks, items⟩ := ih looped
    obtain ⟨stays, taken⟩ := handOverLocks died rq
    rw [if_neg owned] at locks
    have tail : exec lockStep (some rq.q) (handOver died rq :: later) = some none := by
      rw [execCons stays, locks]
    have opening : ∀ opened : List PlugEvent,
        exec lockStep (if q = 0 then none else some q) opened = some (some rq.q) → opened.flatMap gone = [] →
        exec lockStep (if q = 0 then none else some q) (opened ++ handOver died rq :: later) = some none ∧
          (opened ++ handOver died rq :: later).flatMap gone = (rq :: rest).flatMap requestItems := by
      intro opened locked nothing
      refine ⟨by rw [execAppend, locked]; exact tail, ?_⟩
      rw [List.flatMap_append, nothing, List.nil_append, List.flatMap_cons, taken, items, List.flatMap_cons]
    refine opening _ ?_ ?_
    · by_cases moved : rq.q ≠ q
      · rw [if_pos moved, execAppend]
        by_cases null : q = 0
        · rw [if_neg (not_not.mpr null), if_pos null]
          rfl
        · rw [if_pos null, if_neg null, (unpluggedLocks fromSchedule q depth).1]
          rfl
      · rw [if_neg moved]
        rw [ne_eq, not_not] at moved
        subst moved
        rw [if_neg owned]
        rfl
    · by_cases moved : rq.q ≠ q
      · rw [if_pos moved, List.flatMap_append]
        by_cases null : q = 0
        · rw [if_neg (not_not.mpr null)]
          rfl
        · rw [if_pos null, (unpluggedLocks fromSchedule q depth).2]
          rfl
      · rw [if_neg moved]
        rfl

/- The loop hands over no request but those on its list. -/
theorem flushLoopHands {died : Ref → Bool} {fromSchedule : Bool} {q : Ref} {depth : Nat}
    {l : List PlugRequest} {events : List PlugEvent} (ran : flushLoop died fromSchedule q depth l = some events) :
    ∀ e ∈ events, ∀ rq ∈ handed e, rq ∈ l := by
  have unplugged : ∀ q depth, ∀ e ∈ queueUnplugged fromSchedule q depth, handed e = [] := by
    simp [queueUnplugged, handed]
  induction l generalizing q depth events with
  | nil =>
    cases Option.some.inj ran
    intro e member rq there
    split at member
    · rw [unplugged q depth e member] at there
      cases there
    · cases member
  | cons rq rest ih =>
    rw [flushLoop] at ran
    split at ran <;> try contradiction
    obtain ⟨later, looped, rfl⟩ := Option.map_eq_some_iff.mp ran
    intro e member x there
    rcases List.mem_append.mp member with opened | rest'
    · split at opened
      · rcases List.mem_append.mp opened with closed | locked
        · split at closed
          · rw [unplugged q depth e closed] at there
            cases there
          · cases closed
        · rw [List.mem_singleton.mp locked] at there
          cases there
      · cases opened
    · rcases List.mem_cons.mp rest' with rfl | further
      · have one : handed (handOver died rq) = [rq] := by
          unfold handOver
          split <;> rfl
        rw [one] at there
        rw [List.mem_singleton.mp there]
        exact List.mem_cons_self
      · exact List.mem_cons_of_mem rq (ih looped e further x there)

/- `blk_rq_set_mixed_merge` marks the request and its bios; nothing else of it changes. -/
structure SetsMixed (m : BlkMerge) : Prop where
  addr : ∀ rq, (m.setMixedMerge rq).addr = rq.addr
  q : ∀ rq, (m.setMixedMerge rq).q = rq.q
  flushFua : ∀ rq, (m.setMixedMerge rq).flushFua = rq.flushFua
  range : ∀ rq, (m.setMixedMerge rq).sector = rq.sector ∧ (m.setMixedMerge rq).dataLen = rq.dataLen
  bios : ∀ rq, (m.setMixedMerge rq).bio.map (fun b => (b.addr, b.biSector, b.biSize)) =
    rq.bio.map (fun b => (b.addr, b.biSector, b.biSize))

/- The two ways a bio joins a plugged request. -/
theorem attemptMergeCases {m : BlkMerge} {q : Ref} {bio : Bio} {rq merged : PlugRequest}
    (joined : attemptMerge m q bio rq = some merged) : rq.q = q ∧
    ((m.tryMerge rq bio = .backMerge ∧ m.llBackMerge rq bio = true ∧
      merged = {mixed m rq bio with
        bio := (mixed m rq bio).bio ++ [bio], dataLen := (mixed m rq bio).dataLen + bio.biSize}) ∨
     (m.tryMerge rq bio = .frontMerge ∧ m.llFrontMerge rq bio = true ∧
      merged = {mixed m rq bio with
        bio := bio :: (mixed m rq bio).bio, sector := bio.biSector,
        dataLen := (mixed m rq bio).dataLen + bio.biSize})) := by
  unfold attemptMerge at joined
  split at joined <;> try contradiction
  rename_i allowed
  rw [Bool.or_eq_true, decide_eq_true_iff, not_or, not_not] at allowed
  refine ⟨allowed.1, ?_⟩
  split at joined
  · rename_i side
    unfold bioAttemptBackMerge at joined
    split at joined <;> try contradiction
    rename_i limits
    exact Or.inl ⟨side, by simpa using limits, (Option.some.inj joined).symm⟩
  · rename_i side
    unfold bioAttemptFrontMerge at joined
    split at joined <;> try contradiction
    rename_i limits
    exact Or.inr ⟨side, by simpa using limits, (Option.some.inj joined).symm⟩
  · contradiction

/- The loop of `blk_attempt_plug_merge` changes one request, by a merge. -/
theorem plugMergeCases {m : BlkMerge} {q : Ref} {bio : Bio} {l out : List PlugRequest} {count : Nat}
    (looped : plugMergeLoop m q bio l = (count, some out)) :
    ∃ before rq after merged, l = before ++ rq :: after ∧ out = before ++ merged :: after ∧
      attemptMerge m q bio rq = some merged := by
  induction l generalizing count out with
  | nil => cases looped
  | cons rq rest ih =>
    rw [plugMergeLoop] at looped
    split at looped
    · rename_i merged joined
      cases looped
      exact ⟨[], rq, rest, merged, rfl, rfl, joined⟩
    · cases inner : plugMergeLoop m q bio rest with
      | mk n more =>
        rw [inner] at looped
        cases more with
        | none => cases looped
        | some more =>
          cases looped
          obtain ⟨before, x, after, merged, rfl, rfl, joined⟩ := ih inner
          exact ⟨rq :: before, x, after, merged, rfl, rfl, joined⟩

/- Without a merge the loop has counted every request of the queue. -/
theorem plugMergeCounts {m : BlkMerge} {q : Ref} {bio : Bio} {l : List PlugRequest} {count : Nat}
    (looped : plugMergeLoop m q bio l = (count, none)) : count = l.countP (fun rq => rq.q = q) := by
  induction l generalizing count with
  | nil =>
    cases looped
    rfl
  | cons rq rest ih =>
    rw [plugMergeLoop] at looped
    split at looped
    · cases looped
    · cases inner : plugMergeLoop m q bio rest with
      | mk n more =>
        rw [inner] at looped
        cases more with
        | some more => cases looped
        | none =>
          cases looped
          rw [ih inner, List.countP_cons, Nat.add_comm]
          simp only [decide_eq_true_iff]

theorem mixedKeeps {m : BlkMerge} (sets : SetsMixed m) (rq : PlugRequest) (bio : Bio) :
    (mixed m rq bio).addr = rq.addr ∧ (mixed m rq bio).q = rq.q ∧ (mixed m rq bio).flushFua = rq.flushFua ∧
      (mixed m rq bio).sector = rq.sector ∧ (mixed m rq bio).dataLen = rq.dataLen ∧
      (mixed m rq bio).bio.map (fun b => (b.addr, b.biSector, b.biSize)) =
        rq.bio.map (fun b => (b.addr, b.biSector, b.biSize)) := by
  unfold mixed
  split
  · exact ⟨sets.addr rq, sets.q rq, sets.flushFua rq, (sets.range rq).1, (sets.range rq).2, sets.bios rq⟩
  · exact ⟨rfl, rfl, rfl, rfl, rfl, rfl⟩

def rangeOf (rq : Request) : Sector × BitVec 32 := (rq.sector, rq.dataLen)

/- A bio moves the range of a plugged request as the same merge moves that of a queued one. -/
theorem backMergeAgrees {m : BlkMerge} (sets : SetsMixed m) (rq : PlugRequest) (bio : Bio) {b : BlockState} {r : Ref}
    (same : rangeOf (b.req r) = rangeOf rq.toRequest) :
    (Merging.bioAttemptBackMerge (m.llBackMerge rq bio) b r ⟨bio.biSector, bio.biSize⟩).1 =
        (bioAttemptBackMerge m rq bio).isSome ∧
      ∀ merged, bioAttemptBackMerge m rq bio = some merged → rangeOf merged.toRequest =
        rangeOf ((Merging.bioAttemptBackMerge (m.llBackMerge rq bio) b r ⟨bio.biSector, bio.biSize⟩).2.req r) := by
  obtain ⟨-, -, -, sector, dataLen, -⟩ := mixedKeeps sets rq bio
  obtain ⟨first, len⟩ := Prod.mk.inj same
  unfold bioAttemptBackMerge Merging.bioAttemptBackMerge
  cases m.llBackMerge rq bio with
  | false => exact ⟨rfl, fun _ joined => by cases joined⟩
  | true =>
    refine ⟨rfl, fun merged joined => ?_⟩
    cases Option.some.inj joined
    simp [rangeOf, BlockState.setReq, sector, dataLen, first, len]

theorem frontMergeAgrees {m : BlkMerge} (sets : SetsMixed m) (rq : PlugRequest) (bio : Bio) {b : BlockState} {r : Ref}
    (same : rangeOf (b.req r) = rangeOf rq.toRequest) :
    (Merging.bioAttemptFrontMerge (m.llFrontMerge rq bio) b r ⟨bio.biSector, bio.biSize⟩).1 =
        (bioAttemptFrontMerge m rq bio).isSome ∧
      ∀ merged, bioAttemptFrontMerge m rq bio = some merged → rangeOf merged.toRequest =
        rangeOf ((Merging.bioAttemptFrontMerge (m.llFrontMerge rq bio) b r ⟨bio.biSector, bio.biSize⟩).2.req r) := by
  obtain ⟨-, -, -, -, dataLen, -⟩ := mixedKeeps sets rq bio
  obtain ⟨-, len⟩ := Prod.mk.inj same
  unfold bioAttemptFrontMerge Merging.bioAttemptFrontMerge
  cases m.llFrontMerge rq bio with
  | false => exact ⟨rfl, fun _ joined => by cases joined⟩
  | true =>
    refine ⟨rfl, fun merged joined => ?_⟩
    cases Option.some.inj joined
    simp [rangeOf, BlockState.setReq, dataLen, len]

/- The request made of a bio for the plug is the one made of it for the queue. -/
theorem initAgrees (sub : Submission) (rq : FreshRequest) (b : BlockState) (r : Ref) :
    (Stamps.initRequestFromBio b r sub.bio.biSector sub.bio.biSize .fs (initRequestFromBio sub rq).cmdFlags).req r =
      (initRequestFromBio sub rq).toRequest := by
  simp [Stamps.initRequestFromBio, blkRqInit, BlockState.setReq, initRequestFromBio, unused]

theorem mergeItems {m : BlkMerge} (sets : SetsMixed m) {q : Ref} {bio : Bio} {rq merged : PlugRequest}
    (joined : attemptMerge m q bio rq = some merged) :
    (requestItems merged).Perm (.bio bio.addr :: requestItems rq) := by
  obtain ⟨addr, -, -, -, -, bios⟩ := mixedKeeps sets rq bio
  have addrs : (mixed m rq bio).bio.map (fun b => Item.bio b.addr) = rq.bio.map (fun b => Item.bio b.addr) := by
    have firsts := congrArg (List.map (fun x => Item.bio x.1)) bios
    rwa [List.map_map, List.map_map] at firsts
  rcases (attemptMergeCases joined).2 with ⟨-, -, rfl⟩ | ⟨-, -, rfl⟩
  · simp only [requestItems, addr, List.map_append, addrs]
    rw [List.perm_iff_count]
    intro item
    simp only [List.count_cons, List.count_append, List.map_cons, List.map_nil, List.count_nil]
    omega
  · simp only [requestItems, addr, List.map_cons, addrs]
    exact List.Perm.swap _ _ _

section
variable {σ : Type}

theorem plugMergeCarries {m : BlkMerge} (sets : SetsMixed m) {t u : PlugTask σ} {sub : Submission} {count : Nat}
    (joined : blkAttemptPlugMerge m t sub = (count, true, u)) :
    Carries none none [.bio sub.bio.addr] [] t u := by
  unfold blkAttemptPlugMerge at joined
  split at joined <;> cases joined
  rename_i out looped
  obtain ⟨before, rq, after, merged, whole, changed, one⟩ := plugMergeCases looped
  have list : t.plugged = after.reverse ++ rq :: before.reverse := by
    rw [← List.reverse_reverse t.plugged, whole]
    simp
  refine carriesPlug (fun p _ nodup => nodup) ?_ ?_
  · intro p here
    have plugged : p.list = after.reverse ++ rq :: before.reverse := by
      rw [← list, PlugTask.plugged]
      obtain ⟨pair, found, rfl⟩ := Option.map_eq_some_iff.mp here
      rw [found]
      rfl
    have items := List.perm_iff_count.mp (mergeItems sets one)
    rw [List.perm_iff_count]
    intro item
    have count := items item
    simp only [plugItems, plugged, changed, List.reverse_append, List.reverse_cons, List.flatMap_append,
      List.flatMap_cons, List.flatMap_nil, List.count_append, List.count_cons, List.count_nil,
      List.append_nil] at *
    omega
  · intro none'
    rw [PlugTask.plugged, none'] at list
    exact absurd list (List.append_ne_nil_of_right_ne_nil _ (List.cons_ne_nil _ _)).symm

theorem flushIfCarries {flush : PlugTask σ → Bool → Option (PlugTask σ)}
    (carries : ∀ t fromSchedule u, flush t fromSchedule = some u → Carries none none [] [] t u)
    {t u : PlugTask σ} {fromSchedule : Bool} (ran : flushIfPlugged flush t fromSchedule = some u) :
    Carries none none [] [] t u := by
  unfold flushIfPlugged at ran
  split at ran
  · cases Option.some.inj ran
    exact carriesRefl none [] t
  · exact carries _ _ _ ran

theorem sleepCarries {flush : PlugTask σ → Bool → Option (PlugTask σ)}
    (carries : ∀ t fromSchedule u, flush t fromSchedule = some u → Carries none none [] [] t u)
    {q : Ref} {sleeps : Nat} {t u : PlugTask σ} (ran : sleepForRequest flush q sleeps t = some u) :
    Carries (some q) (some q) [] [] t u := by
  induction sleeps generalizing t with
  | zero =>
    cases Option.some.inj ran
    exact carriesRefl (some q) [] u
  | succ n ih =>
    rw [sleepForRequest] at ran
    split at ran <;> try contradiction
    rename_i v flushed
    have unlocked : Carries (some q) none [] [] t (t.log [.unlock q]) :=
      carriesLog t (by simp [exec, lockStep]) (List.Perm.refl _)
    have locked : Carries none (some q) [] [] v (v.log [.lock q]) :=
      carriesLog v rfl (List.Perm.refl _)
    exact carriesTrans unlocked (carriesTrans (flushIfCarries carries flushed) (carriesTrans locked (ih ran)))

theorem addRequestCarries {flush : PlugTask σ → Bool → Option (PlugTask σ)}
    (carries : ∀ t fromSchedule u, flush t fromSchedule = some u → Carries none none [] [] t u)
    {t u : PlugTask σ} {req : PlugRequest} {point : InsertionPoint} {count : Nat}
    (ran : addRequest flush t req point count = some u) :
    Carries none none (requestItems req) [] t u := by
  unfold addRequest at ran
  split at ran
  · rename_i pair plugged
    obtain ⟨v, made, rfl⟩ := Option.map_eq_some_iff.mp ran
    have before : Carries none none [] [] t v := by
      split at made
      · exact carries _ _ _ made
      · cases Option.some.inj made
        exact carriesRefl none [] t
    have push : Carries none none (requestItems req) [] v
        (v.setPlug fun plug => {plug with list := plug.list ++ [req]}) := by
      refine carriesPlug (fun p _ nodup => nodup) ?_ ?_
      · intro p _
        rw [List.perm_iff_count]
        intro item
        simp only [plugItems, List.flatMap_append, List.flatMap_cons, List.flatMap_nil, List.append_nil,
          List.count_append, List.nil_append]
        omega
      · intro none'
        have same := before.same
        rw [none', plugged] at same
        cases same
    have kept := carriesMore (requestItems req) before
    rw [List.append_nil] at kept
    exact carriesTrans kept push
  · cases Option.some.inj ran
    refine carriesLog t (by simp [exec, lockStep]) ?_
    simp [gone]

theorem getRqCarries {flush : PlugTask σ → Bool → Option (PlugTask σ)}
    (carries : ∀ t fromSchedule u, flush t fromSchedule = some u → Carries none none [] [] t u)
    {t u : PlugTask σ} {sub : Submission} {point : InsertionPoint} {count : Nat}
    (ran : getRq flush t sub point count = some u) :
    Carries (some sub.q) none [.bio sub.bio.addr] [] t u := by
  unfold getRq at ran
  split at ran <;> try contradiction
  rename_i v slept
  have asleep := carriesMore [.bio sub.bio.addr] (sleepCarries carries slept)
  split at ran
  · cases Option.some.inj ran
    exact carriesTrans asleep (carriesLog v (by simp [exec, lockStep]) (by simp [gone]))
  · rename_i rq _
    have unlocked : Carries (some sub.q) none [.bio sub.bio.addr] [.bio sub.bio.addr] v (v.log [.unlock sub.q]) :=
      carriesLog v (by simp [exec, lockStep]) (by simp [gone])
    have made := carriesArrive none [.bio sub.bio.addr] (v.log [.unlock sub.q]) (.request rq.addr)
    exact carriesTrans asleep (carriesTrans unlocked (carriesTrans made (addRequestCarries carries ran)))

theorem queueBioCarries {outer : Outer σ} (sets : SetsMixed outer.merging)
    {flush : PlugTask σ → Bool → Option (PlugTask σ)}
    (carries : ∀ t fromSchedule u, flush t fromSchedule = some u → Carries none none [] [] t u)
    {t u : PlugTask σ} {sub : Submission} (ran : queueBioWith outer flush t sub = some u) :
    Carries none none [] [] t u := by
  have came := carriesArrive none [] t (.bio sub.bio.addr)
  unfold queueBioWith at ran
  generalize t.arrive (.bio sub.bio.addr) = v at came ran
  refine carriesTrans came ?_
  have locked : ∀ w : PlugTask σ, Carries none (some sub.q) [.bio sub.bio.addr] [.bio sub.bio.addr] w
      (w.log [.lock sub.q]) := fun w => carriesLog w rfl (by simp [gone])
  have unmerged : ∀ {w u : PlugTask σ} {count : Nat}, queueUnmerged flush w sub count = some u →
      Carries none none [.bio sub.bio.addr] [] w u := by
    intro w u count ran
    unfold queueUnmerged at ran
    split at ran
    · cases Option.some.inj ran
      exact carriesLog w (by simp [exec, lockStep]) (by simp [gone])
    · exact carriesTrans (locked w) (getRqCarries carries ran)
  dsimp only at ran
  split at ran
  · cases Option.some.inj ran
    exact carriesLog v rfl (by simp [gone])
  · split at ran
    · exact carriesTrans (locked v) (getRqCarries carries ran)
    · split at ran
      · exact unmerged ran
      · split at ran
        · rename_i joined
          cases Option.some.inj ran
          exact plugMergeCarries sets joined
        · rename_i joined
          unfold blkAttemptPlugMerge at joined
          split at joined <;> cases joined
          exact unmerged ran

theorem checkCarries (t : PlugTask σ) (cb : PlugCb) (allocated : Bool) :
    Carries none none [] [] t (blkCheckPlugged t cb allocated) := by
  unfold blkCheckPlugged
  split
  · exact carriesRefl none [] t
  · rename_i pair plug found
    split
    · exact carriesRefl none [] t
    · rename_i fresh
      split
      · have push : Carries none none [.callback cb] [] (t.arrive (.callback cb))
            ((t.arrive (.callback cb)).setPlug fun plug => {plug with cbList := cb :: plug.cbList}) := by
          refine carriesPlug ?_ ?_ ?_
          · intro p here nodup
            rw [PlugTask.arrive, found] at here
            cases Option.some.inj here
            exact List.nodup_cons.mpr ⟨fresh, nodup⟩
          · intro p _
            rw [List.perm_iff_count]
            intro item
            simp only [plugItems, List.map_cons, List.count_append, List.count_cons, List.count_nil,
              List.nil_append]
            omega
          · intro none'
            rw [PlugTask.arrive, found] at none'
            cases none'
        exact carriesTrans (carriesArrive none [] t (.callback cb)) push
      · exact carriesRefl none [] t

theorem flushRequestsCarries {outer : Outer σ} (sorts : ListSort outer.listSort) {t u : PlugTask σ}
    {fromSchedule : Bool} (ran : flushRequests outer t fromSchedule = some u) :
    Carries none none [] [] t u ∧ u.plugged = [] ∧ callbacks u = callbacks t := by
  unfold flushRequests at ran
  split at ran
  · rename_i empty
    cases Option.some.inj ran
    exact ⟨carriesRefl none [] t, empty, rfl⟩
  · obtain ⟨events, looped, rfl⟩ := Option.map_eq_some_iff.mp ran
    obtain ⟨locks, items⟩ := flushLoopCarries looped
    have cleared : Carries none none [] (t.plugged.flatMap requestItems) t
        (t.setPlug fun plug => {plug with list := []}) := by
      refine carriesPlug (fun p _ nodup => nodup) ?_ ?_
      · intro p here
        have list : t.plugged = p.list := by
          obtain ⟨pair, found, rfl⟩ := Option.map_eq_some_iff.mp here
          rw [PlugTask.plugged, found]
          rfl
        simp [plugItems, list]
      · intro none'
        rw [PlugTask.plugged, none']
        rfl
    have logged : Carries none none (t.plugged.flatMap requestItems) []
        (t.setPlug fun plug => {plug with list := []})
        ((t.setPlug fun plug => {plug with list := []}).log events) := by
      refine carriesLog _ locks ?_
      rw [items, List.nil_append]
      exact ((sorts.perm t.plugged).flatMap_right requestItems).symm
    refine ⟨carriesTrans cleared logged, ?_, ?_⟩
    · cases found : t.plug <;> simp [PlugTask.plugged, PlugTask.log, PlugTask.setPlug, found]
    · cases found : t.plug <;> simp [callbacks, PlugTask.log, PlugTask.setPlug, found]

/- Nothing is held back any more. -/
def Clear (t : PlugTask σ) : Prop := t.plugged = [] ∧ callbacks t = []

theorem clearHeld {t : PlugTask σ} (clear : Clear t) : held t = [] := by
  obtain ⟨list, cbs⟩ := clear
  unfold PlugTask.plugged at list
  unfold callbacks at cbs
  unfold held
  cases found : t.plug with
  | none => rfl
  | some p =>
    rw [found] at list cbs
    simp only [Option.map_some, Option.getD_some] at list cbs ⊢
    rw [plugItems, list, cbs]
    rfl

/- The three functions that call each other, by induction on the calls left. -/
theorem flushCarries {outer : Outer σ} (sets : SetsMixed outer.merging) (sorts : ListSort outer.listSort)
    (fuel : Nat) :
    (∀ t fromSchedule u, blkFlushPlugList outer fuel t fromSchedule = some u →
      Carries none none [] [] t u ∧ Clear u) ∧
    (∀ t fromSchedule cbs u, flushPlugCallbacks outer fuel t fromSchedule cbs = some u →
      Carries none none (cbs.map .callback) [] t u ∧ callbacks u = []) ∧
    (∀ t calls u, cbCalls outer fuel t calls = some u → Carries none none [] [] t u) := by
  induction fuel with
  | zero =>
    refine ⟨fun t fromSchedule u ran => ?_, fun t fromSchedule cbs u ran => ?_, fun t calls u ran => ?_⟩
    · rw [blkFlushPlugList] at ran
      contradiction
    · rw [flushPlugCallbacks] at ran
      contradiction
    · rw [cbCalls] at ran
      contradiction
  | succ fuel ih =>
    obtain ⟨flushes, loops, calls'⟩ := ih
    refine ⟨fun t fromSchedule u ran => ?_, fun t fromSchedule cbs u ran => ?_, fun t calls u ran => ?_⟩
    · rw [blkFlushPlugList] at ran
      split at ran <;> try contradiction
      rename_i v looped
      obtain ⟨first, none'⟩ := loops _ _ _ _ looped
      obtain ⟨second, list, same⟩ := flushRequestsCarries sorts ran
      exact ⟨carriesTrans first second, list, same.trans none'⟩
    · cases cbs with
      | nil =>
        rw [flushPlugCallbacks] at ran
        split at ran
        · rename_i empty
          cases Option.some.inj ran
          exact ⟨carriesRefl none [] t, empty⟩
        · obtain ⟨rest, none'⟩ := loops _ _ _ _ ran
          refine ⟨carriesTrans (carriesPlug (fun _ _ _ => List.nodup_nil) ?_ ?_) rest, none'⟩
          · intro p here
            obtain ⟨pair, found, rfl⟩ := Option.map_eq_some_iff.mp here
            rw [found]
            simp only [Option.map_some, Option.getD_some, plugItems, List.map_nil, List.append_nil,
              List.nil_append]
            exact List.perm_append_comm
          · intro none''
            rw [none'']
            exact List.Perm.refl _
      | cons cb cbs =>
        rw [flushPlugCallbacks] at ran
        split at ran <;> try contradiction
        rename_i v called
        have logged : Carries none none (Item.callback cb :: cbs.map .callback) (cbs.map .callback) t
            {t.log [.callback cb fromSchedule] with world := (outer.unplug t.world cb fromSchedule).1} := by
          have kept : Carries none none (Item.callback cb :: cbs.map .callback) (cbs.map .callback) t
              (t.log [.callback cb fromSchedule]) := by
            refine carriesLog t rfl ?_
            simp only [List.flatMap_cons, gone, List.flatMap_nil, List.append_nil]
            exact @List.perm_append_comm _ [Item.callback cb] (cbs.map .callback)
          exact ⟨kept.same, kept.single, kept.ledger⟩
        obtain ⟨rest, none'⟩ := loops _ _ _ _ ran
        have inside := carriesMore (cbs.map Item.callback) (calls' _ _ _ called)
        rw [List.append_nil] at inside
        exact ⟨carriesTrans logged (carriesTrans inside rest), none'⟩
    · cases calls with
      | nil =>
        rw [cbCalls] at ran
        cases Option.some.inj ran
        exact carriesRefl none [] t
      | cons call calls =>
        cases call with
        | check cb allocated =>
          rw [cbCalls] at ran
          exact carriesTrans (checkCarries t cb allocated) (calls' _ _ _ ran)
        | submit sub =>
          rw [cbCalls] at ran
          split at ran <;> try contradiction
          rename_i v queued
          have first := queueBioCarries sets (fun t fromSchedule u ran => (flushes t fromSchedule u ran).1) queued
          exact carriesTrans first (calls' _ _ _ ran)

/- Between the operations of a task: whatever arrived is on the plug or was handed over,
once; no lock is held, and no callback waits twice. -/
structure Ledger (t : PlugTask σ) : Prop where
  whole : t.arrived.Perm (held t ++ t.events.flatMap gone)
  locks : exec lockStep none t.events = some none
  single : (callbacks t).Nodup

theorem ledgerIdle (world : σ) : Ledger (idleTask world) := ⟨List.Perm.refl _, rfl, List.nodup_nil⟩

theorem carriesLedger {t u : PlugTask σ} (ledger : Ledger t) (carries : Carries none none [] [] t u) :
    Ledger u := by
  obtain ⟨more, fresh, events, arrived, locks, perm⟩ := carries.ledger
  refine ⟨?_, by rw [events, execAppend, ledger.locks]; exact locks, carries.single ledger.single⟩
  have whole := ledger.whole
  rw [arrived, events, List.flatMap_append]
  rw [List.perm_iff_count] at *
  intro item
  have left := whole item
  have right := perm item
  simp only [List.count_append, List.count_nil] at *
  omega

/- Which plug counts, by the calls alone: the outermost one that was started. -/
def openPlug : Option Ref → TaskOp → Option Ref
  | none, .start p => some p
  | some q, .finish p => if q = p then none else some q
  | current, _ => current

theorem stepKeeps {outer : Outer σ} (sets : SetsMixed outer.merging) (sorts : ListSort outer.listSort)
    {fuel : Nat} {t u : PlugTask σ} {op : TaskOp} (ledger : Ledger t) (taken : step outer fuel t op = some u) :
    Ledger u ∧ u.plug.map Prod.fst = openPlug (t.plug.map Prod.fst) op := by
  obtain ⟨flushes, -, -⟩ := flushCarries sets sorts fuel
  have carries := fun t fromSchedule u ran => (flushes t fromSchedule u ran).1
  have stays : ∀ {u : PlugTask σ} {op : TaskOp}, (∀ current, openPlug current op = current) →
      Carries none none [] [] t u → Ledger u ∧ u.plug.map Prod.fst = openPlug (t.plug.map Prod.fst) op :=
    fun idle moved => ⟨carriesLedger ledger moved, by rw [idle, moved.same]⟩
  cases op with
  | start p =>
    cases Option.some.inj taken
    unfold blkStartPlug
    split
    · rename_i found
      exact ⟨ledger, by rw [found]; rfl⟩
    · rename_i none'
      refine ⟨⟨?_, ledger.locks, List.nodup_nil⟩, by rw [none']; rfl⟩
      have whole := ledger.whole
      rw [held, none'] at whole
      exact whole
  | finish p =>
    simp only [step, blkFinishPlug] at taken
    split at taken
    · rename_i other
      cases Option.some.inj taken
      refine ⟨ledger, ?_⟩
      cases found : t.plug.map Prod.fst with
      | none => rfl
      | some q =>
        rw [found] at other
        exact (if_neg (fun same => other (congrArg some same))).symm
    · rename_i same
      rw [ne_eq, not_not] at same
      obtain ⟨v, flushed, rfl⟩ := Option.map_eq_some_iff.mp taken
      obtain ⟨moved, clear⟩ := flushes _ _ _ flushed
      have before := carriesLedger ledger moved
      refine ⟨⟨?_, before.locks, List.nodup_nil⟩, ?_⟩
      · have whole := before.whole
        rw [clearHeld clear] at whole
        exact whole
      · rw [same]
        exact (if_pos rfl).symm
  | submit sub => exact stays (fun current => by cases current <;> rfl) (queueBioCarries sets carries taken)
  | check cb allocated =>
    cases Option.some.inj taken
    exact stays (fun current => by cases current <;> rfl) (checkCarries t cb allocated)
  | flush fromSchedule => exact stays (fun current => by cases current <;> rfl) (flushIfCarries carries taken)

theorem runKeeps {outer : Outer σ} (sets : SetsMixed outer.merging) (sorts : ListSort outer.listSort)
    {fuel : Nat} {s t : PlugTask σ} {ops : List TaskOp} (ledger : Ledger s)
    (ran : exec (step outer fuel) s ops = some t) :
    Ledger t ∧ t.plug.map Prod.fst = ops.foldl openPlug (s.plug.map Prod.fst) := by
  induction ops generalizing s with
  | nil =>
    cases Option.some.inj ran
    exact ⟨ledger, rfl⟩
  | cons op ops ih =>
    obtain ⟨u, taken, rest⟩ := execConsSome ran
    obtain ⟨next, plug⟩ := stepKeeps sets sorts ledger taken
    obtain ⟨last, now⟩ := ih next rest
    exact ⟨last, by rw [now, plug]; rfl⟩

/- Every run of a task, whatever its callbacks do: nothing that arrives is lost or handed
over twice, locks are taken one at a time and never kept over a callback, only the outermost
plug counts, and nothing is held back once it is finished or the task sleeps. -/
theorem nothingStranded {outer : Outer σ} (sets : SetsMixed outer.merging) (sorts : ListSort outer.listSort)
    {fuel : Nat} {world : σ} {ops : List TaskOp} {t : PlugTask σ}
    (ran : exec (step outer fuel) (idleTask world) ops = some t) :
    Ledger t ∧ t.plug.map Prod.fst = ops.foldl openPlug none ∧
    (t.plug = none → t.arrived.Perm (t.events.flatMap gone)) ∧
    (∀ fromSchedule u, step outer fuel t (.flush fromSchedule) = some u → held u = []) := by
  obtain ⟨ledger, plug⟩ := runKeeps sets sorts (ledgerIdle world) ran
  refine ⟨ledger, plug, fun none' => ?_, fun fromSchedule u flushed => ?_⟩
  · have whole := ledger.whole
    rw [held, none'] at whole
    exact whole
  · simp only [step, flushIfPlugged] at flushed
    split at flushed
    · rename_i none'
      cases Option.some.inj flushed
      rw [held, none']
      rfl
    · exact clearHeld ((flushCarries sets sorts fuel).1 _ _ _ flushed).2

end

theorem plainSets : SetsMixed plainMerge :=
  ⟨fun _ => rfl, fun _ => rfl, fun _ => rfl, fun _ => ⟨rfl, rfl⟩, fun _ => rfl⟩

theorem raidStranded : ∃ t, exec (step raidOuter 9) (idleTask ()) raidRun = some t ∧ Ledger t ∧
    t.arrived.Perm (t.events.flatMap gone) := by
  have some' : (exec (step raidOuter 9) (idleTask ()) raidRun).isSome := by decide +kernel
  obtain ⟨t, ran⟩ := Option.isSome_iff_exists.mp some'
  obtain ⟨ledger, plug, whole, -⟩ := nothingStranded plainSets plugSortSorts ran
  exact ⟨t, ran, ledger, whole (Option.map_eq_none_iff.mp plug)⟩

end KernelLabs.PlugRuns
