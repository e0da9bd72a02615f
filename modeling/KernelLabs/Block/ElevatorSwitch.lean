import KernelLabs.Library.Runs
import Mathlib

/-! The registry of elevator types and what queues take from it: choosing a type by its name,
holding its module, switching a queue to another type, and the error paths of all of these. Any
number of callers work on them in turn. What a switch drains is left to the models of queues. -/
namespace KernelLabs.ElevatorSwitch
open Runs

abbrev TypeId := Nat
abbrev Name := List Char

/- A module that is `going` still has its type on the list for a while. -/
inductive Module where
  | absent | live | going
  deriving DecidableEq, Repr

/- Each type is a module of its own. `overPut` counts puts of a reference that was put already, and
`leaked` references that nobody is left to put. -/
structure World where
  elvList : List TypeId
  module : TypeId → Module
  refs : TypeId → Int
  overPut : TypeId → Int
  leaked : TypeId → Int

/- The module core: whether `try_module_get` answers true, and whether `delete_module` starts to
unload. -/
structure ModuleCore where
  tryModuleGet : World → TypeId → Bool
  deleteModule : World → TypeId → Bool

/- Only a module that is live is taken or unloaded, and its count is `refs` as long as nobody put a
reference that was put already: then a live one is taken, and one in use stays. -/
structure ModuleRules (core : ModuleCore) : Prop where
  taken : ∀ w e, core.tryModuleGet w e = true → w.module e = .live
  given : ∀ w e, w.overPut e = 0 → w.module e = .live → core.tryModuleGet w e = true
  leaves : ∀ w e, core.deleteModule w e = true → w.module e = .live
  unused : ∀ w e, w.overPut e = 0 → core.deleteModule w e = true → w.refs e = 0

/- A call of `__elevator_change` between two sections: it waits for `request_module`, or it has
the type. What `strlcpy` copied is kept with it. -/
inductive Change where
  | asking (name : Name)
  | got (e : TypeId) (name : Name)
  deriving DecidableEq, Repr

/- `elevator` is the type of `q->elevator` and whether it is registered in sysfs. -/
structure QueueElv where
  elevator : Option (TypeId × Bool)
  change : Option Change
  deriving DecidableEq, Repr

/- How `elevator_init_fn` ends: the elevator queue, or its data, may not be allocated. -/
inductive InitFn where
  | ok | noElevator | noData
  deriving DecidableEq, Repr

def bump (f : TypeId → Int) (e : TypeId) (n : Int) : TypeId → Int := fun x => if x = e then f x + n else f x

def elvNameMax : Nat := 16

/- The kernel's `isspace`. -/
def isSpace (c : Char) : Bool := c == ' ' || (9 ≤ c.toNat && c.toNat ≤ 13) || c.toNat == 160

/- `strlcpy`, and what `strstrip` does to the end; then where it says the name starts. -/
def copied (text : Name) : Name := ((text.take (elvNameMax - 1)).reverse.dropWhile isSpace).reverse
def stripped (name : Name) : Name := name.dropWhile isSpace

section
variable (core : ModuleCore) (nameOf : TypeId → Name)

def elevatorFind (w : World) (name : Name) : Option TypeId := w.elvList.find? (fun e => nameOf e == name)

def tryModuleGet (w : World) (e : TypeId) : Option World :=
  if core.tryModuleGet w e then some {w with refs := bump w.refs e 1} else none

def elevatorPut (w : World) (e : TypeId) : World := {w with refs := bump w.refs e (-1)}

/- Without loading: both results are of one section of `elv_list_lock`. -/
def elevatorGet (w : World) (name : Name) : World × Option TypeId :=
  match elevatorFind nameOf w name with
  | none => (w, none)
  | some e =>
    match tryModuleGet core w e with
    | none => (w, none)
    | some w => (w, some e)

/- `elv_register` from the init function of the module: a name that is taken is refused, and the
module goes away again. -/
def elvRegister (w : World) (e : TypeId) : World :=
  if w.module e = .absent ∧ (elevatorFind nameOf w (nameOf e)).isNone then
    {w with elvList := w.elvList ++ [e], module := fun x => if x = e then .live else w.module x}
  else w

/- A module that goes has its exit function unregister the type. -/
def deleteModule (w : World) (e : TypeId) : World :=
  if core.deleteModule w e then {w with module := fun x => if x = e then .going else w.module x} else w

def elvUnregister (w : World) (e : TypeId) : World :=
  if w.module e = .going then
    {w with elvList := w.elvList.erase e, module := fun x => if x = e then .absent else w.module x}
  else w

/- `elevator_init` without a name; `none` is a call through a null pointer, when not even noop is
there. Its data not allocated, `elevator_init_fn` has put the type by `kobject_put`. -/
def elevatorInit (chosen default noop : Name) (w : World) (init : InitFn) : Option (World × Option QueueElv) :=
  let (w, e) := if chosen = [] then (w, none) else elevatorGet core nameOf w chosen
  let (w, e) := if e = none then elevatorGet core nameOf w default else (w, e)
  let (w, e) := if e = none then elevatorGet core nameOf w noop else (w, e)
  match e, init with
  | none, _ => none
  | some e, .ok => some (w, some ⟨some (e, false), none⟩)
  | some e, .noElevator => some (elevatorPut w e, none)
  | some e, .noData =>
    let w := elevatorPut (elevatorPut w e) e
    some ({w with overPut := bump w.overPut e 1}, none)

/- The last reference to the elevator queue releases it, and so puts the type. -/
def elevatorExit (w : World) (e : TypeId) : World := elevatorPut w e

/- `elv_register_queue` of the old elevator may fail as well; it stays in use. -/
def restore (old : TypeId) (reregister : Bool) : QueueElv := ⟨some (old, reregister), none⟩

def elevatorSwitch (w : World) (old : TypeId) (registered : Bool) (new : TypeId) (init : InitFn)
    (register reregister : Bool) : World × QueueElv :=
  match init with
  | .noElevator => ({w with leaked := bump w.leaked new 1}, restore old reregister)
  | .noData => (elevatorPut w new, restore old reregister)
  | .ok =>
    if registered && !register then (elevatorExit w new, restore old reregister)
    else (elevatorExit w old, ⟨some (new, registered), none⟩)

/- A lookup of `elevator_get`: `load` tells whether `request_module` is still to be tried. -/
def lookup (w : World) (q : QueueElv) (name : Name) (load : Bool) : World × QueueElv :=
  match elevatorFind nameOf w (stripped name) with
  | none => (w, {q with change := if load then some (.asking name) else none})
  | some e =>
    match tryModuleGet core w e with
    | none => (w, {q with change := none})
    | some w => (w, {q with change := some (.got e name)})

/- `elv_iosched_store` up to the first lookup; the sysfs lock keeps others from the queue. -/
def elvIoschedStore (w : World) (q : QueueElv) (text : Name) : World × QueueElv :=
  if q.elevator = none ∨ q.change ≠ none then (w, q) else lookup core nameOf w q (copied text) true

def afterLoading (w : World) (q : QueueElv) : World × QueueElv :=
  match q.change with
  | some (.asking name) => lookup core nameOf w q name false
  | _ => (w, q)

/- The rest of `__elevator_change`, with the type in hand. -/
def concludeChange (w : World) (q : QueueElv) (init : InitFn) (register reregister : Bool) : World × QueueElv :=
  match q.change, q.elevator with
  | some (.got e name), some (old, registered) =>
    if name = nameOf old then (elevatorPut w e, {q with change := none})
    else elevatorSwitch w old registered e init register reregister
  | _, _ => (w, q)

/- A queue that is released gives its elevator up. -/
def exitQueue (w : World) (q : QueueElv) : World × QueueElv :=
  match q.change, q.elevator with
  | none, some (e, _) => (elevatorExit w e, ⟨none, none⟩)
  | _, _ => (w, q)

/- The queue appears in sysfs when its disk does. -/
def registerQueue (w : World) (q : QueueElv) : World × QueueElv :=
  match q.change, q.elevator with
  | none, some (e, _) => (w, ⟨some (e, true), none⟩)
  | _, _ => (w, q)

end

structure System where
  world : World
  queues : List QueueElv

inductive QueueOp where
  | store (text : Name)
  | loaded
  | conclude (init : InitFn) (register reregister : Bool)
  | register
  | exit

inductive Op where
  | load (e : TypeId)
  | deleteModule (e : TypeId)
  | unregister (e : TypeId)
  | initQueue (init : InitFn)
  | onQueue (i : Nat) (op : QueueOp)

/- The names of all types, and of those tried for a new queue. -/
structure Names where
  nameOf : TypeId → Name
  chosen : Name
  default : Name
  noop : Name

section
variable (core : ModuleCore) (names : Names)

def queueStep (w : World) (q : QueueElv) : QueueOp → World × QueueElv
  | .store text => elvIoschedStore core names.nameOf w q text
  | .loaded => afterLoading core names.nameOf w q
  | .conclude init register reregister => concludeChange names.nameOf w q init register reregister
  | .register => registerQueue w q
  | .exit => exitQueue w q

def step (s : System) : Op → Option System
  | .load e => some {s with world := elvRegister names.nameOf s.world e}
  | .deleteModule e => some {s with world := deleteModule core s.world e}
  | .unregister e => some {s with world := elvUnregister s.world e}
  | .initQueue init =>
    (elevatorInit core names.nameOf names.chosen names.default names.noop s.world init).map fun (w, q) =>
      ⟨w, s.queues ++ q.toList⟩
  | .onQueue i op =>
    match s.queues[i]? with
    | none => some s
    | some q => some ⟨(queueStep core names s.world q op).1, s.queues.set i (queueStep core names s.world q op).2⟩

end

def initial : System := ⟨⟨[], fun _ => .absent, fun _ => 0, fun _ => 0, fun _ => 0⟩, []⟩

/- The references that a queue has to put some time. -/
def Change.type : Change → Option TypeId
  | .asking _ => none
  | .got e _ => some e

def owed (q : QueueElv) (e : TypeId) : Int :=
  (if q.elevator.map Prod.fst = some e then 1 else 0) + (if q.change.bind Change.type = some e then 1 else 0)

def owedAll (queues : List QueueElv) (e : TypeId) : Int := (queues.map (fun q => owed q e)).sum

/- What a caller's section leaves when it had `before` to put, and has `after`: the books stay
balanced, and nothing is taken from a module that is not live. -/
structure Balanced (w v : World) (before after : TypeId → Int) : Prop where
  list : v.elvList = w.elvList
  module : v.module = w.module
  books : ∀ e, v.refs e + v.overPut e - v.leaked e - after e = w.refs e + w.overPut e - w.leaked e - before e
  grows : ∀ e, w.overPut e ≤ v.overPut e ∧ w.leaked e ≤ v.leaked e
  idle : ∀ e, w.module e ≠ .live → before e = 0 → after e = 0 ∧ v.leaked e = w.leaked e

section
variable {core : ModuleCore} {nameOf : TypeId → Name} {w v u : World} {before after last : TypeId → Int}

theorem bumpAt (f : TypeId → Int) (e : TypeId) (n : Int) (x : TypeId) :
    bump f e n x = f x + if x = e then n else 0 := by
  unfold bump
  split <;> omega

theorem owedNonneg (q : QueueElv) (e : TypeId) : 0 ≤ owed q e := by
  unfold owed
  split <;> split <;> omega

theorem balancedRefl (w : World) (before : TypeId → Int) : Balanced w w before before :=
  ⟨rfl, rfl, fun _ => rfl, fun _ => ⟨Int.le_refl _, Int.le_refl _⟩, fun _ _ none' => ⟨none', rfl⟩⟩

theorem balancedTrans (first : Balanced w v before after) (second : Balanced v u after last) : Balanced w u before last where
  list := second.list.trans first.list
  module := second.module.trans first.module
  books e := (second.books e).trans (first.books e)
  grows e := ⟨Int.le_trans (first.grows e).1 (second.grows e).1, Int.le_trans (first.grows e).2 (second.grows e).2⟩
  idle e dead none' := by
    obtain ⟨none1, same1⟩ := first.idle e dead none'
    obtain ⟨none2, same2⟩ := second.idle e (first.module ▸ dead) none1
    exact ⟨none2, same2.trans same1⟩

theorem getBalanced (rules : ModuleRules core) {e : TypeId} (taken : tryModuleGet core w e = some v)
    (more : ∀ x, after x = before x + if x = e then 1 else 0) : Balanced w v before after := by
  unfold tryModuleGet at taken
  split at taken <;> try contradiction
  rename_i answered
  have live := rules.taken w e answered
  cases Option.some.inj taken
  refine ⟨rfl, rfl, fun x => ?_, fun x => ⟨Int.le_refl _, Int.le_refl _⟩, fun x dead none' => ⟨?_, rfl⟩⟩
  · dsimp only
    rw [bumpAt, more x]
    omega
  · have other : x ≠ e := fun same => dead (same ▸ live)
    rw [more x, if_neg other, none']
    rfl

theorem putElsewhere {e x : TypeId} (less : ∀ x, after x = before x - if x = e then 1 else 0) (had : 0 < before e)
    (none' : before x = 0) : x ≠ e ∧ after x = 0 := by
  have other : x ≠ e := fun same => by
    rw [same] at none'
    omega
  refine ⟨other, ?_⟩
  rw [less x, if_neg other, none']
  rfl

theorem putBalanced {e : TypeId} (less : ∀ x, after x = before x - if x = e then 1 else 0) (had : 0 < before e) :
    Balanced w (elevatorPut w e) before after := by
  refine ⟨rfl, rfl, fun x => ?_, fun x => ⟨Int.le_refl _, Int.le_refl _⟩, fun x dead none' => ?_⟩
  · simp only [elevatorPut]
    rw [bumpAt, less x]
    split <;> omega
  · exact ⟨(putElsewhere less had none').2, rfl⟩

theorem leakBalanced {e : TypeId} (less : ∀ x, after x = before x - if x = e then 1 else 0) (had : 0 < before e) :
    Balanced w {w with leaked := bump w.leaked e 1} before after := by
  refine ⟨rfl, rfl, fun x => ?_, fun x => ⟨Int.le_refl _, ?_⟩, fun x dead none' => ?_⟩
  · dsimp only
    rw [bumpAt, less x]
    omega
  · dsimp only
    rw [bumpAt]
    split <;> omega
  · obtain ⟨other, nothing⟩ := putElsewhere less had none'
    refine ⟨nothing, ?_⟩
    dsimp only
    rw [bumpAt, if_neg other]
    omega

/- Both references of a type that is put once too often. -/
theorem overBalanced {e : TypeId} (less : ∀ x, after x = before x - if x = e then 1 else 0) (had : 0 < before e) :
    Balanced w {elevatorPut (elevatorPut w e) e with overPut := bump w.overPut e 1} before after := by
  refine ⟨rfl, rfl, fun x => ?_, fun x => ⟨?_, Int.le_refl _⟩, fun x dead none' => ?_⟩
  · simp only [elevatorPut]
    rw [bumpAt, bumpAt, bumpAt, less x]
    split <;> omega
  · dsimp only
    rw [bumpAt]
    split <;> omega
  · exact ⟨(putElsewhere less had none').2, rfl⟩

theorem owedChange (q : QueueElv) (change : Option Change) (e : TypeId) :
    owed {q with change := change} e =
      (if q.elevator.map Prod.fst = some e then 1 else 0) + (if change.bind Change.type = some e then 1 else 0) := rfl

theorem lookupBalanced (rules : ModuleRules core) (w : World) {q : QueueElv}
    (free : q.change.bind Change.type = none) (name : Name) (load : Bool) :
    Balanced w (lookup core nameOf w q name load).1 (owed q) (owed (lookup core nameOf w q name load).2) := by
  have without : ∀ change : Option Change, change.bind Change.type = none → owed {q with change := change} = owed q := by
    intro change none'
    funext e
    rw [owedChange, owed, free, none']
  unfold lookup
  split
  · dsimp only
    rw [without (if load then some (.asking name) else none) (by cases load <;> rfl)]
    exact balancedRefl w _
  · split
    · dsimp only
      rw [without none rfl]
      exact balancedRefl w _
    · rename_i e _ _ v taken
      refine getBalanced rules taken (fun x => ?_)
      rw [owedChange, owed, free]
      simp only [Option.bind_some, Change.type, Option.some.injEq, reduceCtorEq, if_false, eq_comm (a := e)]
      omega

theorem storeBalanced (rules : ModuleRules core) (w : World) (q : QueueElv) (text : Name) :
    Balanced w (elvIoschedStore core nameOf w q text).1 (owed q) (owed (elvIoschedStore core nameOf w q text).2) := by
  unfold elvIoschedStore
  split
  · exact balancedRefl w _
  · rename_i free
    have idle : q.change = none := not_not.mp (fun busy => free (Or.inr busy))
    exact lookupBalanced rules w (by rw [idle]; rfl) _ _

theorem loadingBalanced (rules : ModuleRules core) (w : World) (q : QueueElv) :
    Balanced w (afterLoading core nameOf w q).1 (owed q) (owed (afterLoading core nameOf w q).2) := by
  unfold afterLoading
  split
  · rename_i name waits
    exact lookupBalanced rules w (by rw [waits]; rfl) _ _
  · exact balancedRefl w _

theorem owedPair (old e x : TypeId) (registered : Bool) (name : Name) :
    owed ⟨some (old, registered), some (.got e name)⟩ x = (if x = old then 1 else 0) + (if x = e then 1 else 0) := by
  simp only [owed, Option.map_some, Option.some.injEq, Option.bind_some, Change.type, eq_comm (b := x)]

theorem owedOne (old x : TypeId) (registered : Bool) :
    owed ⟨some (old, registered), none⟩ x = if x = old then 1 else 0 := by
  simp only [owed, Option.map_some, Option.some.injEq, Option.bind_none, reduceCtorEq, if_false, eq_comm (b := x)]
  omega

/- On every way out a switch has put one of the two types, or lost it. -/
theorem switchBalanced (w : World) (old e : TypeId) (registered : Bool) (name : Name) (init : InitFn)
    (register reregister : Bool) :
    Balanced w (elevatorSwitch w old registered e init register reregister).1
      (owed ⟨some (old, registered), some (.got e name)⟩)
      (owed (elevatorSwitch w old registered e init register reregister).2) := by
  have hadNew : 0 < owed ⟨some (old, registered), some (.got e name)⟩ e := by
    rw [owedPair, if_pos rfl]
    split <;> omega
  have hadOld : 0 < owed ⟨some (old, registered), some (.got e name)⟩ old := by
    rw [owedPair, if_pos rfl]
    split <;> omega
  have back : ∀ again x, owed (restore old again) x =
      owed ⟨some (old, registered), some (.got e name)⟩ x - if x = e then 1 else 0 := by
    intro again x
    rw [restore, owedOne, owedPair]
    omega
  unfold elevatorSwitch
  cases init with
  | noElevator => exact leakBalanced (back reregister) hadNew
  | noData => exact putBalanced (back reregister) hadNew
  | ok =>
    dsimp only
    split
    · exact putBalanced (back reregister) hadNew
    · refine putBalanced (fun x => ?_) hadOld
      rw [owedOne, owedPair]
      omega

theorem concludeBalanced (w : World) (q : QueueElv) (init : InitFn) (register reregister : Bool) :
    Balanced w (concludeChange nameOf w q init register reregister).1 (owed q)
      (owed (concludeChange nameOf w q init register reregister).2) := by
  obtain ⟨elevator, change⟩ := q
  unfold concludeChange
  split
  · rename_i e name old registered got here
    dsimp only at got here
    subst got here
    split
    · refine putBalanced (fun x => ?_) ?_
      · rw [owedOne, owedPair]
        omega
      · rw [owedPair, if_pos rfl]
        split <;> omega
    · exact switchBalanced w old e registered name init register reregister
  · exact balancedRefl w _

theorem exitBalanced (w : World) (q : QueueElv) :
    Balanced w (exitQueue w q).1 (owed q) (owed (exitQueue w q).2) := by
  obtain ⟨elevator, change⟩ := q
  unfold exitQueue
  split
  · rename_i e registered none' here
    dsimp only at none' here
    subst none' here
    refine putBalanced (fun x => ?_) ?_
    · rw [owedOne]
      simp only [owed, Option.map_none, Option.bind_none, reduceCtorEq, if_false]
      omega
    · rw [owedOne, if_pos rfl]
      omega
  · exact balancedRefl w _

theorem registerBalanced (w : World) (q : QueueElv) :
    Balanced w (registerQueue w q).1 (owed q) (owed (registerQueue w q).2) := by
  obtain ⟨elevator, change⟩ := q
  unfold registerQueue
  split
  · rename_i e registered none' here
    dsimp only at none' here
    subst none' here
    have same : owed ⟨some (e, true), none⟩ = owed ⟨some (e, registered), none⟩ := rfl
    rw [same]
    exact balancedRefl w _
  · exact balancedRefl w _

theorem queueBalanced (rules : ModuleRules core) (names : Names) (w : World) (q : QueueElv) (op : QueueOp) :
    Balanced w (queueStep core names w q op).1 (owed q) (owed (queueStep core names w q op).2) := by
  cases op with
  | store text => exact storeBalanced rules w q text
  | loaded => exact loadingBalanced rules w q
  | conclude init register reregister => exact concludeBalanced w q init register reregister
  | register => exact registerBalanced w q
  | exit => exact exitBalanced w q

/- The type in hand, if there is one. -/
def hand (e : Option TypeId) (x : TypeId) : Int := if e = some x then 1 else 0

theorem elevatorGetBalanced (rules : ModuleRules core) (w : World) (name : Name) :
    Balanced w (elevatorGet core nameOf w name).1 (hand none) (hand (elevatorGet core nameOf w name).2) := by
  unfold elevatorGet
  split
  · exact balancedRefl w _
  · split
    · exact balancedRefl w _
    · rename_i e _ _ v taken
      refine getBalanced rules taken (fun x => ?_)
      simp only [hand, Option.some.injEq, reduceCtorEq, if_false, eq_comm (a := e)]
      omega

theorem handHeld (e : TypeId) : 0 < hand (some e) e := by
  rw [hand, if_pos rfl]
  omega

theorem handGiven (e : TypeId) : owedAll (some (⟨some (e, false), none⟩ : QueueElv)).toList = hand (some e) := by
  funext x
  simp only [owedAll, Option.toList_some, List.map_cons, List.map_nil, List.sum_cons, List.sum_nil, owedOne, hand,
    Option.some.injEq, eq_comm (b := x)]
  omega

theorem handPut (e x : TypeId) :
    owedAll (none : Option QueueElv).toList x = hand (some e) x - if x = e then 1 else 0 := by
  have nothing : owedAll (none : Option QueueElv).toList x = 0 := rfl
  rw [nothing, hand]
  simp only [Option.some.injEq, eq_comm (b := x)]
  omega

/- A name is tried only when the ones before it gave no type. -/
theorem triedBalanced (rules : ModuleRules core) {e : Option TypeId} (sofar : Balanced w v (hand none) (hand e))
    (name : Name) :
    Balanced w (if e = none then elevatorGet core nameOf v name else (v, e)).1 (hand none)
      (hand (if e = none then elevatorGet core nameOf v name else (v, e)).2) := by
  split
  · rename_i nothing
    rw [nothing] at sofar
    exact balancedTrans sofar (elevatorGetBalanced rules v name)
  · exact sofar

theorem chosenBalanced (rules : ModuleRules core) (w : World) (chosen : Name) :
    Balanced w (if chosen = [] then (w, none) else elevatorGet core nameOf w chosen).1 (hand none)
      (hand (if chosen = [] then (w, none) else elevatorGet core nameOf w chosen).2) := by
  split
  · exact balancedRefl w _
  · exact elevatorGetBalanced rules w chosen

theorem initBalanced (rules : ModuleRules core) {names : Names} {init : InitFn} {q : Option QueueElv}
    (ran : elevatorInit core names.nameOf names.chosen names.default names.noop w init = some (v, q)) :
    Balanced w v (hand none) (owedAll q.toList) := by
  unfold elevatorInit at ran
  have first := @chosenBalanced core names.nameOf rules w names.chosen
  generalize (if names.chosen = [] then (w, none) else elevatorGet core names.nameOf w names.chosen) = one at first ran
  dsimp only at ran
  have second := @triedBalanced core names.nameOf w one.1 rules one.2 first names.default
  generalize (if one.2 = none then elevatorGet core names.nameOf one.1 names.default else (one.1, one.2)) = two at second ran
  have third := @triedBalanced core names.nameOf w two.1 rules two.2 second names.noop
  generalize (if two.2 = none then elevatorGet core names.nameOf two.1 names.noop else (two.1, two.2)) = three at third ran
  obtain ⟨u, e⟩ := three
  cases e with
  | none => cases ran
  | some e =>
    cases init with
    | ok =>
      cases Option.some.inj ran
      rw [handGiven]
      exact third
    | noElevator =>
      cases Option.some.inj ran
      exact balancedTrans third (putBalanced (handPut e) (handHeld e))
    | noData =>
      cases Option.some.inj ran
      exact balancedTrans third (overBalanced (handPut e) (handHeld e))

end

/- References are held by those who will put them, and what is not live has none. -/
structure Booked (names : Names) (s : System) : Prop where
  books : ∀ e, s.world.refs e + s.world.overPut e = owedAll s.queues e + s.world.leaked e
  lost : ∀ e, 0 ≤ s.world.overPut e ∧ 0 ≤ s.world.leaked e
  gone : ∀ e, s.world.overPut e = 0 → s.world.module e ≠ .live → s.world.refs e = 0
  listed : ∀ e, e ∈ s.world.elvList ↔ s.world.module e ≠ .absent
  apart : (s.world.elvList.map names.nameOf).Nodup

section
variable {core : ModuleCore} {names : Names} {s : System}

theorem owedAllNonneg (queues : List QueueElv) (e : TypeId) : 0 ≤ owedAll queues e := by
  induction queues with
  | nil => exact Int.le_refl _
  | cons q queues ih =>
    have here := owedNonneg q e
    simp only [owedAll, List.map_cons, List.sum_cons] at ih ⊢
    omega

theorem owedSet {queues : List QueueElv} {i : Nat} {q : QueueElv} (here : queues[i]? = some q) (e : TypeId) :
    ∃ rest, 0 ≤ rest ∧ owedAll queues e = owed q e + rest ∧ ∀ r, owedAll (queues.set i r) e = owed r e + rest := by
  induction queues generalizing i with
  | nil => cases here
  | cons first queues ih =>
    cases i with
    | zero =>
      cases Option.some.inj here
      exact ⟨owedAll queues e, owedAllNonneg queues e, rfl, fun _ => rfl⟩
    | succ i =>
      obtain ⟨rest, positive, whole, set⟩ := ih here
      have one := owedNonneg first e
      refine ⟨owed first e + rest, by omega, ?_, fun r => ?_⟩
      · change owed first e + owedAll queues e = _
        omega
      · change owed first e + owedAll (queues.set i r) e = _
        rw [set r]
        omega

theorem balancedBooked (booked : Booked names s) {v : World} {before after : TypeId → Int}
    (balanced : Balanced s.world v before after) (positive : ∀ e, 0 ≤ before e) {queues : List QueueElv}
    (split' : ∀ e, ∃ rest, 0 ≤ rest ∧ owedAll s.queues e = before e + rest ∧ owedAll queues e = after e + rest) :
    Booked names ⟨v, queues⟩ where
  books e := by
    obtain ⟨rest, _, whole, whole'⟩ := split' e
    have old := booked.books e
    have new := balanced.books e
    change v.refs e + v.overPut e = owedAll queues e + v.leaked e
    omega
  lost e := by
    have old := booked.lost e
    have new := balanced.grows e
    exact ⟨Int.le_trans old.1 new.1, Int.le_trans old.2 new.2⟩
  gone e never dead := by
    obtain ⟨rest, restPositive, whole, whole'⟩ := split' e
    have dead' : s.world.module e ≠ .live := fun live => dead ((congrFun balanced.module e).trans live)
    have lost := booked.lost e
    have grows := balanced.grows e
    have never' : v.overPut e = 0 := never
    have zero := booked.gone e (by omega) dead'
    have old := booked.books e
    have had := positive e
    obtain ⟨none', same⟩ := balanced.idle e dead' (by omega)
    have new := balanced.books e
    change v.refs e = 0
    omega
  listed e := by
    change e ∈ v.elvList ↔ v.module e ≠ .absent
    rw [balanced.list, balanced.module]
    exact booked.listed e
  apart := by
    change (v.elvList.map names.nameOf).Nodup
    rw [balanced.list]
    exact booked.apart

theorem loadBooked (booked : Booked names s) (e : TypeId) :
    Booked names {s with world := elvRegister names.nameOf s.world e} := by
  unfold elvRegister
  split
  · rename_i new
    obtain ⟨absent, free⟩ := new
    refine ⟨booked.books, booked.lost, fun x never dead => ?_, fun x => ?_, ?_⟩
    · have other : x ≠ e := fun same => dead (if_pos same)
      exact booked.gone x never (fun live => dead ((if_neg other).trans live))
    · change x ∈ s.world.elvList ++ [e] ↔ (if x = e then Module.live else s.world.module x) ≠ .absent
      rw [List.mem_append, List.mem_singleton, booked.listed]
      by_cases same : x = e
      · rw [if_pos same]
        exact ⟨fun _ => Module.noConfusion, fun _ => Or.inr same⟩
      · rw [if_neg same]
        exact or_iff_left same
    · change ((s.world.elvList ++ [e]).map names.nameOf).Nodup
      rw [List.map_append]
      refine List.nodup_append.mpr ⟨booked.apart, List.nodup_singleton _, fun name there other here same => ?_⟩
      obtain ⟨x, listed, rfl⟩ := List.mem_map.mp there
      have unnamed := List.find?_eq_none.mp (Option.isNone_iff_eq_none.mp free) x listed
      refine unnamed (beq_iff_eq.mpr ?_)
      exact same.trans (List.mem_singleton.mp here)
  · exact booked

theorem deleteBooked (rules : ModuleRules core) (booked : Booked names s) (e : TypeId) :
    Booked names {s with world := deleteModule core s.world e} := by
  unfold deleteModule
  split
  · rename_i starts
    have live := rules.leaves s.world e starts
    refine ⟨booked.books, booked.lost, fun x never dead => ?_, fun x => ?_, booked.apart⟩
    · by_cases same : x = e
      · rw [same] at never ⊢
        exact rules.unused s.world e never starts
      · exact booked.gone x never (fun here => dead ((if_neg same).trans here))
    · change x ∈ s.world.elvList ↔ (if x = e then Module.going else s.world.module x) ≠ .absent
      rw [booked.listed]
      by_cases same : x = e
      · rw [if_pos same, same, live]
        exact ⟨fun _ => Module.noConfusion, fun _ => Module.noConfusion⟩
      · rw [if_neg same]
  · exact booked

theorem unregisterBooked (booked : Booked names s) (e : TypeId) :
    Booked names {s with world := elvUnregister s.world e} := by
  unfold elvUnregister
  split
  · rename_i going
    have once : s.world.elvList.Nodup := List.Nodup.of_map _ booked.apart
    refine ⟨booked.books, booked.lost, fun x never dead => ?_, fun x => ?_, ?_⟩
    · by_cases same : x = e
      · refine booked.gone x never (fun live => ?_)
        rw [same, going] at live
        cases live
      · exact booked.gone x never (fun here => dead ((if_neg same).trans here))
    · change x ∈ s.world.elvList.erase e ↔ (if x = e then Module.absent else s.world.module x) ≠ .absent
      rw [once.mem_erase_iff, booked.listed]
      by_cases same : x = e
      · rw [if_pos same]
        exact ⟨fun both => absurd same both.1, fun no => absurd rfl no⟩
      · rw [if_neg same]
        exact and_iff_right same
    · exact booked.apart.sublist ((List.erase_sublist).map _)
  · exact booked

theorem initBooked (rules : ModuleRules core) (booked : Booked names s) {init : InitFn} {v : World} {q : Option QueueElv}
    (ran : elevatorInit core names.nameOf names.chosen names.default names.noop s.world init = some (v, q)) :
    Booked names ⟨v, s.queues ++ q.toList⟩ := by
  have zero : ∀ e, hand none e = 0 := fun _ => rfl
  refine balancedBooked booked (initBalanced rules ran) (fun e => Int.le_of_eq (zero e).symm) (fun e => ?_)
  refine ⟨owedAll s.queues e, owedAllNonneg _ _, by rw [zero, Int.zero_add], ?_⟩
  rw [owedAll, List.map_append, List.sum_append, Int.add_comm]
  rfl

theorem stepBooked (rules : ModuleRules core) (booked : Booked names s) {op : Op} {t : System}
    (taken : step core names s op = some t) : Booked names t := by
  cases op with
  | load e =>
    cases Option.some.inj taken
    exact loadBooked booked e
  | deleteModule e =>
    cases Option.some.inj taken
    exact deleteBooked rules booked e
  | unregister e =>
    cases Option.some.inj taken
    exact unregisterBooked booked e
  | initQueue init =>
    obtain ⟨⟨v, q⟩, ran, rfl⟩ := Option.map_eq_some_iff.mp taken
    exact initBooked rules booked ran
  | onQueue i op =>
    simp only [step] at taken
    split at taken
    · cases Option.some.inj taken
      exact booked
    · rename_i q here
      cases Option.some.inj taken
      refine balancedBooked booked (queueBalanced rules names s.world q op) (owedNonneg q) (fun e => ?_)
      obtain ⟨rest, positive, whole, set⟩ := owedSet here e
      exact ⟨rest, positive, whole, set _⟩

theorem initialBooked : Booked names initial where
  books _ := rfl
  lost _ := ⟨Int.le_refl _, Int.le_refl _⟩
  gone _ _ _ := rfl
  listed _ := ⟨(fun there => by cases there), fun present => absurd rfl present⟩
  apart := List.nodup_nil

end

/- A queue uses the type, or a call that switches it has the type in hand. -/
def UsedBy (q : QueueElv) (e : TypeId) : Prop := q.elevator.map Prod.fst = some e ∨ q.change.bind Change.type = some e

theorem usedOwed {q : QueueElv} {queues : List QueueElv} {e : TypeId} (there : q ∈ queues) (used : UsedBy q e) :
    0 < owedAll queues e := by
  obtain ⟨i, inside, rfl⟩ := List.getElem_of_mem there
  obtain ⟨rest, positive, whole, _⟩ := owedSet (List.getElem?_eq_getElem inside) e
  have one : 0 < owed queues[i] e := by
    unfold owed
    rcases used with uses | hands
    · rw [if_pos uses]
      split <;> omega
    · rw [if_pos hands]
      split <;> omega
  omega

theorem usedListed {names : Names} {s : System} (booked : Booked names s) {q : QueueElv} {e : TypeId}
    (never : s.world.overPut e = 0) (there : q ∈ s.queues) (uses : UsedBy q e) :
    e ∈ s.world.elvList ∧ s.world.module e = .live := by
  have live : s.world.module e = .live := by
    by_contra dead
    have zero := booked.gone e never dead
    have positive := usedOwed there uses
    have books := booked.books e
    have lost := booked.lost e
    omega
  refine ⟨(booked.listed e).mpr ?_, live⟩
  rw [live]
  exact Module.noConfusion

/- Over every run of loading and unloading modules and of making, switching and giving up queues,
with every allocation and registration failing or not, no two registered types share a name, and
the references to a type are those of the queues and of the calls under way, with those leaked
and without those put twice. A type that was never put twice stays loaded and registered while
it is used. -/
theorem usedStaysLoaded {core : ModuleCore} (rules : ModuleRules core) (names : Names) (ops : List Op) :
    EachState (step core names) (fun s =>
      (s.world.elvList.map names.nameOf).Nodup ∧
      ∀ e, s.world.refs e + s.world.overPut e = owedAll s.queues e + s.world.leaked e ∧
        (s.world.overPut e = 0 → (∃ q ∈ s.queues, UsedBy q e) → e ∈ s.world.elvList ∧ s.world.module e = .live))
      initial ops := by
  refine eachStateInvariant (fun s op t booked taken => stepBooked rules booked taken) (fun s booked => ?_)
    initialBooked ops
  refine ⟨booked.apart, fun e => ⟨booked.books e, fun never used => ?_⟩⟩
  obtain ⟨q, there, uses⟩ := used
  exact usedListed booked never there uses

/- A core that goes by `refs` alone. -/
def countedCore : ModuleCore where
  tryModuleGet w e := w.module e = .live
  deleteModule w e := w.module e = .live ∧ w.refs e = 0

theorem countedRules : ModuleRules countedCore where
  taken _ _ answered := of_decide_eq_true answered
  given _ _ _ live := decide_eq_true live
  leaves _ _ starts := (of_decide_eq_true starts).1
  unused _ _ _ starts := (of_decide_eq_true starts).2

def twoTypes : Names :=
  ⟨fun e => if e = 1 then "greedy".toList else "noop".toList, "greedy".toList, "cfq".toList, "noop".toList⟩

/- The type a queue changes to cannot be unloaded under the change, and the one it had can after it. -/
def changeAndUnload : List Op :=
  [.load 1, .load 2, .initQueue .ok, .onQueue 0 (.store "noop\n".toList), .deleteModule 1, .deleteModule 2,
    .onQueue 0 (.conclude .ok true true), .deleteModule 1, .unregister 1, .deleteModule 2]

theorem changedStaysLoaded : EachState (step countedCore twoTypes) (fun s =>
    (s.world.elvList.map twoTypes.nameOf).Nodup ∧
    ∀ e, s.world.refs e + s.world.overPut e = owedAll s.queues e + s.world.leaked e ∧
      (s.world.overPut e = 0 → (∃ q ∈ s.queues, UsedBy q e) → e ∈ s.world.elvList ∧ s.world.module e = .live))
    initial changeAndUnload ∧
    (exec (step countedCore twoTypes) initial changeAndUnload).map (fun s => (s.world.elvList, s.queues)) =
      some ([2], [⟨some (2, false), none⟩]) :=
  ⟨usedStaysLoaded countedRules twoTypes changeAndUnload, by decide +kernel⟩

/- A second queue whose data cannot be allocated puts the type once too often, and the module can
go under the first. -/
def putTwice : List Op := [.load 1, .initQueue .ok, .initQueue .noData, .deleteModule 1, .unregister 1]

example : (exec (step countedCore twoTypes) initial putTwice).map (fun s =>
    (s.world.module 1, s.queues.map QueueElv.elevator, s.world.overPut 1)) = some (.absent, [some (1, false)], 1) := by
  decide +kernel

def shownWord (nameOf : TypeId → Name) (e x : TypeId) : Name :=
  if nameOf e = nameOf x then '[' :: nameOf e ++ [']', ' '] else nameOf x ++ [' ']

/- `stackable` is `blk_queue_stackable` of the queue. -/
def elvIoschedShow (nameOf : TypeId → Name) (stackable : Bool) (w : World) (q : QueueElv) : Name :=
  match q.elevator, stackable with
  | some (e, _), true => w.elvList.flatMap (shownWord nameOf e) ++ ['\n']
  | _, _ => "none\n".toList

/- A name that fits, and that no blank cuts. -/
def Plain (name : Name) : Prop := name.length < elvNameMax ∧ ∀ c ∈ name, isSpace c = false
instance (name : Name) : Decidable (Plain name) := by unfold Plain; infer_instance

section
variable {core : ModuleCore} {names : Names} {s : System}

theorem copiedPlain {name blanks : Name} (plain : Plain name) (blank : ∀ c ∈ blanks, isSpace c = true) :
    copied (name ++ blanks) = name := by
  obtain ⟨short, solid⟩ := plain
  have fits : name.length ≤ elvNameMax - 1 := Nat.le_sub_one_of_lt short
  have front : ∀ c ∈ (blanks.take (elvNameMax - 1 - name.length)).reverse, isSpace c = true := fun c there =>
    blank c (List.mem_of_mem_take (List.mem_reverse.mp there))
  rw [copied, List.take_append, List.take_of_length_le fits, List.reverse_append, List.dropWhile_append_of_pos front]
  have stays : name.reverse.dropWhile isSpace = name.reverse := by
    cases back : name.reverse with
    | nil => rfl
    | cons c rest =>
      have inside : c ∈ name := List.mem_reverse.mp (back ▸ List.mem_cons_self)
      exact List.dropWhile_cons_of_neg (by rw [solid c inside]; exact Bool.false_ne_true)
  rw [stays, List.reverse_reverse]

theorem strippedPlain {name : Name} (plain : Plain name) : stripped name = name := by
  cases name with
  | nil => rfl
  | cons c rest =>
    exact List.dropWhile_cons_of_neg (by rw [plain.2 c List.mem_cons_self]; exact Bool.false_ne_true)

theorem namedOnce (booked : Booked names s) {x y : TypeId} (inX : x ∈ s.world.elvList) (inY : y ∈ s.world.elvList)
    (same : names.nameOf x = names.nameOf y) : x = y :=
  List.inj_on_of_nodup_map booked.apart inX inY same

theorem findListed (booked : Booked names s) {x : TypeId} (listed : x ∈ s.world.elvList) :
    elevatorFind names.nameOf s.world (names.nameOf x) = some x := by
  cases found : elevatorFind names.nameOf s.world (names.nameOf x) with
  | none => exact absurd (beq_self_eq_true _) (List.find?_eq_none.mp found x listed)
  | some y =>
    have named := List.find?_some found
    have inY := List.mem_of_find?_eq_some found
    rw [namedOnce booked inY listed (beq_iff_eq.mp named)]

/- A type in use stands on the list once, and its word is the only one in brackets. -/
theorem shownOnce (booked : Booked names s) {e : TypeId} (listed : e ∈ s.world.elvList) (registered : Bool)
    (change : Option Change) : ∃ before after, s.world.elvList = before ++ e :: after ∧
    elvIoschedShow names.nameOf true s.world ⟨some (e, registered), change⟩ =
      before.flatMap (fun x => names.nameOf x ++ [' ']) ++ ('[' :: names.nameOf e ++ [']', ' ']) ++
        after.flatMap (fun x => names.nameOf x ++ [' ']) ++ ['\n'] := by
  obtain ⟨before, after, parts⟩ := List.append_of_mem listed
  have once : s.world.elvList.Nodup := List.Nodup.of_map _ booked.apart
  have others : ∀ l : List TypeId, (∀ x ∈ l, x ∈ s.world.elvList ∧ x ≠ e) →
      l.flatMap (shownWord names.nameOf e) = l.flatMap (fun x => names.nameOf x ++ [' ']) := by
    intro l apart
    refine List.flatMap_congr (fun x there => if_neg (fun same => ?_))
    exact (apart x there).2 (namedOnce booked (apart x there).1 listed same.symm)
  rw [parts] at once
  have split' := List.nodup_append.mp once
  refine ⟨before, after, parts, ?_⟩
  change s.world.elvList.flatMap (shownWord names.nameOf e) ++ ['\n'] = _
  rw [parts, List.flatMap_append, List.flatMap_cons, others before, others after]
  · simp [shownWord]
  · intro x there
    refine ⟨parts ▸ List.mem_append_right _ (List.mem_cons_of_mem e there), fun same => ?_⟩
    exact (List.nodup_cons.mp split'.2.1).1 (same ▸ there)
  · intro x there
    exact ⟨parts ▸ List.mem_append_left _ there, split'.2.2 x there e List.mem_cons_self⟩

theorem concludeOk {nameOf : TypeId → Name} (w : World) {e x : TypeId} (same : nameOf x = nameOf e → x = e)
    (registered reregister : Bool) :
    (concludeChange nameOf w ⟨some (e, registered), some (.got x (nameOf x))⟩ .ok true reregister).2 =
      ⟨some (x, registered), none⟩ ∧
    (concludeChange nameOf w ⟨some (e, registered), some (.got x (nameOf x))⟩ .ok true reregister).1.elvList =
      w.elvList := by
  unfold concludeChange
  dsimp only
  split
  · rename_i named
    rw [same named]
    exact ⟨rfl, rfl⟩
  · unfold elevatorSwitch
    rw [Bool.not_true, Bool.and_false]
    exact ⟨rfl, rfl⟩

/- The name of a loaded type, with blanks behind it, selects the type. -/
theorem storeSelects (rules : ModuleRules core) (booked : Booked names s) {i : Nat} {e x : TypeId} {registered : Bool}
    (here : s.queues[i]? = some ⟨some (e, registered), none⟩) (used : e ∈ s.world.elvList) (listed : x ∈ s.world.elvList)
    (live : s.world.module x = .live) (never : s.world.overPut x = 0) (plain : Plain (names.nameOf x)) {blanks : Name}
    (blank : ∀ c ∈ blanks, isSpace c = true) (reregister : Bool) : ∃ t,
    exec (step core names) s [.onQueue i (.store (names.nameOf x ++ blanks)), .onQueue i (.conclude .ok true reregister)] =
      some t ∧ t.queues[i]? = some ⟨some (x, registered), none⟩ ∧ t.world.elvList = s.world.elvList := by
  have inside : i < s.queues.length := (List.getElem?_eq_some_iff.mp here).1
  have found : elvIoschedStore core names.nameOf s.world ⟨some (e, registered), none⟩ (names.nameOf x ++ blanks) =
      ({s.world with refs := bump s.world.refs x 1}, ⟨some (e, registered), some (.got x (names.nameOf x))⟩) := by
    rw [elvIoschedStore, if_neg (by simp), copiedPlain plain blank, lookup, strippedPlain plain, findListed booked listed]
    simp only [tryModuleGet, if_pos (rules.given s.world x never live)]
  have first : step core names s (.onQueue i (.store (names.nameOf x ++ blanks))) =
      some ⟨{s.world with refs := bump s.world.refs x 1},
        s.queues.set i ⟨some (e, registered), some (.got x (names.nameOf x))⟩⟩ := by
    simp only [step, here, queueStep, found]
  have again : (s.queues.set i ⟨some (e, registered), some (.got x (names.nameOf x))⟩)[i]? =
      some ⟨some (e, registered), some (.got x (names.nameOf x))⟩ := List.getElem?_set_self inside
  have kept : ({s.world with refs := bump s.world.refs x 1} : World).elvList = s.world.elvList := rfl
  generalize ({s.world with refs := bump s.world.refs x 1} : World) = w at first kept
  obtain ⟨changed, list⟩ := concludeOk w (namedOnce booked listed used) registered reregister
  generalize done : concludeChange names.nameOf w ⟨some (e, registered), some (.got x (names.nameOf x))⟩ .ok true
    reregister = u at changed list
  refine ⟨⟨u.1, (s.queues.set i ⟨some (e, registered), some (.got x (names.nameOf x))⟩).set i u.2⟩, ?_, ?_,
    list.trans kept⟩
  · rw [execCons first]
    simp only [exec, step, again, queueStep, done, Option.bind_some]
  · rw [changed]
    exact List.getElem?_set_self (by rw [List.length_set]; exact inside)

end

/- What writing and reading the sysfs file of a queue agree on. As long as the type in use was put no
more than it was taken, writing the name of any loaded type of which this is true as well makes that
type the one in use, if allocation and registration succeed. The text that is shown next has it in
brackets and no other, on a stackable queue. -/
def StoreShows (core : ModuleCore) (names : Names) (s : System) : Prop :=
  ∀ i e registered, s.queues[i]? = some ⟨some (e, registered), none⟩ → s.world.overPut e = 0 →
    ∀ x ∈ s.world.elvList, s.world.module x = .live → s.world.overPut x = 0 → Plain (names.nameOf x) →
      ∀ blanks : Name, (∀ c ∈ blanks, isSpace c = true) → ∀ reregister, ∃ t,
        exec (step core names) s
          [.onQueue i (.store (names.nameOf x ++ blanks)), .onQueue i (.conclude .ok true reregister)] = some t ∧
        t.queues[i]? = some ⟨some (x, registered), none⟩ ∧ ∃ before after, s.world.elvList = before ++ x :: after ∧
          ∀ stackable, elvIoschedShow names.nameOf stackable t.world ⟨some (x, registered), none⟩ =
            if stackable then
              before.flatMap (fun y => names.nameOf y ++ [' ']) ++ ('[' :: names.nameOf x ++ [']', ' ']) ++
                after.flatMap (fun y => names.nameOf y ++ [' ']) ++ ['\n']
            else "none\n".toList

theorem storeShowsSelected {core : ModuleCore} (rules : ModuleRules core) (names : Names) (ops : List Op) :
    EachState (step core names) (StoreShows core names) initial ops := by
  have keeps : ∀ s op t, Booked names s → step core names s op = some t → Booked names t :=
    fun s op t booked taken => stepBooked rules booked taken
  refine eachStateInvariant keeps (fun s booked => ?_) initialBooked ops
  intro i e registered here never x listed live neverX plain blanks blank reregister
  have used : e ∈ s.world.elvList :=
    (usedListed booked never (List.mem_of_getElem? here) (Or.inl rfl)).1
  obtain ⟨t, ran, at', list⟩ := storeSelects rules booked here used listed live neverX plain blank reregister
  refine ⟨t, ran, at', ?_⟩
  obtain ⟨before, after, parts, shown⟩ :=
    shownOnce (execInvariant keeps booked ran) (list.symm ▸ listed) registered none
  refine ⟨before, after, list.symm.trans parts, fun stackable => ?_⟩
  cases stackable with
  | false => rfl
  | true => exact shown

/- A queue changes from one type to the other and back. -/
def changeAndBack : List Op :=
  [.load 1, .load 2, .initQueue .ok, .onQueue 0 (.store "noop\n".toList), .onQueue 0 (.conclude .ok true true),
    .onQueue 0 (.store "greedy".toList), .onQueue 0 (.conclude .ok true true)]

theorem changedBackShown : EachState (step countedCore twoTypes) (StoreShows countedCore twoTypes) initial changeAndBack ∧
    (exec (step countedCore twoTypes) initial (changeAndBack.take 5)).map (fun s =>
      s.queues.map (elvIoschedShow twoTypes.nameOf true s.world)) = some ["greedy [noop] \n".toList] ∧
    (exec (step countedCore twoTypes) initial changeAndBack).map (fun s =>
      s.queues.map (elvIoschedShow twoTypes.nameOf true s.world)) = some ["[greedy] noop \n".toList] :=
  ⟨storeShowsSelected countedRules twoTypes changeAndBack, by decide +kernel, by decide +kernel⟩

end KernelLabs.ElevatorSwitch
