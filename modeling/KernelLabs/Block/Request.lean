import Mathlib.Algebra.Group.Nat.Defs
import Mathlib.Data.List.Basic

/-! Requests, the request queue and the greedy elevator's data, as the functions of
the block layer modelled here read and write them. A request is named by its
address; its fields live in a store, since merging and stamping change them in place
while lists hold only the address. There is one queue, so `rq->q` is left out. -/
namespace KernelLabs.Block

abbrev Ref := Nat
abbrev Sector := BitVec 64

structure Timespec where
  tvSec : Int
  tvNsec : Int
  deriving DecidableEq, Repr

def Timespec.zero : Timespec := ⟨0, 0⟩

/- Seconds first: no reading of `getnstimeofday` has to be normalised for this. -/
def Timespec.le (a b : Timespec) : Prop :=
  a.tvSec < b.tvSec ∨ a.tvSec = b.tvSec ∧ a.tvNsec ≤ b.tvNsec
instance : LE Timespec := ⟨Timespec.le⟩
instance (a b : Timespec) : Decidable (a ≤ b) := by
  change Decidable (Timespec.le a b); unfold Timespec.le; infer_instance

theorem timespecLe {a b : Timespec} :
    a ≤ b ↔ a.tvSec < b.tvSec ∨ a.tvSec = b.tvSec ∧ a.tvNsec ≤ b.tvNsec := Iff.rfl

theorem timespecRefl (a : Timespec) : a ≤ a := Or.inr ⟨rfl, Int.le_refl _⟩

theorem timespecTrans {a b c : Timespec} (ab : a ≤ b) (bc : b ≤ c) : a ≤ c := by
  rw [timespecLe] at *
  omega

inductive CmdType where
  | unset | fs | blockPc | drvPriv
  deriving DecidableEq, Repr

/- The bits of `cmd_flags` that are tested or set here. `noMerge` stands for the test
against `REQ_NOMERGE_FLAGS`, a mask defined outside the repository. -/
structure CmdFlags where
  sorted : Bool
  hashed : Bool
  softBarrier : Bool
  started : Bool
  elvPriv : Bool
  noMerge : Bool
  deriving DecidableEq, Repr

structure Request where
  sector : Sector
  dataLen : BitVec 32
  cmdType : CmdType
  cmdFlags : CmdFlags
  startWait : Timespec
  startService : Timespec
  deriving DecidableEq, Repr

/- All zero but the position. -/
def unused : Request := ⟨-1, 0, .unset, ⟨false, false, false, false, false, false⟩, .zero, .zero⟩

def blkRqPos (rq : Request) : Sector := rq.sector
def blkRqBytes (rq : Request) : BitVec 32 := rq.dataLen
def blkRqSectors (rq : Request) : BitVec 32 := blkRqBytes rq >>> 9
def rqEndSector (rq : Request) : Sector := blkRqPos rq + (blkRqSectors rq).setWidth 64
def rqMergeable (rq : Request) : Bool := rq.cmdType == .fs && !rq.cmdFlags.noMerge

structure GreedyData where
  higher : List Ref
  lower : List Ref
  prevPos : Sector
  deriving DecidableEq, Repr

structure FlushQueue where
  flushQueueDelayed : Bool
  flushPendingIdx : Bool
  flushRunningIdx : Bool
  deriving DecidableEq, Repr

structure RequestQueue where
  queueHead : List Ref
  lastMerge : Option Ref
  nrSorted : BitVec 32
  endSector : Sector
  boundaryRq : Option Ref
  bypass : Bool
  flushNotQueueable : Bool
  fq : FlushQueue
  gd : GreedyData
  deriving DecidableEq, Repr

def emptyQueue : RequestQueue :=
  ⟨[], none, 0, 0, none, false, false, ⟨false, false, false⟩, ⟨[], [], 0⟩⟩

/- `printed` is the static counter of `elv_drain_elevator`. -/
structure BlockState where
  req : Ref → Request
  q : RequestQueue
  printed : Nat

namespace BlockState

def pos (s : BlockState) (r : Ref) : Sector := blkRqPos (s.req r)
def endOf (s : BlockState) (r : Ref) : Sector := rqEndSector (s.req r)
def sectors (s : BlockState) (r : Ref) : Nat := (blkRqSectors (s.req r)).toNat

def stamps (s : BlockState) (r : Ref) : Timespec × Timespec :=
  ((s.req r).startWait, (s.req r).startService)

/- Requests on the elevator's two lists. -/
def queued (s : BlockState) : List Ref := s.q.gd.higher ++ s.q.gd.lower

def setReq (s : BlockState) (r : Ref) (f : Request → Request) : BlockState :=
  {s with req := fun x => if x = r then f (s.req x) else s.req x}

def setFlags (s : BlockState) (r : Ref) (f : CmdFlags → CmdFlags) : BlockState :=
  s.setReq r (fun rq => {rq with cmdFlags := f rq.cmdFlags})

/- The node may be on any of the lists; `list_del_init` unlinks it from the one it is on. -/
def listDelInit (s : BlockState) (r : Ref) : BlockState :=
  {s with q := {s.q with
    queueHead := s.q.queueHead.erase r,
    gd := {s.q.gd with higher := s.q.gd.higher.erase r, lower := s.q.gd.lower.erase r}}}

@[simp] theorem setFlagsQ (s : BlockState) (r : Ref) (f) : (s.setFlags r f).q = s.q := rfl
@[simp] theorem setFlagsPos (s : BlockState) (r x : Ref) (f) : (s.setFlags r f).pos x = s.pos x := by
  simp only [pos, setFlags, setReq]; split <;> rfl
@[simp] theorem setFlagsEnd (s : BlockState) (r x : Ref) (f) :
    (s.setFlags r f).endOf x = s.endOf x := by
  simp only [endOf, setFlags, setReq]; split <;> rfl
@[simp] theorem setFlagsSectors (s : BlockState) (r x : Ref) (f) :
    (s.setFlags r f).sectors x = s.sectors x := by
  simp only [sectors, setFlags, setReq]; split <;> rfl
@[simp] theorem setFlagsStamps (s : BlockState) (r x : Ref) (f) :
    (s.setFlags r f).stamps x = s.stamps x := by
  simp only [stamps, setFlags, setReq]; split <;> rfl
@[simp] theorem delReq (s : BlockState) (r : Ref) : (s.listDelInit r).req = s.req := rfl
@[simp] theorem delHead (s : BlockState) (r : Ref) :
    (s.listDelInit r).q.queueHead = s.q.queueHead.erase r := rfl
@[simp] theorem delHigher (s : BlockState) (r : Ref) :
    (s.listDelInit r).q.gd.higher = s.q.gd.higher.erase r := rfl
@[simp] theorem delLower (s : BlockState) (r : Ref) :
    (s.listDelInit r).q.gd.lower = s.q.gd.lower.erase r := rfl

theorem endToNat (s : BlockState) (r : Ref) :
    (s.endOf r).toNat = ((s.pos r).toNat + s.sectors r) % 2 ^ 64 := by
  have short : (blkRqSectors (s.req r)).toNat < 2 ^ 32 := (blkRqSectors (s.req r)).isLt
  simp only [endOf, rqEndSector, BitVec.toNat_add, BitVec.toNat_setWidth, pos, sectors]
  omega

end BlockState

/- Only membership in the merge hash matters here, and `REQ_HASHED` records it. -/
def elvOnHash (s : BlockState) (r : Ref) : Bool := (s.req r).cmdFlags.hashed

def elvRqhashDel (s : BlockState) (r : Ref) : BlockState :=
  if elvOnHash s r then s.setFlags r (fun f => {f with hashed := false}) else s

/- `none` is a `BUG_ON`. -/
def elvRqhashAdd (s : BlockState) (r : Ref) : Option BlockState :=
  if elvOnHash s r then none else some (s.setFlags r (fun f => {f with hashed := true}))

def elvRqhashReposition (s : BlockState) (r : Ref) : Option BlockState :=
  elvRqhashAdd (s.setFlags r (fun f => {f with hashed := false})) r

end KernelLabs.Block
