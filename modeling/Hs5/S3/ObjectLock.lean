import Mathlib.Data.BitVec
import Mathlib.Data.Int.Notation
import Mathlib.Tactic.Linarith

/-!
# Lock information of an object

`LockInfo` is stored with the metadata of an object: the retention mode, a
date until which the object is retained, and an event hold with the time for
which the object stays protected once the hold is released.  `applyRetention`
computes the lock information that a PutObjectRetention request leaves.
-/

namespace Hs5

def lockinfoFlagLockModeCompliance : BitVec 32 := 1#32 <<< 0

def lockinfoFlagRetainUntil : BitVec 32 := 1#32 <<< 1

def lockinfoFlagEventHold : BitVec 32 := 1#32 <<< 2

structure LockInfo where
  flags : BitVec 32
  retainUntil : ℤ
  eventDurationDays : ℕ
  eventDurationYears : ℕ
  deriving DecidableEq

namespace LockInfo

def complianceMode (l : LockInfo) : Bool :=
  l.flags &&& lockinfoFlagLockModeCompliance != 0

def retainUntilSet (l : LockInfo) : Bool :=
  l.flags &&& lockinfoFlagRetainUntil != 0

def eventHold (l : LockInfo) : Bool := l.flags &&& lockinfoFlagEventHold != 0

/-- How long the object stays protected after the event hold is released; a
`std::chrono::years` is 365.2425 days. -/
def eventHoldDuration (l : LockInfo) : ℤ :=
  l.eventDurationDays * 86400 + l.eventDurationYears * 31556952

/-- The object is protected from deletion at time `now`. -/
def isActive (l : LockInfo) (now : ℤ) : Bool :=
  l.eventHold || (l.retainUntilSet && decide (l.retainUntil > now))

/-- Days and years in one number, computed as an unsigned integer. -/
def packDuration (days years : ℕ) : ℤ := ((days * 1000 + years) % 2 ^ 32 : ℕ)

def durationDays (eventDuration : ℤ) : ℕ :=
  (eventDuration / 1000 % 2 ^ 32).toNat

def durationYears (eventDuration : ℤ) : ℕ :=
  (eventDuration % 1000 % 2 ^ 16).toNat

/-- The part of `ObjMetadata::serialize` for lock information: a list of
64-bit integers. -/
def serialize (l : LockInfo) : List ℤ :=
  (l.flags.toNat : ℤ) :: ((if l.retainUntilSet then [l.retainUntil] else []) ++
      if l.eventHold then
        [packDuration l.eventDurationDays l.eventDurationYears]
      else [])

def deserializeDuration (l : LockInfo) (rdata : List ℤ) : Option LockInfo :=
  if l.eventHold then
    match rdata with
    | [] => none
    | eventDuration :: _ =>
      some { l with
        eventDurationDays := durationDays eventDuration
        eventDurationYears := durationYears eventDuration }
  else some l

/-- The part of `ObjMetadata::deserialize` for lock information. -/
def deserialize : List ℤ → Option LockInfo
  | [] => none
  | lockInfoFlags :: rdata =>
    let l : LockInfo := ⟨BitVec.ofInt 32 lockInfoFlags, 0, 0, 0⟩
    if l.retainUntilSet then
      match rdata with
      | [] => none
      | retainUntilSec :: rdata =>
        { l with retainUntil := retainUntilSec }.deserializeDuration rdata
    else l.deserializeDuration rdata

structure Sized (l : LockInfo) : Prop where
  days : l.eventDurationDays ≤ 36500
  years : l.eventDurationYears ≤ 100

/-- What reading back keeps of lock information: the date if one is set, the
duration if an event hold is on. -/
def stored (l : LockInfo) : LockInfo where
  flags := l.flags
  retainUntil := if l.retainUntilSet then l.retainUntil else 0
  eventDurationDays := if l.eventHold then l.eventDurationDays else 0
  eventDurationYears := if l.eventHold then l.eventDurationYears else 0

theorem packDuration_eq {days years : ℕ} (hdays : days ≤ 36500)
    (hyears : years ≤ 100) :
    packDuration days years = (days : ℤ) * 1000 + years := by
  rw [packDuration, Nat.mod_eq_of_lt (by omega)]
  push_cast
  rfl

theorem deserialize_serialize {l : LockInfo} (h : l.Sized) :
    deserialize l.serialize = some l.stored := by
  have hpack := packDuration_eq h.days h.years
  have hdays : durationDays (packDuration l.eventDurationDays
      l.eventDurationYears) = l.eventDurationDays := by
    have := h.days
    have := h.years
    rw [hpack, durationDays]
    omega
  have hyears : durationYears (packDuration l.eventDurationDays
      l.eventDurationYears) = l.eventDurationYears := by
    have := h.years
    rw [hpack, durationYears]
    omega
  obtain ⟨flags, retainUntil, days, years⟩ := l
  by_cases hr : flags &&& lockinfoFlagRetainUntil != 0 <;>
    by_cases he : flags &&& lockinfoFlagEventHold != 0 <;>
    simp_all [serialize, deserialize, deserializeDuration, stored,
      retainUntilSet, eventHold]

def retain (l : LockInfo) (until' : ℤ) : LockInfo :=
  { l with
    flags := l.flags ||| lockinfoFlagRetainUntil
    retainUntil := until' }

end LockInfo

/-! ## Changing the retention -/

inductive ModifyError where
  | invalid
  | notFound
  | range
  | access
  | io
  deriving DecidableEq

/-- The parameter of a retention modification, as the request handler builds it.
-/
structure RetentionParam where
  nowSec : ℤ
  bypassGovernance : Bool
  lockInfo : Option LockInfo
  deriving DecidableEq

/-- The new lock information once a released event hold has been turned into
a date. -/
def LockInfo.releaseHold (new : LockInfo) (lockInfo : Option LockInfo)
    (now : ℤ) : LockInfo :=
  match lockInfo with
  | none => new
  | some l =>
    if l.eventHold && !new.eventHold then
      let releaseUntil := now + l.eventHoldDuration
      if !new.retainUntilSet || decide (new.retainUntil < releaseUntil) then
        new.retain releaseUntil
      else new
    else new

/-- The lock is in force and the request cannot bypass it. -/
def LockInfo.restricted (l : LockInfo) (now : ℤ) (bypassGovernance : Bool) :
    Bool :=
  l.isActive now && (l.complianceMode || !bypassGovernance)

/-- A lock in force can only be extended: what the new lock information must
satisfy under a restriction by `l`. -/
def LockInfo.extends (l : LockInfo) (now : ℤ) (new : LockInfo) : Bool :=
  !(l.complianceMode && !new.complianceMode) &&
    !(l.retainUntilSet && decide (l.retainUntil > now) &&
      (!new.retainUntilSet || decide (new.retainUntil < l.retainUntil))) &&
    !(l.eventHold && new.eventHold &&
      decide (new.eventHoldDuration < l.eventHoldDuration))

def applyRetention (lockInfo : Option LockInfo) (param : RetentionParam) :
    Except ModifyError (Option LockInfo) :=
  let now := param.nowSec
  let newLockInfo := param.lockInfo.map (·.releaseHold lockInfo now)
  if newLockInfo.any fun new => !new.retainUntilSet && !new.eventHold then
    .error .range
  else
    match lockInfo with
    | none => .ok newLockInfo
    | some l =>
      if l.restricted now param.bypassGovernance then
        match newLockInfo with
        | none => .error .access
        | some new =>
          if l.extends now new then .ok (some new) else .error .access
      else .ok newLockInfo

end Hs5
