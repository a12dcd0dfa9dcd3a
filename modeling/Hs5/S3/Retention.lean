import Hs5.S3.ObjectLock

/-!
# PutObjectRetention requests

The body of a PutObjectRetention request names a mode, a date and an event
hold.  `finalizePutObjectRetention` checks it and builds the parameter of the
modification that the commit thread carries out.  The texts of the body come
parsed here: a field is empty, holds something that is not a value of its
kind, or holds a value.
-/

namespace Hs5.S3

inductive Field (α : Type) where
  | empty
  | invalid
  | value (a : α)
  deriving DecidableEq

def Field.isEmpty {α : Type} : Field α → Bool
  | .empty => true
  | _ => false

inductive RetentionMode where
  | governance
  | compliance
  deriving DecidableEq

/-- `PutObjectRetentionData`; an event hold is on or off. -/
structure PutObjectRetentionData where
  finished : Bool := true
  mode : Field RetentionMode := .empty
  retainUntilDate : Field ℤ := .empty
  eventHold : Field Bool := .empty
  hasEventHoldDuration : Bool := false
  days : Field ℤ := .empty
  years : Field ℤ := .empty
  bypassGovernance : Bool := false
  deriving DecidableEq

inductive S3ErrorCode where
  | malformedXML
  | invalidArgument
  | invalidRequest
  deriving DecidableEq

structure S3Error where
  status : ℕ
  code : S3ErrorCode
  message : String

def badRequest (code : S3ErrorCode) (message : String) : S3Error :=
  ⟨400, code, message⟩

/-- Days and years of an event hold duration, exactly one of which is
given. -/
def eventHoldDays : Field ℤ → Field ℤ → Option (ℕ × ℕ)
  | .value days, .empty =>
    if 1 ≤ days ∧ days ≤ 36500 then some (days.toNat, 0) else none
  | .empty, .value years =>
    if 1 ≤ years ∧ years ≤ 100 then some (0, years.toNat) else none
  | _, _ => none

def withRetainUntil (l : LockInfo) (retainUntilDate : Field ℤ) (now : ℤ) :
    Except S3Error LockInfo :=
  match retainUntilDate with
  | .empty => .ok l
  | .invalid => .error (badRequest .malformedXML "Invalid retain until date")
  | .value retainUntil =>
    if retainUntil ≤ now then
      .error (badRequest .invalidArgument
        "The retain until date must be in the future!")
    else .ok (l.retain retainUntil)

def withEventHoldDuration (l : LockInfo) (data : PutObjectRetentionData) :
    Except S3Error LockInfo :=
  if data.hasEventHoldDuration then
    match eventHoldDays data.days data.years with
    | none =>
      .error (badRequest .malformedXML
        "Event hold duration must specify either Days (1-36500) or Years (1-100)")
    | some (days, years) =>
      .ok { l with eventDurationDays := days, eventDurationYears := years }
  else .ok l

/-- The lock information that the body asks for once its mode is known. -/
def requestedLockInfo (data : PutObjectRetentionData) (mode : RetentionMode)
    (now : ℤ) : Except S3Error LockInfo := do
  let flags :=
    if mode = .compliance then lockinfoFlagLockModeCompliance else 0
  let l ← withRetainUntil ⟨flags, 0, 0, 0⟩ data.retainUntilDate now
  let l :=
    if data.eventHold = .value true then
      { l with flags := l.flags ||| lockinfoFlagEventHold }
    else l
  let l ← withEventHoldDuration l data
  if !l.retainUntilSet && data.eventHold.isEmpty then
    .error (badRequest .malformedXML
      "Retention mode requires RetainUntilDate or EventHold")
  else .ok l

/-- The lock information that the body asks for: without a mode it asks for
the lock to be dropped. -/
def requestedRetention (data : PutObjectRetentionData) (now : ℤ) :
    Except S3Error (Option LockInfo) :=
  match data.mode with
  | .value mode => (requestedLockInfo data mode now).map some
  | _ =>
    if !data.retainUntilDate.isEmpty || !data.eventHold.isEmpty ||
        data.hasEventHoldDuration then
      .error (badRequest .malformedXML "Retention mode is required")
    else .ok none

/-- `finalizePutObjectRetention`, up to the modification. -/
def finalizePutObjectRetention (data : PutObjectRetentionData) (now : ℤ)
    (objectLockEnabled : Bool) : Except S3Error RetentionParam :=
  if !data.finished then .error (badRequest .malformedXML "")
  else if data.mode = .invalid then
    .error (badRequest .malformedXML "Invalid retention mode")
  else if data.eventHold = .invalid then
    .error (badRequest .malformedXML "Invalid event hold status")
  else do
    let lockInfo ← requestedRetention data now
    if objectLockEnabled then .ok ⟨now, data.bypassGovernance, lockInfo⟩
    else
      .error (badRequest .invalidRequest
        "Bucket is missing Object Lock Configuration")

theorem bind_eq_ok {ε α β : Type} {x : Except ε α} {f : α → Except ε β}
    {b : β} (h : x >>= f = .ok b) : ∃ a, x = .ok a ∧ f a = .ok b := by
  cases x with
  | error e => cases h
  | ok a => exact ⟨a, rfl, h⟩

end Hs5.S3
