import Hs5.Data.VarInt
import Hs5.Support.Locks
import Hs5.Support.OrderedMap

/-!
# Access keys and sessions

Access keys and sessions are kept in two modules, each with a mutex of its own,
that call each other while they hold it.  The check of an access key holds the
mutex of the access keys, shared, and asks for the session of the key; the
removal of a session holds the mutex of the sessions and removes its access
key.
-/

namespace Hs5.Auth

open Locks

/-! ## State -/

structure AccessKey where
  id : ℤ
  userId : ℤ
  secretKey : Bytes

structure SessionStorage where
  userId : ℤ
  accessKey : Bytes
  usedAt : ℕ
  locked : Bool

structure NewSession (σ : Type) where
  ses : σ
  accessKey : Bytes
  secretAccessKey : Bytes
  userId : ℤ

/-- Ticks of the steady clock, of one nanosecond. -/
def sessionTimeout : ℕ := 15 * 60 * 1000000000

inductive Mutex where
  | auth
  | session
  deriving DecidableEq

/-- The function that asks for the session of an access key. -/
inductive Lookup where
  | getSessionUserId
  | isAuthorized
  | getSecretKey

/-- What comes after `removeSession`. -/
inductive After (σ : Type) where
  | ret
  | scan (now : ℕ) (rest : List σ)

inductive Removal (σ : Type) where
  | alone
  | removeSession (ses : σ) (after : After σ)

inductive Pc (σ : Type) where
  | idle
  | isAuthorizedUser
  | isAuthorized (accessKey : Bytes)
  | findAccessKey (accessKey : Bytes)
  | getSecretKey (accessKey : Bytes)
  | findSecretKey (accessKey : Bytes)
  | leaveShared
  | lockSession (accessKey : Bytes) (caller : Lookup)
  | getSessionStorage (accessKey : Bytes) (caller : Lookup)
  | refreshAuthCache (newAccessKeys : List (Bytes × AccessKey))
  | refreshing (newAccessKeys : List (Bytes × AccessKey))
  | removeAccessKey (accessKey : Bytes) (caller : Removal σ)
  | removing (accessKey : Bytes) (caller : Removal σ)
  | erasing (ses : σ) (after : After σ)
  | addAccessKey (new : NewSession σ)
  | adding (new : NewSession σ)
  | newSession (new : NewSession σ)
  | inserting (new : NewSession σ)
  | scanning (now : ℕ) (rest : List σ)
  | getSession (ses : σ) (waited : Bool)
  | examining (ses : σ) (waited : Bool)
  | invalidateSession (ses : σ)
  | invalidating (ses : σ)
  | unlockSession (ses : σ)
  | unlocking (ses : σ)

namespace Pc

variable {σ : Type}

def wants : Pc σ → Option Mutex
  | isAuthorizedUser | isAuthorized _ | getSecretKey _ | refreshAuthCache _
  | removeAccessKey _ _ | addAccessKey _ => some .auth
  | lockSession _ _ | newSession _ | getSession _ _ | invalidateSession _
  | unlockSession _ => some .session
  | _ => none

def held : Pc σ → Mutex → Option Mode
  | findAccessKey _, .auth | findSecretKey _, .auth | leaveShared, .auth
  | lockSession _ .isAuthorized, .auth | lockSession _ .getSecretKey, .auth
  | getSessionStorage _ .isAuthorized, .auth
  | getSessionStorage _ .getSecretKey, .auth => some .shared
  | refreshing _, .auth | removing _ _, .auth | adding _, .auth =>
    some .exclusive
  | getSessionStorage _ _, .session
  | removeAccessKey _ (.removeSession _ _), .session
  | removing _ (.removeSession _ _), .session
  | erasing _ _, .session | inserting _, .session | scanning _ _, .session
  | examining _ _, .session | invalidating _, .session
  | unlocking _, .session => some .exclusive
  | _, _ => none

end Pc

/-- The two modules and the threads that run in them. -/
structure AuthState (τ σ : Type) [LinearOrder σ] where
  now : ℕ
  accessKeys : Bytes → Option AccessKey
  sessionData : OrderedMap σ SessionStorage
  accessKeyToSession : Bytes → Option σ
  locks : Mutex → SharedMutex τ
  pc : τ → Pc σ

namespace AuthState

variable {τ σ : Type} [DecidableEq τ] [LinearOrder σ]

/-! ## Operations on the mutexes -/

def goto (s : AuthState τ σ) (t : τ) (p : Pc σ) : AuthState τ σ :=
  { s with pc := Function.update s.pc t p }

def lock (s : AuthState τ σ) (t : τ) (l : Mutex) (p : Pc σ) :
    Option (AuthState τ σ) :=
  ((s.locks l).tryLock t).map fun m =>
    { s with
      locks := Function.update s.locks l m
      pc := Function.update s.pc t p }

def lockShared (s : AuthState τ σ) (t : τ) (l : Mutex) (p : Pc σ) :
    Option (AuthState τ σ) :=
  ((s.locks l).tryLockShared t).map fun m =>
    { s with
      locks := Function.update s.locks l m
      pc := Function.update s.pc t p }

def unlock (s : AuthState τ σ) (t : τ) (l : Mutex) (p : Pc σ) :
    AuthState τ σ :=
  { s with
    locks := Function.update s.locks l (s.locks l).unlock
    pc := Function.update s.pc t p }

def unlockShared (s : AuthState τ σ) (t : τ) (l : Mutex) (p : Pc σ) :
    AuthState τ σ :=
  { s with
    locks := Function.update s.locks l ((s.locks l).unlockShared t)
    pc := Function.update s.pc t p }

/-! ## The code between -/

def expired (s : SessionStorage) (now : ℕ) : Prop :=
  now > s.usedAt + sessionTimeout
  deriving Decidable

/-- Session keys stay, the others are replaced by those of the database. -/
def refresh (s : AuthState τ σ) (newAccessKeys : List (Bytes × AccessKey)) :
    AuthState τ σ :=
  { s with
    accessKeys := fun accessKey =>
    match s.accessKeys accessKey with
    | some k => if k.id ≥ 0 then newAccessKeys.lookup accessKey else some k
    | none => newAccessKeys.lookup accessKey }

def eraseKey (s : AuthState τ σ) (accessKey : Bytes) : AuthState τ σ :=
  { s with accessKeys := Function.update s.accessKeys accessKey none }

def insertKey (s : AuthState τ σ) (new : NewSession σ) : AuthState τ σ :=
  match s.accessKeys new.accessKey with
  | some _ => s
  | none =>
    { s with
      accessKeys := Function.update s.accessKeys new.accessKey
        (some ⟨-1, 0, new.secretAccessKey⟩) }

/-- A session that exists is not replaced, but gets a second access key. -/
def insertSession (s : AuthState τ σ) (new : NewSession σ) : AuthState τ σ :=
  { s with
    sessionData :=
      match s.sessionData.lookup new.ses with
      | some _ => s.sessionData
      | none => s.sessionData.insert new.ses
          ⟨new.userId, new.accessKey, s.now, false⟩
    accessKeyToSession :=
      Function.update s.accessKeyToSession new.accessKey (some new.ses) }

def eraseSession (s : AuthState τ σ) (ses : σ) : AuthState τ σ :=
  { s with
    accessKeyToSession :=
      match s.sessionData.lookup ses with
      | some it => Function.update s.accessKeyToSession it.accessKey none
      | none => s.accessKeyToSession
    sessionData := s.sessionData.erase ses }

def modifySession (s : AuthState τ σ) (ses : σ)
    (f : SessionStorage → SessionStorage) : AuthState τ σ :=
  match s.sessionData.lookup ses with
  | some it => { s with sessionData := s.sessionData.insert ses (f it) }
  | none => s

/-- `getSessionStorage` marks the session as used unless it has expired. -/
def touch (s : AuthState τ σ) (accessKey : Bytes) : AuthState τ σ :=
  match s.accessKeyToSession accessKey with
  | none => s
  | some ses => s.modifySession ses fun it =>
    if expired it s.now then it else { it with usedAt := s.now }

def removeSession (s : AuthState τ σ) (t : τ) (ses : σ) (it : SessionStorage)
    (after : After σ) : AuthState τ σ :=
  if it.accessKey ≠ [] then
    s.goto t (.removeAccessKey it.accessKey (.removeSession ses after))
  else s.goto t (.erasing ses after)

/-! ## Threads -/

/-- The step of a thread from where it is, unless it has to wait. -/
def runFrom (s : AuthState τ σ) (t : τ) : Pc σ → Option (AuthState τ σ)
  | .idle => none
  | .isAuthorizedUser => s.lockShared t .auth .leaveShared
  | .isAuthorized accessKey =>
    s.lockShared t .auth
      (if accessKey = [] then .leaveShared else .findAccessKey accessKey)
  | .findAccessKey accessKey =>
    match s.accessKeys accessKey with
    | none => some (s.unlockShared t .auth .idle)
    | some k =>
      if k.userId = 0 then
        some (s.goto t (.lockSession accessKey .isAuthorized))
      else some (s.goto t .leaveShared)
  | .getSecretKey accessKey =>
    s.lockShared t .auth (.findSecretKey accessKey)
  | .findSecretKey accessKey =>
    match s.accessKeys accessKey with
    | none => some (s.unlockShared t .auth .idle)
    | some k =>
      if k.id = 0 then
        some (s.goto t (.lockSession accessKey .getSecretKey))
      else some (s.goto t .leaveShared)
  | .leaveShared => some (s.unlockShared t .auth .idle)
  | .lockSession accessKey caller =>
    s.lock t .session (.getSessionStorage accessKey caller)
  | .getSessionStorage accessKey caller =>
    some ((s.touch accessKey).unlock t .session
      (match caller with
        | .getSessionUserId => .idle
        | .isAuthorized | .getSecretKey => .leaveShared))
  | .refreshAuthCache newAccessKeys =>
    s.lock t .auth (.refreshing newAccessKeys)
  | .refreshing newAccessKeys =>
    some ((s.refresh newAccessKeys).unlock t .auth .idle)
  | .removeAccessKey accessKey caller =>
    s.lock t .auth (.removing accessKey caller)
  | .removing accessKey caller =>
    some ((s.eraseKey accessKey).unlock t .auth
      (match caller with
        | .alone => .idle
        | .removeSession ses after => .erasing ses after))
  | .erasing ses after =>
    match after with
    | .ret => some ((s.eraseSession ses).unlock t .session .idle)
    | .scan now rest => some ((s.eraseSession ses).goto t (.scanning now rest))
  | .addAccessKey new => s.lock t .auth (.adding new)
  | .adding new => some ((s.insertKey new).unlock t .auth (.newSession new))
  | .newSession new => s.lock t .session (.inserting new)
  | .inserting new =>
    let s' := s.insertSession new
    some (s'.goto t (.scanning s'.now (s'.sessionData.entries.map Prod.fst)))
  | .scanning now rest =>
    match rest with
    | [] => some (s.unlock t .session .idle)
    | ses :: rest =>
      match s.sessionData.lookup ses with
      | none => some (s.goto t (.scanning now rest))
      | some it =>
        if it.locked = false ∧ expired it now then
          some (s.removeSession t ses it (.scan now rest))
        else some (s.goto t (.scanning now rest))
  | .getSession ses waited => s.lock t .session (.examining ses waited)
  | .examining ses waited =>
    match s.sessionData.lookup ses with
    | none => some (s.unlock t .session .idle)
    | some it =>
      if it.locked = true ∧ waited = false then
        some (s.unlock t .session (.getSession ses true))
      else if expired it s.now then some (s.removeSession t ses it .ret)
      else if it.locked then some (s.goto t (.examining ses false))
      else
        some ((s.modifySession ses fun it => { it with usedAt := s.now })
          |>.unlock t .session .idle)
  | .invalidateSession ses => s.lock t .session (.invalidating ses)
  | .invalidating ses =>
    match s.sessionData.lookup ses with
    | none => some (s.unlock t .session .idle)
    | some it =>
      if it.locked then some (s.unlock t .session (.invalidateSession ses))
      else some (s.removeSession t ses it .ret)
  | .unlockSession ses => s.lock t .session (.unlocking ses)
  | .unlocking ses =>
    some ((s.modifySession ses fun it => { it with locked := false })
      |>.unlock t .session .idle)

end AuthState

inductive Call (σ : Type) where
  | isAuthorizedUser
  | isAuthorized (accessKey : Bytes)
  | getSecretKey (accessKey : Bytes)
  | refreshAuthCache (newAccessKeys : List (Bytes × AccessKey))
  | removeAccessKey (accessKey : Bytes)
  | newSession (new : NewSession σ)
  | getSession (ses : σ)
  | getSessionUserId (accessKey : Bytes)
  | invalidateSession (ses : σ)
  | unlockSession (ses : σ)

def Call.start {σ : Type} : Call σ → Pc σ
  | isAuthorizedUser => .isAuthorizedUser
  | isAuthorized accessKey => .isAuthorized accessKey
  | getSecretKey accessKey => .getSecretKey accessKey
  | refreshAuthCache newAccessKeys => .refreshAuthCache newAccessKeys
  | removeAccessKey accessKey => .removeAccessKey accessKey .alone
  | newSession new => .addAccessKey new
  | getSession ses => .getSession ses false
  | getSessionUserId accessKey => .lockSession accessKey .getSessionUserId
  | invalidateSession ses => .invalidateSession ses
  | unlockSession ses => .unlockSession ses

inductive Event (τ σ : Type) where
  | call (t : τ) (c : Call σ)
  | run (t : τ)
  | tick (d : ℕ)

def Event.invalidates {τ σ : Type} : Event τ σ → Bool
  | call _ (.invalidateSession _) => true
  | _ => false

namespace AuthState

variable {τ σ : Type} [DecidableEq τ] [LinearOrder σ]

def step (s : AuthState τ σ) : Event τ σ → Option (AuthState τ σ)
  | .call t c =>
    match s.pc t with
    | .idle => some (s.goto t c.start)
    | _ => none
  | .run t => s.runFrom t (s.pc t)
  | .tick d => some { s with now := s.now + d }

structure Init (s : AuthState τ σ) : Prop where
  free : ∀ l, s.locks l = SharedMutex.free
  idle : ∀ t, s.pc t = .idle

end AuthState

end Hs5.Auth
