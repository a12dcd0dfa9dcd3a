import Hs5.Auth.Sessions
import Hs5.Support.Transition

/-!
# Deadlocks of the mutexes of access keys and sessions

A thread that checks an access key takes the mutex of the access keys before
the one of the sessions, a thread that removes a session the other way round.
As long as no session with an access key is removed, all threads take the two
mutexes in one order, and no set of threads is deadlocked.
-/

namespace Hs5.Auth

open Option Locks Transition

namespace Pc

variable {σ : Type}

/-- Where a thread can be as long as sessions with access keys are kept; a scan
has been started in the past. -/
def Ordered (now : ℕ) : Pc σ → Prop
  | removeAccessKey _ (.removeSession _ _) | removing _ (.removeSession _ _)
  | invalidateSession _ | invalidating _ => False
  | scanning started _ | erasing _ (.scan started _) => started ≤ now
  | _ => True

theorem Ordered.mono {now later : ℕ} {p : Pc σ} (h : p.Ordered now)
    (hle : now ≤ later) : p.Ordered later := by
  cases p with
  | scanning started rest => exact Nat.le_trans h hle
  | erasing ses after =>
    cases after with
    | ret => trivial
    | scan started rest => exact Nat.le_trans h hle
  | removeAccessKey accessKey caller => cases caller <;> exact h
  | removing accessKey caller => cases caller <;> exact h
  | _ => exact h

end Pc

namespace AuthState

variable {τ σ : Type} [DecidableEq τ] [LinearOrder σ]

/-! ## Who holds the mutexes -/

/-- A thread holds a mutex only where its function does. -/
def LocksInv (s : AuthState τ σ) : Prop :=
  ∀ l, (s.locks l).Within fun t => (s.pc t).held l

variable {s s' : AuthState τ σ} {t : τ} {l : Mutex} {p p₀ : Pc σ}

/-- The code between two operations on the mutexes changes the maps only. -/
structure SameThreads (s s' : AuthState τ σ) : Prop where
  locks : s'.locks = s.locks
  pc : s'.pc = s.pc
  now : s'.now = s.now

section Maps

omit [DecidableEq τ]

theorem SameThreads.refl (s : AuthState τ σ) : s.SameThreads s :=
  ⟨rfl, rfl, rfl⟩

theorem sameThreads_insertKey (s : AuthState τ σ) (new : NewSession σ) :
    s.SameThreads (s.insertKey new) := by
  unfold insertKey
  split
  · exact SameThreads.refl s
  · exact ⟨rfl, rfl, rfl⟩

theorem sameThreads_modifySession (s : AuthState τ σ) (ses : σ)
    (f : SessionStorage → SessionStorage) :
    s.SameThreads (s.modifySession ses f) := by
  unfold modifySession
  split
  · exact ⟨rfl, rfl, rfl⟩
  · exact SameThreads.refl s

theorem sameThreads_touch (s : AuthState τ σ) (accessKey : Bytes) :
    s.SameThreads (s.touch accessKey) := by
  unfold touch
  split
  · exact SameThreads.refl s
  · exact sameThreads_modifySession s _ _

end Maps

omit [LinearOrder σ] in
theorem held_update (pc : τ → Pc σ) (t : τ) (p : Pc σ) (l : Mutex) :
    (fun u => (Function.update pc t p u).held l) =
      Function.update (fun u => (pc u).held l) t (p.held l) := by
  funext u
  by_cases hut : u = t
  · rw [hut, Function.update_self, Function.update_self]
  · rw [Function.update_of_ne hut, Function.update_of_ne hut]

/-- A thread goes from `p` to `p'`; the others stay, and no time passes. -/
structure Moves (s : AuthState τ σ) (t : τ) (p p' : Pc σ)
    (s' : AuthState τ σ) : Prop where
  pc : s'.pc = Function.update s.pc t p'
  now : s'.now = s.now
  locksInv : s.LocksInv → s.pc t = p → s'.LocksInv

theorem Moves.of_mutex {m : SharedMutex τ} {mode : Option Mode}
    (hpc : s'.pc = Function.update s.pc t p) (hnow : s'.now = s.now)
    (hlocks : s'.locks = Function.update s.locks l m)
    (hheld : ∀ l', p.held l' = Function.update p₀.held l mode l')
    (hm : s.LocksInv → s.pc t = p₀ →
      m.Within (Function.update (fun u => (s.pc u).held l) t mode)) :
    s.Moves t p₀ p s' := by
  refine ⟨hpc, hnow, fun h hp l' => ?_⟩
  rw [hlocks, hpc, held_update, hheld l']
  by_cases hl : l' = l
  · rw [hl, Function.update_self, Function.update_self]
    exact hm h hp
  · rw [Function.update_of_ne hl, Function.update_of_ne hl, ← hp,
      Function.update_eq_self t (fun u => (s.pc u).held l')]
    exact h l'

variable {s₁ : AuthState τ σ}

theorem Moves.goto (hsame : s.SameThreads s₁)
    (hheld : ∀ l, p.held l = p₀.held l) : s.Moves t p₀ p (s₁.goto t p) := by
  refine ⟨by rw [AuthState.goto, hsame.pc], hsame.now, fun h hp l => ?_⟩
  rw [AuthState.goto, held_update, hsame.pc, hsame.locks, hheld, ← hp,
    Function.update_eq_self t fun u => (s.pc u).held l]
  exact h l

theorem Moves.lock (hs : s.lock t l p = some s')
    (hheld : ∀ l', p.held l' =
      Function.update p₀.held l (some .exclusive) l') : s.Moves t p₀ p s' := by
  obtain ⟨m, hm, rfl⟩ := map_eq_some_iff.mp hs
  exact .of_mutex rfl rfl rfl hheld fun _ _ => .tryLock hm

theorem Moves.lockShared (hs : s.lockShared t l p = some s')
    (hfree : p₀.held l = none)
    (hheld : ∀ l', p.held l' = Function.update p₀.held l (some .shared) l') :
    s.Moves t p₀ p s' := by
  obtain ⟨m, hm, rfl⟩ := map_eq_some_iff.mp hs
  exact .of_mutex rfl rfl rfl hheld fun h hp =>
    (h l).tryLockShared (by rw [hp, hfree]) hm

theorem Moves.unlock (hsame : s.SameThreads s₁)
    (hmode : p₀.held l = some .exclusive)
    (hheld : ∀ l', p.held l' = Function.update p₀.held l none l') :
    s.Moves t p₀ p (s₁.unlock t l p) :=
  .of_mutex (by rw [AuthState.unlock, hsame.pc]) hsame.now
    (by rw [AuthState.unlock, hsame.locks]) hheld
    fun h hp => (h l).unlock (by rw [hp, hmode])

theorem Moves.unlockShared (hmode : p₀.held l = some .shared)
    (hheld : ∀ l', p.held l' = Function.update p₀.held l none l') :
    s.Moves t p₀ p (s.unlockShared t l p) :=
  .of_mutex rfl rfl rfl hheld fun h hp => (h l).unlockShared (by rw [hp, hmode])

/-- No session that has an access key has expired. -/
def KeysLive (s : AuthState τ σ) : Prop :=
  ∀ p ∈ s.sessionData.entries, p.2.accessKey = [] ∨ ¬ expired p.2 s.now

/-- The move keeps to the order of the mutexes while no session with an access
key has expired. -/
def Orderly (s : AuthState τ σ) (p p' : Pc σ) : Prop :=
  s.KeysLive → p.Ordered s.now → p'.Ordered s.now

def Steps (s : AuthState τ σ) (t : τ) (p : Pc σ) (s' : AuthState τ σ) : Prop :=
  ∃ p', s.Moves t p p' s' ∧ s.Orderly p p'

theorem steps_removeSession {ses : σ} {it : SessionStorage} {after : After σ}
    (hit : s.sessionData.lookup ses = some it)
    (hheld : ∀ l, (Pc.erasing ses after).held l = p.held l)
    (hexpired : p.Ordered s.now → expired it s.now)
    (hordered : p.Ordered s.now → (Pc.erasing ses after).Ordered s.now) :
    s.Steps t p (s.removeSession t ses it after) := by
  unfold AuthState.removeSession
  split
  · rename_i hkey
    refine ⟨_, .goto (.refl s) fun l => ?_, fun hlive hp => ?_⟩
    · rw [← hheld]
      cases l <;> rfl
    · have hmem := OrderedMap.lookup_eq_some.mp hit
      exact absurd (hexpired hp) ((hlive _ hmem).resolve_left hkey)
  · exact ⟨_, .goto (.refl s) hheld, fun _ hp => hordered hp⟩

/-- A key is looked up with the mutex held shared; one without an owner of its
own is looked for in the sessions. -/
theorem steps_find {accessKey : Bytes} {caller : Lookup}
    {alone : AccessKey → Prop} [DecidablePred alone] {key : Option AccessKey}
    (hheld : p.held = (Pc.leaveShared : Pc σ).held)
    (hlock : (Pc.lockSession accessKey caller : Pc σ).held =
      (Pc.leaveShared : Pc σ).held)
    (hs : (match key with
      | none => some (s.unlockShared t .auth .idle)
      | some k =>
        if alone k then some (s.goto t (.lockSession accessKey caller))
        else some (s.goto t .leaveShared)) = some s') : s.Steps t p s' := by
  split at hs
  · cases hs
    refine ⟨.idle, .unlockShared (by rw [hheld]; rfl) fun l => ?_,
      fun _ _ => trivial⟩
    rw [hheld]
    cases l <;> rfl
  · split at hs
    · cases hs
      exact ⟨_, .goto (.refl s) fun l => by rw [hheld, hlock],
        fun _ _ => trivial⟩
    · cases hs
      exact ⟨_, .goto (.refl s) fun l => by rw [hheld], fun _ _ => trivial⟩

theorem steps_scanning {now : ℕ} {ses : σ} {rest : List σ}
    (hs : s.runFrom t (.scanning now (ses :: rest)) = some s') :
    s.Steps t (.scanning now (ses :: rest)) s' := by
  have hgoon : s.Steps t (.scanning now (ses :: rest))
      (s.goto t (.scanning now rest)) :=
    ⟨_, .goto (.refl s) fun l => by cases l <;> rfl, fun _ hp => hp⟩
  rw [AuthState.runFrom] at hs
  split at hs
  · cases hs
    exact hgoon
  · rename_i it hit
    split at hs
    · rename_i hremove
      cases hs
      exact steps_removeSession hit (fun l => by cases l <;> rfl)
        (fun hp => Nat.lt_of_lt_of_le hremove.2 hp) fun hp => hp
    · cases hs
      exact hgoon

theorem steps_examining {ses : σ} {waited : Bool}
    (hs : s.runFrom t (.examining ses waited) = some s') :
    s.Steps t (.examining ses waited) s' := by
  rw [AuthState.runFrom] at hs
  split at hs
  · cases hs
    exact ⟨_, .unlock (.refl s) rfl fun l => by cases l <;> rfl,
      fun _ _ => trivial⟩
  · rename_i it hit
    split at hs
    · cases hs
      exact ⟨_, .unlock (.refl s) rfl fun l => by cases l <;> rfl,
        fun _ _ => trivial⟩
    · split at hs
      · rename_i hexpired
        cases hs
        exact steps_removeSession hit (fun l => by cases l <;> rfl)
          (fun _ => hexpired) fun _ => trivial
      · split at hs
        · cases hs
          exact ⟨_, .goto (.refl s) fun l => by cases l <;> rfl,
            fun _ _ => trivial⟩
        · cases hs
          exact ⟨_, .unlock (sameThreads_modifySession s ses _) rfl
            fun l => by cases l <;> rfl, fun _ _ => trivial⟩

theorem steps_invalidating {ses : σ}
    (hs : s.runFrom t (.invalidating ses) = some s') :
    s.Steps t (.invalidating ses) s' := by
  rw [AuthState.runFrom] at hs
  split at hs
  · cases hs
    exact ⟨_, .unlock (.refl s) rfl fun l => by cases l <;> rfl,
      fun _ _ => trivial⟩
  · rename_i it hit
    split at hs
    · cases hs
      exact ⟨_, .unlock (.refl s) rfl fun l => by cases l <;> rfl,
        fun _ hp => hp.elim⟩
    · cases hs
      exact steps_removeSession hit (fun l => by cases l <;> rfl)
        (fun hp => hp.elim) fun hp => hp.elim

theorem steps_runFrom (hs : s.runFrom t p = some s') : s.Steps t p s' := by
  cases p with
  | idle => cases hs
  | isAuthorizedUser | getSecretKey accessKey =>
    exact ⟨_, .lockShared hs rfl fun l => by cases l <;> rfl,
      fun _ _ => trivial⟩
  | isAuthorized accessKey =>
    refine ⟨_, .lockShared hs rfl fun l => ?_, fun _ _ => ?_⟩
    · split <;> cases l <;> rfl
    · split <;> trivial
  | findAccessKey accessKey | findSecretKey accessKey =>
    exact steps_find (funext fun l => by cases l <;> rfl)
      (funext fun l => by cases l <;> rfl) hs
  | leaveShared =>
    cases hs
    exact ⟨_, .unlockShared rfl fun l => by cases l <;> rfl, fun _ _ => trivial⟩
  | lockSession accessKey caller =>
    exact ⟨_, .lock hs fun l => by cases l <;> cases caller <;> rfl,
      fun _ _ => trivial⟩
  | getSessionStorage accessKey caller =>
    cases hs
    have hsame := sameThreads_touch s accessKey
    refine ⟨_, .unlock hsame ?_ fun l => ?_, fun _ _ => ?_⟩
    · cases caller <;> rfl
    · cases l <;> cases caller <;> rfl
    · cases caller <;> trivial
  | refreshAuthCache newAccessKeys | addAccessKey new | newSession new
  | getSession ses waited | unlockSession ses =>
    exact ⟨_, .lock hs fun l => by cases l <;> rfl, fun _ _ => trivial⟩
  | refreshing newAccessKeys =>
    cases hs
    exact ⟨_, .unlock ⟨rfl, rfl, rfl⟩ rfl fun l => by cases l <;> rfl,
      fun _ _ => trivial⟩
  | removeAccessKey accessKey caller =>
    refine ⟨_, .lock hs fun l => ?_, fun _ hp => ?_⟩
    · cases l <;> cases caller <;> rfl
    · cases caller <;> exact hp
  | removing accessKey caller =>
    cases hs
    refine ⟨_, .unlock ⟨rfl, rfl, rfl⟩ rfl fun l => ?_, fun _ hp => ?_⟩
    · cases l <;> cases caller <;> rfl
    · cases caller with
      | alone => trivial
      | removeSession ses after => exact hp.elim
  | erasing ses after =>
    cases after with
    | ret =>
      cases hs
      exact ⟨_, .unlock ⟨rfl, rfl, rfl⟩ rfl fun l => by cases l <;> rfl,
        fun _ _ => trivial⟩
    | scan now rest =>
      cases hs
      exact ⟨_, .goto ⟨rfl, rfl, rfl⟩ fun l => by cases l <;> rfl,
        fun _ hp => hp⟩
  | adding new =>
    cases hs
    exact ⟨_, .unlock (sameThreads_insertKey s new) rfl
      fun l => by cases l <;> rfl, fun _ _ => trivial⟩
  | inserting new =>
    cases hs
    exact ⟨_, .goto ⟨rfl, rfl, rfl⟩ fun l => by cases l <;> rfl,
      fun _ _ => Nat.le_refl s.now⟩
  | scanning now rest =>
    cases rest with
    | nil =>
      cases hs
      exact ⟨_, .unlock (.refl s) rfl fun l => by cases l <;> rfl,
        fun _ _ => trivial⟩
    | cons ses rest => exact steps_scanning hs
  | examining ses waited => exact steps_examining hs
  | invalidateSession ses =>
    exact ⟨_, .lock hs fun l => by cases l <;> rfl, fun _ hp => hp.elim⟩
  | invalidating ses => exact steps_invalidating hs
  | unlocking ses =>
    cases hs
    exact ⟨_, .unlock (sameThreads_modifySession s ses _) rfl
      fun l => by cases l <;> rfl, fun _ _ => trivial⟩

theorem LocksInv.step {e : Event τ σ} (h : s.LocksInv)
    (hs : s.step e = some s') : s'.LocksInv := by
  cases e with
  | call t c =>
    rw [AuthState.step] at hs
    split at hs
    · rename_i hpc
      cases hs
      have hmoves : s.Moves t .idle c.start (s.goto t c.start) :=
        .goto (.refl s) fun l => by cases l <;> cases c <;> rfl
      exact hmoves.locksInv h hpc
    · cases hs
  | run t =>
    obtain ⟨p, hmoves, -⟩ := steps_runFrom hs
    exact hmoves.locksInv h rfl
  | tick d =>
    cases hs
    exact h

/-! ## The order of the mutexes -/

/-- Before every step, no session that has an access key has expired, and no
session is invalidated. -/
def KeepsSessions (s : AuthState τ σ) (e : Event τ σ) : Prop :=
  (∀ p ∈ s.sessionData.entries,
    p.2.accessKey = [] ∨ ¬ expired p.2 s.now) ∧ e.invalidates = false
  deriving Decidable

def OrderedInv (s : AuthState τ σ) : Prop := ∀ t, (s.pc t).Ordered s.now

theorem OrderedInv.move (h : s.OrderedInv) (hp : p.Ordered s.now)
    (hpc : s'.pc = Function.update s.pc t p) (hnow : s'.now = s.now) :
    s'.OrderedInv := by
  intro u
  rw [hpc, hnow]
  by_cases hut : u = t
  · rw [hut, Function.update_self]
    exact hp
  · rw [Function.update_of_ne hut]
    exact h u

theorem OrderedInv.step {e : Event τ σ} (h : s.OrderedInv)
    (hok : s.KeepsSessions e) (hs : s.step e = some s') : s'.OrderedInv := by
  cases e with
  | call t c =>
    rw [AuthState.step] at hs
    split at hs
    · cases hs
      refine h.move (p := c.start) ?_ rfl rfl
      cases c with
      | invalidateSession ses => cases hok.2
      | _ => trivial
    · cases hs
  | run t =>
    obtain ⟨p, hmoves, horderly⟩ := steps_runFrom hs
    exact h.move (horderly hok.1 (h t)) hmoves.pc hmoves.now
  | tick d =>
    cases hs
    intro t
    exact (h t).mono (Nat.le_add_right _ _)

def rank : Mutex → ℕ
  | .auth => 0
  | .session => 1

omit [LinearOrder σ] in
theorem rank_lt {now : ℕ} {l' : Mutex} (hp : p.Ordered now)
    (hwants : p.wants = some l) (hheld : p.held l' ≠ none) :
    rank l' < rank l := by
  cases p with
  | removeAccessKey accessKey caller =>
    cases caller with
    | alone => cases l' <;> exact absurd rfl hheld
    | removeSession ses after => exact hp.elim
  | lockSession accessKey caller =>
    cases hwants
    cases l' with
    | auth => exact Nat.zero_lt_one
    | session => cases caller <;> exact absurd rfl hheld
  | _ =>
    cases l' <;> first
      | exact absurd rfl hheld
      | cases hwants

/-- `t` waits for a mutex that `u` holds. -/
def WaitsFor (s : AuthState τ σ) : τ → τ → Prop :=
  Waits s.locks fun t => (s.pc t).wants

/-- No set of threads is deadlocked in a run that removes no session with an
access key. -/
theorem not_deadlocked_of_run {s₀ : AuthState τ σ} (hinit : s₀.Init)
    (hrun : Run step KeepsSessions s₀ s) (threads : Set τ) :
    ¬ Deadlocked s.WaitsFor threads := by
  have hinv : s.LocksInv ∧ s.OrderedInv := by
    apply hrun.invariant
    · refine ⟨fun l => ?_, fun t => ?_⟩
      · rw [hinit.free l]
        exact SharedMutex.within_free _
      · rw [hinit.idle t]
        trivial
    · rintro s e s' ⟨hlocks, hordered⟩ hok hs
      exact ⟨hlocks.step hs, hordered.step hok hs⟩
  obtain ⟨hlocks, hordered⟩ := hinv
  have hbound : ∀ l, rank l ≤ 1 := by
    intro l
    cases l <;> decide
  refine not_deadlocked rank hbound ?_ threads
  intro t l l' hwants hholds
  exact rank_lt (hordered t) hwants ((hlocks l').holds hholds)

def twoThreads : AuthState (Fin 2) ℕ where
  now := 0
  accessKeys _ := none
  sessionData := OrderedMap.empty
  accessKeyToSession _ := none
  locks _ := SharedMutex.free
  pc _ := .idle

theorem twoThreads_init : twoThreads.Init where
  free _ := rfl
  idle _ := rfl

def login : List (Event (Fin 2) ℕ) :=
  [.call 0 (.newSession ⟨7, ascii "key", ascii "secret", 3⟩),
    .run 0, .run 0, .run 0, .run 0, .run 0, .run 0]

/-- The second thread checks the access key while the first reads the
session. -/
theorem not_deadlocked_of_run_login :
    ∃ s, Run step KeepsSessions twoThreads s ∧ (s.pc 1).wants = some .session ∧
      (s.locks .session).owner = some 0 ∧ ¬ Deadlocked s.WaitsFor Set.univ := by
  obtain ⟨s, hs, hwants, howner⟩ : ∃ s ∈ exec (guarded step KeepsSessions)
      twoThreads (login ++ [.call 0 (.getSession 7), .run 0,
        .call 1 (.isAuthorized (ascii "key")), .run 1, .run 1]),
      (s.pc 1).wants = some .session ∧
        (s.locks .session).owner = some 0 := by decide +kernel
  have hrun := run_of_exec_guarded hs
  exact ⟨s, hrun, hwants, howner,
    not_deadlocked_of_run twoThreads_init hrun Set.univ⟩

/-- The session expires.  The first thread finds this and removes it while the
second is checking its access key. -/
def expiry : List (Event (Fin 2) ℕ) :=
  login ++ [.tick (sessionTimeout + 1), .call 0 (.getSession 7), .run 0,
    .call 1 (.isAuthorized (ascii "key")), .run 1, .run 1, .run 0]

/-- Each of the two threads waits for the other, and neither can go on. -/
theorem deadlocked_expired_session :
    ∃ s, Run step anyStep twoThreads s ∧ Deadlocked s.WaitsFor Set.univ ∧
      ∀ t, s.runFrom t (s.pc t) = none := by
  obtain ⟨s, hs, hwants₀, hreaders, hwants₁, howner, hstop⟩ :
      ∃ s ∈ exec step twoThreads expiry, (s.pc 0).wants = some .auth ∧
        (s.locks .auth).readers = [1] ∧ (s.pc 1).wants = some .session ∧
        (s.locks .session).owner = some 0 ∧
        ∀ t, (s.runFrom t (s.pc t)).isNone = true := by decide +kernel
  refine ⟨s, run_of_exec hs, ⟨Set.univ_nonempty, ?_⟩, ?_⟩
  · intro t _
    match t with
    | 0 =>
      refine ⟨1, Set.mem_univ _, .auth, hwants₀, .inr ?_⟩
      rw [hreaders]
      exact List.mem_singleton.mpr rfl
    | 1 => exact ⟨0, Set.mem_univ _, .session, hwants₁, .inl howner⟩
  · exact fun t => isNone_iff_eq_none.mp (hstop t)

end AuthState

end Hs5.Auth
