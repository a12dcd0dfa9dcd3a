import Hs5.Durability.Durable

/-!
# Data of calls that commits rely on

Which steps keep commits safe, and what is then known about the data of every
call: data that is not logged is synced unless `data_file_dirty` is set, data
that is logged is in the file in use until it is durable.
-/

namespace Hs5

open List

variable {cfg : WalConfig}

/-- Up to the first logged item nothing changes the index.  The record of an
item contains the items linked to it. -/
def ChainLogged (chain : List Item) : Prop :=
  ∀ item ∈ chain.takeWhile fun item => !item.action.needsWrite,
    item.action.changesIndex = false
  deriving Decidable

theorem ChainLogged.exists_logged {chain : List Item} (h : ChainLogged chain)
    {j : ℕ} {item : Item} (hitem : chain[j]? = some item)
    (hchanges : item.action.changesIndex = true) :
    ∃ i ≤ j, ∃ item', chain[i]? = some item' ∧
      item'.action.needsWrite = true := by
  induction chain generalizing j with
  | nil => cases hitem
  | cons first rest ih =>
    by_cases hlogged : first.action.needsWrite = true
    · exact ⟨0, Nat.zero_le j, first, rfl, hlogged⟩
    have htake : (first :: rest).takeWhile
        (fun item => !item.action.needsWrite) =
        first :: rest.takeWhile fun item => !item.action.needsWrite :=
      takeWhile_cons_of_pos (by simpa using hlogged)
    unfold ChainLogged at h
    rw [htake] at h
    cases j with
    | zero =>
      obtain rfl : first = item := Option.some.inj hitem
      rw [h first mem_cons_self] at hchanges
      cases hchanges
    | succ j =>
      obtain ⟨i, hij, item', hitem', hneeds⟩ :=
        ih (fun x hx => h x (mem_cons_of_mem _ hx)) hitem
      exact ⟨i + 1, Nat.succ_le_succ hij, item', hitem', hneeds⟩

namespace Store

variable {s s' : Store} {c : ℕ} {call : Call}

/-! ## Steps that keep commits safe -/

def CommitSafe (cfg : WalConfig) (s : Store) : CommitPc → Prop
  | .walBegin _ => ∀ call ∈ s.calls,
      ¬ (call.route = .unlogged ∧ call.stage = .writing)
  | .walFinish _ ok => ok = true → s.commitErrors = 0
  | .lmdbBegin _ reset => cfg.walFile = true →
      ¬ (reset = true ∧ cfg.walWriteThread = false) → s.dataFileDirty = false
  | _ => True

def AckSafe (cfg : WalConfig) (s : Store) : Event → Prop
  | .enqueue (.items chain) =>
    cfg.walFile = true → cfg.walWriteMeta = true → ChainLogged chain
  | .commitStep _ => CommitSafe cfg s s.pc
  | _ => True

instance (cfg : WalConfig) (s : Store) (pc : CommitPc) :
    Decidable (CommitSafe cfg s pc) := by
  rcases pc with ⟨⟩ <;> dsimp only [CommitSafe] <;> infer_instance

instance (cfg : WalConfig) (s : Store) (e : Event) :
    Decidable (AckSafe cfg s e) := by
  obtain _ | _ | _ | _ | ⟨⟨⟩⟩ := e <;> dsimp only [AckSafe] <;> infer_instance

theorem AckSafe.noErrors {e : Event} (h : AckSafe cfg s e)
    (hs : Steps cfg s e s') (herrors : s'.commitErrors = 0) :
    s.commitErrors = 0 := by
  have hzero : ∀ {s : Store} {startup : Bool} {chain : List Work}
      {matched logOk : Bool} {callbacks : List (List (ℕ × Bool))}
      {freemap : List ℕ}, (s.applyWork cfg startup chain matched callbacks
        freemap logOk).commitErrors = 0 → s.commitErrors = 0 := by
    intro s startup chain matched logOk callbacks freemap h
    cases chain with
    | nil => exact h
    | cons work linked =>
      simp only [applyWork] at h
      split at h
      · cases h
      · exact h
  cases hs with
  | processCallback | processStartup | processEntry =>
    have h := hzero herrors
    exact h
  | commitStep hs =>
    cases hs with
    | @walFinish cur ok' hpc =>
      have hok : ok' = true → s.commitErrors = 0 := by
        simpa [AckSafe, CommitSafe, hpc] using h
      cases ok' with
      | false => exact herrors
      | true => exact hok rfl
    | walDataFailed hpc | appendSyncFailed hpc | walSyncFailed hpc
    | dataSyncFailed hpc | lmdbWalSyncFailed hpc | switchFailed hpc =>
      exact absurd herrors (Nat.succ_ne_zero _)
    | _ => exact herrors
  | _ => exact herrors

/-! ## Calls -/

structure CallSafe (cfg : WalConfig) (s : Store) (c : ℕ) (call : Call) :
    Prop where
  unlogged : cfg.walFile = true → call.route = .unlogged → 0 ≤ cfg.walWriteData
  noWal : cfg.walFile = false → call.route = .unlogged
  queued : call.route = .queued → call.stage = .logging ∨ call.stage = .returned
  dirty : cfg.walFile = true → call.route = .unlogged →
    call.stage = .writing → s.dataFileDirty = true
  synced : s.commitErrors = 0 → cfg.walFile = true →
    call.route = .unlogged → call.stage = .returned →
      Wrote s.dataFile.durable (call.write c) ∨ s.dataFileDirty = true ∨
        ∃ cur start, s.pc = .walDataSync cur start ∧
          Wrote (s.dataFile.entries.take start) (call.write c)
  logged : call.route ≠ .unlogged → call.stage = .returned →
    s.wal.InCurrent (.dataFileData (call.write c)) ∨
      s.DataDurable (call.write c)

/-- The record of a call stays in the file in use until its data is
durable. -/
theorem logged_step (hd : DataInv cfg Called s) {e : Event}
    (hs : Steps cfg s e s')
    (h : s.wal.InCurrent (.dataFileData (call.write c)) ∨
      s.DataDurable (call.write c)) :
    s'.wal.InCurrent (.dataFileData (call.write c)) ∨
      s'.DataDurable (call.write c) := by
  have hcalled : Called (call.write c) := by simp [Called, Call.write]
  have hdata := (grows_step hs).data
  have htrunc : Truncated cfg s (.dataFileData (call.write c)) →
      s'.DataDurable (call.write c) := fun ht =>
    .inl ((wrote_of_truncated hd hcalled ht).mono hdata.durable)
  rcases h with h | h | h
  · rcases inCurrent_step hs h with h | h | h
    · exact .inl h
    · exact .inr (.inr h)
    · exact .inr (htrunc h)
  · exact .inr (.inl (h.mono hdata.durable))
  · rw [← s.wal.fsync_zero] at h
    rcases synced_step hs (.inl rfl) h with h | h
    · rw [WalFile.fsync_zero] at h
      exact .inr (.inr h)
    · exact .inr (htrunc h)

theorem CallSafe.keep (h : CallSafe cfg s c call) (hd : DataInv cfg Called s)
    {e : Event} (hs : Steps cfg s e s')
    (herrors : s'.commitErrors = 0 → s.commitErrors = 0)
    (hdirty : s.dataFileDirty = true → s'.dataFileDirty = true)
    (hpc : ∀ cur start, s.pc = .walDataSync cur start →
      s'.pc = .walDataSync cur start) : CallSafe cfg s' c call where
  unlogged := h.unlogged
  noWal := h.noWal
  queued := h.queued
  dirty := fun hwal hroute hstage => hdirty (h.dirty hwal hroute hstage)
  synced := by
    intro herr hwal hroute hstage
    have hdata := (grows_step hs).data
    rcases h.synced (herrors herr) hwal hroute hstage with
      hw | hdirt | ⟨cur, start, hsync, hw⟩
    · exact .inl (hw.mono hdata.durable)
    · exact .inr (.inl (hdirty hdirt))
    · exact .inr (.inr ⟨cur, start, hpc cur start hsync,
        hw.mono fun _ hx => hdata.take hx⟩)
  logged := fun hroute hstage => logged_step hd hs (h.logged hroute hstage)

theorem callSafe_new {off : ℕ} {data : Bytes} {complete dirty : Bool} :
    CallSafe cfg s c ⟨off, data, cfg.route data.length complete dirty,
      cfg.firstStage (cfg.route data.length complete dirty)⟩ := by
  have hstage : ∀ route, cfg.firstStage route ≠ .returned := by
    intro route
    cases route with
    | unlogged => cases hwal : cfg.walFile <;> simp [WalConfig.firstStage, hwal]
    | logged | queued => simp [WalConfig.firstStage]
  refine ⟨?_, ?_, ?_, ?_, ?_, ?_⟩
  · intro hwal hroute
    by_contra hneg
    simp [WalConfig.route, WalConfig.logsData, hwal, not_le.mp hneg] at hroute
    split at hroute <;> cases hroute
  · intro hwal
    simp [WalConfig.route, WalConfig.logsData, hwal]
  · intro hroute
    simp only at hroute ⊢
    rw [hroute]
    exact .inl rfl
  · intro hwal hroute hwriting
    simp only at hroute
    rw [hroute] at hwriting
    simp [WalConfig.firstStage, hwal] at hwriting
  · exact fun _ _ _ hreturned => absurd hreturned (hstage _)
  · exact fun _ hreturned => absurd hreturned (hstage _)

def CallsSafe (cfg : WalConfig) (s : Store) : Prop :=
  ∀ c call, s.calls[c]? = some call → CallSafe cfg s c call

section

variable (h : CallsSafe cfg s)

include h

theorem CallsSafe.setStage (hd : DataInv cfg Called s) {e : Event}
    (hs : Steps cfg s e s') {stage : Stage}
    (hcalls : s'.calls = (s.setStage c stage).calls)
    (hcall : s.calls[c]? = some call) (hpc : s'.pc = s.pc)
    (herrors : s'.commitErrors = s.commitErrors)
    (hdirty : s.dataFileDirty = true → s'.dataFileDirty = true)
    (hnew : CallSafe cfg s' c { call with stage := stage }) :
    CallsSafe cfg s' := by
  intro i call' hcall'
  rw [hcalls] at hcall'
  rcases calls_setStage hcall' with ⟨-, hold⟩ | ⟨call₀, rfl, hold, rfl⟩
  · refine (h i call' hold).keep hd hs ?_ hdirty ?_
    · rw [herrors]
      exact id
    · rw [hpc]
      exact fun _ _ h => h
  · obtain rfl : call = call₀ := Option.some.inj (hcall.symm.trans hold)
    exact hnew

theorem CallsSafe.keep (hd : DataInv cfg Called s) {e : Event}
    (hok : AckSafe cfg s e) (hs : Steps cfg s e s')
    (hcalls : s'.calls = s.calls)
    (hdirty : s.dataFileDirty = true → s'.dataFileDirty = true)
    (hpc : ∀ cur start, s.pc = .walDataSync cur start →
      s'.pc = .walDataSync cur start) : CallsSafe cfg s' := by
  intro c call hcall
  rw [hcalls] at hcall
  exact (h c call hcall).keep hd hs (hok.noErrors hs) hdirty hpc

theorem CallsSafe.markDirty (hd : DataInv cfg Called s)
    (hcall : s.calls[c]? = some call) (hstage : call.stage = .marking) :
    CallsSafe cfg { s.setStage c .writing with dataFileDirty := true } := by
  have hsafe := h c call hcall
  refine h.setStage hd (.markDirty hcall hstage) rfl hcall rfl rfl
    (fun _ => rfl) ?_
  refine ⟨hsafe.unlogged, hsafe.noWal, ?_, fun _ _ _ => rfl,
    fun _ _ _ _ => .inr (.inl rfl), fun _ hno => by cases hno⟩
  intro hroute
  have hno := hsafe.queued hroute
  simp [hstage] at hno

theorem CallsSafe.pwrite (hd : DataInv cfg Called s)
    (hcall : s.calls[c]? = some call) (hstage : call.stage = .writing) :
    CallsSafe cfg { s.setStage c (afterWrite call.route) with
      dataFile := s.dataFile.push
        ⟨some c, call.off, fillPage call.off call.data⟩ } := by
  have hsafe := h c call hcall
  have hdirect : call.route ≠ .queued := by
    intro hroute
    have hno := hsafe.queued hroute
    simp [hstage] at hno
  refine h.setStage hd (.pwrite hcall hstage) rfl hcall rfl rfl id ?_
  refine ⟨hsafe.unlogged, hsafe.noWal, fun hno => absurd hno hdirect, ?_, ?_,
    ?_⟩
  · intro _ hroute hwriting
    have hroute : call.route = .unlogged := hroute
    simp [afterWrite, hroute] at hwriting
  · intro _ hwal hroute _
    exact .inr (.inl (hsafe.dirty hwal hroute hstage))
  · intro hroute hreturned
    cases hcase : call.route with
    | unlogged => exact absurd hcase hroute
    | logged => simp [afterWrite, hcase] at hreturned
    | queued => exact absurd hcase hdirect

theorem CallsSafe.logData (hd : DataInv cfg Called s)
    (hs : Steps cfg s (.logData c) s') : CallsSafe cfg s' := by
  have hcurrent : ∀ call : Call,
      (s.wal.append (.dataFileData (call.write c))).InCurrent
        (.dataFileData (call.write c)) := by
    intro call
    refine ⟨⟨s.wal.seqNo, .dataFileData (call.write c)⟩, ?_, rfl⟩
    simp [WalFile.currentFile, WalFile.append]
  have hstep := hs
  cases hs with
  | @logQueued _ call hcall hstage | @logDirect _ call hcall hstage =>
    have hsafe := h c call hcall
    have hroute := (hd.calls c call hcall).logging hstage
    refine h.setStage hd hstep rfl hcall rfl rfl id ?_
    exact ⟨hsafe.unlogged, hsafe.noWal, fun _ => .inr rfl,
      fun _ hno => absurd hno hroute, fun _ _ hno => absurd hno hroute,
      fun _ _ => .inl (hcurrent call)⟩

theorem CallsSafe.commitStep (hd : DataInv cfg Called s) {ok : Bool}
    (hok : AckSafe cfg s (.commitStep ok))
    (hs : CommitStep cfg s s') : CallsSafe cfg s' := by
  have hs' : Steps cfg s (.commitStep ok) s' := .commitStep hs
  cases hs with
  | exchange hpc hdirty =>
    have hwriting : ∀ call ∈ s.calls,
        ¬ (call.route = .unlogged ∧ call.stage = .writing) := by
      simpa [AckSafe, CommitSafe, hpc] using hok
    intro c call hcall
    have hsafe := h c call hcall
    refine ⟨hsafe.unlogged, hsafe.noWal, hsafe.queued, ?_, ?_,
      fun hroute hstage => logged_step hd hs' (hsafe.logged hroute hstage)⟩
    · intro _ hroute hstage
      exact absurd ⟨hroute, hstage⟩ (hwriting call (mem_of_getElem? hcall))
    · intro _ _ hroute hstage
      have hw := (hd.calls c call hcall).written (by rw [hroute]; simp)
        (.inr hstage)
      refine .inr (.inr ⟨_, _, rfl, ?_⟩)
      rwa [SyncedLog.size, take_length]
  | @walDataSynced cur start hpc =>
    intro c call hcall
    have hsafe := h c call hcall
    refine ⟨hsafe.unlogged, hsafe.noWal, hsafe.queued, hsafe.dirty, ?_,
      fun hroute hstage => logged_step hd hs' (hsafe.logged hroute hstage)⟩
    intro herrors hwal hroute hstage
    rcases hsafe.synced herrors hwal hroute hstage with
      hw | hdirty | ⟨_, _, hsync, hw⟩
    · exact .inl (hw.mono (s.dataFile.extends_sync start).durable)
    · exact .inr (.inl hdirty)
    · rw [hpc] at hsync
      obtain ⟨-, rfl⟩ := CommitPc.walDataSync.inj hsync
      exact .inl (hw.mono fun _ hx => SyncedLog.durable_sync_of_take hx)
  | walDataFailed hpc =>
    intro c call hcall
    have hsafe := h c call hcall
    exact ⟨hsafe.unlogged, hsafe.noWal, hsafe.queued, hsafe.dirty,
      fun hno => absurd hno (Nat.succ_ne_zero _),
      fun hroute hstage => logged_step hd hs' (hsafe.logged hroute hstage)⟩
  | clean hpc | appendSync hpc | appendSyncFailed hpc | walSynced hpc
  | walSyncFailed hpc | walFinish hpc | startDataSync hpc | startWait hpc
  | startWalSync hpc | dataSynced hpc | dataSyncFailed hpc | waited hpc
  | lmdbWalSynced hpc | lmdbWalSyncFailed hpc | txnCommitted hpc
  | finish hpc | keepLog hpc | resetLog hpc | switch hpc | switchFailed hpc =>
    refine h.keep hd hok hs' rfl id ?_
    rw [hpc]
    exact fun _ _ hno => by cases hno

theorem CallsSafe.step (hd : DataInv cfg Called s) {e : Event}
    (hok : AckSafe cfg s e) (hs : Steps cfg s e s') : CallsSafe cfg s' := by
  have hidle : s.pc = .idle → ∀ cur start, s.pc = .walDataSync cur start →
      s'.pc = .walDataSync cur start := by
    intro hpc cur start hno
    rw [hpc] at hno
    cases hno
  have hstep := hs
  cases hs with
  | writeExt _ hroute =>
    subst hroute
    intro c call hcall
    rw [getElem?_append] at hcall
    split at hcall
    · exact (h c call hcall).keep hd hstep id id fun _ _ h => h
    · obtain ⟨hlt, heq⟩ := List.getElem?_eq_some_iff.mp hcall
      rw [← heq, List.getElem_singleton]
      exact callSafe_new
  | markDirty hcall hstage => exact h.markDirty hd hcall hstage
  | pwrite hcall hstage => exact h.pwrite hd hcall hstage
  | logQueued | logDirect => exact h.logData hd hstep
  | enqueue | popItem | itemWritten | finishItem | dataFileSynced
  | finishSwitch => exact h.keep hd hok hstep rfl id fun _ _ h => h
  | processCallback hpc | processStartup hpc | processEntry hpc =>
    obtain ⟨-, -, hcalls, hdirty⟩ := applyWork_frame _ _ _ _ _ _ _
    exact h.keep hd hok hstep hcalls (fun hd => hdirty.trans hd) (hidle hpc)
  | takeCommit hpc | skipCommit hpc | beginWalCommit hpc | beginLmdbCommit hpc
  | beginStartupCommit hpc => exact h.keep hd hok hstep rfl id (hidle hpc)
  | commitStep hs => exact h.commitStep hd hok hs

end

end Store

end Hs5
