import Hs5.Durability.LogData

/-!
# Calls, log and data file in a run

The relation between the log and the data file, for the whole system.  Two
facts about the commit thread are needed besides: while it holds the mutex of
the log its sync of the data file covers the data records in use, and once it
has waited for the other file, no item of that file is left.
-/

namespace Hs5

open List

variable {cfg : WalConfig} {P : DataWrite → Prop}

/-! ## Calls -/

structure CallOk (cfg : WalConfig) (writes : List DataWrite) (c : ℕ)
    (call : Call) : Prop where
  nonempty : call.data ≠ []
  queued : call.route = .queued → cfg.walWriteThread = true
  logs : call.route ≠ .unlogged → cfg.walWriteData ≠ 0
  logging : call.stage = .logging → call.route ≠ .unlogged
  written : call.route ≠ .queued →
    call.stage = .logging ∨ call.stage = .returned → Wrote writes (call.write c)

variable {complete dirty : Bool} {c : ℕ}

theorem CallOk.mono {writes writes' : List DataWrite} {call : Call}
    (h : CallOk cfg writes c call) (hsub : ∀ x ∈ writes, x ∈ writes') :
    CallOk cfg writes' c call :=
  { h with written := fun hroute hstage => (h.written hroute hstage).mono hsub }

theorem WalConfig.route_queued {size : ℕ}
    (h : cfg.route size complete dirty = .queued) :
    cfg.walWriteThread = true := by
  unfold WalConfig.route at h
  split at h
  · split at h
    · assumption
    · cases h
  · split at h <;> cases h

theorem WalConfig.route_logs {size : ℕ}
    (h : cfg.route size complete dirty ≠ .unlogged) : cfg.walWriteData ≠ 0 := by
  intro hzero
  apply h
  simp [WalConfig.route, WalConfig.logsData, hzero]

theorem callOk_new {writes : List DataWrite} {c off : ℕ} {data : Bytes}
    {route : Route} (hdata : data ≠ [])
    (hroute : route = cfg.route data.length complete dirty) :
    CallOk cfg writes c ⟨off, data, route, cfg.firstStage route⟩ := by
  refine ⟨hdata, ?_, ?_, ?_, ?_⟩
  · intro hq
    exact WalConfig.route_queued (hroute ▸ hq)
  · intro hl
    exact WalConfig.route_logs (hroute ▸ hl)
  · cases route with
    | unlogged => cases hwal : cfg.walFile <;> simp [WalConfig.firstStage, hwal]
    | logged => simp
    | queued => simp
  · cases route with
    | unlogged => cases hwal : cfg.walFile <;> simp [WalConfig.firstStage, hwal]
    | logged => simp [WalConfig.firstStage]
    | queued => simp

namespace Store

variable {s s' : Store}

theorem calls_setStage {c i : ℕ} {stage : Stage} {call' : Call}
    (h : (s.setStage c stage).calls[i]? = some call') :
    (i ≠ c ∧ s.calls[i]? = some call') ∨
      ∃ call, i = c ∧ s.calls[c]? = some call ∧
        call' = { call with stage := stage } := by
  rw [setStage, getElem?_modify] at h
  obtain ⟨call, hcall, rfl⟩ := Option.map_eq_some_iff.mp h
  by_cases hi : c = i
  · subst hi
    exact .inr ⟨call, rfl, hcall, if_pos rfl⟩
  · exact .inl ⟨Ne.symm hi, by rw [if_neg hi, hcall]⟩

theorem callsOk_setStage {writes writes' : List DataWrite} {stage : Stage}
    (h : ∀ i call, s.calls[i]? = some call → CallOk cfg writes i call)
    (hsub : ∀ x ∈ writes, x ∈ writes')
    (hnew : ∀ call, s.calls[c]? = some call →
      CallOk cfg writes' c { call with stage := stage }) :
    ∀ i call, (s.setStage c stage).calls[i]? = some call →
      CallOk cfg writes' i call := by
  intro i call' hcall'
  rcases calls_setStage hcall' with ⟨-, hcall⟩ | ⟨call, rfl, hcall, rfl⟩
  · exact (h i call' hcall).mono hsub
  · exact hnew call hcall

end Store

/-! ## The invariant for data -/

/-- The commit thread works on a commit that ends with a reset and is past
the wait for the items of the other file. -/
def CommitPc.afterWait : CommitPc → Bool
  | .lmdbDataSync _ reset _ | .lmdbWalSync _ reset _ | .lmdbTxn _ reset
  | .lmdbFinish _ reset | .lmdbReset reset => reset
  | _ => false

/-- Places that are only reached with a data thread. -/
def CommitPc.threaded : CommitPc → Bool
  | .lmdbWait _ => true
  | .lmdbWalSync _ reset _ => reset
  | _ => false

namespace Store

variable {s s' : Store}

/-- While the commit thread holds the mutex of the log, its sync of the data
file covers the data records of the file it will reset. -/
def LockPhase (s : Store) : Prop :=
  match s.pc with
  | .lmdbDataSync _ _ start => ∀ d ∈ s.wal.records s.wal.useAltFile,
      Wrote (s.dataFile.entries.take start) d
  | .lmdbTxn _ _ => s.commitErrors = 0 →
      ∀ d ∈ s.wal.records s.wal.useAltFile, Wrote s.dataFile.durable d
  | .lmdbFinish _ _ | .lmdbReset _ =>
    ∀ d ∈ s.wal.records s.wal.useAltFile, Wrote s.dataFile.durable d
  | _ => True

structure DataInv (cfg : WalConfig) (P : DataWrite → Prop) (s : Store) :
    Prop where
  log : LogData cfg P s.wal s.dataFile s.threadSyncStart
  calls : ∀ c call, s.calls[c]? = some call →
    CallOk cfg s.dataFile.entries c call
  lock : s.pc.holdsWalLock cfg = true → s.LockPhase
  wait : cfg.Switches → cfg.walFile = true → s.pc.afterWait = true →
    s.wal.pendingData (!s.wal.useAltFile) = 0
  threaded : s.pc.threaded = true → cfg.walWriteThread = true

theorem LockPhase.mono (h : s.LockPhase) (hpc : s'.pc = s.pc)
    (herrors : s'.commitErrors = s.commitErrors)
    (hrecords : ∀ d ∈ s'.wal.records s'.wal.useAltFile,
      d ∈ s.wal.records s.wal.useAltFile)
    (htake : ∀ n, ∀ x ∈ s.dataFile.entries.take n,
      x ∈ s'.dataFile.entries.take n)
    (hdurable : ∀ x ∈ s.dataFile.durable, x ∈ s'.dataFile.durable) :
    s'.LockPhase := by
  unfold LockPhase at *
  rw [hpc, herrors]
  split
  · rename_i cur reset start hstart
    rw [hstart] at h
    exact fun d hd => (h d (hrecords d hd)).mono (htake start)
  · rename_i cur reset htxn
    rw [htxn] at h
    exact fun he d hd => (h he d (hrecords d hd)).mono hdurable
  · rename_i cur reset hfinish
    rw [hfinish] at h
    exact fun d hd => (h d (hrecords d hd)).mono hdurable
  · rename_i reset hreset
    rw [hreset] at h
    exact fun d hd => (h d (hrecords d hd)).mono hdurable
  · trivial

section

variable (h : DataInv cfg P s)

include h

theorem DataInv.of_log
    (hlog : LogData cfg P s'.wal s'.dataFile s'.threadSyncStart)
    (hcalls : ∀ c call, s'.calls[c]? = some call →
      CallOk cfg s'.dataFile.entries c call) (hpc : s'.pc = s.pc)
    (herrors : s'.commitErrors = s.commitErrors)
    (hused : s'.wal.useAltFile = s.wal.useAltFile)
    (hrecords : s.pc.holdsWalLock cfg = true →
      ∀ d ∈ s'.wal.records s.wal.useAltFile,
        d ∈ s.wal.records s.wal.useAltFile)
    (htake : ∀ n, ∀ x ∈ s.dataFile.entries.take n,
      x ∈ s'.dataFile.entries.take n)
    (hdurable : ∀ x ∈ s.dataFile.durable, x ∈ s'.dataFile.durable)
    (hpending : s'.wal.pendingData (!s.wal.useAltFile) ≤
      s.wal.pendingData (!s.wal.useAltFile)) : DataInv cfg P s' where
  log := hlog
  calls := hcalls
  lock := by
    intro hlock
    rw [hpc] at hlock
    refine (h.lock hlock).mono hpc herrors ?_ htake hdurable
    rw [hused]
    exact hrecords hlock
  wait := by
    intro hcfg hwal hwait
    rw [hpc] at hwait
    have hzero := h.wait hcfg hwal hwait
    rw [hused]
    omega
  threaded := by
    rw [hpc]
    exact h.threaded

theorem DataInv.of_calls (hwal : s'.wal = s.wal)
    (hdata : s'.dataFile = s.dataFile)
    (hstart : s'.threadSyncStart = s.threadSyncStart) (hpc : s'.pc = s.pc)
    (herrors : s'.commitErrors = s.commitErrors)
    (hcalls : ∀ c call, s'.calls[c]? = some call →
      CallOk cfg s.dataFile.entries c call) : DataInv cfg P s' := by
  refine h.of_log ?_ ?_ hpc herrors (by rw [hwal]) ?_ ?_ ?_ (by rw [hwal])
  · rw [hwal, hdata, hstart]
    exact h.log
  · rwa [hdata]
  · rw [hwal]
    exact fun _ _ hd => hd
  · rw [hdata]
    exact fun _ _ hx => hx
  · rw [hdata]
    exact fun _ hx => hx

theorem DataInv.writeExt {off : ℕ} {data : Bytes} {complete dirty : Bool}
    {route : Route} (hdata : data ≠ [])
    (hroute : route = cfg.route data.length complete dirty) :
    DataInv cfg P { s with
      calls := s.calls ++ [⟨off, data, route, cfg.firstStage route⟩] } := by
  refine h.of_calls rfl rfl rfl rfl rfl ?_
  intro c call hcall
  rw [getElem?_append] at hcall
  split at hcall
  · exact h.calls c call hcall
  · obtain rfl : call = ⟨off, data, route, cfg.firstStage route⟩ := by
      obtain ⟨hlt, heq⟩ := List.getElem?_eq_some_iff.mp hcall
      simpa using heq.symm
    exact callOk_new hdata hroute

theorem DataInv.markDirty :
    DataInv cfg P { s.setStage c .writing with dataFileDirty := true } := by
  refine h.of_calls rfl rfl rfl rfl rfl ?_
  refine callsOk_setStage h.calls (fun _ hx => hx) ?_
  intro call' hcall'
  have hok := h.calls c call' hcall'
  exact ⟨hok.nonempty, hok.queued, hok.logs, by simp, by simp⟩

theorem DataInv.pwrite {call : Call} (hcall : s.calls[c]? = some call) :
    DataInv cfg P { s.setStage c (afterWrite call.route) with
      dataFile := s.dataFile.push
        ⟨some c, call.off, fillPage call.off call.data⟩ } := by
  refine h.of_log (h.log.push _) ?_ rfl rfl rfl (fun _ _ hd => hd)
    (fun _ _ hx => SyncedLog.take_push hx) ?_ le_rfl
  · refine callsOk_setStage h.calls (fun _ hx => mem_append_left _ hx) ?_
    intro call' hcall'
    obtain rfl : call' = call := by
      rw [hcall] at hcall'
      exact (Option.some.inj hcall').symm
    have hok := h.calls c call' hcall
    refine ⟨hok.nonempty, hok.queued, hok.logs, ?_, ?_⟩
    · intro hlogging hunlogged
      have hroute : call'.route = .unlogged := hunlogged
      simp [afterWrite, hroute] at hlogging
    · intro _ _
      exact ⟨⟨some c, call'.off, fillPage call'.off call'.data⟩, by simp, rfl,
        rfl, prefix_fillPage _ _⟩
  · intro x hx
    rw [SyncedLog.durable_push]
    exact hx

theorem DataInv.logData (hs : Steps cfg s (.logData c) s') :
    DataInv cfg P s' := by
  have hcalls : ∀ {call : Call}, s.calls[c]? = some call →
      call.stage = .logging → ∀ i call,
        (s.setStage c .returned).calls[i]? = some call →
          CallOk cfg s.dataFile.entries i call := by
    intro call hcall hstage
    refine callsOk_setStage h.calls (fun _ hx => hx) ?_
    intro call' hcall'
    obtain rfl := Option.some.inj (hcall.symm.trans hcall')
    have hok := h.calls c call hcall
    exact ⟨hok.nonempty, hok.queued, hok.logs, by simp,
      fun hroute _ => hok.written hroute (.inl hstage)⟩
  cases hs with
  | @logQueued _ call hcall hstage hlock hroute =>
    have hok := h.calls c call hcall
    refine h.of_log (h.log.writeDataQueued hok.nonempty (hok.queued hroute)
      (hok.logs (hok.logging hstage))) (hcalls hcall hstage) rfl rfl rfl
      (by simp [hlock]) (fun _ _ hx => hx) (fun _ hx => hx) ?_
    simp [WalFile.writeDataQueued]
  | @logDirect _ call hcall hstage hlock hroute =>
    have hok := h.calls c call hcall
    exact h.of_log (h.log.writeDataDirect (hok.written hroute (.inl hstage))
      (hok.logs (hok.logging hstage))) (hcalls hcall hstage) rfl rfl rfl
      (by simp [hlock]) (fun _ _ hx => hx) (fun _ hx => hx) le_rfl

/-! The data thread. -/

theorem DataInv.popItem {wal : WalFile ItemId Unit}
    (hs : s.wal.popItem = some wal) : DataInv cfg P { s with wal := wal } := by
  have hlog := h.log.popItem hs
  obtain ⟨item, queue, -, -, rfl⟩ := WalFile.popItem_eq_some hs
  exact h.of_log hlog h.calls rfl rfl rfl (fun _ _ hd => hd)
    (fun _ _ hx => hx) (fun _ hx => hx) le_rfl

theorem DataInv.itemWritten {item : DataItem} {wal : WalFile ItemId Unit}
    (hthread : s.wal.thread = .popped item)
    (hwal : s.wal.itemWritten = some wal) :
    DataInv cfg P { s with
      wal := wal
      dataFile :=
        if item.write.data = [] then s.dataFile
        else s.dataFile.push item.write } := by
  have hlog := h.log.itemWritten hthread hwal
  obtain ⟨item', -, rfl⟩ := WalFile.itemWritten_eq_some hwal
  refine h.of_log hlog ?_ rfl rfl rfl (fun _ _ hd => hd) ?_ ?_ le_rfl
  · intro c call hcall
    refine (h.calls c call hcall).mono ?_
    intro x hx
    dsimp only
    split
    · exact hx
    · exact mem_append_left _ hx
  · intro n x hx
    dsimp only
    split
    · exact hx
    · exact SyncedLog.take_push hx
  · intro x hx
    dsimp only
    split
    · exact hx
    · rwa [SyncedLog.durable_push]

end

theorem pendingData_decr_le (w : WalFile ItemId Unit) (alt alt' : Bool) :
    (w.decrPendingData alt).pendingData alt' ≤ w.pendingData alt' := by
  by_cases halt : alt' = alt
  · subst halt
    simp [WalFile.decrPendingData]
  · simp [WalFile.decrPendingData, Function.update_of_ne halt]

theorem DataInv.finishItem (h : DataInv cfg P s)
    {wal : WalFile ItemId Unit} (hwal : s.wal.finishItem = some wal) :
    DataInv cfg P
      { s with wal := wal, threadSyncStart := s.dataFile.size } := by
  have hlog := h.log.finishItem hwal
  obtain ⟨item, -, ⟨-, -, rfl⟩ | ⟨-, rfl⟩⟩ := WalFile.finishItem_eq_some hwal
  · exact h.of_log hlog h.calls rfl rfl rfl (fun _ _ hd => hd)
      (fun _ _ hx => hx) (fun _ hx => hx) le_rfl
  · exact h.of_log hlog h.calls rfl rfl rfl (fun _ _ hd => hd)
      (fun _ _ hx => hx) (fun _ hx => hx)
      (pendingData_decr_le (s.wal.releaseRefs item) _ _)

theorem DataInv.dataFileSynced (h : DataInv cfg P s)
    {wal : WalFile ItemId Unit} (hwal : s.wal.dataFileSynced = some wal) :
    DataInv cfg P { s with
      wal := wal, dataFile := s.dataFile.sync s.threadSyncStart } := by
  have hlog := h.log.dataFileSynced hwal
  obtain ⟨item, -, rfl⟩ := WalFile.dataFileSynced_eq_some hwal
  exact h.of_log hlog h.calls rfl rfl rfl (fun _ _ hd => hd)
    (fun _ _ hx => hx) (fun _ hx => SyncedLog.durable_sync_of_durable _ hx)
    le_rfl

theorem records_resetManual {w : WalFile ItemId Unit} {alt alt' : Bool}
    {d : DataWrite} (hd : d ∈ (w.resetManual alt).records alt') :
    d ∈ w.records alt' := by
  by_cases halt : alt' = alt
  · subst halt
    simp [WalFile.records, WalFile.resetManual, dataRecords] at hd
  · simpa only [WalFile.records, WalFile.resetManual,
      Function.update_of_ne halt] using hd

section

variable (h : DataInv cfg P s)

include h

theorem DataInv.finishSwitch {wal : WalFile ItemId Unit}
    (hs : s.wal.finishSwitch = some wal) :
    DataInv cfg P { s with wal := wal } := by
  have hlog := h.log.finishSwitch hs
  obtain ⟨item, -, rfl⟩ := WalFile.finishSwitch_eq_some hs
  exact h.of_log hlog h.calls rfl rfl rfl
    (fun _ _ hd => records_resetManual hd) (fun _ _ hx => hx)
    (fun _ hx => hx) (pendingData_decr_le (s.wal.resetManual item.isAlt) _ _)

/-! The commit thread. -/

theorem DataInv.of_commit
    (hlog : LogData cfg P s'.wal s'.dataFile s'.threadSyncStart)
    (hcalls : s'.calls = s.calls)
    (hentries : s'.dataFile.entries = s.dataFile.entries)
    (hlock : s'.pc.holdsWalLock cfg = true → s'.LockPhase)
    (hwait : cfg.Switches → cfg.walFile = true → s'.pc.afterWait = true →
      s'.wal.pendingData (!s'.wal.useAltFile) = 0)
    (hthreaded : s'.pc.threaded = true → cfg.walWriteThread = true) :
    DataInv cfg P s' := by
  refine ⟨hlog, ?_, hlock, hwait, hthreaded⟩
  rw [hcalls, hentries]
  exact h.calls

theorem DataInv.of_plain
    (hlog : LogData cfg P s'.wal s'.dataFile s'.threadSyncStart)
    (hcalls : s'.calls = s.calls)
    (hentries : s'.dataFile.entries = s.dataFile.entries)
    (hlock : s'.pc.holdsWalLock cfg = false) (hwait : s'.pc.afterWait = false)
    (hthreaded : s'.pc.threaded = false) : DataInv cfg P s' := by
  refine h.of_commit hlog hcalls hentries ?_ ?_ ?_
  · intro hl
    rw [hlock] at hl
    cases hl
  · intro _ _ hw
    rw [hwait] at hw
    cases hw
  · intro ht
    rw [hthreaded] at ht
    cases ht

theorem DataInv.applyWork (hpc : s.pc = .idle) (startup : Bool)
    (chain : List Work) (matched : Bool) (callbacks : List (List (ℕ × Bool)))
    (freemap : List ℕ) (logOk : Bool) :
    DataInv cfg P (s.applyWork cfg startup chain matched callbacks freemap
      logOk) := by
  cases chain with
  | nil => exact h
  | cons work linked =>
    have hidle : (s.applyWork cfg startup (work :: linked) matched callbacks
        freemap logOk).pc = .idle := hpc
    exact h.of_plain (h.log.appendItems _ _) rfl rfl (by rw [hidle]; rfl)
      (by rw [hidle]; rfl) (by rw [hidle]; rfl)

theorem DataInv.wrote_of_unthreaded (hcfg : cfg.walWriteThread = false) :
    ∀ d ∈ s.wal.records s.wal.useAltFile, Wrote s.dataFile.entries d := by
  intro d hd
  rcases h.log.written _ d hd with hw | ⟨item, hitem, -⟩
  · exact hw
  · have hnil : s.wal.thread.items ++ s.wal.dataWriteQueue = [] :=
      h.log.unused hcfg
    obtain ⟨hthread, hqueue⟩ := append_eq_nil_iff.mp hnil
    rw [WalFile.unwritten, hqueue, append_nil] at hitem
    cases ht : s.wal.thread <;> simp [ht, DataThread.items] at hthread
    simp [ht, DataThread.unwritten] at hitem

theorem DataInv.commitStep (hs : CommitStep cfg s s') :
    DataInv cfg P s' := by
  cases hs with
  | exchange | clean | walDataFailed | appendSyncFailed | walSyncFailed
  | walFinish | keepLog | switchFailed =>
    exact h.of_plain h.log rfl rfl rfl rfl rfl
  | walDataSynced hpc => exact h.of_plain (h.log.sync _) rfl rfl rfl rfl rfl
  | appendSync hpc =>
    exact h.of_plain (h.log.append (by simp)) rfl rfl rfl rfl rfl
  | walSynced hpc => exact h.of_plain (h.log.fsync _) rfl rfl rfl rfl rfl
  | startDataSync hpc hcfg =>
    refine h.of_commit h.log rfl rfl ?_ ?_ (by simp [CommitPc.threaded])
    · intro hlock d hd
      rw [SyncedLog.size, take_length]
      refine h.wrote_of_unthreaded ?_ d hd
      simp only [CommitPc.holdsWalLock, Bool.and_eq_true] at hlock
      simpa using hlock.2
    · rintro ⟨hthread, -⟩ hwal -
      simp [hthread, hwal] at hcfg
  | startWait hpc hcfg =>
    exact h.of_commit h.log rfl rfl (by simp [CommitPc.holdsWalLock])
      (by simp [CommitPc.afterWait]) fun _ => hcfg.2.1
  | startWalSync hpc hwal hcfg =>
    refine h.of_commit h.log rfl rfl (by simp [CommitPc.holdsWalLock]) ?_ ?_
    · intro hswitches _ hreset
      exact absurd (hcfg hreset).2 hswitches.2
    · intro hreset
      exact (hcfg hreset).1
  | dataSynced hpc =>
    have hlock := h.lock
    have hwait := h.wait
    simp only [LockPhase, hpc] at hlock hwait
    refine h.of_commit (h.log.sync _) rfl rfl ?_ hwait
      (by simp [CommitPc.threaded])
    intro hl _ d hd
    exact (hlock hl d hd).mono fun _ hx => SyncedLog.durable_sync_of_take hx
  | dataSyncFailed hpc | lmdbWalSyncFailed hpc =>
    have hwait := h.wait
    rw [hpc] at hwait
    refine h.of_commit h.log rfl rfl ?_ hwait (by simp [CommitPc.threaded])
    intro _ herrors
    exact absurd herrors (Nat.succ_ne_zero _)
  | waited hpc hpending =>
    have hthreaded := h.threaded
    rw [hpc] at hthreaded
    exact h.of_commit h.log rfl rfl (by simp [CommitPc.holdsWalLock])
      (fun _ _ _ => hpending) fun _ => hthreaded rfl
  | lmdbWalSynced hpc =>
    have hwait := h.wait
    have hthreaded := h.threaded
    rw [hpc] at hwait hthreaded
    refine h.of_commit (h.log.fsync _) rfl rfl ?_ hwait
      (by simp [CommitPc.threaded])
    intro hlock
    simp only [CommitPc.holdsWalLock, Bool.and_eq_true] at hlock
    simp [hthreaded hlock.1.2] at hlock
  | txnCommitted hpc herrors =>
    have hlock := h.lock
    have hwait := h.wait
    simp only [LockPhase, hpc] at hlock hwait
    exact h.of_commit h.log rfl rfl (fun hl => hlock hl herrors) hwait
      (by simp [CommitPc.threaded])
  | finish hpc =>
    have hlock := h.lock
    have hwait := h.wait
    simp only [LockPhase, hpc] at hlock hwait
    exact h.of_commit h.log rfl rfl hlock hwait
      (by simp [CommitPc.threaded])
  | resetLog hpc hwal hcfg =>
    exact h.of_plain (h.log.resetCurrent _) rfl rfl rfl rfl rfl
  | switch hpc hwal hcfg =>
    have hwait := h.wait hcfg hwal (by rw [hpc]; rfl)
    exact h.of_plain (h.log.switchFiles hcfg.1 hwait) rfl rfl rfl rfl rfl

theorem DataInv.step {e : Event} (hs : Steps cfg s e s') :
    DataInv cfg P s' := by
  cases hs with
  | writeExt hdata hroute => exact h.writeExt hdata hroute
  | markDirty => exact h.markDirty
  | pwrite hcall => exact h.pwrite hcall
  | logQueued hcall hstage hlock hroute =>
    exact h.logData (.logQueued hcall hstage hlock hroute)
  | logDirect hcall hstage hlock hroute =>
    exact h.logData (.logDirect hcall hstage hlock hroute)
  | popItem hwal => exact h.popItem hwal
  | itemWritten hthread hwal => exact h.itemWritten hthread hwal
  | finishItem hwal => exact h.finishItem hwal
  | dataFileSynced hwal => exact h.dataFileSynced hwal
  | finishSwitch hwal => exact h.finishSwitch hwal
  | processCallback hpc | processStartup hpc | processEntry hpc =>
    apply DataInv.applyWork
    · exact ⟨h.log, h.calls, h.lock, h.wait, h.threaded⟩
    · exact hpc
  | enqueue | takeCommit | skipCommit =>
    exact h.of_calls rfl rfl rfl rfl rfl h.calls
  | beginWalCommit | beginLmdbCommit | beginStartupCommit =>
    exact h.of_plain h.log rfl rfl rfl rfl rfl
  | commitStep hs => exact h.commitStep hs

end

end Store

end Hs5
