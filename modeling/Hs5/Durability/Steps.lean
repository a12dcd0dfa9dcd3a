import Hs5.Durability.System

/-!
# What each step does

The steps of a writer, the data thread and the commit thread as a relation:
when a step is enabled and which parts of the state it changes.
-/

namespace Hs5

open Option

namespace Store

variable {cfg : WalConfig} {s s' : Store}

/-- The stage after the write to the data file. -/
def afterWrite (route : Route) : Stage :=
  if route = .logged then .logging else .returned

/-! ## Commits -/

/-- The steps of a commit, each with the condition it is taken under. -/
inductive CommitStep (cfg : WalConfig) (s : Store) : Store → Prop
  | exchange {cur : ℕ} (hpc : s.pc = .walBegin cur)
      (hdirty : s.dataFileDirty = true) :
      CommitStep cfg s { s with
        dataFileDirty := false, pc := .walDataSync cur s.dataFile.size }
  | clean {cur : ℕ} (hpc : s.pc = .walBegin cur)
      (hclean : cfg.walWriteData < 0 ∨ s.dataFileDirty = false) :
      CommitStep cfg s { s with pc := .walAppendSync cur }
  | walDataSynced {cur start : ℕ} (hpc : s.pc = .walDataSync cur start) :
      CommitStep cfg s { s with
        dataFile := s.dataFile.sync start, pc := .walAppendSync cur }
  | walDataFailed {cur start : ℕ} (hpc : s.pc = .walDataSync cur start) :
      CommitStep cfg s { s with
        commitErrors := s.commitErrors + 1, pc := .walAppendSync cur }
  | appendSync {cur : ℕ} (hpc : s.pc = .walAppendSync cur) :
      CommitStep cfg s { s with
        wal := s.wal.append (.sync ())
        pc := .walSync cur (s.wal.append (.sync ())).currentFile.size }
  | appendSyncFailed {cur : ℕ} (hpc : s.pc = .walAppendSync cur) :
      CommitStep cfg s { s with
        commitErrors := s.commitErrors + 1, pc := .walFinish cur false }
  | walSynced {cur start : ℕ} (hpc : s.pc = .walSync cur start) :
      CommitStep cfg s { s with
        wal := s.wal.fsync start, pc := .walFinish cur true }
  | walSyncFailed {cur start : ℕ} (hpc : s.pc = .walSync cur start) :
      CommitStep cfg s { s with
        commitErrors := s.commitErrors + 1, pc := .walFinish cur false }
  | walFinish {cur : ℕ} {ok : Bool} (hpc : s.pc = .walFinish cur ok) :
      CommitStep cfg s
        { (s.ack (some cur) s.commitErrors).finishPendingCommits with
          commitErrors := if ok then 0 else s.commitErrors
          canSkipCommit := true
          pc := .idle }
  | startDataSync {cur : Option ℕ} {reset : Bool}
      (hpc : s.pc = .lmdbBegin cur reset)
      (hcfg : cfg.walFile = false ∨
        reset = true ∧ cfg.walWriteThread = false) :
      CommitStep cfg s { s with
        pc := .lmdbDataSync cur reset s.dataFile.size }
  | startWait {cur : Option ℕ} (hpc : s.pc = .lmdbBegin cur true)
      (hcfg : cfg.walFile = true ∧ cfg.Switches) :
      CommitStep cfg s { s with pc := .lmdbWait cur }
  | startWalSync {cur : Option ℕ} {reset : Bool}
      (hpc : s.pc = .lmdbBegin cur reset) (hwal : cfg.walFile = true)
      (hcfg : reset = true →
        cfg.walWriteThread = true ∧ cfg.walWriteData = 0) :
      CommitStep cfg s { s with
        pc := .lmdbWalSync cur reset s.wal.currentFile.size }
  | dataSynced {cur : Option ℕ} {reset : Bool} {start : ℕ}
      (hpc : s.pc = .lmdbDataSync cur reset start) :
      CommitStep cfg s { s with
        dataFile := s.dataFile.sync start, pc := .lmdbTxn cur reset }
  | dataSyncFailed {cur : Option ℕ} {reset : Bool} {start : ℕ}
      (hpc : s.pc = .lmdbDataSync cur reset start) :
      CommitStep cfg s { s with
        commitErrors := s.commitErrors + 1, pc := .lmdbTxn cur reset }
  | waited {cur : Option ℕ} (hpc : s.pc = .lmdbWait cur)
      (hpending : s.wal.pendingData (!s.wal.useAltFile) = 0) :
      CommitStep cfg s { s with
        pc := .lmdbWalSync cur true s.wal.currentFile.size }
  | lmdbWalSynced {cur : Option ℕ} {reset : Bool} {start : ℕ}
      (hpc : s.pc = .lmdbWalSync cur reset start) :
      CommitStep cfg s { s with
        wal := s.wal.fsync start, pc := .lmdbTxn cur reset }
  | lmdbWalSyncFailed {cur : Option ℕ} {reset : Bool} {start : ℕ}
      (hpc : s.pc = .lmdbWalSync cur reset start) :
      CommitStep cfg s { s with
        commitErrors := s.commitErrors + 1, pc := .lmdbTxn cur reset }
  | txnCommitted {cur : Option ℕ} {reset : Bool}
      (hpc : s.pc = .lmdbTxn cur reset) (herrors : s.commitErrors = 0) :
      CommitStep cfg s { s with
        committed := s.committed ++ s.openTxn
        openTxn := []
        pc := .lmdbFinish cur reset }
  | finish {cur : Option ℕ} {reset : Bool}
      (hpc : s.pc = .lmdbFinish cur reset) : CommitStep cfg s
        { (s.ack cur s.commitErrors).finishPendingCommits with
          prevTransid := s.currTransid
          currTransid := s.currTransid + 1
          pc := .lmdbReset reset }
  | keepLog {reset : Bool} (hpc : s.pc = .lmdbReset reset)
      (hcfg : cfg.walFile = false ∨ reset = false) :
      CommitStep cfg s { s with canSkipCommit := true, pc := .idle }
  | resetLog (hpc : s.pc = .lmdbReset true) (hwal : cfg.walFile = true)
      (hcfg : cfg.walWriteThread = false ∨ cfg.walWriteData = 0) :
      CommitStep cfg s { s with
        wal := s.wal.resetCurrent (cfg.walWriteData ≠ 0)
        canSkipCommit := true
        pc := .idle }
  | switch (hpc : s.pc = .lmdbReset true) (hwal : cfg.walFile = true)
      (hcfg : cfg.Switches) :
      CommitStep cfg s { s with
        wal := s.wal.switchFiles, canSkipCommit := true, pc := .idle }
  | switchFailed (hpc : s.pc = .lmdbReset true) (hwal : cfg.walFile = true)
      (hcfg : cfg.Switches) :
      CommitStep cfg s { s with
        commitErrors := s.commitErrors + 1
        canSkipCommit := true
        pc := .idle }

theorem commitStep_walBegin {cur : ℕ} {ok : Bool} (hpc : s.pc = .walBegin cur)
    (h : s.commitStep cfg ok = some s') : CommitStep cfg s s' := by
  simp only [commitStep, hpc] at h
  split at h
  · rename_i hdirty
    cases h
    exact .exchange hpc hdirty.2
  · rename_i hclean
    cases h
    refine .clean hpc ?_
    rw [not_and_or, not_le, Bool.not_eq_true] at hclean
    exact hclean

theorem commitStep_walAppendSync {cur : ℕ} {ok : Bool}
    (hpc : s.pc = .walAppendSync cur)
    (h : s.commitStep cfg ok = some s') : CommitStep cfg s s' := by
  cases ok
  all_goals
    simp only [commitStep, hpc] at h
    cases h
  · exact .appendSyncFailed hpc
  · exact .appendSync hpc

theorem commitStep_lmdbBegin {cur : Option ℕ} {reset ok : Bool}
    (hpc : s.pc = .lmdbBegin cur reset)
    (h : s.commitStep cfg ok = some s') : CommitStep cfg s s' := by
  simp only [commitStep, hpc] at h
  split at h
  · rename_i hcfg
    cases h
    refine .startDataSync hpc ?_
    simpa using hcfg
  · rename_i hcfg
    simp only [Bool.or_eq_true, not_or] at hcfg
    have hwal : cfg.walFile = true := by simpa using hcfg.1
    split at h
    · rename_i hswitch
      cases h
      simp only [Bool.and_eq_true, decide_eq_true_eq] at hswitch
      obtain ⟨⟨rfl, hthread⟩, hdata⟩ := hswitch
      exact .startWait hpc ⟨hwal, hthread, hdata⟩
    · rename_i hswitch
      cases h
      refine .startWalSync hpc hwal ?_
      rintro rfl
      have hthread : cfg.walWriteThread = true := by simpa using hcfg.2
      exact ⟨hthread, by simpa [hthread] using hswitch⟩

theorem commitStep_lmdbReset {reset ok : Bool} (hpc : s.pc = .lmdbReset reset)
    (h : s.commitStep cfg ok = some s') : CommitStep cfg s s' := by
  simp only [commitStep, hpc] at h
  split at h
  · rename_i hreset
    obtain ⟨hwal, rfl⟩ : cfg.walFile = true ∧ reset = true := by
      simpa using hreset
    split at h
    · rename_i hcfg
      cases h
      exact .resetLog hpc hwal (by simpa using hcfg)
    · rename_i hcfg
      have hswitches : cfg.Switches := by
        simpa [WalConfig.Switches] using hcfg
      cases ok
      all_goals cases h
      · exact .switchFailed hpc hwal hswitches
      · exact .switch hpc hwal hswitches
  · rename_i hreset
    cases h
    refine .keepLog hpc ?_
    cases hwal : cfg.walFile
    · exact .inl rfl
    · exact .inr (by simpa [hwal] using hreset)

theorem commitStep_cases {ok : Bool} (h : s.commitStep cfg ok = some s') :
    CommitStep cfg s s' := by
  cases hpc : s.pc with
  | idle => simp [commitStep, hpc] at h
  | walBegin cur => exact commitStep_walBegin hpc h
  | walAppendSync cur => exact commitStep_walAppendSync hpc h
  | lmdbBegin cur reset => exact commitStep_lmdbBegin hpc h
  | lmdbReset reset => exact commitStep_lmdbReset hpc h
  | walDataSync cur start =>
    simp only [commitStep, hpc, Option.some.injEq] at h
    subst h
    cases ok
    · exact .walDataFailed hpc
    · exact .walDataSynced hpc
  | walSync cur start =>
    simp only [commitStep, hpc, Option.some.injEq] at h
    subst h
    cases ok
    · exact .walSyncFailed hpc
    · exact .walSynced hpc
  | walFinish cur ok' =>
    simp only [commitStep, hpc, Option.some.injEq] at h
    subst h
    exact .walFinish hpc
  | lmdbDataSync cur reset start =>
    simp only [commitStep, hpc, Option.some.injEq] at h
    subst h
    cases ok
    · exact .dataSyncFailed hpc
    · exact .dataSynced hpc
  | lmdbWalSync cur reset start =>
    simp only [commitStep, hpc, Option.some.injEq] at h
    subst h
    cases ok
    · exact .lmdbWalSyncFailed hpc
    · exact .lmdbWalSynced hpc
  | lmdbWait cur =>
    simp only [commitStep, hpc] at h
    obtain ⟨hpending, h⟩ := ite_none_right_eq_some.mp h
    cases h
    exact .waited hpc hpending
  | lmdbTxn cur reset =>
    simp only [commitStep, hpc] at h
    obtain ⟨hok, h⟩ := ite_none_right_eq_some.mp h
    cases h
    exact .txnCommitted hpc hok.1
  | lmdbFinish cur reset =>
    simp only [commitStep, hpc, Option.some.injEq] at h
    subst h
    exact .finish hpc

/-! ## All steps -/

/-- The steps of the store, each with the condition it is taken under. -/
inductive Steps (cfg : WalConfig) (s : Store) : Event → Store → Prop
  | writeExt {off : ℕ} {data : Bytes} {completeObj : Bool} {route : Route}
      (hdata : data ≠ []) (hroute : route = cfg.route data.length completeObj
        (s.wal.isDirty off data.length)) :
      Steps cfg s (.writeExt off data completeObj) { s with
        calls := s.calls ++ [⟨off, data, route, cfg.firstStage route⟩] }
  | markDirty {c : ℕ} {call : Call} (hcall : s.calls[c]? = some call)
      (hstage : call.stage = .marking) : Steps cfg s (.markDirty c)
        { s.setStage c .writing with dataFileDirty := true }
  | pwrite {c : ℕ} {call : Call} (hcall : s.calls[c]? = some call)
      (hstage : call.stage = .writing) :
      Steps cfg s (.pwrite c) { s.setStage c (afterWrite call.route) with
        dataFile := s.dataFile.push
          ⟨some c, call.off, fillPage call.off call.data⟩ }
  | logQueued {c : ℕ} {call : Call} (hcall : s.calls[c]? = some call)
      (hstage : call.stage = .logging)
      (hlock : s.pc.holdsWalLock cfg = false) (hroute : call.route = .queued) :
      Steps cfg s (.logData c) { s.setStage c .returned with
        wal := s.wal.writeDataQueued (call.write c) }
  | logDirect {c : ℕ} {call : Call} (hcall : s.calls[c]? = some call)
      (hstage : call.stage = .logging)
      (hlock : s.pc.holdsWalLock cfg = false) (hroute : call.route ≠ .queued) :
      Steps cfg s (.logData c) { s.setStage c .returned with
        wal := s.wal.writeDataDirect (call.write c) }
  | enqueue {entry : Entry} (hcalls : ∀ c ∈ entry.calls,
        ∃ call, s.calls[c]? = some call ∧ call.stage = .returned) :
      Steps cfg s (.enqueue entry)
        { s with enqueued := s.enqueued ++ [entry] }
  | popItem {wal : WalFile ItemId Unit} (hwal : s.wal.popItem = some wal) :
      Steps cfg s .popItem { s with wal := wal }
  | itemWritten {item : DataItem} {wal : WalFile ItemId Unit}
      (hthread : s.wal.thread = .popped item)
      (hwal : s.wal.itemWritten = some wal) :
      Steps cfg s .itemWritten { s with
        wal := wal
        dataFile :=
          if item.write.data = [] then s.dataFile
          else s.dataFile.push item.write }
  | finishItem {wal : WalFile ItemId Unit}
      (hwal : s.wal.finishItem = some wal) : Steps cfg s .finishItem
        { s with wal := wal, threadSyncStart := s.dataFile.size }
  | dataFileSynced {wal : WalFile ItemId Unit}
      (hwal : s.wal.dataFileSynced = some wal) :
      Steps cfg s .dataFileSynced { s with
        wal := wal, dataFile := s.dataFile.sync s.threadSyncStart }
  | finishSwitch {wal : WalFile ItemId Unit}
      (hwal : s.wal.finishSwitch = some wal) :
      Steps cfg s .finishSwitch { s with wal := wal }
  | processCallback {matched logOk : Bool}
      {callbacks : List (List (ℕ × Bool))} {freemap : List ℕ}
      {chain : List Work} {rest : List (List Work)} (hpc : s.pc = .idle)
      (hqueue : s.callbackQueue = chain :: rest) :
      Steps cfg s (.process matched callbacks freemap logOk)
        (applyWork cfg { s with callbackQueue := rest } false chain
          matched callbacks freemap logOk)
  | processStartup {matched logOk : Bool}
      {callbacks : List (List (ℕ × Bool))} {freemap : List ℕ} {id : ℕ}
      {rest : List ℕ} (hpc : s.pc = .idle) (hqueue : s.callbackQueue = [])
      (hstartup : s.startup = id :: rest) :
      Steps cfg s (.process matched callbacks freemap logOk)
        (applyWork cfg { s with startup := rest } true
          [⟨.recovered id, false⟩] matched callbacks freemap logOk)
  | processEntry {matched logOk : Bool}
      {callbacks : List (List (ℕ × Bool))} {freemap : List ℕ}
      {chain : List Item} (hpc : s.pc = .idle) (hqueue : s.callbackQueue = [])
      (hentry : s.enqueued[s.popped]? = some (.items chain)) :
      Steps cfg s (.process matched callbacks freemap logOk)
        (applyWork cfg { s with popped := s.popped + 1 } false
          (workOf s.popped chain) matched callbacks freemap logOk)
  | takeCommit {kind : CommitKind} (hpc : s.pc = .idle)
      (hqueue : s.callbackQueue = []) (hnil : s.startup = [])
      (hentry : s.enqueued[s.popped]? = some (.commit kind)) :
      Steps cfg s .takeCommit { s with
        popped := s.popped + 1
        pendingCommits := s.pendingCommits ++ [s.popped] }
  | skipCommit {walFull : Bool} {cur : ℕ} {rest : List ℕ}
      (hpc : s.pc = .idle) (hqueue : s.callbackQueue = [])
      (hpending : s.pendingCommits = cur :: rest) (herrors : s.commitErrors = 0)
      (hskip : s.canSkipCommit = true ∧ s.commitKind cur = .plain) :
      Steps cfg s (.beginCommit walFull)
        (({ s with pendingCommits := rest } : Store).ack
          (some cur) 0).finishPendingCommits
  | beginWalCommit {walFull : Bool} {cur : ℕ} {rest : List ℕ}
      (hpc : s.pc = .idle) (hqueue : s.callbackQueue = [])
      (hpending : s.pendingCommits = cur :: rest)
      (hmeta : cfg.walWriteMeta = true) (hwal : cfg.walFile = true) :
      Steps cfg s (.beginCommit walFull)
        { s with pendingCommits := rest, pc := .walBegin cur }
  | beginLmdbCommit {walFull reset : Bool} {cur : ℕ} {rest : List ℕ}
      (hpc : s.pc = .idle) (hqueue : s.callbackQueue = [])
      (hpending : s.pendingCommits = cur :: rest) :
      Steps cfg s (.beginCommit walFull)
        { s with pendingCommits := rest, pc := .lmdbBegin (some cur) reset }
  | beginStartupCommit (hpc : s.pc = .idle) (hqueue : s.callbackQueue = [])
      (hnil : s.startup = []) : Steps cfg s .beginStartupCommit
        { s with startupCommit := false, pc := .lmdbBegin none true }
  | commitStep {ok : Bool} {s' : Store} (h : CommitStep cfg s s') :
      Steps cfg s (.commitStep ok) s'

theorem logData_steps {c : ℕ} (h : s.logData cfg c = some s') :
    Steps cfg s (.logData c) s' := by
  obtain ⟨call, hcall, h⟩ := bind_eq_some_iff.mp h
  split at h
  · rename_i hstage
    by_cases hroute : call.route = .queued
    · simp only [if_pos hroute] at h
      cases h
      exact .logQueued hcall hstage.1 hstage.2 hroute
    · simp only [if_neg hroute] at h
      cases h
      exact .logDirect hcall hstage.1 hstage.2 hroute
  · cases h

theorem enqueue_steps {entry : Entry} (h : s.enqueue entry = some s') :
    Steps cfg s (.enqueue entry) s' := by
  obtain ⟨hcalls, h⟩ := ite_none_right_eq_some.mp h
  cases h
  refine .enqueue ?_
  intro c hc
  obtain ⟨call, hcall, hstage⟩ := (any_eq_true _ _).mp (hcalls c hc)
  exact ⟨call, hcall, of_decide_eq_true hstage⟩

theorem process_steps {matched logOk : Bool}
    {callbacks : List (List (ℕ × Bool))} {freemap : List ℕ}
    (h : s.process cfg matched callbacks freemap logOk = some s') :
    Steps cfg s (.process matched callbacks freemap logOk) s' := by
  obtain ⟨⟨hpc, -⟩, h⟩ := ite_none_right_eq_some.mp h
  split at h
  · rename_i chain rest hqueue
    cases h
    exact .processCallback hpc hqueue
  · rename_i id rest hqueue hstartup
    cases h
    exact .processStartup hpc hqueue hstartup
  · rename_i hqueue hstartup
    split at h
    · rename_i chain hcommit hentry
      cases h
      exact .processEntry hpc hqueue hentry
    · cases h

theorem takeCommit_steps (h : s.takeCommit = some s') :
    Steps cfg s .takeCommit s' := by
  obtain ⟨⟨⟨hpc, -⟩, hqueue, hnil⟩, h⟩ := ite_none_right_eq_some.mp h
  split at h
  · rename_i kind _ hentry
    cases h
    exact .takeCommit hpc hqueue hnil hentry
  · cases h

theorem beginCommit_steps {walFull : Bool}
    (h : s.beginCommit cfg walFull = some s') :
    Steps cfg s (.beginCommit walFull) s' := by
  obtain ⟨⟨⟨hpc, herrors⟩, hqueue⟩, h⟩ := ite_none_right_eq_some.mp h
  split at h
  · rename_i cur rest hpending
    dsimp only at h
    split at h
    · rename_i hskip
      cases h
      exact .skipCommit hpc hqueue hpending herrors hskip
    · split at h
      · rename_i hwal
        cases h
        exact .beginWalCommit hpc hqueue hpending hwal.1 hwal.2.2.1
      · cases h
        exact .beginLmdbCommit hpc hqueue hpending
  · cases h

theorem step_steps {e : Event} (h : s.step cfg e = some s') :
    Steps cfg s e s' := by
  cases e with
  | writeExt off data completeObj =>
    obtain ⟨hdata, h⟩ := ite_none_left_eq_some.mp h
    cases h
    exact .writeExt hdata rfl
  | markDirty c =>
    obtain ⟨call, hcall, h⟩ := bind_eq_some_iff.mp h
    obtain ⟨hstage, h⟩ := ite_none_right_eq_some.mp h
    cases h
    exact .markDirty hcall hstage
  | pwrite c =>
    obtain ⟨call, hcall, h⟩ := bind_eq_some_iff.mp h
    obtain ⟨hstage, h⟩ := ite_none_right_eq_some.mp h
    cases h
    exact .pwrite hcall hstage
  | logData c => exact logData_steps h
  | enqueue entry => exact enqueue_steps h
  | popItem =>
    obtain ⟨wal, hwal, rfl⟩ := map_eq_some_iff.mp h
    exact .popItem hwal
  | itemWritten =>
    obtain ⟨wal, hwal, h⟩ := bind_eq_some_iff.mp h
    obtain ⟨item, hthread, -⟩ := WalFile.itemWritten_eq_some hwal
    rw [hthread] at h
    cases h
    exact .itemWritten hthread hwal
  | finishItem =>
    obtain ⟨wal, hwal, h⟩ := bind_eq_some_iff.mp h
    cases h
    exact .finishItem hwal
  | dataFileSynced =>
    obtain ⟨wal, hwal, h⟩ := bind_eq_some_iff.mp h
    cases h
    exact .dataFileSynced hwal
  | finishSwitch =>
    obtain ⟨wal, hwal, rfl⟩ := map_eq_some_iff.mp h
    exact .finishSwitch hwal
  | process matched callbacks freemap logOk => exact process_steps h
  | takeCommit => exact takeCommit_steps h
  | beginCommit walFull => exact beginCommit_steps h
  | beginStartupCommit =>
    obtain ⟨hidle, h⟩ := ite_none_right_eq_some.mp h
    cases h
    exact .beginStartupCommit hidle.1.1 hidle.2.1 hidle.2.2.1
  | commitStep ok => exact .commitStep (commitStep_cases h)

end Store

end Hs5
