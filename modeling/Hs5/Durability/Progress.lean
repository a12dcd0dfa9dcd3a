import Hs5.Durability.Steps

/-!
# What every step keeps

Whatever step is taken, the data file only gains writes and syncs, items
leave the index or the list of dropped items never, calls only move on, and a
log file keeps its records unless it is truncated in one of three places.
-/

namespace Hs5

open List

/-! ## Files of the log -/

namespace WalFile

variable {ι γ : Type}

theorem extends_append (w : WalFile ι γ) (p : WalPayload ι γ) (alt : Bool) :
    (w.files alt).Extends ((w.append p).files alt) := by
  by_cases halt : alt = w.useAltFile
  · subst halt
    rw [append_files_self]
    exact SyncedLog.extends_push _ _
  · obtain rfl : alt = !w.useAltFile := Bool.eq_not.mpr halt
    rw [append_files_not]
    exact SyncedLog.Extends.refl _

theorem extends_fsync (w : WalFile ι γ) (n : ℕ) (alt : Bool) :
    (w.files alt).Extends ((w.fsync n).files alt) := by
  by_cases halt : alt = w.useAltFile
  · subst halt
    rw [fsync_files_self]
    exact SyncedLog.extends_sync _ _
  · obtain rfl : alt = !w.useAltFile := Bool.eq_not.mpr halt
    rw [fsync_files_not]
    exact SyncedLog.Extends.refl _

/-- The log has grown: the file in use has more records or a longer synced
part, the other one is as it was. -/
structure Grown (w w' : WalFile ι γ) : Prop where
  useAltFile : w'.useAltFile = w.useAltFile
  files : ∀ alt, (w.files alt).Extends (w'.files alt)
  other : w'.files (!w.useAltFile) = w.files (!w.useAltFile)

theorem Grown.of_files {w w' : WalFile ι γ} (hfiles : w'.files = w.files)
    (hused : w'.useAltFile = w.useAltFile) : Grown w w' :=
  ⟨hused, fun alt => by rw [hfiles]; exact .refl _, by rw [hfiles]⟩

theorem grown_append (w : WalFile ι γ) (p : WalPayload ι γ) :
    Grown w (w.append p) :=
  ⟨rfl, w.extends_append p, w.append_files_not p⟩

theorem grown_fsync (w : WalFile ι γ) (n : ℕ) : Grown w (w.fsync n) :=
  ⟨rfl, w.extends_fsync n, w.fsync_files_not n⟩

theorem Grown.fsync {w w' : WalFile ι γ} (h : Grown w w') (n : ℕ)
    (alt : Bool) : ((w.fsync n).files alt).Extends ((w'.fsync n).files alt) := by
  by_cases halt : alt = w.useAltFile
  · subst halt
    rw [fsync_files_self, ← h.useAltFile, fsync_files_self]
    have hself := h.files w.useAltFile
    rw [← h.useAltFile] at hself
    simpa only [currentFile, h.useAltFile] using hself.sync n
  · obtain rfl : alt = !w.useAltFile := Bool.eq_not.mpr halt
    rw [fsync_files_not, ← h.useAltFile, fsync_files_not, h.useAltFile]
    exact h.files _

theorem grown_appendItems (w : WalFile ι γ) (transid : ℤ) (items : List ι) :
    Grown w (w.appendItems transid items) := by
  induction items generalizing w with
  | nil => exact .of_files rfl rfl
  | cons item rest ih =>
    have hfirst := w.grown_append (.fragInfo transid item)
    have hrest := ih (w.append (.fragInfo transid item))
    exact ⟨hrest.useAltFile, fun alt => (hfirst.files alt).trans
      (hrest.files alt), hrest.other.trans hfirst.other⟩

end WalFile

namespace Store

variable {cfg : WalConfig} {s s' : Store}

inductive LogChange (cfg : WalConfig) (s s' : Store) : Prop
  | grow (h : WalFile.Grown s.wal s'.wal)
  | dataThread {item : DataItem} (hthread : s.wal.thread = .synced item)
      (hused : s'.wal.useAltFile = s.wal.useAltFile)
      (hkept : ∀ alt, alt ≠ item.isAlt → s'.wal.files alt = s.wal.files alt)
  | reset (hpc : s.pc = .lmdbReset true) (hwal : cfg.walFile = true)
      (hcfg : cfg.walWriteThread = false ∨ cfg.walWriteData = 0)
      (hused : s'.wal.useAltFile = s.wal.useAltFile)
      (hother : s'.wal.files (!s.wal.useAltFile) =
        s.wal.files (!s.wal.useAltFile))
  | switch (hpc : s.pc = .lmdbReset true) (hwal : cfg.walFile = true)
      (hcfg : cfg.Switches) (hused : s'.wal.useAltFile = !s.wal.useAltFile)
      (hleft : s'.wal.files s.wal.useAltFile =
        s.wal.currentFile.sync s.wal.currentFile.size)

theorem LogChange.of_wal (h : s'.wal = s.wal) : LogChange cfg s s' :=
  .grow (.of_files (by rw [h]) (by rw [h]))

theorem logChange_commitStep (hs : CommitStep cfg s s') :
    LogChange cfg s s' := by
  cases hs with
  | appendSync hpc => exact .grow (s.wal.grown_append _)
  | walSynced hpc | lmdbWalSynced hpc => exact .grow (s.wal.grown_fsync _)
  | resetLog hpc hwal hcfg =>
    exact .reset hpc hwal hcfg rfl (s.wal.resetCurrent_files_not _)
  | switch hpc hwal hcfg =>
    exact .switch hpc hwal hcfg rfl s.wal.switchFiles_files_self
  | _ => exact .of_wal rfl

theorem wal_applyWork (startup : Bool) (chain : List Work) (matched : Bool)
    (callbacks : List (List (ℕ × Bool))) (freemap : List ℕ) (logOk : Bool) :
    ∃ items, (s.applyWork cfg startup chain matched callbacks freemap
      logOk).wal = s.wal.appendItems s.prevTransid items := by
  cases chain with
  | nil => exact ⟨[], rfl⟩
  | cons work linked => exact ⟨_, rfl⟩

theorem logChange_step {e : Event} (hs : Steps cfg s e s') :
    LogChange cfg s s' := by
  cases hs with
  | @logQueued c call =>
    have h := s.wal.grown_append (.dataFileData (call.write c))
    exact .grow ⟨h.useAltFile, h.files, h.other⟩
  | logDirect => exact .grow (s.wal.grown_append _)
  | popItem hwal =>
    obtain ⟨item, queue, -, -, rfl⟩ := WalFile.popItem_eq_some hwal
    exact .grow (.of_files rfl rfl)
  | itemWritten _ hwal =>
    obtain ⟨_, -, rfl⟩ := WalFile.itemWritten_eq_some hwal
    exact .grow (.of_files rfl rfl)
  | finishItem hwal =>
    obtain ⟨item, -, ⟨-, -, rfl⟩ | ⟨-, rfl⟩⟩ := WalFile.finishItem_eq_some hwal
    · exact .grow (.of_files rfl rfl)
    · exact .grow (.of_files rfl rfl)
  | dataFileSynced hwal =>
    obtain ⟨item, -, rfl⟩ := WalFile.dataFileSynced_eq_some hwal
    exact .grow (.of_files rfl rfl)
  | finishSwitch hwal =>
    obtain ⟨item, hthread, rfl⟩ := WalFile.finishSwitch_eq_some hwal
    refine .dataThread hthread rfl ?_
    intro alt halt
    exact Function.update_of_ne halt _ _
  | processCallback | processStartup | processEntry =>
    refine .grow ?_
    obtain ⟨items, hitems⟩ := wal_applyWork _ _ _ _ _ _
    rw [hitems]
    exact s.wal.grown_appendItems _ items
  | commitStep hs => exact logChange_commitStep hs
  | _ => exact .of_wal rfl

end Store

/-! ## Steps of a commit -/

def CommitPc.cur : CommitPc → Option ℕ
  | .walBegin cur | .walDataSync cur _ | .walAppendSync cur | .walSync cur _
  | .walFinish cur _ => some cur
  | .lmdbBegin cur _ | .lmdbDataSync cur _ _ | .lmdbWait cur
  | .lmdbWalSync cur _ _ | .lmdbTxn cur _ | .lmdbFinish cur _ => cur
  | .idle | .lmdbReset _ => none

def CommitPc.acks : CommitPc → Bool
  | .walFinish _ _ | .lmdbFinish _ _ => true
  | _ => false

namespace Store

variable {cfg : WalConfig} {s s' : Store}

structure CommitFrame (s s' : Store) : Prop where
  busy : s.pc ≠ .idle
  data : s.dataFile.Extends s'.dataFile
  calls : s'.calls = s.calls
  enqueued : s'.enqueued = s.enqueued
  popped : s'.popped = s.popped
  callbackQueue : s'.callbackQueue = s.callbackQueue
  dropped : s'.dropped = s.dropped
  pending : ∀ cur ∈ s'.pendingCommits, cur ∈ s.pendingCommits
  cur : ∀ cur ∈ s'.pc.cur, cur ∈ s.pc.cur
  items : s'.committed = s.committed ∧ s'.openTxn = s.openTxn ∨
    s'.committed = s.committed ++ s.openTxn ∧ s'.openTxn = []
  acks : ∀ a ∈ s'.acks, a ∈ s.acks ∨ s.pc.acks = true ∧
    a.errors = s.commitErrors ∧
      (a.commit ∈ s.pc.cur ∨ a.commit ∈ s.pendingCommits)

theorem CommitFrame.silent (hbusy : s.pc ≠ .idle)
    (hdata : s.dataFile.Extends s'.dataFile) (hcalls : s'.calls = s.calls)
    (henqueued : s'.enqueued = s.enqueued) (hpopped : s'.popped = s.popped)
    (hqueue : s'.callbackQueue = s.callbackQueue)
    (hdropped : s'.dropped = s.dropped)
    (hpending : s'.pendingCommits = s.pendingCommits)
    (hcur : ∀ cur ∈ s'.pc.cur, cur ∈ s.pc.cur)
    (hcommitted : s'.committed = s.committed) (hopen : s'.openTxn = s.openTxn)
    (hacks : s'.acks = s.acks) : CommitFrame s s' :=
  ⟨hbusy, hdata, hcalls, henqueued, hpopped, hqueue, hdropped,
    fun _ h => hpending ▸ h, hcur, .inl ⟨hcommitted, hopen⟩,
    fun _ h => .inl (hacks ▸ h)⟩

theorem acks_finish {cur : Option ℕ} {a : Ack}
    (h : a ∈ (s.ack cur s.commitErrors).finishPendingCommits.acks) :
    a ∈ s.acks ∨ a.errors = s.commitErrors ∧
      (a.commit ∈ cur ∨ a.commit ∈ s.pendingCommits) := by
  simp only [finishPendingCommits, ack, mem_append, mem_map] at h
  rcases h with (h | ⟨c, hc, rfl⟩) | ⟨c, hc, rfl⟩
  · exact .inl h
  · exact .inr ⟨rfl, .inl (Option.mem_toList.mp hc)⟩
  · exact .inr ⟨rfl, .inr hc⟩

theorem CommitFrame.finish (hacksPc : s.pc.acks = true)
    (hdata : s'.dataFile = s.dataFile) (hcalls : s'.calls = s.calls)
    (henqueued : s'.enqueued = s.enqueued) (hpopped : s'.popped = s.popped)
    (hqueue : s'.callbackQueue = s.callbackQueue)
    (hdropped : s'.dropped = s.dropped) (hpending : s'.pendingCommits = [])
    (hcur : s'.pc.cur = none) (hcommitted : s'.committed = s.committed)
    (hopen : s'.openTxn = s.openTxn)
    (hacks : s'.acks =
      (s.ack s.pc.cur s.commitErrors).finishPendingCommits.acks) :
    CommitFrame s s' := by
  refine ⟨?_, hdata ▸ .refl _, hcalls, henqueued, hpopped, hqueue, hdropped,
    ?_, ?_, .inl ⟨hcommitted, hopen⟩, ?_⟩
  · intro hidle
    rw [hidle] at hacksPc
    cases hacksPc
  · intro cur hmem
    rw [hpending] at hmem
    cases hmem
  · intro cur hmem
    rw [hcur] at hmem
    cases hmem
  · intro a ha
    rw [hacks] at ha
    exact (acks_finish ha).imp_right fun h => ⟨hacksPc, h⟩

theorem commitFrame_commitStep (hs : CommitStep cfg s s') :
    CommitFrame s s' := by
  cases hs with
  | walFinish hpc | finish hpc =>
    refine .finish (by rw [hpc]; rfl) rfl rfl rfl rfl rfl rfl rfl rfl rfl rfl ?_
    rw [hpc]
    rfl
  | txnCommitted hpc =>
    exact ⟨by rw [hpc]; simp, .refl _, rfl, rfl, rfl, rfl, rfl,
      fun _ h => h, by rw [hpc]; exact fun _ h => h, .inr ⟨rfl, rfl⟩,
      fun _ h => .inl h⟩
  | walDataSynced hpc | dataSynced hpc =>
    exact .silent (by rw [hpc]; simp) (s.dataFile.extends_sync _) rfl rfl rfl
      rfl rfl rfl (by rw [hpc]; exact fun _ h => h) rfl rfl rfl
  | keepLog hpc | resetLog hpc | switch hpc | switchFailed hpc =>
    exact .silent (by rw [hpc]; simp) (.refl _) rfl rfl rfl rfl rfl rfl
      (fun _ h => by cases h) rfl rfl rfl
  | exchange hpc | clean hpc | walDataFailed hpc | appendSync hpc
  | appendSyncFailed hpc | walSynced hpc | walSyncFailed hpc
  | startDataSync hpc | startWait hpc | startWalSync hpc | dataSyncFailed hpc
  | waited hpc | lmdbWalSynced hpc | lmdbWalSyncFailed hpc =>
    exact .silent (by rw [hpc]; simp) (.refl _) rfl rfl rfl rfl rfl rfl
      (by rw [hpc]; exact fun _ h => h) rfl rfl rfl

/-! ## Steps of the other threads -/

/-- The steps of the writers' calls and of the data thread. -/
def Event.background : Event → Bool
  | .writeExt _ _ _ | .markDirty _ | .pwrite _ | .logData _ | .popItem
  | .itemWritten | .finishItem | .dataFileSynced | .finishSwitch => true
  | _ => false

/-- The commit thread, its queues and the index are as before. -/
structure SameCommit (s s' : Store) : Prop where
  startup : s'.startup = s.startup
  enqueued : s'.enqueued = s.enqueued
  popped : s'.popped = s.popped
  callbackQueue : s'.callbackQueue = s.callbackQueue
  pendingCommits : s'.pendingCommits = s.pendingCommits
  openTxn : s'.openTxn = s.openTxn
  committed : s'.committed = s.committed
  dropped : s'.dropped = s.dropped
  pc : s'.pc = s.pc
  commitErrors : s'.commitErrors = s.commitErrors
  canSkipCommit : s'.canSkipCommit = s.canSkipCommit
  acks : s'.acks = s.acks
  useAltFile : s'.wal.useAltFile = s.wal.useAltFile

theorem sameCommit_step {e : Event} (he : e.background = true)
    (hs : Steps cfg s e s') : SameCommit s s' := by
  cases hs with
  | writeExt | markDirty | pwrite | logQueued | logDirect =>
    constructor <;> rfl
  | popItem hwal =>
    obtain ⟨item, queue, -, -, rfl⟩ := WalFile.popItem_eq_some hwal
    constructor <;> rfl
  | itemWritten _ hwal =>
    obtain ⟨_, -, rfl⟩ := WalFile.itemWritten_eq_some hwal
    constructor <;> rfl
  | finishItem hwal =>
    obtain ⟨item, -, ⟨-, -, rfl⟩ | ⟨-, rfl⟩⟩ := WalFile.finishItem_eq_some hwal
    all_goals constructor <;> rfl
  | dataFileSynced hwal =>
    obtain ⟨item, -, rfl⟩ := WalFile.dataFileSynced_eq_some hwal
    constructor <;> rfl
  | finishSwitch hwal =>
    obtain ⟨item, -, rfl⟩ := WalFile.finishSwitch_eq_some hwal
    constructor <;> rfl
  | _ => cases he

end Store

structure Call.Later (call call' : Call) : Prop where
  off : call'.off = call.off
  data : call'.data = call.data
  route : call'.route = call.route
  returned : call.stage = .returned → call'.stage = .returned

theorem Call.Later.refl (call : Call) : call.Later call := ⟨rfl, rfl, rfl, id⟩

theorem Call.Later.write {call call' : Call} (h : call.Later call') (c : ℕ) :
    call'.write c = call.write c := by
  rw [Call.write, Call.write, h.off, h.data]

namespace Store

variable {cfg : WalConfig} {s s' : Store}

structure Grows (s s' : Store) : Prop where
  data : s.dataFile.Extends s'.dataFile
  calls : ∀ (c : ℕ) (call : Call), s.calls[c]? = some call →
    ∃ call', s'.calls[c]? = some call' ∧ call.Later call'
  enqueued : s.enqueued <+: s'.enqueued
  popped : s.popped ≤ s'.popped
  committed : ∀ item ∈ s.committed, item ∈ s'.committed
  dropped : ∀ item ∈ s.dropped, item ∈ s'.dropped

theorem Grows.entry (h : Grows s s') {k : ℕ} (hk : k < s.enqueued.length) :
    s'.enqueued[k]? = s.enqueued[k]? := by
  obtain ⟨rest, hrest⟩ := h.enqueued
  rw [← hrest, getElem?_append_left hk]

theorem Grows.of_thread (hdata : s.dataFile.Extends s'.dataFile)
    (hcalls : s'.calls = s.calls) (henqueued : s'.enqueued = s.enqueued)
    (hpopped : s.popped ≤ s'.popped)
    (hcommitted : ∀ item ∈ s.committed, item ∈ s'.committed)
    (hdropped : ∀ item ∈ s.dropped, item ∈ s'.dropped) : Grows s s' :=
  ⟨hdata, fun _ call h => ⟨call, hcalls ▸ h, .refl call⟩,
    henqueued ▸ prefix_refl _, hpopped, hcommitted, hdropped⟩

theorem Grows.of_writer (hdata : s.dataFile.Extends s'.dataFile)
    (hcalls : ∀ (c : ℕ) (call : Call), s.calls[c]? = some call →
      ∃ call', s'.calls[c]? = some call' ∧ call.Later call')
    (henqueued : s'.enqueued = s.enqueued) (hpopped : s'.popped = s.popped)
    (hcommitted : s'.committed = s.committed)
    (hdropped : s'.dropped = s.dropped) : Grows s s' :=
  ⟨hdata, hcalls, henqueued ▸ prefix_refl _, hpopped.ge,
    fun _ h => hcommitted ▸ h, fun _ h => hdropped ▸ h⟩

theorem later_setStage {c : ℕ} {stage : Stage} {call : Call}
    (hcall : s.calls[c]? = some call) (hstage : call.stage ≠ .returned)
    (i : ℕ) (call' : Call) (h : s.calls[i]? = some call') :
    ∃ call'', (s.setStage c stage).calls[i]? = some call'' ∧
      call'.Later call'' := by
  by_cases hi : c = i
  · subst hi
    obtain rfl : call = call' := by
      rw [hcall] at h
      exact Option.some.inj h
    refine ⟨{ call with stage := stage }, ?_, rfl, rfl, rfl, ?_⟩
    · simp [setStage, hcall]
    · exact fun hno => absurd hno hstage
  · refine ⟨call', ?_, .refl call'⟩
    simp [setStage, hi, h]

theorem grows_applyWork (cfg : WalConfig) (s : Store) (startup : Bool)
    (chain : List Work) (matched : Bool)
    (callbacks : List (List (ℕ × Bool))) (freemap : List ℕ) (logOk : Bool) :
    Grows s (s.applyWork cfg startup chain matched callbacks freemap
      logOk) := by
  cases chain with
  | nil => exact .of_thread (.refl _) rfl rfl le_rfl (fun _ h => h) fun _ h => h
  | cons work linked =>
    refine .of_thread (.refl _) rfl rfl le_rfl (fun _ h => h) ?_
    intro item hitem
    simp only [applyWork]
    split
    · exact hitem
    · exact mem_append_left _ hitem

theorem applyWork_frame (s : Store) (startup : Bool) (chain : List Work)
    (matched : Bool) (callbacks : List (List (ℕ × Bool))) (freemap : List ℕ)
    (logOk : Bool) :
    let s' := s.applyWork cfg startup chain matched callbacks freemap logOk
    s'.enqueued = s.enqueued ∧ s'.acks = s.acks ∧ s'.calls = s.calls ∧
      s'.dataFileDirty = s.dataFileDirty := by
  cases chain <;> exact ⟨rfl, rfl, rfl, rfl⟩

theorem enqueued_step {e : Event} (hs : Steps cfg s e s') :
    s'.enqueued = s.enqueued ∨
      ∃ entry, e = .enqueue entry ∧ s'.enqueued = s.enqueued ++ [entry] := by
  cases hs with
  | @enqueue entry => exact .inr ⟨entry, rfl, rfl⟩
  | processCallback | processStartup | processEntry =>
    exact .inl (applyWork_frame _ _ _ _ _ _ _).1
  | commitStep hs => exact .inl (commitFrame_commitStep hs).enqueued
  | _ => exact .inl rfl

theorem grows_step {e : Event} (hs : Steps cfg s e s') : Grows s s' := by
  have hall : ∀ {l : List ItemId}, ∀ item ∈ l, item ∈ l := fun _ h => h
  cases hs with
  | writeExt =>
    refine .of_writer (.refl _) ?_ rfl rfl rfl rfl
    intro c call hcall
    exact ⟨call, getElem?_append_left
      (List.getElem?_eq_some_iff.mp hcall).1 ▸ hcall, .refl call⟩
  | pwrite hcall hstage =>
    refine .of_writer (s.dataFile.extends_push _) ?_ rfl rfl rfl rfl
    exact later_setStage hcall (by rw [hstage]; simp)
  | markDirty hcall hstage | logQueued hcall hstage
  | logDirect hcall hstage =>
    refine .of_writer (.refl _) ?_ rfl rfl rfl rfl
    exact later_setStage hcall (by rw [hstage]; simp)
  | enqueue =>
    exact ⟨.refl _, fun _ call h => ⟨call, h, .refl call⟩,
      prefix_append _ _, le_rfl, hall, hall⟩
  | itemWritten =>
    refine .of_thread ?_ rfl rfl le_rfl hall hall
    dsimp only
    split
    · exact .refl _
    · exact s.dataFile.extends_push _
  | dataFileSynced =>
    exact .of_thread (s.dataFile.extends_sync _) rfl rfl le_rfl hall hall
  | @processCallback matched logOk callbacks freemap chain rest =>
    have h := grows_applyWork cfg { s with callbackQueue := rest } false
      chain matched callbacks freemap logOk
    exact ⟨h.data, h.calls, h.enqueued, h.popped, h.committed, h.dropped⟩
  | @processStartup matched logOk callbacks freemap id rest =>
    have h := grows_applyWork cfg { s with startup := rest } true
      [⟨.recovered id, false⟩] matched callbacks freemap logOk
    exact ⟨h.data, h.calls, h.enqueued, h.popped, h.committed, h.dropped⟩
  | @processEntry matched logOk callbacks freemap chain =>
    have h := grows_applyWork cfg { s with popped := s.popped + 1 } false
      (workOf s.popped chain) matched callbacks freemap logOk
    exact ⟨h.data, h.calls, h.enqueued,
      (Nat.le_succ s.popped).trans h.popped, h.committed, h.dropped⟩
  | takeCommit =>
    exact .of_thread (.refl _) rfl rfl (Nat.le_succ _) hall hall
  | commitStep hs =>
    have h := commitFrame_commitStep hs
    refine .of_thread h.data h.calls h.enqueued h.popped.ge ?_ ?_
    · intro item hitem
      rcases h.items with ⟨hsame, -⟩ | ⟨hnew, -⟩
      · rwa [hsame]
      · rw [hnew]
        exact mem_append_left _ hitem
    · rw [h.dropped]
      exact hall
  | _ => exact .of_thread (.refl _) rfl rfl le_rfl hall hall

end Store

end Hs5
