import Hs5.Durability.Steps
import Hs5.Wal.DataQueue

/-!
# Data records and the data file

Where the bytes of a data record are while the record is in a log file: in a
write that was made to the data file, or in an item for the data thread.  The
invariant of this module relates the log, the queue and the data file; one
lemma for each operation says how it is kept.
-/

namespace Hs5

open List WalFile

/-! ## Writes of a record -/

/-- The bytes of `d` are in one of the writes. -/
def Wrote (writes : List DataWrite) (d : DataWrite) : Prop :=
  ∃ x ∈ writes, x.call = d.call ∧ x.off = d.off ∧ d.data <+: x.data

variable {d : DataWrite}

theorem Wrote.mono {writes writes' : List DataWrite} (h : Wrote writes d)
    (hsub : ∀ x ∈ writes, x ∈ writes') : Wrote writes' d := by
  obtain ⟨x, hx, hd⟩ := h
  exact ⟨x, hsub x hx, hd⟩

theorem wrote_of_mem {writes : List DataWrite}
    (h : d ∈ writes) : Wrote writes d :=
  ⟨d, h, rfl, rfl, prefix_refl _⟩

theorem prefix_fillPage (off : ℕ) (data : Bytes) :
    data <+: fillPage off data := by
  unfold fillPage
  split
  · exact prefix_append _ _
  · exact prefix_refl _

theorem Wrote.push {f : SyncedLog DataWrite} (h : Wrote f.entries d)
    (x : DataWrite) : Wrote (f.push x).entries d :=
  h.mono fun _ hy => mem_append_left _ hy

/-! ## The invariant -/

variable {ι γ : Type}

def WalFile.records (w : WalFile ι γ) (alt : Bool) : List DataWrite :=
  dataRecords (w.files alt).entries

theorem WalFile.mem_records_append {w : WalFile ι γ} {p : WalPayload ι γ}
    {alt : Bool} :
    d ∈ (w.append p).records alt ↔
      d ∈ w.records alt ∨ alt = w.useAltFile ∧ p = .dataFileData d := by
  unfold records
  by_cases halt : alt = w.useAltFile
  · subst halt
    rw [append_files_self, SyncedLog.push_entries, dataRecords_append,
      mem_append]
    cases p <;> simp [dataRecords, currentFile, eq_comm]
  · obtain rfl : alt = !w.useAltFile := Bool.eq_not.mpr halt
    rw [append_files_not]
    simp

section

variable (w : WalFile ι γ)

theorem WalFile.records_append_not (p : WalPayload ι γ) :
    (w.append p).records (!w.useAltFile) = w.records (!w.useAltFile) := by
  unfold records
  rw [append_files_not]

@[simp]
theorem WalFile.records_fsync (n : ℕ) (alt : Bool) :
    (w.fsync n).records alt = w.records alt := by
  unfold records
  by_cases halt : alt = w.useAltFile
  · subst halt
    rw [fsync_files_self, SyncedLog.sync_entries, currentFile]
  · obtain rfl : alt = !w.useAltFile := Bool.eq_not.mpr halt
    rw [fsync_files_not]

@[simp]
theorem WalFile.records_resetCurrent_self (sync : Bool) :
    (w.resetCurrent sync).records w.useAltFile = [] := by
  unfold records
  rw [resetCurrent_files_self, headerOnly_entries, dataRecords_init]

@[simp]
theorem WalFile.records_resetCurrent_not (sync : Bool) :
    (w.resetCurrent sync).records (!w.useAltFile) =
      w.records (!w.useAltFile) := by
  unfold records
  rw [resetCurrent_files_not]

@[simp]
theorem WalFile.records_switchFiles_self :
    w.switchFiles.records w.useAltFile = w.records w.useAltFile := by
  unfold records
  rw [switchFiles_files_self, SyncedLog.sync_entries, currentFile]

@[simp]
theorem WalFile.records_switchFiles_not :
    w.switchFiles.records (!w.useAltFile) = [] := by
  unfold records
  rw [switchFiles_files_not, headerOnly_entries, dataRecords_init]

end

structure LogData (cfg : WalConfig) (P : DataWrite → Prop) (w : WalFile ι γ)
    (f : SyncedLog DataWrite) (syncStart : ℕ) : Prop where
  queue : w.QueueInv
  written : ∀ alt, ∀ d ∈ w.records alt,
    Wrote f.entries d ∨ ∃ item ∈ w.unwritten, item.write = d ∧
      item.CarriesFor alt
  /-- the sync of the data thread covers the records of the file it is about
  to truncate -/
  syncing : ∀ item, w.thread = .syncing item →
    ∀ d ∈ w.records (!w.useAltFile), Wrote (f.entries.take syncStart) d
  synced : ∀ item, w.thread = .synced item →
    ∀ d ∈ w.records (!w.useAltFile), Wrote f.durable d
  /-- without the data thread nothing is queued -/
  unused : cfg.walWriteThread = false → w.items = []
  /-- when no switch is pending the file not in use has no such records -/
  other : cfg.Switches → w.pendingReset = false →
    ∀ d ∈ w.records (!w.useAltFile), ¬ P d
  /-- no data is logged if the configuration does not ask for it -/
  noData : cfg.walWriteThread = true → cfg.walWriteData = 0 →
    ∀ d ∈ w.records w.useAltFile, ¬ P d

namespace LogData

variable {cfg : WalConfig} {P : DataWrite → Prop} {w w' : WalFile ι γ}
  {f : SyncedLog DataWrite} {n : ℕ}

section

variable (h : LogData cfg P w f n)

include h

theorem of_records (hq : w'.QueueInv) (hthread : w'.thread = w.thread)
    (hqueue : w'.dataWriteQueue = w.dataWriteQueue)
    (hreset : w'.pendingReset = w.pendingReset)
    (hused : w'.useAltFile = w.useAltFile)
    (hrecords : ∀ alt, ∀ d ∈ w'.records alt, d ∈ w.records alt) :
    LogData cfg P w' f n where
  queue := hq
  written := by
    intro alt d hd
    have hunwritten : w'.unwritten = w.unwritten := by
      simp [WalFile.unwritten, hthread, hqueue]
    rw [hunwritten]
    exact h.written alt d (hrecords alt d hd)
  syncing := by
    intro item hitem d hd
    rw [hthread] at hitem
    rw [hused] at hd
    exact h.syncing item hitem d (hrecords _ d hd)
  synced := by
    intro item hitem d hd
    rw [hthread] at hitem
    rw [hused] at hd
    exact h.synced item hitem d (hrecords _ d hd)
  unused := by
    intro hcfg
    rw [WalFile.items, hthread, hqueue]
    exact h.unused hcfg
  other := by
    intro hcfg hpending d hd
    rw [hreset] at hpending
    rw [hused] at hd
    exact h.other hcfg hpending d (hrecords _ d hd)
  noData := by
    intro hthreads hdata d hd
    rw [hused] at hd
    exact h.noData hthreads hdata d (hrecords _ d hd)

/-! ## Operations of the commit thread -/

theorem append {p : WalPayload ι γ}
    (hp : ∀ d, p ≠ .dataFileData d) : LogData cfg P (w.append p) f n := by
  have hq : (w.append p).QueueInv :=
    ⟨h.queue.counted.append p, h.queue.shape.congr rfl rfl rfl id⟩
  refine h.of_records hq rfl rfl rfl rfl ?_
  intro alt d hd
  rcases mem_records_append.mp hd with hd | ⟨-, hd⟩
  · exact hd
  · exact absurd hd (hp d)

theorem appendItems (transid : ℤ) (items : List ι) :
    LogData cfg P (w.appendItems transid items) f n := by
  induction items generalizing w with
  | nil => exact h
  | cons item rest ih => exact ih (h.append (by simp))

theorem fsync (m : ℕ) : LogData cfg P (w.fsync m) f n := by
  have hq : (w.fsync m).QueueInv :=
    ⟨h.queue.counted.fsync m, h.queue.shape.congr rfl rfl rfl id⟩
  refine h.of_records hq rfl rfl rfl rfl ?_
  intro alt d hd
  rwa [records_fsync] at hd

theorem resetCurrent (sync : Bool) :
    LogData cfg P (w.resetCurrent sync) f n := by
  have hq : (w.resetCurrent sync).QueueInv :=
    ⟨h.queue.counted.resetCurrent sync, h.queue.shape.congr rfl rfl rfl id⟩
  refine h.of_records hq rfl rfl rfl rfl ?_
  intro alt d hd
  by_cases halt : alt = w.useAltFile
  · subst halt
    simp at hd
  · obtain rfl : alt = !w.useAltFile := Bool.eq_not.mpr halt
    rwa [records_resetCurrent_not] at hd

theorem switchFiles (hcfg : cfg.walWriteThread = true)
    (hpending : w.pendingData (!w.useAltFile) = 0) :
    LogData cfg P w.switchFiles f n := by
  have hsteady := h.queue.shape.steady_of_pending h.queue.counted hpending
  have htrunc : w.switchFiles.thread.truncating = false := hsteady.2.2
  have hused : w.switchFiles.useAltFile = !w.useAltFile := rfl
  refine ⟨⟨h.queue.counted.switchFiles,
    h.queue.shape.switchFiles h.queue.counted hpending⟩, ?_, ?_, ?_, ?_, ?_, ?_⟩
  · intro alt d hd
    by_cases halt : alt = w.useAltFile
    · subst halt
      rw [records_switchFiles_self] at hd
      rcases h.written _ d hd with hd | ⟨item, hitem, hd⟩
      · exact .inl hd
      · refine .inr ⟨item, ?_, hd⟩
        simp only [WalFile.unwritten, mem_append] at hitem ⊢
        rcases hitem with hitem | hitem
        · exact .inl hitem
        · exact .inr (mem_append_left _ hitem)
    · obtain rfl : alt = !w.useAltFile := Bool.eq_not.mpr halt
      simp at hd
  · intro item hitem
    rw [hitem] at htrunc
    cases htrunc
  · intro item hitem
    rw [hitem] at htrunc
    cases htrunc
  · intro hno
    rw [hcfg] at hno
    cases hno
  · intro _ hreset
    cases hreset
  · intro _ _ d hd
    rw [hused, records_switchFiles_not] at hd
    cases hd

/-! ## The data file -/

theorem push (x : DataWrite) : LogData cfg P w (f.push x) n :=
  { h with
    written := fun alt d hd => (h.written alt d hd).imp_left fun hw => hw.push x
    syncing := fun item hitem d hd =>
    (h.syncing item hitem d hd).mono fun _ hy => SyncedLog.take_push hy
    synced := fun item hitem d hd => by
      rw [SyncedLog.durable_push]
      exact h.synced item hitem d hd }

theorem sync (m : ℕ) : LogData cfg P w (f.sync m) n :=
  { h with
    synced := fun item hitem d hd =>
    (h.synced item hitem d hd).mono fun _ hy =>
      SyncedLog.durable_sync_of_durable m hy }

/-! ## Operations of the writers -/

theorem writeDataDirect (hwrote : Wrote f.entries d)
    (hcfg : cfg.walWriteData ≠ 0) :
    LogData cfg P (w.writeDataDirect d) f n := by
  have hq : (w.writeDataDirect d).QueueInv :=
    ⟨h.queue.counted.append _, h.queue.shape.congr rfl rfl rfl id⟩
  have hother : (w.writeDataDirect d).records (!w.useAltFile) =
      w.records (!w.useAltFile) := w.records_append_not _
  refine ⟨hq, ?_, ?_, ?_, h.unused, ?_, ?_⟩
  · intro alt d' hd'
    rcases mem_records_append.mp hd' with hd' | ⟨-, hd'⟩
    · exact h.written alt d' hd'
    · obtain rfl := WalPayload.dataFileData.inj hd'
      exact .inl hwrote
  · intro item hitem d' hd'
    exact h.syncing item hitem d' (hother ▸ hd')
  · intro item hitem d' hd'
    exact h.synced item hitem d' (hother ▸ hd')
  · intro hswitches hreset d' hd'
    exact h.other hswitches hreset d' (hother ▸ hd')
  · intro _ hdata
    exact absurd hdata hcfg

theorem writeDataQueued (hdata : d.data ≠ [])
    (hthread : cfg.walWriteThread = true) (hcfg : cfg.walWriteData ≠ 0) :
    LogData cfg P (w.writeDataQueued d) f n := by
  have hrecords : ∀ alt, (w.writeDataQueued d).records alt =
      (w.append (.dataFileData d)).records alt := fun _ => rfl
  have hother : (w.writeDataQueued d).records (!w.useAltFile) =
      w.records (!w.useAltFile) := w.records_append_not (.dataFileData d)
  have hunwritten : (w.writeDataQueued d).unwritten =
      w.unwritten ++ [⟨d, w.useAltFile⟩] := by
    simp [WalFile.unwritten, WalFile.writeDataQueued, WalFile.append]
  refine ⟨⟨h.queue.counted.writeDataQueued d,
    h.queue.shape.writeDataQueued hdata⟩, ?_, ?_, ?_, ?_, ?_, ?_⟩
  · intro alt d' hd'
    rw [hrecords, mem_records_append] at hd'
    rw [hunwritten]
    rcases hd' with hd' | ⟨rfl, hd'⟩
    · rcases h.written alt d' hd' with hd' | ⟨item, hitem, hd'⟩
      · exact .inl hd'
      · exact .inr ⟨item, mem_append_left _ hitem, hd'⟩
    · obtain rfl := WalPayload.dataFileData.inj hd'
      exact .inr ⟨⟨d, w.useAltFile⟩, by simp, rfl, rfl, hdata⟩
  · intro item hitem d' hd'
    exact h.syncing item hitem d' (hother ▸ hd')
  · intro item hitem d' hd'
    exact h.synced item hitem d' (hother ▸ hd')
  · intro hno
    rw [hthread] at hno
    cases hno
  · intro hswitches hreset d' hd'
    exact h.other hswitches hreset d' (hother ▸ hd')
  · intro _ hzero
    exact absurd hzero hcfg

/-! ## Operations of the data thread -/

theorem popItem (hs : w.popItem = some w') : LogData cfg P w' f n := by
  have hq := h.queue.popItem hs
  obtain ⟨item, queue, hthread, hqueue, rfl⟩ := popItem_eq_some hs
  refine ⟨hq, ?_, by simp, by simp, ?_, h.other, h.noData⟩
  · intro alt d hd
    have hw := h.written alt d hd
    rw [WalFile.unwritten, hthread, hqueue] at hw
    exact hw
  · intro hcfg
    have hnil := h.unused hcfg
    rw [WalFile.items, hthread, hqueue] at hnil
    cases hnil

theorem itemWritten {item : DataItem} (hthread : w.thread = .popped item)
    (hs : w.itemWritten = some w') : LogData cfg P w'
      (if item.write.data = [] then f else f.push item.write) n := by
  have hq := h.queue.itemWritten hs
  obtain ⟨item', hthread', rfl⟩ := itemWritten_eq_some hs
  obtain rfl : item' = item := by
    rw [hthread] at hthread'
    exact (DataThread.popped.inj hthread').symm
  have hsub : ∀ x ∈ f.entries, x ∈
      (if item'.write.data = [] then f else f.push item'.write).entries := by
    intro x hx
    split
    · exact hx
    · exact mem_append_left _ hx
  refine ⟨hq, ?_, by simp, by simp, ?_, h.other, h.noData⟩
  · intro alt d hd
    rcases h.written alt d hd with hw | ⟨item, hitem, rfl, halt⟩
    · exact .inl (hw.mono hsub)
    · rw [WalFile.unwritten, hthread] at hitem
      rcases mem_append.mp hitem with hitem | hitem
      · obtain rfl : item = item' := by simpa [DataThread.unwritten] using hitem
        left
        rw [if_neg halt.2]
        exact wrote_of_mem (by simp)
      · exact .inr ⟨item, mem_append_right _ hitem, rfl, halt⟩
  · intro hcfg
    have hnil := h.unused hcfg
    rw [WalFile.items, hthread] at hnil
    cases hnil

theorem finishItem (hs : w.finishItem = some w') :
    LogData cfg P w' f f.size := by
  have hq := h.queue.finishItem hs
  obtain ⟨item, hthread, hcases⟩ := finishItem_eq_some hs
  have hitems : w.items = item :: w.dataWriteQueue := by
    simp [WalFile.items, hthread, DataThread.items]
  have hunwritten : w.unwritten = w.dataWriteQueue := by
    simp [WalFile.unwritten, hthread, DataThread.unwritten]
  have hused : ¬ cfg.walWriteThread = false := by
    intro hcfg
    have hnil := h.unused hcfg
    rw [hitems] at hnil
    cases hnil
  rcases hcases with ⟨hlast, hreset, rfl⟩ | ⟨hlast, rfl⟩
  · obtain ⟨-, hqueue⟩ := h.queue.last_of_pending hitems hlast hreset
    refine ⟨hq, ?_, ?_, by simp, fun hcfg => absurd hcfg hused, h.other,
      h.noData⟩
    · intro alt d hd
      have hw := h.written alt d hd
      rwa [hunwritten] at hw
    · intro item' _ d hd
      rw [SyncedLog.size, take_length]
      rcases h.written (!w.useAltFile) d hd with
        hw | ⟨item'', hitem, -, halt, -⟩
      · exact hw
      · rw [hunwritten] at hitem
        rw [(hqueue item'' hitem).1] at halt
        simp at halt
  · refine ⟨hq, ?_, by simp, by simp, fun hcfg => absurd hcfg hused, h.other,
      h.noData⟩
    intro alt d hd
    have hw := h.written alt d hd
    rwa [hunwritten] at hw

theorem dataFileSynced
    (hs : w.dataFileSynced = some w') : LogData cfg P w' (f.sync n) n := by
  have hq := h.queue.dataFileSynced hs
  obtain ⟨item, hthread, rfl⟩ := dataFileSynced_eq_some hs
  refine ⟨hq, ?_, by simp, ?_, ?_, h.other, h.noData⟩
  · intro alt d hd
    have hw := h.written alt d hd
    rw [WalFile.unwritten, hthread] at hw
    exact hw
  · intro item' _ d hd
    exact (h.syncing item hthread d hd).mono fun _ hx =>
    SyncedLog.durable_sync_of_take hx
  · intro hcfg
    have hnil := h.unused hcfg
    rw [WalFile.items, hthread] at hnil
    cases hnil

theorem finishSwitch
    (hs : w.finishSwitch = some w') : LogData cfg P w' f n := by
  have hq := h.queue.finishSwitch hs
  obtain ⟨item, hthread, rfl⟩ := finishSwitch_eq_some hs
  obtain ⟨-, rfl, -⟩ := h.queue.synced_item (by rw [hthread]; rfl)
    (by rw [hthread]; rfl)
  have hnil : dataRecords ((Function.update w.files (!w.useAltFile)
      (.unsynced [])) (!w.useAltFile)).entries = [] := by
    rw [Function.update_self]
    rfl
  have hkept : ((Function.update w.files (!w.useAltFile)
      (.unsynced [])) w.useAltFile) = w.files w.useAltFile :=
    Function.update_of_ne (by simp) _ _
  refine ⟨hq, ?_, by simp, by simp, ?_, ?_, ?_⟩
  · intro alt d hd
    by_cases halt : alt = w.useAltFile
    · subst halt
      have hw := h.written w.useAltFile d
        (by rw [WalFile.records, ← hkept]; exact hd)
      rw [WalFile.unwritten, hthread] at hw
      exact hw
    · obtain rfl : alt = !w.useAltFile := Bool.eq_not.mpr halt
      have hd : d ∈ dataRecords ((Function.update w.files (!w.useAltFile)
          (.unsynced [])) (!w.useAltFile)).entries := hd
      rw [hnil] at hd
      cases hd
  · intro hcfg
    have hno := h.unused hcfg
    rw [WalFile.items, hthread] at hno
    cases hno
  · intro _ _ d hd
    have hd : d ∈ dataRecords ((Function.update w.files (!w.useAltFile)
        (.unsynced [])) (!w.useAltFile)).entries := hd
    rw [hnil] at hd
    cases hd
  · intro hthreads hdata d hd
    exact h.noData hthreads hdata d (by rw [WalFile.records, ← hkept]; exact hd)

end

end LogData

end Hs5
