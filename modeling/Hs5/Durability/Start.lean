import Hs5.Durability.DataInv

/-!
# The state at start

What the constructor leaves behind: an open log with nothing queued, the data
records of both files written to the data file, and the items of the
interrupted transaction waiting to be replayed.
-/

namespace Hs5

variable {cfg : WalConfig} {P : DataWrite → Prop}

namespace WalFile

variable {ι γ : Type}

/-- What is known about the log when it has been opened. -/
structure Opened (files : Bool → List (WalRecord ι γ)) (w : WalFile ι γ) :
    Prop where
  useAltFile : w.useAltFile = newerFile files
  queue : w.QueueInv
  items : w.items = []
  thread : w.thread = .idle
  pendingReset : w.pendingReset = false
  entries : ∀ alt, ∀ r ∈ (w.files alt).entries, r ∈ files alt ∨
    ∃ seqNo, r = ⟨seqNo, .init⟩

theorem opened_loaded (track : Bool) (files : Bool → List (WalRecord ι γ)) :
    Opened files (loaded track files (newerFile files)) where
  useAltFile := rfl
  queue :=
    ⟨⟨fun _ => rfl, fun _ => rfl⟩, .steady rfl (by simp [items, loaded,
      DataThread.items]) rfl⟩
  items := rfl
  thread := rfl
  pendingReset := rfl
  entries := fun _ _ hr => .inl hr

theorem opened_openWal {track : Bool} {files : Bool → List (WalRecord ι γ)}
    {w : WalFile ι γ} (h : openWal track files = some w) :
    Opened files w := by
  have hloaded := opened_loaded track files
  obtain ⟨-, -, ⟨-, rfl⟩ | ⟨-, rfl⟩⟩ := openWal_eq_some h
  · refine { hloaded with
      queue := ⟨hloaded.queue.counted.resetCurrent false,
        hloaded.queue.shape.congr rfl rfl rfl id⟩
      entries := ?_ }
    intro alt r hr
    by_cases halt : alt = newerFile files
    · subst halt
      simp only [resetCurrent, loaded, Function.update_self,
        headerOnly_entries, List.mem_singleton] at hr
      exact .inr ⟨_, hr⟩
    · left
      simpa only [resetCurrent, loaded, Function.update_of_ne halt,
        SyncedLog.unsynced_entries] using hr
  · exact hloaded

theorem mem_dataRecords {log : List (WalRecord ι γ)} {d : DataWrite} :
    d ∈ dataRecords log ↔ ∃ r ∈ log, r.payload = .dataFileData d := by
  simp only [dataRecords, List.mem_filterMap]
  constructor
  · rintro ⟨r, hr, hd⟩
    refine ⟨r, hr, ?_⟩
    cases hp : r.payload <;> simp_all
  · rintro ⟨r, hr, hd⟩
    exact ⟨r, hr, by rw [hd]⟩

theorem Opened.records {files : Bool → List (WalRecord ι γ)}
    {w : WalFile ι γ} (h : Opened files w) {alt : Bool} {d : DataWrite}
    (hd : d ∈ w.records alt) : d ∈ dataRecords (files alt) := by
  obtain ⟨r, hr, hp⟩ := mem_dataRecords.mp hd
  rcases h.entries alt r hr with hr | ⟨seqNo, rfl⟩
  · exact mem_dataRecords.mpr ⟨r, hr, hp⟩
  · cases hp

end WalFile

namespace Store

variable {s s' : Store}

theorem dataInv_initial {disk : Disk} {wal : WalFile ItemId Unit}
    (h : WalFile.Opened (disk.records cfg) wal)
    (hother : cfg.Switches →
      ∀ d ∈ dataRecords (disk.records cfg !wal.useAltFile), ¬ P d)
    (hnoData : cfg.walWriteThread = true → cfg.walWriteData = 0 →
      ∀ d ∈ dataRecords (disk.records cfg wal.useAltFile), ¬ P d) :
    DataInv cfg P (initial cfg disk wal) where
  log :=
    { queue := h.queue
      written := by
        intro alt d hd
        have hd := h.records hd
        refine .inl (wrote_of_mem ?_)
        simp only [initial, SyncedLog.unsynced_entries, List.mem_append]
        by_cases halt : alt = wal.useAltFile
        · subst halt
          exact .inr hd
        · obtain rfl : alt = !wal.useAltFile := Bool.eq_not.mpr halt
          exact .inl hd
      syncing := by
        intro item hitem
        have hidle : (initial cfg disk wal).wal.thread = .idle := h.thread
        rw [hidle] at hitem
        cases hitem
      synced := by
        intro item hitem
        have hidle : (initial cfg disk wal).wal.thread = .idle := h.thread
        rw [hidle] at hitem
        cases hitem
      unused := fun _ => h.items
      other := fun hcfg _ d hd => hother hcfg d (h.records hd)
      noData := fun hthread hdata d hd =>
        hnoData hthread hdata d (h.records hd) }
  calls := by simp [initial]
  lock := by simp [initial, CommitPc.holdsWalLock]
  wait := by simp [initial, CommitPc.afterWait]
  threaded := by simp [initial, CommitPc.threaded]

theorem mem_disk_records {disk : Disk} {alt : Bool}
    {r : WalRecord ItemId Unit} (h : r ∈ disk.records cfg alt) :
    cfg.walFile = true ∧ ∃ r₀ ∈ disk.files alt, r = recoveredRecord r₀ := by
  unfold Disk.records at h
  split at h
  · rename_i hwal
    obtain ⟨r₀, hr₀, rfl⟩ := List.mem_map.mp h
    exact ⟨hwal, r₀, hr₀, rfl⟩
  · cases h

theorem recoveredRecord_fragInfo {r : WalRecord ℕ Unit} {transid : ℤ}
    {item : ItemId} (h : (recoveredRecord r).payload = .fragInfo transid item) :
    ∃ id, r.payload = .fragInfo transid id ∧ item = .recovered id := by
  cases hp : r.payload with
  | fragInfo transid' id =>
    simp only [recoveredRecord, hp, WalPayload.fragInfo.injEq] at h
    exact ⟨id, by rw [h.1], h.2.symm⟩
  | init | dataFileData d | sync info => simp [recoveredRecord, hp] at h

theorem recoveredRecord_data {r : WalRecord ℕ Unit} {d : DataWrite}
    (h : (recoveredRecord r).payload = .dataFileData d) :
    ∃ d₀, r.payload = .dataFileData d₀ ∧ d = { d₀ with call := none } := by
  cases hp : r.payload with
  | dataFileData d₀ =>
    simp only [recoveredRecord, hp, WalPayload.dataFileData.injEq] at h
    exact ⟨d₀, rfl, h.symm⟩
  | init | fragInfo transid id | sync info => simp [recoveredRecord, hp] at h

theorem headerSeqNo_recovered (log : List (WalRecord ℕ Unit)) :
    WalFile.headerSeqNo (log.map recoveredRecord) =
      WalFile.headerSeqNo log := by
  cases log with
  | nil => rfl
  | cons r rest =>
    obtain ⟨seqNo, payload⟩ := r
    cases payload <;> rfl

theorem newerFile_records (disk : Disk) (hwal : cfg.walFile = true) :
    WalFile.newerFile (disk.records cfg) = WalFile.newerFile disk.files := by
  simp [WalFile.newerFile, Disk.records, hwal, headerSeqNo_recovered]

theorem dataRecords_disk {disk : Disk} {alt : Bool}
    (h : dataRecords (disk.files alt) = []) :
    dataRecords (disk.records cfg alt) = [] := by
  rw [List.eq_nil_iff_forall_not_mem] at h ⊢
  intro d hd
  obtain ⟨r, hr, hp⟩ := WalFile.mem_dataRecords.mp hd
  obtain ⟨-, r₀, hr₀, rfl⟩ := mem_disk_records hr
  obtain ⟨d₀, hd₀, -⟩ := recoveredRecord_data hp
  exact h d₀ (WalFile.mem_dataRecords.mpr ⟨r₀, hr₀, hd₀⟩)

end Store

end Hs5
