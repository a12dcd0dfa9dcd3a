import Hs5.Support.Transition
import Hs5.Wal.WalFile

/-!
# Dirty blocks

A data record that is still in one of the two log files is written to the
data file again by recovery.  `isDirty` is how `write_ext` learns that a
range has such records.  This module runs the log object through any
sequence of its operations and asks whether `isDirty` answers `true` for
every range that touches a block of a data record.
-/

namespace Hs5

open List Transition

/-! ## Blocks of a range -/

def rangeTouches (off dataSize block : ℕ) : Prop :=
  ∃ x, off ≤ x ∧ x < off + dataSize ∧ x / waitBlockSize = block

variable {off dataSize block : ℕ} {d : DataWrite}

theorem mem_dataBlocks :
    block ∈ dataBlocks off dataSize ↔
      off / waitBlockSize ≤ block ∧ block * waitBlockSize < off + dataSize := by
  rw [dataBlocks, mem_filter, mem_range'_1, decide_eq_true_eq]
  simp only [waitBlockSize]
  omega

theorem mem_dataBlocks_of_touches
    (h : rangeTouches off dataSize block) : block ∈ dataBlocks off dataSize := by
  obtain ⟨x, hle, hlt, hx⟩ := h
  rw [mem_dataBlocks]
  simp only [waitBlockSize] at *
  omega

theorem touches_of_mem_dataBlocks (hsize : 0 < dataSize)
    (h : block ∈ dataBlocks off dataSize) :
    rangeTouches off dataSize block := by
  rw [mem_dataBlocks] at h
  refine ⟨max off (block * waitBlockSize), le_max_left _ _, ?_, ?_⟩
  · exact max_lt (by omega) h.2
  · simp only [waitBlockSize] at *
    omega

def DataWrite.covered (d : DataWrite) : List ℕ :=
  if d.data = [] then [] else d.blocks

theorem DataWrite.mem_covered {block : ℕ} :
    block ∈ d.covered ↔ rangeTouches d.off d.data.length block := by
  by_cases hempty : d.data = []
  · constructor
    · intro h
      simp [DataWrite.covered, hempty] at h
    · rintro ⟨x, hle, hlt, -⟩
      simp only [hempty, length_nil] at hlt
      omega
  · have hpos : 0 < d.data.length := length_pos_iff.mpr hempty
    rw [DataWrite.covered, if_neg hempty]
    exact ⟨touches_of_mem_dataBlocks hpos, mem_dataBlocks_of_touches⟩

theorem DataWrite.mem_blocks_of_covered {block : ℕ}
    (h : block ∈ d.covered) : block ∈ d.blocks :=
  mem_dataBlocks_of_touches (mem_covered.mp h)

namespace WalFile

variable {ι γ : Type}

def InDirty (w : WalFile ι γ) (block : ℕ) : Prop :=
  block ∈ w.dirty false ∪ w.dirty true
  deriving Decidable

variable {w : WalFile ι γ}

theorem inDirty_iff {block : ℕ} :
    w.InDirty block ↔ ∃ alt, block ∈ w.dirty alt := by
  simp [InDirty]

/-- `isDirty` answers `true` on all ranges that touch a block exactly if the
block is in one of the sets. -/
theorem isDirty_all_iff {block : ℕ} :
    (∀ off dataSize, rangeTouches off dataSize block →
      w.isDirty off dataSize = true) ↔ w.InDirty block := by
  constructor
  · intro h
    have hone := h (block * waitBlockSize) 1
      ⟨block * waitBlockSize, le_rfl, by omega, by simp [waitBlockSize]⟩
    simp only [isDirty, any_eq_true, decide_eq_true_eq] at hone
    obtain ⟨b, hb, hdirty⟩ := hone
    rw [mem_dataBlocks] at hb
    have hbb : b = block := by
      simp only [waitBlockSize] at hb
      omega
    rwa [hbb] at hdirty
  · intro h off dataSize htouch
    simp only [isDirty, any_eq_true, decide_eq_true_eq]
    exact ⟨block, mem_dataBlocks_of_touches htouch, h⟩

/-! ## Operations -/

/-- The operations on the log object, those of its data thread included. -/
inductive WalOp (ι γ : Type) where
  | write (transid : ℤ) (item : ι)
  | sync (info : γ)
  | writeDataDirect (d : DataWrite)
  | writeDataQueued (d : DataWrite)
  | switchFiles
  | popItem
  | itemWritten
  | finishItem
  | dataFileSynced
  | finishSwitch

def step (w : WalFile ι γ) : WalOp ι γ → Option (WalFile ι γ)
  | .write transid item => some (w.append (.fragInfo transid item))
  | .sync info => some (w.append (.sync info))
  | .writeDataDirect d => some (w.writeDataDirect d)
  | .writeDataQueued d => some (w.writeDataQueued d)
  | .switchFiles => some w.switchFiles
  | .popItem => w.popItem
  | .itemWritten => w.itemWritten
  | .finishItem => w.finishItem
  | .dataFileSynced => w.dataFileSynced
  | .finishSwitch => w.finishSwitch

/-- The property: `isDirty` sees every block of every data record that is
still in a file. -/
def RecordsDirty (w : WalFile ι γ) : Prop :=
  ∀ alt, ∀ d ∈ dataRecords (w.files alt).entries,
    ∀ block, rangeTouches d.off d.data.length block →
      ∀ off dataSize, rangeTouches off dataSize block →
        w.isDirty off dataSize = true

/-- The file in use was changed and the data thread is not done with the file
that was left. -/
def ChangingFiles (w : WalFile ι γ) : Prop :=
  w.pendingReset = true ∨ ∃ item ∈ w.items, item.isAlt ≠ w.useAltFile
  deriving Decidable

/-- Data is queued, and not while files are changed. -/
def QueuesBetween (w : WalFile ι γ) : WalOp ι γ → Prop
  | .writeDataDirect _ => False
  | .writeDataQueued _ => ¬ w.ChangingFiles
  | _ => True

instance (w : WalFile ι γ) (op : WalOp ι γ) :
    Decidable (w.QueuesBetween op) := by
  rcases op with ⟨⟩ <;> dsimp only [QueuesBetween] <;> infer_instance

/-! ## Preservation -/

/-- The records of a file are in the set of that file, and the file that the
data thread does not truncate has no data. -/
structure DirtyInv (w : WalFile ι γ) : Prop where
  tracked : w.trackDirtyBlocks = true
  own : ∀ alt, ∀ d ∈ dataRecords (w.files alt).entries,
    ∀ block ∈ d.covered, block ∈ w.dirty alt
  items : ∀ item ∈ w.items, item.isAlt = w.useAltFile ∧ w.pendingReset = false ∨
    dataRecords (w.files !item.isAlt).entries = []
  truncating : w.thread.truncating = true → w.pendingReset = true

theorem recordsDirty_iff :
    w.RecordsDirty ↔ ∀ alt, ∀ d ∈ dataRecords (w.files alt).entries,
      ∀ block ∈ d.covered, w.InDirty block := by
  simp only [RecordsDirty, DataWrite.mem_covered, isDirty_all_iff]

@[simp]
theorem dataRecords_append {log : List (WalRecord ι γ)} {seqNo : ℤ}
    {p : WalPayload ι γ} :
    dataRecords (log ++ [⟨seqNo, p⟩]) =
      dataRecords log ++ dataRecords [⟨seqNo, p⟩] := by
  simp [dataRecords]

@[simp]
theorem dataRecords_init {seqNo : ℤ} :
    dataRecords [(⟨seqNo, .init⟩ : WalRecord ι γ)] = [] := rfl

@[simp]
theorem dataRecords_data {seqNo : ℤ} :
    dataRecords [(⟨seqNo, .dataFileData d⟩ : WalRecord ι γ)] = [d] := rfl

theorem dataRecords_append_files {p : WalPayload ι γ} (alt : Bool) :
    dataRecords ((w.append p).files alt).entries =
      dataRecords (w.files alt).entries ++
        if alt = w.useAltFile then dataRecords [⟨w.seqNo, p⟩] else [] := by
  by_cases halt : alt = w.useAltFile
  · subst halt
    simp [currentFile]
  · obtain rfl : alt = !w.useAltFile := Bool.eq_not.mpr halt
    simp

theorem DirtyInv.append {p : WalPayload ι γ} (h : w.DirtyInv)
    (hp : dataRecords [(⟨w.seqNo, p⟩ : WalRecord ι γ)] = []) :
    (w.append p).DirtyInv := by
  have hfiles : ∀ alt, dataRecords ((w.append p).files alt).entries =
      dataRecords (w.files alt).entries := by
    simp [dataRecords_append_files, hp]
  refine ⟨h.tracked, ?_, ?_, h.truncating⟩
  · intro alt d hd
    rw [hfiles] at hd
    exact h.own alt d hd
  · intro item hitem
    rw [hfiles]
    exact h.items item hitem

theorem DirtyInv.writeDataQueued (h : w.DirtyInv) (hok : ¬ w.ChangingFiles)
    (d : DataWrite) : (w.writeDataQueued d).DirtyInv := by
  simp only [ChangingFiles, not_or, not_exists, not_and, not_not,
    Bool.not_eq_true] at hok
  refine ⟨h.tracked, ?_, ?_, h.truncating⟩
  · intro alt d' hd' block hb
    change d' ∈ dataRecords ((w.append _).files alt).entries at hd'
    rw [dataRecords_append_files] at hd'
    simp only [WalFile.writeDataQueued, h.tracked, if_true]
    by_cases halt : alt = w.useAltFile
    · subst halt
      simp only [if_true, dataRecords_data, mem_append,
        mem_singleton] at hd'
      rw [Function.update_self, Finset.mem_union, mem_toFinset]
      rcases hd' with hd' | rfl
      · exact .inl (h.own _ d' hd' block hb)
      · exact .inr (DataWrite.mem_blocks_of_covered hb)
    · rw [if_neg halt, append_nil] at hd'
      rw [Function.update_of_ne halt]
      exact h.own alt d' hd' block hb
  · intro item hitem
    simp only [WalFile.writeDataQueued, WalFile.items, ← append_assoc,
      mem_append (t := [_]), mem_singleton] at hitem
    rcases hitem with hitem | rfl
    · exact .inl ⟨hok.2 item hitem, hok.1⟩
    · exact .inl ⟨rfl, hok.1⟩

theorem DirtyInv.switchFiles (h : w.DirtyInv) : w.switchFiles.DirtyInv := by
  have hleft : dataRecords (w.switchFiles.files w.useAltFile).entries =
      dataRecords (w.files w.useAltFile).entries := by
    rw [switchFiles_files_self, SyncedLog.sync_entries, currentFile]
  have hnew : dataRecords (w.switchFiles.files !w.useAltFile).entries = [] := by
    rw [switchFiles_files_not, headerOnly_entries, dataRecords_init]
  refine ⟨h.tracked, ?_, ?_, fun _ => rfl⟩
  · intro alt d hd block hb
    by_cases halt : alt = w.useAltFile
    · subst halt
      rw [hleft] at hd
      simp only [WalFile.switchFiles, resetCurrent, fsync]
      rw [Function.update_of_ne (by simp)]
      exact h.own _ d hd block hb
    · obtain rfl : alt = !w.useAltFile := Bool.eq_not.mpr halt
      rw [hnew] at hd
      exact absurd hd not_mem_nil
  · intro item hitem
    refine .inr ?_
    by_cases halt : item.isAlt = w.useAltFile
    · rw [halt, hnew]
    · have hkept : item ∈ w.items := by
        simp only [WalFile.switchFiles, resetCurrent, fsync, WalFile.items,
          ← append_assoc, mem_append (t := [_]),
          mem_singleton] at hitem
        rcases hitem with hitem | rfl
        · exact hitem
        · exact absurd rfl halt
      rw [Bool.eq_not.mpr halt, Bool.not_not, hleft]
      rcases h.items item hkept with hown | hempty
      · exact absurd hown.1 halt
      · rwa [Bool.eq_not.mpr halt, Bool.not_not] at hempty

theorem DirtyInv.finishSwitch {w w' : WalFile ι γ} (h : w.DirtyInv)
    (hs : w.finishSwitch = some w') : w'.DirtyInv := by
  obtain ⟨item, hthread, rfl⟩ := finishSwitch_eq_some hs
  have hreset := h.truncating (by rw [hthread]; rfl)
  have hother : dataRecords (w.files !item.isAlt).entries = [] := by
    rcases h.items item (by simp [WalFile.items, hthread, DataThread.items])
      with hown | hempty
    · rw [hreset] at hown
      cases hown.2
    · exact hempty
  have hempty : ∀ alt,
      dataRecords ((w.resetManual item.isAlt).files alt).entries = [] := by
    intro alt
    by_cases halt : alt = item.isAlt
    · simp [resetManual, halt, dataRecords]
    · simp only [resetManual, Function.update_of_ne halt]
      rw [Bool.eq_not.mpr halt, hother]
  refine ⟨h.tracked, ?_, fun i _ => .inr (hempty _), ?_⟩
  · intro alt d hd
    rw [decrPendingData, hempty] at hd
    exact absurd hd not_mem_nil
  · intro htruncating
    cases htruncating

theorem DirtyInv.congr {w w' : WalFile ι γ} (h : w.DirtyInv)
    (hfiles : w'.files = w.files) (hdirty : w'.dirty = w.dirty)
    (htrack : w'.trackDirtyBlocks = w.trackDirtyBlocks)
    (huse : w'.useAltFile = w.useAltFile)
    (hreset : w'.pendingReset = w.pendingReset) (hitems : w'.items ⊆ w.items)
    (htruncating : w'.thread.truncating = true → w.pendingReset = true) :
    w'.DirtyInv := by
  refine ⟨htrack.trans h.tracked, ?_, ?_, ?_⟩
  · rw [hfiles, hdirty]
    exact h.own
  · intro item hitem
    rw [hfiles, huse, hreset]
    exact h.items item (hitems hitem)
  · rwa [hreset]

theorem dirtyInv_step {w w' : WalFile ι γ} {op : WalOp ι γ}
    (h : w.DirtyInv) (hok : w.QueuesBetween op) (hs : w.step op = some w') :
    w'.DirtyInv := by
  cases op with
  | write transid item | sync info =>
    cases hs
    exact h.append rfl
  | writeDataDirect d => exact hok.elim
  | writeDataQueued d =>
    cases hs
    exact h.writeDataQueued hok d
  | switchFiles =>
    cases hs
    exact h.switchFiles
  | popItem =>
    obtain ⟨item, queue, hthread, hqueue, rfl⟩ := popItem_eq_some hs
    refine h.congr rfl rfl rfl rfl rfl ?_ (by simp [DataThread.truncating])
    simp [WalFile.items, DataThread.items, hthread, hqueue]
  | itemWritten =>
    obtain ⟨item, hthread, rfl⟩ := itemWritten_eq_some hs
    refine h.congr rfl rfl rfl rfl rfl ?_ (by simp [DataThread.truncating])
    simp [WalFile.items, DataThread.items, hthread]
  | finishItem =>
    obtain ⟨item, hthread, ⟨-, hreset, rfl⟩ | ⟨-, rfl⟩⟩ := finishItem_eq_some hs
    · refine h.congr rfl rfl rfl rfl rfl ?_ fun _ => hreset
      simp [WalFile.items, DataThread.items, hthread, releaseRefs]
    · refine h.congr rfl rfl rfl rfl rfl ?_ (by simp [DataThread.truncating])
      simp [WalFile.items, DataThread.items, releaseRefs, decrPendingData]
  | dataFileSynced =>
    obtain ⟨item, hthread, rfl⟩ := dataFileSynced_eq_some hs
    refine h.congr rfl rfl rfl rfl rfl ?_ fun _ =>
      h.truncating (by rw [hthread]; rfl)
    simp [WalFile.items, DataThread.items, hthread]
  | finishSwitch => exact h.finishSwitch hs

/-- Opening the log puts the blocks of all data records into the sets. -/
theorem dirtyInv_openWal {disk : Bool → List (WalRecord ι γ)}
    (h : openWal true disk = some w) : w.DirtyInv := by
  have hloaded : ∀ useAltFile, (loaded true disk useAltFile).DirtyInv := by
    intro useAltFile
    refine ⟨rfl, ?_, by simp [WalFile.items, DataThread.items, loaded], ?_⟩
    · intro alt d hd block hb
      simp only [loaded, dirtyOf, if_true, mem_toFinset,
        mem_flatMap]
      exact ⟨d, hd, DataWrite.mem_blocks_of_covered hb⟩
    · simp [loaded, DataThread.truncating]
  obtain ⟨-, -, ⟨-, rfl⟩ | ⟨-, rfl⟩⟩ := openWal_eq_some h
  · have hold := hloaded (newerFile disk)
    refine ⟨rfl, ?_, by simp [WalFile.items, DataThread.items, loaded,
      resetCurrent], by simp [loaded, resetCurrent, DataThread.truncating]⟩
    intro alt d hd block hb
    by_cases halt : alt = newerFile disk
    · subst halt
      simp [loaded, resetCurrent] at hd
    · simp only [resetCurrent, loaded, Function.update_of_ne halt] at hd ⊢
      exact hold.own alt d hd block hb
  · exact hloaded _

/-- Whatever files the log is opened on: as long as all data is queued, and
none while files are changed, `isDirty` sees every block of every data record
in the files. -/
theorem recordsDirty_of_run {disk : Bool → List (WalRecord ι γ)}
    {w₀ w : WalFile ι γ} (hopen : openWal true disk = some w₀)
    (hrun : Run step QueuesBetween w₀ w) : w.RecordsDirty := by
  have hinv := hrun.invariant (dirtyInv_openWal hopen)
    fun _ _ _ h hok hs => dirtyInv_step h hok hs
  rw [recordsDirty_iff]
  intro alt d hd block hb
  exact inDirty_iff.mpr ⟨alt, hinv.own alt d hd block hb⟩

/-- A file change with data queued in the file that is left; the data thread
carries out the change. -/
def changeFiles : List (WalOp Unit Unit) :=
  [.popItem, .itemWritten, .finishItem, .popItem, .itemWritten, .finishItem,
    .dataFileSynced, .finishSwitch]

/-- Data is queued for the new file when the change is complete. -/
def queuedAfter : List (WalOp Unit Unit) :=
  [.writeDataQueued ⟨none, 5 * waitBlockSize, [1]⟩, .switchFiles] ++
    changeFiles ++ [.writeDataQueued ⟨none, 7 * waitBlockSize, [2]⟩]

theorem recordsDirty_of_run_queued_after :
    ∃ w₀ w : WalFile Unit Unit,
      openWal true (fun _ => []) = some w₀ ∧
      exec (guarded step QueuesBetween) w₀ queuedAfter = some w ∧
      dataRecords (w.files true).entries = [⟨none, 7 * waitBlockSize, [2]⟩] ∧
      w.RecordsDirty := by
  obtain ⟨w₀, hopen, w, hexec, hrecords⟩ : ∃ w₀ ∈ openWal true fun _ => [],
      ∃ w ∈ exec (guarded step QueuesBetween) w₀ queuedAfter,
        dataRecords (w.files true).entries =
          [⟨none, 7 * waitBlockSize, [2]⟩] := by decide
  exact ⟨w₀, w, hopen, hexec, hrecords,
    recordsDirty_of_run hopen (run_of_exec_guarded hexec)⟩

/-- Data that is queued for the new file before the data thread has finished
the change: the truncation of the old file clears the set of the new one. -/
theorem not_recordsDirty_queued_before :
    ∃ w₀ w : WalFile Unit Unit,
      openWal true (fun _ => []) = some w₀ ∧
      exec step w₀
        ([.writeDataQueued ⟨none, 5 * waitBlockSize, [1]⟩, .switchFiles,
          .writeDataQueued ⟨none, 7 * waitBlockSize, [2]⟩] ++
          changeFiles) = some w ∧
      dataRecords (w.files true).entries = [⟨none, 7 * waitBlockSize, [2]⟩] ∧
      w.isDirty (7 * waitBlockSize) 1 = false ∧
      ¬ w.RecordsDirty := by
  refine ⟨_, _, rfl, rfl, by decide, by decide, ?_⟩
  intro h
  have htouch : rangeTouches (7 * waitBlockSize) 1 7 :=
    ⟨7 * waitBlockSize, by decide, by decide, by decide⟩
  have hdirty := h true ⟨none, 7 * waitBlockSize, [2]⟩ (by decide) 7 htouch _ _
    htouch
  exact absurd hdirty (by decide)

end WalFile

end Hs5
