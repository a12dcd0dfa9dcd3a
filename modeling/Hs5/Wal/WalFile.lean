import Hs5.Data.VarInt
import Hs5.Support.SyncedLog
import Mathlib.Data.Finset.Basic
import Mathlib.Data.Finset.Union
import Mathlib.Logic.Function.Basic

/-!
# The write-ahead log object

`WalFile` keeps two log files and appends to the one in use.  Besides log
records of metadata items it can log data of the data file, and then either
the caller writes the data itself or the log object queues it for its data
thread.  `switchFiles` starts the other file and queues an empty item behind
the data of the file it leaves; when the data thread reaches that item it
syncs the data file and truncates the file that was left.
-/

namespace Hs5

/-! ## Records and blocks -/

/-- `waitBlockSize`: granularity of dirty blocks and of reference counts. -/
def waitBlockSize : ℕ := 64 * 1024

/-- The blocks `forEachDataItem` visits: from the block of `off` on, while the
block starts before the end of the range. -/
def dataBlocks (off dataSize : ℕ) : List ℕ :=
  (List.range' (off / waitBlockSize)
    ((off + dataSize) / waitBlockSize + 1 - off / waitBlockSize)).filter
      fun block => block * waitBlockSize < off + dataSize

/-- Data for the data file and the call it comes from. -/
structure DataWrite where
  call : Option ℕ
  off : ℕ
  data : Bytes
  deriving DecidableEq

def DataWrite.blocks (d : DataWrite) : List ℕ := dataBlocks d.off d.data.length

/-- The record types of the log, for items `ι` and commit information `γ`. -/
inductive WalPayload (ι γ : Type) where
  | init
  | fragInfo (transid : ℤ) (item : ι)
  | dataFileData (write : DataWrite)
  | sync (info : γ)
  deriving DecidableEq

structure WalRecord (ι γ : Type) where
  seqNo : ℤ
  payload : WalPayload ι γ
  deriving DecidableEq

def dataRecords {ι γ : Type} (log : List (WalRecord ι γ)) : List DataWrite :=
  log.filterMap fun r =>
    match r.payload with
    | .dataFileData d => some d
    | _ => none

structure DataItem where
  write : DataWrite
  isAlt : Bool
  deriving DecidableEq

def switchItem (isAlt : Bool) : DataItem := ⟨⟨none, 0, []⟩, isAlt⟩

/-! ## The object -/

/-- Where the data thread stands with the item it took from the queue. -/
inductive DataThread where
  | idle
  | popped (item : DataItem)
  | written (item : DataItem)
  | syncing (item : DataItem)
  | synced (item : DataItem)
  deriving DecidableEq

def DataThread.items : DataThread → List DataItem
  | .idle => []
  | .popped item | .written item | .syncing item | .synced item => [item]

def DataThread.truncating : DataThread → Bool
  | .syncing _ | .synced _ => true
  | _ => false

structure WalFile (ι γ : Type) where
  files : Bool → SyncedLog (WalRecord ι γ)
  pendingData : Bool → ℕ
  dirty : Bool → Finset ℕ
  pendingReset : Bool
  useAltFile : Bool
  seqNo : ℤ
  dataWriteQueue : List DataItem
  /-- `dataItems`: the number of queued items for each block -/
  refs : ℕ → ℕ
  thread : DataThread
  trackDirtyBlocks : Bool

namespace WalFile

variable {ι γ : Type}

def currentFile (w : WalFile ι γ) : SyncedLog (WalRecord ι γ) :=
  w.files w.useAltFile

def items (w : WalFile ι γ) : List DataItem :=
  w.thread.items ++ w.dataWriteQueue

/-- Index of the dirty set that `dirtyBlocksManual(alt)` returns. -/
def dirtyBlocksManual (alt : Bool) : Bool := !alt

/-- Append a record with the current sequence number; a record built before a
switch of the files is rewritten by the source. -/
def append (w : WalFile ι γ) (p : WalPayload ι γ) : WalFile ι γ :=
  { w with
    files := Function.update w.files w.useAltFile
      (w.currentFile.push ⟨w.seqNo, p⟩) }

def appendItems (w : WalFile ι γ) (transid : ℤ) (items : List ι) :
    WalFile ι γ :=
  items.foldl (fun w item => w.append (.fragInfo transid item)) w

/-- Completion of a sync of the file in use that covers `n` records. -/
def fsync (w : WalFile ι γ) (n : ℕ) : WalFile ι γ :=
  { w with
    files := Function.update w.files w.useAltFile (w.currentFile.sync n) }

/-- `writeData` of data that the caller writes to the data file itself. -/
def writeDataDirect (w : WalFile ι γ) (d : DataWrite) : WalFile ι γ :=
  w.append (.dataFileData d)

/-- `writeData` of data that the data thread writes. -/
def writeDataQueued (w : WalFile ι γ) (d : DataWrite) : WalFile ι γ :=
  { w.append (.dataFileData d) with
    dataWriteQueue := w.dataWriteQueue ++ [⟨d, w.useAltFile⟩]
    pendingData := Function.update w.pendingData w.useAltFile
      (w.pendingData w.useAltFile + 1)
    dirty :=
      if w.trackDirtyBlocks then
        Function.update w.dirty w.useAltFile
          (w.dirty w.useAltFile ∪ d.blocks.toFinset)
      else w.dirty
    refs := fun b => w.refs b + d.blocks.count b }

def headerOnly (seqNo : ℤ) (sync : Bool) : SyncedLog (WalRecord ι γ) :=
  let file := SyncedLog.unsynced [⟨seqNo, .init⟩]
  if sync then file.sync 1 else file

/-- `reset` of the file in use: truncate it and write a new header. -/
def resetCurrent (w : WalFile ι γ) (sync : Bool) : WalFile ι γ :=
  { w with
    seqNo := w.seqNo + 1
    files := Function.update w.files w.useAltFile
      (headerOnly (w.seqNo + 1) sync)
    dirty := Function.update w.dirty w.useAltFile ∅ }

/-- `reset` of a given file: truncate it without a new header. -/
def resetManual (w : WalFile ι γ) (alt : Bool) : WalFile ι γ :=
  { w with
    files := Function.update w.files alt (.unsynced [])
    dirty := Function.update w.dirty (dirtyBlocksManual alt) ∅ }

/-- `switchFiles`: the file that is left is synced first. -/
def switchFiles (w : WalFile ι γ) : WalFile ι γ :=
  let w := w.fsync w.currentFile.size
  resetCurrent
    { w with
      dataWriteQueue := w.dataWriteQueue ++ [switchItem w.useAltFile]
      pendingData := Function.update w.pendingData w.useAltFile
        (w.pendingData w.useAltFile + 1)
      useAltFile := !w.useAltFile
      pendingReset := true }
    true

@[simp]
theorem headerOnly_entries (seqNo : ℤ) (sync : Bool) :
    (headerOnly seqNo sync : SyncedLog (WalRecord ι γ)).entries =
      [⟨seqNo, .init⟩] := by
  cases sync <;> rfl

/-! The files after each operation, the one in use first. -/

@[simp]
theorem append_files_self (w : WalFile ι γ) (p : WalPayload ι γ) :
    (w.append p).files w.useAltFile = w.currentFile.push ⟨w.seqNo, p⟩ :=
  Function.update_self _ _ _

@[simp]
theorem append_files_not (w : WalFile ι γ) (p : WalPayload ι γ) :
    (w.append p).files (!w.useAltFile) = w.files (!w.useAltFile) :=
  Function.update_of_ne (by simp) _ _

@[simp]
theorem fsync_files_self (w : WalFile ι γ) (n : ℕ) :
    (w.fsync n).files w.useAltFile = w.currentFile.sync n :=
  Function.update_self _ _ _

@[simp]
theorem fsync_files_not (w : WalFile ι γ) (n : ℕ) :
    (w.fsync n).files (!w.useAltFile) = w.files (!w.useAltFile) :=
  Function.update_of_ne (by simp) _ _

@[simp]
theorem fsync_zero (w : WalFile ι γ) : w.fsync 0 = w := by
  simp [fsync, currentFile]

@[simp]
theorem resetCurrent_files_self (w : WalFile ι γ) (sync : Bool) :
    (w.resetCurrent sync).files w.useAltFile =
      headerOnly (w.seqNo + 1) sync :=
  Function.update_self _ _ _

@[simp]
theorem resetCurrent_files_not (w : WalFile ι γ) (sync : Bool) :
    (w.resetCurrent sync).files (!w.useAltFile) = w.files (!w.useAltFile) :=
  Function.update_of_ne (by simp) _ _

@[simp]
theorem switchFiles_files_self (w : WalFile ι γ) :
    w.switchFiles.files w.useAltFile =
      w.currentFile.sync w.currentFile.size := by
  unfold switchFiles
  dsimp only [resetCurrent]
  rw [Function.update_of_ne (by simp [fsync])]
  exact fsync_files_self w _

@[simp]
theorem switchFiles_files_not (w : WalFile ι γ) :
    w.switchFiles.files (!w.useAltFile) = headerOnly (w.seqNo + 1) true :=
  Function.update_self _ _ _

def isDirty (w : WalFile ι γ) (off dataSize : ℕ) : Bool :=
  (dataBlocks off dataSize).any fun b => b ∈ w.dirty false ∪ w.dirty true

/-! ## The data thread -/

def lastPendingData (w : WalFile ι γ) (alt : Bool) : Prop :=
  w.pendingData alt = 1
  deriving Decidable

def decrPendingData (w : WalFile ι γ) (alt : Bool) : WalFile ι γ :=
  { w with
    pendingData := Function.update w.pendingData alt (w.pendingData alt - 1) }

/-- Drop the references of an item whose data has been written. -/
def releaseRefs (w : WalFile ι γ) (item : DataItem) : WalFile ι γ :=
  { w with
    refs :=
      if item.write.data = [] then w.refs
      else fun b => w.refs b - item.write.blocks.count b }

def popItem (w : WalFile ι γ) : Option (WalFile ι γ) :=
  match w.thread, w.dataWriteQueue with
  | .idle, item :: queue =>
    some { w with thread := .popped item, dataWriteQueue := queue }
  | _, _ => none

/-- The data of the item has been written to the data file. -/
def itemWritten (w : WalFile ι γ) : Option (WalFile ι γ) :=
  match w.thread with
  | .popped item => some { w with thread := .written item }
  | _ => none

/-- The part under the lock after the write: the last item of a file that was
left goes on to a sync of the data file, any other is done. -/
def finishItem (w : WalFile ι γ) : Option (WalFile ι γ) :=
  match w.thread with
  | .written item =>
    let w := w.releaseRefs item
    if w.lastPendingData item.isAlt ∧ w.pendingReset then
      some { w with thread := .syncing item }
    else some { w.decrPendingData item.isAlt with thread := .idle }
  | _ => none

def dataFileSynced (w : WalFile ι γ) : Option (WalFile ι γ) :=
  match w.thread with
  | .syncing item => some { w with thread := .synced item }
  | _ => none

def finishSwitch (w : WalFile ι γ) : Option (WalFile ι γ) :=
  match w.thread with
  | .synced item =>
    some { (w.resetManual item.isAlt).decrPendingData item.isAlt with
      pendingReset := false
      thread := .idle }
  | _ => none

/-! What each step of the data thread does when it is enabled. -/

variable {w w' : WalFile ι γ}

theorem popItem_eq_some (h : w.popItem = some w') :
    ∃ item queue, w.thread = .idle ∧ w.dataWriteQueue = item :: queue ∧
      w' = { w with thread := .popped item, dataWriteQueue := queue } := by
  unfold popItem at h
  split at h
  · rename_i item queue hthread hqueue
    exact ⟨item, queue, hthread, hqueue, (Option.some.inj h).symm⟩
  · cases h

theorem itemWritten_eq_some (h : w.itemWritten = some w') :
    ∃ item, w.thread = .popped item ∧
      w' = { w with thread := .written item } := by
  unfold itemWritten at h
  split at h
  · rename_i item hthread
    exact ⟨item, hthread, (Option.some.inj h).symm⟩
  · cases h

theorem finishItem_eq_some (h : w.finishItem = some w') :
    ∃ item, w.thread = .written item ∧
      (w.pendingData item.isAlt = 1 ∧ w.pendingReset = true ∧
          w' = { w.releaseRefs item with thread := .syncing item } ∨
        ¬ (w.pendingData item.isAlt = 1 ∧ w.pendingReset = true) ∧
          w' = { (w.releaseRefs item).decrPendingData item.isAlt with
            thread := .idle }) := by
  unfold finishItem at h
  split at h
  · rename_i item hthread
    refine ⟨item, hthread, ?_⟩
    dsimp only at h
    split at h
    · rename_i hlast
      exact .inl ⟨hlast.1, hlast.2, (Option.some.inj h).symm⟩
    · rename_i hlast
      exact .inr ⟨hlast, (Option.some.inj h).symm⟩
  · cases h

theorem dataFileSynced_eq_some (h : w.dataFileSynced = some w') :
    ∃ item, w.thread = .syncing item ∧
      w' = { w with thread := .synced item } := by
  unfold dataFileSynced at h
  split at h
  · rename_i item hthread
    exact ⟨item, hthread, (Option.some.inj h).symm⟩
  · cases h

theorem finishSwitch_eq_some (h : w.finishSwitch = some w') :
    ∃ item, w.thread = .synced item ∧
      w' = { (w.resetManual item.isAlt).decrPendingData item.isAlt with
        pendingReset := false
        thread := .idle } := by
  unfold finishSwitch at h
  split at h
  · rename_i item hthread
    exact ⟨item, hthread, (Option.some.inj h).symm⟩
  · cases h

/-! ## Opening the log -/

/-- The sequence number in the header of a file. -/
def headerSeqNo : List (WalRecord ι γ) → Option ℤ
  | ⟨seqNo, .init⟩ :: _ => some seqNo
  | _ => none

/-- All records carry the sequence number of the header, and there is no
second header. -/
def readable (log : List (WalRecord ι γ)) : Bool :=
  match log with
  | [] => true
  | ⟨seqNo, .init⟩ :: rest =>
    rest.all fun r =>
      r.seqNo = seqNo &&
        match r.payload with
        | .init => false
        | _ => true
  | _ => false

/-- The dirty set `read` builds for a file. -/
def dirtyOf (log : List (WalRecord ι γ)) : Finset ℕ :=
  ((dataRecords log).flatMap DataWrite.blocks).toFinset

/-- The object after the files have been read. -/
def loaded (trackDirtyBlocks : Bool) (disk : Bool → List (WalRecord ι γ))
    (useAltFile : Bool) : WalFile ι γ where
  files := fun alt => .unsynced (disk alt)
  pendingData := fun _ => 0
  dirty := fun alt => if trackDirtyBlocks then dirtyOf (disk alt) else ∅
  pendingReset := false
  useAltFile := useAltFile
  seqNo := (headerSeqNo (disk useAltFile)).getD 1
  dataWriteQueue := []
  refs := fun _ => 0
  thread := .idle
  trackDirtyBlocks := trackDirtyBlocks

def newerFile (disk : Bool → List (WalRecord ι γ)) : Bool :=
  let primarySeqNo := (headerSeqNo (disk false)).getD 0
  let altSeqNo := (headerSeqNo (disk true)).getD 0
  !(disk true).isEmpty && altSeqNo > primarySeqNo

/-- The constructor followed by `read` of the older and of the newer file.
`none` where the source throws or aborts. -/
def openWal (trackDirtyBlocks : Bool) (disk : Bool → List (WalRecord ι γ)) :
    Option (WalFile ι γ) :=
  let primarySeqNo := (headerSeqNo (disk false)).getD 0
  let altSeqNo := (headerSeqNo (disk true)).getD 0
  if !readable (disk false) || !readable (disk true) ||
      (primarySeqNo ≠ 0 && primarySeqNo = altSeqNo) then none
  else
    let w := loaded trackDirtyBlocks disk (newerFile disk)
    some (if (disk w.useAltFile).isEmpty then w.resetCurrent false else w)

theorem openWal_eq_some {track : Bool} {disk : Bool → List (WalRecord ι γ)}
    (h : openWal track disk = some w) :
    readable (disk false) = true ∧ readable (disk true) = true ∧
      (disk (newerFile disk) = [] ∧
          w = (loaded track disk (newerFile disk)).resetCurrent false ∨
        disk (newerFile disk) ≠ [] ∧
          w = loaded track disk (newerFile disk)) := by
  simp only [openWal] at h
  split at h
  · cases h
  · rename_i hread
    simp only [Bool.or_eq_true, not_or, Bool.not_eq_true'] at hread
    refine ⟨by simpa using hread.1.1, by simpa using hread.1.2, ?_⟩
    by_cases hempty : disk (newerFile disk) = []
    · have hempty' : (disk (loaded track disk
          (newerFile disk)).useAltFile).isEmpty = true := by
        simpa [loaded] using hempty
      rw [if_pos hempty'] at h
      exact .inl ⟨hempty, (Option.some.inj h).symm⟩
    · have hempty' : ¬ (disk (loaded track disk
          (newerFile disk)).useAltFile).isEmpty = true := by
        simpa [loaded] using hempty
      rw [if_neg hempty'] at h
      exact .inr ⟨hempty, (Option.some.inj h).symm⟩

end WalFile

end Hs5
