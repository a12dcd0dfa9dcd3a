import Hs5.Storage.FragInfo
import Hs5.Support.Transition
import Hs5.Wal.WalFile
import Mathlib.Data.Int.Order.Basic

/-!
# Writers, commit thread and data thread

The parts of the storage that decide when data is durable: the `write_ext`
calls of any number of writers, the commit thread with its four ways to
acknowledge a commit, and the data thread of the log.  Each thread advances
by steps between which the others may run; a step is what the source does
under one lock, one store to a shared flag, or one call of the operating
system.  The start and the completion of a sync are separate.  Where the
source exits the process on an error there is no further step.
-/

namespace Hs5

/-! ## Configuration and items -/

/-- The actions that write to the index themselves.  `findFree` changes the
free map only and logs this with items of its own. -/
def FragAction.changesIndex : FragAction → Bool
  | .commit | .findFree | .emptyQueue | .readFragInfo
  | .readFragInfoWithoutParsing | .getDiskId | .assertDelQueueEmpty => false
  | _ => true

/-- The options and flags that choose the log mode. -/
structure WalConfig where
  hasWalPath : Bool
  walWriteMeta : Bool
  walWriteData : ℤ
  walWriteThread : Bool
  deriving DecidableEq

def WalConfig.walFile (cfg : WalConfig) : Bool :=
  cfg.hasWalPath && (cfg.walWriteData ≠ 0 || cfg.walWriteMeta)

def WalConfig.trackDirtyBlocks (cfg : WalConfig) : Bool :=
  cfg.walWriteThread && cfg.walWriteData > 0

/-- The configurations that change files at a commit. -/
def WalConfig.Switches (cfg : WalConfig) : Prop :=
  cfg.walWriteThread = true ∧ cfg.walWriteData ≠ 0

/-- An index change and the `write_ext` calls that wrote its extents. -/
structure Item where
  action : FragAction
  calls : List ℕ
  deriving DecidableEq

/-- The `md5sum` field of a commit: empty, "l" or "reset". -/
inductive CommitKind where
  | plain
  | noWal
  | reset
  deriving DecidableEq

/-- What clients put on the commit queue: an item with the items linked to
it, or a commit. -/
inductive Entry where
  | items (chain : List Item)
  | commit (kind : CommitKind)
  deriving DecidableEq

/-- Names of index changes: found in the log at start, enqueued by a client,
or made by the commit thread itself. -/
inductive ItemId where
  | recovered (id : ℕ)
  | enqueued (entry pos : ℕ)
  | derived (id : ℕ)
  deriving DecidableEq

structure Work where
  id : ItemId
  needsWrite : Bool
  deriving DecidableEq

/-! ## `write_ext` -/

/-- How the data of a call gets to the data file. -/
inductive Route where
  | unlogged
  | logged
  | queued
  deriving DecidableEq

inductive Stage where
  | marking
  | writing
  | logging
  | returned
  deriving DecidableEq

structure Call where
  off : ℕ
  data : Bytes
  route : Route
  stage : Stage
  deriving DecidableEq

/-- The first value of `walWrite`. -/
def WalConfig.logsData (cfg : WalConfig) (dataSize : ℕ) (completeObj : Bool) :
    Bool :=
  (cfg.walWriteData < 0 ||
    (completeObj && cfg.walWriteData > 0 &&
      (dataSize : ℤ) ≤ cfg.walWriteData)) && cfg.walFile

def WalConfig.route (cfg : WalConfig) (dataSize : ℕ) (completeObj : Bool)
    (isDirty : Bool) : Route :=
  if cfg.logsData dataSize completeObj then
    if cfg.walWriteThread then .queued else .logged
  else if cfg.walFile && cfg.walWriteData > 0 && cfg.walWriteThread &&
      isDirty then .logged
  else .unlogged

/-- The first stage of a call: only a direct write that is not logged sets
`data_file_dirty`. -/
def WalConfig.firstStage (cfg : WalConfig) : Route → Stage
  | .queued => .logging
  | .logged => .writing
  | .unlogged => if cfg.walFile then .marking else .writing

/-- `pwriteFullFillPage` fills the last page with zeros. -/
def fillPage (off : ℕ) (data : Bytes) : Bytes :=
  if off % 4096 = 0 ∧ data.length % 4096 ≠ 0 then
    data ++ List.replicate (4096 - data.length % 4096) 0
  else data

/-! ## State -/

/-- Where the commit thread stands.  `cur` is the position of the commit it
works on, `none` for the commit at the end of the startup replay. -/
inductive CommitPc where
  | idle
  | walBegin (cur : ℕ)
  | walDataSync (cur start : ℕ)
  | walAppendSync (cur : ℕ)
  | walSync (cur start : ℕ)
  | walFinish (cur : ℕ) (ok : Bool)
  | lmdbBegin (cur : Option ℕ) (reset : Bool)
  | lmdbDataSync (cur : Option ℕ) (reset : Bool) (start : ℕ)
  | lmdbWait (cur : Option ℕ)
  | lmdbWalSync (cur : Option ℕ) (reset : Bool) (start : ℕ)
  | lmdbTxn (cur : Option ℕ) (reset : Bool)
  | lmdbFinish (cur : Option ℕ) (reset : Bool)
  | lmdbReset (reset : Bool)
  deriving DecidableEq

/-- A commit, by its position, and the number of errors reported for it. -/
structure Ack where
  commit : ℕ
  errors : ℕ
  deriving DecidableEq

structure Store where
  wal : WalFile ItemId Unit
  dataFile : SyncedLog DataWrite
  /-- writes there were when the data thread started its sync -/
  threadSyncStart : ℕ
  dataFileDirty : Bool
  calls : List Call
  /-- log items still to be replayed -/
  startup : List ℕ
  startupCommit : Bool
  enqueued : List Entry
  popped : ℕ
  callbackQueue : List (List Work)
  pendingCommits : List ℕ
  /-- items processed since the last commit of the index -/
  openTxn : List ItemId
  committed : List ItemId
  /-- items whose condition did not match, with the items linked to them -/
  dropped : List ItemId
  prevTransid : ℤ
  currTransid : ℤ
  pc : CommitPc
  commitErrors : ℕ
  canSkipCommit : Bool
  acks : List Ack

def Call.write (call : Call) (c : ℕ) : DataWrite :=
  ⟨some c, call.off, call.data⟩

def Entry.calls : Entry → List ℕ
  | .items chain => chain.flatMap Item.calls
  | .commit _ => []

/-- The items of an entry as the commit thread takes them. -/
def workOf (entry : ℕ) (chain : List Item) : List Work :=
  chain.mapIdx fun pos item =>
    ⟨.enqueued entry pos, item.action.needsWrite⟩

/-- The commit thread holds the mutex of the log from before the sync of the
data file to the end of the reset (`ResetPrep`). -/
def CommitPc.holdsWalLock (cfg : WalConfig) : CommitPc → Bool
  | .lmdbDataSync _ reset _ | .lmdbTxn _ reset | .lmdbFinish _ reset
  | .lmdbReset reset => cfg.walFile && reset && !cfg.walWriteThread
  | _ => false

namespace Store

/-! ## Writers -/

def setStage (s : Store) (c : ℕ) (stage : Stage) : Store :=
  { s with calls := s.calls.modify c fun call => { call with stage := stage } }

/-- `write_ext` up to the choice of the route; its callers have at least one
byte to write. -/
def writeExt (cfg : WalConfig) (s : Store) (off : ℕ) (data : Bytes)
    (completeObj : Bool) : Option Store :=
  if data = [] then none
  else
    let route := cfg.route data.length completeObj
      (s.wal.isDirty off data.length)
    some
      { s with calls := s.calls ++ [⟨off, data, route, cfg.firstStage route⟩] }

def markDirty (s : Store) (c : ℕ) : Option Store := do
  let call ← s.calls[c]?
  if call.stage = .marking then
    some { s.setStage c .writing with dataFileDirty := true }
  else none

def pwrite (s : Store) (c : ℕ) : Option Store := do
  let call ← s.calls[c]?
  if call.stage = .writing then
    let next := if call.route = .logged then Stage.logging else .returned
    some
      { s.setStage c next with
        dataFile :=
          s.dataFile.push ⟨some c, call.off, fillPage call.off call.data⟩ }
  else none

/-- Append the data to the log and, on the route with the data thread, queue
it. -/
def logData (cfg : WalConfig) (s : Store) (c : ℕ) : Option Store := do
  let call ← s.calls[c]?
  if call.stage = .logging ∧ s.pc.holdsWalLock cfg = false then
    let wal :=
      if call.route = .queued then s.wal.writeDataQueued (call.write c)
      else s.wal.writeDataDirect (call.write c)
    some { s.setStage c .returned with wal := wal }
  else none

/-- A writer enqueues items only after its `write_ext` calls returned. -/
def enqueue (s : Store) (entry : Entry) : Option Store :=
  if ∀ c ∈ entry.calls,
      (s.calls[c]?).any (fun call => call.stage = .returned) then
    some { s with enqueued := s.enqueued ++ [entry] }
  else none

/-! ## Data thread -/

def itemWritten (s : Store) : Option Store := do
  let wal ← s.wal.itemWritten
  match s.wal.thread with
  | .popped item =>
    some
      { s with
        wal := wal
        dataFile :=
          if item.write.data = [] then s.dataFile
          else s.dataFile.push item.write }
  | _ => none

def finishItem (s : Store) : Option Store := do
  let wal ← s.wal.finishItem
  some { s with wal := wal, threadSyncStart := s.dataFile.size }

def dataFileSynced (s : Store) : Option Store := do
  let wal ← s.wal.dataFileSynced
  some { s with wal := wal, dataFile := s.dataFile.sync s.threadSyncStart }

/-! ## Commit thread: items -/

/-- The commit thread is at the head of its loop and goes on: after errors
`do_stop_on_error` exits the process there. -/
def Ready (s : Store) : Prop :=
  s.pc = .idle ∧ s.commitErrors = 0
  deriving Decidable

/-- Apply the first item of a chain and put the linked items, and what the
callbacks return, on the callback queue. -/
def applyWork (cfg : WalConfig) (s : Store) (fromStartupWal : Bool)
    (chain : List Work) (matched : Bool) (callbacks : List (List (ℕ × Bool)))
    (freemap : List ℕ) (logOk : Bool) : Store :=
  match chain with
  | [] => s
  | work :: linked =>
    let logged := cfg.walFile && !fromStartupWal && cfg.walWriteMeta &&
      work.needsWrite
    let freemap : List ItemId :=
      if matched && cfg.walFile && cfg.walWriteMeta then
        freemap.map .derived
      else []
    { s with
      wal := s.wal.appendItems s.prevTransid
        ((if logged && logOk then [work.id] else []) ++ freemap)
      commitErrors :=
        if logged && !logOk then s.commitErrors + 1 else s.commitErrors
      canSkipCommit := false
      openTxn := s.openTxn ++ work.id :: freemap
      callbackQueue :=
        if matched then
          s.callbackQueue ++
            ((if linked = [] then [] else [linked]) ++
              callbacks.map (List.map fun w => ⟨.derived w.1, w.2⟩))
        else s.callbackQueue
      dropped :=
        if matched then s.dropped
        else s.dropped ++ (work :: linked).map Work.id }

/-- The commit thread takes the next item: callbacks first, then the items
found in the log at start, then the commit queue. -/
def process (cfg : WalConfig) (s : Store) (matched : Bool)
    (callbacks : List (List (ℕ × Bool))) (freemap : List ℕ) (logOk : Bool) :
    Option Store :=
  if s.Ready then
    match s.callbackQueue, s.startup with
    | chain :: rest, _ =>
      some (applyWork cfg { s with callbackQueue := rest } false chain
        matched callbacks freemap logOk)
    | [], id :: rest =>
      some (applyWork cfg { s with startup := rest } true
        [⟨.recovered id, false⟩] matched callbacks freemap logOk)
    | [], [] =>
      match s.startupCommit, s.enqueued[s.popped]? with
      | false, some (.items chain) =>
        some (applyWork cfg { s with popped := s.popped + 1 } false
          (workOf s.popped chain) matched callbacks freemap logOk)
      | _, _ => none
  else none

/-- A commit taken from the commit queue waits in `pending_commits`. -/
def takeCommit (s : Store) : Option Store :=
  if s.Ready ∧ s.callbackQueue = [] ∧ s.startup = [] then
    match s.startupCommit, s.enqueued[s.popped]? with
    | false, some (.commit _) =>
      some
        { s with
          popped := s.popped + 1
          pendingCommits := s.pendingCommits ++ [s.popped] }
    | _, _ => none
  else none

/-! ## Commit thread: commits -/

def finishPendingCommits (s : Store) : Store :=
  { s with
    acks := s.acks ++ s.pendingCommits.map fun c => ⟨c, s.commitErrors⟩
    pendingCommits := [] }

def ack (s : Store) (cur : Option ℕ) (errors : ℕ) : Store :=
  { s with acks := s.acks ++ (cur.toList.map fun c => ⟨c, errors⟩) }

def commitKind (s : Store) (cur : ℕ) : CommitKind :=
  match s.enqueued[cur]? with
  | some (.commit kind) => kind
  | _ => .plain

def beginCommit (cfg : WalConfig) (s : Store) (walFull : Bool) :
    Option Store :=
  if s.Ready ∧ s.callbackQueue = [] then
    match s.pendingCommits with
    | cur :: rest =>
      let s := { s with pendingCommits := rest }
      let kind := s.commitKind cur
      if s.canSkipCommit ∧ kind = .plain then
        some (s.ack (some cur) 0).finishPendingCommits
      else if cfg.walWriteMeta ∧ kind = .plain ∧ cfg.walFile ∧
          walFull = false then
        some { s with pc := .walBegin cur }
      else
        let reset := !(cfg.walFile && !cfg.walWriteMeta &&
          cfg.walWriteData ≠ 0 && !walFull)
        some { s with pc := .lmdbBegin (some cur) reset }
    | [] => none
  else none

/-- The commit that ends the replay of the log. -/
def beginStartupCommit (s : Store) : Option Store :=
  if s.Ready ∧ s.callbackQueue = [] ∧ s.startup = [] ∧
      s.startupCommit = true then
    some { s with startupCommit := false, pc := .lmdbBegin none true }
  else none

def countError (s : Store) (ok : Bool) : Store :=
  if ok then s else { s with commitErrors := s.commitErrors + 1 }

def commitStep (cfg : WalConfig) (s : Store) (ok : Bool) : Option Store :=
  match s.pc with
  | .idle => none
  | .walBegin cur =>
    if 0 ≤ cfg.walWriteData ∧ s.dataFileDirty = true then
      some
        { s with
          dataFileDirty := false
          pc := .walDataSync cur s.dataFile.size }
    else some { s with pc := .walAppendSync cur }
  | .walDataSync cur start =>
    let s := s.countError ok
    some
      { s with
        dataFile := if ok then s.dataFile.sync start else s.dataFile
        pc := .walAppendSync cur }
  | .walAppendSync cur =>
    if ok then
      let wal := s.wal.append (.sync ())
      some { s with wal := wal, pc := .walSync cur wal.currentFile.size }
    else some { s.countError ok with pc := .walFinish cur false }
  | .walSync cur start =>
    some
      { s.countError ok with
        wal := if ok then s.wal.fsync start else s.wal
        pc := .walFinish cur ok }
  | .walFinish cur ok =>
    let s := (s.ack (some cur) s.commitErrors).finishPendingCommits
    some
      { s with
        commitErrors := if ok then 0 else s.commitErrors
        canSkipCommit := true
        pc := .idle }
  | .lmdbBegin cur reset =>
    if !cfg.walFile || (reset && !cfg.walWriteThread) then
      some { s with pc := .lmdbDataSync cur reset s.dataFile.size }
    else if reset && cfg.walWriteThread && cfg.walWriteData ≠ 0 then
      some { s with pc := .lmdbWait cur }
    else
      some { s with pc := .lmdbWalSync cur reset s.wal.currentFile.size }
  | .lmdbDataSync cur reset start =>
    some
      { s.countError ok with
        dataFile := if ok then s.dataFile.sync start else s.dataFile
        pc := .lmdbTxn cur reset }
  | .lmdbWait cur =>
    if s.wal.pendingData (!s.wal.useAltFile) = 0 then
      some { s with pc := .lmdbWalSync cur true s.wal.currentFile.size }
    else none
  | .lmdbWalSync cur reset start =>
    some
      { s.countError ok with
        wal := if ok then s.wal.fsync start else s.wal
        pc := .lmdbTxn cur reset }
  | .lmdbTxn cur reset =>
    if s.commitErrors = 0 ∧ ok = true then
      some
        { s with
          committed := s.committed ++ s.openTxn
          openTxn := []
          pc := .lmdbFinish cur reset }
    else none
  | .lmdbFinish cur reset =>
    let s := (s.ack cur s.commitErrors).finishPendingCommits
    some
      { s with
        prevTransid := s.currTransid
        currTransid := s.currTransid + 1
        pc := .lmdbReset reset }
  | .lmdbReset reset =>
    let s :=
      if cfg.walFile && reset then
        if !cfg.walWriteThread || cfg.walWriteData = 0 then
          { s with wal := s.wal.resetCurrent (cfg.walWriteData ≠ 0) }
        else if ok then { s with wal := s.wal.switchFiles }
        else s.countError ok
      else s
    some { s with canSkipCommit := true, pc := .idle }

/-! ## Start and steps -/

/-- What a process finds: the log files, the transaction of the index and
the log items it contains. -/
structure Disk where
  files : Bool → List (WalRecord ℕ Unit)
  transid : ℤ
  committed : List ℕ
  /-- an item with another transaction number is in the index already -/
  committed_of_transid : ∀ alt, ∀ r ∈ files alt, ∀ transid' id,
    r.payload = .fragInfo transid' id → transid' ≠ transid → id ∈ committed

def recoveredRecord (r : WalRecord ℕ Unit) : WalRecord ItemId Unit :=
  ⟨r.seqNo,
    match r.payload with
    | .init => .init
    | .fragInfo transid id => .fragInfo transid (.recovered id)
    | .dataFileData d => .dataFileData { d with call := none }
    | .sync info => .sync info⟩

/-- The items that `read` returns for a file. -/
def replayedItems (transid : ℤ) (log : List (WalRecord ℕ Unit)) : List ℕ :=
  log.filterMap fun r =>
    match r.payload with
    | .fragInfo transid' id => if transid' = transid then some id else none
    | _ => none

/-- The records that the process reads, none without a log. -/
def Disk.records (disk : Disk) (cfg : WalConfig) (alt : Bool) :
    List (WalRecord ItemId Unit) :=
  if cfg.walFile then (disk.files alt).map recoveredRecord else []

def Disk.startupItems (disk : Disk) (cfg : WalConfig) (newer : Bool) :
    List ℕ :=
  if cfg.walFile then
    replayedItems disk.transid (disk.files !newer) ++
      replayedItems disk.transid (disk.files newer)
  else []

/-- The state when the constructor is done: the data records of the older and
of the newer file are written to the data file, the items wait. -/
def initial (cfg : WalConfig) (disk : Disk) (wal : WalFile ItemId Unit) :
    Store where
  wal := wal
  dataFile := .unsynced
    (dataRecords (disk.records cfg !wal.useAltFile) ++
      dataRecords (disk.records cfg wal.useAltFile))
  threadSyncStart := 0
  dataFileDirty := false
  calls := []
  startup := disk.startupItems cfg wal.useAltFile
  startupCommit := !(disk.startupItems cfg wal.useAltFile).isEmpty
  enqueued := []
  popped := 0
  callbackQueue := []
  pendingCommits := []
  openTxn := []
  committed := disk.committed.map .recovered
  dropped := []
  prevTransid := disk.transid
  currTransid := disk.transid + 1
  pc := .idle
  commitErrors := 0
  canSkipCommit := false
  acks := []

def start (cfg : WalConfig) (disk : Disk) : Option Store :=
  (WalFile.openWal cfg.trackDirtyBlocks (disk.records cfg)).map
    (initial cfg disk)

inductive Event where
  | writeExt (off : ℕ) (data : Bytes) (completeObj : Bool)
  | markDirty (c : ℕ)
  | pwrite (c : ℕ)
  | logData (c : ℕ)
  | enqueue (entry : Entry)
  | popItem
  | itemWritten
  | finishItem
  | dataFileSynced
  | finishSwitch
  | process (matched : Bool) (callbacks : List (List (ℕ × Bool)))
      (freemap : List ℕ) (logOk : Bool)
  | takeCommit
  | beginCommit (walFull : Bool)
  | beginStartupCommit
  | commitStep (ok : Bool)

def step (cfg : WalConfig) (s : Store) : Event → Option Store
  | .writeExt off data completeObj => s.writeExt cfg off data completeObj
  | .markDirty c => s.markDirty c
  | .pwrite c => s.pwrite c
  | .logData c => s.logData cfg c
  | .enqueue entry => s.enqueue entry
  | .popItem => s.wal.popItem.map fun wal => { s with wal := wal }
  | .itemWritten => s.itemWritten
  | .finishItem => s.finishItem
  | .dataFileSynced => s.dataFileSynced
  | .finishSwitch => s.wal.finishSwitch.map fun wal => { s with wal := wal }
  | .process matched callbacks freemap logOk =>
    s.process cfg matched callbacks freemap logOk
  | .takeCommit => s.takeCommit
  | .beginCommit walFull => s.beginCommit cfg walFull
  | .beginStartupCommit => s.beginStartupCommit
  | .commitStep ok => s.commitStep cfg ok

end Store

end Hs5
