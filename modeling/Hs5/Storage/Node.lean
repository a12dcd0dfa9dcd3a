import Hs5.Storage.Frontier
import Hs5.Support.SyncedLog

/-!
# The storage over several process lifetimes

Writers, commit thread and trim thread on top of what is on disk: the last
committed LMDB transaction and the log of metadata items.  There are two kinds
of commit.  A WAL commit appends a `Sync` record with the variables of the
commit thread and syncs the log; an LMDB commit stores the same variables and
the maps, and the log is truncated afterwards.  Both let the commit thread
forget the extents freed so far and hand them to the trim thread.
-/

namespace Hs5

open Transition

/-! ## What is on disk -/

structure NodeConfig where
  alloc : AllocConfig
  /-- there is a log and `wal_write_meta` is set -/
  walMeta : Bool
  trimFreespaceSize : ℤ
  deriving DecidableEq

/-- The variables that both kinds of commit store: `tdata` in `dbi_size` and
`WalFile::CommitInfo`. -/
structure SizeInfo where
  dataFileMaxSize : ℤ
  currWriteExtStart : ℤ
  currWriteExtEnd : ℤ
  dataFileFree : ℤ
  currTransid : ℤ
  deriving DecidableEq

inductive LogItem (K : Type) where
  | add (fn : K) (exts : List SPunchItem) (lastModified : ℤ) (md5sum : Bytes)
  | del (fn : K)
  | freeExtents (exts : List SPunchItem)
  | freemap (change : FreemapWal)
  deriving DecidableEq

/-- A record of the log, or bytes of one that a crash has cut off. -/
inductive LogEntry (K : Type) where
  | item (transid : ℤ) (item : LogItem K)
  | sync (info : SizeInfo) (reservedExtents : List SPunchItem)
  | torn
  deriving DecidableEq

/-- The last committed LMDB transaction.  `tmp` and `startupTmp` are the
entries that `add_tmp` made in `dbi_old`, those of the constructor apart. -/
structure Committed (K : Type) [LinearOrder K] where
  main : OrderedMap K IndexValue
  free : OrderedMap ℤ ℤ
  freeLen : List (ℤ × ℤ)
  holes : OrderedMap ℤ ℤ
  tmp : List SPunchItem
  startupTmp : List SPunchItem
  size : SizeInfo
  deriving DecidableEq

structure Node (K : Type) [LinearOrder K] where
  alloc : AllocState K
  disk : Committed K
  log : SyncedLog (LogEntry K)
  /-- contents of the log before truncations that may not be durable yet -/
  old : List (List (LogEntry K))
  /-- number of log records when the open transaction began -/
  txnStart : ℕ
  prevTransid : ℤ
  currTransid : ℤ
  /-- extents the trim thread has not punched yet -/
  trimQueue : List SPunchItem

variable {K : Type} [LinearOrder K]

/-! ## Reading the log -/

def LogEntry.isTorn : LogEntry K → Bool
  | .torn => true
  | _ => false

/-- Reading stops where a record does not check. -/
def readable (log : List (LogEntry K)) : List (LogEntry K) :=
  log.takeWhile fun entry => !entry.isTorn

def LogEntry.itemOf (transid : ℤ) : LogEntry K → Option (LogItem K)
  | .item t logItem => if t = transid then some logItem else none
  | _ => none

/-- The items `WalFile::read` returns for a transaction. -/
def replayed (transid : ℤ) (log : List (LogEntry K)) : List (LogItem K) :=
  log.filterMap (LogEntry.itemOf transid)

/-- One step of looking for the last `Sync` record. -/
def LogEntry.syncOf (found : Option (SizeInfo × List SPunchItem)) :
    LogEntry K → Option (SizeInfo × List SPunchItem)
  | .sync info reservedExtents => some (info, reservedExtents)
  | _ => found

def lastSync (log : List (LogEntry K)) :
    Option (SizeInfo × List SPunchItem) :=
  log.foldl LogEntry.syncOf none

/-! ## Commits -/

namespace CommitState

def sizeInfo (c : CommitState K) (transid : ℤ) : SizeInfo :=
  ⟨c.dataFileMaxSize, c.currWriteExtStart, c.currWriteExtEnd,
    c.fm.dataFileFree, transid⟩

def stored (c : CommitState K) (transid : ℤ) : Committed K where
  main := c.main
  free := c.fm.free
  freeLen := c.fm.freeLen
  holes := c.holes
  tmp := c.localReserved
  startupTmp := []
  size := c.useReserved.sizeInfo transid

def replayItem (c : CommitState K) : LogItem K → Option (CommitState K)
  | .add fn exts lastModified md5sum =>
    c.add fn (indexValueOf exts lastModified md5sum) true
  | .del fn => c.del fn
  | .freeExtents exts => c.freeExtents exts
  | .freemap change => c.applyFreemapWal change

def replayItems (c : CommitState K) (items : List (LogItem K)) :
    Option (CommitState K) :=
  items.foldlM replayItem c

/-- `reset_del_log_fn`: free the reserved extents that were stored. -/
def resetDelLog (c : CommitState K) (tmp : List SPunchItem) :
    Option (CommitState K) :=
  (addFreemapExts c.fm tmp).map fun fm =>
    { c with fm := { fm with trimItems := c.fm.trimItems } }

end CommitState

namespace Node

/-- `run_trim_queue`: the extents that are trimmed. -/
def runTrimQueue (cfg : NodeConfig) (trimItems : List SPunchItem) :
    List SPunchItem :=
  if cfg.trimFreespaceSize < 0 then []
  else trimItems.filter fun item => item.len > cfg.trimFreespaceSize

def trimming (s : Node K) : List ℤ := s.trimQueue.map SPunchItem.offset

def walCommit (cfg : NodeConfig) (s : Node K) : Option (Node K) :=
  if cfg.walMeta then
    let c := s.alloc.commit.useReserved
    let log := s.log.push
      (.sync (c.sizeInfo s.currTransid) s.alloc.commit.localReserved)
    some { s with
      alloc := { s.alloc with commit := c.committed }
      log := log.sync log.size
      trimQueue := s.trimQueue ++ runTrimQueue cfg c.fm.trimItems }
  else none

/-- An LMDB commit up to the truncation of the log.  The commit at the end of
the startup replay trims nothing. -/
def lmdbCommit (cfg : NodeConfig) (s : Node K) (fromStartupWal : Bool)
    (rounds : List SkipExtents) : Option (Node K) :=
  if ∀ skip ∈ rounds, skip.trimmingFreeSkipExtents = s.trimming then
    (s.alloc.commit.doFreeMinspace rounds).map fun c =>
    { s with
      alloc := { s.alloc with commit := c.useReserved.committed }
      disk := c.stored s.currTransid
      log := .unsynced []
      old := s.log.entries :: s.old
      txnStart := 0
      prevTransid := s.currTransid
      currTransid := s.currTransid + 1
      trimQueue :=
        if fromStartupWal then s.trimQueue
        else s.trimQueue ++ runTrimQueue cfg c.fm.trimItems }
  else none

/-! ## Items -/

/-- The items a step of the commit thread writes to the log. -/
def logged (cfg : NodeConfig) (s : Node K) : AllocEvent K → List (LogItem K)
  | .add fn exts lastModified md5sum => [.add fn exts lastModified md5sum]
  | .del fn => [.del fn]
  | .freeExtents exts => [.freeExtents exts]
  | .findFree env =>
    match s.alloc.prepare.map Prepare.wait with
    | some (.asked offset) =>
      match s.alloc.commit.findFree cfg.alloc env offset with
      | some r => r.wal.map .freemap
      | none => []
    | _ => []
  | _ => []

/-- The steps of writers and commit thread; the search for free space stays
away from the extents being trimmed, and commits are separate. -/
def canRun (s : Node K) : AllocEvent K → Bool
  | .findFree env => env.skip.trimmingFreeSkipExtents = s.trimming
  | .commit _ => false
  | _ => true

def run (cfg : NodeConfig) (s : Node K) (e : AllocEvent K) :
    Option (Node K) :=
  if s.canRun e then
    (s.alloc.step cfg.alloc e).map fun alloc =>
    { s with
      alloc := alloc
      log :=
        if cfg.walMeta then
          s.log.append ((s.logged cfg e).map (.item s.prevTransid))
        else s.log }
  else none

end Node

/-! ## Crash and restart -/

/-- What a crash leaves of the log: an older content that a lost truncation
brings back, the number of records that survive, and whether bytes of the
next one do; and the rounds of `do_free_minspace` of the next process. -/
structure NodeCrash (K : Type) where
  alt : List (LogEntry K)
  survived : ℕ
  torn : Bool
  rounds : List SkipExtents
  startupRounds : List SkipExtents
  deriving DecidableEq

namespace Committed

def empty : Committed K where
  main := OrderedMap.empty
  free := OrderedMap.empty
  freeLen := []
  holes := OrderedMap.empty
  tmp := []
  startupTmp := []
  size := ⟨0, 0, -1, 0, 1⟩

/-- The variables as the constructor reads them from LMDB. -/
def loaded (d : Committed K) : SizeInfo :=
  if d.size.currWriteExtEnd < 0 then
    { d.size with
      dataFileMaxSize := 0
      currWriteExtEnd := -1
      dataFileFree := 0 }
  else d.size

/-- The variables the process starts with, by what it has read of the log. -/
def startSize (cfg : NodeConfig) (d : Committed K)
    (log : List (LogEntry K)) : SizeInfo :=
  let size := ((lastSync log).map Prod.fst).getD d.loaded
  if size.currWriteExtEnd < 0 then
    { size with
      currWriteExtEnd := size.currWriteExtStart + cfg.alloc.allocChunkSize }
  else size

/-- The constructor stores the reserved extents of the last `Sync` record. -/
def withReserved (d : Committed K) (log : List (LogEntry K)) : Committed K :=
  match lastSync log with
  | some (_, reserved) =>
    { d with
      startupTmp := reserved ++ d.startupTmp.drop reserved.length }
  | none => d

/-- The first transaction of the commit thread; `data_file_free` is counted
again if it is zero. -/
def opened (d : Committed K) (size : SizeInfo) : CommitState K where
  main := d.main
  fm :=
    let fm : Freemap := ⟨d.free, d.freeLen, size.dataFileFree, [], []⟩
    { fm with
      dataFileFree :=
        if size.dataFileFree = 0 then fm.total else size.dataFileFree }
  holes := d.holes
  dataFileMaxSize := size.dataFileMaxSize
  currWriteExtStart := size.currWriteExtStart
  currWriteExtEnd := size.currWriteExtEnd
  reservedExtents := OrderedMap.empty
  forceFreespaceCheck := true

end Committed

namespace Node

def init (cfg : NodeConfig) : Node K where
  alloc := AllocState.init cfg.alloc
  disk := .empty
  log := .unsynced []
  old := []
  txnStart := 0
  prevTransid := 1
  currTransid := 2
  trimQueue := []

def CanCrash (cfg : NodeConfig) (s : Node K) (c : NodeCrash K) : Prop :=
  (c.alt = [] ∨ ∃ content ∈ s.old, c.alt <+: content) ∧
    s.log.synced ≤ c.survived ∧ (c.torn = true → cfg.walMeta = true) ∧
    ∀ skip ∈ c.rounds, skip.trimmingFreeSkipExtents = []
  deriving Decidable

def surviving (s : Node K) (c : NodeCrash K) : List (LogEntry K) :=
  c.alt ++ s.log.entries.take c.survived

def logAfter (s : Node K) (c : NodeCrash K) : List (LogEntry K) :=
  s.surviving c ++ if c.torn then [.torn] else []

def startupItems (s : Node K) (c : NodeCrash K) : List (LogItem K) :=
  replayed s.disk.size.currTransid (readable (s.logAfter c))

/-- The variables the next process starts with. -/
def sizeAfter (cfg : NodeConfig) (s : Node K) (c : NodeCrash K) : SizeInfo :=
  s.disk.startSize cfg (readable (s.logAfter c))

def diskAfter (s : Node K) (c : NodeCrash K) : Committed K :=
  s.disk.withReserved (readable (s.logAfter c))

/-- The commit thread of the next process up to the end of the replay. -/
def replay (cfg : NodeConfig) (s : Node K) (c : NodeCrash K) :
    Option (CommitState K) := do
  let disk := s.diskAfter c
  let c₁ ← (disk.opened (s.sizeAfter cfg c)).resetDelLog
    (disk.startupTmp ++ disk.tmp)
  let c₂ ← c₁.doFreeMinspace c.rounds
  c₂.replayItems (s.startupItems c)

def started (cfg : NodeConfig) (s : Node K) (c : NodeCrash K)
    (commit : CommitState K) : Node K :=
  let size := s.sizeAfter cfg c
  { alloc :=
      { commit := commit
        dataFileOffset := size.currWriteExtStart
        dataFileOffsetEnd := size.currWriteExtEnd
        prepare := none
        held := [] }
    disk := s.diskAfter c
    log := (SyncedLog.unsynced (s.logAfter c)).sync
      (if c.alt = [] then s.log.synced else 0)
    old := s.old
    txnStart := (s.logAfter c).length
    prevTransid := s.disk.size.currTransid
    currTransid := size.currTransid + 1
    trimQueue := [] }

/-- The next process; it commits if it has replayed items. -/
def restart (cfg : NodeConfig) (s : Node K) (c : NodeCrash K) :
    Option (Node K) :=
  (s.replay cfg c).bind fun commit =>
    if s.startupItems c = [] then some (s.started cfg c commit)
    else (s.started cfg c commit).lmdbCommit cfg true c.startupRounds

/-! ## Steps -/

end Node

inductive NodeEvent (K : Type) where
  | run (e : AllocEvent K)
  | walCommit
  | lmdbCommit (rounds : List SkipExtents)
  /-- the truncation of the log after a commit becomes durable -/
  | resetWal
  /-- the trim thread punches an extent -/
  | trimmed (item : SPunchItem)
  | crash (c : NodeCrash K)

namespace Node

def step (cfg : NodeConfig) (s : Node K) : NodeEvent K → Option (Node K)
  | .run e => s.run cfg e
  | .walCommit => s.walCommit cfg
  | .lmdbCommit rounds => s.lmdbCommit cfg false rounds
  | .resetWal => some { s with old := [] }
  | .trimmed item =>
    if item ∈ s.trimQueue then
      some { s with trimQueue := s.trimQueue.erase item }
    else none
  | .crash c => if s.CanCrash cfg c then s.restart cfg c else none

end Node

end Hs5
