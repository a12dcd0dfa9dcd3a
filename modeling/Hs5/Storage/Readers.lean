import Hs5.Storage.NoReuse

/-!
# Readers and the trim thread

`read_prepare` returns the extents of an object and keeps them from being
reused until `read_finalize`.  Its fast path takes three steps: it looks for
the key in `commit_items`, reads the last committed LMDB transaction, and then
looks at `commit_items` again and counts itself as a reader of the first
extent in `reading_items`.  If there is an entry in `commit_items`, the commit
thread reads the open transaction and counts the reader.
-/

namespace Hs5

open Cover Transition

/-! ## State -/

structure ReadingItem where
  refs : ℤ
  freeSkip : Bool
  deriving DecidableEq

/-- How far a reader has come; `seen` is the data file when `read_prepare`
returned. -/
inductive ReadStage where
  /-- `commit_items` has no entry -/
  | checked
  /-- the value was read from the last LMDB commit -/
  | found (v : IndexValue)
  /-- a `ReadFragInfo` item is queued -/
  | queued
  /-- `read_prepare` has returned -/
  | reading (v : IndexValue) (seen : ℤ → UInt8)

structure Reader (K : Type) where
  fn : K
  readNewest : Bool
  stage : ReadStage

/-- The options of the storage, and the common prefix of the versions of a
key with its hash. -/
structure ReadConfig (K P : Type) where
  node : NodeConfig
  commonPrefix : K → P
  prefixHash : P → ℕ

/-- `common_prefix_hash_func` -/
def ReadConfig.hash {K P : Type} (cfg : ReadConfig K P) (fn : K) : ℕ :=
  cfg.prefixHash (cfg.commonPrefix fn)

structure ReadNode (K : Type) [LinearOrder K] where
  node : Node K
  /-- an LMDB commit is done and `commit_items` not cleaned yet -/
  committing : Bool
  commitItems : OrderedMap ℕ ℕ
  readingItems : OrderedMap ℤ ReadingItem
  readingFreeSkipExtents : List ℤ
  trimQueue : List SPunchItem
  readingTrimExtents : List SPunchItem
  /-- the range for which the trim thread calls `punchHole` -/
  punching : Option SPunchItem
  doTrim : Bool
  readers : OrderedMap ℕ (Reader K)
  nextReader : ℕ
  data : ℤ → UInt8
  /-- the writes that the data thread of the log is to carry out -/
  dataWriteQueue : List (ℤ × List UInt8)

inductive ReadEvent (K : Type) where
  /-- an item on the key is queued -/
  | enqueue (fn : K)
  | run (e : AllocEvent K)
  | walCommit
  | lmdbCommit (rounds : List SkipExtents)
  | cleanCommitItems
  | resetWal
  | crash (c : NodeCrash K) (data : ℤ → UInt8)
  /-- `write_ext` of an upload that holds the extent, with the zeros that fill
  the last page -/
  | writeExt (e : SPunchItem) (offset : ℤ) (bytes : List UInt8)
      (walWriteThread : Bool)
  /-- the data thread writes the next item of its queue -/
  | dataWrite
  | readPrepare (fn : K) (readNewest readUnsynced : Bool)
  | readSnapshot (reader : ℕ)
  | readPin (reader : ℕ)
  /-- the commit thread runs the `ReadFragInfo` item -/
  | readFragInfo (reader : ℕ)
  | readFinalize (reader : ℕ)
  /-- the ranges put aside come back to the queue -/
  | retryTrim
  /-- the trim thread takes a range from its queue -/
  | trim
  | punch
  /-- `punchHole` returns -/
  | trimmed (ok : Bool)

variable {K P : Type} [LinearOrder K] [DecidableEq P]

/-! ## Readers -/

/-- The index value has an extent of its own in the data file. -/
def IndexValue.HasExtents (v : IndexValue) : Prop := v.offset ≠ 0 ∨ 0 < v.len
  deriving Decidable

def IndexValue.offsets (v : IndexValue) : List ℤ :=
  v.extents.map SPunchItem.offset

/-- The entry that `get_frag_info` finds: that of the key, or that of the
newest version. -/
def findFragInfo {V : Type} (commonPrefix : K → P) (main : OrderedMap K V)
    (fn : K) (readNewest : Bool) : Option (K × V) :=
  if readNewest then
    main.entries.find? fun p => commonPrefix p.1 = commonPrefix fn
  else (main.lookup fn).map fun v => (fn, v)

def getFragInfo (cfg : ReadConfig K P) (main : OrderedMap K IndexValue)
    (fn : K) (readNewest : Bool) : Option IndexValue :=
  (findFragInfo cfg.commonPrefix main fn readNewest).map Prod.snd

namespace ReadNode

def main (s : ReadNode K) : OrderedMap K IndexValue := s.node.alloc.commit.main

def addReadingItem (s : ReadNode K) (offset : ℤ) : ReadNode K :=
  let item := (s.readingItems.lookup offset).getD ⟨0, false⟩
  { s with
    readingItems :=
      s.readingItems.insert offset { item with refs := item.refs + 1 } }

def removeReadingItem (s : ReadNode K) (v : IndexValue) : ReadNode K :=
  if v.offset = 0 ∧ v.len = 0 then s
  else
    match s.readingItems.lookup v.offset with
    | none => s
    | some item =>
      if item.refs - 1 ≤ 0 then
        { s with
          readingItems := s.readingItems.erase v.offset
          readingFreeSkipExtents :=
            if item.freeSkip then
              s.readingFreeSkipExtents.filter fun o => o ∉ v.offsets
            else s.readingFreeSkipExtents }
      else
        { s with
          readingItems := s.readingItems.insert v.offset
            { item with refs := item.refs - 1 } }

/-- The part of `remove_fn` about the readers of the value that is removed. -/
def skipReading (s : ReadNode K) (v : IndexValue) : ReadNode K :=
  if v.HasExtents then
    match s.readingItems.lookup v.offset with
    | none => s
    | some item =>
      { s with
        readingItems :=
          s.readingItems.insert v.offset { item with freeSkip := true }
        readingFreeSkipExtents := v.offsets ++ s.readingFreeSkipExtents }
  else s

def setStage (s : ReadNode K) (reader : ℕ) (r : Reader K)
    (stage : ReadStage) : ReadNode K :=
  { s with readers := s.readers.insert reader { r with stage := stage } }

/-- `read_prepare` returns the value, and the reader is counted. -/
def pin (s : ReadNode K) (reader : ℕ) (r : Reader K) (v : IndexValue) :
    ReadNode K :=
  let s := s.setStage reader r (.reading v s.data)
  if v.HasExtents then s.addReadingItem v.offset else s

def leave (s : ReadNode K) (reader : ℕ) : ReadNode K :=
  { s with readers := s.readers.erase reader }

def readPrepare (cfg : ReadConfig K P) (s : ReadNode K) (fn : K)
    (readNewest readUnsynced : Bool) : ReadNode K :=
  let stage :=
    if readUnsynced ∨ (s.commitItems.lookup (cfg.hash fn)).isSome then
      ReadStage.queued
    else .checked
  { s with
    readers := s.readers.insert s.nextReader ⟨fn, readNewest, stage⟩
    nextReader := s.nextReader + 1 }

def readSnapshot (cfg : ReadConfig K P) (s : ReadNode K) (reader : ℕ) :
    Option (ReadNode K) := do
  let r ← s.readers.lookup reader
  match r.stage with
  | .checked =>
    match getFragInfo cfg s.node.disk.main r.fn r.readNewest with
    | none => some (s.leave reader)
    | some v => some (s.setStage reader r (.found v))
  | _ => none

/-- The second look at `commit_items`, for values with extents. -/
def readPin (cfg : ReadConfig K P) (s : ReadNode K) (reader : ℕ) :
    Option (ReadNode K) := do
  let r ← s.readers.lookup reader
  match r.stage with
  | .found v =>
    if v.HasExtents ∧ (s.commitItems.lookup (cfg.hash r.fn)).isSome then
      some (s.setStage reader r .queued)
    else some (s.pin reader r v)
  | _ => none

/-- The action `ReadFragInfo`.  A value that is not found has the offset -1,
which counts as an offset of a reader. -/
def readFragInfo (cfg : ReadConfig K P) (s : ReadNode K) (reader : ℕ) :
    Option (ReadNode K) := do
  let r ← s.readers.lookup reader
  match r.stage with
  | .queued =>
    match getFragInfo cfg s.main r.fn r.readNewest with
    | none => some ((s.leave reader).addReadingItem (-1))
    | some v => some (s.pin reader r v)
  | _ => none

def readFinalize (s : ReadNode K) (reader : ℕ) : Option (ReadNode K) := do
  let r ← s.readers.lookup reader
  match r.stage with
  | .reading v _ => some ((s.removeReadingItem v).leave reader)
  | _ => none

/-! ## Items -/

/-- The key of an item that `commit_items` counts. -/
def itemKey : AllocEvent K → Option K
  | .add fn _ _ _ => some fn
  | .del fn => some fn
  | _ => none

def skipReadingFn (s : ReadNode K) (fn : K) : ReadNode K :=
  match s.main.lookup fn with
  | some v => s.skipReading v
  | none => s

/-- The commit thread takes an item from its queue; the value of its key is
removed. -/
def takeItem (cfg : ReadConfig K P) (s : ReadNode K) (fn : K) :
    Option (ReadNode K) :=
  match s.commitItems.lookup (cfg.hash fn) with
  | some (n + 1) =>
    some ({ s with
      commitItems := s.commitItems.insert (cfg.hash fn) n }.skipReadingFn fn)
  | _ => none

/-- What the commit thread does not do during the end of an LMDB commit, and
that the search for free space stays away from what is being read. -/
def canRun (s : ReadNode K) : AllocEvent K → Bool
  | .add _ _ _ _ | .del _ | .freeExtents _ => !s.committing
  | .findFree env => !s.committing &&
      env.skip.readingFreeSkipExtents = s.readingFreeSkipExtents
  | _ => true

def takeEvent (cfg : ReadConfig K P) (s : ReadNode K) (e : AllocEvent K) :
    Option (ReadNode K) :=
  match itemKey e with
  | some fn => s.takeItem cfg fn
  | none => some s

def run (cfg : ReadConfig K P) (s : ReadNode K) (e : AllocEvent K) :
    Option (ReadNode K) :=
  if s.canRun e then do
    let node ← s.node.run cfg.node e
    let taken ← s.takeEvent cfg e
    some { taken with node := node }
  else none

/-- `enqueue` of an item that `commit_items` counts. -/
def enqueue (cfg : ReadConfig K P) (s : ReadNode K) (fn : K) : ReadNode K :=
  let count := (s.commitItems.lookup (cfg.hash fn)).getD 0
  { s with commitItems := s.commitItems.insert (cfg.hash fn) (count + 1) }

/-! ## Commits and trimming -/

/-- `run_trim_queue` has put the new ranges on the queue. -/
def pushTrim (s : ReadNode K) (node : Node K) : ReadNode K :=
  { s with
    node := node
    trimQueue := s.trimQueue ++ node.trimQueue.drop s.node.trimQueue.length }

def zero (data : ℤ → UInt8) (offset len : ℤ) : ℤ → UInt8 :=
  fun x => if offset ≤ x ∧ x < offset + len then 0 else data x

/-- The data file after `do_free_minspace` has punched the new holes. -/
def zeroHoles (s : ReadNode K) (node : Node K) : ℤ → UInt8 :=
  (node.alloc.commit.holes.entries.filter fun p =>
    p ∉ s.node.alloc.commit.holes.entries).foldl
    (fun data p => zero data p.1 p.2) s.data

def walCommit (cfg : ReadConfig K P) (s : ReadNode K) :
    Option (ReadNode K) :=
  if s.committing then none
  else (s.node.walCommit cfg.node).map s.pushTrim

def lmdbCommit (cfg : ReadConfig K P) (s : ReadNode K)
    (rounds : List SkipExtents) : Option (ReadNode K) :=
  if ¬ s.committing ∧ ∀ skip ∈ rounds,
      skip.readingFreeSkipExtents = s.readingFreeSkipExtents then
    (s.node.lmdbCommit cfg.node false rounds).map fun node =>
    { s.pushTrim node with
      committing := true
      data := s.zeroHoles node }
  else none

/-- After an LMDB commit the entries of `commit_items` without queued items
are removed. -/
def cleanCommitItems (s : ReadNode K) : Option (ReadNode K) :=
  if s.committing then
    some { s with
      committing := false
      commitItems := s.commitItems.filter fun p => p.2 ≠ 0 }
  else none

/-- One round of `run_trim_thread` up to the call of `punchHole`. -/
def trim (s : ReadNode K) : Option (ReadNode K) :=
  match s.punching, s.trimQueue with
  | none, item :: rest =>
    let s := { s with trimQueue := rest }
    if hasPointIn s.readingFreeSkipExtents item.offset item.len then
      some { s with
        readingTrimExtents := s.readingTrimExtents ++ [item] }
    else if s.doTrim then some { s with punching := some item }
    else some { s with
      node := { s.node with trimQueue := s.node.trimQueue.erase item } }
  | _, _ => none

def trimmed (s : ReadNode K) (ok : Bool) : Option (ReadNode K) :=
  s.punching.map fun item =>
    { s with
      node := { s.node with trimQueue := s.node.trimQueue.erase item }
      punching := none
      doTrim := ok }

def writeBytes (data : ℤ → UInt8) (offset : ℤ) (bytes : List UInt8) :
    ℤ → UInt8 :=
  fun x => if offset ≤ x then (bytes[(x - offset).toNat]?).getD (data x)
    else data x

def writeExt (s : ReadNode K) (offset : ℤ) (bytes : List UInt8)
    (walWriteThread : Bool) : ReadNode K :=
  if walWriteThread then
    { s with dataWriteQueue := s.dataWriteQueue ++ [(offset, bytes)] }
  else { s with data := writeBytes s.data offset bytes }

/-- One round of `dataWriteThread`. -/
def dataWrite (s : ReadNode K) : Option (ReadNode K) :=
  match s.dataWriteQueue with
  | [] => none
  | (offset, bytes) :: rest =>
    some { s with
      data := writeBytes s.data offset bytes
      dataWriteQueue := rest }

def started (node : Node K) (nextReader : ℕ) (data : ℤ → UInt8) :
    ReadNode K where
  node := node
  committing := false
  commitItems := OrderedMap.empty
  readingItems := OrderedMap.empty
  readingFreeSkipExtents := []
  trimQueue := []
  readingTrimExtents := []
  punching := none
  doTrim := true
  readers := OrderedMap.empty
  nextReader := nextReader
  data := data
  dataWriteQueue := []

def init (cfg : ReadConfig K P) : ReadNode K :=
  started (Node.init cfg.node) 0 fun _ => 0

/-! ## Steps -/

def step (cfg : ReadConfig K P) (s : ReadNode K) :
    ReadEvent K → Option (ReadNode K)
  | .enqueue fn => some (s.enqueue cfg fn)
  | .run e => s.run cfg e
  | .walCommit => s.walCommit cfg
  | .lmdbCommit rounds => s.lmdbCommit cfg rounds
  | .cleanCommitItems => s.cleanCommitItems
  | .resetWal => some { s with node := { s.node with old := [] } }
  | .crash c data =>
    (s.node.step cfg.node (.crash c)).map fun node =>
      started node s.nextReader data
  | .writeExt e offset bytes walWriteThread =>
    if e ∈ s.node.alloc.held ∧ 0 ≤ offset ∧
        offset + bytes.length ≤ roundUp e.len then
      some (s.writeExt (e.offset + offset) bytes walWriteThread)
    else none
  | .dataWrite => s.dataWrite
  | .readPrepare fn readNewest readUnsynced =>
    some (s.readPrepare cfg fn readNewest readUnsynced)
  | .readSnapshot reader => s.readSnapshot cfg reader
  | .readPin reader => s.readPin cfg reader
  | .readFragInfo reader =>
    if s.committing then none else s.readFragInfo cfg reader
  | .readFinalize reader => s.readFinalize reader
  | .retryTrim =>
    some { s with
      trimQueue := s.trimQueue ++ s.readingTrimExtents
      readingTrimExtents := [] }
  | .trim => s.trim
  | .punch =>
    s.punching.map fun item =>
      { s with data := zero s.data item.offset item.len }
  | .trimmed ok => s.trimmed ok

end ReadNode

end Hs5
