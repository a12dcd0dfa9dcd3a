import Hs5.Storage.Freemap

/-!
# What the commit thread does with one item

`SingleFileStorage::operator()` takes items from its queues one at a time and
applies them to the open LMDB transaction.  This module embeds the actions
that allocate and free space: `Add` with the removal of the previous value of
the key, `Del`, `FreeExtents`, `FindFree` with its three allocation branches,
the two replayed free map actions, and the work of an LMDB commit.
-/

namespace Hs5

/-- The options that steer allocation.  `get_really_min_space` is zero. -/
structure AllocConfig where
  allocChunkSize : ℤ
  dataFileSizeLimit : ℤ
  minFreeSpace : ℤ
  deriving DecidableEq

/-- The open transaction and the variables of the commit thread. -/
structure CommitState (K : Type) [LinearOrder K] where
  main : OrderedMap K IndexValue
  fm : Freemap
  holes : OrderedMap ℤ ℤ
  dataFileMaxSize : ℤ
  currWriteExtStart : ℤ
  currWriteExtEnd : ℤ
  reservedExtents : OrderedMap ℤ ℤ
  forceFreespaceCheck : Bool
  deriving DecidableEq

/-- What `FindFree` learns from outside: whether `get_free_space_percent`
reaches `alloc_use_free_space_percent`, the free disk space at its first and
at its second inquiry, and the extents to keep away from. -/
structure FindFreeEnv where
  percentReached : Bool
  freeSpace : ℤ
  freeSpaceRetry : ℤ
  skip : SkipExtents
  deriving DecidableEq

/-- The result passed back through `SCommitInfo`. -/
inductive FindFreeAnswer where
  | found (newDatafileOffset newDatafileOffsetEnd : ℤ)
  | noSpace
  deriving DecidableEq

/-- Free map changes that `FindFree` logs for replay. -/
inductive FreemapWal where
  | addFreemapWal (offset len : ℤ)
  | delFreemapWal (offset len : ℤ)
  deriving DecidableEq

structure FindFreeResult (K : Type) [LinearOrder K] where
  state : CommitState K
  answer : FindFreeAnswer
  wal : List FreemapWal

namespace CommitState

variable {K : Type} [LinearOrder K]

/-! ## Adding and removing keys -/

/-- The adjustment of the current write extent and of the file size by an
extent that is now in use. -/
def useExt (s : CommitState K) (e : SPunchItem) : CommitState K :=
  let size := e.offset + roundUp e.len
  { s with
    currWriteExtStart :=
      if size > s.currWriteExtStart ∧ size ≤ s.currWriteExtEnd then size
      else s.currWriteExtStart
    dataFileMaxSize :=
      if size > s.dataFileMaxSize then size else s.dataFileMaxSize }

def eraseReserved (s : CommitState K) (exts : List SPunchItem) :
    CommitState K :=
  { s with
    reservedExtents :=
      exts.foldl (fun m e => m.erase e.offset) s.reservedExtents }

def addFreemapExts (fm : Freemap) (exts : List SPunchItem) :
    Option Freemap :=
  exts.foldlM (fun fm e => fm.addFreemapExt e.offset e.len true) fm

def removeFn (s : CommitState K) (fn : K) (delFromMain : Bool) :
    Option (CommitState K) :=
  match s.main.lookup fn with
  | none => some s
  | some v =>
    (addFreemapExts s.fm v.extents).map fun fm =>
      { s with
        fm := fm
        main := if delFromMain then s.main.erase fn else s.main }

/-- The action `Add`.  An item replayed at startup does not move the current
write extent. -/
def add (s : CommitState K) (fn : K) (v : IndexValue)
    (fromStartupWal : Bool) : Option (CommitState K) :=
  (s.removeFn fn false).map fun s =>
    let s := if fromStartupWal then s else v.extents.foldl useExt s
    let s := s.eraseReserved v.extents
    { s with main := s.main.insert fn v }

def del (s : CommitState K) (fn : K) : Option (CommitState K) :=
  s.removeFn fn true

/-- The action `FreeExtents`; its trim set is dropped. -/
def freeExtents (s : CommitState K) (exts : List SPunchItem) :
    Option (CommitState K) :=
  (addFreemapExts s.fm exts).map fun fm =>
    { (exts.foldl useExt (s.eraseReserved exts)) with
      fm := { fm with trimItems := s.fm.trimItems } }

/-! ## Finding a new write extent -/

/-- Return the rest of the current write extent to the free map. -/
def addRemainingExt (s : CommitState K) : Option (CommitState K) :=
  (s.fm.addFreemapExt s.currWriteExtStart
    (s.currWriteExtEnd - s.currWriteExtStart) false).map
      fun fm => { s with fm := fm }

def appendChunk (s : CommitState K) (cfg : AllocConfig) : CommitState K :=
  { s with
    currWriteExtStart := s.dataFileMaxSize
    currWriteExtEnd := s.dataFileMaxSize + cfg.allocChunkSize }

def answerExt (s : CommitState K) (wal : List FreemapWal) :
    FindFreeResult K :=
  ⟨s, .found s.currWriteExtStart s.currWriteExtEnd, wal⟩

/-- Take the extent that `find_freemap_ext` selects, or append. -/
def takeFreeExt (s : CommitState K) (cfg : AllocConfig) (env : FindFreeEnv)
    (wal : List FreemapWal) : Option (FindFreeResult K) :=
  match s.fm.findFreemapExt env.skip with
  | some (start, len) =>
    (s.fm.delFreemapExt start len).map fun fm =>
      answerExt
        { s with
          fm := fm
          currWriteExtStart := start
          currWriteExtEnd := start + len }
        (wal ++ [.delFreemapWal start len])
  | none =>
    if env.freeSpaceRetry < cfg.minFreeSpace ∨ env.freeSpaceRetry < 0 then
      some ⟨s, .noSpace, wal⟩
    else some (answerExt (s.appendChunk cfg) wal)

/-- The part of `FindFree` under `search_for_free_space`. -/
def searchFreeSpace (s : CommitState K) (cfg : AllocConfig)
    (env : FindFreeEnv) (addRemaining : Bool) (wal : List FreemapWal) :
    Option (FindFreeResult K) :=
  if s.currWriteExtEnd - s.currWriteExtStart ≥ blockSize ∧ addRemaining then
    s.addRemainingExt.bind fun s' =>
    s'.takeFreeExt cfg env (wal ++ [.addFreemapWal s.currWriteExtStart
      (s.currWriteExtEnd - s.currWriteExtStart)])
  else s.takeFreeExt cfg env wal

/-- The branch that goes back to appending although free extents were in
use. -/
def findFreeForced (s : CommitState K) (cfg : AllocConfig)
    (env : FindFreeEnv) (addRemaining : Bool) (wal : List FreemapWal) :
    Option (FindFreeResult K) :=
  if env.freeSpace > cfg.minFreeSpace + cfg.allocChunkSize ∧
      env.freeSpace > cfg.allocChunkSize then
    some (answerExt (s.appendChunk cfg) wal)
  else
    { s with forceFreespaceCheck := false }.searchFreeSpace cfg env
      addRemaining wal

def findFree (s : CommitState K) (cfg : AllocConfig) (env : FindFreeEnv)
    (offset : ℤ) : Option (FindFreeResult K) :=
  let s :=
    { s with
      currWriteExtStart :=
        if offset > s.currWriteExtStart then offset else s.currWriteExtStart
      dataFileMaxSize :=
        if offset > s.dataFileMaxSize then offset else s.dataFileMaxSize }
  if s.currWriteExtStart = s.dataFileMaxSize ∧ env.percentReached then
    s.searchFreeSpace cfg env true []
  else if s.currWriteExtStart = s.dataFileMaxSize then
    if (cfg.dataFileSizeLimit ≤ 0 ∨
          s.currWriteExtStart + cfg.allocChunkSize < cfg.dataFileSizeLimit) ∧
        env.freeSpace > cfg.minFreeSpace ∧ env.freeSpace > 0 then
      some (answerExt
        { s with
          currWriteExtEnd := s.currWriteExtStart + cfg.allocChunkSize } [])
    else
      { s with forceFreespaceCheck := false }.searchFreeSpace cfg env false []
  else if s.forceFreespaceCheck ∧ ¬ env.percentReached then
    if s.currWriteExtEnd - s.currWriteExtStart ≥ blockSize then
      s.addRemainingExt.bind fun s' =>
        s'.findFreeForced cfg env false [.addFreemapWal s.currWriteExtStart
          (s.currWriteExtEnd - s.currWriteExtStart)]
    else s.findFreeForced cfg env true []
  else s.searchFreeSpace cfg env true []

/-! ## Replayed free map actions and the LMDB commit -/

def applyFreemapWal (s : CommitState K) : FreemapWal → Option (CommitState K)
  | .addFreemapWal offset len =>
    (s.fm.addFreemapExt offset len false).map fun fm =>
      { s with fm := fm }
  | .delFreemapWal offset len =>
    (s.fm.delFreemapExt offset len).map fun fm => { s with fm := fm }

/-- One round of `do_free_minspace`: punch a hole for a free extent and move
it to `dbi_holes`. -/
def punchHole (s : CommitState K) (skip : SkipExtents) :
    Option (CommitState K) :=
  match s.fm.findFreemapExt skip with
  | none => some s
  | some (start, len) =>
    (s.fm.delFreemapExt start len).map fun fm =>
      { s with fm := fm, holes := s.holes.insert start len }

/-- `do_free_minspace`, one round for each inquiry that still finds too little
free disk space. -/
def doFreeMinspace (s : CommitState K) (rounds : List SkipExtents) :
    Option (CommitState K) :=
  rounds.foldlM punchHole s

/-- The reserved extents that a commit stores: those outside of the current
write extent. -/
def localReserved (c : CommitState K) : List SPunchItem :=
  (c.reservedExtents.entries.filter fun p =>
    p.1 + p.2 ≤ c.dataFileMaxSize ∧
      ¬ (c.currWriteExtStart ≤ p.1 ∧ p.1 + p.2 ≤ c.currWriteExtEnd)).map
    fun p => ⟨p.1, p.2⟩

def useReserved (c : CommitState K) : CommitState K :=
  c.localReserved.foldl useExt c

def committed (c : CommitState K) : CommitState K :=
  { c with fm := { c.fm with currNewFreeExtents := [], trimItems := [] } }

def commit (s : CommitState K) (rounds : List SkipExtents) :
    Option (CommitState K) :=
  (s.doFreeMinspace rounds).map fun s => s.useReserved.committed

end CommitState

end Hs5
