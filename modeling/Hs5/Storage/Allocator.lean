import Hs5.Storage.Commit
import Hs5.Support.Transition

/-!
# Writers and the commit thread

`write_prepare` reserves space for an upload under `datafileoffset_mutex`.
It cuts extents off the current write extent and, when that is used up,
queues a `FindFree` item and waits for the commit thread while still holding
the mutex.  Other items are processed meanwhile, so one call is several steps
here: entering the function, one step for each round of its loop, asking for
space, and taking the answer.
-/

namespace Hs5

open Option

/-- Where the writer inside `write_prepare` stands with `FindFree`. -/
inductive FindFreeWait where
  | idle
  | asked (offset : ℤ)
  | answered (answer : FindFreeAnswer)
  deriving DecidableEq

/-- The local variables of a running `write_prepare`. -/
structure Prepare where
  dataSize : ℤ
  dataSizeRemaining : ℤ
  extents : List Ext
  wait : FindFreeWait
  deriving DecidableEq

structure AllocState (K : Type) [LinearOrder K] where
  commit : CommitState K
  dataFileOffset : ℤ
  dataFileOffsetEnd : ℤ
  prepare : Option Prepare
  held : List SPunchItem
  deriving DecidableEq

inductive AllocEvent (K : Type) where
  | writePrepare (dataSize : ℤ)
  | askFindFree
  | prepareExt
  | takeFindFree
  | failPrepare
  | finishPrepare
  | removeExtentEnd (e : SPunchItem) (toremove : ℤ)
  | add (fn : K) (exts : List SPunchItem) (lastModified : ℤ) (md5sum : Bytes)
  | del (fn : K)
  | freeExtents (exts : List SPunchItem)
  | findFree (env : FindFreeEnv)
  | commit (rounds : List SkipExtents)

/-- The index value an `Add` item stores for a list of extents; an empty
object has the extent (0, 0). -/
def indexValueOf (exts : List SPunchItem) (lastModified : ℤ)
    (md5sum : Bytes) : IndexValue :=
  match exts with
  | [] => ⟨0, 0, [], lastModified, md5sum⟩
  | e :: exts => ⟨e.offset, e.len, exts, lastModified, md5sum⟩

namespace AllocState

variable {K : Type} [LinearOrder K]

/-- The state the constructor leaves for an empty store. -/
def init (cfg : AllocConfig) : AllocState K where
  commit :=
    { main := OrderedMap.empty
      fm := ⟨OrderedMap.empty, [], 0, [], []⟩
      holes := OrderedMap.empty
      dataFileMaxSize := 0
      currWriteExtStart := 0
      currWriteExtEnd := cfg.allocChunkSize
      reservedExtents := OrderedMap.empty
      forceFreespaceCheck := true }
  dataFileOffset := 0
  dataFileOffsetEnd := cfg.allocChunkSize
  prepare := none
  held := []

def needsFindFree (s : AllocState K) : Prop :=
  s.dataFileOffsetEnd > 0 ∧ s.dataFileOffset ≥ s.dataFileOffsetEnd
  deriving Decidable

/-- Length of the next extent: what is left of the write extent, or all that
is wanted if the write extent has no end. -/
def nextExtLen (s : AllocState K) (p : Prepare) : ℤ :=
  if s.dataFileOffsetEnd > s.dataFileOffset then
    min p.dataSizeRemaining (s.dataFileOffsetEnd - s.dataFileOffset)
  else p.dataSizeRemaining

/-- The end of one round of the loop in `write_prepare`: cut an extent off the
current write extent and reserve it. -/
def cutExt (s : AllocState K) (p : Prepare) : AllocState K :=
  let len := s.nextExtLen p
  { s with
    dataFileOffset := s.dataFileOffset + roundUp len
    prepare := some
      { p with
        dataSizeRemaining := p.dataSizeRemaining - len
        extents := p.extents ++
          [⟨p.dataSize - p.dataSizeRemaining, s.dataFileOffset, len⟩]
        wait := .idle }
    commit :=
      { s.commit with
        reservedExtents :=
          s.commit.reservedExtents.insert s.dataFileOffset len }
    held := ⟨s.dataFileOffset, len⟩ :: s.held }

def consume (s : AllocState K) (exts : List SPunchItem)
    (c : CommitState K) : AllocState K :=
  { s with commit := c, held := s.held.diff exts }

/-- What a form upload holds after it has given up the last `toremove` bytes
of an extent (`remove_extent_end`): the rest of the extent and, unless they
end in the block they start in, the removed bytes, for which a `FreeExtents`
item is queued. -/
def removeEnd (e : SPunchItem) (toremove : ℤ) : List SPunchItem :=
  let offset := e.offset + (e.len - toremove)
  ⟨e.offset, e.len - toremove⟩ ::
    if offset.tdiv blockSize = (offset + toremove).tdiv blockSize then []
    else [⟨offset, toremove⟩]

/-- One step of the system; `none` if the event is not possible. -/
def step (cfg : AllocConfig) (s : AllocState K) :
    AllocEvent K → Option (AllocState K)
  | .writePrepare dataSize =>
    if s.prepare = none ∧ 0 < dataSize then
      some { s with prepare := some ⟨dataSize, dataSize, [], .idle⟩ }
    else none
  | .askFindFree => do
      let p ← s.prepare
      if p.wait = .idle ∧ 0 < p.dataSizeRemaining ∧ s.needsFindFree then
        some { s with
          prepare := some { p with wait := .asked s.dataFileOffsetEnd } }
      else none
  | .prepareExt => do
      let p ← s.prepare
      if p.wait = .idle ∧ 0 < p.dataSizeRemaining ∧ ¬ s.needsFindFree then
        some (s.cutExt p)
      else none
  | .takeFindFree => do
      let p ← s.prepare
      match p.wait with
      | .answered (.found start fin) =>
        some ({ s with
          dataFileOffset := start
          dataFileOffsetEnd := fin }.cutExt p)
      | _ => none
  | .failPrepare => do
      let p ← s.prepare
      if p.wait = .answered .noSpace then some { s with prepare := none }
      else none
  | .finishPrepare => do
      let p ← s.prepare
      if p.wait = .idle ∧ p.dataSizeRemaining ≤ 0 then
        some { s with prepare := none }
      else none
  | .removeExtentEnd e toremove =>
    if e ∈ s.held ∧ 0 < toremove ∧ toremove < e.len then
      some { s with held := removeEnd e toremove ++ s.held.erase e }
    else none
  | .add fn exts lastModified md5sum =>
    if exts.Subperm s.held then
      (s.commit.add fn (indexValueOf exts lastModified md5sum) false).map
        (s.consume exts)
    else none
  | .del fn =>
    (s.commit.del fn).map fun c => { s with commit := c }
  | .freeExtents exts =>
    if exts.Subperm s.held then
      (s.commit.freeExtents exts).map (s.consume exts)
    else none
  | .findFree env => do
      let p ← s.prepare
      match p.wait with
      | .asked offset =>
        (s.commit.findFree cfg env offset).map fun r =>
          { s with
            commit := r.state
            prepare := some { p with wait := .answered r.answer } }
      | _ => none
  | .commit rounds =>
    (s.commit.commit rounds).map fun c => { s with commit := c }

/-! ## What each step does -/

/-- The steps of the system, each with the condition it is taken under. -/
inductive Steps (cfg : AllocConfig) (s : AllocState K) :
    AllocEvent K → AllocState K → Prop
  | writePrepare {dataSize : ℤ} (hp : s.prepare = none) (hpos : 0 < dataSize) :
      Steps cfg s (.writePrepare dataSize)
        { s with prepare := some ⟨dataSize, dataSize, [], .idle⟩ }
  | askFindFree {p : Prepare} (hp : s.prepare = some p)
      (hidle : p.wait = .idle) (hrem : 0 < p.dataSizeRemaining)
      (hneeds : s.needsFindFree) :
      Steps cfg s .askFindFree { s with
        prepare := some { p with wait := .asked s.dataFileOffsetEnd } }
  | prepareExt {p : Prepare} (hp : s.prepare = some p)
      (hidle : p.wait = .idle) (hrem : 0 < p.dataSizeRemaining)
      (hneeds : ¬ s.needsFindFree) : Steps cfg s .prepareExt (s.cutExt p)
  | takeFindFree {p : Prepare} {start fin : ℤ} (hp : s.prepare = some p)
      (hwait : p.wait = .answered (.found start fin)) :
      Steps cfg s .takeFindFree ({ s with
        dataFileOffset := start, dataFileOffsetEnd := fin }.cutExt p)
  | failPrepare {p : Prepare} (hp : s.prepare = some p)
      (hwait : p.wait = .answered .noSpace) :
      Steps cfg s .failPrepare { s with prepare := none }
  | finishPrepare {p : Prepare} (hp : s.prepare = some p)
      (hidle : p.wait = .idle) :
      Steps cfg s .finishPrepare { s with prepare := none }
  | removeExtentEnd {e : SPunchItem} {toremove : ℤ} (he : e ∈ s.held)
      (hpos : 0 < toremove) (hlt : toremove < e.len) :
      Steps cfg s (.removeExtentEnd e toremove)
        { s with held := removeEnd e toremove ++ s.held.erase e }
  | add {fn : K} {exts : List SPunchItem} {lastModified : ℤ} {md5sum : Bytes}
      {c : CommitState K} (hexts : exts.Subperm s.held)
      (hc : s.commit.add fn (indexValueOf exts lastModified md5sum) false =
        some c) :
      Steps cfg s (.add fn exts lastModified md5sum) (s.consume exts c)
  | del {fn : K} {c : CommitState K} (hc : s.commit.del fn = some c) :
      Steps cfg s (.del fn) { s with commit := c }
  | freeExtents {exts : List SPunchItem} {c : CommitState K}
      (hexts : exts.Subperm s.held)
      (hc : s.commit.freeExtents exts = some c) :
      Steps cfg s (.freeExtents exts) (s.consume exts c)
  | findFree {env : FindFreeEnv} {p : Prepare} {offset : ℤ}
      {r : FindFreeResult K} (hp : s.prepare = some p)
      (hwait : p.wait = .asked offset)
      (hr : s.commit.findFree cfg env offset = some r) :
      Steps cfg s (.findFree env) { s with
        commit := r.state
        prepare := some { p with wait := .answered r.answer } }
  | commit {rounds : List SkipExtents} {c : CommitState K}
      (hc : s.commit.commit rounds = some c) :
      Steps cfg s (.commit rounds) { s with commit := c }

theorem step_steps {cfg : AllocConfig} {s s' : AllocState K}
    {e : AllocEvent K} (h : step cfg s e = some s') : Steps cfg s e s' := by
  cases e with
  | writePrepare dataSize =>
    obtain ⟨⟨hp, hpos⟩, h⟩ := ite_none_right_eq_some.mp h
    cases h
    exact .writePrepare hp hpos
  | askFindFree =>
    obtain ⟨p, hp, h⟩ := bind_eq_some_iff.mp h
    obtain ⟨⟨hidle, hrem, hneeds⟩, h⟩ := ite_none_right_eq_some.mp h
    cases h
    exact .askFindFree hp hidle hrem hneeds
  | prepareExt =>
    obtain ⟨p, hp, h⟩ := bind_eq_some_iff.mp h
    obtain ⟨⟨hidle, hrem, hneeds⟩, h⟩ := ite_none_right_eq_some.mp h
    cases h
    exact .prepareExt hp hidle hrem hneeds
  | takeFindFree =>
    obtain ⟨p, hp, h⟩ := bind_eq_some_iff.mp h
    split at h
    · rename_i start fin hwait
      cases h
      exact .takeFindFree hp hwait
    · cases h
  | failPrepare =>
    obtain ⟨p, hp, h⟩ := bind_eq_some_iff.mp h
    obtain ⟨hwait, h⟩ := ite_none_right_eq_some.mp h
    cases h
    exact .failPrepare hp hwait
  | finishPrepare =>
    obtain ⟨p, hp, h⟩ := bind_eq_some_iff.mp h
    obtain ⟨hwait, h⟩ := ite_none_right_eq_some.mp h
    cases h
    exact .finishPrepare hp hwait.1
  | removeExtentEnd e toremove =>
    obtain ⟨⟨he, hpos, hlt⟩, h⟩ := ite_none_right_eq_some.mp h
    cases h
    exact .removeExtentEnd he hpos hlt
  | add fn exts lastModified md5sum =>
    obtain ⟨hexts, h⟩ := ite_none_right_eq_some.mp h
    obtain ⟨c, hc, rfl⟩ := map_eq_some_iff.mp h
    exact .add hexts hc
  | del fn =>
    obtain ⟨c, hc, rfl⟩ := map_eq_some_iff.mp h
    exact .del hc
  | freeExtents exts =>
    obtain ⟨hexts, h⟩ := ite_none_right_eq_some.mp h
    obtain ⟨c, hc, rfl⟩ := map_eq_some_iff.mp h
    exact .freeExtents hexts hc
  | findFree env =>
    obtain ⟨p, hp, h⟩ := bind_eq_some_iff.mp h
    split at h
    · rename_i offset hwait
      obtain ⟨r, hr, rfl⟩ := map_eq_some_iff.mp h
      exact .findFree hp hwait hr
    · cases h
  | commit rounds =>
    obtain ⟨c, hc, rfl⟩ := map_eq_some_iff.mp h
    exact .commit hc

end AllocState

end Hs5
