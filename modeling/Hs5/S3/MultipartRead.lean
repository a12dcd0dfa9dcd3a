import Hs5.Storage.WritePrepare
import Hs5.S3.PartExts
import Hs5.Support.Transition

/-!
# Reading multipart objects

A completed multipart object has no data of its own: a download walks over
the runs of its part list and reads one part after the other.  The place it
has reached is kept in `MultiPartDownloadData`, an index into the runs and
what is left of the run there, together with the extents of the current part,
moved to the part's place in the object.
-/

namespace Hs5

/-- What the downloads use of the storage: the extents that `read_prepare`
finds for a part of the upload, and the bytes of the data file. -/
structure PartStorage where
  readPrepare : ℤ → Option (List Ext)
  dataFile : ℤ → UInt8

def readData (dataFile : ℤ → UInt8) (offset len : ℤ) : Bytes :=
  (List.range len.toNat).map fun i : ℕ => dataFile (offset + (i : ℤ))

def PartStorage.readExt (sfs : PartStorage) (ext : Ext) (bufsize : ℤ) :
    Bytes :=
  readData sfs.dataFile ext.dataFileOffset (min ext.len bufsize)

/-- The error codes of the downloads, and the exception of a read that runs
out of data. -/
inductive ReadError where
  | enoent
  | eio
  | couldNotRead
  deriving DecidableEq

/-- `MultiPartDownloadData`: the runs, and the run the download is in with
what is left of it.  Before the first seek `extIdx` is `npos`. -/
structure MultiPartDownloadData where
  exts : List PartExt
  extIdx : Option ℕ
  currExt : PartExt

/-- `readMultipartExt`: the extents of the current part, moved to its place in
the object. -/
def readMultipartExt (sfs : PartStorage) (offset : ℤ)
    (data : MultiPartDownloadData) : Except ReadError (List Ext) :=
  match sfs.readPrepare data.currExt.start with
  | none => .error .eio
  | some extents => .ok (extents.map fun ext =>
    { ext with objOffset := ext.objOffset + offset })

/-- The loop of `seekMultipartExt` over the runs from `extIdx` on: the run
where it stops with what is left of it, and the offset of the part there. -/
def seekLoop (offset : ℤ) :
    List PartExt → ℕ → ℤ → Except ReadError (ℕ × PartExt × ℤ)
  | [], _, _ => .error .enoent
  | currExt :: rest, extIdx, seekOffset =>
    if seekOffset < offset then
      let toSeek := offset - seekOffset
      let numSeek := toSeek.tdiv currExt.size
      if numSeek > currExt.len then
        seekLoop offset rest (extIdx + 1)
          (seekOffset + currExt.size * currExt.len)
      else
        .ok (extIdx,
          { currExt with
            start := currExt.start + numSeek
            len := currExt.len - numSeek },
          seekOffset + numSeek * currExt.size)
    else .ok (extIdx, currExt, seekOffset)

/-- `seekMultipartExt`: nothing is done if the download has been positioned
before. -/
def seekMultipartExt (sfs : PartStorage) (offset : ℤ)
    (data : MultiPartDownloadData) (extents : List Ext) :
    Except ReadError (MultiPartDownloadData × List Ext) :=
  if data.exts = [] then .error .enoent
  else
    match data.extIdx with
    | some _ => .ok (data, extents)
    | none =>
      match seekLoop offset data.exts 0 0 with
      | .error err => .error err
      | .ok (extIdx, currExt, seekOffset) =>
        let data' := { data with extIdx := some extIdx, currExt := currExt }
        (readMultipartExt sfs seekOffset data').map fun extents =>
          (data', extents)

/-- The first run with a part in it, from `extIdx` on. -/
def nextRun : List PartExt → ℕ → Option (ℕ × PartExt)
  | [], _ => none
  | ext :: rest, extIdx =>
    if ext.len ≤ 0 then nextRun rest (extIdx + 1) else some (extIdx, ext)

/-- `readNextMultipartExt`: go to the next part and read its extents for the
given offset. -/
def readNextMultipartExt (sfs : PartStorage) (offset : ℤ)
    (data : MultiPartDownloadData) :
    Except ReadError (MultiPartDownloadData × List Ext) :=
  let next :=
    match data.extIdx with
    | none => nextRun data.exts 0
    | some extIdx =>
      let currExt := { data.currExt with
        start := data.currExt.start + 1
        len := data.currExt.len - 1 }
      if currExt.len ≤ 0 then
        nextRun (data.exts.drop (extIdx + 1)) (extIdx + 1)
      else some (extIdx, currExt)
  match next with
  | none => .error .enoent
  | some (extIdx, currExt) =>
    let data' := { data with extIdx := some extIdx, currExt := currExt }
    (readMultipartExt sfs offset data').map fun extents => (data', extents)

/-- The extent found by `upper_bound` and one step back. -/
def findExt (extents : List Ext) (offset : ℤ) : Option Ext :=
  (extents.takeWhile fun ext => ext.objOffset ≤ offset).getLast?

/-- What is left from the offset on of the extent that holds it; `none` if the
next part has to be read. -/
def extentAt (extents : List Ext) (offset : ℤ) : Option Ext :=
  match findExt extents offset with
  | none => none
  | some it =>
    if it.len = 0 ∨ it.objOffset + it.len ≤ offset then none
    else
      let extOffset := offset - it.objOffset
      some ⟨it.objOffset + extOffset, it.dataFileOffset + extOffset,
        it.len - extOffset⟩

/-! ## The download of a GET request -/

/-- What the worker thread posts to the event base. -/
inductive Posted where
  | body (data : Bytes) (totalLen : ℤ)
  | abort
  | stopped (didPause : Bool)
  deriving DecidableEq

/-- The worker thread: without a task, with `readObject` waiting to run, or at
the head of the loop of `readObject`. -/
inductive Worker where
  | idle
  | scheduled (offset : ℤ)
  | reading (offset : ℤ)
  deriving DecidableEq

/-- The fields of `S3Handler` that a download uses, the worker thread, what is
posted to the event base, and what the response consists of so far. -/
structure Download where
  data : MultiPartDownloadData
  extents : List Ext
  putRemaining : ℤ
  doneBytes : ℤ
  paused : Bool
  running : Bool
  finished : Bool
  worker : Worker
  posted : List Posted
  sent : Bytes
  eom : Bool
  aborted : Bool

/-- `onEgressPaused`, `onEgressResumed` and `onError` come from the
connection; `work` is a step of the worker thread and `runPosted` one of the
event base. -/
inductive DownloadEvent where
  | onEgressPaused
  | onEgressResumed
  | onError
  | work
  | runPosted
  deriving DecidableEq

namespace Download

/-- A download of `[rangeStart, rangeEnd)` when `getObject` has scheduled
`readObject`. -/
def init (exts : List PartExt) (rangeStart rangeEnd : ℤ) : Download where
  data := ⟨exts, none, ⟨0, 0, 0⟩⟩
  extents := []
  putRemaining := rangeEnd
  doneBytes := rangeStart
  paused := false
  running := true
  finished := false
  worker := .scheduled rangeStart
  posted := []
  sent := []
  eom := false
  aborted := false

/-- A download that has been positioned at a part before. -/
def initPart (data : MultiPartDownloadData) (extents : List Ext)
    (rangeStart rangeEnd : ℤ) : Download :=
  { init data.exts rangeStart rangeEnd with
    data := data
    extents := extents }

def onEgressResumed (s : Download) : Download :=
  if s.running = false ∧ s.finished = false then
    { s with
      paused := false
      running := true
      worker := .scheduled s.doneBytes }
  else { s with paused := false }

def leave (s : Download) (task : Posted) : Download :=
  { s with
    worker := .idle
    posted := s.posted ++ [task] }

def seek (sfs : PartStorage) (s : Download) (offset : ℤ) : Download :=
  match seekMultipartExt sfs offset s.data s.extents with
  | .error _ => s.leave .abort
  | .ok (data, extents) =>
    { s with
      data := data
      extents := extents
      worker := .reading offset }

def iterate (sfs : PartStorage) (bufsize : ℤ) (s : Download) (offset : ℤ) :
    Download :=
  if offset < s.putRemaining then
    if s.paused then s.leave (.stopped true)
    else
      match extentAt s.extents offset with
      | none =>
        match readNextMultipartExt sfs offset s.data with
        | .error _ => s.leave .abort
        | .ok (data, extents) =>
          { s with
            data := data
            extents := extents }
      | some currExt =>
        let rlen := min bufsize (s.putRemaining - offset)
        let body := sfs.readExt currExt rlen
        { s with
          posted := s.posted ++ [.body body s.putRemaining]
          worker := .reading (offset + body.length) }
  else { s with worker := .idle }

def runTask (s : Download) : Posted → Download
  | .body data totalLen =>
    if s.finished then s
    else
      let doneBytes := s.doneBytes + data.length
      let s' := { s with
        doneBytes := doneBytes
        sent := s.sent ++ data }
      if doneBytes = totalLen then
        { s' with
          eom := true
          finished := true
          running := false }
      else s'
  | .abort =>
    { s with
      aborted := true
      finished := true
      running := false }
  | .stopped didPause =>
    if s.finished then s
    else
      let s' := { s with running := false }
      if didPause ∧ s'.paused = false then s'.onEgressResumed else s'

def step (sfs : PartStorage) (bufsize : ℤ) (s : Download) :
    DownloadEvent → Option Download
  | .onEgressPaused => some { s with paused := true }
  | .onEgressResumed => some s.onEgressResumed
  | .onError =>
    some { s with
      finished := true
      paused := true }
  | .work =>
    match s.worker with
    | .idle => none
    | .scheduled offset => some (s.seek sfs offset)
    | .reading offset => some (s.iterate sfs bufsize offset)
  | .runPosted =>
    match s.posted with
    | [] => none
    | task :: rest => some ({ s with posted := rest }.runTask task)

/-- A step of the server, with nothing new from the client. -/
def Quiet (_ : Download) (e : DownloadEvent) : Prop :=
  e = .work ∨ e = .runPosted

end Download

/-! ## `ObjectReader` -/

/-- The fields of `ObjectReader` that `Read` uses. -/
structure ObjectReader where
  data : MultiPartDownloadData
  extents : List Ext
  fsize : ℤ

namespace ObjectReader

/-- A reader that has been opened and not read from. -/
def opened (exts : List PartExt) (fsize : ℤ) : ObjectReader :=
  ⟨⟨exts, none, ⟨0, 0, 0⟩⟩, [], fsize⟩

/-- The loop of `Read`: the reader and the bytes it has written to the
buffer.  Without fuel the loop is still running. -/
def readLoop (sfs : PartStorage) : ℕ → ObjectReader → ℤ → ℤ →
    Option (Except ReadError (ObjectReader × Bytes))
  | 0, _, _, _ => none
  | fuel + 1, r, bsize, offset =>
    if offset < r.fsize ∧ bsize > 0 then
      match extentAt r.extents offset with
      | none =>
        match readNextMultipartExt sfs offset r.data with
        | .error err => some (.error err)
        | .ok (data, extents) =>
          readLoop sfs fuel
            { r with
              data := data
              extents := extents }
            bsize offset
      | some currExt =>
        let rlen := min bsize (r.fsize - offset)
        let read := sfs.readExt currExt rlen
        (readLoop sfs fuel r (bsize - read.length)
          (offset + read.length)).map fun result =>
            result.map fun (r, rest) => (r, read ++ rest)
    else if bsize > 0 then some (.error .couldNotRead)
    else some (.ok (r, []))

def read (sfs : PartStorage) (fuel : ℕ) (r : ObjectReader)
    (bsize offset : ℤ) : Option (Except ReadError (ObjectReader × Bytes)) :=
  match seekMultipartExt sfs offset r.data r.extents with
  | .error err => some (.error err)
  | .ok (data, extents) =>
    readLoop sfs fuel
      { r with
        data := data
        extents := extents }
      bsize offset

/-- Reads of the given sizes, each from where the one before has ended. -/
def readPieces (sfs : PartStorage) (fuel : ℕ) : ObjectReader → ℤ → List ℤ →
    Option (Except ReadError (ObjectReader × Bytes))
  | r, _, [] => some (.ok (r, []))
  | r, offset, bsize :: rest =>
    match r.read sfs fuel bsize offset with
    | none => none
    | some (.error err) => some (.error err)
    | some (.ok (r, piece)) =>
      (readPieces sfs fuel r (offset + bsize) rest).map fun result =>
        result.map fun (r, pieces) => (r, piece ++ pieces)

end ObjectReader

end Hs5
