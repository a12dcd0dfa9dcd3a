import Hs5.Storage.PinMarks
import Hs5.S3.PartExts

/-!
# Requests that read objects

`getObject` opens the object with `read_prepare`, checks the request against
it, and hands it to `readObject`; on every way out the readers that were
counted have to leave.  `CopyObject` and `UploadPartCopy` read their source
through an `ObjectReader`, which does so when it is closed.
-/

namespace Hs5.S3

open Transition

/-! ## State -/

/-- What `parseMultipartInfo` finds in the metadata of a multipart object. -/
structure MultiPartInfo where
  uploadId : ℤ
  numParts : ℤ
  exts : List PartExt

/-- The storage, and what the metadata of an object says.  The entries of
multipart objects and of delete markers are stored without extents. -/
structure RequestConfig (K P : Type) where
  reads : ReadConfig K P
  multipart : IndexValue → Option MultiPartInfo
  tombstone : IndexValue → Bool
  partKey : ℤ → ℤ → K
  noExtents : ∀ v, (multipart v).isSome ∨ tombstone v = true → ¬ v.HasExtents

/-- A reader with the value that `read_prepare` has returned to it. -/
abbrev Opened := ℕ × IndexValue

/-- The fields of `S3Handler`, or of `ObjectReader`, for reading. -/
structure Handler where
  isCopy : Bool
  /-- the result of `read_prepare` for the object -/
  res : Opened
  multiPartDownloadData : Option MultiPartInfo
  /-- `currExt` and the runs after it, if `extIdx` is set -/
  currExt : Option (PartExt × List PartExt)
  needsFinalize : Bool
  extents : Opened

inductive RequestPhase where
  /-- `getObject` checks the request -/
  | checking
  /-- `seekMultipart` waits for `read_prepare` of a part -/
  | seeking (part : ℕ)
  /-- in `readObject`, or between two calls of `ObjectReader::Read` -/
  | reading
  /-- `readObject` waits for `read_prepare` of a part -/
  | loading (part : ℕ)
  /-- `readObject` has returned because the connection is paused -/
  | paused

inductive ReadRequest where
  /-- waiting for `read_prepare` of the object -/
  | preparing (isCopy : Bool) (reader : ℕ)
  | handling (h : Handler) (phase : RequestPhase)

structure ReadRequests (K : Type) [LinearOrder K] where
  node : ReadNode K
  requests : OrderedMap ℕ ReadRequest
  nextRequest : ℕ

inductive RequestEvent (K : Type) where
  /-- anything that the storage does other than for the calls below -/
  | storage (e : ReadEvent K)
  /-- `HEAD` or `GetObjectAttributes`: `read_prepare` with
  `ReadSkipAddReading` -/
  | readMeta (fn : K) (readNewest : Bool)
  /-- `GET`, or the source of a copy -/
  | start (isCopy : Bool) (fn : K) (readNewest : Bool)
  | prepared (request : ℕ)
  /-- `getObject` returns early: there is no such object, a bad range or part
  number, or a precondition does not hold -/
  | reject (request : ℕ)
  | seekPart (request : ℕ) (partNumber : ℤ)
  | startReading (request : ℕ)
  /-- the next bytes, at the offset, are in another part -/
  | readPart (request : ℕ) (offset : ℤ)
  | partPrepared (request : ℕ)
  /-- everything is read, or there was an error -/
  | finish (request : ℕ)
  | pause (request : ℕ)
  | resume (request : ℕ)
  /-- `onError` while `readObject` is not running -/
  | abort (request : ℕ)

/-! ## Finding a part -/

def seekMultipart (partNumber : ℤ) :
    List PartExt → Option (PartExt × List PartExt)
  | [] => none
  | e :: es =>
    if partNumber ≤ 0 then some (e, es)
    else
      let toSeek := min partNumber e.len
      if toSeek = partNumber then
        some (⟨e.size, e.start + toSeek, e.len - toSeek⟩, es)
      else seekMultipart (partNumber - toSeek) es

/-- The loop of `seekMultipartExt`, with the bytes that are left. -/
def seekMultipartExt (toSeek : ℤ) :
    List PartExt → Option (PartExt × List PartExt)
  | [] => none
  | e :: es =>
    if toSeek ≤ 0 then some (e, es)
    else
      let numSeek := toSeek / e.size
      if numSeek > e.len then
        seekMultipartExt (toSeek - e.size * e.len) es
      else some (⟨e.size, e.start + numSeek, e.len - numSeek⟩, es)

def skipEmptyExts (e : PartExt) : List PartExt → Option (PartExt × List PartExt)
  | [] => if e.len ≤ 0 then none else some (e, [])
  | e' :: es =>
    if e.len ≤ 0 then skipEmptyExts e' es else some (e, e' :: es)

def nextMultipartExt (curr : PartExt × List PartExt) :
    Option (PartExt × List PartExt) :=
  skipEmptyExts ⟨curr.1.size, curr.1.start + 1, curr.1.len - 1⟩ curr.2

/-! ## Ends of requests -/

variable {K P : Type} [LinearOrder K]

def readFinalize (node : ReadNode K) (extents : Opened) : ReadNode K :=
  (node.removeReadingItem extents.2).leave extents.1

def Handler.finalizeMultiPart (h : Handler) (extents : Opened)
    (node : ReadNode K) : ReadNode K :=
  if h.currExt.isSome ∧ h.needsFinalize ∧ 0 < extents.2.len then
    readFinalize node extents
  else node

/-- What is done on the ways out of `getObject` and `readObject`, and in
`ObjectReader::Close`. -/
def Handler.cleanup (h : Handler) (extents : Opened) (node : ReadNode K) :
    ReadNode K :=
  match h.multiPartDownloadData with
  | some _ => h.finalizeMultiPart extents node
  | none => readFinalize node extents

def Handler.openPart (h : Handler) (part : Opened) : Handler :=
  { h with needsFinalize := true, extents := part }

namespace ReadRequests

variable [DecidableEq P]

def put (s : ReadRequests K) (request : ℕ) (node : ReadNode K) :
    Option ReadRequest → ReadRequests K
  | some r => { s with
      node := node, requests := s.requests.insert request r }
  | none => { s with
      node := node, requests := s.requests.erase request }

/-! ## Opening the object -/

def start (cfg : RequestConfig K P) (s : ReadRequests K) (isCopy : Bool)
    (fn : K) (readNewest : Bool) : ReadRequests K where
  node := s.node.readPrepare cfg.reads fn readNewest false
  requests :=
    s.requests.insert s.nextRequest (.preparing isCopy s.node.nextReader)
  nextRequest := s.nextRequest + 1

def opened (cfg : RequestConfig K P) (isCopy : Bool) (res : Opened) :
    Handler where
  isCopy := isCopy
  res := res
  multiPartDownloadData := cfg.multipart res.2
  currExt := none
  needsFinalize := false
  extents := res

/-- What `read_prepare` has returned to a reader, if it has returned. -/
def result (node : ReadNode K) (reader : ℕ) : Option (Option IndexValue) :=
  match node.readers.lookup reader with
  | none => some none
  | some r =>
    match r.stage with
    | .reading v _ => some (some v)
    | _ => none

/-- `read_prepare` of the object has returned.  The constructor of
`ObjectReader` throws for a delete marker. -/
def prepared (cfg : RequestConfig K P) (s : ReadRequests K) (request : ℕ) :
    Option (ReadRequests K) :=
  match s.requests.lookup request with
  | some (.preparing isCopy reader) =>
    (result s.node reader).map fun
      | none => s.put request s.node none
      | some v =>
        if isCopy then
          if cfg.tombstone v then s.put request s.node none
          else s.put request s.node
            (some (.handling (opened cfg true (reader, v)) .reading))
        else s.put request s.node
          (some (.handling (opened cfg false (reader, v)) .checking))
  | _ => none

/-- The cleanup of `getObject` is given the extents of the object. -/
def reject (s : ReadRequests K) (request : ℕ) : Option (ReadRequests K) :=
  match s.requests.lookup request with
  | some (.handling h .checking) =>
    some (s.put request (h.cleanup h.res s.node) none)
  | _ => none

def startReading (s : ReadRequests K) (request : ℕ) :
    Option (ReadRequests K) :=
  match s.requests.lookup request with
  | some (.handling h .checking) =>
    let extents := if h.currExt.isSome then h.extents else h.res
    some (s.put request s.node
      (some (.handling { h with extents := extents } .reading)))
  | _ => none

/-! ## Parts -/

/-- `readMultipartExt` calls `read_prepare` for the current part. -/
def readMultipartExt (cfg : RequestConfig K P) (s : ReadRequests K)
    (request : ℕ) (h : Handler) (uploadId : ℤ)
    (curr : PartExt × List PartExt) (node : ReadNode K)
    (phase : ℕ → RequestPhase) : ReadRequests K :=
  s.put request
    (node.readPrepare cfg.reads (cfg.partKey uploadId curr.1.start)
      false false)
    (some (.handling { h with currExt := some curr } (phase node.nextReader)))

def seekPart (cfg : RequestConfig K P) (s : ReadRequests K) (request : ℕ)
    (partNumber : ℤ) : Option (ReadRequests K) :=
  match s.requests.lookup request with
  | some (.handling h .checking) => do
      let info ← h.multiPartDownloadData
      if h.currExt.isNone ∧ 0 ≤ partNumber ∧ partNumber < info.numParts then
        let curr ← S3.seekMultipart partNumber info.exts
        some (s.readMultipartExt cfg request h info.uploadId curr s.node
          .seeking)
      else none
  | _ => none

def leavePart (h : Handler) (node : ReadNode K) : ReadNode K × Handler :=
  if 0 < h.extents.2.len ∧ h.needsFinalize then
    (S3.readFinalize node h.extents, { h with needsFinalize := false })
  else (node, h)

/-- `seekMultipartExt` for the first part, and `readNextMultipartExt` for the
others. -/
def readPart (cfg : RequestConfig K P) (s : ReadRequests K) (request : ℕ)
    (offset : ℤ) : Option (ReadRequests K) :=
  match s.requests.lookup request with
  | some (.handling h .reading) => do
      let info ← h.multiPartDownloadData
      match h.currExt with
      | none =>
        let curr ← S3.seekMultipartExt offset info.exts
        some (s.readMultipartExt cfg request h info.uploadId curr s.node
          .loading)
      | some curr =>
        let curr ← nextMultipartExt curr
        let left := leavePart h s.node
        some (s.readMultipartExt cfg request left.2 info.uploadId curr
          left.1 .loading)
  | _ => none

def partPrepared (s : ReadRequests K) (request : ℕ) :
    Option (ReadRequests K) :=
  match s.requests.lookup request with
  | some (.handling h (.seeking part)) =>
    (result s.node part).map fun
      | none => s.put request (h.cleanup h.res s.node) none
      | some v => s.put request s.node
          (some (.handling (h.openPart (part, v)) .checking))
  | some (.handling h (.loading part)) =>
    (result s.node part).map fun
      | none => s.put request (h.cleanup h.extents s.node) none
      | some v => s.put request s.node
          (some (.handling (h.openPart (part, v)) .reading))
  | _ => none

/-! ## Reading -/

def finish (s : ReadRequests K) (request : ℕ) : Option (ReadRequests K) :=
  match s.requests.lookup request with
  | some (.handling h .reading) =>
    some (s.put request (h.cleanup h.extents s.node) none)
  | _ => none

def pause (s : ReadRequests K) (request : ℕ) : Option (ReadRequests K) :=
  match s.requests.lookup request with
  | some (.handling h .reading) =>
    if h.isCopy then none
    else some (s.put request s.node (some (.handling h .paused)))
  | _ => none

def resume (s : ReadRequests K) (request : ℕ) : Option (ReadRequests K) :=
  match s.requests.lookup request with
  | some (.handling h .paused) =>
    some (s.put request s.node (some (.handling h .reading)))
  | _ => none

def abort (s : ReadRequests K) (request : ℕ) : Option (ReadRequests K) :=
  match s.requests.lookup request with
  | some (.handling _ .paused) => some (s.put request s.node none)
  | _ => none

/-! ## Steps -/

/-- `read_prepare` and `read_finalize` are called by requests; the requests of
a process end with it. -/
def storage (cfg : RequestConfig K P) (s : ReadRequests K)
    (e : ReadEvent K) : Option (ReadRequests K) :=
  match e with
  | .readPrepare _ _ _ | .readFinalize _ => none
  | .crash _ _ =>
    (s.node.step cfg.reads e).map fun node =>
      { s with node := node, requests := OrderedMap.empty }
  | _ => (s.node.step cfg.reads e).map fun node => { s with node := node }

def step (cfg : RequestConfig K P) (s : ReadRequests K) :
    RequestEvent K → Option (ReadRequests K)
  | .storage e => s.storage cfg e
  | .readMeta _ _ => some s
  | .start isCopy fn readNewest => some (s.start cfg isCopy fn readNewest)
  | .prepared request => s.prepared cfg request
  | .reject request => s.reject request
  | .seekPart request partNumber => s.seekPart cfg request partNumber
  | .startReading request => s.startReading request
  | .readPart request offset => s.readPart cfg request offset
  | .partPrepared request => s.partPrepared request
  | .finish request => s.finish request
  | .pause request => s.pause request
  | .resume request => s.resume request
  | .abort request => s.abort request

def init (cfg : RequestConfig K P) : ReadRequests K where
  node := ReadNode.init cfg.reads
  requests := OrderedMap.empty
  nextRequest := 0

end ReadRequests

end Hs5.S3
