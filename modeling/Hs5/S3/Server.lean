import Hs5.S3.Process
import Hs5.S3.Retention
import Hs5.Support.Transition

/-!
# Requests and the commit thread

A request runs in a thread of its own.  It draws numbers from the storage,
reads entries, puts one item on the commit queue and waits until the commit
thread has taken it.  Between any two of these, other requests and the commit
thread take steps of theirs, so that here each of them is a step of its own:
a request starts, a completion reads a part, a request queues its item, the
commit thread takes an item, and the extents of a refused write are returned.
-/

namespace Hs5.S3

open Transition

structure Config where
  withVersioning : ℤ → Bool
  objectLockEnabled : ℤ → Bool

/-- Buckets without versioning and without object lock. -/
def plainBuckets : Config := ⟨fun _ => false, fun _ => false⟩

/-- What a request is about to do, with all it has found out. -/
inductive Task where
  | putObject (fn : KeyInfo) (v : Entry) (matchInfo : Option MatchInfo)
  | createMultipartUpload (fn : KeyInfo) (v : Entry)
  | putObjectPart (upload : KeyInfo) (partNumber : ℤ) (v : Entry)
  | completeMultipartUpload (upload object : KeyInfo) (toRead : List ℤ)
      (read : List (ℤ × ℤ)) (md5 : Bytes) (objMetadata : ObjMetadata)
      (lastModified : ℤ) (matchInfo : Option MatchInfo)
  | abortMultipartUpload (upload : KeyInfo)
  | deleteMarker (fn : KeyInfo) (matchInfo : Option MatchInfo)
  | deleteVersion (fn : KeyInfo) (matchInfo : Option MatchInfo)
      (bypassGovernance : Bool)
  | modifyMetadata (fn : KeyInfo) (param : ModifyParam)
  deriving DecidableEq

/-- The storage, the requests that have not queued their item yet, and the
extents of refused writes that have not been returned yet. -/
structure Server where
  store : Store Task
  currVersion : ℤ
  currPartid : ℤ
  requests : OrderedMap ℕ Task
  nextTicket : ℕ
  refused : List (List SPunchItem)

/-- What can happen next.  A request comes with its parameters and, where it
writes data, with the extents that were reserved for it. -/
inductive Event where
  | putObject (bucketId : ℤ) (key : Bytes) (extents : List SPunchItem)
      (lastModified : ℤ) (md5 : Bytes) (objMetadata : ObjMetadata)
      (headers : Headers)
  | createMultipartUpload (bucketId : ℤ) (key nonce : Bytes)
      (objMetadata : ObjMetadata) (lastModified : ℤ)
  | putObjectPart (bucketId : ℤ) (key : Bytes) (uploadId : ℤ) (nonce : Bytes)
      (partNumber : ℤ) (extents : List SPunchItem) (lastModified : ℤ)
      (md5 : Bytes)
  | completeMultipartUpload (bucketId : ℤ) (key : Bytes) (uploadId : ℤ)
      (nonce : Bytes) (parts : List ℤ) (md5 : Bytes) (lastModified : ℤ)
      (headers : Headers)
  | abortMultipartUpload (bucketId : ℤ) (key : Bytes) (uploadId : ℤ)
      (nonce : Bytes)
  | deleteObject (bucketId : ℤ) (key : Bytes) (version : ℤ)
      (headers : Headers) (bypassGovernance : Bool)
  | putObjectLegalHold (bucketId : ℤ) (key : Bytes) (version : ℤ)
      (legalHold : Bool)
  | putObjectRetention (bucketId : ℤ) (key : Bytes) (version : ℤ)
      (data : PutObjectRetentionData) (now : ℤ)
  | readPart (ticket : ℕ)
  | queue (ticket : ℕ) (now : ℤ)
  | giveUp (ticket : ℕ)
  | process
  | freeExtents (index : ℕ)
  deriving DecidableEq

/-! ## The items of requests -/

def storedExtents : List SPunchItem → List SPunchItem
  | [] => [⟨0, 0⟩]
  | exts => exts

def Entry.totalLen (e : Entry) : ℤ := (e.extents.map (·.len)).sum

def uploadKey (bucketId : ℤ) (key : Bytes) (uploadId : ℤ) : KeyInfo :=
  ⟨getPartialUploadsBucket bucketId, key, uploadId⟩

/-- The entry of a part, by the bucket of upload records. -/
def partKey (partialUploadsBucketId uploadId partNumber : ℤ) : KeyInfo :=
  ⟨partialUploadsBucketId + 1, partName uploadId partNumber, 0⟩

def addProtectedCheck (cfg : Config) (bucketId : ℤ)
    (bypassGovernance : Bool) (now : ℤ) (m : Option MatchInfo) :
    Option MatchInfo :=
  if cfg.objectLockEnabled bucketId then
    some { m.getD {} with
      checkProtected := true
      bypassGovernance := bypassGovernance
      protectedCheckTime := now }
  else m

/-- The conditions of a write: on the newest version if the write makes a new
one, and with a check of protection if it replaces an entry. -/
def writeMatch (cfg : Config) (fn : KeyInfo) (now : ℤ)
    (m : Option MatchInfo) : Option MatchInfo :=
  let m :=
    if cfg.withVersioning fn.bucketId then m
    else addProtectedCheck cfg fn.bucketId false now m
  if fn.version ≠ 0 then
    m.map fun m => { m with readFn := some fn, readNewest := true }
  else m

def tombstone : Entry := ⟨[⟨0, 0⟩], 0, .tombstone⟩

def completedObject (uploadId : ℤ) (read : List (ℤ × ℤ)) (md5 : Bytes)
    (objMetadata : ObjMetadata) (lastModified : ℤ) : Entry :=
  ⟨[⟨0, 0⟩], lastModified,
    .multipartObject md5 uploadId read.length (completedRuns read) objMetadata⟩

namespace Task

/-- The item of a request with its conditions, or nothing if the request is
not ready for it. -/
def chain (cfg : Config) (now : ℤ) : Task → Option (Chain × Option MatchInfo)
  | putObject fn v m => some (⟨⟨fn, .add v⟩, []⟩, writeMatch cfg fn now m)
  | createMultipartUpload fn v => some (⟨⟨fn, .add v⟩, []⟩, none)
  | putObjectPart upload partNumber v =>
    let bodyData := partName upload.version partNumber
    let uploadId := uploadIdFromStrDot bodyData
    some (⟨⟨⟨upload.bucketId + 1, bodyData, 0⟩, .add v⟩,
      [⟨⟨upload.bucketId, upload.key, uploadId.1⟩,
        .modifyData [⟨v.totalLen, uploadId.2, 1⟩]⟩]⟩, none)
  | completeMultipartUpload upload object [] read md5 objMetadata
      lastModified m =>
    some (⟨⟨upload, .delNoCallback⟩,
      [⟨object, .add (completedObject upload.version read md5 objMetadata
        lastModified)⟩]⟩, (writeMatch cfg object now m).map fun m =>
        { m with readFn := some object })
  | completeMultipartUpload _ _ (_ :: _) _ _ _ _ _ => none
  | abortMultipartUpload upload => some (⟨⟨upload, .del⟩, []⟩, none)
  | deleteMarker fn m =>
    some (⟨⟨fn, .add tombstone⟩, []⟩,
      m.map fun m => { m with readFn := some fn, readNewest := true })
  | deleteVersion fn m bypassGovernance =>
    let m := addProtectedCheck cfg fn.bucketId bypassGovernance now m
    some (⟨⟨fn, .del⟩, []⟩,
      if cfg.withVersioning fn.bucketId then some (m.getD {}) else m)
  | modifyMetadata fn param =>
    some (⟨⟨fn, .modifyMetadata param⟩, []⟩, none)

def extents : Task → List SPunchItem
  | putObject _ v _ => v.extents
  | putObjectPart _ _ v => v.extents
  | _ => [⟨0, 0⟩]

/-- What a request that comes to nothing has to return; `free_extents` does
nothing for an object without data. -/
def unused (task : Task) : List (List SPunchItem) :=
  if task.extents = [⟨0, 0⟩] then [] else [task.extents]

end Task

def Event.bucketId? : Event → Option ℤ
  | putObject bucketId _ _ _ _ _ _ => some bucketId
  | createMultipartUpload bucketId _ _ _ _ => some bucketId
  | putObjectPart bucketId _ _ _ _ _ _ _ => some bucketId
  | completeMultipartUpload bucketId _ _ _ _ _ _ _ => some bucketId
  | abortMultipartUpload bucketId _ _ _ => some bucketId
  | deleteObject bucketId _ _ _ _ => some bucketId
  | putObjectLegalHold bucketId _ _ _ => some bucketId
  | putObjectRetention bucketId _ _ _ _ => some bucketId
  | readPart _ | queue _ _ | giveUp _ | process | freeExtents _ => none

namespace Server

/-! ## The parts of a step -/

def start (s : Server) (task : Task) : Server :=
  { s with
    requests := s.requests.insert s.nextTicket task
    nextTicket := s.nextTicket + 1 }

/-- The record of an upload, if it carries the nonce of the upload id. -/
def readUpload (s : Server) (upload : KeyInfo) (nonce : Bytes) :
    Option ObjMetadata :=
  match s.store.main.lookup upload with
  | some ⟨_, _, .upload uploadNonce objMetadata _⟩ =>
    if uploadNonce = nonce then some objMetadata else none
  | _ => none

/-- `get_next_version`, for a bucket with versioning: the version of a new
entry and the server that has drawn it. -/
def drawVersion (s : Server) (cfg : Config) (bucketId : ℤ) : Server × ℤ :=
  if cfg.withVersioning bucketId then
    ({ s with currVersion := s.currVersion + 1 }, s.currVersion + 1)
  else (s, 0)

def modifiedKey (s : Server) (cfg : Config) (bucketId : ℤ) (key : Bytes)
    (version : ℤ) : Option KeyInfo :=
  if cfg.withVersioning bucketId ∧ version = 0 then
    (newest s.store.main ⟨bucketId, key, 0⟩).map Prod.fst
  else some ⟨bucketId, key, version⟩

/-- The request ends and leaves its extents to be returned. -/
def refuse (s : Server) (task : Task) : Server :=
  { s with refused := s.refused ++ task.unused }

/-- What the request of an item that the commit thread has taken does: a
write whose conditions failed returns its extents. -/
def answer (s : Server) (q : Queued Task) (ans : Option Answer) : Server :=
  match q.request, ans with
  | some task, some (.matched result) =>
    if result.isMatch then s else s.refuse task
  | _, _ => s

/-- A request starts: it draws its version or upload id, and finds out what
it has to know. -/
def startRequest (cfg : Config) (s : Server) : Event → Option Server
  | .putObject bucketId key extents lastModified md5 objMetadata headers =>
    let (s, version) := s.drawVersion cfg bucketId
    some (s.start (.putObject ⟨bucketId, key, version⟩
      ⟨storedExtents extents, lastModified, .object md5 objMetadata⟩
      (parseMatchInfo headers false false)))
  | .createMultipartUpload bucketId key nonce objMetadata lastModified =>
    let uploadId := s.currPartid + 1
    if uploadId < 2 ^ 63 then
      some ({ s with currPartid := uploadId }.start
        (.createMultipartUpload (uploadKey bucketId key uploadId)
          ⟨[⟨0, 0⟩], lastModified, .upload nonce objMetadata []⟩))
    else none
  | .putObjectPart bucketId key uploadId nonce partNumber extents
      lastModified md5 =>
    let upload := uploadKey bucketId key uploadId
    if 0 < uploadId ∧ 0 < partNumber ∧ partNumber ≤ 10000 ∧
        (s.readUpload upload nonce).isSome then
      some (s.start (.putObjectPart upload partNumber
        ⟨storedExtents extents, lastModified, .object md5 ⟨none, false⟩⟩))
    else none
  | .completeMultipartUpload bucketId key uploadId nonce parts md5
      lastModified headers =>
    let upload := uploadKey bucketId key uploadId
    if 0 < uploadId ∧ parts.Pairwise (· < ·) then
      (s.readUpload upload nonce).map fun objMetadata =>
        let (s, version) := s.drawVersion cfg bucketId
        s.start (.completeMultipartUpload upload ⟨bucketId, key, version⟩
          parts [] md5 objMetadata lastModified
          (parseMatchInfo headers false false))
    else none
  | .abortMultipartUpload bucketId key uploadId nonce =>
    let upload := uploadKey bucketId key uploadId
    if 0 < uploadId ∧ (s.readUpload upload nonce).isSome then
      some (s.start (.abortMultipartUpload upload))
    else none
  | .deleteObject bucketId key version headers bypassGovernance =>
    let m := parseMatchInfo headers true true
    if cfg.withVersioning bucketId ∧ version = 0 then
      if (newest s.store.main ⟨bucketId, key, 0⟩).isSome then
        let (s, version) := s.drawVersion cfg bucketId
        some (s.start (.deleteMarker ⟨bucketId, key, version⟩ m))
      else none
    else
      some (s.start (.deleteVersion ⟨bucketId, key, version⟩ m
        bypassGovernance))
  | .putObjectLegalHold bucketId key version legalHold =>
    if cfg.objectLockEnabled bucketId then
      (s.modifiedKey cfg bucketId key version).map fun fn =>
        s.start (.modifyMetadata fn (.legalHold legalHold))
    else none
  | .putObjectRetention bucketId key version data now =>
    match finalizePutObjectRetention data now
        (cfg.objectLockEnabled bucketId) with
    | .error _ => none
    | .ok param =>
      (s.modifiedKey cfg bucketId key version).map fun fn =>
        s.start (.modifyMetadata fn (.retention param))
  | _ => none

def readPart (s : Server) (ticket : ℕ) : Option Server :=
  match s.requests.lookup ticket with
  | some (.completeMultipartUpload upload object (n :: toRead) read md5
      objMetadata lastModified m) =>
    (s.store.main.lookup
      (partKey upload.bucketId upload.version n)).map fun e =>
        { s with
          requests := s.requests.insert ticket
            (.completeMultipartUpload upload object toRead
              (read ++ [(n, e.totalLen)]) md5 objMetadata lastModified m) }
  | _ => none

def queue (cfg : Config) (s : Server) (ticket : ℕ) (now : ℤ) :
    Option Server :=
  match s.requests.lookup ticket with
  | none => none
  | some task =>
    (task.chain cfg now).map fun c =>
      { s with
        requests := s.requests.erase ticket
        store := s.store.enqueue ⟨c.1, c.2, some task⟩ }

def giveUp (s : Server) (ticket : ℕ) : Option Server :=
  (s.requests.lookup ticket).map fun task =>
    { s with requests := s.requests.erase ticket }.refuse task

def process (s : Server) : Option Server := s.store.process.map fun r =>
    match r.2 with
    | none => { s with store := r.1 }
    | some (q, ans) => { s with store := r.1 }.answer q ans

def freeExtents (s : Server) (index : ℕ) : Option Server :=
  s.refused[index]?.map fun exts =>
    { s with
      refused := s.refused.eraseIdx index
      store := s.store.enqueue
        ⟨⟨{ action := .freeExtents exts }, []⟩, none, none⟩ }

/-- One step of the server; `none` if the event is not possible or the
request is refused. -/
def step (cfg : Config) (s : Server) (ev : Event) : Option Server :=
  match ev with
  | .readPart ticket => s.readPart ticket
  | .queue ticket now => s.queue cfg ticket now
  | .giveUp ticket => s.giveUp ticket
  | .process => s.process
  | .freeExtents index => s.freeExtents index
  | ev =>
    if ∃ bucketId ∈ ev.bucketId?, isObjectBucket bucketId then
      s.startRequest cfg ev
    else none

def init : Server where
  store :=
    { main := OrderedMap.empty
      fm := ⟨OrderedMap.empty, [], 0, [], []⟩
      commitQueue := []
      callbackQueue := []
      commitItems := fun _ => 0 }
  currVersion := 0
  currPartid := 0
  requests := OrderedMap.empty
  nextTicket := 0
  refused := []

end Server

end Hs5.S3
