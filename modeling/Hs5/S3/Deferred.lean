import Hs5.Storage.CommitItems
import Hs5.S3.Metadata
import Hs5.Support.Gather

/-!
# Deleting the parts of multipart objects that are being read

A multipart object consists of an entry that lists its parts, and of an entry
for each part.  When the object is replaced or deleted, `onDeleteCallback`
asks for the deletion of its parts.  If the object is being read, the parts
stay: they are noted in the record that counts the readers of the object, in
`readingMultipartObjects`, and the last reader deletes them.
-/

namespace Hs5.S3

/-! ## State -/

/-- The actions of items that concern objects and their parts. -/
inductive PartAction where
  | add (v : Metadata)
  | del
  | queueDel
  | delWithQueued
  deriving DecidableEq

def PartAction.hasCommitItem : PartAction → Bool
  | .add _ | .del | .delWithQueued => true
  | .queueDel => false

structure PartItem where
  fn : KeyInfo
  action : PartAction
  deriving DecidableEq

structure ReadingMultipartObject where
  refs : ℤ := 0
  delUploadId : ℤ := -1
  delBucketId : ℤ := -1
  delParts : List PartExt := []
  deriving DecidableEq

/-- The parts that the last reader has to delete. -/
def ReadingMultipartObject.delKeys (obj : ReadingMultipartObject) :
    List KeyInfo :=
  if obj.delUploadId = -1 then []
  else partKeys obj.delBucketId obj.delUploadId obj.delParts

def partsOf (p : KeyInfo × Metadata) : List KeyInfo :=
  match p.2 with
  | .multipartObject _ uploadId _ exts _ =>
    partKeys (getPartsBucket p.1.bucketId) uploadId exts
  | _ => []

inductive PartStage where
  /-- `commit_items` has no entry -/
  | checked
  /-- the object was read from the last LMDB commit -/
  | found (fn : KeyInfo) (v : Metadata)
  /-- a `ReadFragInfo` item is queued -/
  | queued
  /-- `read_prepare` has returned -/
  | reading (fn : KeyInfo) (v : Metadata)
  /-- the reader has left and deletes parts -/
  | deleting (rest : List KeyInfo)
  deriving DecidableEq

structure PartReader where
  fn : KeyInfo
  readNewest : Bool
  stage : PartStage
  deriving DecidableEq

structure PartStore where
  main : OrderedMap KeyInfo Metadata
  committed : OrderedMap KeyInfo Metadata
  /-- an LMDB commit is done and `commit_items` not cleaned yet -/
  committing : Bool
  commitItems : OrderedMap ℕ ℤ
  commitQueue : List PartItem
  callbackQueue : List PartItem
  /-- the database `queue_del`, which the next process works off -/
  queueDel : OrderedMap KeyInfo Unit
  readingMultipartObjects : OrderedMap KeyInfo ReadingMultipartObject
  readers : OrderedMap ℕ PartReader
  nextReader : ℕ
  written : List KeyInfo
  /-- parts of removed versions, with the key of the object -/
  removed : List (KeyInfo × KeyInfo)
  deleted : List KeyInfo

inductive PartEvent where
  /-- an object is written or overwritten -/
  | put (fn : KeyInfo) (v : Metadata)
  | putPart (fn : KeyInfo) (md5 : Bytes) (objMetadata : ObjMetadata)
  | delete (fn : KeyInfo)
  | process
  | lmdbCommit
  | cleanCommitItems
  | readPrepare (fn : KeyInfo) (readNewest readUnsynced : Bool)
  | readSnapshot (reader : ℕ)
  | readPin (reader : ℕ)
  | readFragInfo (reader : ℕ)
  | finalizeMultiPart (reader : ℕ)
  /-- the reader deletes the next part, or is done -/
  | delPart (reader : ℕ)

namespace PartStore

/-! ## Callbacks -/

def onAddReadingCallback (s : PartStore) (fn : KeyInfo) (md5sum : Metadata) :
    PartStore :=
  match md5sum with
  | .multipartObject _ _ _ _ _ =>
    let obj := (s.readingMultipartObjects.lookup fn).getD {}
    { s with
      readingMultipartObjects :=
        s.readingMultipartObjects.insert fn { obj with refs := obj.refs + 1 } }
  | _ => s

def isReadingMultipartObjectAndMarkDel (s : PartStore) (key : KeyInfo)
    (delUploadId delBucketId : ℤ) (delParts : List PartExt) :
    PartStore × Bool :=
  match s.readingMultipartObjects.lookup key with
  | none => (s, false)
  | some obj =>
    ({ s with
      readingMultipartObjects := s.readingMultipartObjects.insert key
        { obj with
          delUploadId := delUploadId
          delBucketId := delBucketId
          delParts := delParts } }, true)

def onDeleteCallback (s : PartStore) (fn : KeyInfo) (md5sum : Metadata) :
    PartStore × List PartItem :=
  match md5sum with
  | .multipartObject _ uploadId _ exts _ =>
    let partsBucketId := getPartsBucket fn.bucketId
    let (s, isReading) :=
      s.isReadingMultipartObjectAndMarkDel fn uploadId partsBucketId exts
    (s, (partKeys partsBucketId uploadId exts).map fun k =>
      ⟨k, if isReading then .queueDel else .del⟩)
  | _ => (s, [])

/-! ## Commit thread -/

def countItem (hash : ℤ × Bytes → ℕ) (d : ℤ) (i : PartItem)
    (items : OrderedMap ℕ ℤ) : OrderedMap ℕ ℤ :=
  if i.action.hasCommitItem then
    items.insert (hash i.fn.commonPrefix)
      ((items.lookup (hash i.fn.commonPrefix)).getD 0 + d)
  else items

def enqueue (hash : ℤ × Bytes → ℕ) (s : PartStore) (i : PartItem) :
    PartStore :=
  { s with
    commitQueue := s.commitQueue ++ [i]
    commitItems := countItem hash 1 i s.commitItems }

def removeFn (hash : ℤ × Bytes → ℕ) (s : PartStore) (fn : KeyInfo)
    (delFromMain : Bool) : PartStore :=
  match s.main.lookup fn with
  | none => s
  | some v =>
    let (s, otherActions) := s.onDeleteCallback fn v
    { s with
      main := if delFromMain then s.main.erase fn else s.main
      callbackQueue := s.callbackQueue ++ otherActions
      commitItems := otherActions.foldl
        (fun items i => countItem hash 1 i items) s.commitItems
      removed := s.removed ++ (partsOf (fn, v)).map fun k => (fn, k) }

/-- What the commit thread does for one item, by its action. -/
def runItem (hash : ℤ × Bytes → ℕ) (s : PartStore) (i : PartItem) :
    PartStore :=
  match i.action with
  | .add v =>
    let s := s.removeFn hash i.fn false
    { s with main := s.main.insert i.fn v }
  | .del =>
    let s := s.removeFn hash i.fn true
    { s with deleted := s.deleted ++ [i.fn] }
  | .delWithQueued =>
    let s := s.removeFn hash i.fn true
    { s with
      deleted := s.deleted ++ [i.fn]
      queueDel := s.queueDel.erase i.fn }
  | .queueDel => { s with queueDel := s.queueDel.insert i.fn () }

def process (hash : ℤ × Bytes → ℕ) (s : PartStore) : Option PartStore :=
  if s.committing then none
  else
    match s.callbackQueue, s.commitQueue with
    | i :: rest, _ =>
      some ({ s with
        callbackQueue := rest
        commitItems := countItem hash (-1) i s.commitItems }.runItem hash i)
    | [], i :: rest =>
      some ({ s with
        commitQueue := rest
        commitItems := countItem hash (-1) i s.commitItems }.runItem hash i)
    | [], [] => none

/-! ## Readers -/

def setStage (s : PartStore) (reader : ℕ) (r : PartReader)
    (stage : PartStage) : PartStore :=
  { s with readers := s.readers.insert reader { r with stage := stage } }

def leave (s : PartStore) (reader : ℕ) : PartStore :=
  { s with readers := s.readers.erase reader }

/-- `read_prepare` returns the object that it found. -/
def pin (s : PartStore) (reader : ℕ) (r : PartReader)
    (p : KeyInfo × Metadata) : PartStore :=
  (s.onAddReadingCallback p.1 p.2).setStage reader r (.reading p.1 p.2)

def readPrepare (hash : ℤ × Bytes → ℕ) (s : PartStore) (fn : KeyInfo)
    (readNewest readUnsynced : Bool) : PartStore :=
  let stage :=
    if readUnsynced ∨ (s.commitItems.lookup (hash fn.commonPrefix)).isSome then
      PartStage.queued
    else .checked
  { s with
    readers := s.readers.insert s.nextReader ⟨fn, readNewest, stage⟩
    nextReader := s.nextReader + 1 }

def readSnapshot (s : PartStore) (reader : ℕ) : Option PartStore := do
  let r ← s.readers.lookup reader
  match r.stage with
  | .checked =>
    match findFragInfo KeyInfo.commonPrefix s.committed r.fn r.readNewest with
    | none => some (s.leave reader)
    | some p => some (s.setStage reader r (.found p.1 p.2))
  | _ => none

/-- The second look at `commit_items`, except for delete markers. -/
def readPin (hash : ℤ × Bytes → ℕ) (s : PartStore) (reader : ℕ) :
    Option PartStore := do
  let r ← s.readers.lookup reader
  match r.stage with
  | .found fn v =>
    if v ≠ .tombstone ∧
        (s.commitItems.lookup (hash r.fn.commonPrefix)).isSome then
      some (s.setStage reader r .queued)
    else some (s.pin reader r (fn, v))
  | _ => none

def readFragInfo (s : PartStore) (reader : ℕ) : Option PartStore :=
  if s.committing then none
  else do
    let r ← s.readers.lookup reader
    match r.stage with
    | .queued =>
      match findFragInfo KeyInfo.commonPrefix s.main r.fn r.readNewest with
      | none => some (s.leave reader)
      | some p => some (s.pin reader r p)
    | _ => none

/-- `removeReadingMultipartObject` up to the deletion of parts, which it
returns. -/
def removeReadingMultipartObject (s : PartStore) (key : KeyInfo) :
    PartStore × List KeyInfo :=
  match s.readingMultipartObjects.lookup key with
  | none => (s, [])
  | some obj =>
    if obj.refs - 1 ≠ 0 then
      ({ s with
        readingMultipartObjects := s.readingMultipartObjects.insert key
          { obj with refs := obj.refs - 1 } }, [])
    else
      ({ s with
        readingMultipartObjects := s.readingMultipartObjects.erase key },
        obj.delKeys)

/-- `finalizeMultiPart`, or the end of a reader of another object. -/
def finalizeMultiPart (s : PartStore) (reader : ℕ) : Option PartStore := do
  let r ← s.readers.lookup reader
  match r.stage with
  | .reading fn (.multipartObject _ _ _ _ _) =>
    let (s, rest) := s.removeReadingMultipartObject fn
    some (s.setStage reader r (.deleting rest))
  | .reading _ _ => some (s.leave reader)
  | _ => none

/-- The loop over the parts at the end of `removeReadingMultipartObject`. -/
def delPart (hash : ℤ × Bytes → ℕ) (s : PartStore) (reader : ℕ) :
    Option PartStore := do
  let r ← s.readers.lookup reader
  match r.stage with
  | .deleting (k :: rest) =>
    some ((s.enqueue hash ⟨k, .delWithQueued⟩).setStage reader r
      (.deleting rest))
  | .deleting [] => some (s.leave reader)
  | _ => none

/-! ## Steps -/

def step (hash : ℤ × Bytes → ℕ) (s : PartStore) : PartEvent → Option PartStore
  | .put fn v =>
    if isObjectBucket fn.bucketId then
      some { s.enqueue hash ⟨fn, .add v⟩ with
        written := s.written ++ partsOf (fn, v) }
    else none
  | .putPart fn md5 objMetadata =>
    if isObjectBucket fn.bucketId then none
    else some (s.enqueue hash ⟨fn, .add (.object md5 objMetadata)⟩)
  | .delete fn =>
    if isObjectBucket fn.bucketId then
      some (s.enqueue hash ⟨fn, .del⟩)
    else none
  | .process => s.process hash
  | .lmdbCommit =>
    if s.committing then none
    else some { s with committed := s.main, committing := true }
  | .cleanCommitItems =>
    if s.committing then
      some { s with
        committing := false
        commitItems := s.commitItems.filter fun p => p.2 ≠ 0 }
    else none
  | .readPrepare fn readNewest readUnsynced =>
    some (s.readPrepare hash fn readNewest readUnsynced)
  | .readSnapshot reader => s.readSnapshot reader
  | .readPin reader => s.readPin hash reader
  | .readFragInfo reader => s.readFragInfo reader
  | .finalizeMultiPart reader => s.finalizeMultiPart reader
  | .delPart reader => s.delPart hash reader

def init : PartStore where
  main := OrderedMap.empty
  committed := OrderedMap.empty
  committing := false
  commitItems := OrderedMap.empty
  commitQueue := []
  callbackQueue := []
  queueDel := OrderedMap.empty
  readingMultipartObjects := OrderedMap.empty
  readers := OrderedMap.empty
  nextReader := 0
  written := []
  removed := []
  deleted := []

end PartStore

end Hs5.S3
