import Hs5.S3.Keys
import Hs5.S3.ObjectLock
import Hs5.S3.PartExts
import Hs5.Storage.Extent

/-!
# Object metadata and the callbacks of the S3 layer

The storage keeps a string with each entry of its main map and does not look
into it.  The S3 layer puts the metadata of an object there, the list of its
parts, or the record of an upload in progress, and hands callbacks to the
storage that read and change the string: which entries to delete together
with an entry, how to add a part to an upload record, how to change legal
hold and retention, and whether an entry meets the conditions of a request.
-/

namespace Hs5.S3

/-- The lock fields of `ObjMetadata`. -/
structure ObjMetadata where
  lockInfo : Option (List ℤ)
  legalHold : Bool
  deriving DecidableEq

inductive Metadata where
  | object (md5 : Bytes) (objMetadata : ObjMetadata)
  | multipartObject (md5 : Bytes) (uploadId numParts : ℤ)
      (exts : List PartExt) (objMetadata : ObjMetadata)
  | tombstone
  | upload (nonce : Bytes) (objMetadata : ObjMetadata) (parts : List PartExt)
  deriving DecidableEq

structure Entry where
  extents : List SPunchItem
  lastModified : ℤ
  md5sum : Metadata
  deriving DecidableEq

namespace Metadata

/-- The metadata fields of an object, which upload records and delete markers
are not. -/
def objMetadata? : Metadata → Option ObjMetadata
  | .object _ m => some m
  | .multipartObject _ _ _ _ m => some m
  | .tombstone => none
  | .upload _ _ _ => none

def uploadId? : Metadata → Option ℤ
  | .multipartObject _ uploadId _ _ _ => some uploadId
  | _ => none

def setObjMetadata (m : ObjMetadata) : Metadata → Metadata
  | .object md5 _ => .object md5 m
  | .multipartObject md5 uploadId numParts exts _ =>
    .multipartObject md5 uploadId numParts exts m
  | .tombstone => .tombstone
  | .upload nonce objMetadata parts => .upload nonce objMetadata parts

end Metadata

/-! ## Deleting -/

def partKeys (partsBucketId uploadId : ℤ) (exts : List PartExt) :
    List KeyInfo :=
  (exts.flatMap PartExt.numbers).map fun partNum =>
    ⟨partsBucketId, partName uploadId partNum, 0⟩

/-- `onDeleteCallback`: the entries to delete together with an entry. -/
def onDeleteCallback (fn : KeyInfo) (md5sum : Metadata) : List KeyInfo :=
  if isPartialUploadsBucket fn.bucketId then
    match md5sum with
    | .upload _ _ parts => partKeys (fn.bucketId + 1) fn.version parts
    | _ => []
  else
    match md5sum with
    | .multipartObject _ uploadId _ exts _ =>
      partKeys (getPartsBucket fn.bucketId) uploadId exts
    | _ => []

/-! ## Modifying -/

/-- `onModifyCallback`: add parts to an upload record. -/
def onModifyCallback (md5sum : Metadata) (addParts : List PartExt) :
    Metadata :=
  match md5sum with
  | .upload nonce objMetadata parts =>
    .upload nonce objMetadata
      (addParts.foldl
        (fun parts part => addPartExt parts part.size part.start) parts)
  | md5sum => md5sum

inductive ModifyParam where
  | legalHold (legalHold : Bool)
  | retention (param : RetentionParam)
  deriving DecidableEq

/-- Deserialize the lock information of an object, if it has any. -/
def ObjMetadata.readLockInfo (m : ObjMetadata) :
    Except ModifyError (Option LockInfo) :=
  match m.lockInfo with
  | none => .ok none
  | some data =>
    match LockInfo.deserialize data with
    | none => .error .io
    | some l => .ok (some l)

def onModifyMetadataCallback (md5sum : Metadata) (param : ModifyParam) :
    Except ModifyError Metadata :=
  match md5sum.objMetadata? with
  | none => .error .invalid
  | some m =>
    match param with
    | .legalHold legalHold =>
      .ok (md5sum.setObjMetadata { m with legalHold := legalHold })
    | .retention param => do
        let lockInfo ← m.readLockInfo
        let lockInfo ← applyRetention lockInfo param
        return md5sum.setObjMetadata
          { m with lockInfo := lockInfo.map LockInfo.serialize }

/-! ## Conditions -/

def isProtected (md5sum : Metadata) (now : ℤ) (bypassGovernance : Bool) :
    Bool :=
  match md5sum.objMetadata? with
  | none => false
  | some m =>
    m.legalHold ||
      match m.lockInfo with
      | none => false
      | some data =>
        match LockInfo.deserialize data with
        | none => true
        | some l => l.restricted now bypassGovernance

def hexlify (s : Bytes) : Bytes :=
  let digit (n : UInt8) : UInt8 := if n < 10 then 0x30 + n else 0x57 + n
  s.flatMap fun b => [digit (b / 16), digit (b % 16)]

def decimal (n : ℤ) : Bytes :=
  (toString n).toList.map fun c => UInt8.ofNat c.toNat

def quote (s : Bytes) : Bytes := 0x22 :: (s ++ [0x22])

def getEtag : Metadata → Bytes
  | .object md5 _ => quote (hexlify md5)
  | .multipartObject md5 _ numParts _ _ =>
    quote (hexlify md5 ++ 0x2d :: decimal numParts)
  | .tombstone => []
  | .upload _ _ _ => []

def unquoteEtag (etag : Bytes) : Bytes :=
  if etag.length ≥ 2 ∧ etag.head? = some 0x22 ∧ etag.getLast? = some 0x22 then
    etag.tail.dropLast
  else etag

def trimWhitespace (s : Bytes) : Bytes :=
  let isSpace (c : UInt8) : Bool := c = 0x20 ∨ (0x09 ≤ c ∧ c ≤ 0x0d)
  ((s.dropWhile isSpace).reverse.dropWhile isSpace).reverse

def star : Bytes := [0x2a]

def etagMatches (etag cond : Bytes) : Bool :=
  let trimmed := trimWhitespace cond
  if trimmed = star then true
  else
    unquoteEtag etag ≠ [] ∧ unquoteEtag etag = unquoteEtag trimmed

theorem etagMatches_star (etag : Bytes) : etagMatches etag star = true := by
  have htrim : trimWhitespace star = star := by decide
  simp [etagMatches, htrim]

/-- The conditions in a `MatchInfo`.  An entry other than the one written is
read if `readFn` is set, and its newest version if `readNewest` is. -/
structure MatchInfo where
  readFn : Option KeyInfo := none
  ifMatch : List Bytes := []
  ifNoneMatch : List Bytes := []
  ifModifiedSince : Option ℤ := none
  ifUnmodifiedSince : Option ℤ := none
  protectedCheckTime : ℤ := 0
  readNewest : Bool := false
  checkProtected : Bool := false
  bypassGovernance : Bool := false
  deriving DecidableEq

/-- The headers of a request that hold conditions.  A header that is missing
has an empty text; dates come parsed. -/
structure Headers where
  ifMatch : Bytes := []
  ifNoneMatch : Bytes := []
  ifModifiedSince : Option ℤ := none
  ifUnmodifiedSince : Option ℤ := none
  deriving DecidableEq

/-- The entity tags of a header, which commas separate. -/
def splitEtags (header : Bytes) : List Bytes :=
  if header = [] then [] else (header.splitOn 0x2c).map trimWhitespace

/-- `parseMatchInfo`: nothing if the request has no conditions. -/
def parseMatchInfo (headers : Headers)
    (ifModifiedSince ifUnmodifiedSince : Bool) : Option MatchInfo :=
  let m : MatchInfo :=
    { ifMatch := splitEtags headers.ifMatch
      ifNoneMatch := splitEtags headers.ifNoneMatch
      ifModifiedSince :=
        if headers.ifNoneMatch = [] ∧ ifModifiedSince then
          headers.ifModifiedSince
        else none
      ifUnmodifiedSince :=
        if ifUnmodifiedSince then headers.ifUnmodifiedSince else none }
  if m = {} then none else some m

theorem parseMatchInfo_some {headers : Headers} {modified unmodified : Bool}
    {m : MatchInfo} (h : parseMatchInfo headers modified unmodified = some m) :
    m.readFn = none ∧ m.readNewest = false := by
  simp only [parseMatchInfo, Option.ite_none_left_eq_some,
    Option.some.injEq] at h
  obtain ⟨-, rfl⟩ := h
  exact ⟨rfl, rfl⟩

/-- The fields of a `MatchInfo` in which the outcome is reported. -/
structure MatchResult where
  isMatch : Bool
  notModified : Bool
  isProtected : Bool
  notFound : Bool
  isDeleteMarker : Bool
  deriving DecidableEq

def MatchInfo.setNotFound (m : MatchInfo) : MatchResult where
  isMatch := m.ifMatch.isEmpty
  notModified := false
  isProtected := false
  notFound := !m.ifMatch.isEmpty
  isDeleteMarker := false

/-- The If-Match condition, or else If-Unmodified-Since. -/
def MatchInfo.positive (m : MatchInfo) (etag : Bytes)
    (lastModifiedSec : ℤ) : Bool :=
  if m.ifMatch ≠ [] then m.ifMatch.any (etagMatches etag)
  else m.ifUnmodifiedSince.all (lastModifiedSec ≤ ·)

/-- The If-None-Match condition, or else If-Modified-Since. -/
def MatchInfo.negative (m : MatchInfo) (etag : Bytes)
    (lastModifiedSec : ℤ) : Bool :=
  if m.ifNoneMatch ≠ [] then m.ifNoneMatch.any (etagMatches etag)
  else m.ifModifiedSince.any (lastModifiedSec ≤ ·)

def onMatchCallback (m : MatchInfo) (fragInfo : Entry) : MatchResult :=
  if fragInfo.md5sum = .tombstone then
    { m.setNotFound with isDeleteMarker := true }
  else
    let etag := getEtag fragInfo.md5sum
    let lastModifiedSec := fragInfo.lastModified / 1000000000
    let positive := m.positive etag lastModifiedSec
    let notModified := positive && m.negative etag lastModifiedSec
    let isProtected := m.checkProtected &&
      S3.isProtected fragInfo.md5sum m.protectedCheckTime m.bypassGovernance
    { isMatch := positive && !notModified && !isProtected
      notModified := notModified
      isProtected := isProtected
      notFound := false
      isDeleteMarker := false }

end Hs5.S3
