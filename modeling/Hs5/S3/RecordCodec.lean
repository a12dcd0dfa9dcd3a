import Hs5.S3.Metadata
import Hs5.S3.MetadataCodec
import Mathlib.Algebra.Order.BigOperators.Group.List

/-!
# The records of objects

The string that the storage keeps with an object begins with the flags of the
record and the entity tag.  The record of a multipart object goes on with the
upload id, the number of parts and their runs.  Metadata and a checksum follow
where the flags say so.
-/

namespace Hs5

open List Parser

/-! ## Checksums -/

/-- `AwsHashType`, but for `None`. -/
inductive AwsHashType where
  | crc32
  | crc32c
  | crc64Nvme
  | sha1
  | sha256
  | crc32Full
  | crc32cFull
  | crc64NvmeFull
  deriving DecidableEq

namespace AwsHashType

/-- The hash types in the order of their numbers, from 1 on. -/
def all : List AwsHashType :=
  [crc32, crc32c, crc64Nvme, sha1, sha256, crc32Full, crc32cFull, crc64NvmeFull]

def toInt (t : AwsHashType) : ℤ := all.idxOf t + 1

def getSize : AwsHashType → ℕ
  | sha1 => 20
  | sha256 => 32
  | crc64Nvme | crc64NvmeFull => 8
  | crc32 | crc32c | crc32Full | crc32cFull => 4

end AwsHashType

/-- `createPayloadHash` of a number, of which the enumeration keeps 32 bits. -/
def createPayloadHash (hashTypeInt : ℤ) : Option AwsHashType :=
  match (BitVec.ofInt 32 hashTypeInt).toNat with
  | 0 => none
  | n + 1 => AwsHashType.all[n]?

/-- A hash with its type and the value that it should have. -/
structure SdkChecksum where
  hashType : AwsHashType
  hashVal : Bytes
  deriving DecidableEq

def serializeSdkChecksum (c : SdkChecksum) : Bytes :=
  addInt64 c.hashType.toInt ++ c.hashVal

def deserializeSdkChecksum (withExpectedHash : Bool) :
    Parser UInt8 SdkChecksum := do
  let hashTypeInt ← getInt64
  match createPayloadHash hashTypeInt with
  | none => failure
  | some hashType => do
      let hashVal ← takeN (if withExpectedHash then hashType.getSize else 0)
      pure ⟨hashType, hashVal⟩

theorem createPayloadHash_toInt (t : AwsHashType) :
    IsInt64 t.toInt ∧ createPayloadHash t.toInt = some t := by
  cases t <;> decide

theorem AwsHashType.toInt_eq (t : AwsHashType) :
    ∃ v : ℕ, v < 2 ^ 32 ∧ t.toInt = v := by
  cases t <;> exact ⟨_, by decide, rfl⟩

theorem reads_deserializeSdkChecksum {c : SdkChecksum} {b : Bool}
    (h : c.hashVal.length = if b then c.hashType.getSize else 0) :
    Reads (deserializeSdkChecksum b) (serializeSdkChecksum c) c := by
  obtain ⟨hint, hcreate⟩ := createPayloadHash_toInt c.hashType
  refine (reads_getInt64 hint).bind ?_
  simp only [hcreate]
  rw [← h]
  exact (reads_takeN c.hashVal).bind_pure (f := SdkChecksum.mk c.hashType)

/-! ## Runs of parts -/

def addRun (e : PartExt) : Bytes :=
  addVarInt e.size ++ (addVarInt e.start ++ addVarInt e.len)

/-- Read a run; what has been read stays read if there is no whole run. -/
def getRun (rdata : Bytes) : Option PartExt × Bytes :=
  match getVarInt rdata with
  | none => (none, rdata)
  | some (size, rdata) =>
    match getVarInt rdata with
    | none => (none, rdata)
    | some (start, rdata) =>
      match getVarInt rdata with
      | none => (none, rdata)
      | some (len, rdata) => (some ⟨size, start, len⟩, rdata)

/-- The run with the numbers as the fields of `PartExt` hold them. -/
def PartExt.narrow (e : PartExt) : PartExt :=
  ⟨e.size, castInt e.start, castInt e.len⟩

def PartExt.Storable (e : PartExt) : Prop :=
  IsInt64 e.size ∧ IsInt32 e.start ∧ IsInt32 e.len

theorem getRun_addRun {e : PartExt} (h : e.Storable) (rest : Bytes) :
    getRun (addRun e ++ rest) = (some e, rest) := by
  obtain ⟨hsize, hstart, hlen⟩ := h
  simp only [getRun, addRun, append_assoc, reads_getVarInt hsize _,
    reads_getVarInt hstart.isInt64 _, reads_getVarInt hlen.isInt64 _]

theorem getRun_addInt64 {v : ℕ} (hv : v < 2 ^ 32) (rest : Bytes) :
    (getRun (addInt64 v ++ rest)).1.isSome := by
  have hlength := length_littleEndian 4 v
  obtain ⟨size, l₁, hsize, hle₁⟩ := exists_getVarInt
    (l := littleEndian 4 v) (0 :: 0 :: 0 :: rest) (by omega)
  obtain ⟨start, l₂, hstart, hle₂⟩ := exists_getVarInt (l := l₁)
    (0 :: 0 :: rest) (by omega)
  obtain ⟨len, l₃, hlen, -⟩ := exists_getVarInt (l := l₂) (0 :: rest)
    (by omega)
  rw [addInt64_of_lt hv, append_assoc, getRun]
  simp only [cons_append, nil_append, hsize, hstart, hlen, Option.isSome_some]

theorem getVarInt_of_getRun {rdata rdata' : Bytes}
    (h : getRun rdata = (none, rdata')) : getVarInt rdata' = none := by
  unfold getRun at h
  split at h
  · cases h
    assumption
  · split at h
    · cases h
      assumption
    · split at h
      · cases h
        assumption
      · cases h

theorem PartExt.Storable.narrow_eq {e : PartExt} (h : e.Storable) :
    e.narrow = e := by
  rw [PartExt.narrow, castInt_eq h.2.1, castInt_eq h.2.2]

/-- The loops over the runs of a record: read runs until their parts are
enough.  What is returned are the runs, the number of their parts and what is
left to read. -/
def readRuns (enough : ℤ → Bool) : ℕ → ℤ → Bytes → List PartExt × ℤ × Bytes
  | 0, numParts, rdata => ([], numParts, rdata)
  | n + 1, numParts, rdata =>
    match getRun rdata with
    | (none, rdata) => ([], numParts, rdata)
    | (some e, rdata) =>
      if enough (numParts + e.len) then ([e], numParts + e.len, rdata)
      else
        let (runs, rest) := readRuns enough n (numParts + e.len) rdata
        (e :: runs, rest)

/-- The runs of a number of parts; every run takes at least one byte. -/
def getRuns (enough : ℤ → Bool) (numParts : ℤ) :
    Parser UInt8 (List PartExt) := fun rdata =>
  let (runs, count, rest) := readRuns enough rdata.length 0 rdata
  if count ≠ numParts then none else some (runs, rest)

theorem readRuns_flatMap {enough : ℤ → Bool} {runs : List PartExt} {n : ℕ}
    {count total : ℤ} (hruns : ∀ e ∈ runs, e.Storable ∧ 0 < e.len)
    (hn : runs.length ≤ n) (hne : runs ≠ [])
    (htotal : count + (runs.map PartExt.len).sum = total)
    (henough : ∀ c ≤ total, enough c = true ↔ c = total) (rest : Bytes) :
    readRuns enough n count (runs.flatMap addRun ++ rest) =
      (runs, total, rest) := by
  induction runs generalizing n count with
  | nil => exact absurd rfl hne
  | cons e runs ih =>
    obtain ⟨n, rfl⟩ : ∃ m, n = m + 1 := ⟨n - 1, by simp at hn; omega⟩
    have he := hruns e mem_cons_self
    have hrest := fun e' he' => hruns e' (mem_cons_of_mem _ he')
    rw [map_cons, sum_cons] at htotal
    rw [readRuns, flatMap_cons, append_assoc, getRun_addRun he.1]
    by_cases hlast : runs = []
    · subst hlast
      have hsum : count + e.len = total := by simpa using htotal
      simp [hsum, henough]
    · have hpos : 0 < (runs.map PartExt.len).sum := by
        refine sum_pos _ ?_ (by simpa using hlast)
        simpa using fun e he => (hrest e he).2
      have hmore : ¬ enough (count + e.len) = true := by
        rw [henough _ (by omega)]
        omega
      simp only [ih hrest (Nat.le_of_succ_le_succ hn) hlast
        (by omega : count + e.len + _ = total)]
      rw [if_neg hmore]

theorem length_le_flatMap_addRun (runs : List PartExt) (rest : Bytes) :
    runs.length ≤ (runs.flatMap addRun ++ rest).length := by
  induction runs with
  | nil => exact Nat.zero_le _
  | cons e runs ih =>
    have hone := length_addVarInt_pos e.size
    simp only [flatMap_cons, length_append, length_cons,
      addRun] at ih ⊢
    omega

/-- If bytes are left but no run is read, not even a number can be read from
what remains. -/
theorem getVarInt_of_getRuns {enough : ℤ → Bool} {numParts : ℤ}
    {rdata rdata' : Bytes} (hne : rdata ≠ [])
    (h : getRuns enough numParts rdata = some ([], rdata')) :
    (getRun rdata).1 = none ∧ getVarInt rdata' = none := by
  obtain ⟨n, hn⟩ := Nat.exists_eq_succ_of_ne_zero
    (length_eq_zero_iff.not.mpr hne)
  rw [getRuns, hn, readRuns] at h
  rcases hrun : getRun rdata with ⟨_ | e, rdata₁⟩
  · simp only [hrun] at h
    split at h
    · cases h
    · cases h
      exact ⟨rfl, getVarInt_of_getRun hrun⟩
  · simp only [hrun] at h
    split at h
    · split at h <;> cases h
    · split at h <;> cases h

/-- The runs of a completion have its parts, and fit the fields. -/
theorem completedRuns_spec {parts : List (ℤ × ℤ)} (hlen : IsInt32 parts.length)
    (hparts : ∀ p ∈ parts, IsInt32 p.1 ∧ IsInt64 p.2) :
    (∀ e ∈ completedRuns parts, e.Storable ∧ 0 < e.len) ∧
      ((completedRuns parts).map PartExt.len).sum = parts.length ∧
      ((completedRuns parts).map fun e => e.len * e.size).sum =
        (parts.map Prod.snd).sum := by
  have hone : ∀ e ∈ completedRuns parts, (e.parts.length : ℤ) = e.len ∧
      (e.parts.map Prod.snd).sum = e.len * e.size := by
    intro e he
    have hpos := len_pos_completedRuns parts e he
    simp [PartExt.parts, PartExt.numbers, Function.comp_def, hpos.le]
  have hflat := flatMap_completedRuns parts
  refine ⟨?_, ?_, ?_⟩
  · intro e he
    have hpos := len_pos_completedRuns parts e he
    have hsub : e.parts.Sublist parts := by
      have h := sublist_flatten_of_mem
        (mem_map_of_mem (f := PartExt.parts) he)
      rwa [← flatMap_def, hflat] at h
    have hfirst := hparts _ (hsub.subset (PartExt.parts_of_pos hpos ▸
      mem_cons_self))
    have hle := hsub.length_le
    have heq := (hone e he).1
    refine ⟨⟨hfirst.2, hfirst.1, ?_⟩, hpos⟩
    unfold IsInt32 at hlen ⊢
    omega
  · rw [← map_congr_left fun e he => (hone e he).1]
    conv_rhs => rw [← hflat]
    simp [length_flatMap, Function.comp_def]
  · rw [← map_congr_left fun e he => (hone e he).2]
    conv_rhs => rw [← hflat]
    simp [flatMap_def, sum_flatten, Function.comp_def]

/-! ## Walking over a record -/

def metadataObject : BitVec 64 := 0
def metadataMultipartObject : BitVec 64 := 1
def metadataTombstone : BitVec 64 := 2

def metadataKnownFlags : BitVec 64 :=
  metadataFlagHasObjMetadata ||| metadataFlagWithChecksum

def md5DigestLength : ℕ := 16

/-- The fields of `MultiPartDownloadData` that come from the record. -/
structure MultiPartRecord where
  etag : Bytes
  uploadId : ℤ
  numParts : ℤ
  exts : List PartExt
  deriving DecidableEq

/-- What `parseMultipartInfo` returns; the total length comes with the data of
a multipart object. -/
structure RecordInfo where
  multiPart : Option (MultiPartRecord × ℤ) := none
  objMetadata : Option ObjMetadata := none
  sdkChecksum : Option SdkChecksum := none
  deriving DecidableEq

namespace Record

def getDigest : Parser UInt8 Bytes := fun rdata =>
  if md5DigestLength ≤ rdata.length then takeN md5DigestLength rdata
  else some ([], rdata)

/-- Entity tag, upload id and number of parts of a multipart object. -/
def readUpload : Parser UInt8 (Bytes × ℤ × ℤ) := do
  let etag ← getDigest
  let uploadId ← getVarInt
  let numParts ← getVarInt
  if numParts < 0 then failure else pure (etag, uploadId, numParts)

def readObjMetadata (itype : BitVec 64) : Parser UInt8 (Option ObjMetadata) :=
  field (hasFlag itype metadataFlagHasObjMetadata)
    (ObjMetadata.deserialize itype)

def readSections (itypeFlags : BitVec 64)
    (multiPart : Option (MultiPartRecord × ℤ)) :
    Parser UInt8 RecordInfo := do
  let objMetadata ← readObjMetadata itypeFlags
  let sdkChecksum ← field (hasFlag itypeFlags metadataFlagWithChecksum)
    (deserializeSdkChecksum true)
  pure ⟨multiPart, objMetadata, sdkChecksum⟩

def readRecord : Parser UInt8 RecordInfo := do
  let itype ← getVarInt
  let itypeFlags := BitVec.ofInt 64 itype
  let baseType := itypeFlags &&& ~~~metadataKnownFlags
  if baseType = metadataObject then do
    let _ ← takeN md5DigestLength
    readSections itypeFlags none
  else if baseType = metadataTombstone then pure {}
  else if baseType = metadataMultipartObject then do
    let (etag, uploadId, numParts) ← readUpload
    let runs ← getRuns (· == numParts) numParts
    let totalLen := (runs.map fun e => e.len * e.size).sum
    readSections itypeFlags
      (some (⟨etag, uploadId, numParts, runs.map PartExt.narrow⟩, totalLen))
  else failure

def parseMultipartInfo (md5sum : Bytes) : Option RecordInfo :=
  (readRecord (md5sum.take maxRData)).map Prod.fst

def getEtag (md5sum : Bytes) : Bytes :=
  match getVarInt (md5sum.take maxRData) with
  | none => []
  | some (itype, rdata) =>
    let baseType := BitVec.ofInt 64 itype &&& ~~~metadataKnownFlags
    if baseType ≠ metadataMultipartObject ∧ baseType ≠ metadataObject then []
    else
      match getDigest rdata with
      | none => []
      | some (etag, rdata) =>
        if baseType = metadataObject then S3.quote (S3.hexlify etag)
        else
          match (do let _ ← getVarInt; getVarInt : Parser UInt8 ℤ) rdata with
          | none => S3.quote (S3.hexlify etag)
          | some (numParts, _) =>
            S3.quote (S3.hexlify etag ++ 0x2d :: S3.decimal numParts)

/-- The part of `locateObjMetadata` before the metadata.  Its loop compares the
number of parts before it reads a run. -/
def skipHeader : Parser UInt8 (BitVec 64) := do
  let itype ← getVarInt
  let itype := BitVec.ofInt 64 itype
  let baseType := itype &&& ~~~metadataKnownFlags
  if baseType = metadataObject then do
    let _ ← takeN md5DigestLength
    pure itype
  else if baseType = metadataMultipartObject then do
    let (_, _, numParts) ← readUpload
    if 0 < numParts then do
      let _ ← getRuns (numParts ≤ ·) numParts
      pure itype
    else pure itype
  else failure

/-- `locateObjMetadata`: the flags, the metadata, and where it begins and
ends. -/
def locateObjMetadata (md5sum : Bytes) :
    Option (BitVec 64 × ObjMetadata × ℕ × ℕ) :=
  let rdata := md5sum.take maxRData
  match skipHeader rdata with
  | none => none
  | some (itype, rest) =>
    match readObjMetadata itype rest with
    | none => none
    | some (objMetadata, rest') =>
      some (itype, objMetadata.getD {}, rdata.length - rest.length,
        rdata.length - rest'.length)

end Record

/-! ## What is stored -/

/-- An object as requests store it: a digest, the upload id and the parts of a
multipart object as numbers and sizes, metadata and a checksum. -/
structure ObjectRecord where
  digest : Bytes
  upload : Option (ℤ × List (ℤ × ℤ)) := none
  objMetadata : ObjMetadata := {}
  sdkChecksum : Option SdkChecksum := none

def ObjMetadata.nonempty? (m : ObjMetadata) : Option ObjMetadata :=
  Option.guard (fun m => m.flags != 0#64) m

namespace ObjectRecord

/-- Type of the record, and whether there is a checksum. -/
def baseFlags (r : ObjectRecord) : BitVec 64 :=
  (if r.upload.isSome then metadataMultipartObject else metadataObject) |||
    flagIf r.sdkChecksum.isSome metadataFlagWithChecksum

def flags (r : ObjectRecord) : BitVec 64 := r.baseFlags ||| r.objMetadata.flags

def body (r : ObjectRecord) : Bytes :=
  match r.upload with
  | none => r.digest
  | some (uploadId, parts) =>
    (r.digest ++ (addVarInt uploadId ++ addVarInt parts.length)) ++
      (completedRuns parts).flatMap addRun

def checksum (r : ObjectRecord) : Bytes :=
  r.sdkChecksum.elim [] serializeSdkChecksum

/-- The record that `finalizeMultipartUpload` writes, and that requests write
for an object of one part. -/
def bytes (r : ObjectRecord) : Bytes :=
  addVarInt r.flags.toInt ++ (r.body ++ (r.objMetadata.serialize ++ r.checksum))

def info (r : ObjectRecord) : RecordInfo where
  multiPart := r.upload.map fun u =>
    (⟨r.digest, u.1, u.2.length, completedRuns u.2⟩, (u.2.map Prod.snd).sum)
  objMetadata := r.objMetadata.nonempty?.map ObjMetadata.stored
  sdkChecksum := r.sdkChecksum

def etag (r : ObjectRecord) : Bytes :=
  match r.upload with
  | none => S3.quote (S3.hexlify r.digest)
  | some (_, parts) =>
    S3.quote (S3.hexlify r.digest ++ 0x2d :: S3.decimal parts.length)

/-- The values fit their fields, and the record fits a reader. -/
structure Storable (r : ObjectRecord) : Prop where
  digest : r.digest.length = md5DigestLength
  upload : ∀ u ∈ r.upload, IsInt64 u.1 ∧ IsInt32 u.2.length ∧
    ∀ p ∈ u.2, IsInt32 p.1 ∧ IsInt64 p.2
  objMetadata : r.objMetadata.Storable
  sdkChecksum : ∀ c ∈ r.sdkChecksum, c.hashVal.length = c.hashType.getSize
  length : r.bytes.length ≤ maxRData

/-- A record that is not decoded wrongly for want of parts: nothing follows
the number of parts if it is zero. -/
def RunsDelimited (r : ObjectRecord) : Prop :=
  ∀ u ∈ r.upload, u.2 = [] → r.objMetadata.serialize ++ r.checksum = []

/-! ## Flags of a record -/

variable (r : ObjectRecord)

theorem flags_and_hasObjMetadata :
    r.flags &&& metadataFlagHasObjMetadata = r.objMetadata.flags := by
  have hbase : r.baseFlags &&& metadataFlagHasObjMetadata = 0#64 := by
    rw [baseFlags]
    cases r.upload.isSome <;> cases r.sdkChecksum.isSome <;> decide
  rw [flags, BitVec.and_or_distrib_right, ObjMetadata.flags_and, hbase,
    BitVec.zero_or]

theorem flags_and {mask : BitVec 64}
    (hmask : metadataFlagHasObjMetadata &&& mask = 0#64) :
    r.flags &&& mask = r.baseFlags &&& mask := by
  rw [flags, BitVec.and_or_distrib_right, ← ObjMetadata.flags_and,
    BitVec.and_assoc, hmask, BitVec.and_zero, BitVec.or_zero]

theorem flags_baseType : r.flags &&& ~~~metadataKnownFlags =
    if r.upload.isSome then metadataMultipartObject else metadataObject := by
  rw [r.flags_and (by decide), baseFlags]
  cases r.upload.isSome <;> cases r.sdkChecksum.isSome <;> decide

theorem hasFlag_checksum :
    hasFlag r.flags metadataFlagWithChecksum = r.sdkChecksum.isSome := by
  rw [hasFlag, r.flags_and (by decide), baseFlags]
  cases r.upload.isSome <;> cases r.sdkChecksum.isSome <;> decide

theorem sections_eq (hmeta : r.objMetadata.serialize =
      r.objMetadata.lockInfo.elim [] fun l => l.serialize.flatMap addInt64)
    (hne : r.objMetadata.serialize ++ r.checksum ≠ []) :
    ∃ v : ℕ, v < 2 ^ 32 ∧ ∃ rest,
      r.objMetadata.serialize ++ r.checksum = addInt64 v ++ rest := by
  rw [hmeta, checksum] at hne ⊢
  cases hlock : r.objMetadata.lockInfo with
  | some l =>
    obtain ⟨numbers, heq⟩ : ∃ numbers, l.serialize =
      (l.flags.toNat : ℤ) :: numbers := ⟨_, rfl⟩
    refine ⟨l.flags.toNat, l.flags.isLt, numbers.flatMap addInt64 ++
      r.sdkChecksum.elim [] serializeSdkChecksum, ?_⟩
    rw [Option.elim_some, heq, flatMap_cons, append_assoc]
  | none =>
    cases hsum : r.sdkChecksum with
    | none => simp [hlock, hsum] at hne
    | some c =>
      obtain ⟨v, hv, heq⟩ := c.hashType.toInt_eq
      exact ⟨v, hv, c.hashVal, by rw [← heq]; rfl⟩

theorem reads_flags (v : BitVec 64) :
    Reads getVarInt (addVarInt v.toInt) v.toInt :=
  reads_getVarInt ⟨BitVec.le_toInt _, BitVec.toInt_lt⟩

end ObjectRecord

theorem ObjMetadata.eq_empty {m : ObjMetadata} (h : m.flags = 0#64) :
    m = {} := by
  obtain ⟨hc, hu, hd, hcc, he, hl, hx, hlock, hhold⟩ := m.hasFlag_flags
  rw [h] at *
  have hnone : ∀ {α : Type} {o : Option α}, false = o.isSome → o = none :=
    fun ho => by simpa using ho.symm
  have hcontent := m.contentType?_getD
  have huser := m.userMetadata?_getD
  rw [hnone hc] at hcontent
  rw [hnone hu] at huser
  calc m = ⟨m.contentType, m.userMetadata, m.disposition, m.cacheControl,
        m.encoding, m.language, m.expires, m.lockInfo, m.legalHold⟩ := rfl
    _ = {} := by
        rw [← hcontent, ← huser, hnone hd, hnone hcc, hnone he, hnone hl,
          hnone hx, hnone hlock, ← hhold]
        rfl

namespace Record

open ObjectRecord

variable {r : ObjectRecord} (h : r.Storable)

include h

omit h in
theorem getD_objMetadata :
    r.info.objMetadata.getD {} = r.objMetadata.stored := by
  by_cases hm : r.objMetadata.flags = 0#64
  · simp only [info, ObjMetadata.eq_empty hm]
    rfl
  · simp [info, ObjMetadata.nonempty?, Option.guard, hm]

theorem reads_objMetadata :
    Reads (readObjMetadata r.flags) r.objMetadata.serialize
      r.info.objMetadata := by
  have hread := ObjMetadata.reads_deserialize h.objMetadata
    r.flags_and_hasObjMetadata
  rw [readObjMetadata, hasFlag, r.flags_and_hasObjMetadata, info]
  by_cases hm : r.objMetadata.flags = 0#64
  · simp only [ObjMetadata.eq_empty hm]
    exact reads_pure none
  · simp only [ObjMetadata.nonempty?, Option.guard, bne_iff_ne, ne_eq, hm,
      not_false_eq_true, if_true, Option.map_some]
    rw [field, if_pos (by simpa using hm)]
    exact hread.bind_pure

theorem reads_sections (multiPart : Option (MultiPartRecord × ℤ)) :
    Reads (readSections r.flags multiPart)
      (r.objMetadata.serialize ++ r.checksum)
      ⟨multiPart, r.info.objMetadata, r.sdkChecksum⟩ :=
  (reads_objMetadata h).bind ((reads_field r.hasFlag_checksum fun c hc =>
    reads_deserializeSdkChecksum (b := true) (h.sdkChecksum c hc)).bind_pure)

theorem reads_getDigest : Reads getDigest r.digest r.digest := by
  intro rest
  have hlen : md5DigestLength ≤ (r.digest ++ rest).length := by
    rw [length_append, h.digest]
    omega
  rw [getDigest, if_pos hlen, ← h.digest]
  exact reads_takeN r.digest rest

variable {u : ℤ × List (ℤ × ℤ)} (hu : r.upload = some u)

include hu

theorem reads_readUpload :
    Reads readUpload (r.digest ++ (addVarInt u.1 ++ addVarInt u.2.length))
      (r.digest, u.1, (u.2.length : ℤ)) := by
  obtain ⟨hid, hlen, -⟩ := h.upload u hu
  refine (reads_getDigest h).bind ((reads_getVarInt hid).bind
    ((reads_getVarInt hlen.isInt64).bind_done ?_))
  rw [if_neg (by omega)]

theorem reads_getRuns (hne : u.2 ≠ []) {enough : ℤ → Bool}
    (henough : ∀ c ≤ (u.2.length : ℤ), enough c = true ↔ c = u.2.length) :
    Reads (getRuns enough u.2.length) ((completedRuns u.2).flatMap addRun)
      (completedRuns u.2) := by
  intro rest
  obtain ⟨-, hlen, hparts⟩ := h.upload u hu
  obtain ⟨hruns, hcount, -⟩ := completedRuns_spec hlen hparts
  have hruns_ne : completedRuns u.2 ≠ [] := by
    intro hnil
    have hflat := flatMap_completedRuns u.2
    rw [hnil] at hflat
    exact hne hflat.symm
  rw [getRuns]
  simp only [readRuns_flatMap hruns (length_le_flatMap_addRun _ rest) hruns_ne
    (by rw [hcount, zero_add]) henough rest, ne_eq, not_true_eq_false, if_false]

theorem readRecord_multipart :
    readRecord r.bytes = (do
      let runs ← getRuns (· == (u.2.length : ℤ)) u.2.length
      readSections r.flags
        (some (⟨r.digest, u.1, u.2.length, runs.map PartExt.narrow⟩,
          (runs.map fun e => e.len * e.size).sum)) : Parser UInt8 RecordInfo)
      ((completedRuns u.2).flatMap addRun ++
        (r.objMetadata.serialize ++ r.checksum)) := by
  rw [readRecord, bytes, run_bind (reads_flags r.flags _)]
  simp only [BitVec.ofInt_toInt, r.flags_baseType, body, hu]
  rw [append_assoc]
  exact run_bind (reads_readUpload h hu _)

/-- The runs of the parts, with what follows them if there are parts. -/
theorem getRuns_eq {rest : Bytes} (hrest : u.2 = [] → rest = []) :
    getRuns (· == (u.2.length : ℤ)) u.2.length
        ((completedRuns u.2).flatMap addRun ++ rest) =
      some (completedRuns u.2, rest) := by
  by_cases hne : u.2 = []
  · rw [hne, hrest hne]
    rfl
  · exact reads_getRuns h hu hne (by simp) rest

omit hu

theorem readRecord_bytes (hruns : r.RunsDelimited) :
    readRecord r.bytes = some (r.info, []) := by
  cases hu : r.upload with
  | none =>
    rw [readRecord, bytes, run_bind (reads_flags r.flags _)]
    simp only [BitVec.ofInt_toInt, r.flags_baseType, body, info, hu]
    rw [← h.digest]
    refine (run_bind (reads_takeN r.digest _)).trans ?_
    exact (reads_sections h none).run_eq
  | some u =>
    obtain ⟨-, hlen, hsizes⟩ := h.upload u hu
    obtain ⟨hstorable, -, htotal⟩ := completedRuns_spec hlen hsizes
    have hnarrow : (completedRuns u.2).map PartExt.narrow =
        completedRuns u.2 := by
      rw [map_congr_left fun e he => (hstorable e he).1.narrow_eq,
        map_id']
    rw [readRecord_multipart h hu, run_bind (getRuns_eq h hu (hruns u hu)),
      hnarrow, htotal, (reads_sections h _).run_eq, info, hu]
    rfl

theorem reads_skipHeader :
    Reads skipHeader (addVarInt r.flags.toInt ++ r.body) r.flags := by
  refine (reads_flags r.flags).bind ?_
  simp only [BitVec.ofInt_toInt, r.flags_baseType, body]
  cases hu : r.upload with
  | none =>
    rw [← h.digest]
    exact (reads_takeN r.digest).bind_pure (f := fun _ => r.flags)
  | some u =>
    refine (reads_readUpload h hu).bind ?_
    by_cases hne : u.2 = []
    · rw [hne]
      exact reads_pure r.flags
    · have hruns : Reads (getRuns ((u.2.length : ℤ) ≤ ·) u.2.length) _ _ :=
        reads_getRuns h hu hne (by simp; omega)
      rw [if_pos (by simpa using length_pos_iff.mpr hne)]
      exact hruns.bind_pure (f := fun _ => r.flags)

theorem getEtag_bytes : getEtag r.bytes = r.etag := by
  rw [getEtag, take_of_length_le h.length, bytes, reads_flags, etag]
  simp only [BitVec.ofInt_toInt, r.flags_baseType, body]
  cases hu : r.upload with
  | none =>
    simp only [reads_getDigest h _]
    rfl
  | some u =>
    obtain ⟨hid, hlen, -⟩ := h.upload u hu
    simp only [append_assoc, reads_getDigest h _,
      run_bind (reads_getVarInt hid _), reads_getVarInt hlen.isInt64 _]
    rfl

theorem parseMultipartInfo_bytes (hruns : r.RunsDelimited) :
    parseMultipartInfo r.bytes = some r.info := by
  rw [parseMultipartInfo, take_of_length_le h.length,
    readRecord_bytes h hruns, Option.map_some]

/-- If there are no parts, what follows is taken for a run, or nothing can be
read from it. -/
theorem runsDelimited_of_parse {info : RecordInfo}
    (hparse : parseMultipartInfo r.bytes = some info)
    (hparts : info.multiPart = r.info.multiPart) : r.RunsDelimited := by
  intro u hu hnil
  by_contra hne
  obtain ⟨⟨info', rest⟩, hread, rfl⟩ := Option.map_eq_some_iff.mp hparse
  rw [take_of_length_le h.length, readRecord_multipart h hu] at hread
  obtain ⟨runs, rdata, hruns, hsections⟩ := bind_eq_some hread
  obtain ⟨objMetadata, _, hmeta, hsections⟩ := bind_eq_some hsections
  obtain ⟨_, _, -, hpure⟩ := bind_eq_some hsections
  cases hpure
  have hexts : runs.map PartExt.narrow = completedRuns u.2 := by
    rw [ObjectRecord.info, hu] at hparts
    exact congrArg (fun p => p.1.exts) (Option.some.inj hparts)
  rw [hnil] at hexts hruns
  obtain rfl := map_eq_nil_iff.mp hexts
  obtain ⟨hrun, hnone⟩ := getVarInt_of_getRuns hne hruns
  have hserialize : r.objMetadata.serialize = r.objMetadata.lockInfo.elim []
      fun l => l.serialize.flatMap addInt64 := by
    by_cases hm : r.objMetadata.flags = 0#64
    · rw [ObjMetadata.eq_empty hm]
      rfl
    · rw [readObjMetadata, hasFlag, r.flags_and_hasObjMetadata, field,
        if_pos (by simpa using hm)] at hmeta
      obtain ⟨_, _, hread, -⟩ := bind_eq_some hmeta
      exact ObjMetadata.serialize_of_deserialize r.flags_and_hasObjMetadata
        hnone hread
  obtain ⟨v, hv, rest, heq⟩ := r.sections_eq hserialize hne
  have hsome := getRun_addInt64 hv rest
  rw [← heq, hrun] at hsome
  cases hsome

theorem locateObjMetadata_bytes :
    locateObjMetadata r.bytes = some (r.flags, r.objMetadata.stored,
      (addVarInt r.flags.toInt ++ r.body).length,
      (addVarInt r.flags.toInt ++ r.body ++ r.objMetadata.serialize).length)
      := by
  have hheader := reads_skipHeader h (r.objMetadata.serialize ++ r.checksum)
  rw [locateObjMetadata, take_of_length_le h.length, bytes,
    ← append_assoc]
  simp only [hheader, reads_objMetadata h _, getD_objMetadata,
    length_append]
  congr <;> omega

end Record

/-- Entity tag and metadata are found in every record, and all of it is decoded
unless there are no parts before something else. -/
theorem objectRecord_decoded {r : ObjectRecord} (h : r.Storable) :
    (Record.parseMultipartInfo r.bytes = some r.info ↔ r.RunsDelimited) ∧
      (∃ start stop, Record.locateObjMetadata r.bytes =
          some (r.flags, r.objMetadata.stored, start, stop) ∧
        (r.bytes.take stop).drop start = r.objMetadata.serialize) ∧
      Record.getEtag r.bytes = r.etag := by
  refine ⟨⟨fun hparse => Record.runsDelimited_of_parse h hparse rfl,
    Record.parseMultipartInfo_bytes h⟩, ⟨_, _, Record.locateObjMetadata_bytes h, ?_⟩, Record.getEtag_bytes h⟩
  rw [ObjectRecord.bytes, ← append_assoc, ← append_assoc,
    take_left, drop_left]

/-- An object of two parts with metadata and a checksum. -/
def twoParts : ObjectRecord where
  digest := List.replicate 16 7
  upload := some (5, [(1, 9), (3, 4)])
  objMetadata := { expires := some (ascii "0"), legalHold := true }
  sdkChecksum := some ⟨.crc32, [1, 2, 3, 4]⟩

theorem storable_twoParts : twoParts.Storable ∧ twoParts.RunsDelimited := by
  refine ⟨⟨rfl, ?_, ⟨.inl (by decide), ⟨by decide, by decide⟩, by decide,
    by rintro l ⟨⟩⟩, by rintro c ⟨⟩; rfl, by decide⟩, by rintro u ⟨⟩ ⟨⟩⟩
  rintro u ⟨⟩
  exact ⟨by decide, by decide, by decide⟩

theorem objectRecord_decoded_twoParts :
    Record.parseMultipartInfo twoParts.bytes = some twoParts.info ∧
      Record.getEtag twoParts.bytes = twoParts.etag := by
  obtain ⟨hstorable, hruns⟩ := storable_twoParts
  obtain ⟨hparse, -, hetag⟩ := objectRecord_decoded hstorable
  exact ⟨hparse.mpr hruns, hetag⟩

def noParts : ObjectRecord where
  digest := List.replicate 16 7
  upload := some (5, [])
  objMetadata := { contentType := ⟨5, []⟩ }

/-- The content type is taken for the beginning of a run. -/
theorem not_objectRecord_decoded_noParts :
    noParts.Storable ∧ Record.parseMultipartInfo noParts.bytes = none := by
  refine ⟨⟨rfl, ?_, ⟨.inr (by decide), ⟨by decide, by decide⟩, by decide,
    by rintro l ⟨⟩⟩, by rintro c ⟨⟩, by decide⟩, by decide +kernel⟩
  rintro u ⟨⟩
  exact ⟨by decide, by decide, by decide⟩

end Hs5
