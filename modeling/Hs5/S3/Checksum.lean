import Hs5.S3.RecordCodec
import Hs5.Support.Crc

/-!
# Checksums at the end of a multipart upload

A multipart upload is created for a checksum algorithm and a type.  Its parts
are stored with their checksums, and `CompleteMultipartUpload` may name the
checksum that the object should have.  For the type `FULL_OBJECT` this is the
checksum of the content, which `combine` computes from those of the parts; for
`COMPOSITE` it is the hash of the hashes of the parts, followed by the number
of parts.
-/

namespace Hs5

open Option List

/-! ## Hash objects -/

structure HashLib where
  /-- the digest of everything that a context was fed with -/
  digest : AwsHashType → Bytes → Bytes
  /-- the checksum after more data, from that before -/
  crc : AwsHashType → Bytes → ℕ → ℕ
  crcCombine : AwsHashType → ℕ → ℕ → ℕ → ℕ
  base64Decode : Bytes → Option Bytes

namespace AwsHashType

def isFull : AwsHashType → Bool
  | crc32Full | crc32cFull | crc64NvmeFull => true
  | _ => false

/-- The type of the class that a `FULL_OBJECT` class is derived from. -/
def base : AwsHashType → AwsHashType
  | crc32Full => crc32
  | crc32cFull => crc32c
  | crc64NvmeFull => crc64Nvme
  | t => t

end AwsHashType

/-- `PayloadHashBase` and its derived classes. -/
structure PayloadHash where
  hashType : AwsHashType
  expectedHash : Bytes
  /-- the input of an OpenSSL context -/
  fed : Bytes
  crcValue : ℕ

namespace PayloadHash

variable (lib : HashLib) (h : PayloadHash)

def new (hashType : AwsHashType) (expectedHash : Bytes) : PayloadHash :=
  ⟨hashType, expectedHash, [], 0⟩

def update (data : Bytes) : PayloadHash :=
  match h.hashType with
  | .sha1 | .sha256 => { h with fed := h.fed ++ data }
  | t => { h with crcValue := lib.crc t.base data h.crcValue }

def final : Bytes :=
  match h.hashType with
  | .sha1 | .sha256 => lib.digest h.hashType h.fed
  | t => (littleEndian t.getSize h.crcValue).reverse

def checkSize : Prop := h.expectedHash.length = h.hashType.getSize
  deriving Decidable

def canCombine (other : SdkChecksum) : Prop :=
  if h.hashType.isFull then
    other.hashType = h.hashType.base ∨ other.hashType = h.hashType
  else h.hashType = other.hashType

/-- `combine` with the checksum of a part of the given length; it aborts on
other types. -/
def combine (other : SdkChecksum) (len : ℕ) : Option PayloadHash :=
  if h.hashType.isFull then
    if other.hashType ≠ h.hashType.base ∨
        other.hashVal.length ≠ h.hashType.getSize then none
    else
      some { h with
        crcValue := lib.crcCombine h.hashType.base h.crcValue
          (leNat other.hashVal.reverse) len }
  else some (h.update lib other.hashVal)

def finalCombined (numParts : ℕ) : Bytes :=
  if h.hashType.isFull then h.final lib
  else h.final lib ++ ascii "-" ++ ascii (toString numParts)

def isFinalCombinedExpected (numParts : ℕ) : Bool :=
  h.expectedHash = h.finalCombined lib numParts

instance (other : SdkChecksum) : Decidable (h.canCombine other) := by
  unfold canCombine
  infer_instance

end PayloadHash

/-! ## The headers of the request -/

/-- The characters of base 64, in the order of their values. -/
def base64Chars : Bytes :=
  ascii "ABCDEFGHIJKLMNOPQRSTUVWXYZabcdefghijklmnopqrstuvwxyz0123456789+/"

def base64Decode : Bytes → Option Bytes
  | [] => some []
  | a :: b :: c :: d :: rest => do
    let pad := if rest = [] then (if c = 0x3d ∧ d = 0x3d then 2
      else if d = 0x3d then 1 else 0) else 0
    let digits ← ([a, b, c, d].take (4 - pad)).mapM fun x =>
      base64Chars.idxOf? x
    let v := (digits ++ List.replicate pad 0).foldl (fun v x => v * 64 + x) 0
    let tail ← base64Decode rest
    some ((littleEndian 3 v).reverse.take (3 - pad) ++ tail)
  | _ => none

def asciiToLower (s : Bytes) : Bytes :=
  s.map fun c => if 0x41 ≤ c ∧ c ≤ 0x5a then c + 0x20 else c

def getSingleOrEmpty (headers : List (Bytes × Bytes)) (name : Bytes) : Bytes :=
  match headers.filter fun header =>
      asciiToLower header.1 = asciiToLower name with
  | [header] => header.2
  | _ => []

def createSdkChecksum (sdkChecksum : Bytes) (compositeChecksum : Bool) :
    Option AwsHashType :=
  let named := fun upper lower =>
    sdkChecksum = ascii upper ∨ sdkChecksum = ascii lower
  if named "CRC32" "crc32" then
    some (if compositeChecksum then .crc32 else .crc32Full)
  else if named "CRC32C" "crc32c" then
    some (if compositeChecksum then .crc32c else .crc32cFull)
  else if named "CRC64NVME" "crc64nvme" then
    some (if compositeChecksum then .crc64Nvme else .crc64NvmeFull)
  else if named "SHA1" "sha1" then
    if compositeChecksum then some .sha1 else none
  else if named "SHA256" "sha256" then
    if compositeChecksum then some .sha256 else none
  else none

/-- The algorithm that the last checksum header of a `CompleteMultipartUpload`
request names. -/
def sdkChecksumName (headers : List (Bytes × Bytes)) : Bytes :=
  headers.foldl (fun sdkChecksum header =>
    let headerLower := asciiToLower header.1
    if (ascii "x-amz-checksum-").isPrefixOf headerLower ∧
        headerLower.drop 15 ≠ ascii "type" then headerLower.drop 15
    else sdkChecksum) []

/-- `initSdkChecksum` for `CompleteMultipartUpload`: the outer `none` is a bad
request, the inner one a request without a checksum. -/
def initSdkChecksum (lib : HashLib) (headers : List (Bytes × Bytes)) :
    Option (Option PayloadHash) :=
  let sdkChecksum := sdkChecksumName headers
  if sdkChecksum = [] then some none
  else
    let checksumType := getSingleOrEmpty headers (ascii "x-amz-checksum-type")
    if checksumType ≠ ascii "FULL_OBJECT" ∧ checksumType ≠ ascii "COMPOSITE" ∧
        checksumType ≠ [] then none
    else do
      let hashType ←
        createSdkChecksum sdkChecksum (checksumType ≠ ascii "FULL_OBJECT")
      let checksumHeaderVal :=
        getSingleOrEmpty headers (ascii "x-amz-checksum-" ++ sdkChecksum)
      if checksumHeaderVal = [] then none
      else do
        let hash ← lib.base64Decode checksumHeaderVal
        let sdkChecksumHash := PayloadHash.new hashType hash
        if sdkChecksumHash.checkSize then some (some sdkChecksumHash) else none

/-! ## Completing the upload -/

/-- What is stored of a part: its checksum and its length. -/
structure StoredPart where
  checksum : Option SdkChecksum
  totalLen : ℕ

/-- The loop over the parts; it fails where an error is sent. -/
def combineParts (lib : HashLib) :
    PayloadHash → List StoredPart → Option PayloadHash
  | h, [] => some h
  | h, part :: parts => do
    let other ← part.checksum
    if h.canCombine other then do
      let h ← h.combine lib other part.totalLen
      combineParts lib h parts
    else none

/-- Whether `CompleteMultipartUpload` accepts the checksum of a request for an
upload with the given hash type. -/
def acceptsChecksum (lib : HashLib) (upload : Option AwsHashType)
    (parts : List StoredPart) (headers : List (Bytes × Bytes)) : Bool :=
  match initSdkChecksum lib headers, upload with
  | none, _ => false
  | some _, none => true
  | some none, some t => (combineParts lib (.new t []) parts).isSome
  | some (some sdkChecksumHash), some t =>
    if t ≠ sdkChecksumHash.hashType then false
    else
      match combineParts lib (.new t sdkChecksumHash.expectedHash) parts with
      | none => false
      | some h => h.isFinalCombinedExpected lib parts.length

/-! ## The right value -/

def hashBytes (lib : HashLib) (t : AwsHashType) (data : Bytes) : Bytes :=
  match t with
  | .sha1 | .sha256 => lib.digest t data
  | t => (littleEndian t.getSize (lib.crc t.base data 0)).reverse

/-- The assumptions on the functions of a hash type. -/
structure HashLib.Correct (lib : HashLib) (t : AwsHashType) : Prop where
  digest_length : t = .sha1 ∨ t = .sha256 →
    ∀ data, (lib.digest t data).length = t.getSize
  crc_lt : t.isFull → ∀ data, lib.crc t.base data 0 < 256 ^ t.getSize
  crc_nil : t.isFull → lib.crc t.base [] 0 = 0
  combine : t.isFull → ∀ a b, lib.crcCombine t.base (lib.crc t.base a 0)
    (lib.crc t.base b 0) b.length = lib.crc t.base (a ++ b) 0

/-- What `UploadPart` stores for a part with the given content. -/
def storedPart (lib : HashLib) (t : AwsHashType) (content : Bytes) :
    StoredPart :=
  ⟨some ⟨t.base, hashBytes lib t.base content⟩, content.length⟩

/-- The value is the checksum of an object with parts of these contents. -/
def IsChecksum (lib : HashLib) (t : AwsHashType) (contents : List Bytes)
    (value : Bytes) : Prop :=
  if t.isFull then
    lib.base64Decode value = some (hashBytes lib t contents.flatten)
  else ∃ hash, value = hash ++ ascii "-" ++ ascii (toString contents.length) ∧
    lib.base64Decode hash =
      some (hashBytes lib t (contents.flatMap (hashBytes lib t)))

def AwsHashType.name : AwsHashType → Bytes
  | crc32 | crc32Full => ascii "crc32"
  | crc32c | crc32cFull => ascii "crc32c"
  | crc64Nvme | crc64NvmeFull => ascii "crc64nvme"
  | sha1 => ascii "sha1"
  | sha256 => ascii "sha256"

variable {lib : HashLib} {t : AwsHashType} {headers : List (Bytes × Bytes)}

theorem getSize_base (t : AwsHashType) : t.base.getSize = t.getSize := by
  cases t <;> rfl

theorem hashBytes_full (hfull : t.isFull) (data : Bytes) :
    hashBytes lib t data =
        (littleEndian t.getSize (lib.crc t.base data 0)).reverse ∧
      hashBytes lib t.base data = hashBytes lib t data := by
  cases t <;> first | exact absurd hfull (by decide) | exact ⟨rfl, rfl⟩

/-! ## What the headers say -/

theorem asciiToLower_lower {s : Bytes} {c : UInt8} (h : c ∈ asciiToLower s) :
    ¬ (0x41 ≤ c ∧ c ≤ 0x5a) := by
  obtain ⟨d, -, rfl⟩ := mem_map.mp h
  by_cases hd : 0x41 ≤ d ∧ d ≤ 0x5a
  · rw [if_pos hd]
    simp only [UInt8.le_iff_toNat_le, UInt8.toNat_add] at hd ⊢
    simp only [UInt8.reduceToNat] at hd ⊢
    omega
  · rwa [if_neg hd]

theorem sdkChecksumName_lower (headers : List (Bytes × Bytes)) :
    ∀ c ∈ sdkChecksumName headers, ¬ (0x41 ≤ c ∧ c ≤ 0x5a) := by
  refine List.foldlRecOn headers _ (b := [])
    (motive := fun name => ∀ c ∈ name, ¬ (0x41 ≤ c ∧ c ≤ 0x5a))
    (fun c hc => absurd hc not_mem_nil) ?_
  intro name hname header _
  dsimp only
  split
  · exact fun c hc => asciiToLower_lower (mem_of_mem_drop hc)
  · exact hname

theorem createSdkChecksum_spec {name : Bytes} {compositeChecksum : Bool}
    (h : createSdkChecksum name compositeChecksum = some t) :
    t.isFull = !compositeChecksum ∧
      (name = t.name ∨ 0x43 ∈ name ∨ 0x53 ∈ name) := by
  rcases compositeChecksum with _ | _
  all_goals
    simp only [createSdkChecksum, Bool.false_eq_true, if_true, if_false] at h
    split_ifs at h
  all_goals
    rename_i hname
    cases h
    rcases hname with rfl | rfl
    · decide +kernel
    · decide +kernel

theorem createSdkChecksum_sdkChecksumName {compositeChecksum : Bool}
    (h : createSdkChecksum (sdkChecksumName headers) compositeChecksum =
      some t) :
    t.isFull = !compositeChecksum ∧ sdkChecksumName headers = t.name := by
  obtain ⟨hfull, hname | hupper | hupper⟩ := createSdkChecksum_spec h
  · exact ⟨hfull, hname⟩
  · exact absurd (by decide) (sdkChecksumName_lower headers _ hupper)
  · exact absurd (by decide) (sdkChecksumName_lower headers _ hupper)

theorem createSdkChecksum_name (hfull : t.isFull) :
    createSdkChecksum t.name false = some t := by
  cases t <;> first | exact absurd hfull (by decide) | decide +kernel

def checksumType (headers : List (Bytes × Bytes)) : Bytes :=
  getSingleOrEmpty headers (ascii "x-amz-checksum-type")

/-- The value that the request supplies for the algorithm it names. -/
def checksumValue (headers : List (Bytes × Bytes)) : Bytes :=
  getSingleOrEmpty headers
    (ascii "x-amz-checksum-" ++ sdkChecksumName headers)

theorem of_initSdkChecksum (hname : sdkChecksumName headers ≠ [])
    {sdkChecksumHash : Option PayloadHash}
    (h : initSdkChecksum lib headers = some sdkChecksumHash) :
    ∃ t hash, sdkChecksumHash = some (.new t hash) ∧
      (t.isFull ↔ checksumType headers = ascii "FULL_OBJECT") ∧
      sdkChecksumName headers = t.name ∧ hash.length = t.getSize ∧
      lib.base64Decode (checksumValue headers) = some hash := by
  unfold initSdkChecksum at h
  dsimp only at h
  rw [if_neg hname] at h
  split at h
  · cases h
  · rw [bind_eq_bind, bind_eq_some_iff] at h
    obtain ⟨t, ht, h⟩ := h
    split at h
    · cases h
    · rw [bind_eq_bind, bind_eq_some_iff] at h
      obtain ⟨hash, hdecode, h⟩ := h
      obtain ⟨hsize, h⟩ := ite_none_right_eq_some.mp h
      obtain ⟨hfull, hnamed⟩ := createSdkChecksum_sdkChecksumName ht
      refine ⟨t, hash, (Option.some.inj h).symm, ?_, hnamed, hsize, hdecode⟩
      rw [hfull]
      simp [checksumType]

theorem initSdkChecksum_full (hfull : t.isFull)
    (hname : sdkChecksumName headers = t.name)
    (htype : checksumType headers = ascii "FULL_OBJECT")
    (hne : checksumValue headers ≠ []) {hash : Bytes}
    (hdecode : lib.base64Decode (checksumValue headers) = some hash)
    (hsize : hash.length = t.getSize) :
    initSdkChecksum lib headers = some (some (.new t hash)) := by
  have hnonempty : t.name ≠ [] := by cases t <;> decide +kernel
  unfold checksumType at htype
  unfold checksumValue at hne hdecode
  rw [hname] at hne hdecode
  simp only [initSdkChecksum, hname, htype, if_neg hne, if_neg hnonempty,
    ne_eq, not_true_eq_false, false_and, if_false, decide_false,
    createSdkChecksum_name hfull, hdecode, bind_eq_bind,
    bind_some]
  exact if_pos hsize

/-! ## Full checksums -/

theorem combineParts_full (hlib : lib.Correct t) (hfull : t.isFull)
    (expected content : Bytes) (contents : List Bytes) :
    combineParts lib ⟨t, expected, [], lib.crc t.base content 0⟩
        (contents.map (storedPart lib t)) =
      some ⟨t, expected, [], lib.crc t.base (content ++ contents.flatten) 0⟩ := by
  induction contents generalizing content with
  | nil => simp [combineParts]
  | cons next contents ih =>
    have hvalue : leNat (hashBytes lib t.base next).reverse =
        lib.crc t.base next 0 := by
      rw [(hashBytes_full hfull next).2, (hashBytes_full hfull next).1,
        reverse_reverse, leNat_littleEndian (hlib.crc_lt hfull next)]
    have hlen : (hashBytes lib t.base next).length = t.getSize := by
      rw [(hashBytes_full hfull next).2, (hashBytes_full hfull next).1,
        length_reverse, length_littleEndian]
    have hstep : PayloadHash.combine lib
        ⟨t, expected, [], lib.crc t.base content 0⟩
        ⟨t.base, hashBytes lib t.base next⟩ next.length =
        some ⟨t, expected, [], lib.crc t.base (content ++ next) 0⟩ := by
      simp [PayloadHash.combine, hfull, hlen, hvalue, hlib.combine]
    simp only [map_cons, combineParts, storedPart, bind_eq_bind,
      bind_some]
    rw [if_pos (by simp [PayloadHash.canCombine, hfull]), hstep,
      bind_some, ih, flatten_cons, append_assoc]

theorem final_full (hfull : t.isFull) (expected data : Bytes) :
    PayloadHash.final lib ⟨t, expected, [], lib.crc t.base data 0⟩ =
      hashBytes lib t data := by
  cases t <;> first | exact absurd hfull (by decide) | rfl

/-- What the comparison at the end comes to for a full checksum. -/
theorem expected_full (hlib : lib.Correct t) (hfull : t.isFull)
    (hash : Bytes) (contents : List Bytes) :
    ∃ h, combineParts lib (.new t hash) (contents.map (storedPart lib t)) =
        some h ∧
      (h.isFinalCombinedExpected lib contents.length = true ↔
        hash = hashBytes lib t contents.flatten) := by
  refine ⟨⟨t, hash, [], lib.crc t.base contents.flatten 0⟩, ?_, ?_⟩
  · have h := combineParts_full hlib hfull hash [] contents
    rwa [hlib.crc_nil hfull, nil_append] at h
  · simp only [PayloadHash.isFinalCombinedExpected, decide_eq_true_eq,
      PayloadHash.finalCombined, hfull, if_true, final_full hfull]

/-! ## Composite checksums -/

theorem combine_fields {h h' : PayloadHash} {other : SdkChecksum} {len : ℕ}
    (hcombine : h.combine lib other len = some h') :
    h'.expectedHash = h.expectedHash ∧ h'.hashType = h.hashType := by
  unfold PayloadHash.combine at hcombine
  split at hcombine
  · split at hcombine
    · cases hcombine
    · cases hcombine
      exact ⟨rfl, rfl⟩
  · cases hcombine
    unfold PayloadHash.update
    split <;> exact ⟨rfl, rfl⟩

theorem combineParts_fields {h h' : PayloadHash} {parts : List StoredPart}
    (hloop : combineParts lib h parts = some h') :
    h'.expectedHash = h.expectedHash ∧ h'.hashType = h.hashType := by
  induction parts generalizing h with
  | nil =>
    cases hloop
    exact ⟨rfl, rfl⟩
  | cons part parts ih =>
    rw [combineParts, bind_eq_bind, bind_eq_some_iff] at hloop
    obtain ⟨other, -, hloop⟩ := hloop
    obtain ⟨-, hloop⟩ := ite_none_right_eq_some.mp hloop
    rw [bind_eq_bind, bind_eq_some_iff] at hloop
    obtain ⟨next, hnext, hloop⟩ := hloop
    obtain ⟨hexpected, htype⟩ := ih hloop
    obtain ⟨hexpected', htype'⟩ := combine_fields hnext
    exact ⟨hexpected.trans hexpected', htype.trans htype'⟩

theorem length_final {h : PayloadHash} (hlib : lib.Correct h.hashType) :
    (h.final lib).length = h.hashType.getSize := by
  unfold PayloadHash.final
  split
  · rename_i htype
    exact hlib.digest_length (.inl htype) _
  · rename_i htype
    exact hlib.digest_length (.inr htype) _
  · rw [length_reverse, length_littleEndian]

/-- A value of the length of a hash is never that of a composite checksum. -/
theorem not_expected_composite {h : PayloadHash}
    (hlib : lib.Correct h.hashType) (hfull : ¬ h.hashType.isFull)
    (hsize : h.expectedHash.length = h.hashType.getSize) (numParts : ℕ) :
    h.isFinalCombinedExpected lib numParts = false := by
  simp only [PayloadHash.isFinalCombinedExpected, decide_eq_false_iff_not,
    PayloadHash.finalCombined, if_neg hfull]
  intro heq
  have hlen := congrArg List.length heq
  have hdash : (ascii "-").length = 1 := by decide +kernel
  rw [length_append, length_append, length_final hlib, hdash] at hlen
  omega

/-! ## The answer to a request -/

theorem acceptsChecksum_eq_true (hname : sdkChecksumName headers ≠ [])
    (parts : List StoredPart) :
    acceptsChecksum lib (some t) parts headers = true ↔
      ∃ hash h, initSdkChecksum lib headers = some (some (.new t hash)) ∧
        combineParts lib (.new t hash) parts = some h ∧
        h.isFinalCombinedExpected lib parts.length = true := by
  unfold acceptsChecksum
  rcases hinit : initSdkChecksum lib headers with _ | sdkChecksumHash
  · simp
  · obtain ⟨t', hash, rfl, -⟩ := of_initSdkChecksum hname hinit
    by_cases htype : t = t'
    · subst htype
      simp only [PayloadHash.new, ne_eq, not_true_eq_false, if_false]
      rcases hloop : combineParts lib ⟨t, hash, [], 0⟩ parts with _ | h
      · simp [hloop]
      · simp [hloop]
    · have hne : t ≠ (PayloadHash.new t' hash).hashType := htype
      simp only [ne_eq, hne, not_false_eq_true, if_true, Bool.false_eq_true,
        some_inj, false_iff]
      rintro ⟨hash', h, heq, -⟩
      exact htype (congrArg PayloadHash.hashType heq).symm

/-- The checksums of the library with which the program is built.  The digests
play no part in what follows. -/
def crcLib : HashLib where
  digest _ data := data
  crc t data previous :=
    match t with
    | .crc32 => (Crc.crc 0xEDB88320#32 data (BitVec.ofNat 32 previous)).toNat
    | .crc32c => (Crc.crc 0x82F63B78#32 data (BitVec.ofNat 32 previous)).toNat
    | .crc64Nvme =>
      (Crc.crc 0x9A6C9329AC4BC9B5#64 data (BitVec.ofNat 64 previous)).toNat
    | _ => 0
  crcCombine t a b n :=
    match t with
    | .crc32 => (Crc.combine 0xEDB88320#32 (BitVec.ofNat 32 a)
        (BitVec.ofNat 32 b) n).toNat
    | .crc32c => (Crc.combine 0x82F63B78#32 (BitVec.ofNat 32 a)
        (BitVec.ofNat 32 b) n).toNat
    | .crc64Nvme => (Crc.combine 0x9A6C9329AC4BC9B5#64 (BitVec.ofNat 64 a)
        (BitVec.ofNat 64 b) n).toNat
    | _ => 0
  base64Decode := base64Decode

theorem crcLib_correct (hfull : t.isFull) : crcLib.Correct t where
  digest_length h := by
    rcases h with rfl | rfl <;> exact absurd hfull (by decide)
  crc_lt _ data := by
    cases t
    all_goals first | exact absurd hfull (by decide) | exact BitVec.isLt _
  crc_nil _ := by
    cases t
    all_goals first | exact absurd hfull (by decide) | rfl
  combine _ a b := by
    cases t
    all_goals first
      | exact absurd hfull (by decide)
      | simp only [crcLib, AwsHashType.base, BitVec.ofNat_toNat,
          BitVec.setWidth_eq]
        exact congrArg BitVec.toNat (Crc.combine_crc _ a b)

/-- A request for an upload with the part `123456789`. -/
def completeComposite (value : Bytes) : Bool :=
  acceptsChecksum crcLib (some .crc32c)
    [storedPart crcLib .crc32c (ascii "123456789")]
    [(ascii "x-amz-checksum-crc32c", value),
      (ascii "x-amz-checksum-type", ascii "COMPOSITE")]

end Hs5
