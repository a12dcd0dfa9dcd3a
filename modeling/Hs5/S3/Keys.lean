import Hs5.Support.OrderedMap
import Hs5.Data.VarInt
import Mathlib.Data.List.Lex
import Mathlib.Data.List.TakeWhile
import Mathlib.Data.Prod.Lex
import Mathlib.Tactic.NormNum

/-!
# Object keys and upload ids

Everything the S3 layer stores is an entry of the main map.  A key names a
bucket, an object name and a version; the map orders keys as `mdb_cmp_s3key`
does, so that the versions of one object stand next to each other, the
newest first.  With each bucket come two more: one holds a record for each
multipart upload in progress, under the name of the object and with the
upload id as version, the other holds the uploaded parts.
-/

namespace Hs5

open List

structure KeyInfo where
  bucketId : ℤ
  key : Bytes
  version : ℤ
  deriving DecidableEq

namespace KeyInfo

/-- What `mdb_cmp_s3key` compares: buckets and versions in decreasing order,
names in increasing order. -/
def sortKey (k : KeyInfo) : ℤᵒᵈ ×ₗ (List ℕ ×ₗ ℤᵒᵈ) :=
  toLex (OrderDual.toDual k.bucketId,
    toLex (k.key.map UInt8.toNat, OrderDual.toDual k.version))

theorem sortKey_injective : Function.Injective sortKey := by
  intro a b h
  have hname : Function.Injective (List.map UInt8.toNat) :=
    map_injective_iff.mpr fun _ _ => UInt8.toNat.inj
  simp only [sortKey, EmbeddingLike.apply_eq_iff_eq, Prod.mk.injEq,
    hname.eq_iff] at h
  obtain ⟨hbucket, hkey, hversion⟩ := h
  cases a
  simp_all

instance : LinearOrder KeyInfo := LinearOrder.lift' sortKey sortKey_injective

/-- `s3key_common_prefix`: bucket and name, without the version. -/
def commonPrefix (k : KeyInfo) : ℤ × Bytes := (k.bucketId, k.key)

end KeyInfo

/-! ## Buckets -/

/-- The ids `nextId` issues: one in four. -/
def isObjectBucket (bucketId : ℤ) : Prop := bucketId % 4 = 1
  deriving Decidable

def getPartialUploadsBucket (bucketId : ℤ) : ℤ := bucketId + 1

def isPartialUploadsBucket (bucketId : ℤ) : Prop := bucketId % 4 = 2
  deriving Decidable

def getPartsBucket (bucketId : ℤ) : ℤ := bucketId + 2

/-! ## Upload ids as strings -/

/-- The lowest `w` bytes of a number, most significant first. -/
def bigEndian : ℕ → ℕ → Bytes
  | 0, _ => []
  | w + 1, n => bigEndian w (n / 256) ++ [UInt8.ofNat n]

def fromBigEndian (bytes : Bytes) : ℕ :=
  bytes.foldl (fun n b => n * 256 + b.toNat) 0

@[simp] theorem length_bigEndian (w n : ℕ) : (bigEndian w n).length = w := by
  induction w generalizing n with
  | zero => rfl
  | succ w ih => simp [bigEndian, ih]

theorem fromBigEndian_bigEndian (w n : ℕ) :
    fromBigEndian (bigEndian w n) = n % 256 ^ w := by
  induction w generalizing n with
  | zero => simp [bigEndian, fromBigEndian, Nat.mod_one]
  | succ w ih =>
    have hdigits : n % 256 ^ (w + 1) = n % 256 + 256 * (n / 256 % 256 ^ w) := by
      rw [pow_succ', Nat.mod_mul]
    have hlast : fromBigEndian (bigEndian (w + 1) n) =
        fromBigEndian (bigEndian w (n / 256)) * 256 + n % 256 := by
      simp [fromBigEndian, bigEndian]
    rw [hlast, ih, hdigits, Nat.mul_comm, Nat.add_comm]

/-- How many bytes `uploadIdToStr` spends on the number. -/
def uploadIdWidth (uploadId : ℤ) : ℕ :=
  if uploadId < 255 then 1
  else if uploadId < 65535 then 2
  else if uploadId < 4294967295 then 4
  else 8

/-- `uploadIdToStr`: a zero byte and the number, which a negative one enters
in two's complement. -/
def uploadIdToStr (uploadId : ℤ) : Bytes :=
  0 :: bigEndian (uploadIdWidth uploadId) (uploadId % 2 ^ 64).toNat

/-- `uploadIdFromStr`; a string of any other length fails an assertion. -/
def uploadIdFromStr (key : Bytes) : ℤ :=
  let n := fromBigEndian key.tail
  match key.length with
  | 2 | 3 | 5 => n
  | 9 => if n < 2 ^ 63 then n else n - 2 ^ 64
  | _ => -1

def dot : UInt8 := 0x2e

def partName (uploadId partNumber : ℤ) : Bytes :=
  uploadIdToStr uploadId ++ dot :: uploadIdToStr partNumber

def uploadIdFromStrDot (key : Bytes) : ℤ × ℤ :=
  if dot ∈ key then
    (uploadIdFromStr (key.takeWhile (· ≠ dot)),
      uploadIdFromStr (key.dropWhile (· ≠ dot)).tail)
  else (-1, -1)

@[simp] theorem length_uploadIdToStr (uploadId : ℤ) :
    (uploadIdToStr uploadId).length = uploadIdWidth uploadId + 1 := by
  simp [uploadIdToStr]

theorem uploadIdWidth_cases (uploadId : ℤ) :
    (uploadIdWidth uploadId = 1 ∧ uploadId < 255) ∨
      (uploadIdWidth uploadId = 2 ∧ uploadId < 65535) ∨
      (uploadIdWidth uploadId = 4 ∧ uploadId < 4294967295) ∨
      uploadIdWidth uploadId = 8 := by
  unfold uploadIdWidth
  split_ifs <;> simp_all

structure IsId (id : ℤ) : Prop where
  nonneg : 0 ≤ id
  lt : id < 2 ^ 63

instance (id : ℤ) : Decidable (IsId id) :=
  decidable_of_iff (0 ≤ id ∧ id < 2 ^ 63)
    ⟨fun h => ⟨h.1, h.2⟩, fun h => ⟨h.nonneg, h.lt⟩⟩

theorem fromBigEndian_uploadIdToStr {id : ℤ} (h : IsId id) :
    fromBigEndian (uploadIdToStr id).tail = id.toNat := by
  have hnonneg := h.nonneg
  have hlt := h.lt
  rw [uploadIdToStr, tail_cons, fromBigEndian_bigEndian,
    Int.emod_eq_of_lt hnonneg (by omega)]
  apply Nat.mod_eq_of_lt
  rcases uploadIdWidth_cases id with ⟨hw, hid⟩ | ⟨hw, hid⟩ | ⟨hw, hid⟩ | hw <;>
    rw [hw] <;> norm_num <;> omega

theorem uploadIdFromStr_uploadIdToStr {id : ℤ} (h : IsId id) :
    uploadIdFromStr (uploadIdToStr id) = id := by
  have hnonneg := h.nonneg
  have hlt := h.lt
  unfold uploadIdFromStr
  rw [fromBigEndian_uploadIdToStr h, length_uploadIdToStr]
  rcases uploadIdWidth_cases id with ⟨hw, hid⟩ | ⟨hw, hid⟩ | ⟨hw, hid⟩ | hw <;>
    rw [hw] <;> norm_num <;> omega

/-- Reading the name of a part back, unless a byte of the upload id is a
dot. -/
theorem uploadIdFromStrDot_partName {uploadId partNumber : ℤ}
    (hid : IsId uploadId) (hpart : IsId partNumber)
    (hdot : dot ∉ uploadIdToStr uploadId) :
    uploadIdFromStrDot (partName uploadId partNumber) =
      (uploadId, partNumber) := by
  have hall : ∀ b ∈ uploadIdToStr uploadId, decide (b ≠ dot) = true := by
    intro b hb
    rw [decide_eq_true_iff]
    rintro rfl
    exact hdot hb
  have htake : (partName uploadId partNumber).takeWhile (· ≠ dot) =
      uploadIdToStr uploadId := by
    rw [partName, takeWhile_append_of_pos hall]
    simp
  have hdrop : (partName uploadId partNumber).dropWhile (· ≠ dot) =
      dot :: uploadIdToStr partNumber := by
    rw [partName, dropWhile_append_of_pos hall]
    simp
  have hmem : dot ∈ partName uploadId partNumber := by simp [partName]
  rw [uploadIdFromStrDot, if_pos hmem, htake, hdrop, tail_cons,
    uploadIdFromStr_uploadIdToStr hid, uploadIdFromStr_uploadIdToStr hpart]

/-- An upload with id 46 is taken for the upload -1. -/
example : uploadIdFromStrDot (partName 46 1) = (-1, 1) := by decide

theorem uploadIdToStr_inj {a b : ℤ} (ha : IsId a) (hb : IsId b)
    (h : uploadIdToStr a = uploadIdToStr b) : a = b := by
  rw [← uploadIdFromStr_uploadIdToStr ha, h, uploadIdFromStr_uploadIdToStr hb]

/-! ## Different parts have different names -/

/-- A part number that takes one or two bytes; requests that upload parts are
limited to the numbers from 1 to 10000. -/
structure IsPartNumber (n : ℤ) : Prop where
  nonneg : 0 ≤ n
  lt : n < 65535

theorem IsPartNumber.isId {n : ℤ} (h : IsPartNumber n) : IsId n := by
  have := h.lt
  exact ⟨h.nonneg, by omega⟩

theorem IsPartNumber.width {n : ℤ} (h : IsPartNumber n) :
    uploadIdWidth n = 1 ∨ uploadIdWidth n = 2 := by
  have := h.lt
  unfold uploadIdWidth
  split_ifs <;> simp

/-- A part number of one byte and one of two do not complete each other's
upload ids to the same name. -/
theorem partName_ne {id id' n n' : ℤ} (hn : uploadIdWidth n = 1)
    (hn' : uploadIdWidth n' = 2) : partName id n ≠ partName id' n' := by
  intro h
  have hlen := congrArg List.length h
  simp only [partName, length_append, length_cons,
    length_uploadIdToStr, hn, hn'] at hlen
  have hid : uploadIdWidth id = 2 ∧ uploadIdWidth id' = 1 := by
    rcases uploadIdWidth_cases id with ⟨hw, _⟩ | ⟨hw, _⟩ | ⟨hw, _⟩ | hw <;>
      rcases uploadIdWidth_cases id' with ⟨hw', _⟩ | ⟨hw', _⟩ | ⟨hw', _⟩ | hw' <;>
      rw [hw, hw'] at hlen <;> simp_all
  simp [partName, uploadIdToStr, hn, hn', hid.1, hid.2, bigEndian, dot] at h

theorem partName_inj {id id' n n' : ℤ} (hid : IsId id) (hid' : IsId id')
    (hn : IsPartNumber n) (hn' : IsPartNumber n')
    (h : partName id n = partName id' n') : id = id' ∧ n = n' := by
  have hwidth : uploadIdWidth n = uploadIdWidth n' := by
    rcases hn.width with hw | hw <;> rcases hn'.width with hw' | hw'
    · rw [hw, hw']
    · exact absurd h (partName_ne hw hw')
    · exact absurd h.symm (partName_ne hw' hw)
    · rw [hw, hw']
  have hlen : (dot :: uploadIdToStr n).length =
      (dot :: uploadIdToStr n').length := by
    simp [hwidth]
  obtain ⟨hleft, hright⟩ := append_inj' h hlen
  exact ⟨uploadIdToStr_inj hid hid' hleft,
    uploadIdToStr_inj hn.isId hn'.isId (List.cons.inj hright).2⟩

/-! ## The round trip of part names -/

theorem fromBigEndian_append (xs ys : Bytes) :
    fromBigEndian (xs ++ ys) =
      fromBigEndian xs * 256 ^ ys.length + fromBigEndian ys := by
  have hfold : ∀ (ys : Bytes) (n : ℕ),
      ys.foldl (fun n b => n * 256 + b.toNat) n =
        n * 256 ^ ys.length + fromBigEndian ys := by
    intro ys
    induction ys with
    | nil => simp [fromBigEndian]
    | cons b ys ih =>
      intro n
      rw [fromBigEndian, foldl_cons, foldl_cons, ih, ih (_ + _),
        length_cons, pow_succ', Nat.add_mul, Nat.add_mul, Nat.mul_assoc]
      omega
  rw [fromBigEndian, foldl_append, hfold]
  rfl

theorem uploadIdFromStr_before_dot {uploadId : ℤ} (hid : IsId uploadId)
    {left right : Bytes} (h : uploadIdToStr uploadId = left ++ dot :: right) :
    uploadIdFromStr left ≠ uploadId := by
  have hnonneg := hid.nonneg
  have hlen := congrArg List.length h
  simp only [length_uploadIdToStr, length_append,
    length_cons] at hlen
  have hshort : left.length < 9 := by
    rcases uploadIdWidth_cases uploadId with h | h | h | h <;> omega
  have hvalue : uploadIdFromStr left = -1 ∨
      uploadIdFromStr left = fromBigEndian left.tail := by
    unfold uploadIdFromStr
    split
    · exact .inr rfl
    · exact .inr rfl
    · exact .inr rfl
    · omega
    · exact .inl rfl
  intro heq
  rcases hvalue with hvalue | hvalue
  · omega
  · obtain ⟨b, left, rfl⟩ : ∃ b bs, left = b :: bs := by
      cases left with
      | nil => simp [uploadIdToStr, dot] at h
      | cons b bs => exact ⟨b, bs, rfl⟩
    have hfull := fromBigEndian_uploadIdToStr hid
    rw [h, cons_append, tail_cons, ← singleton_append,
      fromBigEndian_append, fromBigEndian_append [dot]] at hfull
    rw [show fromBigEndian [dot] = 46 from rfl] at hfull
    have hpos := Nat.pow_pos (n := right.length) (show 0 < 256 by decide)
    have hgrow := Nat.le_mul_of_pos_right (fromBigEndian left)
      (Nat.pow_pos (n := ([dot] ++ right).length) (show 0 < 256 by decide))
    rw [tail_cons] at hvalue
    omega

/-- The name of a part is read back exactly if no byte of the upload id is a
dot. -/
theorem partName_roundTrip {uploadId partNumber : ℤ} (hid : IsId uploadId)
    (hpart : IsId partNumber) :
    (uploadIdFromStrDot (partName uploadId partNumber) =
        (uploadId, partNumber) ↔ dot ∉ uploadIdToStr uploadId) ∧
      ∀ uploadId' partNumber', IsId uploadId' → IsId partNumber' →
        (dot ∉ uploadIdToStr uploadId ∧ dot ∉ uploadIdToStr uploadId' ∨
          IsPartNumber partNumber ∧ IsPartNumber partNumber') →
        partName uploadId partNumber = partName uploadId' partNumber' →
        uploadId = uploadId' ∧ partNumber = partNumber' := by
  refine ⟨⟨fun hread hdot => ?_, uploadIdFromStrDot_partName hid hpart⟩, ?_⟩
  · have hmem : dot ∈ partName uploadId partNumber := by simp [partName]
    obtain ⟨left, right, heq, hleft⟩ := eq_append_cons_of_mem hdot
    have hall : ∀ b ∈ left, decide (b ≠ dot) = true := by
      intro b hb
      rw [decide_eq_true_iff]
      rintro rfl
      exact hleft hb
    have htake : (partName uploadId partNumber).takeWhile (· ≠ dot) = left := by
      rw [partName, heq, append_assoc, takeWhile_append_of_pos hall]
      simp
    rw [uploadIdFromStrDot, if_pos hmem, htake] at hread
    exact uploadIdFromStr_before_dot hid heq (Prod.mk.inj hread).1
  · rintro uploadId' partNumber' hid' hpart' (⟨hdot, hdot'⟩ | ⟨hn, hn'⟩) heq
    · have hread := uploadIdFromStrDot_partName hid hpart hdot
      rw [heq, uploadIdFromStrDot_partName hid' hpart' hdot'] at hread
      obtain ⟨hids, hparts⟩ := Prod.mk.inj hread
      exact ⟨hids.symm, hparts.symm⟩
    · exact partName_inj hid hid' hn hn' heq

theorem partName_roundTrip_wide :
    uploadIdFromStrDot (partName 4294967295 10000) = (4294967295, 10000) :=
  (partName_roundTrip (by decide) (by decide)).1.mpr (by decide)

/-- The upload id 46 is a dot itself, and the upload 19791873 has a dot in its
second byte: its part 5 is called like part 19791877 of upload 1. -/
theorem not_partName_roundTrip_dot :
    uploadIdFromStrDot (partName 46 1) ≠ (46, 1) ∧
      partName 1 19791877 = partName 19791873 5 := by
  constructor
  · decide
  · decide

end Hs5
