import Hs5.Wal.Codec

/-!
# The bytes of an index value

The commit thread writes index values in two places, when it adds an object
and when it replaces the metadata of one, and index values are read by
`get_frag_info` and by `remove_fn`.  The number of extra extents stands in the
lowest bits of the first offset, which is a multiple of the block size.  A
list too long for these bits is announced by their greatest value, and its
length follows with the number of skip lists, which is zero.
-/

namespace Hs5

open List Parser

/-! ## Writing -/

def maxInlineExts : ℤ := 511

def encodeNumExts (offset exts : ℤ) : ℤ := offset + exts

def encodeMaxNumExts (offset : ℤ) : ℤ := offset + maxInlineExts

/-- The bytes that `put_frag_info_md5sum` stores for an object whose metadata
it replaces. -/
def putFragInfoMd5sum (fragInfo : IndexValue) (md5sum : Bytes) : Bytes :=
  let encodedFirstOffset :=
    if fragInfo.extraExts.length < maxInlineExts then
      encodeNumExts fragInfo.offset fragInfo.extraExts.length
    else encodeMaxNumExts fragInfo.offset
  addVarInt encodedFirstOffset ++ addVarInt fragInfo.len ++
    (if fragInfo.extraExts.length ≥ maxInlineExts then
      addVarInt fragInfo.extraExts.length ++ addVarInt 0
    else []) ++
    fragInfo.extraExts.flatMap serializeExt ++
    addVarInt fragInfo.lastModified ++ addString2 md5sum

/-- The bytes that the `Add` branch stores; the statements are the same. -/
def addFragInfo (fragInfo : IndexValue) : Bytes :=
  putFragInfoMd5sum fragInfo fragInfo.md5sum

/-! ## Reading -/

/-- `extract_num_exts`: the number of extents, and the offset without it. -/
def extractNumExts (offset : ℤ) : ℤ × ℤ :=
  let exts := offset.tmod 512
  (exts, offset - exts)

/-- The loop of `read_extra_exts`.  No vector has a negative size. -/
def readExtLoop (numExts : ℤ) : Parser UInt8 (List SPunchItem) :=
  if numExts < 0 then failure else times numExts.toNat deserializeExt

/-- `read_extra_exts`: the offset without the number, and the extents. -/
def readExtraExts (offset : ℤ) : Parser UInt8 (ℤ × List SPunchItem) := do
  let (inlineExts, offset) := extractNumExts offset
  let numExts ←
    if inlineExts = maxInlineExts then do
      let numExts ← getVarInt
      let _skipLists ← getVarInt
      pure numExts
    else pure inlineExts
  let extraExts ← readExtLoop numExts
  pure (offset, extraExts)

def readExts : Parser UInt8 (ℤ × ℤ × List SPunchItem) := do
  let offset ← getVarInt
  let len ← getVarInt
  let (offset, extraExts) ← readExtraExts offset
  pure (offset, len, extraExts)

/-- `last_modified` and `md5sum`, which keep their values where they cannot be
read. -/
def readMetadata (data : Bytes) : ℤ × Bytes :=
  match getVarInt data with
  | none => (0, [])
  | some (lastModified, data) =>
    match getStr2 data with
    | none => (lastModified, [])
    | some (md5sum, _) => (lastModified, md5sum)

structure SFragInfo extends IndexValue where
  fn : Bytes
  deriving DecidableEq, Repr

/-- The default constructor of `SFragInfo`. -/
def SFragInfo.notFound : SFragInfo := ⟨⟨-1, 0, [], 0, []⟩, []⟩

/-- The part of `get_frag_info` that takes a value apart; `fn` is the name
that the result has by then. -/
def parseFragInfo (fn tvalue : Bytes) : SFragInfo :=
  match readExts (tvalue.take maxRData) with
  | none => SFragInfo.notFound
  | some ((offset, len, extraExts), rdata) =>
    let (lastModified, md5sum) :=
      if offset ≠ -1 then readMetadata rdata else (0, [])
    ⟨⟨offset, len, extraExts, lastModified, md5sum⟩, fn⟩

/-- The extents that `remove_fn` frees for a value of the main map, in order,
and the metadata for its callback. -/
def removeFnValue (tval : Bytes) : Option (List SPunchItem × Bytes) :=
  (readExts (tval.take maxRData)).map fun ((offset, len, extraExts), rdata) =>
    (⟨offset, len⟩ :: extraExts,
      if offset ≠ -1 then (readMetadata rdata).2 else [])

/-! ## Round trip -/

/-- Values in the range of their types, with a first offset on a block
boundary and a metadata string that the reader accepts. -/
structure IndexValue.Encodable (v : IndexValue) : Prop where
  nonneg : 0 ≤ v.offset
  dvd : blockSize ∣ v.offset
  offset : IsInt64 v.offset
  len : IsInt64 v.len
  exts : ∀ e ∈ v.extraExts, IsInt64 e.offset ∧ IsInt64 e.len
  lastModified : IsInt64 v.lastModified
  md5sum : v.md5sum.length ≤ maxStr2

theorem extractNumExts_add {offset n : ℤ} (hnonneg : 0 ≤ offset)
    (hdvd : blockSize ∣ offset) (hn : 0 ≤ n) (hlt : n < 512) :
    extractNumExts (offset + n) = (n, offset) := by
  have hmod : (offset + n).tmod 512 = n := by
    rw [Int.tmod_eq_emod_of_nonneg (by omega)]
    obtain ⟨c, rfl⟩ := hdvd
    unfold blockSize
    omega
  rw [extractNumExts, hmod]
  simp

theorem isInt64_add {offset n : ℤ} (hnonneg : 0 ≤ offset)
    (hdvd : blockSize ∣ offset) (hoffset : IsInt64 offset) (hn : 0 ≤ n)
    (hlt : n < 512) : IsInt64 (offset + n) := by
  obtain ⟨c, rfl⟩ := hdvd
  unfold IsInt64 blockSize at *
  omega

theorem reads_deserializeExt {e : SPunchItem}
    (h : IsInt64 e.offset ∧ IsInt64 e.len) :
    Reads deserializeExt (serializeExt e) e :=
  (reads_getVarInt h.1).bind (reads_getVarInt h.2).bind_pure

theorem consumes_getVarintFrom (n acc : ℕ) :
    Consumes 1 (getVarintFrom n acc) := by
  induction n generalizing acc with
  | zero => exact consumes_token.bind fun b => consumes_pure _
  | succ n ih =>
    refine consumes_token.bind (k := 0) fun b => ?_
    by_cases hlast : b.toNat < 128
    · rw [if_pos hlast]
      exact consumes_pure _
    · rw [if_neg hlast]
      exact (ih _).mono (by decide)

theorem consumes_getVarInt : Consumes 1 getVarInt :=
  (consumes_getVarintFrom 8 0).bind fun _ => consumes_pure _

theorem consumes_deserializeExt : Consumes 2 deserializeExt :=
  consumes_getVarInt.bind fun _ => consumes_getVarInt.bind fun _ =>
    consumes_pure _

theorem readExtLoop_le {numExts : ℤ} {data rest : Bytes}
    {extraExts : List SPunchItem}
    (h : readExtLoop numExts data = some (extraExts, rest)) :
    rest.length + 2 * extraExts.length ≤ data.length := by
  unfold readExtLoop at h
  by_cases hneg : numExts < 0
  · rw [if_pos hneg] at h
    cases h
  · rw [if_neg hneg] at h
    exact consumes_deserializeExt.times h

section ReadBack

variable {v : IndexValue} (h : v.Encodable)
  (hcount : IsInt64 v.extraExts.length)

include h in
theorem reads_extraExts :
    Reads (readExtLoop v.extraExts.length)
      (v.extraExts.flatMap serializeExt) v.extraExts := by
  rw [readExtLoop, if_neg (by omega), Int.toNat_natCast]
  exact reads_times v.extraExts fun e he => reads_deserializeExt (h.exts e he)

def IndexValue.extBytes (v : IndexValue) : Bytes :=
  addVarInt (if v.extraExts.length < maxInlineExts then
      encodeNumExts v.offset v.extraExts.length
    else encodeMaxNumExts v.offset) ++
  (addVarInt v.len ++ ((if v.extraExts.length ≥ maxInlineExts then
        addVarInt v.extraExts.length ++ addVarInt 0
      else []) ++
    v.extraExts.flatMap serializeExt))

theorem addFragInfo_eq (v : IndexValue) :
    addFragInfo v =
      v.extBytes ++ (addVarInt v.lastModified ++ addString2 v.md5sum) := by
  simp only [addFragInfo, putFragInfoMd5sum, IndexValue.extBytes,
    append_assoc]

include h hcount in
theorem reads_readExts :
    Reads readExts v.extBytes (v.offset, v.len, v.extraExts) := by
  unfold IndexValue.extBytes
  by_cases hinline : (v.extraExts.length : ℤ) < maxInlineExts
  · have hlt : (v.extraExts.length : ℤ) < 512 := by
      unfold maxInlineExts at hinline
      omega
    have hnot : ¬ (v.extraExts.length : ℤ) ≥ maxInlineExts := by omega
    rw [if_pos hinline, if_neg hnot, nil_append, encodeNumExts]
    refine (reads_getVarInt (isInt64_add h.nonneg h.dvd h.offset (by omega)
      hlt)).bind ((reads_getVarInt h.len).bind ?_)
    refine Reads.bind_done (a := (v.offset, v.extraExts)) ?_ rfl
    rw [readExtraExts, extractNumExts_add h.nonneg h.dvd (by omega) hlt]
    dsimp only
    rw [if_neg (by omega), pure_bind]
    exact (reads_extraExts h).bind_pure
  · have hge : (v.extraExts.length : ℤ) ≥ maxInlineExts := by omega
    rw [if_neg hinline, if_pos hge, encodeMaxNumExts]
    have hmax : 0 ≤ maxInlineExts ∧ maxInlineExts < 512 := by decide
    refine (reads_getVarInt (isInt64_add h.nonneg h.dvd h.offset hmax.1
      hmax.2)).bind ((reads_getVarInt h.len).bind ?_)
    refine Reads.bind_done (a := (v.offset, v.extraExts)) ?_ rfl
    rw [readExtraExts, extractNumExts_add h.nonneg h.dvd hmax.1 hmax.2]
    dsimp only
    rw [if_pos rfl, append_assoc]
    refine (reads_getVarInt hcount).bind ?_
    refine (reads_getVarInt (by decide)).bind ?_
    rw [pure_bind]
    exact (reads_extraExts h).bind_pure

include h in
theorem two_mul_length_le :
    2 * v.extraExts.length ≤ (addFragInfo v).length := by
  have htimes := readExtLoop_le (reads_extraExts h).run_eq
  rw [addFragInfo_eq, IndexValue.extBytes]
  simp only [length_append]
  rw [length_nil] at htimes
  omega

include h in
theorem readMetadata_eq :
    readMetadata (addVarInt v.lastModified ++ addString2 v.md5sum) =
      (v.lastModified, v.md5sum) := by
  rw [readMetadata, reads_getVarInt h.lastModified _]
  dsimp only
  rw [(reads_getStr2 h.md5sum).run_eq]

end ReadBack

theorem putFragInfoMd5sum_eq (v : IndexValue) (old : Bytes) :
    putFragInfoMd5sum { v with md5sum := old } v.md5sum = addFragInfo v :=
  rfl

structure ReadsBack (bytes : Bytes) (v : IndexValue) : Prop where
  getFragInfo : ∀ fn, parseFragInfo fn bytes = ⟨v, fn⟩
  removeFn : removeFnValue bytes = some (v.extents, v.md5sum)

theorem readsBack_addFragInfo {v : IndexValue} (h : v.Encodable)
    (hsize : (addFragInfo v).length ≤ maxRData) :
    ReadsBack (addFragInfo v) v := by
  have hcount : IsInt64 v.extraExts.length := by
    have hle := two_mul_length_le h
    unfold maxRData at hsize
    unfold IsInt64
    omega
  have hne : v.offset ≠ -1 := by
    have := h.nonneg
    omega
  have hread : readExts ((addFragInfo v).take maxRData) =
      some ((v.offset, v.len, v.extraExts),
        addVarInt v.lastModified ++ addString2 v.md5sum) := by
    rw [take_of_length_le hsize, addFragInfo_eq]
    exact reads_readExts h hcount _
  constructor
  · intro fn
    simp only [parseFragInfo, hread, if_pos hne, readMetadata_eq h]
  · simp only [removeFnValue, hread, Option.map_some, if_pos hne,
      readMetadata_eq h]
    rfl

/-- Index values read back as they were written, by either writer and for
either reader, if they have at most 100 MiB. -/
theorem index_value_reads_back {v : IndexValue} (h : v.Encodable)
    (hsize : (addFragInfo v).length ≤ maxRData) :
    ReadsBack (addFragInfo v) v ∧
      ∀ old, ReadsBack (putFragInfoMd5sum { v with md5sum := old } v.md5sum)
        v := by
  refine ⟨readsBack_addFragInfo h hsize, fun old => ?_⟩
  rw [putFragInfoMd5sum_eq]
  exact readsBack_addFragInfo h hsize

def twoExtents : IndexValue := ⟨8192, 4096, [⟨16384, 100⟩], 17, ascii "md5"⟩

theorem twoExtents_encodable : twoExtents.Encodable where
  nonneg := by decide
  dvd := by decide
  offset := by decide
  len := by decide
  exts := by decide
  lastModified := by decide
  md5sum := by decide

theorem index_value_reads_back_twoExtents :
    (addFragInfo twoExtents).length ≤ maxRData ∧
      ReadsBack (addFragInfo twoExtents) twoExtents :=
  ⟨by decide +kernel,
    (index_value_reads_back twoExtents_encodable (by decide +kernel)).1⟩

/-! ## Values over the limit -/

theorem readExtraExts_le {offset : ℤ} {data rest : Bytes} {o : ℤ}
    {extraExts : List SPunchItem}
    (h : readExtraExts offset data = some ((o, extraExts), rest)) :
    2 * extraExts.length ≤ data.length := by
  rw [readExtraExts, extractNumExts] at h
  dsimp only at h
  by_cases hmax : offset.tmod 512 = maxInlineExts
  · rw [if_pos hmax] at h
    obtain ⟨numExts, us, hnum, h⟩ := bind_eq_some h
    obtain ⟨skipLists, vs, hskip, h⟩ := bind_eq_some h
    rw [pure_bind] at h
    obtain ⟨exts, ws, hloop, hpure⟩ := bind_eq_some h
    cases hpure
    have hlist := readExtLoop_le hloop
    have hfirst := consumes_getVarInt _ _ _ hnum
    have hsecond := consumes_getVarInt _ _ _ hskip
    omega
  · rw [if_neg hmax, pure_bind] at h
    obtain ⟨exts, ws, hloop, hpure⟩ := bind_eq_some h
    cases hpure
    have hlist := readExtLoop_le hloop
    omega

theorem length_parseFragInfo_le (fn tvalue : Bytes) :
    2 * (parseFragInfo fn tvalue).extraExts.length ≤ maxRData := by
  unfold parseFragInfo
  cases hread : readExts (tvalue.take maxRData) with
  | none => exact Nat.zero_le _
  | some r =>
    obtain ⟨⟨offset, len, extraExts⟩, rdata⟩ := r
    obtain ⟨o, us, hoffset, hread⟩ := bind_eq_some hread
    obtain ⟨l, vs, hlen, hread⟩ := bind_eq_some hread
    obtain ⟨⟨o', exts⟩, ws, hexts, hpure⟩ := bind_eq_some hread
    cases hpure
    have hle := readExtraExts_le hexts
    have hfirst := consumes_getVarInt _ _ _ hoffset
    have hsecond := consumes_getVarInt _ _ _ hlen
    have htake := length_take_le maxRData tvalue
    dsimp only
    omega

/-- An object in blocks that are never next to each other. -/
def scattered (n : ℕ) : IndexValue :=
  ⟨0, 4096, (List.range n).map fun i : ℕ => ⟨8192 * (i + 1), 4096⟩, 0, []⟩

theorem scattered_encodable {n : ℕ} (hn : n < 2 ^ 32) :
    (scattered n).Encodable where
  nonneg := le_rfl
  dvd := dvd_zero _
  offset := (by decide : IsInt64 0)
  len := (by decide : IsInt64 4096)
  exts := by
    intro e he
    obtain ⟨i, hi, rfl⟩ := mem_map.mp he
    have hlt := mem_range.mp hi
    dsimp only
    unfold IsInt64
    omega
  lastModified := (by decide : IsInt64 0)
  md5sum := Nat.zero_le _

/-- The extents of an object of 200 GiB in scattered blocks are not read
back. -/
theorem not_readsBack_scattered :
    (scattered 52428801).Encodable ∧
      ¬ ReadsBack (addFragInfo (scattered 52428801)) (scattered 52428801) := by
  refine ⟨scattered_encodable (by decide), fun h => ?_⟩
  have hle := length_parseFragInfo_le [] (addFragInfo (scattered 52428801))
  rw [h.getFragInfo []] at hle
  simp only [scattered, length_map, length_range, maxRData] at hle
  omega

end Hs5
