import Hs5.Wal.Codec

/-!
# Reading the log files

`WalFile::read` goes over the bytes of a file record by record.  It stops
where no complete record with the right checksum follows, and fails on a
record that is complete but does not belong there.  A size field below four
makes the length of the checksummed range wrap around, so that the source
reads far beyond the end of the file; this is the outcome `fault`.
-/

namespace Hs5

open List Parser

/-! ## Framing -/

/-- One step of the division by the polynomial. -/
def crcBit (crc : UInt32) : UInt32 :=
  if crc &&& 1 = 1 then (crc >>> 1) ^^^ 0x82F63B78 else crc >>> 1

/-- `folly::crc32c` with its default start value. -/
def crc32c (data : Bytes) : UInt32 :=
  data.foldl
    (fun crc b => Nat.repeat crcBit 8 (crc ^^^ UInt32.ofNat b.toNat)) 0xFFFFFFFF

/-- What a log object is created with: the checksum function and the
identifier of the log, `wal_uuid` up to its first zero character. -/
structure WalFormat where
  crc32c : Bytes → UInt32
  uuid : Bytes
  uuid_le : uuid.length ≤ 16

/-- `setChecksumAndSize` of a record whose part after the size is `body`. -/
def setChecksumAndSize (fmt : WalFormat) (body : Bytes) : Bytes :=
  let sized := addUInt (body.length + 8) ++ body
  addUInt (fmt.crc32c sized).toNat ++ sized

def walFileInitString : Bytes :=
  [0x57, 0x41, 0x4c, 0x46, 0x49, 0x4c, 0x45, 0x5f, 0x49, 0x4e, 0x49, 0x54]

def dataTypeFragInfo : UInt8 := 0
def dataTypeDataFileData : UInt8 := 1
def dataTypeInit : UInt8 := 2
def dataTypeSync : UInt8 := 3

section Encode

variable (fmt : WalFormat)

/-- The type character and the bytes after the sequence number. -/
def serializePayload : WalPayload FragInfo CommitInfo → UInt8 × Bytes
  | .init => (dataTypeInit, addString2 walFileInitString ++ addString2 fmt.uuid)
  | .fragInfo transid info =>
    (dataTypeFragInfo, addVarInt transid ++ serializeFragInfo info)
  | .dataFileData d => (dataTypeDataFileData, addVarInt d.off ++ d.data)
  | .sync info => (dataTypeSync, serializeCommitInfo info)

def recordBody (r : WalRecord FragInfo CommitInfo) : Bytes :=
  let payload := serializePayload fmt r.payload
  payload.1 :: (addVarInt r.seqNo ++ payload.2)

def encodeRecord (r : WalRecord FragInfo CommitInfo) : Bytes :=
  setChecksumAndSize fmt (recordBody fmt r)

def encodeLog (log : List (WalRecord FragInfo CommitInfo)) : Bytes :=
  log.flatMap (encodeRecord fmt)

end Encode

/-- What the loop of `read` finds at a position. -/
inductive Scan where
  | stop
  | fault
  | record (body rest : Bytes)
  deriving DecidableEq

/-- The tests of the loop of `read`, on the bytes from the position on. -/
def scanRecord (fmt : WalFormat) (bytes : Bytes) : Scan :=
  if bytes.length ≤ 8 then .stop
  else
    let crc := uintAt bytes
    let dsize := uintAt (bytes.drop 4)
    if bytes.length < dsize then .stop
    else if dsize < 4 then .fault
    else if crc ≠ (fmt.crc32c ((bytes.drop 4).take (dsize - 4))).toNat then .stop
    else if dsize < 8 then .fault
    else
      .record (((bytes.drop 8).take (dsize - 8)).take maxRData)
        (bytes.drop dsize)

theorem scanRecord_nil (fmt : WalFormat) : scanRecord fmt [] = .stop := rfl

theorem scanRecord_frame {fmt : WalFormat} {body rest : Bytes} (hne : body ≠ [])
    (hlimit : body.length + 8 < 2 ^ 32) :
    scanRecord fmt (setChecksumAndSize fmt body ++ rest) =
      .record (body.take maxRData) rest := by
  have hpos : 0 < body.length := length_pos_iff.mpr hne
  set sized := addUInt (body.length + 8) ++ body with hsized
  have hbytes : setChecksumAndSize fmt body ++ rest =
      addUInt (fmt.crc32c sized).toNat ++ (sized ++ rest) := by
    rw [setChecksumAndSize, append_assoc]
  have hlen : sized.length = body.length + 4 := by
    simp only [hsized, length_append, length_addUInt]
    omega
  have hdrop4 : (setChecksumAndSize fmt body ++ rest).drop 4 = sized ++ rest := by
    rw [hbytes]
    rfl
  have hdrop8 : (setChecksumAndSize fmt body ++ rest).drop 8 = body ++ rest := by
    rw [hbytes, hsized, append_assoc]
    rfl
  have hcrc : uintAt (setChecksumAndSize fmt body ++ rest) =
      (fmt.crc32c sized).toNat := by
    rw [hbytes]
    exact uintAt_addUInt (UInt32.toNat_lt _) _
  have hdsize : uintAt (sized ++ rest) = body.length + 8 := by
    rw [hsized, append_assoc]
    exact uintAt_addUInt hlimit _
  have htotal : (setChecksumAndSize fmt body ++ rest).length =
      body.length + 8 + rest.length := by
    rw [hbytes]
    simp only [length_append, length_addUInt, hlen]
    omega
  have hrest : (setChecksumAndSize fmt body ++ rest).drop (body.length + 8) =
      rest := by
    rw [Nat.add_comm, ← drop_drop, hdrop8, drop_left]
  unfold scanRecord
  simp only [hdrop4, hdrop8, hcrc, hdsize, htotal]
  rw [if_neg (by omega), if_neg (by omega), if_neg (by omega),
    show body.length + 8 - 4 = sized.length by omega, take_left,
    if_neg (by simp), if_neg (by omega), Nat.add_sub_cancel, take_left,
    hrest]

/-! ## The contents of a file -/

/-- `WalFile::ReadResult`, with the data that `read` writes to the data
file. -/
structure ReadResult where
  items : List FragInfo
  writes : List DataWrite
  commitInfo : Option CommitInfo
  deriving DecidableEq

structure ReadState where
  hasInit : Bool
  seqNo : ℤ
  ret : ReadResult
  deriving DecidableEq

/-- Before the first record; `seqNo` is the number the object has. -/
def ReadState.initial (seqNo : ℤ) : ReadState := ⟨false, seqNo, ⟨[], [], none⟩⟩

def readHeader (fmt : WalFormat) (st : ReadState) (msgSeqNo : ℤ) :
    Parser UInt8 ReadState :=
  if st.hasInit = true then failure
  else do
    let initStr ← getStr2
    if initStr ≠ walFileInitString then failure
    else do
      let initWalUuid ← getStr2
      if initWalUuid ≠ fmt.uuid then failure
      else pure { st with hasInit := true, seqNo := msgSeqNo }

def readEntry (transid : ℤ) (st : ReadState) (type : UInt8) :
    Parser UInt8 ReadState :=
  if type = dataTypeFragInfo then do
    let ctransid ← getVarInt
    if ctransid ≠ transid then pure st
    else do
      let info ← deserializeFragInfo
      pure { st with ret := { st.ret with items := st.ret.items ++ [info] } }
  else if type = dataTypeDataFileData then do
    let dataOff ← getVarInt
    let data ← remaining
    if dataOff < 0 then failure
    else
      pure { st with
        ret := { st.ret with
          writes := st.ret.writes ++ [⟨none, dataOff.toNat, data⟩] } }
  else if type = dataTypeSync then do
    let info ← deserializeCommitInfo
    pure { st with ret := { st.ret with commitInfo := some info } }
  else failure

/-- One round of the loop of `read` on a complete record.  It fails where the
source throws or aborts. -/
def readBody (fmt : WalFormat) (transid : ℤ) (st : ReadState) :
    Parser UInt8 ReadState := do
  let type ← getChar
  let msgSeqNo ← getVarInt
  if st.hasInit = false ∧ type ≠ dataTypeInit then failure
  else if type = dataTypeInit then readHeader fmt st msgSeqNo
  else if st.seqNo ≠ msgSeqNo then failure
  else readEntry transid st type

def readLoop (fmt : WalFormat) (transid : ℤ) (initOnly : Bool) :
    ℕ → ReadState → Bytes → Option ReadState
  | 0, _, _ => none
  | fuel + 1, st, bytes =>
    match scanRecord fmt bytes with
    | .stop => some st
    | .fault => none
    | .record body rest =>
      match readBody fmt transid st body with
      | none => none
      | some (st, _) =>
        if initOnly then some st
        else readLoop fmt transid initOnly fuel st rest

/-- `WalFile::read` of a file with the given bytes by an object with the
given sequence number. -/
def readFile (fmt : WalFormat) (transid : ℤ) (initOnly : Bool) (seqNo : ℤ)
    (bytes : Bytes) : Option ReadState :=
  readLoop fmt transid initOnly (bytes.length + 1) (.initial seqNo) bytes

/-! ## What the records say -/

def PayloadFits : WalPayload FragInfo CommitInfo → Prop
  | .init => True
  | .fragInfo transid info => IsInt64 transid ∧ info.Fits
  | .dataFileData d => IsInt64 d.off
  | .sync info => info.Fits

instance (p : WalPayload FragInfo CommitInfo) : Decidable (PayloadFits p) := by
  rcases p with ⟨⟩ <;> dsimp only [PayloadFits] <;> infer_instance

/-- A record within the limits of the readers. -/
def RecordFits (fmt : WalFormat) (r : WalRecord FragInfo CommitInfo) : Prop :=
  IsInt64 r.seqNo ∧ (recordBody fmt r).length ≤ maxRData ∧ PayloadFits r.payload
  deriving Decidable

/-- A record that `read` gets over: it is within the limits, or an item of
another transaction, which is not decoded. -/
def RecordReadable (fmt : WalFormat) (transid : ℤ)
    (r : WalRecord FragInfo CommitInfo) : Prop :=
  RecordFits fmt r ∨
    ∃ transid' info, r.payload = .fragInfo transid' info ∧
      transid' ≠ transid ∧ IsInt64 r.seqNo ∧ IsInt64 transid' ∧
      (recordBody fmt r).length + 8 < 2 ^ 32

def itemsOf (transid : ℤ) (log : List (WalRecord FragInfo CommitInfo)) :
    List FragInfo :=
  log.filterMap fun r =>
    match r.payload with
    | .fragInfo transid' info => if transid' = transid then some info else none
    | _ => none

def syncsOf (log : List (WalRecord FragInfo CommitInfo)) : List CommitInfo :=
  log.filterMap fun r =>
    match r.payload with
    | .sync info => some info
    | _ => none

/-- What recovery is to return for a log: the items of the transaction, all
data, and the commit information of the last commit. -/
def resultOf (transid : ℤ) (log : List (WalRecord FragInfo CommitInfo)) :
    ReadResult where
  items := itemsOf transid log
  writes := (dataRecords log).map fun d => { d with call := none }
  commitInfo := (syncsOf log).getLast?

def ReadResult.push (transid : ℤ) (ret : ReadResult)
    (r : WalRecord FragInfo CommitInfo) : ReadResult :=
  match r.payload with
  | .init => ret
  | .fragInfo transid' info =>
    if transid' = transid then { ret with items := ret.items ++ [info] }
    else ret
  | .dataFileData d =>
    { ret with writes := ret.writes ++ [{ d with call := none }] }
  | .sync info => { ret with commitInfo := some info }

theorem resultOf_append (transid : ℤ)
    (log : List (WalRecord FragInfo CommitInfo))
    (r : WalRecord FragInfo CommitInfo) :
    resultOf transid (log ++ [r]) = (resultOf transid log).push transid r := by
  obtain ⟨seqNo, payload⟩ := r
  cases payload with
  | init | dataFileData d | sync info =>
    simp [resultOf, itemsOf, syncsOf, dataRecords, ReadResult.push]
  | fragInfo transid' info =>
    by_cases htrans : transid' = transid
    · simp [resultOf, itemsOf, syncsOf, dataRecords, ReadResult.push, htrans]
    · simp [resultOf, itemsOf, syncsOf, dataRecords, ReadResult.push, htrans]

/-! ## Reading back -/

variable {fmt : WalFormat} {transid : ℤ}

variable {log : List (WalRecord FragInfo CommitInfo)} {seqNo : ℤ} {tail : Bytes}

theorem readBody_start {st : ReadState} {type : UInt8} {rest : Bytes}
    (hseq : IsInt64 seqNo) :
    readBody fmt transid st (type :: (addVarInt seqNo ++ rest)) =
      (if st.hasInit = false ∧ type ≠ dataTypeInit then failure
        else if type = dataTypeInit then readHeader fmt st seqNo
        else if st.seqNo ≠ seqNo then failure
        else readEntry transid st type : Parser UInt8 ReadState) rest := by
  rw [readBody, getChar, run_bind (token_cons type _),
    run_bind (reads_getVarInt hseq rest)]

theorem WalFormat.uuid_le_maxStr2 (fmt : WalFormat) :
    fmt.uuid.length ≤ maxStr2 :=
  fmt.uuid_le.trans (by decide)

theorem readBody_header (fmt : WalFormat) (transid : ℤ) (st : ReadState)
    (hseq : IsInt64 seqNo) (hinit : st.hasInit = false) :
    readBody fmt transid st (recordBody fmt ⟨seqNo, .init⟩) =
      some ({ st with hasInit := true, seqNo := seqNo }, []) := by
  have hmagic : walFileInitString.length ≤ maxStr2 := by decide
  simp only [recordBody, serializePayload]
  rw [readBody_start hseq, if_neg (by simp), if_pos rfl, readHeader,
    if_neg (by simp [hinit]), run_bind (reads_getStr2 hmagic _),
    if_neg (by simp), run_bind (reads_getStr2 fmt.uuid_le_maxStr2).run_eq,
    if_neg (by simp)]
  rfl

theorem readEntry_payload {st : ReadState} {p : WalPayload FragInfo CommitInfo}
    (hfits : PayloadFits p) (hp : p ≠ .init) :
    ∃ rest, readEntry transid st (serializePayload fmt p).1
        (serializePayload fmt p).2 =
      some ({ st with ret := st.ret.push transid ⟨seqNo, p⟩ }, rest) ∧
      ((∀ transid' info, p = .fragInfo transid' info → transid' = transid) →
        rest = []) := by
  cases p with
  | init => exact absurd rfl hp
  | fragInfo transid' info =>
    obtain ⟨htransid, hinfo⟩ := hfits
    simp only [serializePayload]
    rw [readEntry, if_pos rfl, run_bind (reads_getVarInt htransid _)]
    by_cases htrans : transid' = transid
    · refine ⟨[], ?_, fun _ => rfl⟩
      rw [if_neg (by simpa using htrans),
        run_bind (reads_deserializeFragInfo hinfo).run_eq]
      simp only [ReadResult.push, if_pos htrans]
      rfl
    · refine ⟨serializeFragInfo info, ?_, fun h => absurd (h _ _ rfl) htrans⟩
      rw [if_pos htrans]
      simp only [ReadResult.push, if_neg htrans]
      rfl
  | dataFileData d =>
    refine ⟨[], ?_, fun _ => rfl⟩
    simp only [serializePayload]
    rw [readEntry, if_neg (by decide), if_pos rfl, run_bind (reads_getVarInt hfits _),
      run_bind (p := remaining) rfl, if_neg (by omega)]
    rfl
  | sync info =>
    refine ⟨[], ?_, fun _ => rfl⟩
    simp only [serializePayload]
    rw [readEntry, if_neg (by decide), if_neg (by decide), if_pos rfl,
      run_bind (reads_deserializeCommitInfo hfits).run_eq]
    rfl

theorem type_eq_init {p : WalPayload FragInfo CommitInfo} :
    (serializePayload fmt p).1 = dataTypeInit ↔ p = .init := by
  cases p <;> simp [serializePayload, dataTypeInit, dataTypeFragInfo,
    dataTypeDataFileData, dataTypeSync]

theorem readBody_record (transid : ℤ) (st : ReadState)
    {r : WalRecord FragInfo CommitInfo}
    (hfits : RecordFits fmt r) (hinit : st.hasInit = true)
    (hseqNo : r.seqNo = st.seqNo) (hp : r.payload ≠ .init) :
    ∃ rest, readBody fmt transid st (recordBody fmt r) =
      some ({ st with ret := st.ret.push transid r }, rest) ∧
      ((∀ transid' info, r.payload = .fragInfo transid' info →
        transid' = transid) → rest = []) := by
  obtain ⟨hseq, -, hpayload⟩ := hfits
  rw [recordBody, readBody_start hseq, if_neg (by simp [hinit]),
    if_neg (by rwa [type_eq_init]), if_neg (by simp [hseqNo])]
  exact readEntry_payload hpayload hp

theorem recordBody_ne_nil (r : WalRecord FragInfo CommitInfo) :
    recordBody fmt r ≠ [] := by
  simp [recordBody]

theorem scanRecord_readable {r : WalRecord FragInfo CommitInfo}
    (h : RecordReadable fmt transid r) (rest : Bytes) :
    scanRecord fmt (encodeRecord fmt r ++ rest) =
      .record ((recordBody fmt r).take maxRData) rest := by
  refine scanRecord_frame (recordBody_ne_nil r) ?_
  rcases h with ⟨-, hsize, -⟩ | ⟨transid', info, -, -, -, -, hlimit⟩
  · simp only [maxRData] at hsize
    omega
  · exact hlimit

theorem scanRecord_encodeRecord {r : WalRecord FragInfo CommitInfo}
    (h : RecordFits fmt r) (rest : Bytes) :
    scanRecord fmt (encodeRecord fmt r ++ rest) =
      .record (recordBody fmt r) rest := by
  have hreadable : RecordReadable fmt 0 r := .inl h
  rw [scanRecord_readable hreadable, take_of_length_le h.2.1]

theorem readBody_other (st : ReadState) {r : WalRecord FragInfo CommitInfo}
    {transid' : ℤ} {info : FragInfo} (hp : r.payload = .fragInfo transid' info)
    (hother : transid' ≠ transid) (hseq : IsInt64 r.seqNo)
    (htransid : IsInt64 transid') (hinit : st.hasInit = true)
    (hseqNo : r.seqNo = st.seqNo) :
    ∃ rest, readBody fmt transid st ((recordBody fmt r).take maxRData) =
      some ({ st with ret := st.ret.push transid r }, rest) := by
  have hlen := length_addVarInt_le r.seqNo
  have hlen' := length_addVarInt_le transid'
  obtain ⟨left, hbody⟩ : ∃ left, (recordBody fmt r).take maxRData =
      dataTypeFragInfo :: (addVarInt r.seqNo ++ (addVarInt transid' ++ left)) := by
    have hsplit : recordBody fmt r = (dataTypeFragInfo ::
        (addVarInt r.seqNo ++ addVarInt transid')) ++ serializeFragInfo info := by
      simp [recordBody, hp, serializePayload]
    have hmax : 21 ≤ maxRData := by decide
    rw [hsplit, take_append, take_of_length_le (by
      rw [length_cons, length_append]
      omega)]
    exact ⟨_, by rw [cons_append, append_assoc]⟩
  rw [hbody, readBody_start hseq, if_neg (by simp [hinit]),
    if_neg (by decide), if_neg (by simp [hseqNo]), readEntry, if_pos rfl,
    run_bind (reads_getVarInt htransid _), if_pos hother]
  simp only [ReadResult.push, hp, if_neg hother]
  exact ⟨_, rfl⟩

theorem readBody_readable (st : ReadState) {r : WalRecord FragInfo CommitInfo}
    (h : RecordReadable fmt transid r) (hinit : st.hasInit = true)
    (hseqNo : r.seqNo = st.seqNo) (hp : r.payload ≠ .init) :
    ∃ rest, readBody fmt transid st ((recordBody fmt r).take maxRData) =
      some ({ st with ret := st.ret.push transid r }, rest) := by
  rcases h with hfits | ⟨transid', info, hfrag, hother, hseq, htransid, -⟩
  · obtain ⟨rest, hbody, -⟩ := readBody_record transid st hfits hinit hseqNo hp
    rw [take_of_length_le hfits.2.1]
    exact ⟨rest, hbody⟩
  · exact readBody_other st hfrag hother hseq htransid hinit hseqNo

/-- The records after the header of a file with the given number. -/
def Entries (fmt : WalFormat) (transid seqNo : ℤ)
    (log : List (WalRecord FragInfo CommitInfo)) : Prop :=
  ∀ r ∈ log, RecordReadable fmt transid r ∧ r.seqNo = seqNo ∧
    r.payload ≠ .init

/-- Behind the header the loop collects what the records say.  The induction
is on the records that are left; `done` are those read before. -/
theorem readLoop_entries (tail : Bytes)
    (done : List (WalRecord FragInfo CommitInfo))
    (fuel : ℕ) (hlog : Entries fmt transid seqNo log) :
    readLoop fmt transid false (log.length + fuel)
        ⟨true, seqNo, resultOf transid done⟩ (encodeLog fmt log ++ tail) =
      readLoop fmt transid false fuel
        ⟨true, seqNo, resultOf transid (done ++ log)⟩ tail := by
  induction log generalizing done with
  | nil => simp [encodeLog]
  | cons r log ih =>
    obtain ⟨hread, hseqNo, hp⟩ := hlog r (mem_cons_self ..)
    obtain ⟨rest, hbody⟩ := readBody_readable
      ⟨true, seqNo, resultOf transid done⟩ hread rfl hseqNo hp
    have hrest := ih (done ++ [r])
      (fun r' hr' => hlog r' (mem_cons_of_mem _ hr'))
    have hfuel : (r :: log).length + fuel = log.length + fuel + 1 := by
      rw [length_cons]
      omega
    rw [hfuel, encodeLog, flatMap_cons, append_assoc, readLoop,
      scanRecord_readable hread]
    simp only [hbody]
    rw [resultOf_append, append_assoc] at hrest
    exact hrest

theorem recordFits_header (h : IsInt64 seqNo) :
    RecordFits fmt ⟨seqNo, .init⟩ := by
  refine ⟨h, ?_, trivial⟩
  have hseq := length_addVarInt_le seqNo
  have hlen := length_addVarInt_le fmt.uuid.length
  have huuid := fmt.uuid_le
  have hmagic : walFileInitString.length = 12 := rfl
  have hmagicLen := length_addVarInt_le walFileInitString.length
  simp only [recordBody, serializePayload, length_cons,
    length_append, addString2, maxRData]
  omega

theorem length_le_encodeLog (fmt : WalFormat)
    (log : List (WalRecord FragInfo CommitInfo)) :
    log.length ≤ (encodeLog fmt log).length := by
  induction log with
  | nil => simp
  | cons r log ih =>
    have hpos : 0 < (encodeRecord fmt r).length := by
      simp [encodeRecord, setChecksumAndSize]
    simp only [encodeLog, flatMap_cons, length_append,
      length_cons] at *
    omega

/-- A log with a header first that `read` gets through. -/
structure LogReadable (fmt : WalFormat) (transid : ℤ)
    (log : List (WalRecord FragInfo CommitInfo)) : Prop where
  readable : WalFile.readable log = true
  records : ∀ r ∈ log, RecordReadable fmt transid r

/-- A log of records within the limits. -/
structure LogFits (fmt : WalFormat)
    (log : List (WalRecord FragInfo CommitInfo)) : Prop where
  readable : WalFile.readable log = true
  fits : ∀ r ∈ log, RecordFits fmt r

theorem LogReadable.cases (h : LogReadable fmt transid log) :
    log = [] ∨ ∃ seqNo entries, log = ⟨seqNo, .init⟩ :: entries ∧
      IsInt64 seqNo ∧ Entries fmt transid seqNo entries := by
  obtain ⟨hread, hrecords⟩ := h
  cases log with
  | nil => exact .inl rfl
  | cons r entries =>
    obtain ⟨seqNo, payload⟩ := r
    cases payload with
    | init =>
      have hseq : IsInt64 seqNo := by
        rcases hrecords _ (mem_cons_self ..) with hfits | ⟨_, _, hp, -⟩
        · exact hfits.1
        · cases hp
      refine .inr ⟨seqNo, entries, rfl, hseq, ?_⟩
      intro r hr
      have hr' := all_eq_true.mp hread r hr
      rw [Bool.and_eq_true, decide_eq_true_eq] at hr'
      refine ⟨hrecords r (mem_cons_of_mem _ hr), hr'.1, ?_⟩
      intro hinit
      rw [hinit] at hr'
      cases hr'.2
    | fragInfo | dataFileData | sync => cases hread

theorem LogFits.logReadable (h : LogFits fmt log) (transid : ℤ) :
    LogReadable fmt transid log :=
  ⟨h.readable, fun r hr => .inl (h.fits r hr)⟩

theorem readFile_header (transid seqNo : ℤ) (h : LogFits fmt log)
    (htail : scanRecord fmt tail = .stop) :
    ∃ st, readFile fmt transid true seqNo (encodeLog fmt log ++ tail) =
        some st ∧
      st.seqNo = (WalFile.headerSeqNo log).getD seqNo := by
  rcases (h.logReadable transid).cases with
    rfl | ⟨seqNo', entries, rfl, hseq, -⟩
  · exact ⟨.initial seqNo, by simp [readFile, readLoop, encodeLog, htail], rfl⟩
  · refine ⟨{ ReadState.initial seqNo with hasInit := true, seqNo := seqNo' },
      ?_, rfl⟩
    have hbody := readBody_header fmt transid (.initial seqNo) hseq rfl
    rw [readFile, encodeLog, flatMap_cons, append_assoc, readLoop,
      scanRecord_encodeRecord (recordFits_header hseq)]
    simp only [hbody, if_true]

/-- Reading gets through the log to the bytes behind it. -/
theorem readFile_tail (seqNo : ℤ) (tail : Bytes)
    (h : LogReadable fmt transid log) :
    ∃ fuel, readFile fmt transid false seqNo (encodeLog fmt log ++ tail) =
      readLoop fmt transid false (fuel + 1)
        ⟨!log.isEmpty, (WalFile.headerSeqNo log).getD seqNo,
          resultOf transid log⟩ tail := by
  rcases h.cases with rfl | ⟨seqNo', entries, rfl, hseq, hentries⟩
  · exact ⟨tail.length, rfl⟩
  · obtain ⟨fuel, hfuel⟩ : ∃ fuel,
        (encodeLog fmt (⟨seqNo', .init⟩ :: entries) ++ tail).length =
          entries.length + (fuel + 1) := by
      have hlen := length_le_encodeLog fmt (⟨seqNo', .init⟩ :: entries)
      rw [length_cons] at hlen
      refine ⟨(encodeLog fmt (⟨seqNo', .init⟩ :: entries) ++ tail).length -
        entries.length - 1, ?_⟩
      rw [length_append]
      omega
    refine ⟨fuel, ?_⟩
    have hloop := readLoop_entries tail [⟨seqNo', .init⟩] (fuel + 1) hentries
    have hbody := readBody_header fmt transid (.initial seqNo) hseq rfl
    rw [readFile, hfuel, encodeLog, flatMap_cons, append_assoc,
      readLoop, scanRecord_encodeRecord (recordFits_header hseq)]
    simp only [hbody]
    exact hloop

theorem readFile_log (h : LogFits fmt log)
    (htail : scanRecord fmt tail = .stop) :
    readFile fmt transid false seqNo (encodeLog fmt log ++ tail) =
      some ⟨!log.isEmpty, (WalFile.headerSeqNo log).getD seqNo,
        resultOf transid log⟩ := by
  obtain ⟨fuel, heq⟩ := readFile_tail seqNo tail (h.logReadable transid)
  rw [heq, readLoop, htail]

def crc32cFormat : WalFormat := ⟨crc32c, [7, 7], by decide⟩

/-! ## Records built before a switch -/

/-- `WalFile::writeData` of a record whose part after the size is `body`: the
bytes for the file in use. -/
def writeData (fmt : WalFormat) (seqNo : ℤ) : Bytes → Option Bytes
  | [] => none
  | type :: checkData =>
    match getVarInt (checkData.take maxRData) with
    | none => none
    | some (msgSeqNo, left) =>
      if msgSeqNo ≠ seqNo then
        some (setChecksumAndSize fmt (type :: (addVarInt seqNo ++ left)))
      else some (setChecksumAndSize fmt (type :: checkData))

theorem writeData_eq {msgSeqNo : ℤ} {p : WalPayload FragInfo CommitInfo}
    (h : RecordFits fmt ⟨msgSeqNo, p⟩) :
    writeData fmt seqNo (recordBody fmt ⟨msgSeqNo, p⟩) =
      some (encodeRecord fmt ⟨seqNo, p⟩) := by
  obtain ⟨hmsg, hsize, -⟩ := h
  have hlen := (Nat.le_succ _).trans hsize
  have hread := reads_getVarInt hmsg (serializePayload fmt p).2
  rw [recordBody, writeData, take_of_length_le hlen, hread]
  dsimp only
  split
  · rfl
  · rename_i heq
    rw [not_not.mp heq]
    rfl

/-- A record that `writeData` appends is found by `read` with exactly its own
bytes, and gives back the item, the data or the commit information it was
built from. -/
theorem writeData_roundTrip {fmt : WalFormat} {transid msgSeqNo : ℤ}
    {p : WalPayload FragInfo CommitInfo} (st : ReadState) (rest : Bytes)
    (hbuilt : RecordFits fmt ⟨msgSeqNo, p⟩)
    (hfits : RecordFits fmt ⟨st.seqNo, p⟩) (hinit : st.hasInit = true)
    (hp : p ≠ .init)
    (hown : ∀ transid' info, p = .fragInfo transid' info → transid' = transid) :
    ∃ bytes body,
      writeData fmt st.seqNo (recordBody fmt ⟨msgSeqNo, p⟩) = some bytes ∧
      scanRecord fmt (bytes ++ rest) = .record body rest ∧
      readBody fmt transid st body =
        some ({ st with ret := st.ret.push transid ⟨st.seqNo, p⟩ }, []) := by
  obtain ⟨left, hread, hleft⟩ := readBody_record transid st hfits hinit rfl hp
  rw [hleft hown] at hread
  exact ⟨_, _, writeData_eq hbuilt, scanRecord_encodeRecord hfits rest, hread⟩

/-- An object with extents and a condition, and a linked deletion. -/
def linkedItem (linkedMatch : Option MatchInfo) : FragInfo :=
  ⟨⟨.add, [0x61], 4096, 5, 7, [1, 2], [⟨8192, 3⟩],
      some ⟨some [0x62], [[0x2a]], [], some 3, none, 9, true, false, true⟩⟩,
    [⟨.del, [0x63], -1, 0, 0, [], [], linkedMatch⟩]⟩

/-- The number of the second file takes one byte more. -/
theorem writeData_roundTrip_switched :
    (addVarInt 127).length < (addVarInt 128).length ∧
      ∃ bytes body,
        writeData crc32cFormat 128 (recordBody crc32cFormat
          ⟨127, .fragInfo 4 (linkedItem none)⟩) = some bytes ∧
        scanRecord crc32cFormat (bytes ++ [1]) = .record body [1] ∧
        readBody crc32cFormat 4 ⟨true, 128, ⟨[], [], none⟩⟩ body =
          some (⟨true, 128, ⟨[linkedItem none], [], none⟩⟩, []) := by
  refine ⟨by decide, ?_⟩
  refine writeData_roundTrip ⟨true, 128, ⟨[], [], none⟩⟩ [1] ?_ ?_ rfl ?_ ?_
  · decide +kernel
  · decide +kernel
  · simp
  · rintro transid' info ⟨⟩
    rfl

/-- Match information on a linked item is written, and reading it aborts. -/
theorem not_roundTrip_linked_match :
    (writeData crc32cFormat 2 (recordBody crc32cFormat ⟨2, .fragInfo 4
      (linkedItem (some ⟨none, [], [], none, none, 0, true, false, false⟩))⟩)).map
        (fun bytes => readFile crc32cFormat 4 false 1
          (encodeRecord crc32cFormat ⟨2, .init⟩ ++ bytes)) = some none := by
  decide +kernel

/-! ## Arbitrary tails -/

/-- A record with a valid checksum starts here. -/
def ChecksumValid (fmt : WalFormat) (bytes : Bytes) : Prop :=
  8 < bytes.length ∧ 4 ≤ uintAt (bytes.drop 4) ∧
    uintAt (bytes.drop 4) ≤ bytes.length ∧
    uintAt bytes =
      (fmt.crc32c ((bytes.drop 4).take (uintAt (bytes.drop 4) - 4))).toNat
  deriving Decidable

/-- A size field that the loop reads covers at least the field itself. -/
def SizeFieldOk (bytes : Bytes) : Prop :=
  bytes.length ≤ 8 ∨ 4 ≤ uintAt (bytes.drop 4)
  deriving Decidable

theorem scanRecord_of_not_valid {fmt : WalFormat}
    (hvalid : ¬ ChecksumValid fmt tail) (hsize : SizeFieldOk tail) :
    scanRecord fmt tail = .stop := by
  unfold scanRecord
  by_cases hlen : tail.length ≤ 8
  · rw [if_pos hlen]
  · have hfour : 4 ≤ uintAt (tail.drop 4) := hsize.resolve_left hlen
    rw [if_neg hlen]
    dsimp only
    by_cases hlong : tail.length < uintAt (tail.drop 4)
    · rw [if_pos hlong]
    · rw [if_neg hlong, if_neg (by omega), if_pos]
      intro hcrc
      exact hvalid ⟨by omega, hfour, by omega, hcrc⟩

theorem scanRecord_of_small_size (fmt : WalFormat)
    (hsize : ¬ SizeFieldOk tail) : scanRecord fmt tail = .fault := by
  obtain ⟨hlen, hfour⟩ := not_or.mp hsize
  unfold scanRecord
  dsimp only
  rw [if_neg hlen, if_neg (by omega), if_pos (by omega)]

/-- Reading a log with any bytes behind it that do not start with a valid
record returns what the records say if and only if the size field of the tail
is not below four. -/
theorem readFile_of_tail {fmt : WalFormat} {transid seqNo : ℤ}
    {log : List (WalRecord FragInfo CommitInfo)} {tail : Bytes}
    (hlog : LogReadable fmt transid log)
    (hvalid : ¬ ChecksumValid fmt tail) :
    readFile fmt transid false seqNo (encodeLog fmt log ++ tail) =
        some ⟨!log.isEmpty, (WalFile.headerSeqNo log).getD seqNo,
          resultOf transid log⟩ ↔
      SizeFieldOk tail := by
  obtain ⟨fuel, heq⟩ := readFile_tail seqNo tail hlog
  rw [heq, readLoop]
  by_cases hsize : SizeFieldOk tail
  · rw [scanRecord_of_not_valid hvalid hsize]
    exact iff_of_true rfl hsize
  · rw [scanRecord_of_small_size fmt hsize]
    exact iff_of_false (by simp) hsize

/-- A header, an item of transaction 4 and a commit. -/
def smallLog : List (WalRecord FragInfo CommitInfo) :=
  [⟨2, .init⟩,
    ⟨2, .fragInfo 4 ⟨⟨.del, [0x61], -1, 0, 0, [], [], none⟩, []⟩⟩,
    ⟨2, .sync ⟨8192, 4096, 8192, 0, 5, 1, 1, []⟩⟩]

/-- The log with an item of transaction 3 that could not be decoded. -/
def skippingLog : List (WalRecord FragInfo CommitInfo) :=
  smallLog ++ [⟨2, .fragInfo 3 (linkedItem
    (some ⟨none, [], [], none, none, 0, true, false, false⟩))⟩]

theorem readFile_of_tail_torn_size :
    ¬ ChecksumValid crc32cFormat [1, 2, 3, 4, 255, 0, 0, 0, 9, 9] ∧
      readFile crc32cFormat 4 false 1
          (encodeLog crc32cFormat skippingLog ++
            [1, 2, 3, 4, 255, 0, 0, 0, 9, 9]) =
        some ⟨true, 2, resultOf 4 smallLog⟩ := by
  have hsame : resultOf 4 skippingLog = resultOf 4 smallLog := by decide
  have hlog : LogReadable crc32cFormat 4 skippingLog := by
    refine ⟨by decide, fun r hr => ?_⟩
    rcases mem_append.mp hr with hr | hr
    · exact .inl ((by decide : ∀ r ∈ smallLog, RecordFits crc32cFormat r) r hr)
    · obtain rfl := mem_singleton.mp hr
      exact .inr ⟨3, _, rfl, by decide, by decide, by decide,
        by decide +kernel⟩
  refine ⟨by decide, ?_⟩
  rw [← hsame]
  exact (readFile_of_tail hlog (by decide)).mpr (by decide)

/-- Zeros behind a log: the size field is zero, and the range to be
checksummed wraps around. -/
theorem readFile_fault_of_zeros :
    ¬ ChecksumValid crc32cFormat (List.replicate 16 0) ∧
      scanRecord crc32cFormat (List.replicate 16 0) = .fault ∧
      readFile crc32cFormat 4 false 1
        (encodeLog crc32cFormat smallLog ++ List.replicate 16 0) = none := by
  refine ⟨by decide, by decide, ?_⟩
  decide +kernel

/-! ## Opening the files -/

/-- The constructor looks at the header of a file that is not empty; the file
counts with the number the object has then. -/
def openSeqNo (fmt : WalFormat) (seqNo : ℤ) (bytes : Bytes) : Option (ℤ × ℤ) :=
  if bytes = [] then some (seqNo, 0)
  else (readFile fmt 0 true seqNo bytes).map fun st => (st.seqNo, st.seqNo)

/-- `WalFile::WalFile`: the file in use and the number of the object, before
the reset of an empty file. -/
def openFiles (fmt : WalFormat) (content : Bool → Bytes) :
    Option (Bool × ℤ) := do
  let (seqNo, primaryFileSeqNo) ← openSeqNo fmt 1 (content false)
  let (seqNo, altFileSeqNo) ← openSeqNo fmt seqNo (content true)
  if primaryFileSeqNo ≠ 0 ∧ primaryFileSeqNo = altFileSeqNo then none
  else
    some (decide (content true ≠ [] ∧ altFileSeqNo > primaryFileSeqNo), seqNo)

/-- The bytes of a file are a log and a tail at which the scan stops. -/
def Holds (fmt : WalFormat) (bytes : Bytes)
    (log : List (WalRecord FragInfo CommitInfo)) : Prop :=
  LogFits fmt log ∧
    ∃ tail, scanRecord fmt tail = .stop ∧ bytes = encodeLog fmt log ++ tail

theorem LogFits.headerSeqNo_eq_none (h : LogFits fmt log) :
    WalFile.headerSeqNo log = none ↔ log = [] := by
  rcases (h.logReadable 0).cases with rfl | ⟨seqNo, entries, rfl, -, -⟩
  · simp [WalFile.headerSeqNo]
  · simp [WalFile.headerSeqNo]

theorem Holds.log_eq_nil (h : Holds fmt [] log) : log = [] := by
  obtain ⟨-, tail, -, hbytes⟩ := h
  have hlen := length_le_encodeLog fmt log
  have hnil := (append_eq_nil_iff.mp hbytes.symm).1
  rw [hnil] at hlen
  exact length_eq_zero_iff.mp (by simpa using hlen)

theorem Holds.openSeqNo_eq {bytes : Bytes} (h : Holds fmt bytes log) :
    openSeqNo fmt seqNo bytes =
      some ((WalFile.headerSeqNo log).getD seqNo,
        if bytes = [] then 0 else (WalFile.headerSeqNo log).getD seqNo) := by
  by_cases hempty : bytes = []
  · subst hempty
    simp [openSeqNo, h.log_eq_nil, WalFile.headerSeqNo]
  · obtain ⟨hfits, tail, htail, rfl⟩ := h
    obtain ⟨st, hst, hseq⟩ := readFile_header 0 seqNo hfits htail
    simp [openSeqNo, hempty, hst, hseq]

/-- The constructor goes on with the file whose header has the greater
number, and with an empty file only if both are empty. -/
def OpensNewer (fmt : WalFormat) (content : Bool → Bytes)
    (log : Bool → List (WalRecord FragInfo CommitInfo)) : Prop :=
  ∃ useAltFile seqNo,
    openFiles fmt content = some (useAltFile, seqNo) ∧ 1 ≤ seqNo ∧
    ((∀ alt, WalFile.headerSeqNo (log alt) = none) → seqNo = 1) ∧
    (content useAltFile = [] → content (!useAltFile) = []) ∧
    ∀ older, WalFile.headerSeqNo (log !useAltFile) = some older →
      ∃ newer, WalFile.headerSeqNo (log useAltFile) = some newer ∧
        older < newer

section

variable {content : Bool → Bytes}
    {log : Bool → List (WalRecord FragInfo CommitInfo)} {p a : ℤ}
    (h : ∀ alt, Holds fmt (content alt) (log alt))

include h

theorem openFiles_headers : openFiles fmt content =
    let p := WalFile.headerSeqNo (log false)
    let a := WalFile.headerSeqNo (log true)
    let primary := if content false = [] then 0 else p.getD 1
    let alt := if content true = [] then 0 else a.getD (p.getD 1)
    if primary ≠ 0 ∧ primary = alt then none
    else some (decide (content true ≠ [] ∧ alt > primary),
      a.getD (p.getD 1)) := by
  simp only [openFiles, (h false).openSeqNo_eq, (h true).openSeqNo_eq]
  rfl

theorem content_ne_nil {alt : Bool}
    (hp : WalFile.headerSeqNo (log alt) = some p) : content alt ≠ [] := by
  intro hempty
  have hnil := (hempty ▸ h alt : Holds fmt [] (log alt)).log_eq_nil
  rw [hnil] at hp
  cases hp

theorem opensNewer_fresh (hp : WalFile.headerSeqNo (log false) = none)
    (ha : WalFile.headerSeqNo (log true) = none)
    (htorn : content true ≠ [] → content false = []) :
    OpensNewer fmt content log := by
  unfold OpensNewer
  rw [openFiles_headers h]
  by_cases hc : content true = []
  · exact ⟨false, 1, by simp [hp, ha, hc], le_rfl, fun _ => rfl, fun _ => hc,
      by simp [ha]⟩
  · exact ⟨true, 1, by simp [hp, ha, hc, htorn hc], le_rfl, fun _ => rfl,
      fun hno => absurd hno hc, by simp [hp]⟩

theorem opensNewer_alternate (hp : WalFile.headerSeqNo (log false) = none)
    (ha : WalFile.headerSeqNo (log true) = some a) (hpos : 2 ≤ a) :
    OpensNewer fmt content log := by
  have hc := content_ne_nil h ha
  unfold OpensNewer
  rw [openFiles_headers h]
  refine ⟨true, a, ?_, by omega, ?_, fun hno => absurd hno hc, by simp [hp]⟩
  · by_cases hc0 : content false = []
    · simp [hp, ha, hc, hc0]
      omega
    · simp [hp, ha, hc, hc0]
      omega
  · intro hnone
    rw [hnone true] at ha
    cases ha

theorem opensNewer_primary (hp : WalFile.headerSeqNo (log false) = some p)
    (ha : WalFile.headerSeqNo (log true) = none) (hpos : 2 ≤ p)
    (hc : content true = []) : OpensNewer fmt content log := by
  have hc0 := content_ne_nil h hp
  unfold OpensNewer
  rw [openFiles_headers h]
  refine ⟨false, p, by simp [hp, ha, hc], by omega, ?_,
    fun hno => absurd hno hc0, by simp [ha]⟩
  intro hnone
  rw [hnone false] at hp
  cases hp

theorem opensNewer_both (hp : WalFile.headerSeqNo (log false) = some p)
    (ha : WalFile.headerSeqNo (log true) = some a) (hpos : 2 ≤ a)
    (hpa : p ≠ a) : OpensNewer fmt content log := by
  have hc0 := content_ne_nil h hp
  have hc := content_ne_nil h ha
  have hone : (∀ alt, WalFile.headerSeqNo (log alt) = none) → a = 1 := by
    intro hnone
    rw [hnone false] at hp
    cases hp
  unfold OpensNewer
  rw [openFiles_headers h]
  rcases lt_or_gt_of_ne hpa with hlt | hlt
  · refine ⟨true, a, ?_, by omega, hone, fun hno => absurd hno hc, ?_⟩
    · simp [hp, ha, hc, hc0, hpa, hlt]
    · simp [hp, ha, hlt]
  · refine ⟨false, a, ?_, by omega, hone, fun hno => absurd hno hc0, ?_⟩
    · simp [hp, ha, hc, hc0, hpa]
      omega
    · simp [hp, ha, hlt]

/-- The headers have to differ, and a torn header in the alternate file must
not stand next to a primary file. -/
theorem openFiles_eq
    (hpos : ∀ alt seqNo, WalFile.headerSeqNo (log alt) = some seqNo → 2 ≤ seqNo)
    (hne : ∀ seqNo, WalFile.headerSeqNo (log false) = some seqNo →
      WalFile.headerSeqNo (log true) ≠ some seqNo)
    (htorn : content true ≠ [] → log true = [] → content false = []) :
    OpensNewer fmt content log := by
  have htorn' : WalFile.headerSeqNo (log true) = none →
      content true ≠ [] → content false = [] :=
    fun hn hc => htorn hc ((h true).1.headerSeqNo_eq_none.mp hn)
  cases hp : WalFile.headerSeqNo (log false) with
  | none =>
    cases ha : WalFile.headerSeqNo (log true) with
    | none => exact opensNewer_fresh h hp ha (htorn' ha)
    | some a => exact opensNewer_alternate h hp ha (hpos true a ha)
  | some p =>
    cases ha : WalFile.headerSeqNo (log true) with
    | none =>
      refine opensNewer_primary h hp ha (hpos false p hp) ?_
      by_contra hc
      exact content_ne_nil h hp (htorn' ha hc)
    | some a =>
      refine opensNewer_both h hp ha (hpos true a ha) ?_
      rintro rfl
      exact hne p hp ha

end

end Hs5
