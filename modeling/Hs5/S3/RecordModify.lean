import Hs5.S3.RecordCodec

/-!
# Changing the lock fields of a record

`onModifyMetadataCallback` changes the legal hold or the retention of an object
in the bytes of its record.  The legal hold is a flag of the record.  Lock
information is written into the middle of the record: the metadata is located,
changed and serialized again, and what comes before and behind it is kept.
-/

namespace Hs5

open List Parser

namespace Record

def onModifyMetadataCallback (md5sum : Bytes) (param : S3.ModifyParam) :
    Except ModifyError Bytes :=
  let data := md5sum.take maxRData
  match getVarInt data with
  | none => .error .invalid
  | some (itype, rdata) =>
    let itype := BitVec.ofInt 64 itype
    let baseType := itype &&& ~~~metadataKnownFlags
    if baseType ≠ metadataObject ∧ baseType ≠ metadataMultipartObject then
      .error .invalid
    else
      match param with
      | .legalHold legalHold =>
        let itype :=
          if legalHold then itype ||| metadataFlagWithLegalHold
          else itype &&& ~~~metadataFlagWithLegalHold
        .ok (addVarInt itype.toInt ++ rdata)
      | .retention param =>
        match locateObjMetadata md5sum with
        | none => .error .io
        | some (itype, objMetadata, objMetadataStart, objMetadataEnd) => do
            let lockInfo ← applyRetention objMetadata.lockInfo param
            let objMetadata := { objMetadata with lockInfo }
            let prefixStart := data.length - rdata.length
            let itype := itype &&& ~~~metadataFlagHasObjMetadata |||
              objMetadata.flags
            return addVarInt itype.toInt ++
              ((md5sum.take objMetadataStart).drop prefixStart ++
                (objMetadata.serialize ++ md5sum.drop objMetadataEnd))

end Record

/-- The metadata with the addressed field as the request asks for. -/
def ObjMetadata.modify (m : ObjMetadata) : S3.ModifyParam → ObjMetadata
  | .legalHold legalHold => { m with legalHold }
  | .retention param => { m with lockInfo := param.lockInfo }

/-- Lock information that is stored as a request asks for: an event hold that
is on stays on, and durations come with a hold. -/
def ObjMetadata.Allows (m : ObjMetadata) : S3.ModifyParam → Prop
  | .legalHold _ => True
  | .retention param => ∀ new ∈ param.lockInfo, new.Storable ∧
      (new.eventHold = true ∨ new.eventDurationDays = 0 ∧
        new.eventDurationYears = 0) ∧
      ∀ l ∈ m.lockInfo, l.eventHold = true → new.eventHold = true

theorem applyRetention_ok {lockInfo lockInfo' : Option LockInfo}
    {param : RetentionParam} (h : applyRetention lockInfo param = .ok lockInfo') :
    lockInfo' = param.lockInfo.map (·.releaseHold lockInfo param.nowSec) := by
  unfold applyRetention at h
  simp only at h
  split at h
  · cases h
  · split at h
    · exact (Except.ok.inj h).symm
    · split at h
      · split at h
        · cases h
        · rename_i new hnew
          split at h
          · rw [hnew]
            exact (Except.ok.inj h).symm
          · cases h
      · exact (Except.ok.inj h).symm

theorem applyRetention_allows {m : ObjMetadata} {param : RetentionParam}
    (hallows : m.Allows (.retention param)) {lockInfo : Option LockInfo}
    (h : applyRetention m.stored.lockInfo param = .ok lockInfo) :
    lockInfo = param.lockInfo := by
  rw [applyRetention_ok h]
  refine (Option.map_congr fun new hnew => ?_).trans Option.map_id'
  obtain ⟨-, -, hkeeps⟩ := hallows new hnew
  cases hlock : m.lockInfo with
  | none => simp [LockInfo.releaseHold, ObjMetadata.stored, hlock]
  | some l =>
    have hhold : (l.stored.eventHold && !new.eventHold) = false := by
      cases hl : l.eventHold with
      | false => rw [show l.stored.eventHold = false from hl, Bool.false_and]
      | true => rw [hkeeps l hlock hl, Bool.not_true, Bool.and_false]
    simp [LockInfo.releaseHold, ObjMetadata.stored, hlock, hhold]

theorem ObjMetadata.Storable.modify {m : ObjMetadata} (h : m.Storable)
    {param : S3.ModifyParam} (hallows : m.Allows param) :
    (m.modify param).Storable := by
  cases param with
  | legalHold legalHold =>
    exact ⟨h.contentType, h.userMetadata, h.texts, h.lockInfo⟩
  | retention param =>
    exact ⟨h.contentType, h.userMetadata, h.texts, fun l hl => (hallows l hl).1⟩

theorem ObjMetadata.stored_modify {m : ObjMetadata} {param : S3.ModifyParam}
    (hallows : m.Allows param) :
    (m.modify param).stored = m.stored.modify param := by
  cases param with
  | legalHold legalHold => rfl
  | retention param =>
    have hlock : param.lockInfo.map LockInfo.stored = param.lockInfo := by
      refine (Option.map_congr fun new hnew => ?_).trans Option.map_id'
      obtain ⟨hstorable, hdurations, -⟩ := hallows new hnew
      exact hstorable.stored_eq_self.mpr hdurations
    simp only [ObjMetadata.modify, ObjMetadata.stored, hlock]

namespace ObjectRecord

variable {r : ObjectRecord} {param : S3.ModifyParam}

/-- The record with the addressed field as the request asks for. -/
def modify (r : ObjectRecord) (param : S3.ModifyParam) : ObjectRecord :=
  { r with objMetadata := r.objMetadata.modify param }

theorem baseFlags_and (r : ObjectRecord) {mask : BitVec 64}
    (htype : metadataMultipartObject &&& mask = metadataMultipartObject)
    (hsum : metadataFlagWithChecksum &&& mask = metadataFlagWithChecksum) :
    r.baseFlags &&& mask = r.baseFlags := by
  rw [baseFlags, BitVec.and_or_distrib_right]
  cases r.upload.isSome <;> cases r.sdkChecksum.isSome <;>
    simp [flagIf, htype, hsum, metadataObject]

theorem flags_modify_legalHold (r : ObjectRecord) (legalHold : Bool) :
    (r.modify (.legalHold legalHold)).flags =
      if legalHold then r.flags ||| metadataFlagWithLegalHold
      else r.flags &&& ~~~metadataFlagWithLegalHold := by
  have hflags : ∀ b, (r.modify (.legalHold b)).flags = r.baseFlags |||
      r.objMetadata.fieldFlags ||| flagIf b metadataFlagWithLegalHold :=
    fun b => (BitVec.or_assoc ..).symm
  have hself := hflags r.objMetadata.legalHold
  have hbase : r.baseFlags &&& ~~~metadataFlagWithLegalHold = r.baseFlags :=
    r.baseFlags_and (by decide) (by decide)
  have hfields : r.objMetadata.fieldFlags &&& ~~~metadataFlagWithLegalHold =
      r.objMetadata.fieldFlags := r.objMetadata.fieldFlags_and (by decide)
  rw [hflags, show r.flags = _ from hself, BitVec.and_or_distrib_right,
    BitVec.and_or_distrib_right, hbase, hfields]
  cases legalHold <;> cases r.objMetadata.legalHold <;>
    simp [flagIf, BitVec.or_assoc]

theorem slice_body (r : ObjectRecord) :
    (r.bytes.take (addVarInt r.flags.toInt ++ r.body).length).drop
      (r.bytes.length -
        (r.body ++ (r.objMetadata.serialize ++ r.checksum)).length) =
      r.body := by
  have hlen : r.bytes.length -
      (r.body ++ (r.objMetadata.serialize ++ r.checksum)).length =
        (addVarInt r.flags.toInt).length := by
    rw [bytes, length_append, Nat.add_sub_cancel]
  rw [hlen, bytes, ← append_assoc, take_left, drop_left]

theorem drop_metadata (r : ObjectRecord) :
    r.bytes.drop (addVarInt r.flags.toInt ++ r.body ++
      r.objMetadata.serialize).length = r.checksum := by
  rw [bytes, ← append_assoc, ← append_assoc, drop_left]

/-- The callback returns the bytes of the modified record. -/
theorem onModifyMetadataCallback_bytes (h : r.Storable)
    (hallows : r.objMetadata.Allows param) {md5sum : Bytes}
    (hok : Record.onModifyMetadataCallback r.bytes param = .ok md5sum) :
    md5sum = (r.modify param).bytes := by
  have hbase : ¬ (r.flags &&& ~~~metadataKnownFlags ≠ metadataObject ∧
      r.flags &&& ~~~metadataKnownFlags ≠ metadataMultipartObject) := by
    rw [r.flags_baseType]
    cases r.upload.isSome <;> simp
  have hflags : getVarInt r.bytes = some (r.flags.toInt, r.body ++
      (r.objMetadata.serialize ++ r.checksum)) := reads_flags _ _
  rw [Record.onModifyMetadataCallback, take_of_length_le h.length] at hok
  simp only [hflags, BitVec.ofInt_toInt, hbase, if_false] at hok
  cases param with
  | legalHold legalHold =>
    rw [← Except.ok.inj hok, ← r.flags_modify_legalHold]
    rfl
  | retention param =>
    simp only [Record.locateObjMetadata_bytes h] at hok
    cases happly : applyRetention r.objMetadata.stored.lockInfo param with
    | error e =>
      rw [happly] at hok
      cases hok
    | ok lockInfo =>
      obtain rfl := applyRetention_allows hallows happly
      rw [happly] at hok
      rw [← Except.ok.inj hok, r.slice_body, r.drop_metadata,
        r.flags_and (by decide), r.baseFlags_and (by decide) (by decide)]
      rfl

def retainParam : S3.ModifyParam :=
  .retention ⟨0, false, some ⟨lockinfoFlagRetainUntil, 9, 0, 0⟩⟩

def emptyUpload : ObjectRecord where
  digest := List.replicate 16 7
  upload := some (5, [])

end ObjectRecord

end Hs5
