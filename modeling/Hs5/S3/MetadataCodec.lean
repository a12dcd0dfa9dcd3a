import Hs5.Data.Serialize
import Hs5.S3.Retention

/-!
# The metadata of an object

A record holds the metadata of an object as a sequence of fields without names:
the flags of the record say which fields there are.  Lock information has
fields of its own that depend on its flags.  `ObjMetadata.serialize` writes the
fields and `ObjMetadata.deserialize` reads them for given flags.
-/

namespace Hs5

open Option Parser

/-! ## Flags -/

def hasFlag (flags flag : BitVec 64) : Bool := flags &&& flag != 0#64

def flagIf (b : Bool) (flag : BitVec 64) : BitVec 64 := if b then flag else 0

theorem hasFlag_or (a b flag : BitVec 64) :
    hasFlag (a ||| b) flag = (hasFlag a flag || hasFlag b flag) := by
  rw [Bool.eq_iff_iff]
  simp only [hasFlag, BitVec.and_or_distrib_right, Bool.or_eq_true,
    bne_iff_ne, ne_eq]
  rw [← not_and_or]
  exact not_congr BitVec.or_eq_zero_iff

theorem hasFlag_flagIf (b : Bool) (flag flag' : BitVec 64) :
    hasFlag (flagIf b flag) flag' = (b && hasFlag flag flag') := by
  cases b with
  | false => simp [flagIf, hasFlag]
  | true => simp [flagIf]

theorem hasFlag_and {flags mask flag : BitVec 64} (h : mask &&& flag = flag) :
    hasFlag (flags &&& mask) flag = hasFlag flags flag := by
  rw [hasFlag, BitVec.and_assoc, h, hasFlag]

def metadataFlagWithContentType : BitVec 64 := 1#64 <<< 2
def metadataFlagWithMeta : BitVec 64 := 1#64 <<< 3
def metadataFlagWithChecksum : BitVec 64 := 1#64 <<< 4
def metadataFlagWithCacheControl : BitVec 64 := 1#64 <<< 6
def metadataFlagWithEncoding : BitVec 64 := 1#64 <<< 7
def metadataFlagWithExpires : BitVec 64 := 1#64 <<< 8
def metadataFlagWithLanguage : BitVec 64 := 1#64 <<< 9
def metadataFlagWithDisposition : BitVec 64 := 1#64 <<< 10
def metadataFlagWithLockInfo : BitVec 64 := 1#64 <<< 11
def metadataFlagWithLegalHold : BitVec 64 := 1#64 <<< 12

def metadataFlagHasObjMetadata : BitVec 64 :=
  metadataFlagWithContentType ||| metadataFlagWithMeta |||
    metadataFlagWithDisposition ||| metadataFlagWithCacheControl |||
    metadataFlagWithEncoding ||| metadataFlagWithLanguage |||
    metadataFlagWithExpires ||| metadataFlagWithLockInfo |||
    metadataFlagWithLegalHold

/-- The number of entries of the table of content types. -/
def kNumContentTypes : ℤ := 2250

/-- A content type: the number of an entry of the table, or a text. -/
structure ContentType where
  contentType : ℤ := 0
  contentTypeStr : Bytes := []
  deriving DecidableEq

namespace ContentType

def hasContentType (c : ContentType) : Bool :=
  c.contentType ≠ 0 || c.contentTypeStr ≠ []

def serialize (c : ContentType) : Bytes :=
  if c.contentType > 0 then addVarInt c.contentType
  else addVarInt 0 ++ addString2 c.contentTypeStr

def deserialize : Parser UInt8 ContentType := do
  let contentTypeRead ← getVarInt
  let contentType := castInt contentTypeRead
  if contentType = 0 then do
    let contentTypeStr ← getStr2
    pure ⟨contentType, contentTypeStr⟩
  else if contentType < 0 ∨ contentType > kNumContentTypes then failure
  else pure ⟨contentType, []⟩

/-- What `contentTypeFromStr` returns for a text that a header can hold. -/
def Sized (c : ContentType) : Prop :=
  c.contentType = 0 ∧ c.contentTypeStr.length ≤ maxStr2 ∨
    (0 < c.contentType ∧ c.contentType ≤ kNumContentTypes) ∧
      c.contentTypeStr = []

theorem reads_deserialize {c : ContentType} (h : c.Sized) :
    Reads deserialize c.serialize c := by
  obtain ⟨contentType, str⟩ := c
  rcases h with ⟨hzero, hstr⟩ | ⟨⟨hpos, hle⟩, hstr⟩
  · simp only at hzero hstr
    subst hzero
    refine (reads_getVarInt (by decide)).bind ?_
    exact (reads_getStr2 hstr).bind_pure (f := ContentType.mk 0)
  · simp only [kNumContentTypes] at hpos hle hstr
    subst hstr
    have hint : IsInt32 contentType := ⟨by omega, by omega⟩
    rw [serialize, if_pos hpos]
    refine (reads_getVarInt hint.isInt64).bind_done ?_
    simp only [castInt_eq hint]
    rw [if_neg (by omega), if_neg (by simp only [kNumContentTypes]; omega)]

end ContentType

namespace LockInfo

/-- Lock information that can be stored: durations within the limits of
requests, and a date that the stored integer can hold. -/
structure Storable (l : LockInfo) : Prop where
  sized : l.Sized
  date : IsInt64 l.retainUntil
  unset : l.retainUntilSet = false → l.retainUntil = 0

/-- The numbers of lock information; the flags say which there are. -/
def readNumbers : Parser UInt8 (List ℤ) := do
  let lockInfoFlags ← getInt64
  let l : LockInfo := ⟨BitVec.ofInt 32 lockInfoFlags, 0, 0, 0⟩
  let retainUntilSec ← field l.retainUntilSet getInt64
  let eventDuration ← field l.eventHold getInt64
  pure (lockInfoFlags :: (retainUntilSec.toList ++ eventDuration.toList))

/-- The part of `ObjMetadata::deserialize` for lock information, on bytes. -/
def read : Parser UInt8 LockInfo := do
  let data ← readNumbers
  match deserialize data with
  | none => failure
  | some l => pure l

theorem reads_numbers {l : LockInfo} (h : l.Storable) :
    Reads readNumbers (l.serialize.flatMap addInt64) l.serialize := by
  let date := Option.guard (fun _ => l.retainUntilSet) l.retainUntil
  let duration := Option.guard (fun _ => l.eventHold)
    (packDuration l.eventDurationDays l.eventDurationYears)
  have hflags : IsInt64 l.flags.toNat := by
    have := l.flags.isLt
    exact ⟨by omega, by omega⟩
  have hdate : ∀ v ∈ date, Reads getInt64 (addInt64 v) v := by
    intro v hv
    obtain ⟨rfl, -⟩ := guard_eq_some_iff.mp hv
    exact reads_getInt64 h.date
  have hduration : ∀ v ∈ duration, Reads getInt64 (addInt64 v) v := by
    intro v hv
    obtain ⟨rfl, -⟩ := guard_eq_some_iff.mp hv
    have := packDuration_eq h.sized.days h.sized.years
    have := h.sized.days
    have := h.sized.years
    exact reads_getInt64 ⟨by omega, by omega⟩
  have hnumbers : l.serialize =
      (l.flags.toNat : ℤ) :: (date.toList ++ duration.toList) := by
    cases hr : l.retainUntilSet <;> cases he : l.eventHold <;>
      simp [serialize, date, duration, Option.guard, hr, he]
  have hbytes : ∀ o : Option ℤ, o.toList.flatMap addInt64 =
      o.elim [] addInt64 := by
    intro o
    cases o <;> simp
  rw [hnumbers, List.flatMap_cons, List.flatMap_append, hbytes, hbytes]
  refine (reads_getInt64 hflags).bind ?_
  simp only [show BitVec.ofInt 32 l.flags.toNat = l.flags by simp]
  refine (reads_field ?_ hdate).bind ((reads_field ?_ hduration).bind_pure)
  · exact (isSome_guard (p := fun _ => l.retainUntilSet)).symm
  · exact (isSome_guard (p := fun _ => l.eventHold)).symm

theorem reads_read {l : LockInfo} (h : l.Storable) :
    Reads read (l.serialize.flatMap addInt64) l.stored := by
  refine (reads_numbers h).bind_done ?_
  simp only [deserialize_serialize h.sized]

theorem Storable.stored_eq_self {l : LockInfo} (h : l.Storable) :
    l.stored = l ↔ l.eventHold = true ∨
      l.eventDurationDays = 0 ∧ l.eventDurationYears = 0 := by
  have hdate : (if l.retainUntilSet then l.retainUntil else 0) =
      l.retainUntil := by
    cases hr : l.retainUntilSet with
    | false => exact (h.unset hr).symm
    | true => rfl
  rw [stored, hdate]
  obtain ⟨flags, date, days, years⟩ := l
  cases LockInfo.eventHold ⟨flags, date, days, years⟩ <;>
    simp [@eq_comm ℕ 0]

end LockInfo

structure ObjMetadata where
  contentType : ContentType := {}
  userMetadata : List (Bytes × Bytes) := []
  disposition : Option Bytes := none
  cacheControl : Option Bytes := none
  encoding : Option Bytes := none
  language : Option Bytes := none
  expires : Option Bytes := none
  lockInfo : Option LockInfo := none
  legalHold : Bool := false
  deriving DecidableEq

namespace UserMetadata

def serialize (metadata : List (Bytes × Bytes)) : Bytes :=
  addVarInt metadata.length ++
    metadata.flatMap fun p => addString2 p.1 ++ addString2 p.2

def deserialize : Parser UInt8 (List (Bytes × Bytes)) := do
  let cvals ← getVarInt
  times cvals.toNat do
    let key ← getStr2
    let value ← getStr2
    pure (key, value)

def Sized (metadata : List (Bytes × Bytes)) : Prop :=
  metadata.length ≤ maxStr2 ∧
    ∀ p ∈ metadata, p.1.length ≤ maxStr2 ∧ p.2.length ≤ maxStr2

theorem reads_deserialize {metadata : List (Bytes × Bytes)}
    (h : Sized metadata) : Reads deserialize (serialize metadata) metadata := by
  have hlen : IsInt64 metadata.length := by
    have := h.1
    simp only [maxStr2] at this
    exact ⟨by omega, by omega⟩
  refine (reads_getVarInt hlen).bind ?_
  rw [Int.toNat_natCast]
  refine reads_times metadata fun p hp => ?_
  obtain ⟨hkey, hvalue⟩ := h.2 p hp
  exact (reads_getStr2 hkey).bind (reads_getStr2 hvalue).bind_pure

end UserMetadata

namespace ObjMetadata

def fieldFlags (m : ObjMetadata) : BitVec 64 :=
  flagIf m.contentType.hasContentType metadataFlagWithContentType |||
    flagIf (m.userMetadata ≠ []) metadataFlagWithMeta |||
    flagIf m.disposition.isSome metadataFlagWithDisposition |||
    flagIf m.cacheControl.isSome metadataFlagWithCacheControl |||
    flagIf m.encoding.isSome metadataFlagWithEncoding |||
    flagIf m.language.isSome metadataFlagWithLanguage |||
    flagIf m.expires.isSome metadataFlagWithExpires |||
    flagIf m.lockInfo.isSome metadataFlagWithLockInfo

def flags (m : ObjMetadata) : BitVec 64 :=
  m.fieldFlags ||| flagIf m.legalHold metadataFlagWithLegalHold

def contentType? (m : ObjMetadata) : Option ContentType :=
  Option.guard ContentType.hasContentType m.contentType

def userMetadata? (m : ObjMetadata) : Option (List (Bytes × Bytes)) :=
  Option.guard (fun d => d ≠ []) m.userMetadata

def serialize (m : ObjMetadata) : Bytes :=
  m.contentType?.elim [] ContentType.serialize ++
    (m.userMetadata?.elim [] UserMetadata.serialize ++
    (m.disposition.elim [] addString2 ++
    (m.cacheControl.elim [] addString2 ++
    (m.encoding.elim [] addString2 ++
    (m.language.elim [] addString2 ++
    (m.expires.elim [] addString2 ++
    m.lockInfo.elim [] fun l => l.serialize.flatMap addInt64))))))

def deserialize (flags : BitVec 64) : Parser UInt8 ObjMetadata := do
  let contentType ← field (hasFlag flags metadataFlagWithContentType)
    ContentType.deserialize
  let userMetadata ← field (hasFlag flags metadataFlagWithMeta)
    UserMetadata.deserialize
  let disposition ← field (hasFlag flags metadataFlagWithDisposition) getStr2
  let cacheControl ← field (hasFlag flags metadataFlagWithCacheControl) getStr2
  let encoding ← field (hasFlag flags metadataFlagWithEncoding) getStr2
  let language ← field (hasFlag flags metadataFlagWithLanguage) getStr2
  let expires ← field (hasFlag flags metadataFlagWithExpires) getStr2
  let lockInfo ← field (hasFlag flags metadataFlagWithLockInfo) LockInfo.read
  pure { contentType := contentType.getD {}, userMetadata := userMetadata.getD []
         disposition, cacheControl, encoding, language, expires, lockInfo
         legalHold := hasFlag flags metadataFlagWithLegalHold }

theorem hasFlag_flags (m : ObjMetadata) :
    hasFlag m.flags metadataFlagWithContentType = m.contentType?.isSome ∧
      hasFlag m.flags metadataFlagWithMeta = m.userMetadata?.isSome ∧
      hasFlag m.flags metadataFlagWithDisposition = m.disposition.isSome ∧
      hasFlag m.flags metadataFlagWithCacheControl = m.cacheControl.isSome ∧
      hasFlag m.flags metadataFlagWithEncoding = m.encoding.isSome ∧
      hasFlag m.flags metadataFlagWithLanguage = m.language.isSome ∧
      hasFlag m.flags metadataFlagWithExpires = m.expires.isSome ∧
      hasFlag m.flags metadataFlagWithLockInfo = m.lockInfo.isSome ∧
      hasFlag m.flags metadataFlagWithLegalHold = m.legalHold := by
  simp only [flags, fieldFlags, hasFlag_or, hasFlag_flagIf, contentType?,
    userMetadata?]
  simp [hasFlag, metadataFlagWithContentType, metadataFlagWithMeta,
    metadataFlagWithDisposition, metadataFlagWithCacheControl,
    metadataFlagWithEncoding, metadataFlagWithLanguage,
    metadataFlagWithExpires, metadataFlagWithLockInfo,
    metadataFlagWithLegalHold]

def stored (m : ObjMetadata) : ObjMetadata :=
  { m with lockInfo := m.lockInfo.map LockInfo.stored }

/-- Metadata that requests can give: texts as a header can hold them, and lock
information that can be stored. -/
structure Storable (m : ObjMetadata) : Prop where
  contentType : m.contentType.Sized
  userMetadata : UserMetadata.Sized m.userMetadata
  texts : ∀ text ∈ [m.disposition, m.cacheControl, m.encoding, m.language,
    m.expires], ∀ s ∈ text, s.length ≤ maxStr2
  lockInfo : ∀ l ∈ m.lockInfo, l.Storable

theorem contentType?_getD (m : ObjMetadata) :
    m.contentType?.getD {} = m.contentType := by
  obtain ⟨⟨contentType, str⟩⟩ := m
  by_cases h : contentType = 0 ∧ str = []
  · obtain ⟨rfl, rfl⟩ := h
    rfl
  · rw [not_and_or] at h
    simp [contentType?, Option.guard, ContentType.hasContentType, h]

theorem userMetadata?_getD (m : ObjMetadata) :
    m.userMetadata?.getD [] = m.userMetadata := by
  by_cases h : m.userMetadata = [] <;> simp [userMetadata?, Option.guard, h]

theorem reads_deserialize {m : ObjMetadata} (h : m.Storable)
    {flags : BitVec 64}
    (hflags : flags &&& metadataFlagHasObjMetadata = m.flags) :
    Reads (deserialize flags) m.serialize m.stored := by
  have hflag : ∀ flag, metadataFlagHasObjMetadata &&& flag = flag →
      hasFlag flags flag = hasFlag m.flags flag := by
    intro flag hmask
    rw [← hflags, hasFlag_and hmask]
  obtain ⟨hc, hu, hd, hcc, he, hl, hx, hlock, hhold⟩ := m.hasFlag_flags
  simp only [deserialize, serialize]
  rw [hflag _ (by decide), hflag _ (by decide), hflag _ (by decide),
    hflag _ (by decide), hflag _ (by decide), hflag _ (by decide),
    hflag _ (by decide), hflag _ (by decide), hflag _ (by decide)]
  have htext : ∀ text ∈ [m.disposition, m.cacheControl, m.encoding,
      m.language, m.expires], ∀ s ∈ text, Reads getStr2 (addString2 s) s :=
    fun text ht s hs => reads_getStr2 (h.texts text ht s hs)
  refine (reads_field hc ?_).bind ((reads_field hu ?_).bind
    ((reads_field hd (htext _ (by simp))).bind
    ((reads_field hcc (htext _ (by simp))).bind
    ((reads_field he (htext _ (by simp))).bind
    ((reads_field hl (htext _ (by simp))).bind
    ((reads_field hx (htext _ (by simp))).bind
    ((reads_field_map hlock fun l hl =>
      LockInfo.reads_read (h.lockInfo l hl)).bind_done ?_)))))))
  · intro c hc
    obtain ⟨rfl, -⟩ := guard_eq_some_iff.mp hc
    exact ContentType.reads_deserialize h.contentType
  · intro d hd
    obtain ⟨rfl, -⟩ := guard_eq_some_iff.mp hd
    exact UserMetadata.reads_deserialize h.userMetadata
  · rw [contentType?_getD, userMetadata?_getD, hhold]
    rfl

/-- Where no number can be read, only lock information can. -/
theorem serialize_of_deserialize {m m' : ObjMetadata} {flags : BitVec 64}
    (hflags : flags &&& metadataFlagHasObjMetadata = m.flags)
    {rdata rest : Bytes} (hnone : getVarInt rdata = none)
    (hread : deserialize flags rdata = some (m', rest)) :
    m.serialize = m.lockInfo.elim [] fun l => l.serialize.flatMap addInt64 := by
  have hcontent : ContentType.deserialize rdata = none := bind_of_none hnone
  have huser : UserMetadata.deserialize rdata = none := bind_of_none hnone
  have htext : getStr2 rdata = none := bind_of_none hnone
  have hnil : ∀ {α : Type} {o : Option α} {flag} (encode : α → Bytes),
      hasFlag m.flags flag = o.isSome → hasFlag flags flag = false →
      metadataFlagHasObjMetadata &&& flag = flag → o.elim [] encode = [] := by
    intro α o flag encode hsome hfalse hmask
    rw [← hflags, hasFlag_and hmask, hfalse] at hsome
    cases o with
    | none => rfl
    | some a => cases hsome
  simp only [deserialize, field_bind_of_none hcontent,
    field_bind_of_none huser, field_bind_of_none htext,
    ite_none_left_eq_some, Bool.not_eq_true] at hread
  obtain ⟨hc, hu, hd, hcc, he, hl, hx, -⟩ := hread
  obtain ⟨hc', hu', hd', hcc', he', hl', hx', -⟩ := m.hasFlag_flags
  rw [serialize, hnil _ hc' hc (by decide), hnil _ hu' hu (by decide),
    hnil _ hd' hd (by decide), hnil _ hcc' hcc (by decide),
    hnil _ he' he (by decide), hnil _ hl' hl (by decide),
    hnil _ hx' hx (by decide)]
  rfl

theorem fieldFlags_and (m : ObjMetadata) {mask : BitVec 64}
    (h : metadataFlagHasObjMetadata &&& ~~~metadataFlagWithLegalHold &&& mask =
      metadataFlagHasObjMetadata &&& ~~~metadataFlagWithLegalHold) :
    m.fieldFlags &&& mask = m.fieldFlags := by
  have hone : ∀ b flag, metadataFlagHasObjMetadata &&&
      ~~~metadataFlagWithLegalHold &&& flag = flag →
      flagIf b flag &&& mask = flagIf b flag := by
    intro b flag hflag
    cases b with
    | false => exact BitVec.zero_and
    | true =>
      rw [flagIf, if_pos rfl, ← hflag, BitVec.and_assoc, BitVec.and_comm flag,
        ← BitVec.and_assoc, h]
  simp only [fieldFlags, BitVec.and_or_distrib_right]
  rw [hone _ _ (by decide), hone _ _ (by decide), hone _ _ (by decide),
    hone _ _ (by decide), hone _ _ (by decide), hone _ _ (by decide),
    hone _ _ (by decide), hone _ _ (by decide)]

theorem flags_and (m : ObjMetadata) :
    m.flags &&& metadataFlagHasObjMetadata = m.flags := by
  rw [flags, BitVec.and_or_distrib_right, m.fieldFlags_and (by decide)]
  cases m.legalHold <;> rfl

/-- Metadata is read back, but for the duration of an event hold that is not
on. -/
theorem objMetadata_roundTrip {m : ObjMetadata} (h : m.Storable) :
    deserialize m.flags m.serialize = some (m.stored, []) ∧
      (m.stored = m ↔ ∀ l ∈ m.lockInfo, l.eventHold = true ∨
        l.eventDurationDays = 0 ∧ l.eventDurationYears = 0) := by
  refine ⟨(reads_deserialize h m.flags_and).run_eq, ?_⟩
  have hlock : ∀ l ∈ m.lockInfo, l.stored = l ↔ l.eventHold = true ∨
      l.eventDurationDays = 0 ∧ l.eventDurationYears = 0 :=
    fun l hl => (h.lockInfo l hl).stored_eq_self
  obtain ⟨_, _, _, _, _, _, _, lockInfo, _⟩ := m
  cases lockInfo with
  | none => simp [stored]
  | some l => simpa [stored] using hlock l rfl

/-- A duration that is asked for without an event hold is not stored. -/
theorem not_objMetadata_roundTrip :
    ∃ data param l, S3.finalizePutObjectRetention data 0 true = .ok param ∧
      applyRetention none param = .ok (some l) ∧
      LockInfo.Storable l ∧
      deserialize (ObjMetadata.flags { lockInfo := some l })
        (ObjMetadata.serialize { lockInfo := some l }) ≠
          some ({ lockInfo := some l }, []) := by
  refine ⟨{ mode := .value .governance
            retainUntilDate := .value 9
            hasEventHoldDuration := true
            days := .value 30 }, _, _, rfl, rfl,
    ⟨⟨by decide, by decide⟩, by decide, by decide⟩, ?_⟩
  decide +kernel

def everyField : ObjMetadata where
  contentType := ⟨7, []⟩
  userMetadata := [(ascii "a", ascii "b")]
  disposition := some (ascii "inline")
  cacheControl := some (ascii "no-store")
  encoding := some (ascii "gzip")
  language := some (ascii "en")
  expires := some (ascii "0")
  lockInfo := some ⟨7, 9, 30, 0⟩
  legalHold := true

theorem objMetadata_roundTrip_everyField :
    deserialize everyField.flags everyField.serialize =
      some (everyField, []) := by
  have hstorable : everyField.Storable := by
    refine ⟨.inr (by decide), ⟨by decide, by decide⟩, by decide, ?_⟩
    rintro l ⟨⟩
    exact ⟨⟨by decide, by decide⟩, by decide, by decide⟩
  obtain ⟨hread, hstored⟩ := objMetadata_roundTrip hstorable
  rwa [hstored.mpr (by rintro l ⟨⟩; decide)] at hread

end ObjMetadata

end Hs5
