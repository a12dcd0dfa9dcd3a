import Hs5.Data.Serialize
import Hs5.Storage.FragInfo
import Hs5.Wal.WalFile

/-!
# Encoding of log records

A record is a checksum, its size, a type character, the sequence number of
the file and a payload.  The serializers return bytes and the deserializers
are readers that fail where the source reports an error or aborts.  Every
value within the limits of the readers is read back.
-/

namespace Hs5

open List Parser

/-! ## Optional values and lists -/

/-- A character that tells whether a value follows. -/
def addOption {α : Type} (add : α → Bytes) : Option α → Bytes
  | some a => 1 :: add a
  | none => [0]

def getOption {α : Type} (get : Parser UInt8 α) : Parser UInt8 (Option α) := do
  let has ← getChar
  if has ≠ 0 then do
    let a ← get
    pure (some a)
  else pure none

/-- The number of elements and then the elements. -/
def addList {α : Type} (add : α → Bytes) (l : List α) : Bytes :=
  addVarInt l.length ++ l.flatMap add

def getList {α : Type} (get : Parser UInt8 α) : Parser UInt8 (List α) := do
  let size ← getVarInt
  times (BitVec.ofInt 64 size).toNat get

theorem reads_getOption {α : Type} {add : α → Bytes} {get : Parser UInt8 α}
    {o : Option α} (h : ∀ a ∈ o, Reads get (add a) a) :
    Reads (getOption get) (addOption add o) o := by
  cases o with
  | none => exact (reads_token 0).bind_done rfl
  | some a => exact (reads_token 1).bind (h a rfl).bind_pure

theorem reads_getList {α : Type} {add : α → Bytes} {get : Parser UInt8 α}
    {l : List α} (hlen : IsInt64 l.length)
    (h : ∀ a ∈ l, Reads get (add a) a) :
    Reads (getList get) (addList add l) l := by
  refine (reads_getVarInt hlen).bind ?_
  have hcount : (BitVec.ofInt 64 (l.length : ℤ)).toNat = l.length := by
    obtain ⟨-, hhigh⟩ := hlen
    rw [BitVec.ofInt_natCast, BitVec.toNat_ofNat]
    omega
  rw [hcount]
  exact reads_times l h

/-! ## Commit information -/

structure CommitInfo where
  dataFileMaxSize : ℤ
  currWriteExtStart : ℤ
  currWriteExtEnd : ℤ
  dataFileFree : ℤ
  currTransid : ℤ
  localCurrPartid : ℤ
  localCurrVersion : ℤ
  reservedExtents : List SPunchItem
  deriving DecidableEq

def serializeExt (e : SPunchItem) : Bytes :=
  addVarInt e.offset ++ addVarInt e.len

def deserializeExt : Parser UInt8 SPunchItem := do
  let offset ← getVarInt
  let len ← getVarInt
  pure ⟨offset, len⟩

def serializeCommitInfo (c : CommitInfo) : Bytes :=
  addVarInt c.dataFileMaxSize ++ addVarInt c.currWriteExtStart ++
    addVarInt c.currWriteExtEnd ++ addVarInt c.dataFileFree ++
    addVarInt c.currTransid ++ addVarInt c.localCurrPartid ++
    addVarInt c.localCurrVersion ++ addList serializeExt c.reservedExtents

def deserializeCommitInfo : Parser UInt8 CommitInfo := do
  let dataFileMaxSize ← getVarInt
  let currWriteExtStart ← getVarInt
  let currWriteExtEnd ← getVarInt
  let dataFileFree ← getVarInt
  let currTransid ← getVarInt
  let localCurrPartid ← getVarInt
  let localCurrVersion ← getVarInt
  let reservedExtents ← getList deserializeExt
  pure ⟨dataFileMaxSize, currWriteExtStart, currWriteExtEnd, dataFileFree,
    currTransid, localCurrPartid, localCurrVersion, reservedExtents⟩

/-- The fields are in the range of their types. -/
def extsFit (exts : List SPunchItem) : Prop :=
  IsInt64 exts.length ∧ ∀ e ∈ exts, IsInt64 e.offset ∧ IsInt64 e.len
  deriving Decidable

def CommitInfo.Fits (c : CommitInfo) : Prop :=
  IsInt64 c.dataFileMaxSize ∧ IsInt64 c.currWriteExtStart ∧
    IsInt64 c.currWriteExtEnd ∧ IsInt64 c.dataFileFree ∧
    IsInt64 c.currTransid ∧ IsInt64 c.localCurrPartid ∧
    IsInt64 c.localCurrVersion ∧ extsFit c.reservedExtents
  deriving Decidable

theorem reads_exts {exts : List SPunchItem} (h : extsFit exts) :
    Reads (getList deserializeExt) (addList serializeExt exts) exts := by
  apply reads_getList h.1
  intro e he
  obtain ⟨hoffset, hlen⟩ := h.2 e he
  exact (reads_getVarInt hoffset).bind (reads_getVarInt hlen).bind_pure

theorem reads_deserializeCommitInfo {c : CommitInfo} (h : c.Fits) :
    Reads deserializeCommitInfo (serializeCommitInfo c) c := by
  obtain ⟨h₁, h₂, h₃, h₄, h₅, h₆, h₇, hexts⟩ := h
  simp only [serializeCommitInfo, append_assoc]
  refine (reads_getVarInt h₁).bind ((reads_getVarInt h₂).bind ?_)
  refine (reads_getVarInt h₃).bind ((reads_getVarInt h₄).bind ?_)
  refine (reads_getVarInt h₅).bind ((reads_getVarInt h₆).bind ?_)
  exact (reads_getVarInt h₇).bind (reads_exts hexts).bind_pure

/-! ## Items -/

/-- The flags of serialized match information. -/
def matchInfoFlags (m : MatchInfo) : UInt8 :=
  (if m.readNewest then 1 else 0) ||| (if m.checkProtected then 2 else 0) |||
    (if m.bypassGovernance then 4 else 0) |||
    (if m.protectedCheckTime ≠ 0 then 8 else 0)

def serializeMatchInfo (m : MatchInfo) : Bytes :=
  addOption addString2 m.readFn ++ [matchInfoFlags m] ++
    (if m.protectedCheckTime ≠ 0 then addVarInt m.protectedCheckTime else []) ++
    addList addString2 m.ifMatch ++ addList addString2 m.ifNoneMatch ++
    addOption addVarInt m.ifModifiedSince ++
    addOption addVarInt m.ifUnmodifiedSince

def getProtectedCheckTime (flags : UInt8) : Parser UInt8 ℤ :=
  if flags &&& 8 ≠ 0 then getVarInt else pure 0

def deserializeMatchInfo : Parser UInt8 MatchInfo := do
  let readFn ← getOption getStr2
  let flags ← getChar
  let protectedCheckTime ← getProtectedCheckTime flags
  let ifMatch ← getList getStr2
  let ifNoneMatch ← getList getStr2
  let ifModifiedSince ← getOption getVarInt
  let ifUnmodifiedSince ← getOption getVarInt
  pure ⟨readFn, ifMatch, ifNoneMatch, ifModifiedSince, ifUnmodifiedSince,
    protectedCheckTime, flags &&& 1 ≠ 0, flags &&& 2 ≠ 0, flags &&& 4 ≠ 0⟩

def serializeFragItem (info : FragItem) : Bytes :=
  [info.action.toUChar] ++ addString2 info.fn ++ addVarInt info.offset ++
    addVarInt info.len ++ addVarInt info.lastModified ++
    addString2 info.md5sum ++ addList serializeExt info.extraExts ++
    addOption serializeMatchInfo info.matchInfo

/-- The items behind `linked`, each announced by a character. -/
def serializeLinked : List FragItem → Bytes
  | [] => [0]
  | item :: linked => 1 :: (serializeFragItem item ++ serializeLinked linked)

def serializeFragInfo (info : FragInfo) : Bytes :=
  serializeFragItem info.item ++ serializeLinked info.linked

/-- One item; match information on a linked item makes the source abort. -/
def deserializeFragItem (root : Bool) : Parser UInt8 FragItem := do
  let c ← getChar
  match FragAction.ofUChar c with
  | none => failure
  | some action => do
      let fn ← getStr2
      let offset ← getVarInt
      let len ← getVarInt
      let lastModified ← getVarInt
      let md5sum ← getStr2
      let extraExts ← getList deserializeExt
      let matchInfo ← getOption (if root then deserializeMatchInfo else failure)
      pure ⟨action, fn, offset, len, lastModified, md5sum, extraExts, matchInfo⟩

/-- The chain of linked items, at most `fuel` of them. -/
def deserializeLinked : ℕ → Parser UInt8 (List FragItem)
  | 0 => failure
  | fuel + 1 => do
      let hasLinked ← getChar
      if hasLinked ≠ 0 then do
        let item ← deserializeFragItem false
        let linked ← deserializeLinked fuel
        pure (item :: linked)
      else pure []

/-- A chain has no more items than there are bytes. -/
def deserializeFragInfo : Parser UInt8 FragInfo := fun bytes =>
  (do
    let item ← deserializeFragItem true
    let linked ← deserializeLinked bytes.length
    pure ⟨item, linked⟩ : Parser UInt8 FragInfo) bytes

/-! ## Limits of items -/

def strsFit (l : List Bytes) : Prop :=
  IsInt64 l.length ∧ ∀ s ∈ l, s.length ≤ maxStr2
  deriving Decidable

def MatchInfo.Fits (m : MatchInfo) : Prop :=
  (∀ s ∈ m.readFn, s.length ≤ maxStr2) ∧ IsInt64 m.protectedCheckTime ∧
    strsFit m.ifMatch ∧ strsFit m.ifNoneMatch ∧
    (∀ t ∈ m.ifModifiedSince, IsInt64 t) ∧
    (∀ t ∈ m.ifUnmodifiedSince, IsInt64 t)
  deriving Decidable

def FragItem.Fits (info : FragItem) : Prop :=
  info.fn.length ≤ maxStr2 ∧ IsInt64 info.offset ∧ IsInt64 info.len ∧
    IsInt64 info.lastModified ∧ info.md5sum.length ≤ maxStr2 ∧
    extsFit info.extraExts ∧ ∀ m ∈ info.matchInfo, m.Fits
  deriving Decidable

def FragInfo.Fits (info : FragInfo) : Prop :=
  info.item.Fits ∧ ∀ item ∈ info.linked, item.Fits ∧ item.matchInfo = none
  deriving Decidable

/-! ## Items are read back -/

theorem reads_strs {l : List Bytes} (h : strsFit l) :
    Reads (getList getStr2) (addList addString2 l) l :=
  reads_getList h.1 fun s hs => reads_getStr2 (h.2 s hs)

theorem flags_bits (m : MatchInfo) :
    decide (matchInfoFlags m &&& 1 ≠ 0) = m.readNewest ∧
      decide (matchInfoFlags m &&& 2 ≠ 0) = m.checkProtected ∧
      decide (matchInfoFlags m &&& 4 ≠ 0) = m.bypassGovernance ∧
      (matchInfoFlags m &&& 8 ≠ 0 ↔ m.protectedCheckTime ≠ 0) := by
  have hbits : ∀ a b c d : Bool,
      let flags : UInt8 := (if a then 1 else 0) ||| (if b then 2 else 0) |||
        (if c then 4 else 0) ||| (if d then 8 else 0)
      decide (flags &&& 1 ≠ 0) = a ∧ decide (flags &&& 2 ≠ 0) = b ∧
        decide (flags &&& 4 ≠ 0) = c ∧ (flags &&& 8 ≠ 0 ↔ d = true) := by
    decide
  simpa [matchInfoFlags] using hbits m.readNewest m.checkProtected
    m.bypassGovernance (decide (m.protectedCheckTime ≠ 0))

theorem reads_getProtectedCheckTime {m : MatchInfo}
    (h : IsInt64 m.protectedCheckTime) :
    Reads (getProtectedCheckTime (matchInfoFlags m))
      (if m.protectedCheckTime ≠ 0 then addVarInt m.protectedCheckTime
        else [])
      m.protectedCheckTime := by
  obtain ⟨-, -, -, hflag⟩ := flags_bits m
  unfold getProtectedCheckTime
  by_cases hzero : m.protectedCheckTime = 0
  · rw [if_neg fun hset => hflag.mp hset hzero, if_neg (by simpa using hzero),
      hzero]
    exact reads_pure 0
  · rw [if_pos (hflag.mpr hzero), if_pos hzero]
    exact reads_getVarInt h

theorem reads_deserializeMatchInfo {m : MatchInfo} (h : m.Fits) :
    Reads deserializeMatchInfo (serializeMatchInfo m) m := by
  obtain ⟨hreadFn, htime, hmatch, hnone, hmod, hunmod⟩ := h
  obtain ⟨hnewest, hprotected, hbypass, -⟩ := flags_bits m
  simp only [serializeMatchInfo, append_assoc]
  refine (reads_getOption fun s hs => reads_getStr2 (hreadFn s hs)).bind ?_
  refine (reads_token (matchInfoFlags m)).bind ?_
  refine (reads_getProtectedCheckTime htime).bind ?_
  refine (reads_strs hmatch).bind ((reads_strs hnone).bind ?_)
  refine (reads_getOption fun t ht => reads_getVarInt (hmod t ht)).bind ?_
  rw [hnewest, hprotected, hbypass]
  exact (reads_getOption fun t ht => reads_getVarInt (hunmod t ht)).bind_pure

theorem reads_deserializeFragItem {info : FragItem} {root : Bool}
    (h : info.Fits) (hroot : root = true ∨ info.matchInfo = none) :
    Reads (deserializeFragItem root) (serializeFragItem info) info := by
  obtain ⟨hfn, hoffset, hlen, hmodified, hmd5sum, hexts, hmatch⟩ := h
  simp only [serializeFragItem, append_assoc]
  refine (reads_token info.action.toUChar).bind ?_
  simp only [FragAction.ofUChar_toUChar]
  refine (reads_getStr2 hfn).bind ((reads_getVarInt hoffset).bind ?_)
  refine (reads_getVarInt hlen).bind ((reads_getVarInt hmodified).bind ?_)
  refine (reads_getStr2 hmd5sum).bind ((reads_exts hexts).bind ?_)
  have hmatchReads : Reads
      (getOption (if root then deserializeMatchInfo else failure))
      (addOption serializeMatchInfo info.matchInfo) info.matchInfo := by
    apply reads_getOption
    intro m hm
    rcases hroot with rfl | hnone
    · exact reads_deserializeMatchInfo (hmatch m hm)
    · rw [hnone] at hm
      cases hm
  exact hmatchReads.bind_pure

theorem reads_deserializeLinked {linked : List FragItem} {fuel : ℕ}
    (h : ∀ item ∈ linked, item.Fits ∧ item.matchInfo = none)
    (hfuel : linked.length < fuel) :
    Reads (deserializeLinked fuel) (serializeLinked linked) linked := by
  induction linked generalizing fuel with
  | nil =>
    obtain ⟨fuel, rfl⟩ : ∃ n, fuel = n + 1 := ⟨fuel - 1, by omega⟩
    exact (reads_token 0).bind_done rfl
  | cons item linked ih =>
    obtain ⟨fuel, rfl⟩ : ∃ n, fuel = n + 1 := ⟨fuel - 1, by omega⟩
    obtain ⟨hitem, hnone⟩ := h item (mem_cons_self ..)
    have hfuel' : linked.length < fuel := by
      simp only [length_cons] at hfuel
      omega
    have hlinked := ih (fun i hi => h i (mem_cons_of_mem _ hi)) hfuel'
    refine (reads_token 1).bind ?_
    exact (reads_deserializeFragItem hitem (.inr hnone)).bind hlinked.bind_pure

theorem length_lt_serializeLinked (linked : List FragItem) :
    linked.length < (serializeLinked linked).length := by
  induction linked with
  | nil => decide
  | cons item linked ih =>
    simp only [serializeLinked, length_cons, length_append]
    omega

theorem reads_deserializeFragInfo {info : FragInfo} (h : info.Fits) :
    Reads deserializeFragInfo (serializeFragInfo info) info := by
  intro rest
  have hfuel : info.linked.length <
      (serializeFragInfo info ++ rest).length := by
    have hlinked := length_lt_serializeLinked info.linked
    simp only [serializeFragInfo, length_append]
    omega
  exact ((reads_deserializeFragItem h.1 (.inl rfl)).bind
    (reads_deserializeLinked h.2 hfuel).bind_pure) rest

end Hs5
