import Hs5.S3.Keys
import Hs5.Storage.IndexCodec
import Mathlib.Order.Compare

/-!
# Encoded keys and the search for the newest version

A key of the main map is a string that `make_key` makes of a bucket, a name
and a version.  The map is ordered by `mdb_cmp_s3key`, which takes the strings
apart again and compares buckets, names and versions.  On encoded keys of up
to 100 MiB this is the linear order of `KeyInfo`.
-/

namespace Hs5

open List Parser

/-! ## Keys -/

def makeKey (keyInfo : KeyInfo) : Bytes :=
  (if keyInfo.version = 0 then 0 else 1) :: (addVarInt keyInfo.bucketId ++
    ((if keyInfo.version ≠ 0 then addVarInt keyInfo.version else []) ++
      keyInfo.key))

/-- `extractKeyInfoView`; a key that cannot be taken apart is a name in bucket
zero. -/
def extractKeyInfoView (key : Bytes) : KeyInfo :=
  match key.take maxRData with
  | [] => ⟨0, key, 0⟩
  | version :: rdata =>
    match getVarInt rdata with
    | none => ⟨0, key, 0⟩
    | some (bucketId, rdata) =>
      if version = 0 then ⟨bucketId, rdata, 0⟩
      else if version ≠ 1 then ⟨0, key, 0⟩
      else
        match getVarInt rdata with
        | none => ⟨0, key, 0⟩
        | some (objectVersion, rdata) => ⟨bucketId, rdata, objectVersion⟩

/-- `compare` of strings: by the first different byte, or by length. -/
def compareBytes : Bytes → Bytes → Ordering
  | [], [] => .eq
  | [], _ :: _ => .lt
  | _ :: _, [] => .gt
  | x :: a, y :: b =>
    if x = y then compareBytes a b
    else if x.toNat < y.toNat then .lt else .gt

/-- `mdb_cmp_s3key`; only the sign of a comparison is used. -/
def mdbCmpS3key (a b : Bytes) : Ordering :=
  let keyInfoA := extractKeyInfoView a
  let keyInfoB := extractKeyInfoView b
  if keyInfoA.bucketId ≠ keyInfoB.bucketId then
    if keyInfoA.bucketId < keyInfoB.bucketId then .gt else .lt
  else
    let cmp := compareBytes keyInfoA.key keyInfoB.key
    if cmp ≠ .eq then cmp
    else if keyInfoA.version < keyInfoB.version then .gt
    else if keyInfoA.version > keyInfoB.version then .lt
    else .eq

def s3keyCommonPrefix (key : Bytes) : Bytes :=
  let keyInfo := extractKeyInfoView key
  makeKey ⟨keyInfo.bucketId, keyInfo.key, 0⟩

/-- A bucket and a version in the range of their types, and a key that the
reader looks at as a whole. -/
structure KeyInfo.Encodable (k : KeyInfo) : Prop where
  bucketId : IsInt64 k.bucketId
  version : IsInt64 k.version
  size : (makeKey k).length ≤ maxRData

variable {k : KeyInfo} {a b : KeyInfo}

theorem extractKeyInfoView_makeKey (h : k.Encodable) :
    extractKeyInfoView (makeKey k) = k := by
  obtain ⟨bucketId, key, version⟩ := k
  unfold extractKeyInfoView
  rw [take_of_length_le h.size, makeKey]
  dsimp only
  rw [reads_getVarInt h.bucketId _]
  by_cases hversion : version = 0
  · rw [if_pos hversion, if_neg (not_not.mpr hversion), hversion]
    simp
  · rw [if_neg hversion, if_pos hversion]
    simp [reads_getVarInt h.version _]

theorem makeKey_injective (ha : a.Encodable) (hb : b.Encodable)
    (h : makeKey a = makeKey b) : a = b := by
  rw [← extractKeyInfoView_makeKey ha, h, extractKeyInfoView_makeKey hb]

theorem KeyInfo.Encodable.withoutVersion (h : k.Encodable) :
    (KeyInfo.mk k.bucketId k.key 0).Encodable where
  bucketId := h.bucketId
  version := (by decide : IsInt64 0)
  size := by
    refine le_trans ?_ h.size
    simp [makeKey]

/-! ## The order of keys -/

theorem compareBytes_compares (a b : Bytes) :
    (compareBytes a b).Compares (a.map UInt8.toNat) (b.map UInt8.toNat) := by
  induction a, b using compareBytes.induct with
  | case1 => rfl
  | case2 y b | case3 x a => exact nil_lt_cons _ _
  | case4 a x b ih =>
    rw [compareBytes, if_pos rfl]
    cases hcmp : compareBytes a b with
    | lt | gt =>
      rw [hcmp] at ih
      exact cons_lt_cons_iff.mpr (.inr ⟨rfl, ih⟩)
    | eq =>
      rw [hcmp] at ih
      exact congrArg (x.toNat :: ·) ih
  | case5 x a y b hne hlt =>
    rw [compareBytes, if_neg hne, if_pos hlt]
    exact cons_lt_cons_iff.mpr (.inl hlt)
  | case6 x a y b hne hlt =>
    rw [compareBytes, if_neg hne, if_neg hlt]
    have hnat : x.toNat ≠ y.toNat := fun h => hne (UInt8.toNat.inj h)
    exact cons_lt_cons_iff.mpr (.inl (by omega))

namespace KeyInfo

/-- Buckets and versions in decreasing order, names in increasing order. -/
theorem lt_iff :
    a < b ↔ b.bucketId < a.bucketId ∨ a.bucketId = b.bucketId ∧
      (a.key.map UInt8.toNat < b.key.map UInt8.toNat ∨
        a.key = b.key ∧ b.version < a.version) := by
  have hlt : a < b ↔ sortKey a < sortKey b := Iff.rfl
  have hname : Function.Injective (List.map UInt8.toNat) :=
    map_injective_iff.mpr fun _ _ => UInt8.toNat.inj
  rw [hlt]
  simp [sortKey, Prod.Lex.toLex_lt_toLex, hname.eq_iff]

theorem commonPrefix_of_between {a b c : KeyInfo} (hab : a ≤ b) (hbc : b ≤ c)
    (hac : a.commonPrefix = c.commonPrefix) :
    b.commonPrefix = a.commonPrefix := by
  obtain ⟨hbucket, hkey⟩ := Prod.mk.inj hac
  rcases eq_or_lt_of_le hab with rfl | hab
  · rfl
  rcases eq_or_lt_of_le hbc with rfl | hbc
  · exact hac.symm
  rcases lt_iff.mp hab with hlow | ⟨hab₁, hab₂⟩
  · rcases lt_iff.mp hbc with hhigh | ⟨hbc₁, -⟩ <;> omega
  rcases lt_iff.mp hbc with hhigh | ⟨-, hbc₂⟩
  · omega
  rcases hab₂ with hlow | ⟨hsame, -⟩
  · rcases hbc₂ with hhigh | ⟨hsame, -⟩
    · rw [← hkey] at hhigh
      exact absurd (hlow.trans hhigh) (lt_irrefl _)
    · rw [hsame, ← hkey] at hlow
      exact absurd hlow (lt_irrefl _)
  · exact Prod.ext hab₁.symm hsame.symm

theorem le_of_version_le (h : a.commonPrefix = b.commonPrefix)
    (hv : b.version ≤ a.version) : a ≤ b := by
  obtain ⟨hbucket, hkey⟩ := Prod.mk.inj h
  refine not_lt.mp fun hlt => ?_
  rcases lt_iff.mp hlt with hlow | ⟨-, hlow | ⟨-, hlow⟩⟩
  · omega
  · rw [hkey] at hlow
    exact absurd hlow (lt_irrefl _)
  · omega

end KeyInfo

/-- The comparison of two encoded keys is the order of what they encode. -/
theorem mdbCmpS3key_compares (ha : a.Encodable) (hb : b.Encodable) :
    (mdbCmpS3key (makeKey a) (makeKey b)).Compares a b := by
  have hname := compareBytes_compares a.key b.key
  have hinj : Function.Injective (List.map UInt8.toNat) :=
    map_injective_iff.mpr fun _ _ => UInt8.toNat.inj
  unfold mdbCmpS3key
  rw [extractKeyInfoView_makeKey ha, extractKeyInfoView_makeKey hb]
  dsimp only
  by_cases hbucket : a.bucketId = b.bucketId
  · rw [if_neg (not_not.mpr hbucket)]
    cases hcmp : compareBytes a.key b.key with
    | lt =>
      rw [hcmp] at hname
      exact KeyInfo.lt_iff.mpr (.inr ⟨hbucket, .inl hname⟩)
    | gt =>
      rw [hcmp] at hname
      exact KeyInfo.lt_iff.mpr (.inr ⟨hbucket.symm, .inl hname⟩)
    | eq =>
      rw [hcmp] at hname
      have hkey : a.key = b.key := hinj hname
      rw [if_neg (by decide)]
      rcases lt_trichotomy a.version b.version with hlt | heq | hgt
      · rw [if_pos hlt]
        exact KeyInfo.lt_iff.mpr
          (.inr ⟨hbucket.symm, .inr ⟨hkey.symm, hlt⟩⟩)
      · rw [if_neg (by omega), if_neg (by omega)]
        obtain ⟨ab, ak, av⟩ := a
        obtain ⟨bb, bk, bv⟩ := b
        dsimp only at hbucket hkey heq
        subst hbucket hkey heq
        rfl
      · rw [if_neg (by omega), if_pos hgt]
        exact KeyInfo.lt_iff.mpr (.inr ⟨hbucket, .inr ⟨hkey, hgt⟩⟩)
  · rw [if_pos hbucket]
    by_cases hlt : a.bucketId < b.bucketId
    · rw [if_pos hlt]
      exact KeyInfo.lt_iff.mpr (.inl hlt)
    · rw [if_neg hlt]
      exact KeyInfo.lt_iff.mpr (.inl (by omega))

/-! ## The main map -/

/-- A database with encoded keys in the order of `mdb_cmp_s3key`. -/
structure MainDb where
  entries : List (Bytes × Bytes)
  keys : ∀ p ∈ entries, ∃ k : KeyInfo, k.Encodable ∧ p.1 = makeKey k
  sorted : entries.Pairwise fun a b => mdbCmpS3key a.1 b.1 = .lt

namespace MainDb

/-- A cursor moved with `MDB_SET_RANGE`. -/
def setRange (db : MainDb) (key : Bytes) : Option (Bytes × Bytes) :=
  db.entries.find? fun p => mdbCmpS3key p.1 key ≠ .lt

def get (db : MainDb) (key : Bytes) : Option Bytes :=
  (db.entries.find? fun p => mdbCmpS3key p.1 key = .eq).map Prod.snd

def fragInfo (parseData : Bool) (fn tvalue : Bytes) : SFragInfo :=
  if parseData then parseFragInfo fn tvalue
  else { SFragInfo.notFound with fn := fn, offset := -2 }

def getFragInfo (db : MainDb) (fn : Bytes) (parseData readNewest : Bool) :
    SFragInfo :=
  if readNewest then
    match db.setRange fn with
    | none => SFragInfo.notFound
    | some (tkey, tvalue) =>
      if s3keyCommonPrefix tkey ≠ s3keyCommonPrefix fn then
        SFragInfo.notFound
      else fragInfo parseData tkey tvalue
  else
    match db.get fn with
    | none => SFragInfo.notFound
    | some tvalue => fragInfo parseData [] tvalue

/-! ## The newest version -/

def Names (bucketId : ℤ) (key : Bytes) (p : Bytes × Bytes) : Prop :=
  (extractKeyInfoView p.1).commonPrefix = (bucketId, key)

structure IsNewest (db : MainDb) (bucketId : ℤ) (key : Bytes)
    (p : Bytes × Bytes) : Prop where
  mem : p ∈ db.entries
  names : Names bucketId key p
  greatest : ∀ q ∈ db.entries, Names bucketId key q →
    (extractKeyInfoView q.1).version ≤ (extractKeyInfoView p.1).version

def maxVersion : ℤ := 2 ^ 63 - 1

variable {db : MainDb} {p q : Bytes × Bytes}

theorem extract_encodable (hp : p ∈ db.entries) :
    (extractKeyInfoView p.1).Encodable ∧
      p.1 = makeKey (extractKeyInfoView p.1) := by
  obtain ⟨k, hk, heq⟩ := db.keys p hp
  rw [heq, extractKeyInfoView_makeKey hk]
  exact ⟨hk, rfl⟩

theorem compares (hp : p ∈ db.entries) (hk : k.Encodable) :
    (mdbCmpS3key p.1 (makeKey k)).Compares (extractKeyInfoView p.1) k := by
  obtain ⟨hfits, heq⟩ := extract_encodable hp
  have h := mdbCmpS3key_compares hfits hk
  rwa [← heq] at h

theorem lt_of_before (hp : p ∈ db.entries) (hq : q ∈ db.entries)
    (h : mdbCmpS3key p.1 q.1 = .lt) :
    extractKeyInfoView p.1 < extractKeyInfoView q.1 := by
  obtain ⟨hfits, heq⟩ := extract_encodable hq
  have hcmp := compares hp hfits
  rw [← heq, h] at hcmp
  exact hcmp

theorem commonPrefix_iff (hp : p ∈ db.entries) (hk : k.Encodable) :
    s3keyCommonPrefix p.1 = s3keyCommonPrefix (makeKey k) ↔
      Names k.bucketId k.key p := by
  unfold s3keyCommonPrefix Names
  rw [extractKeyInfoView_makeKey hk]
  obtain ⟨hfits, -⟩ := extract_encodable hp
  constructor
  · intro h
    have hsame := makeKey_injective hfits.withoutVersion hk.withoutVersion h
    have hparts := KeyInfo.mk.inj hsame
    exact Prod.ext hparts.1 hparts.2.1
  · intro h
    obtain ⟨hbucket, hkey⟩ := Prod.mk.inj h
    dsimp only
    rw [hbucket, hkey]

section Seek

variable {bucketId : ℤ} {key : Bytes}
  (h : (KeyInfo.mk bucketId key maxVersion).Encodable)

theorem seek_le (hp : p ∈ db.entries) (hnames : Names bucketId key p) :
    ⟨bucketId, key, maxVersion⟩ ≤ extractKeyInfoView p.1 := by
  have hversion := (extract_encodable hp).1.version
  refine KeyInfo.le_of_version_le hnames.symm ?_
  unfold IsInt64 at hversion
  dsimp only [maxVersion]
  omega

include h in
theorem setRange_none
    (hnone : db.setRange (makeKey ⟨bucketId, key, maxVersion⟩) = none)
    (hp : p ∈ db.entries) : ¬ Names bucketId key p := by
  intro hnames
  have hbefore := find?_eq_none.mp hnone p hp
  have hlt := (compares hp h).eq_lt.mp (by simpa using hbefore)
  exact absurd hlt (not_lt.mpr (seek_le hp hnames))

include h in
theorem setRange_some
    (hsome : db.setRange (makeKey ⟨bucketId, key, maxVersion⟩) = some q) :
    q ∈ db.entries ∧
      ⟨bucketId, key, maxVersion⟩ ≤ extractKeyInfoView q.1 ∧
      ∀ p ∈ db.entries, Names bucketId key p →
        extractKeyInfoView q.1 ≤ extractKeyInfoView p.1 := by
  have hq := mem_of_find?_eq_some hsome
  obtain ⟨hge, l₁, l₂, heq, hbefore⟩ := find?_eq_some_iff_append.mp hsome
  refine ⟨hq, ?_, ?_⟩
  · exact (compares hq h).ne_lt.mp (by simpa using hge)
  · intro p hp hnames
    have hsorted := db.sorted
    rw [heq, pairwise_append, pairwise_cons] at hsorted
    have hplace := hp
    rw [heq, mem_append, mem_cons] at hplace
    rcases hplace with hl₁ | rfl | hl₂
    · have hlt := (compares hp h).eq_lt.mp (by simpa using hbefore p hl₁)
      exact absurd hlt (not_lt.mpr (seek_le hp hnames))
    · exact le_refl _
    · exact (lt_of_before hq hp (hsorted.2.1.1 p hl₂)).le

include h in
/-- The newest version is found, or nothing if the object has no version. -/
theorem getFragInfo_newest (parseData : Bool) :
    (∃ p, IsNewest db bucketId key p ∧
      db.getFragInfo (makeKey ⟨bucketId, key, maxVersion⟩) parseData true =
        fragInfo parseData p.1 p.2) ∨
    ((∀ p ∈ db.entries, ¬ Names bucketId key p) ∧
      db.getFragInfo (makeKey ⟨bucketId, key, maxVersion⟩) parseData true =
        SFragInfo.notFound) := by
  rw [getFragInfo, if_pos rfl]
  cases hseek : db.setRange (makeKey ⟨bucketId, key, maxVersion⟩) with
  | none => exact .inr ⟨fun p hp => setRange_none h hseek hp, rfl⟩
  | some q =>
    obtain ⟨hq, hge, hfirst⟩ := setRange_some h hseek
    dsimp only
    by_cases hnames : Names bucketId key q
    · left
      refine ⟨q, ⟨hq, hnames, ?_⟩, ?_⟩
      · intro p hp hp'
        refine not_lt.mp fun hlt => ?_
        have hle := KeyInfo.le_of_version_le (hp'.trans hnames.symm) hlt.le
        have heq := le_antisymm hle (hfirst p hp hp')
        rw [heq] at hlt
        exact absurd hlt (lt_irrefl _)
      · have hbegins := (commonPrefix_iff hq h).mpr hnames
        rw [if_neg (not_not.mpr hbegins)]
    · right
      refine ⟨fun p hp hp' => hnames ?_, ?_⟩
      · exact KeyInfo.commonPrefix_of_between hge (hfirst p hp hp') hp'.symm
      · rw [if_pos fun hbegins => hnames ((commonPrefix_iff hq h).mp hbegins)]

end Seek

end MainDb

/-- What the storage relies on, for keys that are encoded in 100 MiB: they are
taken apart again, their comparison is a linear order, and the newest version
is found. -/
structure KeysOk : Prop where
  inverse : ∀ k : KeyInfo, k.Encodable → extractKeyInfoView (makeKey k) = k
  lt_iff : ∀ a b : KeyInfo, a.Encodable → b.Encodable →
    (mdbCmpS3key (makeKey a) (makeKey b) = .lt ↔
      b.bucketId < a.bucketId ∨ a.bucketId = b.bucketId ∧
        (a.key.map UInt8.toNat < b.key.map UInt8.toNat ∨
          a.key = b.key ∧ b.version < a.version))
  eq_iff : ∀ a b : KeyInfo, a.Encodable → b.Encodable →
    (mdbCmpS3key (makeKey a) (makeKey b) = .eq ↔ makeKey a = makeKey b)
  swap : ∀ a b : KeyInfo, a.Encodable → b.Encodable →
    mdbCmpS3key (makeKey b) (makeKey a) =
      (mdbCmpS3key (makeKey a) (makeKey b)).swap
  trans : ∀ a b c : KeyInfo, a.Encodable → b.Encodable → c.Encodable →
    mdbCmpS3key (makeKey a) (makeKey b) ≠ .gt →
    mdbCmpS3key (makeKey b) (makeKey c) ≠ .gt →
    mdbCmpS3key (makeKey a) (makeKey c) ≠ .gt
  newest : ∀ (db : MainDb) (bucketId : ℤ) (key : Bytes) (parseData : Bool),
    (KeyInfo.mk bucketId key MainDb.maxVersion).Encodable →
    (∃ p, MainDb.IsNewest db bucketId key p ∧
      db.getFragInfo (makeKey ⟨bucketId, key, MainDb.maxVersion⟩) parseData
        true = MainDb.fragInfo parseData p.1 p.2) ∨
    ((∀ p ∈ db.entries, ¬ MainDb.Names bucketId key p) ∧
      db.getFragInfo (makeKey ⟨bucketId, key, MainDb.maxVersion⟩) parseData
        true = SFragInfo.notFound)

theorem keysOk : KeysOk where
  inverse _ h := extractKeyInfoView_makeKey h
  lt_iff _ _ ha hb := (mdbCmpS3key_compares ha hb).eq_lt.trans KeyInfo.lt_iff
  eq_iff a b ha hb := by
    rw [(mdbCmpS3key_compares ha hb).eq_eq]
    exact ⟨congrArg makeKey, makeKey_injective ha hb⟩
  swap _ _ ha hb := (mdbCmpS3key_compares hb ha).inj
    (Ordering.compares_swap.mpr (mdbCmpS3key_compares ha hb))
  trans a b c ha hb hc hab hbc := by
    rw [(mdbCmpS3key_compares ha hb).ne_gt] at hab
    rw [(mdbCmpS3key_compares hb hc).ne_gt] at hbc
    rw [(mdbCmpS3key_compares ha hc).ne_gt]
    exact hab.trans hbc
  newest _ _ _ parseData h := MainDb.getFragInfo_newest h parseData

/-- Of two versions of an object the newer one comes first. -/
theorem keysOk_versioned :
    extractKeyInfoView (makeKey ⟨3, ascii "a", 7⟩) = ⟨3, ascii "a", 7⟩ ∧
      mdbCmpS3key (makeKey ⟨3, ascii "a", 7⟩) (makeKey ⟨3, ascii "a", 5⟩) =
        .lt := by
  have hnew : (KeyInfo.mk 3 (ascii "a") 7).Encodable :=
    ⟨by decide, by decide, by decide⟩
  have hold : (KeyInfo.mk 3 (ascii "a") 5).Encodable :=
    ⟨by decide, by decide, by decide⟩
  exact ⟨keysOk.inverse _ hnew,
    (keysOk.lt_iff _ _ hnew hold).mpr (.inr ⟨rfl, .inr ⟨rfl, by decide⟩⟩)⟩

/-! ## Keys over the limit -/

theorem extractKeyInfoView_key (key : Bytes) :
    (extractKeyInfoView key).key.length < maxRData ∨
      (extractKeyInfoView key).key = key := by
  have htake := length_take_le maxRData key
  unfold extractKeyInfoView
  cases hbytes : key.take maxRData with
  | nil => exact .inr rfl
  | cons version rdata =>
    rw [hbytes, length_cons] at htake
    dsimp only
    cases hbucket : getVarInt rdata with
    | none => exact .inr rfl
    | some r =>
      obtain ⟨bucketId, rdata'⟩ := r
      have hfirst := consumes_getVarInt _ _ _ hbucket
      dsimp only
      by_cases hzero : version = 0
      · rw [if_pos hzero]
        left
        dsimp only
        omega
      by_cases hone : version = 1
      · rw [if_neg hzero, if_neg (not_not.mpr hone)]
        cases hversion : getVarInt rdata' with
        | none => exact .inr rfl
        | some r =>
          have hsecond := consumes_getVarInt _ _ _ hversion
          left
          dsimp only
          omega
      · rw [if_neg hzero, if_pos hone]
        exact .inr rfl

theorem extractKeyInfoView_ne (h : maxRData ≤ k.key.length) :
    extractKeyInfoView (makeKey k) ≠ k := by
  intro heq
  have hkey := extractKeyInfoView_key (makeKey k)
  rw [heq] at hkey
  rcases hkey with hlt | hsame
  · omega
  · have hmore := congrArg List.length hsame
    rw [makeKey] at hmore
    simp only [length_cons, length_append] at hmore
    omega

/-- A name of `n` zero bytes in the first bucket. -/
def zeroName (n : ℕ) : KeyInfo := ⟨1, List.replicate n 0, 0⟩

theorem not_inverse_zeroName :
    IsInt64 (zeroName maxRData).bucketId ∧
      IsInt64 (zeroName maxRData).version ∧
      extractKeyInfoView (makeKey (zeroName maxRData)) ≠
        zeroName maxRData :=
  ⟨(by decide : IsInt64 1), (by decide : IsInt64 0),
    extractKeyInfoView_ne length_replicate.ge⟩

end Hs5
