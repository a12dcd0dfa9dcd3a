import Hs5.Data.VarInt
import Hs5.Support.Parser
import Mathlib.Tactic.Ring

/-!
# `CWData` and `CRData`

The functions of the two stream classes that the log uses.  An `add` function
returns the bytes it appends, a `get` function is a reader.  The source reads
a variable-length integer with unrolled code; `getVarint` is the loop behind
it: up to eight bytes of seven bits while the high bit is set, and then a
ninth byte of eight bits.
-/

namespace Hs5

open List Parser

/-- The range of `int64_t`. -/
def IsInt64 (v : ℤ) : Prop := -2 ^ 63 ≤ v ∧ v < 2 ^ 63
  deriving Decidable

/-! ## Functions -/

/-- `addUInt`, little endian. -/
def addUInt (v : ℕ) : Bytes :=
  [UInt8.ofNat (v % 256), UInt8.ofNat (v / 2 ^ 8 % 256),
    UInt8.ofNat (v / 2 ^ 16 % 256), UInt8.ofNat (v / 2 ^ 24 % 256)]

/-- The unsigned integer that the source copies out of four bytes. -/
def uintAt : Bytes → ℕ
  | b₀ :: b₁ :: b₂ :: b₃ :: _ =>
    b₀.toNat + b₁.toNat * 2 ^ 8 + b₂.toNat * 2 ^ 16 + b₃.toNat * 2 ^ 24
  | _ => 0

def addString2 (s : Bytes) : Bytes := addVarInt s.length ++ s

/-- `CRData` looks at 100 MiB at most. -/
def maxRData : ℕ := 100 * 1024 * 1024

def getChar : Parser UInt8 UInt8 := token

/-- The rest of a variable-length integer of which `acc` has been read and
which has `n` more bytes of seven bits at most. -/
def getVarintFrom : ℕ → ℕ → Parser UInt8 ℕ
  | 0, acc => do
      let b ← token
      pure (acc * 256 + b.toNat)
  | n + 1, acc => do
      let b ← token
      if b.toNat < 128 then pure (acc * 128 + b.toNat)
      else getVarintFrom n (acc * 128 + b.toNat % 128)

/-- `sqlite3GetVarint` -/
def getVarint : Parser UInt8 ℕ := getVarintFrom 8 0

def getVarInt : Parser UInt8 ℤ := do
  let v ← getVarint
  pure (BitVec.ofNat 64 v).toInt

/-- `getStr2`: strings of up to 10 MiB. -/
def getStr2 : Parser UInt8 Bytes := do
  let strlen ← getVarInt
  if strlen > 10 * 1024 * 1024 ∨ strlen < 0 then failure
  else takeN strlen.toNat

/-! ## Variable-length integers -/

def pushGroup (acc : ℕ) (b : UInt8) : ℕ := acc * 128 + b.toNat % 128

theorem getVarintFrom_high {n acc : ℕ} {hs rest : Bytes}
    (hhigh : ∀ b ∈ hs, 128 ≤ b.toNat) :
    getVarintFrom (hs.length + n) acc (hs ++ rest) =
      getVarintFrom n (hs.foldl pushGroup acc) rest := by
  induction hs generalizing acc with
  | nil => simp
  | cons b hs ih =>
    have hb : ¬ b.toNat < 128 := by
      have := hhigh b (mem_cons_self ..)
      omega
    have hlen : (b :: hs).length + n = hs.length + n + 1 := by
      simp only [length_cons]
      omega
    rw [hlen, getVarintFrom, cons_append]
    rw [run_bind (token_cons b (hs ++ rest)), if_neg hb]
    exact ih fun b' hb' => hhigh b' (mem_cons_of_mem _ hb')

theorem toNat_group (v : ℕ) : (UInt8.ofNat (v % 128 + 128)).toNat =
    v % 128 + 128 := by
  rw [UInt8.toNat_ofNat']
  omega

@[simp]
theorem length_varintFixed (n v : ℕ) : (varintFixed n v).length = n := by
  induction n generalizing v with
  | zero => rfl
  | succ n ih => simp [varintFixed, ih]

theorem high_of_mem_varintFixed {n v : ℕ} {b : UInt8}
    (h : b ∈ varintFixed n v) : 128 ≤ b.toNat := by
  induction n generalizing v with
  | zero => cases h
  | succ n ih =>
    rcases mem_cons.mp h with rfl | h
    · rw [toNat_group]
      omega
    · exact ih h

theorem foldl_pushGroup_varintFixed {n v acc : ℕ} (hv : v < 128 ^ n) :
    (varintFixed n v).reverse.foldl pushGroup acc = acc * 128 ^ n + v := by
  induction n generalizing v with
  | zero =>
    have hzero : v = 0 := by simpa using hv
    simp [varintFixed, hzero]
  | succ n ih =>
    have hdiv : v / 128 < 128 ^ n := by
      rw [Nat.div_lt_iff_lt_mul (by decide), ← pow_succ]
      exact hv
    rw [varintFixed, reverse_cons, foldl_append, ih hdiv]
    have hmod : (v % 128 + 128) % 128 = v % 128 := by omega
    have hsplit := Nat.div_add_mod v 128
    simp only [foldl_cons, foldl_nil, pushGroup, toNat_group, hmod]
    calc (acc * 128 ^ n + v / 128) * 128 + v % 128
        = acc * 128 ^ (n + 1) + (128 * (v / 128) + v % 128) := by ring
      _ = acc * 128 ^ (n + 1) + v := by rw [hsplit]

theorem varintGroups_eq {n k v : ℕ} (hk : 0 < k) (hkn : k ≤ n)
    (hv : v < 128 ^ k) :
    ∃ m < k, (m = 0 ∨ 128 ^ m ≤ v) ∧ v < 128 ^ (m + 1) ∧
      varintGroups n v = varintFixed (m + 1) v := by
  induction n generalizing k v with
  | zero => omega
  | succ n ih =>
    by_cases hdiv : v / 128 = 0
    · refine ⟨0, hk, .inl rfl, by omega, ?_⟩
      simp [varintGroups, varintFixed, hdiv]
    · obtain ⟨k, rfl⟩ : ∃ k', k = k' + 1 := ⟨k - 1, by omega⟩
      have hlt : v / 128 < 128 ^ k := by
        rw [Nat.div_lt_iff_lt_mul (by decide), ← pow_succ]
        exact hv
      have hk : 0 < k := by
        rcases Nat.eq_zero_or_pos k with rfl | hpos
        · simp only [pow_zero] at hlt
          omega
        · exact hpos
      obtain ⟨m, hm, hmin, hvm, heq⟩ := ih hk (by omega) hlt
      refine ⟨m + 1, by omega, .inr ?_, ?_, ?_⟩
      · have hpow : 128 ^ m ≤ v / 128 := by
          rcases hmin with rfl | hle
          · omega
          · exact hle
        rw [pow_succ]
        exact (Nat.le_div_iff_mul_le (by decide)).mp hpow
      · rw [pow_succ]
        exact (Nat.div_lt_iff_lt_mul (by decide)).mp hvm
      · rw [varintGroups, if_neg hdiv, heq]
        rfl

/-- How many values the last byte has behind `m` others: a ninth byte carries
eight bits. -/
def lastBase (m : ℕ) : ℕ := if m < 8 then 128 else 256

theorem low_group (v : ℕ) :
    UInt8.ofNat (v % 128 + 128) &&& 0x7f = UInt8.ofNat (v % 128) := by
  apply UInt8.toNat_inj.mp
  rw [UInt8.toNat_and, toNat_group, UInt8.toNat_ofNat']
  rw [show (0x7f : UInt8).toNat = 2 ^ 7 - 1 from rfl,
    Nat.and_two_pow_sub_one_eq_mod]
  omega

theorem putVarint_eq {v : ℕ} (hv : v < 2 ^ 64) :
    ∃ m ≤ 8, (m = 0 ∨ 128 ^ m ≤ v) ∧ v < 128 ^ m * lastBase m ∧
      putVarint v = (varintFixed m (v / lastBase m)).reverse ++
        [UInt8.ofNat (v % lastBase m)] := by
  unfold putVarint
  split
  · refine ⟨0, by decide, .inl rfl, ?_, ?_⟩
    · change v < 128 ^ 0 * 128
      omega
    · rw [show lastBase 0 = 128 from rfl, Nat.mod_eq_of_lt (by omega)]
      rfl
  · split
    · refine ⟨1, by decide, .inr (by omega), ?_, rfl⟩
      change v < 128 ^ 1 * 128
      omega
    · unfold putVarint64
      split
      · refine ⟨8, le_rfl, .inr (by omega), ?_, reverse_cons⟩
        change v < 128 ^ 8 * 256
        omega
      · obtain ⟨m, hm, hmin, hvm, heq⟩ :=
          varintGroups_eq (n := 9) (k := 8) (v := v) (by decide) (by decide)
            (by omega)
        have hbase : lastBase m = 128 := if_pos hm
        refine ⟨m, hm.le, hmin, by rwa [hbase, ← pow_succ], ?_⟩
        rw [heq, varintFixed]
        dsimp only
        rw [low_group, reverse_cons, hbase]

theorem reads_putVarint {v : ℕ} (hv : v < 2 ^ 64) :
    Reads getVarint (putVarint v) v := by
  obtain ⟨m, hm, -, hvm, heq⟩ := putVarint_eq hv
  intro rest
  have hbase : lastBase m = 128 ∨ lastBase m = 256 := by
    unfold lastBase
    split <;> simp
  have hpos : 0 < lastBase m := by omega
  have hlow : (UInt8.ofNat (v % lastBase m)).toNat = v % lastBase m := by
    have hmod := Nat.mod_lt v hpos
    rw [UInt8.toNat_ofNat', Nat.mod_eq_of_lt (by omega)]
  have hdiv : v / lastBase m < 128 ^ m := (Nat.div_lt_iff_lt_mul hpos).mpr hvm
  have hsplit : v / lastBase m * lastBase m + v % lastBase m = v :=
    Nat.div_add_mod' v _
  have hsteps : 8 = (varintFixed m (v / lastBase m)).reverse.length + (8 - m) := by
    simp only [length_reverse, length_varintFixed]
    omega
  rw [heq, getVarint, append_assoc, hsteps, getVarintFrom_high,
    foldl_pushGroup_varintFixed hdiv, Nat.zero_mul, Nat.zero_add,
    singleton_append]
  · rcases hm.lt_or_eq with hlt | rfl
    · rw [show lastBase m = 128 from if_pos hlt] at *
      rw [show 8 - m = 7 - m + 1 by omega, getVarintFrom,
        run_bind (token_cons _ rest), if_pos (by omega), hlow, hsplit]
      rfl
    · rw [show lastBase 8 = 256 from rfl] at *
      rw [Nat.sub_self, getVarintFrom, run_bind (token_cons _ rest), hlow,
        hsplit]
      rfl
  · intro b hb
    exact high_of_mem_varintFixed (mem_reverse.mp hb)

theorem reads_getVarInt {v : ℤ} (hv : IsInt64 v) :
    Reads getVarInt (addVarInt v) v := by
  have hread := (reads_putVarint (BitVec.ofInt 64 v).isLt).bind_pure
    (f := fun n => (BitVec.ofNat 64 n).toInt)
  have hback : (BitVec.ofNat 64 (BitVec.ofInt 64 v).toNat).toInt = v := by
    rw [BitVec.ofNat_toNat, BitVec.setWidth_eq, BitVec.toInt_ofInt]
    obtain ⟨hlow, hhigh⟩ := hv
    exact Int.bmod_eq_of_le (by omega) (by omega)
  rwa [hback] at hread

theorem length_addVarInt_le (v : ℤ) : (addVarInt v).length ≤ 9 := by
  obtain ⟨m, hm, -, -, heq⟩ := putVarint_eq (BitVec.ofInt 64 v).isLt
  rw [addVarInt, heq, length_append, length_reverse,
    length_varintFixed, length_singleton]
  omega

theorem length_addVarInt_pos (v : ℤ) : 0 < (addVarInt v).length := by
  obtain ⟨m, -, -, -, heq⟩ := putVarint_eq (BitVec.ofInt 64 v).isLt
  rw [addVarInt, heq]
  simp

theorem exists_getVarintFrom {n : ℕ} (acc : ℕ) {l : Bytes} (t : Bytes)
    (hl : l.length ≤ n) : ∃ v l', getVarintFrom n acc (l ++ 0 :: t) =
      some (v, l' ++ t) ∧ l'.length ≤ l.length := by
  induction l generalizing n acc with
  | nil =>
    cases n with
    | zero => exact ⟨_, [], rfl, le_rfl⟩
    | succ n => exact ⟨_, [], rfl, le_rfl⟩
  | cons b l ih =>
    obtain ⟨n, rfl⟩ : ∃ m, n = m + 1 := ⟨n - 1, by simp at hl; omega⟩
    rw [getVarintFrom, cons_append, run_bind (token_cons b (l ++ 0 :: t))]
    split
    · exact ⟨_, l ++ [0], by rw [append_assoc]; rfl, by simp⟩
    · obtain ⟨v, l', hread, hle⟩ := ih _ (Nat.le_of_succ_le_succ hl)
      exact ⟨v, l', hread, hle.trans (Nat.le_succ _)⟩

/-- A byte of zero ends a number at the latest. -/
theorem exists_getVarInt {l : Bytes} (t : Bytes) (hl : l.length ≤ 8) :
    ∃ v l', getVarInt (l ++ 0 :: t) = some (v, l' ++ t) ∧
      l'.length ≤ l.length := by
  obtain ⟨v, l', hread, hle⟩ := exists_getVarintFrom 0 t hl
  exact ⟨_, l', run_bind hread, hle⟩

/-! ## Strings and unsigned integers -/

def maxStr2 : ℕ := 10 * 1024 * 1024

theorem reads_getStr2 {s : Bytes} (hs : s.length ≤ maxStr2) :
    Reads getStr2 (addString2 s) s := by
  have hlen : IsInt64 s.length := by
    simp only [maxStr2, IsInt64] at *
    omega
  refine (reads_getVarInt hlen).bind ?_
  have hlimit : ¬ ((s.length : ℤ) > 10 * 1024 * 1024 ∨ (s.length : ℤ) < 0) := by
    simp only [maxStr2] at hs
    omega
  rw [if_neg hlimit, Int.toNat_natCast]
  exact reads_takeN s

@[simp]
theorem length_addUInt (v : ℕ) : (addUInt v).length = 4 := rfl

theorem uintAt_addUInt {v : ℕ} (hv : v < 2 ^ 32) (rest : Bytes) :
    uintAt (addUInt v ++ rest) = v := by
  simp only [addUInt, uintAt, cons_append, UInt8.toNat_ofNat']
  omega

/-! ## Integers of fixed length -/

/-- The `n` lowest bytes of a number, little endian. -/
def littleEndian : ℕ → ℕ → Bytes
  | 0, _ => []
  | n + 1, v => UInt8.ofNat (v % 256) :: littleEndian n (v / 256)

def leNat : Bytes → ℕ
  | [] => 0
  | b :: bs => b.toNat + 256 * leNat bs

def addInt64 (v : ℤ) : Bytes := littleEndian 8 (BitVec.ofInt 64 v).toNat

def getInt64 : Parser UInt8 ℤ := do
  let bytes ← takeN 8
  pure (BitVec.ofNat 64 (leNat bytes)).toInt

theorem length_littleEndian (n v : ℕ) : (littleEndian n v).length = n := by
  induction n generalizing v with
  | zero => rfl
  | succ n ih => simp [littleEndian, ih]

theorem leNat_littleEndian {n v : ℕ} (h : v < 256 ^ n) :
    leNat (littleEndian n v) = v := by
  induction n generalizing v with
  | zero => exact (Nat.lt_one_iff.mp h).symm
  | succ n ih =>
    have hdiv : v / 256 < 256 ^ n := by
      rw [Nat.div_lt_iff_lt_mul (by decide), ← pow_succ]
      exact h
    rw [littleEndian, leNat, ih hdiv, UInt8.toNat_ofNat']
    omega

theorem reads_getInt64 {v : ℤ} (hv : IsInt64 v) :
    Reads getInt64 (addInt64 v) v := by
  have hread := reads_takeN (addInt64 v)
  rw [addInt64, length_littleEndian] at hread
  have hback : (BitVec.ofNat 64 (leNat (addInt64 v))).toInt = v := by
    rw [addInt64, leNat_littleEndian (BitVec.isLt _), BitVec.ofNat_toNat,
      BitVec.setWidth_eq, BitVec.toInt_ofInt]
    obtain ⟨hlow, hhigh⟩ := hv
    exact Int.bmod_eq_of_le (by omega) (by omega)
  have h := hread.bind_pure (f := fun s => (BitVec.ofNat 64 (leNat s)).toInt)
  rwa [← addInt64, hback] at h

theorem addInt64_of_lt {v : ℕ} (hv : v < 2 ^ 32) :
    addInt64 v = littleEndian 4 v ++ [0, 0, 0, 0] := by
  have hzero : v / 256 / 256 / 256 / 256 = 0 := by omega
  rw [addInt64, BitVec.ofInt_natCast, BitVec.toNat_ofNat,
    Nat.mod_eq_of_lt (by omega)]
  change littleEndian 4 v ++ littleEndian 4 (v / 256 / 256 / 256 / 256) = _
  rw [hzero]
  rfl

/-! ## Integers of 32 bits -/

/-- What a cast to `int` keeps. -/
def castInt (v : ℤ) : ℤ := (BitVec.ofInt 32 v).toInt

def IsInt32 (v : ℤ) : Prop := -2 ^ 31 ≤ v ∧ v < 2 ^ 31
  deriving Decidable

theorem castInt_eq {v : ℤ} (h : IsInt32 v) : castInt v = v := by
  obtain ⟨hlow, hhigh⟩ := h
  rw [castInt, BitVec.toInt_ofInt]
  exact Int.bmod_eq_of_le (by omega) (by omega)

theorem IsInt32.isInt64 {v : ℤ} (h : IsInt32 v) : IsInt64 v := by
  obtain ⟨hlow, hhigh⟩ := h
  exact ⟨by omega, by omega⟩

end Hs5
