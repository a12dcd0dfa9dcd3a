import Hs5.Data.Serialize

/-!
# The order of the free map index

LMDB keeps `dbi_free` in the order of `mdb_cmp_varint` and `dbi_free_len` in
the order of `mdb_cmp_varint_rev`.  Both look at the bytes of encoded numbers
and decode nothing: the longer string is the greater one, and strings of the
same length are compared byte by byte.
-/

namespace Hs5

/-- `memcmp` of strings of the same length. -/
def memcmp : Bytes → Bytes → ℤ
  | x :: a, y :: b => if x = y then memcmp a b else x.toNat - y.toNat
  | _, _ => 0

def mdbCmpVarint (a b : Bytes) : ℤ :=
  if a.length ≠ b.length then if a.length < b.length then -1 else 1
  else memcmp a b

def mdbCmpVarintRev (a b : Bytes) : ℤ := -1 * mdbCmpVarint a b

theorem memcmp_concat {x y : Bytes} (hlen : x.length = y.length)
    (a b : UInt8) :
    memcmp (x ++ [a]) (y ++ [b]) =
      if memcmp x y = 0 then (a.toNat : ℤ) - b.toNat else memcmp x y := by
  induction x generalizing y with
  | nil =>
    obtain rfl := List.length_eq_zero_iff.mp hlen.symm
    by_cases heq : a = b
    · simp [memcmp, heq]
    · simp [memcmp, heq]
  | cons c x ih =>
    obtain ⟨d, y, rfl⟩ := List.exists_cons_of_length_eq_add_one hlen.symm
    by_cases heq : c = d
    · simpa [memcmp, heq] using ih (Nat.succ.inj hlen)
    · have hne : (c.toNat : ℤ) - d.toNat ≠ 0 := by
        rw [sub_ne_zero]
        exact_mod_cast mt UInt8.toNat_inj.mp heq
      simp [memcmp, heq, hne]

theorem sign_memcmp_concat {x y : Bytes} {a b : UInt8} {u v q high : ℕ}
    (hlen : x.length = y.length)
    (hxy : (memcmp x y).sign = ((u / q : ℕ) - (v / q : ℕ) : ℤ).sign)
    (ha : a.toNat = u % q + high) (hb : b.toNat = v % q + high) :
    (memcmp (x ++ [a]) (y ++ [b])).sign = (u - v : ℤ).sign := by
  have hu := Nat.div_add_mod u q
  have hv := Nat.div_add_mod v q
  rw [memcmp_concat hlen]
  split
  · rename_i hzero
    rw [hzero, Int.sign_zero, eq_comm, Int.sign_eq_zero_iff_zero, sub_eq_zero]
      at hxy
    have hdiv : u / q = v / q := by exact_mod_cast hxy
    rw [hdiv] at hu
    congr 1
    omega
  · rw [hxy]
    rcases lt_trichotomy (u / q) (v / q) with hlt | heq | hgt
    · have huv : u < v := lt_of_not_ge fun hle =>
        absurd (Nat.div_le_div_right (c := q) hle) (by omega)
      rw [Int.sign_eq_neg_one_of_neg (by omega),
        Int.sign_eq_neg_one_of_neg (by omega)]
    · rw [heq, sub_self, Int.sign_zero, Int.sign_eq_zero_iff_zero] at hxy
      contradiction
    · have huv : v < u := lt_of_not_ge fun hle =>
        absurd (Nat.div_le_div_right (c := q) hle) (by omega)
      rw [Int.sign_eq_one_of_pos (by omega), Int.sign_eq_one_of_pos (by omega)]

theorem sign_memcmp_varintFixed {n u v : ℕ} (hu : u < 128 ^ n)
    (hv : v < 128 ^ n) :
    (memcmp (varintFixed n u).reverse (varintFixed n v).reverse).sign =
      (u - v : ℤ).sign := by
  induction n generalizing u v with
  | zero =>
    obtain rfl := Nat.lt_one_iff.mp hu
    obtain rfl := Nat.lt_one_iff.mp hv
    rfl
  | succ n ih =>
    have hdiv : ∀ w : ℕ, w < 128 ^ (n + 1) → w / 128 < 128 ^ n := by
      intro w hw
      rwa [Nat.div_lt_iff_lt_mul (by decide), ← pow_succ]
    simp only [varintFixed, List.reverse_cons]
    exact sign_memcmp_concat (by simp) (ih (hdiv u hu) (hdiv v hv))
      (toNat_group u) (toNat_group v)

theorem lt_of_fewer_bytes {u v m n : ℕ} (hlt : m < n) (hn : n ≤ 8)
    (hu : u < 128 ^ m * lastBase m) (hv : n = 0 ∨ 128 ^ n ≤ v) : u < v := by
  rw [show lastBase m = 128 from if_pos (by omega), ← pow_succ] at hu
  have hpow : 128 ^ (m + 1) ≤ 128 ^ n := Nat.pow_le_pow_right (by decide) hlt
  omega

theorem sign_mdbCmpVarint {u v : ℕ} (hu : u < 2 ^ 64) (hv : v < 2 ^ 64) :
    (mdbCmpVarint (putVarint u) (putVarint v)).sign = (u - v : ℤ).sign := by
  obtain ⟨m, hm, hmin, humax, hub⟩ := putVarint_eq hu
  obtain ⟨n, hn, hnmin, hvmax, hvb⟩ := putVarint_eq hv
  have hlen : ∀ k w : ℕ, ((varintFixed k (w / lastBase k)).reverse ++
      [UInt8.ofNat (w % lastBase k)]).length = k + 1 := by simp
  rw [mdbCmpVarint, hub, hvb, hlen, hlen]
  rcases lt_trichotomy m n with hlt | rfl | hgt
  · have huv := lt_of_fewer_bytes hlt hn humax hnmin
    rw [if_pos (by omega), if_pos (by omega),
      Int.sign_eq_neg_one_of_neg (a := u - v) (by omega)]
    rfl
  · rw [if_neg (by simp)]
    have hpos : 0 < lastBase m := Nat.pos_of_ne_zero fun hzero => by
      rw [hzero, Nat.mul_zero] at humax
      omega
    have hbyte : ∀ w, (UInt8.ofNat (w % lastBase m)).toNat =
        w % lastBase m + 0 := by
      intro w
      have hmod := Nat.mod_lt w hpos
      have hle : lastBase m ≤ 256 := by
        unfold lastBase
        split <;> simp
      rw [UInt8.toNat_ofNat', Nat.mod_eq_of_lt (by omega)]
      rfl
    exact sign_memcmp_concat (by simp)
      (sign_memcmp_varintFixed ((Nat.div_lt_iff_lt_mul hpos).mpr humax)
        ((Nat.div_lt_iff_lt_mul hpos).mpr hvmax)) (hbyte u) (hbyte v)
  · have huv := lt_of_fewer_bytes hgt hm hvmax hmin
    rw [if_pos (by omega), if_neg (by omega),
      Int.sign_eq_one_of_pos (a := u - v) (by omega)]
    rfl

theorem addVarInt_of_nonneg {k : ℤ} (hk : 0 ≤ k ∧ k < 2 ^ 63) :
    addVarInt k = putVarint k.toNat := by
  obtain ⟨n, rfl⟩ := Int.eq_ofNat_of_zero_le hk.1
  rw [addVarInt, BitVec.ofInt_natCast, BitVec.toNat_ofNat,
    Int.toNat_natCast, Nat.mod_eq_of_lt (by omega)]

theorem sign_mdbCmpVarint_of_nonneg {a b : ℤ} (ha : 0 ≤ a ∧ a < 2 ^ 63)
    (hb : 0 ≤ b ∧ b < 2 ^ 63) :
    (mdbCmpVarint (addVarInt a) (addVarInt b)).sign = (a - b).sign := by
  rw [addVarInt_of_nonneg ha, addVarInt_of_nonneg hb,
    sign_mdbCmpVarint (by omega) (by omega), Int.toNat_of_nonneg ha.1,
    Int.toNat_of_nonneg hb.1]

/-- The two comparators on the bytes of all 64-bit values, and the order in
which a cursor goes over keys of the two databases. -/
theorem mdbCmpVarint_order :
    (∀ u v : BitVec 64,
      (mdbCmpVarint (addVarInt u.toInt) (addVarInt v.toInt)).sign =
          (u.toNat - v.toNat : ℤ).sign ∧
        (mdbCmpVarintRev (addVarInt u.toInt) (addVarInt v.toInt)).sign =
          -(u.toNat - v.toNat : ℤ).sign ∧
        (mdbCmpVarint (addVarInt u.toInt) (addVarInt v.toInt) = 0 ↔ u = v)) ∧
      ∀ keys : List ℤ, (∀ k ∈ keys, 0 ≤ k ∧ k < 2 ^ 63) →
        (keys.Pairwise (fun a b =>
            mdbCmpVarint (addVarInt a) (addVarInt b) < 0) ↔
          keys.Pairwise (· < ·)) ∧
        (keys.Pairwise (fun a b =>
            mdbCmpVarintRev (addVarInt a) (addVarInt b) ≤ 0) ↔
          keys.Pairwise (· ≥ ·)) := by
  have hrev : ∀ a b, mdbCmpVarintRev a b = -mdbCmpVarint a b := by
    intro a b
    rw [mdbCmpVarintRev, neg_one_mul]
  refine ⟨fun u v => ?_, fun keys hkeys => ⟨?_, ?_⟩⟩
  · have hbytes : ∀ w : BitVec 64, addVarInt w.toInt = putVarint w.toNat := by
      intro w
      rw [addVarInt, BitVec.ofInt_toInt]
    have hsign := sign_mdbCmpVarint u.isLt v.isLt
    rw [hrev, hbytes, hbytes, Int.sign_neg, hsign]
    refine ⟨rfl, rfl, ?_⟩
    rw [← Int.sign_eq_zero_iff_zero, hsign, Int.sign_eq_zero_iff_zero,
      sub_eq_zero, Nat.cast_inj, BitVec.toNat_inj]
  · refine List.Pairwise.iff_of_mem fun {a b} ha hb => ?_
    rw [← Int.sign_eq_neg_one_iff_neg,
      sign_mdbCmpVarint_of_nonneg (hkeys a ha) (hkeys b hb),
      Int.sign_eq_neg_one_iff_neg, sub_neg]
  · refine List.Pairwise.iff_of_mem fun {a b} ha hb => ?_
    rw [hrev, neg_nonpos, ← Int.sign_nonneg_iff,
      sign_mdbCmpVarint_of_nonneg (hkeys a ha) (hkeys b hb),
      Int.sign_nonneg_iff, sub_nonneg]

end Hs5
