import Hs5.Data.Serialize

/-!
# The unrolled reader of variable-length integers

`sqlite3GetVarint` reads up to nine bytes with unrolled code.  It collects the
bytes with even numbers in `a` and those with odd numbers in `b`, fourteen bits
apart, in 32-bit variables, masks the high bits of several bytes at once, and
saves in `s` what would be shifted out.  Each of the functions below reads one
more byte.
-/

namespace Hs5

open Parser

/-! ## The reader -/

def shl32 (a k : ℕ) : ℕ := (a <<< k) % 2 ^ 32

def slot20 : ℕ := 0x001fc07f

def slot420 : ℕ := 0xf01fc07f

def ninthByte (a b s p4 : ℕ) : Parser UInt8 ℕ := do
  let p ← token
  let a := shl32 a 15 ||| p.toNat
  let b := shl32 (b &&& slot20) 8
  let a := a ||| b
  let s := shl32 s 4
  let b := (p4 &&& 0x7f) >>> 3
  let s := s ||| b
  pure (s <<< 32 ||| a)

def eighthByte (a b s p4 : ℕ) : Parser UInt8 ℕ := do
  let p ← token
  let b := shl32 b 14 ||| p.toNat
  if b &&& 0x80 = 0 then
    pure ((s >>> 4) <<< 32 ||| (shl32 a 7 ||| b &&& slot420))
  else ninthByte a b s p4

def seventhByte (a b s p4 : ℕ) : Parser UInt8 ℕ := do
  let p ← token
  let a := shl32 a 14 ||| p.toNat
  if a &&& 0x80 = 0 then
    pure ((s >>> 11) <<< 32 ||| (a &&& slot420 ||| shl32 (b &&& slot20) 7))
  else eighthByte (a &&& slot20) b s p4

def sixthByte (a b s p4 : ℕ) : Parser UInt8 ℕ := do
  let p ← token
  let b := shl32 b 14 ||| p.toNat
  if b &&& 0x80 = 0 then
    pure ((s >>> 18) <<< 32 ||| (shl32 (a &&& slot20) 7 ||| b))
  else seventhByte a b s p4

def fifthByte (a b s : ℕ) : Parser UInt8 ℕ := do
  let p ← token
  let a := shl32 a 14 ||| p.toNat
  if a &&& 0x80 = 0 then
    pure ((s >>> 18) <<< 32 ||| (a ||| shl32 b 7))
  else sixthByte a b (shl32 s 7 ||| b) p.toNat

def fourthByte (a b : ℕ) : Parser UInt8 ℕ := do
  let p ← token
  let b := shl32 b 14 ||| p.toNat
  if b &&& 0x80 = 0 then pure (shl32 a 7 ||| b &&& slot20)
  else fifthByte a (b &&& slot20) a

def thirdByte (a b : ℕ) : Parser UInt8 ℕ := do
  let p ← token
  let a := shl32 a 14 ||| p.toNat
  if a &&& 0x80 = 0 then
    pure (a &&& slot20 ||| shl32 (b &&& 0x7f) 7)
  else fourthByte (a &&& slot20) b

def secondByte (a : ℕ) : Parser UInt8 ℕ := do
  let p ← token
  let b := p.toNat
  if b &&& 0x80 = 0 then pure (shl32 (a &&& 0x7f) 7 ||| b)
  else thirdByte a b

def sqlite3GetVarint : Parser UInt8 ℕ := do
  let p ← token
  let a := p.toNat
  if a &&& 0x80 = 0 then pure a
  else secondByte a

/-! ## Groups of seven bits -/

/-- A 32-bit variable from its groups, most significant first. -/
def groups (d₄ d₃ d₂ d₁ d₀ : ℕ) : ℕ :=
  (((d₄ * 128 + d₃) * 128 + d₂) * 128 + d₁) * 128 + d₀

section Groups

variable {d₄ d₃ d₂ d₁ d₀ e₄ e₃ e₂ e₁ e₀ : ℕ}

theorem mul_add_div {k x u : ℕ} (hu : u < 2 ^ k) :
    (x * 2 ^ k + u) / 2 ^ k = x := by
  rw [Nat.add_comm, Nat.add_mul_div_right _ _ (Nat.two_pow_pos k),
    Nat.div_eq_of_lt hu, Nat.zero_add]

theorem mul_add_mod {k x u : ℕ} (hu : u < 2 ^ k) :
    (x * 2 ^ k + u) % 2 ^ k = u := by
  rw [Nat.mul_add_mod_self_right, Nat.mod_eq_of_lt hu]

theorem or_mul_add {k x y u v : ℕ} (hu : u < 2 ^ k) (hv : v < 2 ^ k) :
    x * 2 ^ k + u ||| y * 2 ^ k + v = (x ||| y) * 2 ^ k + (u ||| v) := by
  rw [← Nat.div_add_mod' (x * 2 ^ k + u ||| y * 2 ^ k + v) (2 ^ k),
    Nat.or_div_two_pow, Nat.or_mod_two_pow, mul_add_div hu, mul_add_div hv,
    mul_add_mod hu, mul_add_mod hv]

theorem and_mul_add {k x y u v : ℕ} (hu : u < 2 ^ k) (hv : v < 2 ^ k) :
    x * 2 ^ k + u &&& y * 2 ^ k + v = (x &&& y) * 2 ^ k + (u &&& v) := by
  rw [← Nat.div_add_mod' (x * 2 ^ k + u &&& y * 2 ^ k + v) (2 ^ k),
    Nat.and_div_two_pow, Nat.and_mod_two_pow, mul_add_div hu, mul_add_div hv,
    mul_add_mod hu, mul_add_mod hv]

section

variable (hd₃ : d₃ < 128) (hd₂ : d₂ < 128) (hd₁ : d₁ < 128) (hd₀ : d₀ < 128)
  (he₃ : e₃ < 128) (he₂ : e₂ < 128) (he₁ : e₁ < 128) (he₀ : e₀ < 128)

include hd₃ hd₂ hd₁ hd₀ he₃ he₂ he₁ he₀

theorem groups_or : groups d₄ d₃ d₂ d₁ d₀ ||| groups e₄ e₃ e₂ e₁ e₀ =
    groups (d₄ ||| e₄) (d₃ ||| e₃) (d₂ ||| e₂) (d₁ ||| e₁) (d₀ ||| e₀) := by
  have hseven : 128 = 2 ^ 7 := rfl
  unfold groups
  rw [hseven] at *
  rw [or_mul_add hd₀ he₀, or_mul_add hd₁ he₁, or_mul_add hd₂ he₂,
    or_mul_add hd₃ he₃]

theorem groups_and : groups d₄ d₃ d₂ d₁ d₀ &&& groups e₄ e₃ e₂ e₁ e₀ =
    groups (d₄ &&& e₄) (d₃ &&& e₃) (d₂ &&& e₂) (d₁ &&& e₁) (d₀ &&& e₀) := by
  have hseven : 128 = 2 ^ 7 := rfl
  unfold groups
  rw [hseven] at *
  rw [and_mul_add hd₀ he₀, and_mul_add hd₁ he₁, and_mul_add hd₂ he₂,
    and_mul_add hd₃ he₃]

end

theorem and_127 {d : ℕ} (hd : d < 128) : d &&& 127 = d := by
  have h := Nat.and_two_pow_sub_one_eq_mod d 7
  rw [Nat.mod_eq_of_lt hd] at h
  exact h

variable (hd₃ : d₃ < 128) (hd₂ : d₂ < 128) (hd₁ : d₁ < 128) (hd₀ : d₀ < 128)

include hd₃ hd₂ hd₁ hd₀

theorem groups_and_slot20 :
    groups d₄ d₃ d₂ d₁ d₀ &&& slot20 = groups 0 0 d₂ 0 d₀ := by
  have hslot : slot20 = groups 0 0 127 0 127 := rfl
  rw [hslot, groups_and hd₃ hd₂ hd₁ hd₀ (by decide) (by decide) (by decide)
    (by decide), and_127 hd₂, and_127 hd₀]
  simp only [Nat.and_zero]

theorem groups_and_slot420 (hd₄ : d₄ < 16) :
    groups d₄ d₃ d₂ d₁ d₀ &&& slot420 = groups d₄ 0 d₂ 0 d₀ := by
  have hslot : slot420 = groups 15 0 127 0 127 := rfl
  have hfifteen : d₄ &&& 15 = d₄ := by
    have h := Nat.and_two_pow_sub_one_eq_mod d₄ 4
    rw [Nat.mod_eq_of_lt hd₄] at h
    exact h
  rw [hslot, groups_and hd₃ hd₂ hd₁ hd₀ (by decide) (by decide) (by decide)
    (by decide), and_127 hd₂, and_127 hd₀, hfifteen]
  simp only [Nat.and_zero]

theorem groups_and_high :
    groups d₄ d₃ d₂ d₁ d₀ &&& 0x80 = d₁ % 2 * 128 := by
  have hhigh : 0x80 = groups 0 0 0 1 0 := rfl
  rw [hhigh, groups_and hd₃ hd₂ hd₁ hd₀ (by decide) (by decide) (by decide)
    (by decide), Nat.and_one_is_mod]
  simp [groups]

omit hd₃ hd₂ in
theorem shl32_groups_14 :
    shl32 (groups d₄ d₃ d₂ d₁ d₀) 14 = groups (d₂ % 16) d₁ d₀ 0 0 := by
  rw [shl32, Nat.shiftLeft_eq]
  unfold groups
  omega

omit hd₃ in
theorem shl32_groups_7 :
    shl32 (groups d₄ d₃ d₂ d₁ d₀) 7 = groups (d₃ % 16) d₂ d₁ d₀ 0 := by
  rw [shl32, Nat.shiftLeft_eq]
  unfold groups
  omega

end Groups

theorem groups_or_last {d₄ d₃ d₂ d₁ p : ℕ} (hd₃ : d₃ < 128) (hd₂ : d₂ < 128)
    (hd₁ : d₁ < 128) (hp : p < 128) :
    groups d₄ d₃ d₂ d₁ 0 ||| p = groups d₄ d₃ d₂ d₁ p := by
  have hbyte : p = groups 0 0 0 0 p := by
    unfold groups
    omega
  nth_rewrite 1 [hbyte]
  simp (disch := omega) only [groups_or, Nat.or_zero, Nat.zero_or]

theorem eq_groups_next {p : ℕ} (hp : p / 128 = 1) :
    p = groups 0 0 0 1 (p % 128) := by
  unfold groups
  omega

theorem groups_or_next {d₄ d₃ d₂ p : ℕ} (hd₃ : d₃ < 128) (hd₂ : d₂ < 128)
    (hp : p / 128 = 1) :
    groups d₄ d₃ d₂ 0 0 ||| p = groups d₄ d₃ d₂ 1 (p % 128) := by
  nth_rewrite 1 [eq_groups_next hp]
  simp (disch := omega) only [groups_or, Nat.or_zero, Nat.zero_or]

theorem and_high_last {p : ℕ} (hp : p < 128) : p &&& 0x80 = 0 := by
  have h : groups 0 0 0 0 p &&& 0x80 = 0 % 2 * 128 :=
    groups_and_high (by decide) (by decide) (by decide) hp
  have hbyte : groups 0 0 0 0 p = p := by
    unfold groups
    omega
  rwa [hbyte] at h

theorem and_high_next {p : ℕ} (hp : p / 128 = 1) : p &&& 0x80 = 128 := by
  rw [eq_groups_next hp]
  exact groups_and_high (by decide) (by decide) (by decide)
    (Nat.mod_lt _ (by decide))

theorem shl32_low {q : ℕ} (hq : q < 128) : shl32 q 7 = groups 0 0 0 q 0 := by
  rw [shl32, Nat.shiftLeft_eq]
  unfold groups
  omega

theorem groups_and_low {q : ℕ} (hq : q < 128) :
    groups 0 0 0 1 q &&& 0x7f = q := by
  have hmask : 0x7f = groups 0 0 0 0 127 := rfl
  rw [hmask]
  simp (disch := omega) only [groups_and, and_127, Nat.and_zero]
  unfold groups
  omega

theorem mul_or {k x u : ℕ} (hu : u < 2 ^ k) :
    x * 2 ^ k ||| u = x * 2 ^ k + u := by
  rw [Nat.mul_comm, ← Nat.two_pow_add_eq_or_of_lt hu]

theorem shl_32_or {x w : ℕ} (hw : w < 2 ^ 32) :
    x <<< 32 ||| w = x * 2 ^ 32 + w := by
  rw [Nat.shiftLeft_eq, mul_or hw]

theorem shl_32_or_groups {x d₄ d₃ d₂ d₁ d₀ : ℕ} (hd₄ : d₄ < 16)
    (hd₃ : d₃ < 128) (hd₂ : d₂ < 128) (hd₁ : d₁ < 128) (hd₀ : d₀ < 128) :
    x <<< 32 ||| groups d₄ d₃ d₂ d₁ d₀ =
      x * 2 ^ 32 + groups d₄ d₃ d₂ d₁ d₀ := by
  apply shl_32_or
  unfold groups
  omega

/-! ## Byte by byte -/

theorem parser_ext {α : Type} {p q : Parser UInt8 α} (hp : p [] = none)
    (hq : q [] = none) (hcons : ∀ b ts, p (b :: ts) = q (b :: ts)) : p = q := by
  funext ts
  cases ts with
  | nil => rw [hp, hq]
  | cons b ts => exact hcons b ts

theorem eq_getVarintFrom {p : Parser UInt8 ℕ} {n acc : ℕ} (hnil : p [] = none)
    (hlast : ∀ b ts, b.toNat < 128 →
      p (b :: ts) = some (acc * 128 + b.toNat, ts))
    (hnext : ∀ b ts, b.toNat / 128 = 1 →
      p (b :: ts) = getVarintFrom n (acc * 128 + b.toNat % 128) ts) :
    p = getVarintFrom (n + 1) acc := by
  refine parser_ext hnil rfl fun b ts => ?_
  have hb := b.toNat_lt
  rw [getVarintFrom, run_bind (token_cons b ts)]
  by_cases hlow : b.toNat < 128
  · rw [hlast b ts hlow, if_pos hlow]
    rfl
  · rw [hnext b ts (by omega), if_neg hlow]

section Bytes

variable {q₀ q₁ q₂ q₃ q₄ q₅ q₆ q₇ : ℕ} (h₀ : q₀ < 128) (h₁ : q₁ < 128)
  (h₂ : q₂ < 128) (h₃ : q₃ < 128) (h₄ : q₄ < 128) (h₅ : q₅ < 128)
  (h₆ : q₆ < 128) (h₇ : q₇ < 128)

include h₀ h₁ h₂ h₃ h₄ h₅ h₆ h₇ in
theorem ninthByte_eq {d : ℕ} :
    ninthByte (groups 0 0 q₄ 0 q₆) (groups d 1 q₅ 1 q₇)
        (groups 0 q₀ q₁ q₂ q₃) (groups 0 0 0 1 q₄) =
      getVarintFrom 0 (((((((q₀ * 128 + q₁) * 128 + q₂) * 128 + q₃) * 128 +
        q₄) * 128 + q₅) * 128 + q₆) * 128 + q₇) := by
  refine parser_ext rfl rfl fun p ts => ?_
  have hp : p.toNat < 2 ^ 8 := p.toNat_lt
  have ha : shl32 (groups 0 0 q₄ 0 q₆) 15 =
      groups 0 (q₄ % 8) 0 q₆ 0 * 2 ^ 8 := by
    rw [shl32, Nat.shiftLeft_eq]
    unfold groups
    omega
  have hb : shl32 (groups 0 0 q₅ 0 q₇) 8 = groups 0 0 q₅ 0 q₇ * 2 ^ 8 + 0 := by
    rw [shl32, Nat.shiftLeft_eq]
    unfold groups
    omega
  have hs : shl32 (groups 0 q₀ q₁ q₂ q₃) 4 = groups 0 q₀ q₁ q₂ q₃ * 2 ^ 4 := by
    rw [shl32, Nat.shiftLeft_eq]
    unfold groups
    omega
  refine congrArg (fun v => some (v, ts)) ?_
  simp (disch := omega) only [groups_and_slot20, groups_and_low, ha, hb, hs,
    mul_or, or_mul_add, groups_or, Nat.or_zero, Nat.zero_or,
    Nat.shiftRight_eq_div_pow]
  rw [shl_32_or]
  · unfold groups
    omega
  · unfold groups
    omega

include h₀ h₁ h₂ h₃ h₄ h₅ h₆ in
theorem eighthByte_eq :
    eighthByte (groups 0 0 q₄ 0 q₆) (groups (q₁ % 16) 0 q₃ 1 q₅)
        (groups 0 q₀ q₁ q₂ q₃) (groups 0 0 0 1 q₄) =
      getVarintFrom 1 ((((((q₀ * 128 + q₁) * 128 + q₂) * 128 + q₃) * 128 +
        q₄) * 128 + q₅) * 128 + q₆) := by
  refine eq_getVarintFrom rfl (fun p ts hp => ?_) fun p ts hp => ?_
  · rw [eighthByte, run_bind (token_cons p ts)]
    simp (disch := omega) only [shl32_groups_14, groups_or_last,
      groups_and_high, groups_and_slot420, shl32_groups_7, groups_or,
      shl_32_or_groups, Nat.or_zero, Nat.zero_or, Nat.zero_mod,
      Nat.zero_mul, Nat.shiftRight_eq_div_pow, if_true]
    refine congrArg (fun v => some (v, ts)) ?_
    unfold groups
    omega
  · rw [eighthByte, run_bind (token_cons p ts)]
    simp (disch := omega) only [shl32_groups_14, groups_or_next,
      groups_and_high, Nat.reduceMod, Nat.reduceMul, Nat.reduceEqDiff, if_false]
    exact congrFun (ninthByte_eq h₀ h₁ h₂ h₃ h₄ h₅ h₆ (Nat.mod_lt _ (by decide))) ts

include h₀ h₁ h₂ h₃ h₄ h₅ in
theorem seventhByte_eq :
    seventhByte (groups (q₀ % 16) 0 q₂ 1 q₄) (groups (q₁ % 16) 0 q₃ 1 q₅)
        (groups 0 q₀ q₁ q₂ q₃) (groups 0 0 0 1 q₄) =
      getVarintFrom 2 (((((q₀ * 128 + q₁) * 128 + q₂) * 128 + q₃) * 128 +
        q₄) * 128 + q₅) := by
  refine eq_getVarintFrom rfl (fun p ts hp => ?_) fun p ts hp => ?_
  · rw [seventhByte, run_bind (token_cons p ts)]
    simp (disch := omega) only [shl32_groups_14, groups_or_last,
      groups_and_high, groups_and_slot420, groups_and_slot20, shl32_groups_7,
      groups_or, shl_32_or_groups, Nat.or_zero, Nat.zero_or, Nat.zero_mod,
      Nat.zero_mul, Nat.shiftRight_eq_div_pow, if_true]
    refine congrArg (fun v => some (v, ts)) ?_
    unfold groups
    omega
  · rw [seventhByte, run_bind (token_cons p ts)]
    simp (disch := omega) only [shl32_groups_14, groups_or_next,
      groups_and_high, groups_and_slot20, Nat.reduceMod, Nat.reduceMul,
      Nat.reduceEqDiff, if_false]
    exact congrFun
      (eighthByte_eq h₀ h₁ h₂ h₃ h₄ h₅ (Nat.mod_lt _ (by decide))) ts

include h₀ h₁ h₂ h₃ h₄ in
theorem sixthByte_eq :
    sixthByte (groups (q₀ % 16) 0 q₂ 1 q₄) (groups 0 0 q₁ 0 q₃)
        (groups 0 q₀ q₁ q₂ q₃) (groups 0 0 0 1 q₄) =
      getVarintFrom 3 ((((q₀ * 128 + q₁) * 128 + q₂) * 128 + q₃) * 128 +
        q₄) := by
  refine eq_getVarintFrom rfl (fun p ts hp => ?_) fun p ts hp => ?_
  · rw [sixthByte, run_bind (token_cons p ts)]
    simp (disch := omega) only [shl32_groups_14, groups_or_last,
      groups_and_high, groups_and_slot20, shl32_groups_7, groups_or,
      shl_32_or_groups, Nat.or_zero, Nat.zero_or, Nat.zero_mod, Nat.zero_mul,
      Nat.shiftRight_eq_div_pow, if_true]
    refine congrArg (fun v => some (v, ts)) ?_
    unfold groups
    omega
  · rw [sixthByte, run_bind (token_cons p ts)]
    simp (disch := omega) only [shl32_groups_14, groups_or_next,
      groups_and_high, Nat.reduceMod, Nat.reduceMul, Nat.reduceEqDiff, if_false]
    exact congrFun (seventhByte_eq h₀ h₁ h₂ h₃ h₄ (Nat.mod_lt _ (by decide))) ts

include h₀ h₁ h₂ h₃ in
theorem fifthByte_eq :
    fifthByte (groups 0 0 q₀ 0 q₂) (groups 0 0 q₁ 0 q₃)
        (groups 0 0 q₀ 0 q₂) =
      getVarintFrom 4 (((q₀ * 128 + q₁) * 128 + q₂) * 128 + q₃) := by
  refine eq_getVarintFrom rfl (fun p ts hp => ?_) fun p ts hp => ?_
  · rw [fifthByte, run_bind (token_cons p ts)]
    simp (disch := omega) only [shl32_groups_14, groups_or_last,
      groups_and_high, shl32_groups_7, groups_or, shl_32_or_groups, Nat.or_zero,
      Nat.zero_or, Nat.zero_mod, Nat.zero_mul, Nat.shiftRight_eq_div_pow,
      if_true]
    refine congrArg (fun v => some (v, ts)) ?_
    unfold groups
    omega
  · rw [fifthByte, run_bind (token_cons p ts)]
    simp (disch := omega) only [shl32_groups_14, groups_or_next,
      groups_and_high, shl32_groups_7, groups_or, Nat.or_zero, Nat.zero_or,
      Nat.zero_mod, Nat.reduceMod, Nat.reduceMul, Nat.reduceEqDiff, if_false]
    have hnext := sixthByte_eq h₀ h₁ h₂ h₃ (Nat.mod_lt p.toNat (by decide))
    rw [← eq_groups_next hp] at hnext
    exact congrFun hnext ts

include h₀ h₁ h₂ in
theorem fourthByte_eq :
    fourthByte (groups 0 0 q₀ 0 q₂) (groups 0 0 0 1 q₁) =
      getVarintFrom 5 ((q₀ * 128 + q₁) * 128 + q₂) := by
  refine eq_getVarintFrom rfl (fun p ts hp => ?_) fun p ts hp => ?_
  · rw [fourthByte, run_bind (token_cons p ts)]
    simp (disch := omega) only [shl32_groups_14, groups_or_last,
      groups_and_high, groups_and_slot20, shl32_groups_7, groups_or,
      Nat.or_zero, Nat.zero_or, Nat.zero_mod, Nat.zero_mul, if_true]
    refine congrArg (fun v => some (v, ts)) ?_
    unfold groups
    omega
  · rw [fourthByte, run_bind (token_cons p ts)]
    simp (disch := omega) only [shl32_groups_14, groups_or_next,
      groups_and_high, groups_and_slot20, Nat.reduceMod, Nat.reduceMul,
      Nat.reduceEqDiff, if_false]
    exact congrFun (fifthByte_eq h₀ h₁ h₂ (Nat.mod_lt _ (by decide))) ts

include h₀ h₁ in
theorem thirdByte_eq :
    thirdByte (groups 0 0 0 1 q₀) (groups 0 0 0 1 q₁) =
      getVarintFrom 6 (q₀ * 128 + q₁) := by
  refine eq_getVarintFrom rfl (fun p ts hp => ?_) fun p ts hp => ?_
  · rw [thirdByte, run_bind (token_cons p ts)]
    simp (disch := omega) only [shl32_groups_14, groups_or_last,
      groups_and_high, groups_and_slot20, groups_and_low, shl32_low, groups_or,
      Nat.or_zero, Nat.zero_or, Nat.zero_mod, Nat.zero_mul, if_true]
    refine congrArg (fun v => some (v, ts)) ?_
    unfold groups
    omega
  · rw [thirdByte, run_bind (token_cons p ts)]
    simp (disch := omega) only [shl32_groups_14, groups_or_next,
      groups_and_high, groups_and_slot20, Nat.reduceMod, Nat.reduceMul,
      Nat.reduceEqDiff, if_false]
    exact congrFun (fourthByte_eq h₀ h₁ (Nat.mod_lt _ (by decide))) ts

include h₀ in
theorem secondByte_eq :
    secondByte (groups 0 0 0 1 q₀) = getVarintFrom 7 q₀ := by
  refine eq_getVarintFrom rfl (fun p ts hp => ?_) fun p ts hp => ?_
  · rw [secondByte, run_bind (token_cons p ts)]
    simp (disch := omega) only [and_high_last, groups_and_low, shl32_low,
      groups_or_last, if_true]
    refine congrArg (fun v => some (v, ts)) ?_
    unfold groups
    omega
  · rw [secondByte, run_bind (token_cons p ts)]
    simp (disch := omega) only [and_high_next, Nat.reduceEqDiff, if_false]
    have hnext := thirdByte_eq h₀ (Nat.mod_lt p.toNat (by decide))
    rw [← eq_groups_next hp] at hnext
    exact congrFun hnext ts

end Bytes

/-- The unrolled reader computes the loop. -/
theorem sqlite3GetVarint_eq : sqlite3GetVarint = getVarint := by
  refine eq_getVarintFrom rfl (fun p ts hp => ?_) fun p ts hp => ?_
  · rw [sqlite3GetVarint, run_bind (token_cons p ts),
      if_pos (and_high_last hp), Nat.zero_mul, Nat.zero_add]
    rfl
  · have hnext := secondByte_eq (Nat.mod_lt p.toNat (by decide))
    rw [← eq_groups_next hp] at hnext
    rw [sqlite3GetVarint, run_bind (token_cons p ts),
      and_high_next hp, if_neg (by decide), hnext, Nat.zero_mul, Nat.zero_add]

end Hs5
