import Hs5.Support.Cover
import Hs5.Data.VarInt
import Mathlib.Algebra.GroupWithZero.Divisibility
import Mathlib.Algebra.Ring.Divisibility.Basic
import Mathlib.Algebra.Ring.Int.Defs

/-!
# Blocks, extents and index values

The data file is handed out in extents whose offsets are multiples of
`block_size`; an extent of `len` bytes occupies `div_up(len, block_size)`
blocks.  Offsets and lengths are unbounded integers here: the source keeps
them in signed 64-bit variables, and a data file stays far below that range.
-/

namespace Hs5

def blockSize : ℤ := 4096

/-- `div_up`, with the truncating division and remainder of the source. -/
def divUp (num div : ℤ) : ℤ :=
  if num.tmod div = 0 then num.tdiv div else num.tdiv div + 1

/-- The length of the whole blocks an extent of `len` bytes occupies. -/
def roundUp (len : ℤ) : ℤ := divUp len blockSize * blockSize

/-- `SPunchItem`: a range of the data file. -/
structure SPunchItem where
  offset : ℤ
  len : ℤ
  deriving DecidableEq, Repr

/-- `Ext`: a part of an object and where it lies in the data file. -/
structure Ext where
  objOffset : ℤ
  dataFileOffset : ℤ
  len : ℤ
  deriving DecidableEq, Repr

/-- The value stored for a key of `dbi_main`: the first extent, the further
ones, the modification time and the metadata string. -/
structure IndexValue where
  offset : ℤ
  len : ℤ
  extraExts : List SPunchItem
  lastModified : ℤ
  md5sum : Bytes
  deriving DecidableEq, Repr

def IndexValue.extents (v : IndexValue) : List SPunchItem :=
  ⟨v.offset, v.len⟩ :: v.extraExts

/-- The end points of the blocks an extent occupies. -/
def SPunchItem.span (e : SPunchItem) : ℤ × ℤ :=
  (e.offset, e.offset + roundUp e.len)

/-- An extent as `write_prepare` hands it out. -/
structure SPunchItem.Aligned (e : SPunchItem) : Prop where
  nonneg : 0 ≤ e.offset
  dvd : blockSize ∣ e.offset
  pos : 0 < e.len

/-- The range has a byte in block number `b`. -/
def SPunchItem.HasBlock (e : SPunchItem) (b : ℤ) : Prop :=
  ∃ x, e.offset ≤ x ∧ x < e.offset + e.len ∧ x / blockSize = b

def SPunchItem.SharesBlock (e e' : SPunchItem) : Prop :=
  ∃ b, e.HasBlock b ∧ e'.HasBlock b

/-! ## Rounding to whole blocks -/

theorem divUp_nonneg {num : ℤ} (h : 0 ≤ num) :
    divUp num blockSize = (num + 4095) / 4096 := by
  unfold divUp blockSize
  rw [Int.tmod_eq_emod_of_nonneg h, Int.tdiv_eq_ediv_of_nonneg h]
  split <;> omega

theorem roundUp_nonneg {len : ℤ} (h : 0 ≤ len) :
    roundUp len = (len + 4095) / 4096 * 4096 := by
  rw [roundUp, divUp_nonneg h, blockSize]

theorem le_roundUp {len : ℤ} (h : 0 ≤ len) : len ≤ roundUp len := by
  rw [roundUp_nonneg h]
  omega

theorem roundUp_pos {len : ℤ} (h : 0 < len) : 0 < roundUp len :=
  h.trans_le (le_roundUp h.le)

@[simp] theorem roundUp_zero : roundUp 0 = 0 := by decide

theorem dvd_roundUp (len : ℤ) : blockSize ∣ roundUp len := Dvd.intro_left _ rfl

theorem roundUp_le {len n : ℤ} (h : 0 ≤ len) (hle : len ≤ n)
    (hn : blockSize ∣ n) : roundUp len ≤ n := by
  rw [roundUp_nonneg h]
  unfold blockSize at hn
  omega

theorem roundUp_of_dvd {len : ℤ} (h : 0 ≤ len) (hlen : blockSize ∣ len) :
    roundUp len = len :=
  le_antisymm (roundUp_le h le_rfl hlen) (le_roundUp h)

end Hs5
