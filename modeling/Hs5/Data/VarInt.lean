import Mathlib.Algebra.Group.Nat.Defs
import Mathlib.Data.Int.Notation
import Mathlib.Data.Nat.Notation

/-!
# Variable-length integers

`CWData::addVarInt` stores a 64-bit value in one to nine bytes, most
significant group first.  Every byte but the last carries seven bits and has
its high bit set; a ninth byte carries eight bits.  Signed values are encoded
through their unsigned representation.
-/

namespace Hs5

abbrev Bytes := List UInt8

def ascii (text : String) : Bytes :=
  text.toList.map fun c => UInt8.ofNat c.toNat

/-- The seven-bit groups of `v`, least significant first, each with its high
bit set. -/
def varintGroups : ℕ → ℕ → Bytes
  | 0, _ => []
  | n + 1, v =>
    UInt8.ofNat (v % 128 + 128) ::
      if v / 128 = 0 then [] else varintGroups n (v / 128)

/-- Exactly `n` seven-bit groups of `v`, least significant first, each with
its high bit set. -/
def varintFixed : ℕ → ℕ → Bytes
  | 0, _ => []
  | n + 1, v => UInt8.ofNat (v % 128 + 128) :: varintFixed n (v / 128)

/-- `putVarint64`: values with one of the upper eight bits set take nine
bytes, the last of which carries eight bits. -/
def putVarint64 (v : ℕ) : Bytes :=
  if 2 ^ 56 ≤ v then
    (UInt8.ofNat (v % 256) :: varintFixed 8 (v / 256)).reverse
  else
    match varintGroups 9 v with
    | [] => []
    | low :: rest => ((low &&& 0x7f) :: rest).reverse

/-- `sqlite3PutVarint` with its two short forms. -/
def putVarint (v : ℕ) : Bytes :=
  if v ≤ 0x7f then [UInt8.ofNat v]
  else if v ≤ 0x3fff then
    [UInt8.ofNat (v / 128 % 128 + 128), UInt8.ofNat (v % 128)]
  else putVarint64 v

/-- `CWData::addVarInt`: the bytes appended for a 64-bit value. -/
def addVarInt (ta : ℤ) : Bytes := putVarint (BitVec.ofInt 64 ta).toNat

/-- `memcmp` with the shorter string first when one is an initial part of the
other, as LMDB orders duplicate values: `true` unless `a` comes after `b`. -/
def memcmpLe : Bytes → Bytes → Bool
  | [], _ => true
  | _ :: _, [] => false
  | x :: a, y :: b => if x = y then memcmpLe a b else x < y

end Hs5
