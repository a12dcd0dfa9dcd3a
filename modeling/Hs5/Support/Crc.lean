import Mathlib.Data.List.Basic
import Mathlib.Logic.Function.Iterate

/-!
# Cyclic redundancy checks

A reflected cyclic redundancy check of any width, bit by bit.  A step of the
register is linear in exclusive or, so that the register behind some data is
that of the data alone combined with what as many zero bytes make of the
register before it.  This is how the check value of two pieces of data follows
from those of the pieces and the length of the second.
-/

namespace Crc

variable {w : ℕ} (poly : BitVec w)

def bit (r : BitVec w) : BitVec w :=
  if r.getLsbD 0 then (r >>> 1) ^^^ poly else r >>> 1

def byte (r : BitVec w) (b : UInt8) : BitVec w :=
  (bit poly)^[8] (r ^^^ BitVec.ofNat w b.toNat)

def register (r : BitVec w) (data : List UInt8) : BitVec w :=
  data.foldl (byte poly) r

/-- What `n` zero bytes make of a register. -/
def zeros (r : BitVec w) (n : ℕ) : BitVec w := (fun r => byte poly r 0)^[n] r

/-- The check value of data that follows data with the value `previous`. -/
def crc (data : List UInt8) (previous : BitVec w) : BitVec w :=
  ~~~ register poly (~~~ previous) data

/-- The check value of two pieces of data, the second of length `n`. -/
def combine (a b : BitVec w) (n : ℕ) : BitVec w := zeros poly a n ^^^ b

theorem xor_xor_cancel (a b p : BitVec w) :
    (a ^^^ p) ^^^ (b ^^^ p) = a ^^^ b := by
  rw [BitVec.xor_comm b p, BitVec.xor_assoc, ← BitVec.xor_assoc p p b,
    BitVec.xor_self, BitVec.zero_xor]

theorem bit_xor (x y : BitVec w) :
    bit poly (x ^^^ y) = bit poly x ^^^ bit poly y := by
  unfold bit
  rw [BitVec.getLsbD_xor, BitVec.ushiftRight_xor_distrib]
  rcases hx : x.getLsbD 0 <;> rcases hy : y.getLsbD 0
  · simp
  · simp [BitVec.xor_assoc]
  · simp only [Bool.xor_false, if_true, Bool.false_eq_true, if_false]
    rw [BitVec.xor_assoc, BitVec.xor_comm (y >>> 1), BitVec.xor_assoc]
  · simp [xor_xor_cancel]

theorem iterate_bit_xor (n : ℕ) (x y : BitVec w) :
    (bit poly)^[n] (x ^^^ y) = (bit poly)^[n] x ^^^ (bit poly)^[n] y := by
  induction n generalizing x y with
  | zero => rfl
  | succ n ih => rw [Function.iterate_succ_apply, bit_xor, ih,
      Function.iterate_succ_apply, Function.iterate_succ_apply]

theorem byte_xor (x y : BitVec w) (b : UInt8) :
    byte poly (x ^^^ y) b = byte poly x b ^^^ byte poly y 0 := by
  have hzero : BitVec.ofNat w (0 : UInt8).toNat = 0#w := rfl
  have hmove : x ^^^ y ^^^ BitVec.ofNat w b.toNat =
      x ^^^ BitVec.ofNat w b.toNat ^^^ y := by
    rw [BitVec.xor_assoc, BitVec.xor_comm y, ← BitVec.xor_assoc]
  rw [byte, hmove, iterate_bit_xor, byte, byte, hzero, BitVec.xor_zero]

theorem register_xor (x y : BitVec w) (data : List UInt8) :
    register poly (x ^^^ y) data =
      register poly x data ^^^ zeros poly y data.length := by
  induction data generalizing x y with
  | nil => rfl
  | cons b data ih =>
    rw [register, List.foldl_cons, byte_xor]
    exact ih _ _

theorem combine_crc (a b : List UInt8) :
    combine poly (crc poly a 0) (crc poly b 0) b.length =
      crc poly (a ++ b) 0 := by
  have happend : register poly (~~~ 0) (a ++ b) =
      register poly (register poly (~~~ 0) a) b := List.foldl_append
  have hstart : register poly (~~~ 0) a = ~~~ 0 ^^^ crc poly a 0 := by
    rw [crc, ← BitVec.allOnes_xor (x := register poly (~~~ 0) a),
      ← BitVec.xor_assoc]
    simp
  have hwhole : crc poly (a ++ b) 0 =
      crc poly b 0 ^^^ zeros poly (crc poly a 0) b.length := by
    rw [crc, happend, hstart, register_xor, BitVec.not_xor_left, ← crc]
  rw [hwhole, combine, BitVec.xor_comm]

end Crc
