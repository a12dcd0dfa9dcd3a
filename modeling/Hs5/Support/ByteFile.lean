import Mathlib.Data.List.GetD
import Mathlib.Data.Nat.Notation
import Mathlib.Tactic.Common

/-!
# Files as lists

A file is the list of its bytes; reading behind its end gives the default
byte.  Each operation is given by the length of its result and by the byte at
every position, and files are equal if their lengths and bytes are.
-/

namespace ByteFile

open List

variable {α : Type*} [Inhabited α]

def byteAt (f : List α) (i : ℕ) : α := f.getD i default

def grow (f : List α) (len : ℕ) : List α :=
  f ++ List.replicate (len - f.length) default

def resize (f : List α) (len : ℕ) : List α := grow (f.take len) len

/-- Write at a position; a gap before it is filled. -/
def writeAt (f : List α) (off : ℕ) (d : List α) : List α :=
  if d.isEmpty then f
  else grow (f.take off) off ++ (d ++ f.drop (off + d.length))

/-- Overwrite `n` bytes with the default, within the file. -/
def clear (f : List α) (off n : ℕ) : List α :=
  f.take off ++ (List.replicate (min n (f.length - off)) default ++
    f.drop (off + n))

theorem byteAt_of_length_le {f : List α} {i : ℕ} (h : f.length ≤ i) :
    byteAt f i = default :=
  getD_eq_default _ _ h

theorem ext_byteAt {f g : List α} (hlen : f.length = g.length)
    (h : ∀ i, byteAt f i = byteAt g i) : f = g := by
  refine ext_getElem hlen fun i hi hj => ?_
  have hbyte := h i
  rwa [byteAt, byteAt, getD_eq_getElem _ _ hi,
    getD_eq_getElem _ _ hj] at hbyte

theorem byteAt_append (f g : List α) (i : ℕ) :
    byteAt (f ++ g) i =
      if i < f.length then byteAt f i else byteAt g (i - f.length) := by
  unfold byteAt
  split
  · rename_i h
    exact getD_append _ _ _ _ h
  · rename_i h
    exact getD_append_right _ _ _ _ (by omega)

@[simp] theorem byteAt_replicate (n i : ℕ) :
    byteAt (List.replicate n (default : α)) i = default := by
  unfold byteAt
  by_cases h : i < n
  · rw [getD_replicate _ h]
  · exact getD_eq_default _ _ (by simpa using h)

theorem byteAt_take (f : List α) (n i : ℕ) :
    byteAt (f.take n) i = if i < n then byteAt f i else default := by
  unfold byteAt
  simp only [getD_eq_getElem?_getD, getElem?_take]
  split <;> rfl

theorem byteAt_drop (f : List α) (n i : ℕ) :
    byteAt (f.drop n) i = byteAt f (n + i) := by
  unfold byteAt
  simp only [getD_eq_getElem?_getD, getElem?_drop]

/-! ## Growing and cutting -/

@[simp] theorem length_grow (f : List α) (len : ℕ) :
    (grow f len).length = max f.length len := by
  simp only [grow, length_append, length_replicate]
  omega

@[simp] theorem byteAt_grow (f : List α) (len i : ℕ) :
    byteAt (grow f len) i = byteAt f i := by
  rw [grow, byteAt_append]
  split
  · rfl
  · rename_i h
    rw [byteAt_replicate, byteAt_of_length_le (by omega)]

@[simp] theorem length_resize (f : List α) (len : ℕ) :
    (resize f len).length = len := by
  simp only [resize, length_grow, length_take]
  omega

theorem byteAt_resize (f : List α) (len i : ℕ) :
    byteAt (resize f len) i = if i < len then byteAt f i else default := by
  rw [resize, byteAt_grow, byteAt_take]

theorem grow_of_le {f : List α} {len : ℕ} (h : len ≤ f.length) :
    grow f len = f := by
  rw [grow, Nat.sub_eq_zero_of_le h, replicate_zero, append_nil]

theorem grow_grow (f : List α) {a b : ℕ} (h : a ≤ b) :
    grow (grow f a) b = grow f b := by
  apply ext_byteAt
  · simp only [length_grow]
    omega
  · intro i
    simp only [byteAt_grow]

theorem resize_eq_grow {f : List α} {len : ℕ} (h : f.length ≤ len) :
    resize f len = grow f len := by
  rw [resize, take_of_length_le h]

/-! ## Writing and clearing -/

@[simp] theorem writeAt_nil (f : List α) (off : ℕ) : writeAt f off [] = f :=
  rfl

theorem length_writeAt {d : List α} (hd : d ≠ []) (f : List α) (off : ℕ) :
    (writeAt f off d).length = max f.length (off + d.length) := by
  have hempty : d.isEmpty = false := by simpa using hd
  simp only [writeAt, hempty, Bool.false_eq_true, if_false,
    length_append, length_grow, length_take, length_drop]
  omega

theorem byteAt_writeAt (f : List α) (off : ℕ) (d : List α) (i : ℕ) :
    byteAt (writeAt f off d) i =
      if off ≤ i ∧ i < off + d.length then byteAt d (i - off)
      else byteAt f i := by
  by_cases hd : d = []
  · rw [hd, writeAt_nil, if_neg]
    rw [length_nil]
    omega
  have hempty : d.isEmpty = false := by simpa using hd
  have hlen : (grow (f.take off) off).length = off := by
    rw [length_grow, length_take]
    omega
  simp only [writeAt, hempty, Bool.false_eq_true, if_false]
  rw [byteAt_append, byteAt_append, hlen, byteAt_grow, byteAt_take, byteAt_drop]
  by_cases hbefore : i < off
  · rw [if_pos hbefore, if_pos hbefore, if_neg (by omega)]
  rw [if_neg hbefore]
  by_cases hin : i - off < d.length
  · rw [if_pos hin, if_pos (by omega)]
  · rw [if_neg hin, if_neg (by omega)]
    congr 1
    omega

theorem writeAt_append {d₁ : List α} (hd : d₁ ≠ []) (f : List α) (off : ℕ)
    (d₂ : List α) :
    writeAt (writeAt f off d₁) (off + d₁.length) d₂ =
      writeAt f off (d₁ ++ d₂) := by
  by_cases hd₂ : d₂ = []
  · rw [hd₂, writeAt_nil, append_nil]
  apply ext_byteAt
  · rw [length_writeAt hd₂, length_writeAt hd, length_writeAt (by simp [hd]),
      length_append]
    omega
  · intro i
    simp only [byteAt_writeAt, byteAt_append, length_append]
    by_cases hfirst : off ≤ i ∧ i < off + d₁.length
    · rw [if_neg (by omega), if_pos hfirst, if_pos (by omega),
        if_pos (by omega)]
    · rw [if_neg hfirst]
      by_cases hsecond : off + d₁.length ≤ i ∧ i < off + d₁.length + d₂.length
      · rw [if_pos hsecond, if_pos (by omega), if_neg (by omega)]
        congr 1
        omega
      · rw [if_neg hsecond, if_neg (by omega)]

@[simp] theorem length_clear (f : List α) (off n : ℕ) :
    (clear f off n).length = f.length := by
  simp only [clear, length_append, length_take,
    length_replicate, length_drop]
  omega

theorem byteAt_clear (f : List α) (off n i : ℕ) :
    byteAt (clear f off n) i =
      if off ≤ i ∧ i < off + n then default else byteAt f i := by
  by_cases hend : f.length ≤ i
  · rw [byteAt_of_length_le (by simpa using hend), byteAt_of_length_le hend,
      ite_self]
  rw [clear, byteAt_append, byteAt_append, byteAt_take, byteAt_replicate,
    byteAt_drop, length_take, length_replicate]
  by_cases hbefore : i < off
  · rw [if_pos (by omega), if_pos hbefore, if_neg (by omega)]
  rw [if_neg (by omega)]
  by_cases hin : i < off + n
  · rw [if_pos (by omega), if_pos (by omega)]
  · rw [if_neg (by omega), if_neg (by omega)]
    congr 1
    omega

theorem clear_of_length_le {f : List α} {off : ℕ} (h : f.length ≤ off)
    (n : ℕ) : clear f off n = f := by
  apply ext_byteAt (length_clear f off n)
  intro i
  rw [byteAt_clear]
  split
  · rw [byteAt_of_length_le (by omega)]
  · rfl

@[simp] theorem clear_zero (f : List α) (off : ℕ) : clear f off 0 = f := by
  apply ext_byteAt (length_clear f off 0)
  intro i
  rw [byteAt_clear, if_neg (by omega)]

theorem clear_append (f : List α) (off a b : ℕ) :
    clear (clear f off a) (off + a) b = clear f off (a + b) := by
  apply ext_byteAt
  · simp only [length_clear]
  · intro i
    simp only [byteAt_clear]
    by_cases hfirst : off ≤ i ∧ i < off + a
    · rw [if_neg (by omega), if_pos hfirst, if_pos (by omega)]
    · rw [if_neg hfirst]
      by_cases hsecond : off + a ≤ i ∧ i < off + a + b
      · rw [if_pos hsecond, if_pos (by omega)]
      · rw [if_neg hsecond, if_neg (by omega)]

end ByteFile
