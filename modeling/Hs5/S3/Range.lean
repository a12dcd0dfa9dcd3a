import Hs5.Data.Serialize
import Mathlib.Data.List.TakeWhile

/-!
# Range requests

`parseRange` turns the `Range` header of a request into the first byte and the
byte after the last one, with the library function `stoll` and in 64-bit
arithmetic.  `getObject` and the copy of a part answer with the status 416 if
these do not lie within the object, so that a range that reaches beyond the
end is refused and not cut off.  The answer to a range that is not refused has
its length, but no `Content-Range` header.
-/

namespace Hs5

open List

def isSpace (c : UInt8) : Bool := c = 0x20 ∨ 0x09 ≤ c ∧ c ≤ 0x0d

def isDigit (c : UInt8) : Bool := 0x30 ≤ c ∧ c ≤ 0x39

def decimal (digits : Bytes) : ℕ :=
  digits.foldl (fun v c => v * 10 + (c.toNat - 48)) 0

/-- `std::stoll`: no number, or one out of range, is an exception. -/
def stoll (str : Bytes) : Option ℤ :=
  let str := str.dropWhile isSpace
  let digits := (if str.head? = some 0x2d ∨ str.head? = some 0x2b
    then str.tail else str).takeWhile isDigit
  let v : ℤ := if str.head? = some 0x2d then -decimal digits else decimal digits
  if digits ≠ [] ∧ IsInt64 v then some v else none

/-- The value that a 64-bit register holds of a sum. -/
def wrapInt64 (v : ℤ) : ℤ := (BitVec.ofInt 64 v).toInt

def parseRange (range : Bytes) (fileSize : ℤ) : ℤ × ℤ :=
  if range = [] then (0, fileSize)
  else if ¬ (ascii "bytes=").isPrefixOf range ∨ 0x2c ∈ range then (-1, -1)
  else
    let byteRange := range.drop 6
    if 0x2d ∉ byteRange then (-1, -1)
    else
      let startStr := byteRange.takeWhile (· ≠ 0x2d)
      let endStr := (byteRange.dropWhile (· ≠ 0x2d)).tail
      let parsed : Option (ℤ × ℤ) :=
        if startStr = [] ∧ endStr ≠ [] then
          (stoll endStr).map fun s => (wrapInt64 (fileSize - s), fileSize)
        else if startStr ≠ [] ∧ endStr = [] then
          (stoll startStr).map fun a => (a, fileSize)
        else do
          let a ← stoll startStr
          let b ← stoll endStr
          some (a, wrapInt64 (b + 1))
      parsed.getD (-1, -1)

/-- The checks of `getObject` and of the copy of a part: the bytes from the
first up to the second number are sent, and `none` is the status 416. -/
def selectRange (range : Bytes) (totalLen : ℤ) : Option (ℤ × ℤ) :=
  let (rangeStart, rangeEnd) := parseRange range totalLen
  if range ≠ [] ∧ (rangeStart < 0 ∨ rangeEnd < 0 ∨ rangeStart ≥ rangeEnd ∨
      rangeEnd > totalLen) then none
  else some (rangeStart, rangeEnd)

/-- An answer of `getObject`, as far as it speaks of bytes. -/
structure RangeResponse where
  status : ℕ
  /-- `Content-Length`, where the handler sets it -/
  contentLength : Option ℤ
  /-- `Content-Range`: first byte, last byte and size of the object -/
  contentRange : Option (ℤ × ℤ × ℤ)
  /-- the first byte of the object in the body and the one after the last -/
  body : ℤ × ℤ
  deriving DecidableEq

/-- What `getObject` answers for a stored object of `totalLen` bytes, without
a part number and without conditions. -/
def getObject (range : Bytes) (totalLen : ℤ) : RangeResponse :=
  match selectRange range totalLen with
  | none => ⟨416, none, none, (0, 0)⟩
  | some (rangeStart, rangeEnd) =>
    ⟨if range ≠ [] then 206 else 200, some (rangeEnd - rangeStart), none,
      (rangeStart, rangeEnd)⟩

/-- The answer with the bytes from `rangeStart` to `rangeEnd`. -/
def partialContent (rangeStart rangeEnd : ℤ) : RangeResponse :=
  ⟨206, some (rangeEnd - rangeStart), none, (rangeStart, rangeEnd)⟩

def notSatisfiable : RangeResponse := ⟨416, none, none, (0, 0)⟩

/-! ## Ranges of digits -/

def IsDigits (str : Bytes) : Prop := str ≠ [] ∧ ∀ c ∈ str, isDigit c = true
  deriving Decidable

theorem isDigit_spec {c : UInt8} (h : isDigit c = true) :
    isSpace c = false ∧ c ≠ 0x2d ∧ c ≠ 0x2b ∧ c ≠ 0x2c := by
  have hrange : 0x30 ≤ c ∧ c ≤ 0x39 := by simpa [isDigit] using h
  simp only [UInt8.le_iff_toNat_le, isSpace, decide_eq_false_iff_not, ne_eq,
    ← UInt8.toNat_inj] at *
  refine ⟨?_, ?_, ?_, ?_⟩ <;> simp at * <;> omega

theorem stoll_digits {d : Bytes} (h : IsDigits d) :
    stoll d = if (decimal d : ℤ) < 2 ^ 63 then some (decimal d : ℤ) else none := by
  obtain ⟨hne, hdigit⟩ := h
  obtain ⟨c, cs, rfl⟩ := exists_cons_of_ne_nil hne
  obtain ⟨hspace, hminus, hplus, -⟩ := isDigit_spec (hdigit c (by simp))
  have htake : (c :: cs).takeWhile isDigit = c :: cs :=
    takeWhile_eq_self_iff.mpr hdigit
  have hdrop : (c :: cs).dropWhile isSpace = c :: cs := by
    rw [dropWhile_cons, if_neg (by simp [hspace])]
  simp only [stoll, hdrop, head?_cons, Option.some_inj, hminus, hplus,
    or_self, if_false, htake]
  refine if_congr ?_ rfl rfl
  simp only [ne_eq, reduceCtorEq, not_false_eq_true, true_and, IsInt64]
  omega

theorem wrapInt64_eq {v : ℤ} (h : IsInt64 v) : wrapInt64 v = v := by
  obtain ⟨hlow, hhigh⟩ := h
  rw [wrapInt64, BitVec.toInt_ofInt]
  exact Int.bmod_eq_of_le (by omega) (by omega)

/-- How a header of two numbers, at least one of them present, is taken
apart. -/
theorem parseRange_digits {a b : Bytes} (ha : a = [] ∨ IsDigits a)
    (hb : b = [] ∨ IsDigits b) (n : ℤ) :
    parseRange (ascii "bytes=" ++ (a ++ 0x2d :: b)) n =
      Option.getD (if a = [] ∧ b ≠ [] then
          (stoll b).map fun s => (wrapInt64 (n - s), n)
        else if a ≠ [] ∧ b = [] then (stoll a).map fun a => (a, n)
        else (stoll a).bind fun a => (stoll b).bind fun b =>
          some (a, wrapInt64 (b + 1))) (-1, -1) := by
  have hdigits : ∀ d : Bytes, d = [] ∨ IsDigits d → ∀ c ∈ d,
      isDigit c = true := by
    rintro d (rfl | hd) c hc
    · cases hc
    · exact hd.2 c hc
  have hall : ∀ c ∈ a, (decide (c ≠ 0x2d)) = true := fun c hc =>
    decide_eq_true (isDigit_spec (hdigits a ha c hc)).2.1
  have hcomma : 0x2c ∉ ascii "bytes=" ++ (a ++ 0x2d :: b) := by
    simp only [mem_append, mem_cons]
    rintro (h | h | h | h)
    · exact absurd h (by decide +kernel)
    · exact (isDigit_spec (hdigits a ha _ h)).2.2.2 rfl
    · exact absurd h (by decide)
    · exact (isDigit_spec (hdigits b hb _ h)).2.2.2 rfl
  have hne : ascii "bytes=" ++ (a ++ 0x2d :: b) ≠ [] := by simp
  have hpre : (ascii "bytes=").isPrefixOf (ascii "bytes=" ++ (a ++ 0x2d :: b)) =
      true := by
    rw [ List.isPrefixOf_iff_prefix]
    exact prefix_append _ _
  have hbody : (ascii "bytes=" ++ (a ++ 0x2d :: b)).drop 6 = a ++ 0x2d :: b :=
    drop_left' (by decide +kernel)
  have htake : (a ++ 0x2d :: b).takeWhile (fun c => decide (c ≠ 0x2d)) = a := by
    rw [takeWhile_append_of_pos hall]
    simp
  have hdrop : ((a ++ 0x2d :: b).dropWhile
      (fun c => decide (c ≠ 0x2d))).tail = b := by
    rw [dropWhile_append_of_pos hall]
    simp
  rw [parseRange, if_neg hne, if_neg (by simp [hpre, hcomma])]
  simp only [hbody, htake, hdrop]
  rw [if_neg (by simp)]
  rfl

theorem selectRange_of_parse {range : Bytes} {n s e : ℤ} (hne : range ≠ [])
    (h : parseRange range n = (s, e)) :
    selectRange range n =
      if 0 ≤ s ∧ s < e ∧ e ≤ n then some (s, e) else none := by
  simp only [selectRange, h]
  by_cases hok : 0 ≤ s ∧ s < e ∧ e ≤ n
  · rw [if_pos hok, if_neg (by omega)]
  · rw [if_neg hok, if_pos ⟨hne, by omega⟩]

theorem wrapInt64_succ {v : ℤ} (hv : 0 ≤ v) (hmax : v < 2 ^ 63) :
    wrapInt64 (v + 1) = if v = 2 ^ 63 - 1 then -2 ^ 63 else v + 1 := by
  split
  · rename_i heq
    rw [heq]
    rfl
  · exact wrapInt64_eq ⟨by omega, by omega⟩

/-- What is selected for the three forms of a range of an object that is not
empty. -/
theorem selectRange_digits {n : ℤ} (hn : 1 ≤ n) (hmax : n < 2 ^ 63) :
    (∀ a b, IsDigits a → IsDigits b →
      selectRange (ascii "bytes=" ++ (a ++ 0x2d :: b)) n =
        if decimal a ≤ decimal b ∧ decimal b < n then
          some ((decimal a : ℤ), (decimal b : ℤ) + 1) else none) ∧
      (∀ a, IsDigits a →
        selectRange (ascii "bytes=" ++ (a ++ [0x2d])) n =
          if decimal a < n then some ((decimal a : ℤ), n) else none) ∧
      ∀ s, IsDigits s →
        selectRange (ascii "bytes=" ++ (0x2d :: s)) n =
          if 0 < decimal s ∧ decimal s ≤ n then some (n - decimal s, n)
          else none := by
  have hne : ∀ range : Bytes, ascii "bytes=" ++ range ≠ [] := fun range =>
    append_ne_nil_of_left_ne_nil (by decide +kernel) range
  refine ⟨fun a b ha hb => ?_, fun a ha => ?_, fun s hs => ?_⟩
  · have hparse := parseRange_digits (.inr ha) (.inr hb) n
    rw [if_neg (by simp [ha.1]), if_neg (by simp [hb.1]), stoll_digits ha,
      stoll_digits hb] at hparse
    by_cases hfit : (decimal a : ℤ) < 2 ^ 63 ∧ (decimal b : ℤ) < 2 ^ 63
    · rw [if_pos hfit.1, if_pos hfit.2, Option.bind_some, Option.bind_some,
        wrapInt64_succ (by omega) hfit.2] at hparse
      rw [selectRange_of_parse (hne _) hparse]
      grind
    · rw [show Option.getD _ (-1, -1) = (-1, -1) by grind] at hparse
      rw [selectRange_of_parse (hne _) hparse]
      grind
  · have hparse := parseRange_digits (.inr ha) (.inl rfl) n
    rw [if_neg (by simp), if_pos (by simp [ha.1]), stoll_digits ha] at hparse
    by_cases hfit : (decimal a : ℤ) < 2 ^ 63
    · rw [if_pos hfit] at hparse
      rw [selectRange_of_parse (hne _) hparse]
      grind
    · rw [if_neg hfit] at hparse
      rw [selectRange_of_parse (hne _) hparse]
      grind
  · have hparse := parseRange_digits (.inl rfl) (.inr hs) n
    rw [if_pos (by simp [hs.1]), stoll_digits hs] at hparse
    by_cases hfit : (decimal s : ℤ) < 2 ^ 63
    · have hwrap : wrapInt64 (n - decimal s) = n - decimal s :=
        wrapInt64_eq ⟨by omega, by omega⟩
      rw [if_pos hfit, Option.map_some, hwrap] at hparse
      rw [← nil_append (0x2d :: s), selectRange_of_parse (hne _) hparse]
      grind
    · rw [if_neg hfit] at hparse
      rw [← nil_append (0x2d :: s), selectRange_of_parse (hne _) hparse]
      grind

theorem getObject_of_selectRange {range : Bytes} {n : ℤ} (hne : range ≠ []) :
    getObject range n = match selectRange range n with
      | none => notSatisfiable
      | some (rangeStart, rangeEnd) => partialContent rangeStart rangeEnd := by
  unfold getObject partialContent notSatisfiable
  simp only [ne_eq, hne, not_false_eq_true, if_true]

/-- A range of whatever form is refused or lies within the object. -/
theorem getObject_inside {range : Bytes} (hne : range ≠ []) (n : ℤ) :
    getObject range n = notSatisfiable ∨
      ∃ rangeStart rangeEnd, 0 ≤ rangeStart ∧ rangeStart < rangeEnd ∧
        rangeEnd ≤ n ∧
        getObject range n = partialContent rangeStart rangeEnd := by
  rw [getObject_of_selectRange hne,
    selectRange_of_parse hne (Prod.mk.eta (p := parseRange range n)).symm]
  split
  · exact .inl rfl
  · rename_i rangeStart rangeEnd heq
    rw [Option.ite_none_right_eq_some, Option.some_inj] at heq
    obtain ⟨hin, hpair⟩ := heq
    obtain ⟨rfl, rfl⟩ := Prod.mk.inj hpair
    exact .inr ⟨_, _, hin.1, hin.2.1, hin.2.2, rfl⟩

/-- The answers for the three forms of a range of an object that is not empty,
and the numbers with which the arithmetic stays in 64 bits. -/
theorem getObject_range {n : ℤ} (hn : 1 ≤ n) (hmax : n < 2 ^ 63) :
    (∀ a b, IsDigits a → IsDigits b → decimal b ≠ 2 ^ 63 - 1 →
      getObject (ascii "bytes=" ++ (a ++ 0x2d :: b)) n =
        if decimal a ≤ decimal b ∧ decimal b < n then
          partialContent (decimal a) (decimal b + 1) else notSatisfiable) ∧
      (∀ a, IsDigits a →
        getObject (ascii "bytes=" ++ (a ++ [0x2d])) n =
          if decimal a < n then partialContent (decimal a) n
          else notSatisfiable) ∧
      (∀ s, IsDigits s →
        getObject (ascii "bytes=" ++ (0x2d :: s)) n =
          if 0 < decimal s ∧ decimal s ≤ n then
            partialContent (n - decimal s) n else notSatisfiable) ∧
      (∀ range, range ≠ [] → getObject range n = notSatisfiable ∨
        ∃ rangeStart rangeEnd, 0 ≤ rangeStart ∧ rangeStart < rangeEnd ∧
          rangeEnd ≤ n ∧
          getObject range n = partialContent rangeStart rangeEnd) ∧
      ∀ d v, IsDigits d → stoll d = some v → v ≠ 2 ^ 63 - 1 →
        IsInt64 (n - v) ∧ IsInt64 (v + 1) := by
  have hne : ∀ range : Bytes, ascii "bytes=" ++ range ≠ [] := fun range =>
    append_ne_nil_of_left_ne_nil (by decide +kernel) range
  obtain ⟨hboth, hfirst, hlast⟩ := selectRange_digits hn hmax
  refine ⟨fun a b ha hb _ => ?_, fun a ha => ?_, fun s hs => ?_,
    fun range hrange => getObject_inside hrange n, fun d v hd hv hneq => ?_⟩
  · rw [getObject_of_selectRange (hne _), hboth a b ha hb]
    split_ifs <;> rfl
  · rw [getObject_of_selectRange (hne _), hfirst a ha]
    split_ifs <;> rfl
  · rw [getObject_of_selectRange (hne _), hlast s hs]
    split_ifs <;> rfl
  · rw [stoll_digits hd, Option.ite_none_right_eq_some, Option.some_inj] at hv
    obtain ⟨hlt, rfl⟩ := hv
    exact ⟨⟨by omega, by omega⟩, ⟨by omega, by omega⟩⟩

/-- Ten bytes of an object with a hundred. -/
theorem getObject_range_ten :
    getObject (ascii "bytes=010-19") 100 = partialContent 10 20 :=
  (getObject_range (by decide) (by decide)).1 (ascii "010") (ascii "19")
    (by decide +kernel) (by decide +kernel) (by decide +kernel)

/-- Ranges that reach beyond the end of an object with ten bytes select some
of its bytes, but are refused; a range that is answered lacks the
`Content-Range` header; the last number makes the sum overflow. -/
theorem not_getObject_clamped :
    getObject (ascii "bytes=0-10") 10 = notSatisfiable ∧
      getObject (ascii "bytes=-11") 10 = notSatisfiable ∧
      (getObject (ascii "bytes=0-4") 10).contentRange = none ∧
      parseRange (ascii "bytes=5-9223372036854775807") 10 = (5, -2 ^ 63) := by
  decide +kernel

end Hs5
