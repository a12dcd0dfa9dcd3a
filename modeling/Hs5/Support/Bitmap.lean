import Hs5.Support.Cover

/-!
# Marking intervals in a bitmap

A scan enters intervals into a bitmap one after the other and notes whether
one of them met a bit that was set before.  `Marked s s' l C` says what a part
of a scan that enters the intervals `l` under the condition `C` has done: if
nothing was noted, every bit counts the intervals over it.  Parts of a scan
compose, and a scan that notes nothing has entered pairwise disjoint
intervals.
-/

namespace Bitmap

open List Cover

def getRange (bits : ℤ → Bool) (i : ℤ × ℤ) : Bool :=
  (List.range (i.2 - i.1).toNat).any fun k : ℕ => bits (i.1 + (k : ℤ))

def setRange (bits : ℤ → Bool) (i : ℤ × ℤ) (x : ℤ) : Bool :=
  if i.1 ≤ x ∧ x < i.2 then true else bits x

/-- The bitmap of a scan, and whether it has noted no error. -/
structure Scan where
  bits : ℤ → Bool
  ok : Bool

namespace Scan

def start : Scan := ⟨fun _ => false, true⟩

def mark (s : Scan) (i : ℤ × ℤ) : Scan :=
  ⟨setRange s.bits i, s.ok && !getRange s.bits i⟩

def fail (s : Scan) : Scan := { s with ok := false }

/-- Set the bits of an interval that has been entered. -/
def set (s : Scan) (i : ℤ × ℤ) : Scan := { s with bits := setRange s.bits i }

def count (s : Scan) (x : ℤ) : ℕ := if s.bits x then 1 else 0

end Scan

theorem getRange_eq_true {bits : ℤ → Bool} {i : ℤ × ℤ} :
    getRange bits i = true ↔ ∃ x, i.1 ≤ x ∧ x < i.2 ∧ bits x = true := by
  simp only [getRange, any_eq_true, mem_range]
  constructor
  · rintro ⟨k, hk, hbit⟩
    exact ⟨i.1 + k, by omega, by omega, hbit⟩
  · rintro ⟨x, hlo, hhi, hbit⟩
    refine ⟨(x - i.1).toNat, by omega, ?_⟩
    rwa [Int.toNat_of_nonneg (by omega), add_sub_cancel]

/-- A part of a scan that enters the intervals `l` and checks `C`. -/
structure Marked (s s' : Scan) (l : List (ℤ × ℤ)) (C : Prop) : Prop where
  ok_iff : s'.ok = true ↔ s.ok = true ∧ C ∧ ∀ x, s.count x + mult l x ≤ 1
  count : s'.ok = true → ∀ x, s'.count x = s.count x + mult l x

variable {s s' s'' : Scan} {l l' : List (ℤ × ℤ)} {C C' : Prop}

namespace Scan

theorem count_le_one (s : Scan) (x : ℤ) : s.count x ≤ 1 := by
  unfold count
  split <;> simp

theorem count_eq_one {x : ℤ} : s.count x = 1 ↔ s.bits x = true := by
  simp [count]

@[simp] theorem count_start (x : ℤ) : start.count x = 0 := rfl

end Scan

theorem marked_refl (s : Scan) : Marked s s [] True := by
  refine ⟨?_, fun _ x => rfl⟩
  simp only [mult_nil, add_zero, true_and]
  exact ⟨fun hok => ⟨hok, s.count_le_one⟩, fun h => h.1⟩

theorem Marked.trans (h : Marked s s' l C) (h' : Marked s' s'' l' C') :
    Marked s s'' (l ++ l') (C ∧ C') := by
  have hiff : s''.ok = true ↔ s.ok = true ∧ (C ∧ C') ∧
      ∀ x, s.count x + mult (l ++ l') x ≤ 1 := by
    rw [h'.ok_iff]
    constructor
    · rintro ⟨hok, hC', hle⟩
      obtain ⟨hok₀, hC, -⟩ := h.ok_iff.mp hok
      refine ⟨hok₀, ⟨hC, hC'⟩, fun x => ?_⟩
      have hx := hle x
      rw [h.count hok x] at hx
      rw [mult_append]
      omega
    · rintro ⟨hok₀, ⟨hC, hC'⟩, hle⟩
      have hok : s'.ok = true := by
        refine h.ok_iff.mpr ⟨hok₀, hC, fun x => ?_⟩
        have hx := hle x
        rw [mult_append] at hx
        omega
      refine ⟨hok, hC', fun x => ?_⟩
      have hx := hle x
      rw [mult_append] at hx
      rw [h.count hok x]
      omega
  refine ⟨hiff, fun hok x => ?_⟩
  have hok' : s'.ok = true := (h'.ok_iff.mp hok).1
  rw [h'.count hok x, h.count hok' x, mult_append]
  omega

theorem Marked.congr (h : Marked s s' l C) (hC : C ↔ C') :
    Marked s s' l C' :=
  ⟨by rw [h.ok_iff, hC], h.count⟩

theorem marked_mark (s : Scan) (i : ℤ × ℤ) :
    Marked s (s.mark i) [i] True := by
  have hbits : ∀ x, (s.mark i).bits x =
      if i.1 ≤ x ∧ x < i.2 then true else s.bits x := fun _ => rfl
  have hclear : getRange s.bits i = false ↔
      ∀ x, s.count x + mult [i] x ≤ 1 := by
    rw [← Bool.not_eq_true, getRange_eq_true]
    constructor
    · intro hnone x
      by_cases hx : i.1 ≤ x ∧ x < i.2
      · have hbit : s.bits x ≠ true := fun h => hnone ⟨x, hx.1, hx.2, h⟩
        simp [Scan.count, hbit, ind, hx]
      · have := s.count_le_one x
        simp [ind, hx, this]
    · rintro hle ⟨x, hlo, hhi, hbit⟩
      have hx := hle x
      rw [Scan.count_eq_one.mpr hbit] at hx
      simp [ind, hlo, hhi] at hx
  have hok : (s.mark i).ok = true ↔ s.ok = true ∧ True ∧
      ∀ x, s.count x + mult [i] x ≤ 1 := by
    rw [← hclear]
    simp [Scan.mark]
  refine ⟨hok, fun h x => ?_⟩
  have hx := (hok.mp h).2.2 x
  by_cases hin : i.1 ≤ x ∧ x < i.2
  · have hmult : mult [i] x = 1 := by simp [ind, hin]
    have hset : (s.mark i).count x = 1 :=
      Scan.count_eq_one.mpr (by rw [hbits, if_pos hin])
    omega
  · have hmult : mult [i] x = 0 := by simp [ind, hin]
    have hsame : (s.mark i).count x = s.count x := by
      rw [Scan.count, hbits, if_neg hin]
      rfl
    omega

theorem marked_foldl {α : Type*} {f : Scan → α → Scan}
    {range : α → List (ℤ × ℤ)} {check : α → Prop}
    (hf : ∀ s a, Marked s (f s a) (range a) (check a)) (s : Scan)
    (items : List α) :
    Marked s (items.foldl f s) (items.flatMap range)
      (∀ a ∈ items, check a) := by
  induction items generalizing s with
  | nil => exact (marked_refl s).congr (by simp)
  | cons a items ih =>
    rw [foldl_cons, flatMap_cons]
    exact ((hf s a).trans (ih (f s a))).congr (by simp)

theorem marked_foldl_map {α : Type*} {f : Scan → α → Scan}
    {range : α → ℤ × ℤ} {check : α → Prop}
    (hf : ∀ s a, Marked s (f s a) [range a] (check a)) (s : Scan)
    (items : List α) :
    Marked s (items.foldl f s) (items.map range) (∀ a ∈ items, check a) := by
  rw [map_eq_flatMap]
  exact marked_foldl hf s items

theorem marked_of_failed (hok : s'.ok = false) (hC : ¬ C) :
    Marked s s' l C := by
  refine ⟨?_, fun h => absurd (hok.symm.trans h) Bool.false_ne_true⟩
  rw [hok]
  exact ⟨fun h => absurd h Bool.false_ne_true, fun h => absurd h.2.1 hC⟩

theorem Marked.ok_of_fail (h : Marked s.fail s' l C) : s'.ok = false := by
  rw [← Bool.not_eq_true, h.ok_iff]
  rintro ⟨hok, -⟩
  exact Bool.false_ne_true hok

theorem Marked.of_start (h : Marked Scan.start s l C) :
    s.ok = true ↔ C ∧ PairwiseDisjoint l := by
  rw [h.ok_iff, pairwiseDisjoint_iff]
  simp [Scan.start, Scan.count]

theorem foldl_eq_of_ok {α : Type*} {f g : Scan → α → Scan}
    (hfg : ∀ s a, (f s a).ok = true → s.ok = true ∧ g s a = f s a) {s : Scan}
    {items : List α} (hok : (items.foldl f s).ok = true) :
    s.ok = true ∧ items.foldl g s = items.foldl f s := by
  induction items generalizing s with
  | nil => exact ⟨hok, rfl⟩
  | cons a items ih =>
    obtain ⟨hstep, hrest⟩ := ih hok
    obtain ⟨hs, heq⟩ := hfg s a hstep
    refine ⟨hs, ?_⟩
    rw [foldl_cons, foldl_cons, heq]
    exact hrest

/-! ## Runs of unset bits -/

/-- The loop over `n` bits from `i` on; `first` is the first bit of the run of
unset bits before `i`. -/
def runsFrom (bits : ℤ → Bool) : ℕ → ℤ → Option ℤ → List (ℤ × ℤ)
  | 0, _, none => []
  | 0, i, some first => [(first, i)]
  | n + 1, i, none =>
    if bits i then runsFrom bits n (i + 1) none
    else runsFrom bits n (i + 1) (some i)
  | n + 1, i, some first =>
    if bits i then (first, i) :: runsFrom bits n (i + 1) none
    else runsFrom bits n (i + 1) (some first)

/-- The maximal runs of unset bits among the first `n`. -/
def unsetRuns (bits : ℤ → Bool) (n : ℤ) : List (ℤ × ℤ) :=
  runsFrom bits n.toNat 0 none

/-- The run before `i`. -/
def openRun (first : Option ℤ) (i : ℤ) : List (ℤ × ℤ) :=
  match first with
  | none => []
  | some a => [(a, i)]

theorem mult_runsFrom (bits : ℤ → Bool) (n : ℕ) {i : ℤ} {first : Option ℤ}
    (hfirst : ∀ a, first = some a → a < i) (x : ℤ) :
    mult (runsFrom bits n i first) x = mult (openRun first i) x +
      if i ≤ x ∧ x < i + n ∧ bits x = false then 1 else 0 := by
  induction n generalizing i first with
  | zero =>
    have hnone : ¬ (i ≤ x ∧ x < i + (0 : ℕ) ∧ bits x = false) := by
      rintro ⟨hlo, hhi, -⟩
      omega
    rw [if_neg hnone, add_zero]
    rcases first with _ | a
    · rfl
    · rfl
  | succ n ih =>
    have hsplit : (if i ≤ x ∧ x < i + (n + 1 : ℕ) ∧ bits x = false
          then 1 else 0) =
        (if x = i ∧ bits i = false then 1 else 0) +
        if i + 1 ≤ x ∧ x < i + 1 + n ∧ bits x = false then 1 else 0 := by
      by_cases hx : x = i
      · subst hx
        rw [if_neg (by omega : ¬ (x + 1 ≤ x ∧ _))]
        have hin : x ≤ x ∧ x < x + (n + 1 : ℕ) := by omega
        simp only [hin, true_and, add_zero]
      · rw [if_neg (fun h => hx h.1 : ¬ (x = i ∧ _)), zero_add]
        congr 1
        refine propext ⟨?_, ?_⟩
        · rintro ⟨hlo, hhi, hbit⟩
          exact ⟨by omega, by omega, hbit⟩
        · rintro ⟨hlo, hhi, hbit⟩
          exact ⟨by omega, by omega, hbit⟩
    have hpoint : ind (i, i + 1) x = if x = i then 1 else 0 := by
      rw [ind]
      congr 1
      refine propext ⟨fun h => ?_, fun h => ?_⟩
      · dsimp only at h
        omega
      · dsimp only
        omega
    rw [hsplit]
    rcases first with _ | a
    · rw [runsFrom]
      by_cases hbit : bits i = true
      · rw [if_pos hbit, ih (by simp)]
        simp [hbit, openRun]
      · have hunset : bits i = false := by simpa using hbit
        rw [if_neg hbit, ih (by simp)]
        simp [hunset, openRun, hpoint]
    · have hlt : a < i := hfirst a rfl
      rw [runsFrom]
      by_cases hbit : bits i = true
      · rw [if_pos hbit, mult_cons, ih (by simp)]
        simp [hbit, openRun]
      · have hunset : bits i = false := by simpa using hbit
        have hgrow := ind_split (show a ≤ i by omega)
          (show i ≤ i + 1 by omega) x
        rw [if_neg hbit, ih (by simp; omega)]
        simp only [openRun, mult_cons, mult_nil, hgrow, hpoint, hunset,
          and_true]
        omega

theorem mult_unsetRuns (bits : ℤ → Bool) (n : ℤ) (x : ℤ) :
    mult (unsetRuns bits n) x =
      if 0 ≤ x ∧ x < n ∧ bits x = false then 1 else 0 := by
  rw [unsetRuns, mult_runsFrom bits n.toNat (by simp)]
  simp only [openRun, mult_nil, zero_add]
  congr 1
  refine propext ⟨?_, ?_⟩
  · rintro ⟨hlo, hhi, hbit⟩
    exact ⟨hlo, by omega, hbit⟩
  · rintro ⟨hlo, hhi, hbit⟩
    exact ⟨hlo, by omega, hbit⟩

theorem mem_runsFrom {bits : ℤ → Bool} {n : ℕ} {i : ℤ} {first : Option ℤ}
    (hfirst : ∀ a, first = some a → 0 ≤ a ∧ a < i) (hi : 0 ≤ i) {r : ℤ × ℤ}
    (hr : r ∈ runsFrom bits n i first) : 0 ≤ r.1 ∧ r.1 < r.2 ∧ r.2 ≤ i + n := by
  induction n generalizing i first with
  | zero =>
    rcases first with _ | a
    · exact absurd hr not_mem_nil
    · obtain rfl := mem_singleton.mp hr
      obtain ⟨hlo, hhi⟩ := hfirst a rfl
      exact ⟨hlo, hhi, by simp⟩
  | succ n ih =>
    have hnext : ∀ {first'}, (∀ a, first' = some a → 0 ≤ a ∧ a < i + 1) →
        r ∈ runsFrom bits n (i + 1) first' →
        0 ≤ r.1 ∧ r.1 < r.2 ∧ r.2 ≤ i + (n + 1 : ℕ) := by
      intro first' hfirst' hr'
      obtain ⟨hlo, hlt, hhi⟩ := ih hfirst' (by omega) hr'
      exact ⟨hlo, hlt, by push_cast; omega⟩
    rcases first with _ | a
    · rw [runsFrom] at hr
      split at hr
      · exact hnext (by simp) hr
      · exact hnext (by simp [hi]) hr
    · obtain ⟨hlo, hhi⟩ := hfirst a rfl
      rw [runsFrom] at hr
      split at hr
      · rcases mem_cons.mp hr with rfl | hr
        · exact ⟨hlo, hhi, by dsimp only; omega⟩
        · exact hnext (by simp) hr
      · refine hnext ?_ hr
        rintro a' ha'
        cases ha'
        omega

theorem mem_unsetRuns {bits : ℤ → Bool} {n : ℤ} {r : ℤ × ℤ}
    (hr : r ∈ unsetRuns bits n) : 0 ≤ r.1 ∧ r.1 < r.2 ∧ r.2 ≤ n := by
  obtain ⟨hlo, hlt, hhi⟩ := mem_runsFrom (by simp) (Int.le_refl 0) hr
  exact ⟨hlo, hlt, by omega⟩

theorem pairwise_unsetRuns (bits : ℤ → Bool) (n : ℤ) :
    (unsetRuns bits n).Pairwise fun r r' => r.1 ≠ r'.1 := by
  have hdisjoint : PairwiseDisjoint (unsetRuns bits n) := by
    rw [pairwiseDisjoint_iff]
    intro x
    rw [mult_unsetRuns]
    split <;> simp
  refine hdisjoint.imp_of_mem fun hr hr' hdis heq => ?_
  have hlt := (mem_unsetRuns hr).2.1
  have hlt' := (mem_unsetRuns hr').2.1
  refine Set.disjoint_left.mp hdis (Set.left_mem_Ico.mpr hlt) ?_
  rw [heq]
  exact Set.left_mem_Ico.mpr hlt'

theorem Scan.count_add_unsetRuns (s : Scan) (n x : ℤ) :
    s.count x + mult (unsetRuns s.bits n) x ≤ 1 ∧
      (0 ≤ x → x < n → 0 < s.count x + mult (unsetRuns s.bits n) x) := by
  have hle := s.count_le_one x
  rw [mult_unsetRuns]
  rcases Bool.eq_false_or_eq_true (s.bits x) with hbit | hbit
  · rw [Scan.count_eq_one.mpr hbit, if_neg (by simp [hbit])]
    exact ⟨by omega, fun _ _ => by omega⟩
  · have hzero : s.count x = 0 := by simp [Scan.count, hbit]
    rw [hzero]
    refine ⟨by split <;> simp, fun hlo hhi => ?_⟩
    rw [if_pos ⟨hlo, hhi, hbit⟩]
    omega

theorem unsetRuns_eq_nil {bits : ℤ → Bool} {n : ℤ} :
    unsetRuns bits n = [] ↔ ∀ x, 0 ≤ x → x < n → bits x = true := by
  constructor
  · intro hnil x hlo hhi
    by_contra hbit
    have hx := mult_unsetRuns bits n x
    rw [hnil, if_pos ⟨hlo, hhi, by simpa using hbit⟩] at hx
    exact absurd hx (by simp)
  · intro hall
    rw [eq_nil_iff_forall_not_mem]
    intro r hr
    obtain ⟨hlo, hlt, hhi⟩ := mem_unsetRuns hr
    have hone := ind_le_mult hr r.1
    rw [mult_unsetRuns, ind, if_pos ⟨le_refl _, hlt⟩,
      hall r.1 hlo (by omega)] at hone
    simp at hone

end Bitmap
