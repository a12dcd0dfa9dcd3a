import Hs5.S3.PartExts

/-!
# Part lists as maps

A list of runs stands for a finite map from part numbers to sizes.  This
module says what it means that `addPartExt` updates that map, and when it
does.
-/

namespace Hs5

open List

/-- The size that a list of runs gives for a part. -/
def partSize? (parts : List PartExt) (n : ℤ) : Option ℤ :=
  (parts.find? fun e => n ∈ e.numbers).map PartExt.size

/-- The list stands for a finite map: every run lists a part, and no part is in
two runs. -/
structure IsPartMap (parts : List PartExt) : Prop where
  len_pos : ∀ e ∈ parts, 0 < e.len
  disjoint : parts.Pairwise fun e e' => ∀ n ∈ e.numbers, n ∉ e'.numbers

/-- Every run ends before the next ones begin. -/
def RunsSorted (parts : List PartExt) : Prop :=
  parts.Pairwise fun e e' => e.start + e.len ≤ e'.start
  deriving Decidable

/-- `parts'` is `parts` with the size of one part updated. -/
structure PartUpdated (parts parts' : List PartExt)
    (partSize partNum : ℤ) : Prop where
  isPartMap : IsPartMap parts'
  size_eq : ∀ n, partSize? parts' n =
    if n = partNum then some partSize else partSize? parts n
  sorted : RunsSorted parts → RunsSorted parts'

/-- The part continues a run of its size, and the loop meets that run before
any run that it would split. -/
def ContinuesFirst (parts : List PartExt) (partSize partNum : ℤ) : Prop :=
  ∃ e ∈ parts.find? fun e =>
      e.Continues partSize partNum ∨ e.Splits partNum,
    e.Continues partSize partNum

/-- No run reaches beyond the part, except for a run of this part alone. -/
def EndsBefore (parts : List PartExt) (partNum : ℤ) : Prop :=
  ∀ e ∈ parts, e.start + e.len ≤ partNum ∨ e.start = partNum ∧ e.len = 1

/-- The part is new and continues a run, or it continues no run and comes
behind all of them. -/
def AddsInPlace (parts : List PartExt) (partSize partNum : ℤ) : Prop :=
  ContinuesFirst parts partSize partNum ∧ ¬ ListsPart parts partNum ∨
    (∀ e ∈ parts, ¬ e.Continues partSize partNum) ∧ EndsBefore parts partNum

/-! ## The map of a list -/

section Map

variable {parts : List PartExt}

theorem IsPartMap.sublist {parts' : List PartExt} (h : IsPartMap parts)
    (hsub : parts'.Sublist parts) : IsPartMap parts' :=
  ⟨fun e he => h.len_pos e (hsub.subset he), h.disjoint.sublist hsub⟩

theorem IsPartMap.partSize?_eq_some (h : IsPartMap parts) {n size : ℤ} :
    partSize? parts n = some size ↔
      ∃ e ∈ parts, n ∈ e.numbers ∧ e.size = size := by
  obtain ⟨-, hdisj⟩ := h
  induction parts with
  | nil => simp [partSize?]
  | cons part rest ih =>
    rw [pairwise_cons] at hdisj
    have ih := ih hdisj.2
    unfold partSize? at ih ⊢
    by_cases hpart : n ∈ part.numbers
    · have hrest : ∀ e ∈ rest, n ∉ e.numbers := fun e he => hdisj.1 e he n hpart
      rw [find?_cons_of_pos (by simpa using hpart)]
      simp only [Option.map_some, Option.some.injEq, mem_cons]
      constructor
      · intro hsize
        exact ⟨part, .inl rfl, hpart, hsize⟩
      · rintro ⟨e, rfl | he, hn, hsize⟩
        · exact hsize
        · exact absurd hn (hrest e he)
    · rw [find?_cons_of_neg (by simpa using hpart), ih]
      simp [hpart]

theorem IsPartMap.size_eq {parts' : List PartExt} (h : IsPartMap parts)
    (h' : IsPartMap parts') {partSize partNum : ℤ}
    (hnew : ∃ e ∈ parts', partNum ∈ e.numbers ∧ e.size = partSize)
    (hother : ∀ n, n ≠ partNum → ∀ size,
      (∃ e ∈ parts', n ∈ e.numbers ∧ e.size = size) ↔
        ∃ e ∈ parts, n ∈ e.numbers ∧ e.size = size) (n : ℤ) :
    partSize? parts' n =
      if n = partNum then some partSize else partSize? parts n := by
  by_cases hn : n = partNum
  · rw [if_pos hn, hn]
    exact h'.partSize?_eq_some.mpr hnew
  · rw [if_neg hn]
    apply Option.ext
    intro size
    rw [h'.partSize?_eq_some, h.partSize?_eq_some]
    exact hother n hn size

end Map

/-! ## A part that continues a run -/

section Continue

variable {l r : List PartExt} {e : PartExt} {partSize partNum : ℤ}

/-- The loop returns at the first run that the part continues, having passed
runs that it neither continues nor splits. -/
theorem addPartLoop_continue
    (hl : ∀ e ∈ l, ¬ e.Continues partSize partNum ∧ ¬ e.Splits partNum)
    (he : e.Continues partSize partNum) :
    addPartLoop partSize partNum (l ++ e :: r) =
      .returned (l ++ { e with len := e.len + 1 } :: r) := by
  induction l with
  | nil => simp [addPartLoop, he]
  | cons part rest ih =>
    obtain ⟨hcont, hsplit⟩ := hl part mem_cons_self
    have hrest := ih fun e he => hl e (mem_cons_of_mem _ he)
    rw [cons_append]
    simp [addPartLoop, hcont, hsplit, hrest, AddPartLoop.cons]

theorem mem_numbers_continued (hlen : 0 < e.len)
    (he : e.Continues partSize partNum) {n : ℤ} :
    n ∈ ({ e with len := e.len + 1 } : PartExt).numbers ↔
      n ∈ e.numbers ∨ n = partNum := by
  have hend := he.2
  simp only [PartExt.mem_numbers]
  omega

theorem isPartMap_continued (h : IsPartMap (l ++ e :: r))
    (he : e.Continues partSize partNum)
    (hnew : ¬ ListsPart (l ++ e :: r) partNum) :
    IsPartMap (l ++ { e with len := e.len + 1 } :: r) := by
  have hlen : 0 < e.len := h.len_pos e (by simp)
  have hnot : ∀ e' ∈ l ++ e :: r, partNum ∉ e'.numbers :=
    fun e' he' hn => hnew ⟨e', he', hn⟩
  obtain ⟨hl, hr, hcross⟩ := pairwise_append.mp h.disjoint
  rw [pairwise_cons] at hr
  refine ⟨?_, ?_⟩
  · intro e' he'
    rw [mem_append, mem_cons] at he'
    rcases he' with he' | rfl | he'
    · exact h.len_pos e' (by simp [he'])
    · simp only
      omega
    · exact h.len_pos e' (by simp [he'])
  · refine pairwise_append.mpr ⟨hl, ?_, ?_⟩
    · refine pairwise_cons.mpr ⟨?_, hr.2⟩
      intro e' he' n hn
      rcases (mem_numbers_continued hlen he).mp hn with hn | rfl
      · exact hr.1 e' he' n hn
      · exact hnot e' (by simp [he'])
    · intro e₁ he₁ e₂ he₂ n hn
      rcases mem_cons.mp he₂ with rfl | he₂
      · rw [mem_numbers_continued hlen he]
        rintro (hn' | rfl)
        · exact hcross e₁ he₁ e mem_cons_self n hn hn'
        · exact hnot e₁ (by simp [he₁]) hn
      · exact hcross e₁ he₁ e₂ (mem_cons_of_mem _ he₂) n hn

theorem runsSorted_continued (h : IsPartMap (l ++ e :: r))
    (he : e.Continues partSize partNum)
    (hnew : ¬ ListsPart (l ++ e :: r) partNum)
    (hsorted : RunsSorted (l ++ e :: r)) :
    RunsSorted (l ++ { e with len := e.len + 1 } :: r) := by
  obtain ⟨hl, hr, hcross⟩ := pairwise_append.mp hsorted
  rw [pairwise_cons] at hr
  refine pairwise_append.mpr ⟨hl, ?_, ?_⟩
  · refine pairwise_cons.mpr ⟨?_, hr.2⟩
    intro e' he'
    have hlen := h.len_pos e' (by simp [he'])
    have hnot : partNum ∉ e'.numbers := fun hn => hnew ⟨e', by simp [he'], hn⟩
    have hle := hr.1 e' he'
    have hend := he.2
    rw [PartExt.mem_numbers] at hnot
    simp only
    omega
  · intro e₁ he₁ e₂ he₂
    rcases mem_cons.mp he₂ with rfl | he₂
    · exact hcross e₁ he₁ e mem_cons_self
    · exact hcross e₁ he₁ e₂ (mem_cons_of_mem _ he₂)

theorem partUpdated_continued (h : IsPartMap (l ++ e :: r))
    (he : e.Continues partSize partNum)
    (hnew : ¬ ListsPart (l ++ e :: r) partNum) :
    PartUpdated (l ++ e :: r) (l ++ { e with len := e.len + 1 } :: r)
      partSize partNum := by
  have hlen : 0 < e.len := h.len_pos e (by simp)
  have hmap := isPartMap_continued h he hnew
  refine ⟨hmap, h.size_eq hmap ?_ ?_, runsSorted_continued h he hnew⟩
  · exact ⟨{ e with len := e.len + 1 }, by simp,
      (mem_numbers_continued hlen he).mpr (.inr rfl), he.1⟩
  · intro n hn size
    simp [mem_numbers_continued hlen he, hn, or_and_right, exists_or]

end Continue

/-! ## A part behind all runs -/

section Behind

variable {parts : List PartExt} {partSize partNum : ℤ}

theorem addPartLoop_finished
    (hcont : ∀ e ∈ parts, ¬ e.Continues partSize partNum) :
    addPartLoop partSize partNum parts =
      .finished (parts.map (cutRun partNum))
        (parts.flatMap fun e =>
          if e.Splits partNum then splitEnd partSize partNum e else [])
        (parts.any fun e => e.Splits partNum ∧ e.start = partNum) := by
  induction parts with
  | nil => rfl
  | cons part rest ih =>
    have hrest := ih fun e he => hcont e (mem_cons_of_mem _ he)
    have hpart := hcont part mem_cons_self
    by_cases hsplit : part.Splits partNum
    · have hempty : (partNum - part.start == 0) =
          decide (part.start = partNum) := by
        rw [Bool.eq_iff_iff, beq_iff_eq, decide_eq_true_eq]
        omega
      simp [addPartLoop, hpart, hsplit, hrest, AddPartLoop.keep,
        AddPartLoop.cons, cutRun, hempty]
    · simp [addPartLoop, hpart, hsplit, hrest, AddPartLoop.cons, cutRun]

/-- Of runs that do not reach beyond the part, only a run of that part alone is
split, and nothing of it is left. -/
theorem addPartLoop_behind
    (hcont : ∀ e ∈ parts, ¬ e.Continues partSize partNum)
    (hend : EndsBefore parts partNum) :
    addPartLoop partSize partNum parts =
      .finished (parts.map (cutRun partNum)) []
        (parts.any fun e => e.Splits partNum) := by
  have halone : ∀ e ∈ parts, e.Splits partNum →
      e.start = partNum ∧ e.len = 1 := by
    intro e he hsplit
    rcases hend e he with hle | halone
    · exact absurd hsplit.2 (by omega)
    · exact halone
  have hempty : (parts.flatMap fun e =>
      if e.Splits partNum then splitEnd partSize partNum e else []) = [] := by
    rw [flatMap_eq_nil_iff]
    intro e he
    by_cases hsplit : e.Splits partNum
    · have hlen := halone e he hsplit
      rw [if_pos hsplit, splitEnd, if_neg (by omega)]
    · rw [if_neg hsplit]
  have hany : (parts.any fun e => e.Splits partNum ∧ e.start = partNum) =
      parts.any fun e => e.Splits partNum := by
    rw [Bool.eq_iff_iff, any_eq_true, any_eq_true]
    refine exists_congr fun e => and_congr_right fun he => ?_
    rw [decide_eq_true_eq, decide_eq_true_eq]
    exact and_iff_left_of_imp fun hsplit => (halone e he hsplit).1
  rw [addPartLoop_finished hcont, hempty, hany]

theorem cutRun_len_pos {e : PartExt} (hlen : 0 < e.len) :
    0 < (cutRun partNum e).len ↔ ¬ e.Splits partNum := by
  by_cases hsplit : e.Splits partNum
  · have hstart := hsplit.1
    rw [cutRun, if_pos hsplit]
    exact iff_of_false (by simp only; omega) (not_not_intro hsplit)
  · simp [cutRun, hsplit, hlen]

theorem addPartExt_behind (h : IsPartMap parts)
    (hcont : ∀ e ∈ parts, ¬ e.Continues partSize partNum)
    (hend : EndsBefore parts partNum) :
    addPartExt parts partSize partNum =
      (parts.filter fun e => ¬ e.Splits partNum) ++
        [⟨partSize, partNum, 1⟩] := by
  have hkept : (parts.map (cutRun partNum)).filter (fun e => e.len > 0) =
      parts.filter fun e => ¬ e.Splits partNum := by
    rw [filter_map]
    have hfilter : parts.filter
          ((fun e => decide (e.len > 0)) ∘ cutRun partNum) =
        parts.filter fun e => ¬ e.Splits partNum := by
      apply filter_congr
      intro e he
      exact decide_eq_decide.mpr (cutRun_len_pos (h.len_pos e he))
    rw [hfilter]
    have hmap : ∀ e ∈ parts.filter fun e => ¬ e.Splits partNum,
        cutRun partNum e = e := by
      intro e he
      have hsplit : ¬ e.Splits partNum := by
        simpa using (mem_filter.mp he).2
      rw [cutRun, if_neg hsplit]
    exact (map_congr_left hmap).trans (map_id' _)
  unfold addPartExt
  rw [addPartLoop_behind hcont hend]
  simp only [append_nil]
  by_cases hany : (parts.any fun e => e.Splits partNum) = true
  · rw [if_pos hany, filter_append, hkept]
    rfl
  · have hnone : ∀ e ∈ parts, ¬ e.Splits partNum := by simpa using hany
    have hmap : parts.map (cutRun partNum) = parts := by
      have hcut : ∀ e ∈ parts, cutRun partNum e = e :=
        fun e he => if_neg (hnone e he)
      exact (map_congr_left hcut).trans (map_id' _)
    have hall : parts.filter (fun e => ¬ e.Splits partNum) = parts :=
      filter_eq_self.mpr fun e he => by simpa using hnone e he
    rw [if_neg hany, hmap, hall]

theorem end_le_of_kept (hend : EndsBefore parts partNum) {e : PartExt}
    (he : e ∈ parts.filter fun e => ¬ e.Splits partNum) :
    e.start + e.len ≤ partNum := by
  obtain ⟨he, hsplit⟩ := mem_filter.mp he
  rcases hend e he with hle | ⟨hstart, hlen⟩
  · exact hle
  · have hsplits : e.Splits partNum := ⟨by omega, by omega⟩
    simp [hsplits] at hsplit

theorem eq_of_dropped (hend : EndsBefore parts partNum) {e : PartExt}
    (he : e ∈ parts) (hsplit : e.Splits partNum) {n : ℤ}
    (hn : n ∈ e.numbers) : n = partNum := by
  rw [PartExt.mem_numbers] at hn
  have hreach := hsplit.2
  rcases hend e he with hle | halone
  · omega
  · omega

theorem partUpdated_behind (h : IsPartMap parts)
    (hend : EndsBefore parts partNum) :
    PartUpdated parts
      ((parts.filter fun e => ¬ e.Splits partNum) ++
        [⟨partSize, partNum, 1⟩]) partSize partNum := by
  have hkept : IsPartMap (parts.filter fun e => ¬ e.Splits partNum) :=
    h.sublist filter_sublist
  have hself : partNum ∈ (⟨partSize, partNum, 1⟩ : PartExt).numbers := by
    simp [PartExt.mem_numbers]
  have hmap : IsPartMap ((parts.filter fun e => ¬ e.Splits partNum) ++
      [⟨partSize, partNum, 1⟩]) := by
    refine ⟨?_, ?_⟩
    · intro e he
      rcases mem_append.mp he with he | he
      · exact hkept.len_pos e he
      · rw [mem_singleton.mp he]
        simp only
        omega
    · refine pairwise_append.mpr
        ⟨hkept.disjoint, pairwise_singleton _ _, ?_⟩
      intro e he e' he' n hn hn'
      have hle := end_le_of_kept hend he
      rw [mem_singleton.mp he'] at hn'
      rw [PartExt.mem_numbers] at hn hn'
      simp only at hn'
      omega
  refine ⟨hmap, h.size_eq hmap ⟨_, by simp, hself, rfl⟩ ?_, ?_⟩
  · intro n hn size
    constructor
    · rintro ⟨e, he, hne, hsize⟩
      rcases mem_append.mp he with he | he
      · exact ⟨e, mem_of_mem_filter he, hne, hsize⟩
      · rw [mem_singleton.mp he, PartExt.mem_numbers] at hne
        simp only at hne
        omega
    · rintro ⟨e, he, hne, hsize⟩
      have hsplit : ¬ e.Splits partNum :=
        fun hsplit => hn (eq_of_dropped hend he hsplit hne)
      exact ⟨e, by simp [he, hsplit], hne, hsize⟩
  · intro hsorted
    refine pairwise_append.mpr
      ⟨hsorted.sublist filter_sublist, pairwise_singleton _ _, ?_⟩
    intro e he e' he'
    rw [mem_singleton.mp he']
    exact end_le_of_kept hend he

end Behind

/-! ## Updating the map -/

section Update

variable {parts : List PartExt} {partSize partNum : ℤ}

theorem ContinuesFirst.append (h : ContinuesFirst parts partSize partNum) :
    ∃ l e r, parts = l ++ e :: r ∧ e.Continues partSize partNum ∧
      ∀ e ∈ l, ¬ e.Continues partSize partNum ∧ ¬ e.Splits partNum := by
  obtain ⟨e, hfind, he⟩ := h
  obtain ⟨-, l, r, rfl, hl⟩ := find?_eq_some_iff_append.mp hfind
  refine ⟨l, e, r, rfl, he, ?_⟩
  intro e' he'
  simpa using hl e' he'

theorem addsInPlace_partUpdated (h : IsPartMap parts)
    (hadds : AddsInPlace parts partSize partNum) :
    PartUpdated parts (addPartExt parts partSize partNum) partSize
      partNum := by
  rcases hadds with ⟨hfirst, hnew⟩ | ⟨hcont, hend⟩
  · obtain ⟨l, e, r, rfl, he, hl⟩ := hfirst.append
    have hadd : addPartExt (l ++ e :: r) partSize partNum =
        l ++ { e with len := e.len + 1 } :: r := by
      simp [addPartExt, addPartLoop_continue hl he]
    rw [hadd]
    exact partUpdated_continued h he hnew
  · rw [addPartExt_behind h hcont hend]
    exact partUpdated_behind h hend

/-- A run of the part's size before the part comes before all runs that would
be split. -/
theorem continuesFirst_of_sorted (h : IsPartMap parts)
    (hsorted : RunsSorted parts) {e : PartExt} (he : e ∈ parts)
    (hcont : e.Continues partSize partNum) :
    ContinuesFirst parts partSize partNum := by
  have hsome : (parts.find? fun e =>
      e.Continues partSize partNum ∨ e.Splits partNum).isSome :=
    find?_isSome.mpr ⟨e, he, by simp [hcont]⟩
  obtain ⟨first, hfind⟩ := Option.isSome_iff_exists.mp hsome
  refine ⟨first, hfind, ?_⟩
  obtain ⟨hfirst, l, r, rfl, hl⟩ := find?_eq_some_iff_append.mp hfind
  rcases (by simpa using hfirst : first.Continues partSize partNum ∨
    first.Splits partNum) with hfirst | hsplit
  · exact hfirst
  · have hlen := h.len_pos e he
    have hend := hcont.2
    have hstart := hsplit.1
    have hreach := hsplit.2
    rcases mem_append.mp he with hel | her
    · have hnot := hl e hel
      simp [hcont] at hnot
    · rcases mem_cons.mp her with rfl | her
      · exact hcont
      · have hle := (pairwise_cons.mp
          (pairwise_append.mp hsorted).2.1).1 e her
        omega

theorem not_listsPart_of_continued {l r : List PartExt} {e : PartExt}
    (h : IsPartMap (l ++ e :: r)) (he : e.Continues partSize partNum)
    (hmap : IsPartMap (l ++ { e with len := e.len + 1 } :: r)) :
    ¬ ListsPart (l ++ e :: r) partNum := by
  have hlen := h.len_pos e (by simp)
  have hend := he.2
  have hin : partNum ∈ ({ e with len := e.len + 1 } : PartExt).numbers :=
    (mem_numbers_continued hlen he).mpr (.inr rfl)
  obtain ⟨-, hr, hcross⟩ := pairwise_append.mp hmap.disjoint
  rintro ⟨e', he', hn⟩
  rcases mem_append.mp he' with hel | her
  · exact hcross e' hel _ mem_cons_self partNum hn hin
  · rcases mem_cons.mp her with rfl | her
    · rw [PartExt.mem_numbers] at hn
      omega
    · exact (pairwise_cons.mp hr).1 e' her partNum hin hn

theorem addPartExt_uncontinued
    (hcont : ∀ e ∈ parts, ¬ e.Continues partSize partNum) :
    ∃ kept, addPartExt parts partSize partNum =
        kept ++ [⟨partSize, partNum, 1⟩] ∧
      (∀ e ∈ parts, ¬ e.Splits partNum → 0 < e.len → e ∈ kept) ∧
      ∀ e ∈ parts, e.Splits partNum → ∀ e' ∈ splitEnd partSize partNum e,
        e' ∈ kept := by
  set pieces := parts.map (cutRun partNum) ++ parts.flatMap fun e =>
    if e.Splits partNum then splitEnd partSize partNum e else [] with hpieces
  have hwhole : ∀ e ∈ parts, ¬ e.Splits partNum → e ∈ pieces := by
    intro e he hsplit
    refine mem_append_left _ (mem_map.mpr ⟨e, he, ?_⟩)
    rw [cutRun, if_neg hsplit]
  have hends : ∀ e ∈ parts, e.Splits partNum →
      ∀ e' ∈ splitEnd partSize partNum e, e' ∈ pieces ∧ 0 < e'.len := by
    intro e he hsplit e' he'
    refine ⟨mem_append_right _ (mem_flatMap.mpr ⟨e, he, ?_⟩), ?_⟩
    · rwa [if_pos hsplit]
    · unfold splitEnd at he'
      dsimp only at he'
      split at he'
      · rwa [mem_singleton.mp he']
      · exact absurd he' not_mem_nil
  rw [addPartExt, addPartLoop_finished hcont]
  dsimp only
  rw [← hpieces]
  split
  · refine ⟨pieces.filter fun e => e.len > 0, ?_, ?_, ?_⟩
    · rw [filter_append]
      rfl
    · intro e he hsplit hlen
      exact mem_filter.mpr ⟨hwhole e he hsplit, by simpa using hlen⟩
    · intro e he hsplit e' he'
      obtain ⟨hmem, hlen⟩ := hends e he hsplit e' he'
      exact mem_filter.mpr ⟨hmem, by simpa using hlen⟩
  · exact ⟨pieces, rfl, fun e he hsplit _ => hwhole e he hsplit,
      fun e he hsplit e' he' => (hends e he hsplit e' he').1⟩

/-- The end of a split run comes out of order, and a run that contains the part
and is not split lists it a second time. -/
theorem endsBefore_of_partUpdated (h : IsPartMap parts)
    (hsorted : RunsSorted parts)
    (hcont : ∀ e ∈ parts, ¬ e.Continues partSize partNum)
    (hupdated : PartUpdated parts (addPartExt parts partSize partNum) partSize
      partNum) : EndsBefore parts partNum := by
  obtain ⟨kept, heq, hwhole, hends⟩ := addPartExt_uncontinued hcont
  have hmap := hupdated.isPartMap
  have hresult := hupdated.sorted hsorted
  rw [heq] at hmap hresult
  have hlast : ∀ e ∈ kept, ∀ n ∈ e.numbers, n ≠ partNum := by
    rintro e he n hn rfl
    refine (pairwise_append.mp hmap.disjoint).2.2 e he _
      mem_cons_self n hn ?_
    simp [PartExt.mem_numbers]
  intro e he
  have hlen := h.len_pos e he
  by_contra hbeyond
  rw [not_or] at hbeyond
  by_cases hstart : e.start < partNum
  · have hsplit : ¬ e.Splits partNum := fun hsplit => by
      have := hsplit.1
      omega
    refine hlast e (hwhole e he hsplit hlen) partNum ?_ rfl
    rw [PartExt.mem_numbers]
    omega
  · have hsplit : e.Splits partNum := ⟨by omega, by omega⟩
    have hend : (⟨partSize, partNum + 1, e.start + e.len - partNum - 1⟩ :
        PartExt) ∈ splitEnd partSize partNum e := by
      unfold splitEnd
      dsimp only
      rw [if_pos (by omega)]
      exact mem_cons_self
    have hle := (pairwise_append.mp hresult).2.2 _
      (hends e he hsplit _ hend) _ mem_cons_self
    simp only at hle
    omega

theorem addsInPlace_of_partUpdated (h : IsPartMap parts)
    (hsorted : RunsSorted parts)
    (hupdated : PartUpdated parts (addPartExt parts partSize partNum) partSize
      partNum) : AddsInPlace parts partSize partNum := by
  by_cases hcont : ∃ e ∈ parts, e.Continues partSize partNum
  · obtain ⟨e, he, hcont⟩ := hcont
    have hfirst := continuesFirst_of_sorted h hsorted he hcont
    refine .inl ⟨hfirst, ?_⟩
    obtain ⟨l, e, r, rfl, he, hl⟩ := hfirst.append
    have hmap := hupdated.isPartMap
    rw [addPartExt, addPartLoop_continue hl he] at hmap
    exact not_listsPart_of_continued h he hmap
  · have hnone : ∀ e ∈ parts, ¬ e.Continues partSize partNum :=
      fun e he hc => hcont ⟨e, he, hc⟩
    exact .inr ⟨hnone, endsBefore_of_partUpdated h hsorted hnone hupdated⟩

end Update

/-- A part that continues a run before any run is split, or that comes behind
all runs, is added to the map that the list stands for.  In a sorted list no
other part is. -/
theorem addPartExt_updates (parts : List PartExt) (partSize partNum : ℤ)
    (h : IsPartMap parts) :
    (AddsInPlace parts partSize partNum →
      PartUpdated parts (addPartExt parts partSize partNum) partSize
        partNum) ∧
    (RunsSorted parts →
      (PartUpdated parts (addPartExt parts partSize partNum) partSize
          partNum ↔
        AddsInPlace parts partSize partNum)) :=
  ⟨addsInPlace_partUpdated h, fun hsorted =>
    ⟨addsInPlace_of_partUpdated h hsorted, addsInPlace_partUpdated h⟩⟩

/-- Part 3 continues the run of parts 1 and 2. -/
theorem addPartExt_updates_next :
    addPartExt [⟨5, 1, 2⟩] 5 3 = [⟨5, 1, 3⟩] ∧
      PartUpdated [⟨5, 1, 2⟩] (addPartExt [⟨5, 1, 2⟩] 5 3) 5 3 := by
  have hmap : IsPartMap [⟨5, 1, 2⟩] := ⟨by simp, pairwise_singleton _ _⟩
  have hadds : AddsInPlace [⟨5, 1, 2⟩] 5 3 := by
    refine .inl ⟨⟨⟨5, 1, 2⟩, by decide, by decide⟩, ?_⟩
    simp [ListsPart, PartExt.mem_numbers]
  exact ⟨by decide, (addPartExt_updates _ 5 3 hmap).1 hadds⟩

/-- Part 1 after part 3: the run of part 3 is cut to a negative length, and part
2 is listed, which nobody uploaded. -/
theorem not_addPartExt_updates :
    (IsPartMap [⟨5, 3, 1⟩] ∧
      addPartExt [⟨5, 3, 1⟩] 5 1 = [⟨5, 3, -2⟩, ⟨5, 2, 2⟩, ⟨5, 1, 1⟩] ∧
      ¬ PartUpdated [⟨5, 3, 1⟩] (addPartExt [⟨5, 3, 1⟩] 5 1) 5 1) ∧
    (IsPartMap [⟨5, 1, 3⟩] ∧
      addPartExt [⟨5, 1, 3⟩] 7 2 = [⟨5, 1, 3⟩, ⟨7, 2, 1⟩] ∧
      ¬ PartUpdated [⟨5, 1, 3⟩] (addPartExt [⟨5, 1, 3⟩] 7 2) 7 2) := by
  refine ⟨⟨⟨by simp, pairwise_singleton _ _⟩, by decide, ?_⟩,
    ⟨by simp, pairwise_singleton _ _⟩, by decide, ?_⟩
  · intro hupdated
    have hsize := hupdated.size_eq 2
    revert hsize
    decide
  · intro hupdated
    have hsize := hupdated.size_eq 2
    revert hsize
    decide

end Hs5
