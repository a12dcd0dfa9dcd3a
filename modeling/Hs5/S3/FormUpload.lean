import Hs5.Storage.WritePrepare

/-!
# Shrinking the extents of a form upload

The size of a file in a form is known only at its end, so `PostObject`
reserves space for the whole request body and `onBodyCPU` gives back what was
not written.  It walks over the extents from the last one, drops those without
a byte of the file, cuts the next one off with `remove_extent_end`, and queues
`FreeExtents` items for both.
-/

namespace Hs5.S3

open List Cover

/-! ## The loop in `onBodyCPU` -/

/-- `remove_extent_end`, with the items it queues. -/
def removeExtentEnd (offset len : ℤ) : List (List SPunchItem) :=
  if offset.tdiv blockSize = (offset + len).tdiv blockSize then []
  else freeExtentsItems [⟨0, offset, len⟩]

structure Shrink where
  /-- `extents`, last one first -/
  extents : List Ext
  putRemaining : ℤ
  toRemoveExtents : List Ext
  /-- `FreeExtents` items queued by `remove_extent_end` -/
  queued : List (List SPunchItem)
  deriving DecidableEq

/-- `while (toremove > 0 && !extents.empty())` -/
def shrinkLoop : List Ext → ℤ → ℤ → List Ext → Shrink
  | [], _, putRemaining, toRemoveExtents =>
    ⟨[], putRemaining, toRemoveExtents, []⟩
  | ext :: exts, toremove, putRemaining, toRemoveExtents =>
    if toremove ≤ 0 then
      ⟨ext :: exts, putRemaining, toRemoveExtents, []⟩
    else if ext.len ≤ toremove then
      shrinkLoop exts (toremove - ext.len) (putRemaining - ext.len)
        (toRemoveExtents ++ [ext])
    else
      let len := ext.len - toremove
      ⟨{ ext with len := len } :: exts, putRemaining - toremove,
        toRemoveExtents, removeExtentEnd (ext.dataFileOffset + len) toremove⟩

/-- The retained extents, what remains to be received, and the `FreeExtents`
items in the order they are queued. -/
structure ShrinkResult where
  extents : List Ext
  putRemaining : ℤ
  items : List (List SPunchItem)
  deriving DecidableEq

/-- What `onBodyCPU` does with the extents of a `PostObject` request at the
end of the file. -/
def shrinkExtents (extents : List Ext) (putRemaining : ℤ) : ShrinkResult :=
  if putRemaining > 0 then
    let r := shrinkLoop extents.reverse putRemaining putRemaining []
    ⟨r.extents.reverse, r.putRemaining,
      r.queued ++ freeExtentsItems r.toRemoveExtents⟩
  else ⟨extents, putRemaining, []⟩

/-- The commit thread frees the items one after the other. -/
def freeItems {K : Type} [LinearOrder K] (c : CommitState K)
    (items : List (List SPunchItem)) : Option (CommitState K) :=
  items.foldlM CommitState.freeExtents c

/-! ## Extents of the first bytes -/

/-- The extents of the first `n` bytes of an object. -/
def coveringExts (exts : List Ext) (n : ℤ) : List Ext := exts.filterMap fun e =>
    if e.objOffset < n then some { e with len := min e.len (n - e.objOffset) }
    else none

theorem coveringExts_eq_self {exts : List Ext} {a b n : ℤ}
    (h : Tiles a exts b) (hle : b ≤ n) : coveringExts exts n = exts := by
  induction exts generalizing a with
  | nil => rfl
  | cons e exts ih =>
    obtain ⟨hoff, hpos, hrest⟩ := h
    have hend := hrest.le
    have hlt : e.objOffset < n := by omega
    have hmin : min e.len (n - e.objOffset) = e.len := by omega
    have htail := ih hrest
    rw [coveringExts] at htail ⊢
    rw [filterMap_cons_some (b := e) (by simp [hlt, hmin]), htail]

theorem coveringExts_eq_nil {exts : List Ext} {a b n : ℤ}
    (h : Tiles a exts b) (hle : n ≤ a) : coveringExts exts n = [] := by
  induction exts generalizing a with
  | nil => rfl
  | cons e exts ih =>
    obtain ⟨hoff, hpos, hrest⟩ := h
    have hnot : ¬ e.objOffset < n := by omega
    have hcons : coveringExts (e :: exts) n = coveringExts exts n :=
      filterMap_cons_none (if_neg hnot)
    rw [hcons]
    exact ih hrest (by omega)

theorem coveringExts_append (exts exts' : List Ext) (n : ℤ) :
    coveringExts (exts ++ exts') n =
      coveringExts exts n ++ coveringExts exts' n :=
  filterMap_append

theorem coveringExts_whole {s t : List Ext} {a b n : ℤ} (hs : Tiles a s n)
    (ht : Tiles n t b) : coveringExts (s ++ t) n = s := by
  rw [coveringExts_append, coveringExts_eq_self hs le_rfl,
    coveringExts_eq_nil ht le_rfl, append_nil]

theorem coveringExts_cut {s t : List Ext} {e : Ext} {a b n : ℤ}
    (h : Tiles a (s ++ e :: t) b) (hlo : e.objOffset < n)
    (hhi : n < e.objOffset + e.len) :
    coveringExts (s ++ e :: t) n = s ++ [{ e with len := n - e.objOffset }] := by
  obtain ⟨m, hs, rfl, hpos, ht⟩ := h.of_append
  have hmin : min e.len (n - e.objOffset) = n - e.objOffset := by omega
  have hcons : coveringExts (e :: t) n =
      { e with len := min e.len (n - e.objOffset) } :: coveringExts t n :=
    filterMap_cons_some (if_pos hlo)
  rw [coveringExts_append, coveringExts_eq_self hs hlo.le, hcons,
    coveringExts_eq_nil ht hhi.le, hmin]

theorem aligned_of_mem_coveringExts {exts : List Ext} {n : ℤ}
    (h : ∀ e ∈ exts, e.punchItem.Aligned) {e : Ext}
    (he : e ∈ coveringExts exts n) : e.punchItem.Aligned := by
  obtain ⟨e', he', heq⟩ := mem_filterMap.mp he
  rw [Option.ite_none_right_eq_some] at heq
  obtain ⟨hlt, heq⟩ := heq
  cases heq
  have hold := h e' he'
  have hpos : 0 < e'.len := hold.pos
  exact ⟨hold.nonneg, hold.dvd, by simp only [Ext.punchItem]; omega⟩

/-! ## What the loop frees -/

/-- If `n` bytes cut the extent, the retained part ends on a block boundary
just when the extent ends in a later block. -/
def CutExact (n : ℤ) (e : Ext) : Prop :=
  e.objOffset < n → n < e.objOffset + e.len →
    (blockSize ∣ n - e.objOffset ↔
      (e.dataFileOffset + (n - e.objOffset)) / blockSize ≠
        (e.dataFileOffset + e.len) / blockSize)

/-- How often the freed ranges of the items contain a byte. -/
def freedMult (items : List (List SPunchItem)) (x : ℤ) : ℕ :=
  mult (items.flatten.map SPunchItem.span) x

def spans (exts : List Ext) : List (ℤ × ℤ) := exts.map fun e => e.punchItem.span

section Cut

variable {e : Ext} {n : ℤ} (hnonneg : 0 ≤ e.dataFileOffset)
  (hlo : e.objOffset < n) (hhi : n < e.objOffset + e.len)

include hnonneg hlo hhi

theorem removeExtentEnd_of_eq
    (h : (e.dataFileOffset + (n - e.objOffset)) / blockSize =
      (e.dataFileOffset + e.len) / blockSize) :
    removeExtentEnd (e.dataFileOffset + (n - e.objOffset))
      (e.objOffset + e.len - n) = [] := by
  have hstop : e.dataFileOffset + (n - e.objOffset) +
      (e.objOffset + e.len - n) = e.dataFileOffset + e.len := by omega
  rw [removeExtentEnd, hstop, Int.tdiv_eq_ediv_of_nonneg (by omega),
    Int.tdiv_eq_ediv_of_nonneg (by omega), if_pos h]

theorem removeExtentEnd_of_ne
    (h : (e.dataFileOffset + (n - e.objOffset)) / blockSize ≠
      (e.dataFileOffset + e.len) / blockSize) :
    removeExtentEnd (e.dataFileOffset + (n - e.objOffset))
      (e.objOffset + e.len - n) =
        [[⟨e.dataFileOffset + (n - e.objOffset),
          e.objOffset + e.len - n⟩]] := by
  have hstop : e.dataFileOffset + (n - e.objOffset) +
      (e.objOffset + e.len - n) = e.dataFileOffset + e.len := by omega
  rw [removeExtentEnd, hstop, Int.tdiv_eq_ediv_of_nonneg (by omega),
    Int.tdiv_eq_ediv_of_nonneg (by omega), if_neg h]
  refine if_neg fun hzero => ?_
  have hlen : e.objOffset + e.len - n = 0 := hzero.2
  omega

end Cut

/-- Cutting an extent divides its blocks between the retained part and the
freed range. -/
theorem removeExtentEnd_spec {e : Ext} {n : ℤ} (he : e.punchItem.Aligned)
    (hexact : CutExact n e) (hlo : e.objOffset < n)
    (hhi : n < e.objOffset + e.len) :
    let items := removeExtentEnd (e.dataFileOffset + (n - e.objOffset))
      (e.objOffset + e.len - n)
    (∀ item ∈ items, ∀ i ∈ item, i.Aligned) ∧
      ∀ x, ind ((⟨e.dataFileOffset, n - e.objOffset⟩ : SPunchItem).span) x +
        freedMult items x = ind e.punchItem.span x := by
  have hnonneg : 0 ≤ e.dataFileOffset := he.nonneg
  have hdvd : blockSize ∣ e.dataFileOffset := he.dvd
  have hcut := hexact hlo hhi
  have hround : roundUp (n - e.objOffset) = _ := roundUp_nonneg (by omega)
  have hroundLen : roundUp e.len = _ := roundUp_nonneg (by omega)
  have hroundRest : roundUp (e.objOffset + e.len - n) = _ :=
    roundUp_nonneg (by omega)
  by_cases hsame : (e.dataFileOffset + (n - e.objOffset)) / blockSize =
      (e.dataFileOffset + e.len) / blockSize
  · have hinside : ¬ blockSize ∣ n - e.objOffset := fun h =>
      hcut.mp h hsame
    rw [removeExtentEnd_of_eq hnonneg hlo hhi hsame]
    refine ⟨by simp, fun x => ?_⟩
    have hequal : roundUp (n - e.objOffset) = roundUp e.len := by
      unfold blockSize at hdvd hsame hinside
      omega
    simp [freedMult, SPunchItem.span, Ext.punchItem, hequal]
  · have hboundary : blockSize ∣ n - e.objOffset := hcut.mpr hsame
    rw [removeExtentEnd_of_ne hnonneg hlo hhi hsame]
    constructor
    · intro item hmem i hi
      rw [mem_singleton.mp hmem] at hi
      rw [mem_singleton.mp hi]
      exact ⟨by simp only; omega, dvd_add hdvd hboundary, by simp only; omega⟩
    · intro x
      have hkept : roundUp (n - e.objOffset) = n - e.objOffset :=
        roundUp_of_dvd (by omega) hboundary
      have hrest : n - e.objOffset + roundUp (e.objOffset + e.len - n) =
          roundUp e.len := by
        unfold blockSize at hboundary
        omega
      have hsplit := ind_split (a := e.dataFileOffset)
        (m := e.dataFileOffset + (n - e.objOffset))
        (b := e.dataFileOffset + roundUp e.len) (by omega) (by omega) x
      have hend : e.dataFileOffset + (n - e.objOffset) +
          roundUp (e.objOffset + e.len - n) =
            e.dataFileOffset + roundUp e.len := by omega
      simp only [freedMult, flatten_cons, flatten_nil,
        append_nil, map_cons, map_nil, mult_cons, mult_nil,
        SPunchItem.span, Ext.punchItem, hkept, hend]
      omega

theorem mult_spans_reverse (exts : List Ext) (x : ℤ) :
    mult (spans exts.reverse) x = mult (spans exts) x :=
  mult_perm (exts.reverse_perm.map _) x

/-- The loop drops the extents `t`, which lie behind the first `n` bytes. -/
theorem shrinkLoop_drop (exts : List Ext) {t : List Ext} {m size n : ℤ}
    (putRemaining : ℤ) (toRemoveExtents : List Ext) (ht : Tiles m t size)
    (hle : n ≤ m) :
    shrinkLoop (exts ++ t).reverse (size - n) putRemaining toRemoveExtents =
      shrinkLoop exts.reverse (m - n) (putRemaining - (size - m))
        (toRemoveExtents ++ t.reverse) := by
  induction t using List.reverseRecOn
      generalizing size putRemaining toRemoveExtents with
  | nil =>
    have hend : m = size := ht
    rw [hend, sub_self, sub_zero, append_nil, reverse_nil, append_nil]
  | append_singleton t e ih =>
    obtain ⟨hinit, hpos, hsize⟩ := ht.of_concat
    have hbehind := hinit.le
    have hstep : size - n - e.len = e.objOffset - n := by omega
    have hput : putRemaining - e.len - (e.objOffset - m) =
        putRemaining - (size - m) := by omega
    rw [← append_assoc, reverse_append, reverse_singleton, singleton_append,
      shrinkLoop, if_neg (by omega), if_pos (by omega), hstep, ih _ _ hinit,
      hput, reverse_append, reverse_singleton, append_assoc]

theorem shrinkLoop_zero (exts : List Ext) (putRemaining : ℤ)
    (toRemoveExtents : List Ext) :
    shrinkLoop exts 0 putRemaining toRemoveExtents =
      ⟨exts, putRemaining, toRemoveExtents, []⟩ := by
  cases exts with
  | nil => rfl
  | cons e exts => exact if_pos le_rfl

section Split

variable {s t : List Ext} {size n : ℤ}

theorem shrinkExtents_whole (ht : Tiles n t size) (hlt : n < size) :
    shrinkExtents (s ++ t) (size - n) = ⟨s, 0, freeExtentsItems t.reverse⟩ := by
  rw [shrinkExtents, if_pos (by omega), shrinkLoop_drop s _ _ ht le_rfl,
    sub_self, sub_self, shrinkLoop_zero]
  simp only [reverse_reverse, nil_append]

/-- The result where `n` bytes end inside the extent `e`. -/
theorem shrinkExtents_cut {e : Ext} (htiles : Tiles 0 (s ++ e :: t) size)
    (hlo : e.objOffset < n) (hhi : n < e.objOffset + e.len) :
    shrinkExtents (s ++ e :: t) (size - n) =
      ⟨s ++ [{ e with len := n - e.objOffset }], 0,
        removeExtentEnd (e.dataFileOffset + (n - e.objOffset))
          (e.objOffset + e.len - n) ++ freeExtentsItems t.reverse⟩ := by
  obtain ⟨m, hs, rfl, hpos, ht⟩ := htiles.of_append
  have hend := ht.le
  have hlen : e.len - (e.objOffset + e.len - n) = n - e.objOffset := by omega
  have hput : size - n - (size - (e.objOffset + e.len)) -
      (e.objOffset + e.len - n) = 0 := by omega
  rw [shrinkExtents, if_pos (by omega), append_cons,
    shrinkLoop_drop (s ++ [e]) _ _ ht hhi.le, reverse_append,
    reverse_singleton, singleton_append, shrinkLoop, if_neg (by omega),
    if_neg (by omega)]
  simp only [hlen, hput, reverse_cons, reverse_reverse, nil_append]

end Split

/-! ## Freeing the items -/

theorem aligned_freeExtentsItems {exts : List Ext}
    (h : ∀ e ∈ exts, e.punchItem.Aligned) {item : List SPunchItem}
    (hmem : item ∈ freeExtentsItems exts) : ∀ i ∈ item, i.Aligned := by
  by_cases hnil : exts = []
  · rw [hnil] at hmem
    exact absurd hmem not_mem_nil
  · rw [freeExtentsItems_of_pos (fun e he => (h e he).pos) hnil] at hmem
    rw [mem_singleton.mp hmem]
    intro i hi
    obtain ⟨e, he, rfl⟩ := mem_map.mp hi
    exact h e he

theorem freedMult_freeExtentsItems {exts : List Ext}
    (h : ∀ e ∈ exts, e.punchItem.Aligned) (x : ℤ) :
    freedMult (freeExtentsItems exts) x = mult (spans exts) x := by
  by_cases hnil : exts = []
  · rw [hnil]
    rfl
  · rw [freeExtentsItems_of_pos (fun e he => (h e he).pos) hnil]
    simp [freedMult, spans, Function.comp_def]

theorem freedMult_append (items items' : List (List SPunchItem)) (x : ℤ) :
    freedMult (items ++ items') x = freedMult items x + freedMult items' x := by
  simp only [freedMult, flatten_append, map_append, mult_append]

/-- The loop retains the extents of the first `n` bytes, and frees each other
byte of the reserved blocks once. -/
theorem shrinkExtents_spec {exts : List Ext} {size n : ℤ}
    (hprepared : Prepared size exts) (hnonneg : 0 ≤ n) (hlt : n < size)
    (hexact : ∀ e ∈ exts, CutExact n e) :
    ∃ items, shrinkExtents exts (size - n) = ⟨coveringExts exts n, 0, items⟩ ∧
      Tiles 0 (coveringExts exts n) n ∧
      (∀ item ∈ items, ∀ i ∈ item, i.Aligned) ∧
      ∀ x, mult (spans (coveringExts exts n)) x + freedMult items x =
        mult (spans exts) x := by
  rcases hprepared.tiles.split hnonneg hlt.le with
    ⟨s, t, rfl, hs, ht⟩ | ⟨s, e, t, rfl, hlo, hhi⟩
  · have haligned : ∀ e ∈ t.reverse, e.punchItem.Aligned := fun e he =>
      hprepared.aligned e (mem_append_right s (mem_reverse.mp he))
    rw [coveringExts_whole hs ht]
    refine ⟨_, shrinkExtents_whole ht hlt, hs,
      fun item => aligned_freeExtentsItems haligned, ?_⟩
    intro x
    rw [freedMult_freeExtentsItems haligned, mult_spans_reverse, spans, spans,
      spans, map_append, mult_append]
  · have haligned : ∀ e' ∈ t.reverse, e'.punchItem.Aligned := fun e' he' =>
      hprepared.aligned e' (mem_append_right s
        (mem_cons_of_mem e (mem_reverse.mp he')))
    have he : e ∈ s ++ e :: t := mem_append_right s mem_cons_self
    rw [coveringExts_cut hprepared.tiles hlo hhi]
    obtain ⟨hitems, hsplit⟩ :=
      removeExtentEnd_spec (hprepared.aligned e he) (hexact e he) hlo hhi
    refine ⟨_, shrinkExtents_cut hprepared.tiles hlo hhi, ?_, ?_, ?_⟩
    · obtain ⟨m, hs, rfl, _⟩ := hprepared.tiles.of_append
      exact hs.append ⟨rfl, by simp only; omega, by simp only [Tiles]; omega⟩
    · intro item hmem
      rcases mem_append.mp hmem with hmem | hmem
      · exact hitems item hmem
      · exact aligned_freeExtentsItems haligned hmem
    · intro x
      have hx := hsplit x
      rw [freedMult_append, freedMult_freeExtentsItems haligned,
        mult_spans_reverse]
      simp only [spans, map_append, mult_append, map_cons, mult_cons, map_nil,
        mult_nil, Ext.punchItem] at hx ⊢
      omega

theorem freeItems_spec {K : Type} [LinearOrder K] {c : CommitState K}
    (hok : c.WellFormed) {items : List (List SPunchItem)}
    (haligned : ∀ item ∈ items, ∀ i ∈ item, i.Aligned)
    (hone : ∀ x, c.owned x + freedMult items x ≤ 1) :
    ∃ c', freeItems c items = some c' ∧
      ∀ x, c'.fm.freeMult x = c.fm.freeMult x + freedMult items x := by
  induction items generalizing c with
  | nil => exact ⟨c, rfl, fun x => rfl⟩
  | cons item items ih =>
    have hsplit : ∀ x, freedMult (item :: items) x =
        mult (item.map SPunchItem.span) x + freedMult items x := by
      intro x
      simp [freedMult]
    have hitem := haligned item mem_cons_self
    obtain ⟨c₁, hc₁, hok₁, _, _, howned⟩ :=
      CommitState.freeExtents_spec hok hitem (fun x => by
        have hx := hone x
        rw [hsplit] at hx
        omega)
    obtain ⟨c', hc', hmult⟩ := ih hok₁
      (fun i hi => haligned i (mem_cons_of_mem _ hi)) (fun x => by
        have hx := hone x
        rw [hsplit] at hx
        rw [howned]
        omega)
    refine ⟨c', ?_, fun x => ?_⟩
    · rw [freeItems, foldlM_cons, hc₁]
      exact hc'
    · have hfirst := CommitState.freeExtents_freeMult
        (fun i hi => (hitem i hi).dvd) hc₁ (howned x)
      rw [hmult, hfirst, hsplit, Nat.add_assoc]

/-- The bytes of the reserved blocks in which no retained byte lies. -/
def unusedBlocks (exts kept : List Ext) : Set ℤ :=
  {x | (∃ e ∈ exts, x ∈ Set.Ico e.punchItem.span.1 e.punchItem.span.2) ∧
    ∀ e ∈ kept, ¬ e.punchItem.HasBlock (x / blockSize)}

theorem mem_span_iff {e : SPunchItem} (he : e.Aligned) {x : ℤ} :
    x ∈ Set.Ico e.span.1 e.span.2 ↔ e.HasBlock (x / blockSize) := by
  have hdvd := he.dvd
  have hpos := he.pos
  have hround : roundUp e.len = _ := roundUp_nonneg (by omega)
  unfold blockSize at hdvd
  simp only [SPunchItem.span, SPunchItem.HasBlock, Set.mem_Ico, blockSize]
  constructor
  · rintro ⟨hlo, hhi⟩
    exact ⟨x / 4096 * 4096, by omega, by omega, by omega⟩
  · rintro ⟨y, hlo, hhi, hblock⟩
    exact ⟨by omega, by omega⟩

theorem mult_spans_pos {exts : List Ext} {x : ℤ} :
    0 < mult (spans exts) x ↔
      ∃ e ∈ exts, x ∈ Set.Ico e.punchItem.span.1 e.punchItem.span.2 := by
  simp only [mult_pos_iff, spans, mem_map, exists_exists_and_eq_and,
    Set.mem_Ico]

theorem mem_unusedBlocks_iff {exts kept : List Ext}
    (hkept : ∀ e ∈ kept, e.punchItem.Aligned) {x : ℤ} :
    x ∈ unusedBlocks exts kept ↔
      0 < mult (spans exts) x ∧ ¬ 0 < mult (spans kept) x := by
  have hblock : 0 < mult (spans kept) x ↔
      ∃ e ∈ kept, e.punchItem.HasBlock (x / blockSize) := by
    rw [mult_spans_pos]
    exact exists_congr fun e =>
      and_congr_right fun he => mem_span_iff (hkept e he)
  rw [hblock, mult_spans_pos]
  simp [unusedBlocks]

section Freed

variable {fm fm' : Freemap} {exts kept : List Ext}

theorem freeBytes_eq_union (hkept : ∀ e ∈ kept, e.punchItem.Aligned)
    (hle : ∀ x, mult (spans kept) x ≤ mult (spans exts) x)
    (htotal : ∀ x, fm'.freeMult x + mult (spans kept) x =
      fm.freeMult x + mult (spans exts) x)
    (honce : ∀ x, fm.freeMult x + mult (spans exts) x ≤ 1) :
    fm'.freeBytes = fm.freeBytes ∪ unusedBlocks exts kept := by
  ext x
  have hr := hle x
  have hx := htotal x
  have ho := honce x
  rw [Set.mem_union, mem_unusedBlocks_iff hkept, Freemap.mem_freeBytes_iff,
    Freemap.mem_freeBytes_iff]
  constructor
  · intro hfree
    omega
  · intro hfree
    omega

theorem disjoint_freeBytes_retained
    (htotal : ∀ x, fm'.freeMult x + mult (spans kept) x =
      fm.freeMult x + mult (spans exts) x)
    (honce : ∀ x, fm.freeMult x + mult (spans exts) x ≤ 1) {e : Ext}
    (he : e ∈ kept) :
    Disjoint fm'.freeBytes (Set.Ico e.punchItem.span.1 e.punchItem.span.2) := by
  rw [Set.disjoint_left]
  intro x hfree hmem
  have hfreePos := Freemap.mem_freeBytes_iff.mp hfree
  have hkeptPos : 0 < mult (spans kept) x := mult_spans_pos.mpr ⟨e, he, hmem⟩
  have hx := htotal x
  have ho := honce x
  omega

end Freed

/-- What shrinking the extents of an upload to `n` bytes does. -/
structure ShrinkExact {K : Type} [LinearOrder K] (c : CommitState K)
    (exts : List Ext) (n : ℤ) (r : ShrinkResult) : Prop where
  /-- exactly the extents of the actual bytes are retained -/
  extents : r.extents = coveringExts exts n
  tiles : Tiles 0 r.extents n
  putRemaining : r.putRemaining = 0
  /-- whole blocks are freed -/
  aligned : ∀ item ∈ r.items, ∀ i ∈ item, blockSize ∣ i.offset
  /-- every reserved block is either retained or freed, and freed once -/
  freed : ∃ c', freeItems c r.items = some c' ∧
    (∀ x, c'.fm.freeMult x + mult (spans r.extents) x =
      c.fm.freeMult x + mult (spans exts) x) ∧
    c'.fm.freeBytes = c.fm.freeBytes ∪ unusedBlocks exts r.extents ∧
    ∀ e ∈ r.extents, Disjoint c'.fm.freeBytes
      (Set.Ico e.punchItem.span.1 e.punchItem.span.2)

section Shrunk

variable {K : Type} [LinearOrder K] {c : CommitState K} {exts : List Ext}
  {size n : ℤ}

theorem shrinkExtents_of_cutExact (hok : c.WellFormed)
    (hprepared : Prepared size exts)
    (hone : ∀ x, c.owned x + mult (spans exts) x ≤ 1)
    (hnonneg : 0 ≤ n) (hlt : n < size)
    (hexact : ∀ e ∈ exts, CutExact n e) :
    ShrinkExact c exts n (shrinkExtents exts (size - n)) := by
  obtain ⟨items, hresult, htiles, hitems, hsum⟩ :=
    shrinkExtents_spec hprepared hnonneg hlt hexact
  rw [hresult]
  obtain ⟨c', hc', hmult⟩ := freeItems_spec hok hitems (fun x => by
    have hx := hone x
    have hs := hsum x
    omega)
  have htotal : ∀ x, c'.fm.freeMult x + mult (spans (coveringExts exts n)) x =
      c.fm.freeMult x + mult (spans exts) x := by
    intro x
    have hx := hmult x
    have hs := hsum x
    omega
  have hle : ∀ x, mult (spans (coveringExts exts n)) x ≤
      mult (spans exts) x := by
    intro x
    rw [← hsum x]
    exact Nat.le_add_right _ _
  have honce : ∀ x, c.fm.freeMult x + mult (spans exts) x ≤ 1 := by
    intro x
    have hx := hone x
    simp only [CommitState.owned] at hx
    omega
  exact ⟨rfl, htiles, rfl, fun item hmem i hi => (hitems item hmem i hi).dvd,
    c', hc', htotal, freeBytes_eq_union
      (fun e => aligned_of_mem_coveringExts hprepared.aligned) hle htotal honce,
    fun e he => disjoint_freeBytes_retained htotal honce he⟩

/-- If the retained part fills its last block and nothing is queued for the
cut extent, the block behind is lost. -/
theorem cut_block_freed (hok : c.WellFormed) {s t : List Ext} {e : Ext}
    (hprepared : Prepared size (s ++ e :: t))
    (hone : ∀ x, c.owned x + mult (spans (s ++ e :: t)) x ≤ 1)
    (hlo : e.objOffset < n) (hhi : n < e.objOffset + e.len)
    (h : ShrinkExact c (s ++ e :: t) n
      (shrinkExtents (s ++ e :: t) (size - n)))
    (hdvd : blockSize ∣ n - e.objOffset) :
    removeExtentEnd (e.dataFileOffset + (n - e.objOffset))
      (e.objOffset + e.len - n) ≠ [] := by
  intro hnil
  have hfreed := h.freed
  rw [shrinkExtents_cut hprepared.tiles hlo hhi, hnil,
    nil_append] at hfreed
  obtain ⟨c', hc', htotal, _⟩ := hfreed
  have haligned : ∀ e' ∈ t.reverse, e'.punchItem.Aligned := fun e' he' =>
    hprepared.aligned e' (mem_append_right s
      (mem_cons_of_mem e (mem_reverse.mp he')))
  have hmult : ∀ (e' : Ext) (t' : List Ext) (x : ℤ),
      mult (spans (s ++ e' :: t')) x =
        mult (spans s) x + ind e'.punchItem.span x + mult (spans t') x := by
    intro e' t' x
    simp only [spans, map_append, mult_append, map_cons, mult_cons]
    omega
  obtain ⟨c₁, hc₁, hfree⟩ := freeItems_spec hok
    (fun item => aligned_freeExtentsItems haligned) (fun x => by
      have hx := hone x
      rw [hmult] at hx
      rw [freedMult_freeExtentsItems haligned, mult_spans_reverse]
      omega)
  have heq : c₁ = c' := Option.some.inj (hc₁.symm.trans hc')
  have hat := htotal (e.dataFileOffset + (n - e.objOffset))
  have hround : roundUp e.len = _ := roundUp_nonneg (by omega)
  have hkept : roundUp (n - e.objOffset) = n - e.objOffset :=
    roundUp_of_dvd (by omega) hdvd
  have hin : ind e.punchItem.span (e.dataFileOffset + (n - e.objOffset)) = 1 :=
    ind_eq_one.mpr ⟨by simp only [SPunchItem.span, Ext.punchItem]; omega,
      by simp only [SPunchItem.span, Ext.punchItem]; omega⟩
  have hout : ind ((⟨e.dataFileOffset, n - e.objOffset⟩ : SPunchItem).span)
      (e.dataFileOffset + (n - e.objOffset)) = 0 := by
    simp [ind, SPunchItem.span, hkept]
  rw [← heq, hfree, freedMult_freeExtentsItems haligned, mult_spans_reverse,
    hmult, hmult] at hat
  simp only [Ext.punchItem, spans, map_nil, mult_nil] at hat hin hout
  omega

/-- If a range is queued for the cut extent, it starts at a block boundary
only if the retained part ends there. -/
theorem cut_aligned {s t : List Ext} {e : Ext}
    (hprepared : Prepared size (s ++ e :: t))
    (hlo : e.objOffset < n) (hhi : n < e.objOffset + e.len)
    (h : ShrinkExact c (s ++ e :: t) n
      (shrinkExtents (s ++ e :: t) (size - n)))
    (hne : (e.dataFileOffset + (n - e.objOffset)) / blockSize ≠
      (e.dataFileOffset + e.len) / blockSize) :
    blockSize ∣ n - e.objOffset := by
  have he := hprepared.aligned e (mem_append_right s mem_cons_self)
  have hnonneg : 0 ≤ e.dataFileOffset := he.nonneg
  have hqueued := removeExtentEnd_of_ne hnonneg hlo hhi hne
  have haligned := h.aligned
  rw [shrinkExtents_cut hprepared.tiles hlo hhi, hqueued] at haligned
  exact (Int.dvd_add_right he.dvd).mp
    (haligned _ mem_cons_self _ mem_cons_self)

theorem cutExact_of_shrinkExact (hok : c.WellFormed)
    (hprepared : Prepared size exts)
    (hone : ∀ x, c.owned x + mult (spans exts) x ≤ 1)
    (h : ShrinkExact c exts n (shrinkExtents exts (size - n))) :
    ∀ e ∈ exts, CutExact n e := by
  intro e he hlo hhi
  obtain ⟨s, t, rfl⟩ := append_of_mem he
  have hnonneg : 0 ≤ e.dataFileOffset := (hprepared.aligned e he).nonneg
  constructor
  · intro hdvd hsame
    exact cut_block_freed hok hprepared hone hlo hhi h hdvd
      (removeExtentEnd_of_eq hnonneg hlo hhi hsame)
  · exact cut_aligned hprepared hlo hhi h

/-- Shrinking the extents `write_prepare` has returned, which nobody else owns,
is right just where the cut of an extent does not split a block and does not
leave one behind. -/
theorem shrinkExtents_exact (hok : c.WellFormed)
    (hprepared : Prepared size exts)
    (hone : ∀ x, c.owned x + mult (spans exts) x ≤ 1)
    (hnonneg : 0 ≤ n) (hlt : n < size) :
    ShrinkExact c exts n (shrinkExtents exts (size - n)) ↔
      ∀ e ∈ exts, CutExact n e :=
  ⟨cutExact_of_shrinkExact hok hprepared hone,
    shrinkExtents_of_cutExact hok hprepared hone hnonneg hlt⟩

end Shrunk

def emptyStore : CommitState ℕ :=
  (AllocState.init AllocState.twoBlockChunks).commit

def twoExtents : List Ext := [⟨0, 0, 8192⟩, ⟨8192, 16384, 8192⟩]

/-- Only the first block is written. -/
theorem shrinkExtents_exact_twoExtents :
    ShrinkExact emptyStore twoExtents 4096
      (shrinkExtents twoExtents (16384 - 4096)) := by
  have hchunk : blockSize ∣ AllocState.twoBlockChunks.allocChunkSize := by
    decide
  have hok : emptyStore.WellFormed := (AllocState.inv_init hchunk).wellFormed
  have hprepared : Prepared 16384 twoExtents := by
    refine ⟨⟨rfl, by decide, rfl, by decide, rfl⟩, ?_, by decide⟩
    intro e he
    rcases mem_pair.mp he with rfl | rfl
    · exact ⟨by decide, by decide, by decide⟩
    · exact ⟨by decide, by decide, by decide⟩
  refine (shrinkExtents_exact hok hprepared ?_ (by decide)
    (by decide)).mpr ?_
  · intro x
    have hspans : spans twoExtents = [(0, 8192), (16384, 24576)] := by decide
    have hinit : emptyStore.owned x = 0 := rfl
    rw [hspans, hinit, Nat.zero_add]
    simp only [mult_cons, mult_nil, ind]
    split
    · rw [if_neg (by omega)]
    · split
      · exact le_rfl
      · exact Nat.zero_le 1
  · intro e he hlo hhi
    rcases mem_pair.mp he with rfl | rfl
    · decide
    · exact absurd hlo (by decide)

/-- A file of 100 bytes in two blocks frees a range that starts in the retained
block, and a file that fills one block exactly does not free the second one,
of which 100 bytes were reserved. -/
theorem not_shrinkExtents_exact_splitBlock :
    ¬ ShrinkExact emptyStore [⟨0, 0, 8192⟩] 100
      (shrinkExtents [⟨0, 0, 8192⟩] (8192 - 100)) ∧
    ¬ ShrinkExact emptyStore [⟨0, 0, 4196⟩] 4096
      (shrinkExtents [⟨0, 0, 4196⟩] (4196 - 4096)) := by
  constructor
  · intro h
    have hitems : (shrinkExtents [⟨0, 0, 8192⟩] (8192 - 100)).items =
        [[⟨100, 8092⟩]] := by decide
    have haligned := h.aligned
    rw [hitems] at haligned
    exact absurd (haligned _ mem_cons_self _ mem_cons_self)
      (by decide)
  · intro h
    have hresult : shrinkExtents [⟨0, 0, 4196⟩] (4196 - 4096) =
        ⟨[⟨0, 0, 4096⟩], 0, []⟩ := by decide
    obtain ⟨c', hc', htotal, _⟩ := h.freed
    rw [hresult] at hc' htotal
    cases hc'
    exact absurd (htotal 4096) (by decide)

end Hs5.S3
