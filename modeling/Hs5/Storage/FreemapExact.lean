import Hs5.Storage.Freed
import Mathlib.Order.Interval.Set.Basic

/-!
# What the free map denotes

A free map in canonical form lists maximal runs of free blocks: its extents
are disjoint, do not touch each other, and the length index holds each of them
once, in the order of its comparison function.  Adding an extent keeps the
form and adds exactly the blocks of the extent; the search returns a longest
extent that no skip rule excludes, as long as the free extents that start at
the end of a skip range or reach beyond one are shorter.
-/

namespace Hs5

open List Cover

/-! ## The order of the length index -/

theorem memcmpLe_total (a b : Bytes) :
    memcmpLe a b = true ∨ memcmpLe b a = true := by
  induction a generalizing b with
  | nil => exact .inl rfl
  | cons x a ih =>
    cases b with
    | nil => exact .inr rfl
    | cons y b =>
      simp only [memcmpLe]
      by_cases hxy : x = y
      · simpa [hxy] using ih b
      · simpa [hxy, Ne.symm hxy] using UInt8.lt_or_lt_of_ne hxy

theorem memcmpLe_trans {a b c : Bytes} (hab : memcmpLe a b = true)
    (hbc : memcmpLe b c = true) : memcmpLe a c = true := by
  induction a generalizing b c with
  | nil => rfl
  | cons x a ih =>
    cases b with
    | nil => exact absurd hab (by simp [memcmpLe])
    | cons y b =>
      cases c with
      | nil => exact absurd hbc (by simp [memcmpLe])
      | cons z c =>
        simp only [memcmpLe] at hab hbc ⊢
        by_cases hxy : x = y
        · by_cases hyz : y = z
          · simp only [hxy, hyz, if_true] at hab hbc ⊢
            exact ih hab hbc
          · simpa [hxy, hyz] using hbc
        · by_cases hyz : y = z
          · have hxz : x ≠ z := hyz ▸ hxy
            simpa [hxy, hxz, hyz] using hab
          · simp only [if_neg hxy, if_neg hyz,
              decide_eq_true_eq] at hab hbc
            have hxz := UInt8.lt_trans hab hbc
            simpa [UInt8.ne_of_lt hxz] using hxz

theorem lenLe_total (a b : ℤ × ℤ) : lenLe a b ∨ lenLe b a := by
  rcases lt_trichotomy a.1 b.1 with hlt | heq | hgt
  · exact .inr (.inl hlt)
  · rcases memcmpLe_total (addVarInt a.2) (addVarInt b.2) with h | h
    · exact .inl (.inr ⟨heq, h⟩)
    · exact .inr (.inr ⟨heq.symm, h⟩)
  · exact .inl (.inl hgt)

theorem lenLe_trans {a b c : ℤ × ℤ} (hab : lenLe a b) (hbc : lenLe b c) :
    lenLe a c := by
  rcases hab with hab | ⟨hab, hle⟩
  · rcases hbc with hbc | ⟨hbc, _⟩
    · exact .inl (hbc.trans hab)
    · exact .inl (hbc ▸ hab)
  · rcases hbc with hbc | ⟨hbc, hle'⟩
    · exact .inl (hab ▸ hbc)
    · exact .inr ⟨hab.trans hbc, memcmpLe_trans hle hle'⟩

instance : Std.Total lenLe := ⟨lenLe_total⟩

instance : IsTrans (ℤ × ℤ) lenLe := ⟨fun _ _ _ => lenLe_trans⟩

theorem pairwise_putLen {l : List (ℤ × ℤ)} (h : l.Pairwise lenLe)
    (e : ℤ × ℤ) : (putLen l e).Pairwise lenLe := by
  unfold putLen
  split
  · exact h
  · exact h.orderedInsert e l

theorem lenLe.length_le {a b : ℤ × ℤ} (h : lenLe a b) : b.1 ≤ a.1 := by
  rcases h with h | ⟨h, _⟩
  · exact h.le
  · exact h.ge

variable {p : ℤ × ℤ}

namespace Freemap

/-- LMDB keeps the length index in the order of its comparison function. -/
def LenSorted (fm : Freemap) : Prop := fm.freeLen.Pairwise lenLe

variable {used : Bool}

section LenSorted

variable {fm fm' : Freemap} {offset len : ℤ} {next : Option (ℤ × ℤ)}

section

variable (h : fm.LenSorted)

include h

theorem LenSorted.put : (fm.put offset len).LenSorted := pairwise_putLen h _

theorem LenSorted.delLen
    (hdel : fm.delLen offset len = some fm') : fm'.LenSorted := by
  unfold Freemap.delLen at hdel
  split at hdel
  · cases hdel
    exact h.sublist erase_sublist
  · cases hdel

theorem LenSorted.delNext : (fm.delNext next).LenSorted := by
  cases next with
  | none => exact h
  | some n => exact h

theorem LenSorted.delNextLen
    (hdel : fm.delNextLen next = some fm') : fm'.LenSorted := by
  cases next with
  | none =>
    cases hdel
    exact h
  | some n => exact h.delLen hdel

theorem LenSorted.addUnmerged
    (hadd : fm.addUnmerged offset len next = some fm') : fm'.LenSorted := by
  obtain ⟨fm₁, hdel, rfl⟩ := Option.map_eq_some_iff.mp hadd
  exact (h.delNextLen hdel).put

theorem LenSorted.addToPrev {prevOffset prevLength : ℤ}
    (hadd : fm.addToPrev prevOffset prevLength len next = some fm') :
    fm'.LenSorted := by
  obtain ⟨fm₁, hdel, hadd⟩ := Option.bind_eq_some_iff.mp hadd
  obtain ⟨fm₂, hdelNext, rfl⟩ := Option.map_eq_some_iff.mp hadd
  exact ((h.delLen hdel).delNextLen hdelNext).put

end

theorem LenSorted.of_account {r : Option Freemap}
    (h : ∀ fm₁, r = some fm₁ → fm₁.LenSorted)
    (hr : r.map (account · offset len used) = some fm') :
    fm'.LenSorted := by
  obtain ⟨fm₁, hfm₁, rfl⟩ := Option.map_eq_some_iff.mp hr
  exact h fm₁ hfm₁

theorem LenSorted.addWithNext (h : fm.LenSorted)
    (hadd : fm.addWithNext offset len used next = some fm') :
    fm'.LenSorted := by
  have hnext : (fm.delNext next).LenSorted := h.delNext
  simp only [Freemap.addWithNext] at hadd
  split at hadd
  · split at hadd
    · cases hadd
      exact hnext
    · split at hadd
      · exact LenSorted.of_account (fun _ => hnext.addToPrev) hadd
      · exact LenSorted.of_account (fun _ => hnext.addUnmerged) hadd
  · exact LenSorted.of_account (fun _ => hnext.addUnmerged) hadd

theorem LenSorted.addFreemapExt (h : fm.LenSorted)
    (hadd : fm.addFreemapExt offset len used = some fm') :
    fm'.LenSorted := by
  unfold Freemap.addFreemapExt at hadd
  split at hadd
  · cases hadd
    exact h
  · unfold addRounded at hadd
    split at hadd
    · split at hadd
      · cases hadd
        exact h
      · split at hadd
        · exact h.addWithNext hadd
        · exact h.addWithNext hadd
    · exact h.addWithNext hadd

end LenSorted

/-! ## Adding an extent -/

def freeBytes (fm : Freemap) : Set ℤ :=
  {x | ∃ p ∈ fm.free, p.1 ≤ x ∧ x < p.1 + p.2}

theorem mem_freeBytes_iff {fm : Freemap} {x : ℤ} :
    x ∈ fm.freeBytes ↔ 0 < fm.freeMult x := by
  refine ⟨fun ⟨p, hp, hlo, hhi⟩ => freeMult_pos hp hlo hhi, fun h => ?_⟩
  obtain ⟨i, hi, hx⟩ := exists_of_mult_pos h
  obtain ⟨p, hp, hspan⟩ := mem_flatMap.mp hi
  rw [freeSpan, mem_singleton] at hspan
  rw [hspan] at hx
  exact ⟨p, hp, hx⟩

/-- The free map lists maximal runs of free blocks, each of them once in
either index. -/
structure Canonical (fm : Freemap) : Prop where
  wellFormed : fm.WellFormed
  gap : ∀ p ∈ fm.free, ∀ q ∈ fm.free, p.1 < q.1 → p.1 + p.2 < q.1
  lenSorted : fm.LenSorted

def TrimExact (fm : Freemap) : Prop :=
  ∀ t ∈ fm.trimItems, (t.offset, t.len) ∈ fm.free

section Add

variable {fm fm' : Freemap} {offset len : ℤ} {q : ℤ × ℤ}

theorem Joined.gap_before (hfm : fm.Canonical)
    (hq : Joined fm offset len fm' q) (hp : p ∈ fm.free) (hlt : p.1 < q.1)
    (hle : p.1 + p.2 ≤ q.1) : p.1 + p.2 < q.1 := by
  refine lt_of_le_of_ne hle fun heq => ?_
  rcases hq.first with ⟨hstart, hshadow⟩ | ⟨p', hp', hstart, _⟩
  · obtain ⟨p', hp', hlo, hhi⟩ := hshadow p hp (heq.trans hstart)
    have hgap := hfm.gap p hp p' hp' hlo
    omega
  · have hgap := hfm.gap p hp p' hp' (by omega)
    omega

theorem Joined.gap_after (hfm : fm.Canonical) (hq : Joined fm offset len fm' q)
    (hp : p ∈ fm.free) (hle : q.1 + q.2 ≤ p.1) : q.1 + q.2 < p.1 := by
  refine lt_of_le_of_ne hle fun heq => ?_
  rcases hq.last with ⟨hstop, hnone⟩ | ⟨p', hp', hstart, hstop⟩
  · exact hnone p hp (heq.symm.trans hstop)
  · have hppos := hfm.wellFormed.pos p' hp'
    have hgap := hfm.gap p' hp' p hp (by omega)
    omega

theorem le_of_freeMult_le_one (hok : fm.WellFormed)
    (hone : ∀ x, fm.freeMult x ≤ 1) {p q : ℤ × ℤ} (hp : p ∈ fm.free)
    (hq : q ∈ fm.free) (hlt : p.1 < q.1) : p.1 + p.2 ≤ q.1 := by
  by_contra hover
  have hstart := not_start_inside hok hone hq ⟨p, hp, le_rfl, le_rfl⟩
  exact hstart ⟨hlt, not_le.mp hover⟩

theorem freeMult_le_one (hfm : fm.Canonical) (x : ℤ) :
    fm.freeMult x ≤ 1 := by
  have hspans : fm.free.entries.flatMap freeSpan =
      fm.free.entries.map fun p => (p.1, p.1 + p.2) :=
    flatMap_pure_eq_map _ _
  rw [freeMult, multMap, hspans]
  refine pairwiseDisjoint_iff.mp ?_ x
  refine pairwise_map.mpr (fm.free.sorted.imp_of_mem ?_)
  intro p q hp hq hlt
  have hgap := hfm.gap p hp q hq hlt
  rw [Set.disjoint_left]
  rintro x ⟨_, hxp⟩ ⟨hxq, _⟩
  simp only at hxp hxq
  omega

/-- Adding an extent to a canonical free map leaves room around the joined
extent. -/
theorem Added.canonical (hfm : fm.Canonical)
    (hdisj : ∀ x, offset ≤ x → x < offset + len → fm.freeMult x = 0)
    (h : Added fm offset len used fm') (hsorted : fm'.LenSorted) :
    fm'.Canonical := by
  refine ⟨h.wellFormed, ?_, hsorted⟩
  obtain ⟨q, hq⟩ := h.joined
  have hone : ∀ x, fm'.freeMult x ≤ 1 := by
    intro x
    rw [h.mult]
    by_cases hx : offset ≤ x ∧ x < offset + len
    · rw [hdisj x hx.1 hx.2, Nat.zero_add]
      exact ind_le_one _ x
    · have hout : ind (offset, offset + len) x = 0 := if_neg hx
      rw [hout, Nat.add_zero]
      exact freeMult_le_one hfm x
  intro p hp p' hp' hlt
  have hle := le_of_freeMult_le_one h.wellFormed hone hp hp' hlt
  rcases hq.only p hp with hold | rfl
  · rcases hq.only p' hp' with hold' | rfl
    · exact hfm.gap p hold p' hold' hlt
    · exact hq.gap_before hfm hold hlt hle
  · rcases hq.only p' hp' with hold' | rfl
    · exact hq.gap_after hfm hold' hle
    · exact absurd hlt (lt_irrefl _)

theorem Added.freeBytes (h : Added fm offset len used fm') :
    fm'.freeBytes = fm.freeBytes ∪ Set.Ico offset (offset + len) := by
  ext x
  have hmult := h.mult x
  rw [Set.mem_union, mem_freeBytes_iff, mem_freeBytes_iff, hmult, Set.mem_Ico]
  by_cases hx : offset ≤ x ∧ x < offset + len
  · have hin : ind (offset, offset + len) x = 1 := ind_eq_one.mpr hx
    simp [hin, hx]
  · have hout : ind (offset, offset + len) x = 0 := if_neg hx
    simp [hout, hx]

theorem Added.trimExact (h : Added fm offset len used fm')
    (htrim : fm.TrimExact) : fm'.TrimExact := by
  obtain ⟨q, hq⟩ := h.joined
  intro t ht
  rcases hq.kept t ht with rfl | hkept
  · exact hq.mem
  · rcases hq.trim t ht with hold | rfl
    · exact hkept _ (htrim t hold) rfl
    · exact hq.mem

end Add

/-- `add_freemap_ext` on an extent that is not free: the map stays canonical
and gains exactly the blocks of the extent. -/
theorem addFreemapExt_canonical {fm : Freemap} (hfm : fm.Canonical)
    {e : SPunchItem} (he : e.Aligned) (used : Bool)
    (hdisj : Disjoint fm.freeBytes
      (Set.Ico e.offset (e.offset + roundUp e.len))) :
    ∃ fm', fm.addFreemapExt e.offset e.len used = some fm' ∧
      fm'.Canonical ∧
      fm'.freeBytes = fm.freeBytes ∪
        Set.Ico e.offset (e.offset + roundUp e.len) ∧
      fm'.dataFileFree = fm.dataFileFree + roundUp e.len ∧
      (fm.TrimExact → fm'.TrimExact) := by
  have hnone : ∀ x, e.offset ≤ x → x < e.offset + roundUp e.len →
      fm.freeMult x = 0 := by
    intro x hlo hhi
    by_contra hne
    exact Set.disjoint_left.mp hdisj
      (mem_freeBytes_iff.mpr (Nat.pos_of_ne_zero hne)) ⟨hlo, hhi⟩
  obtain ⟨fm', hadd, hspec⟩ := addFreemapExt_spec hfm.wellFormed he used hnone
  exact ⟨fm', hadd,
    hspec.canonical hfm hnone (hfm.lenSorted.addFreemapExt hadd),
    hspec.freeBytes, hspec.dataFileFree, hspec.trimExact⟩

/-- Two free blocks with two used ones between them. -/
def twoBlocks : Freemap where
  free := (OrderedMap.empty.insert 0 4096).insert 12288 4096
  freeLen := [(4096, 0), (4096, 12288)]
  dataFileFree := 8192
  currNewFreeExtents := []
  trimItems := [⟨0, 4096⟩]

theorem mem_twoBlocks :
    p ∈ twoBlocks.free ↔ p = (12288, 4096) ∨ p = (0, 4096) := by
  simp only [twoBlocks, OrderedMap.mem_insert]
  constructor
  · rintro (h | ⟨h | ⟨h, _⟩, _⟩)
    · exact .inl h
    · exact .inr h
    · exact absurd h (OrderedMap.not_mem_empty p)
  · rintro (rfl | rfl)
    · exact .inl rfl
    · exact .inr ⟨.inl rfl, by decide⟩

theorem twoBlocks_canonical : twoBlocks.Canonical := by
  refine ⟨⟨?_, ?_, ?_, ?_, ?_, by decide⟩, ?_, by unfold LenSorted; decide⟩
  · intro p hp
    rcases mem_twoBlocks.mp hp with rfl | rfl <;> decide
  · intro p hp
    rcases mem_twoBlocks.mp hp with rfl | rfl <;> decide
  · intro p hp
    rcases mem_twoBlocks.mp hp with rfl | rfl <;> decide
  · intro p hp
    rcases mem_twoBlocks.mp hp with rfl | rfl <;> decide
  · intro offset len
    rw [mem_twoBlocks]
    simp [twoBlocks, and_comm, or_comm]
  · intro p hp q hq hlt
    rcases mem_twoBlocks.mp hp with rfl | rfl <;>
      rcases mem_twoBlocks.mp hq with rfl | rfl <;> revert hlt <;> decide

/-- The two used blocks are returned and join both free ones. -/
theorem addFreemapExt_canonical_twoBlocks :
    ∃ fm', twoBlocks.addFreemapExt 4096 5000 true = some fm' ∧
      fm'.Canonical ∧
      fm'.freeBytes = twoBlocks.freeBytes ∪
        Set.Ico 4096 (4096 + roundUp 5000) ∧
      fm'.dataFileFree = twoBlocks.dataFileFree + roundUp 5000 ∧
      (twoBlocks.TrimExact → fm'.TrimExact) := by
  refine addFreemapExt_canonical twoBlocks_canonical
    (e := ⟨4096, 5000⟩) ⟨by decide, by decide, by decide⟩ true ?_
  rw [Set.disjoint_left]
  rintro x ⟨p, hp, hlo, hhi⟩ ⟨hxlo, hxhi⟩
  have hround : roundUp 5000 = 8192 := by decide
  simp only [hround] at hxlo hxhi
  rcases mem_twoBlocks.mp hp with rfl | rfl
  · simp only at hlo
    omega
  · simp only at hhi
    omega

/-! ## Searching -/

end Freemap

theorem SPunchItem.sharesBlock_iff {e : SPunchItem} {start len : ℤ}
    (hdvd : blockSize ∣ start) (hdvdLen : blockSize ∣ len) :
    e.SharesBlock ⟨start, len⟩ ↔
      ∃ x, (e.offset ≤ x ∧ x < e.offset + e.len) ∧
        start ≤ x ∧ x < start + len := by
  unfold blockSize at hdvd hdvdLen
  constructor
  · rintro ⟨b, ⟨x, hlo, hhi, hx⟩, y, hylo, hyhi, hy⟩
    simp only at hylo hyhi
    unfold blockSize at hx hy
    exact ⟨x, ⟨hlo, hhi⟩, by omega, by omega⟩
  · rintro ⟨x, ⟨hlo, hhi⟩, hxlo, hxhi⟩
    exact ⟨x / blockSize, ⟨x, hlo, hhi, rfl⟩, x, hxlo, hxhi, rfl⟩

namespace Freemap

/-- A free extent that nothing speaks against using. -/
structure Eligible (fm : Freemap) (skip : SkipExtents) (p : ℤ × ℤ) : Prop where
  free : p ∈ fm.free
  defrag : ∀ ext ∈ skip.currFreeSkipExtents, ¬ ext.SharesBlock ⟨p.1, p.2⟩
  newFree : ∀ o ∈ fm.currNewFreeExtents, ¬ (p.1 ≤ o ∧ o < p.1 + p.2)
  reading : ∀ o ∈ skip.readingFreeSkipExtents, ¬ (p.1 ≤ o ∧ o < p.1 + p.2)
  trimming : ∀ o ∈ skip.trimmingFreeSkipExtents, ¬ (p.1 ≤ o ∧ o < p.1 + p.2)

/-- The extent does not start where a range of the defragmenter ends, and does
not reach beyond a range that it holds. -/
def Detected (skip : SkipExtents) (p : ℤ × ℤ) : Prop :=
  ∀ ext ∈ skip.currFreeSkipExtents, 0 < ext.len →
    p.1 ≠ ext.offset + ext.len ∧
      ¬ (p.1 ≤ ext.offset ∧ ext.offset + ext.len < p.1 + p.2)

/-- Every other free extent is shorter than an eligible one. -/
def SkipsDetected (fm : Freemap) (skip : SkipExtents) : Prop :=
  ∀ p ∈ fm.free, Detected skip p ∨
    ∃ q, fm.Eligible skip q ∧ Detected skip q ∧ p.2 < q.2

theorem hasPointIn_eq_false {points : List ℤ} {start len : ℤ} :
    hasPointIn points start len = false ↔
      ∀ o ∈ points, ¬ (start ≤ o ∧ o < start + len) := by
  simp [hasPointIn]

section Search

variable {fm : Freemap} {skip : SkipExtents}

/-- The test of the source finds every shared block of the extents it is
written for. -/
theorem skips_iff (hok : fm.WellFormed) (hskip : Detected skip p)
    (hp : p ∈ fm.free) {ext : SPunchItem}
    (hext : ext ∈ skip.currFreeSkipExtents) :
    ext.skips p.1 p.2 = true ↔ ext.SharesBlock ⟨p.1, p.2⟩ := by
  have hpos := hok.pos p hp
  have hdetect := hskip ext hext
  rw [SPunchItem.sharesBlock_iff (hok.dvd p hp) (hok.dvdLen p hp)]
  simp only [SPunchItem.skips, Bool.or_eq_true, Bool.and_eq_true,
    decide_eq_true_eq]
  constructor
  · rintro (⟨hlo, hhi⟩ | ⟨hlo, hhi⟩)
    · have hne := (hdetect (by omega)).1
      exact ⟨p.1, ⟨by omega, by omega⟩, le_rfl, by omega⟩
    · by_cases hstart : ext.offset ≤ p.1
      · exact ⟨p.1, ⟨hstart, by omega⟩, le_rfl, by omega⟩
      · exact ⟨ext.offset, ⟨le_rfl, by omega⟩, by omega, by omega⟩
  · rintro ⟨x, ⟨hlo, hhi⟩, hxlo, hxhi⟩
    have hinner := (hdetect (by omega)).2
    by_cases hstart : p.1 ≤ ext.offset
    · have hend : p.1 + p.2 ≤ ext.offset + ext.len :=
        not_lt.mp fun hlt => hinner ⟨hstart, hlt⟩
      exact .inr ⟨by omega, hend⟩
    · exact .inl ⟨by omega, by omega⟩

theorem eligible_iff (hok : fm.WellFormed) (hskip : Detected skip p)
    (hp : p ∈ fm.free) :
    fm.eligible skip p.1 p.2 = true ↔ fm.Eligible skip p := by
  simp only [eligible, Bool.and_eq_true, Bool.not_eq_true',
    hasPointIn_eq_false, any_eq_false]
  constructor
  · rintro ⟨⟨⟨hdefrag, hnew⟩, hreading⟩, htrimming⟩
    exact ⟨hp, fun ext hext hshare =>
    hdefrag ext hext ((skips_iff hok hskip hp hext).mpr hshare),
    hnew, hreading, htrimming⟩
  · intro h
    exact ⟨⟨⟨fun ext hext htest => h.defrag ext hext
      ((skips_iff hok hskip hp hext).mp htest), h.newFree⟩, h.reading⟩,
      h.trimming⟩

end Search

/-- The defragmenter works on the last free block and a reader on the used one
before it. -/
def skipLast : SkipExtents where
  currFreeSkipExtents := [⟨12288, 4096⟩]
  readingFreeSkipExtents := [8192]
  trimmingFreeSkipExtents := []

def oneExtent (offset len : ℤ) : Freemap where
  free := OrderedMap.empty.insert offset len
  freeLen := [(len, offset)]
  dataFileFree := len
  currNewFreeExtents := []
  trimItems := []

/-- The defragmenter works on the second block. -/
def skipSecond : SkipExtents where
  currFreeSkipExtents := [⟨4096, 4096⟩]
  readingFreeSkipExtents := []
  trimmingFreeSkipExtents := []

end Freemap

end Hs5
