import Hs5.Storage.Freemap

/-!
# What becomes of a free extent

`add_freemap_ext` remembers only the offset of an extent freed in the open
transaction, while the free map joins the extent with its neighbours.  The
two relations of this module say that this is enough.  `Freed` is what
returning extents does: a range inside one free extent stays inside one, and
each returned extent lies inside one that contains its own offset.  `Keeps`
is what taking extents does: a range with a point that the search skips is
left in the free map.
-/

namespace Hs5

open List Cover

/-- The offsets of extents being trimmed or read. -/
def SkipExtents.points (skip : SkipExtents) : List ℤ :=
  skip.trimmingFreeSkipExtents ++ skip.readingFreeSkipExtents

namespace Freemap

def total (fm : Freemap) : ℤ := (fm.free.entries.map Prod.snd).sum

def Exact (fm : Freemap) : Prop := fm.dataFileFree = fm.total

def Within (fm : Freemap) (lo hi : ℤ) : Prop :=
  ∃ q ∈ fm.free, q.1 ≤ lo ∧ hi ≤ q.1 + q.2

/-- An extent to be trimmed: it is free and contains the offset of an extent
freed in the open transaction. -/
structure Marked (fm : Freemap) (t : SPunchItem) : Prop where
  pos : 0 < t.len
  within : fm.Within t.offset (t.offset + t.len)
  point : ∃ o ∈ fm.currNewFreeExtents, t.offset ≤ o ∧ o < t.offset + t.len

/-- No extent to be trimmed starts inside the range behind its first byte. -/
def Whole (fm : Freemap) (lo hi : ℤ) : Prop :=
  ∀ t ∈ fm.trimItems, ¬ (lo < t.offset ∧ t.offset < hi)

/-! ## The total length -/

theorem total_eq_lengthSum (fm : Freemap) :
    fm.total = lengthSum (fm.free.entries.flatMap freeSpan) := by
  have hlist : ∀ l : List (ℤ × ℤ),
      (l.map Prod.snd).sum = lengthSum (l.flatMap freeSpan) := by
    intro l
    induction l with
    | nil => rfl
    | cons p l ih =>
      rw [flatMap_cons, freeSpan, cons_append, nil_append,
        lengthSum_cons, ← ih, map_cons, sum_cons]
      omega
  exact hlist _

theorem WellFormed.spans {fm : Freemap} (hok : fm.WellFormed) :
    ∀ i ∈ fm.free.entries.flatMap freeSpan, i.1 ≤ i.2 := by
  intro i hi
  obtain ⟨p, hp, hi⟩ := mem_flatMap.mp hi
  have hpos := hok.pos p hp
  rw [freeSpan, mem_singleton] at hi
  rw [hi]
  simp only
  omega

variable {fm fm' : Freemap} {points : List ℤ}

theorem total_of_mult (hok : fm.WellFormed) (hok' : fm'.WellFormed) {lo hi : ℤ}
    (hle : lo ≤ hi)
    (hmult : ∀ x, fm'.freeMult x = fm.freeMult x + ind (lo, hi) x) :
    fm'.total = fm.total + (hi - lo) := by
  have hsum : lengthSum (fm'.free.entries.flatMap freeSpan) =
      lengthSum ((lo, hi) :: fm.free.entries.flatMap freeSpan) := by
    apply lengthSum_congr hok'.spans
    · intro i hi'
      rcases mem_cons.mp hi' with rfl | hi'
      · exact hle
      · exact hok.spans i hi'
    · intro x
      have h := hmult x
      simp only [freeMult, multMap] at h
      rw [h, mult_cons, Nat.add_comm]
  rw [total_eq_lengthSum, total_eq_lengthSum, hsum, lengthSum_cons]
  omega

/-! ## Returning extents -/

structure Freed (fm : Freemap) (exts : List SPunchItem) (fm' : Freemap) :
    Prop where
  within : ∀ lo hi, fm.Within lo hi → fm'.Within lo hi
  newFree : ∀ o ∈ fm.currNewFreeExtents, o ∈ fm'.currNewFreeExtents
  whole : ∀ lo hi, fm.Within lo hi → fm.Whole lo hi → fm'.Whole lo hi
  wholeExts : (∀ t ∈ fm.trimItems, fm.Marked t) → ∀ e ∈ exts, 0 < e.len →
    fm'.Whole e.span.1 e.span.2
  exts : ∀ e ∈ exts, 0 < e.len →
    e.offset ∈ fm'.currNewFreeExtents ∧ fm'.Within e.span.1 e.span.2
  trim : ∀ t ∈ fm'.trimItems, t ∈ fm.trimItems ∨ fm'.Marked t
  exact : fm.Exact → fm'.Exact

theorem Marked.freed {exts : List SPunchItem} (hfreed : Freed fm exts fm')
    {t : SPunchItem} (h : fm.Marked t) :
    fm'.Marked t := by
  obtain ⟨o, ho, hrange⟩ := h.point
  exact ⟨h.pos, hfreed.within _ _ h.within, o, hfreed.newFree o ho, hrange⟩

theorem Freed.marked {exts : List SPunchItem} (hfreed : Freed fm exts fm')
    (h : ∀ t ∈ fm.trimItems, fm.Marked t) :
    ∀ t ∈ fm'.trimItems, fm'.Marked t := by
  intro t ht
  rcases hfreed.trim t ht with hold | hnew
  · exact (h t hold).freed hfreed
  · exact hnew

theorem Freed.refl (fm : Freemap) : Freed fm [] fm where
  within := fun _ _ h => h
  newFree := fun _ h => h
  exts := by simp
  trim := fun _ h => .inl h
  exact := id
  whole := fun _ _ _ h => h
  wholeExts := by simp

theorem Freed.trans {fm₁ fm₂ fm₃ : Freemap} {exts₁ exts₂ : List SPunchItem}
    (h₁ : Freed fm₁ exts₁ fm₂) (h₂ : Freed fm₂ exts₂ fm₃) :
    Freed fm₁ (exts₁ ++ exts₂) fm₃ where
  within := fun lo hi h => h₂.within lo hi (h₁.within lo hi h)
  newFree := fun o h => h₂.newFree o (h₁.newFree o h)
  exts := by
    intro e he hpos
    rcases mem_append.mp he with he | he
    · obtain ⟨hnew, hwithin⟩ := h₁.exts e he hpos
      exact ⟨h₂.newFree _ hnew, h₂.within _ _ hwithin⟩
    · exact h₂.exts e he hpos
  trim := by
    intro t ht
    rcases h₂.trim t ht with ht | ht
    · rcases h₁.trim t ht with ht | ht
      · exact .inl ht
      · exact .inr (ht.freed h₂)
    · exact .inr ht
  exact := fun h => h₂.exact (h₁.exact h)
  whole := fun lo hi hin h => h₂.whole lo hi (h₁.within lo hi hin)
    (h₁.whole lo hi hin h)
  wholeExts := by
    intro hmarked e he hpos
    rcases mem_append.mp he with he | he
    · exact h₂.whole _ _ (h₁.exts e he hpos).2 (h₁.wholeExts hmarked e he hpos)
    · exact h₂.wholeExts (h₁.marked hmarked) e he hpos

theorem not_start_inside {fm : Freemap} (hok : fm.WellFormed)
    (hone : ∀ x, fm.freeMult x ≤ 1) {q : ℤ × ℤ} (hq : q ∈ fm.free)
    {lo hi : ℤ} (hwithin : fm.Within lo hi) : ¬ (lo < q.1 ∧ q.1 < hi) := by
  rintro ⟨hlo, hhi⟩
  obtain ⟨p, hp, hpl, hpr⟩ := hwithin
  have hpos := hok.pos q hq
  by_cases hkey : p.1 = q.1
  · omega
  · have htwo := mult_add_mult_le_multMap freeSpan hp hq hkey q.1
    have hp₁ : ind (p.1, p.1 + p.2) q.1 = 1 :=
      ind_eq_one.mpr ⟨by omega, by simp only; omega⟩
    have hq₁ : ind (q.1, q.1 + q.2) q.1 = 1 :=
      ind_eq_one.mpr ⟨le_rfl, by simp only; omega⟩
    have hfree := hone q.1
    simp only [freeMult, freeSpan, mult_cons, mult_nil, hp₁, hq₁] at htwo hfree
    omega

theorem Freed.of_added (hok : fm.WellFormed) {e : SPunchItem} (he : e.Aligned)
    (h : Added fm e.offset (roundUp e.len) true fm')
    (hone : ∀ x, fm'.freeMult x ≤ 1) : Freed fm [e] fm' := by
  obtain ⟨q, hq⟩ := h.joined
  have hpos := roundUp_pos he.pos
  have hstart := hq.start
  have hstop := hq.stop
  have hpoint : e.offset ∈ fm'.currNewFreeExtents := by
    rw [h.newFree, if_pos rfl]
    exact mem_insert_self
  have hwithin : ∀ lo hi, fm.Within lo hi → fm'.Within lo hi := by
    rintro lo hi ⟨p, hp, hlo, hhi⟩
    rcases hq.old p hp with hp | ⟨hpl, hpr⟩
    · exact ⟨p, hp, hlo, hhi⟩
    · exact ⟨q, hq.mem, hpl.trans hlo, hhi.trans hpr⟩
  refine ⟨hwithin, ?_, ?_, ?_, ?_, ?_, ?_⟩
  · intro o ho
    rw [h.newFree, if_pos rfl]
    exact mem_insert_of_mem ho
  · intro lo hi hin hwhole t ht
    rcases hq.trim t ht with ht | rfl
    · exact hwhole t ht
    · exact not_start_inside h.wellFormed hone hq.mem (hwithin lo hi hin)
  · intro hmarked e' he' _ t ht
    rw [mem_singleton.mp he']
    rcases hq.trim t ht with ht | rfl
    · rintro ⟨hlo, hhi⟩
      obtain ⟨p, hp, hpl, hpr⟩ := (hmarked t ht).within
      have htpos := (hmarked t ht).pos
      have hfree := freeMult_pos hp hpl (by omega)
      have hind : ind (e.offset, e.offset + roundUp e.len) t.offset = 1 :=
        ind_eq_one.mpr ⟨hlo.le, hhi⟩
      have hmult := h.mult t.offset
      have honce := hone t.offset
      omega
    · exact fun hin => absurd hin.1 (not_lt.mpr hstart)
  · intro e' he' _
    rw [mem_singleton.mp he']
    exact ⟨hpoint, q, hq.mem, hstart, hstop⟩
  · intro t ht
    rcases hq.trim t ht with ht | rfl
    · exact .inl ht
    · right
      exact ⟨h.wellFormed.pos q hq.mem, ⟨q, hq.mem, le_rfl, le_rfl⟩,
        e.offset, hpoint, hstart, by simp only; omega⟩
  · intro hexact
    have htotal := total_of_mult hok h.wellFormed (by omega) h.mult
    simp only [Exact, h.dataFileFree, htotal] at hexact ⊢
    omega

/-! ## Taking extents -/

/-- What taking extents away from the free map does, where the search skips
every extent that contains one of the points. -/
structure Keeps (points : List ℤ) (fm fm' : Freemap) : Prop where
  within : ∀ o ∈ points, ∀ lo hi, lo ≤ o → o < hi → fm.Within lo hi →
    fm'.Within lo hi
  newFree : fm'.currNewFreeExtents = fm.currNewFreeExtents
  trim : fm'.trimItems = fm.trimItems
  exact : fm.Exact → fm'.Exact

theorem Keeps.refl (points : List ℤ) (fm : Freemap) : Keeps points fm fm :=
  ⟨fun _ _ _ _ _ _ h => h, rfl, rfl, id⟩

theorem Keeps.trans {fm₁ fm₂ fm₃ : Freemap} (h₁ : Keeps points fm₁ fm₂)
    (h₂ : Keeps points fm₂ fm₃) : Keeps points fm₁ fm₃ where
  within := fun o ho lo hi hlo hhi h =>
    h₂.within o ho lo hi hlo hhi (h₁.within o ho lo hi hlo hhi h)
  newFree := h₂.newFree.trans h₁.newFree
  trim := h₂.trim.trans h₁.trim
  exact := fun h => h₂.exact (h₁.exact h)

theorem Keeps.mono {points points' : List ℤ} (h : Keeps points fm fm')
    (hsub : ∀ o ∈ points', o ∈ points) :
    Keeps points' fm fm' :=
  ⟨fun o ho => h.within o (hsub o ho), h.newFree, h.trim, h.exact⟩

theorem delFreemapExt_trimItems {offset len : ℤ}
    (h : fm.delFreemapExt offset len = some fm') :
    fm'.trimItems = fm.trimItems := by
  unfold delFreemapExt at h
  split at h
  · cases h
  · split at h
    · cases h
      rfl
    · cases h

theorem Marked.kept (hkeeps : Keeps points fm fm')
    (hpoints : ∀ o ∈ fm.currNewFreeExtents, o ∈ points) {t : SPunchItem}
    (h : fm.Marked t) : fm'.Marked t := by
  obtain ⟨o, ho, hlo, hhi⟩ := h.point
  refine ⟨h.pos, hkeeps.within o (hpoints o ho) _ _ hlo hhi h.within, o, ?_,
    hlo, hhi⟩
  rw [hkeeps.newFree]
  exact ho

theorem hasPointIn_of_mem {start len o : ℤ} (ho : o ∈ points) (hlo : start ≤ o)
    (hhi : o < start + len) : hasPointIn points start len = true := by
  simp only [hasPointIn, any_eq_true, Bool.and_eq_true,
    decide_eq_true_eq]
  exact ⟨o, ho, hlo, hhi⟩

/-- The extent found contains neither the offset of an extent freed in the
open transaction nor that of an extent being trimmed or read. -/
theorem findFreemapExt_avoids {fm : Freemap} {skip : SkipExtents}
    {start len : ℤ} (h : fm.findFreemapExt skip = some (start, len)) :
    ∀ o ∈ fm.currNewFreeExtents ++ skip.points,
      ¬ (start ≤ o ∧ o < start + len) := by
  obtain ⟨e, he, heq⟩ := Option.map_eq_some_iff.mp h
  have heligible := find?_some he
  cases heq
  simp only [eligible, Bool.and_eq_true, Bool.not_eq_true'] at heligible
  rintro o ho ⟨hlo, hhi⟩
  simp only [SkipExtents.points, mem_append] at ho
  rcases ho with ho | ho | ho
  · have hpoint := hasPointIn_of_mem ho hlo hhi
    rw [heligible.1.1.2] at hpoint
    cases hpoint
  · have hpoint := hasPointIn_of_mem ho hlo hhi
    rw [heligible.2] at hpoint
    cases hpoint
  · have hpoint := hasPointIn_of_mem ho hlo hhi
    rw [heligible.1.2] at hpoint
    cases hpoint

theorem Keeps.of_delFreemapExt (hok : fm.WellFormed) {skip : SkipExtents}
    {start len : ℤ} (hfind : fm.findFreemapExt skip = some (start, len))
    (hdel : fm.delFreemapExt start len = some fm') :
    Keeps (fm.currNewFreeExtents ++ skip.points) fm fm' := by
  have hmem := findFreemapExt_spec hok hfind
  obtain ⟨fm₁, hfm₁, hok₁, hmult, hcount⟩ := delFreemapExt_spec hok hmem
  have hfm' : fm' = { fm with
      free := fm.free.erase start
      freeLen := fm.freeLen.erase (len, start)
      dataFileFree := fm.dataFileFree - len } := by
    have hlookup := OrderedMap.lookup_eq_some.mpr hmem
    have hlen := (hok.inverse _ _).mpr hmem
    simpa [delFreemapExt, hlookup, hlen] using hdel.symm
  rw [hdel] at hfm₁
  cases hfm₁
  refine ⟨?_, by rw [hfm'], by rw [hfm'], ?_⟩
  · rintro o ho lo hi hlo hhi ⟨q, hq, hql, hqr⟩
    have hne : q.1 ≠ start := by
      intro hkey
      have hqe := OrderedMap.eq_of_mem hq hmem hkey
      subst hqe
      exact findFreemapExt_avoids hfind o ho ⟨by omega, by omega⟩
    rw [hfm']
    exact ⟨q, OrderedMap.mem_erase.mpr ⟨hq, hne⟩, hql, hqr⟩
  · intro hexact
    have hpos := hok.pos _ hmem
    have htotal := total_of_mult hok₁ hok (by omega) hmult
    simp only [Exact, hcount] at hexact ⊢
    omega

end Freemap

end Hs5
