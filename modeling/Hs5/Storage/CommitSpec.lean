import Hs5.Storage.Commit
import Hs5.Storage.Freed

/-!
# Specification of the commit thread's actions

One specification for each action of `Hs5.Storage.Commit`, stated with the
number of owners of each byte among the objects of the index, the free map
and the holes.  An action that moves space between these leaves the total
number of owners of every byte alone.  What it does to single free extents is
stated with the relations of `Hs5.Storage.Freed`.
-/

namespace Hs5

open List Cover OrderedMap Freemap

def objectSpans {K : Type} (p : K × IndexValue) : List (ℤ × ℤ) :=
  p.2.extents.map SPunchItem.span

/-- An index value is that of an empty object, or all of its extents were
handed out by `write_prepare`. -/
def IndexValue.Stored (v : IndexValue) : Prop :=
  v.extents = [⟨0, 0⟩] ∨ ∀ e ∈ v.extents, e.Aligned

/-- The two indexes of a free map are those of another. -/
structure Freemap.SameFree (fm fm' : Freemap) : Prop where
  free : fm'.free = fm.free
  freeLen : fm'.freeLen = fm.freeLen

namespace CommitState

variable {K : Type} [LinearOrder K]

/-- How many objects, free extents and holes contain the byte at `x`. -/
def owned (s : CommitState K) (x : ℤ) : ℕ :=
  multMap objectSpans s.main x + s.fm.freeMult x + multMap freeSpan s.holes x

structure WellFormed (s : CommitState K) : Prop where
  fm : s.fm.WellFormed
  main : ∀ p ∈ s.main, p.2.Stored
  holes : ∀ p ∈ s.holes, 0 < p.2

/-! ## Removing a key -/

variable {s : CommitState K} {exts : List SPunchItem} {v : IndexValue}
  {offset : ℤ}

/-- Extents that are disjoint from each other and from the free map can all
be returned to it. -/
theorem addFreemapExts_spec {fm : Freemap} (hok : fm.WellFormed)
    (hexts : ∀ e ∈ exts, e.Aligned)
    (hone : ∀ x, fm.freeMult x + mult (exts.map SPunchItem.span) x ≤ 1) :
    ∃ fm', addFreemapExts fm exts = some fm' ∧ fm'.WellFormed ∧
      (∀ x, fm'.freeMult x =
        fm.freeMult x + mult (exts.map SPunchItem.span) x) ∧
      Freemap.Freed fm exts fm' := by
  induction exts generalizing fm with
  | nil => exact ⟨fm, rfl, hok, by simp, Freemap.Freed.refl fm⟩
  | cons e exts ih =>
    have he := hexts e mem_cons_self
    obtain ⟨fm₁, hadd, hadded⟩ := addFreemapExt_spec hok he true (by
        intro x hlo hhi
        have hx := hone x
        have hind : ind e.span x = 1 := ind_eq_one.mpr ⟨hlo, hhi⟩
        rw [map_cons, mult_cons, hind] at hx
        omega)
    have hspan : ∀ x, fm₁.freeMult x = fm.freeMult x + ind e.span x :=
      hadded.mult
    obtain ⟨fm₂, hrest, hok₂, hmult, hfreed⟩ := ih hadded.wellFormed
      (fun e' he' => hexts e' (mem_cons_of_mem _ he')) (by
        intro x
        have hx := hone x
        rw [map_cons, mult_cons] at hx
        rw [hspan]
        omega)
    have hone₁ : ∀ x, fm₁.freeMult x ≤ 1 := by
      intro x
      have hx := hone x
      rw [map_cons, mult_cons] at hx
      rw [hspan]
      omega
    refine ⟨fm₂, ?_, hok₂, ?_,
      (Freemap.Freed.of_added hok he hadded hone₁).trans hfreed⟩
    · simpa [addFreemapExts, hadd] using hrest
    · intro x
      rw [hmult, hspan, map_cons, mult_cons, Nat.add_assoc]

theorem addFreemapExts_stored {fm : Freemap} (hok : fm.WellFormed)
    (hv : v.Stored) (hone : ∀ x, fm.freeMult x +
      mult (v.extents.map SPunchItem.span) x ≤ 1) :
    ∃ fm', addFreemapExts fm v.extents = some fm' ∧ fm'.WellFormed ∧
      (∀ x, fm'.freeMult x =
        fm.freeMult x + mult (v.extents.map SPunchItem.span) x) ∧
      Freemap.Freed fm v.extents fm' := by
  rcases hv with hempty | haligned
  · have hfreed := Freemap.Freed.refl fm
    refine ⟨fm, ?_, hok, ?_, hfreed.within, hfreed.newFree, hfreed.whole, ?_,
      ?_, hfreed.trim, hfreed.exact⟩
    · simp [addFreemapExts, hempty, Freemap.addFreemapExt]
    · intro x
      have hnone : ind ((0 : ℤ), 0) x = 0 := ind_of_le le_rfl x
      simp [hempty, SPunchItem.span, hnone]
    · intro _ e he hpos
      rw [hempty, mem_singleton] at he
      rw [he] at hpos
      exact absurd hpos (lt_irrefl _)
    · intro e he hpos
      rw [hempty, mem_singleton] at he
      rw [he] at hpos
      exact absurd hpos (lt_irrefl _)
  · exact addFreemapExts_spec hok haligned hone

/-- The variables `remove_fn` and the hole punching leave alone. -/
structure SameExt (s s' : CommitState K) : Prop where
  maxSize : s'.dataFileMaxSize = s.dataFileMaxSize
  extStart : s'.currWriteExtStart = s.currWriteExtStart
  extEnd : s'.currWriteExtEnd = s.currWriteExtEnd

theorem SameExt.refl (s : CommitState K) : SameExt s s := ⟨rfl, rfl, rfl⟩

theorem SameExt.trans {s₁ s₂ s₃ : CommitState K}
    (h₁ : SameExt s₁ s₂) (h₂ : SameExt s₂ s₃) : SameExt s₁ s₃ :=
  ⟨h₂.maxSize.trans h₁.maxSize, h₂.extStart.trans h₁.extStart,
    h₂.extEnd.trans h₁.extEnd⟩

def extentsAt (s : CommitState K) (fn : K) : List SPunchItem :=
  match s.main.lookup fn with
  | none => []
  | some v => v.extents

theorem mem_extentsAt {p : K × IndexValue} (hp : p ∈ s.main) :
    s.extentsAt p.1 = p.2.extents := by
  have hlookup : s.main.lookup p.1 = some p.2 := lookup_eq_some.mpr hp
  simp [extentsAt, hlookup]

/-- What `remove_fn` does: the blocks of the removed value go to the free
map. -/
structure Removed (s : CommitState K) (fn : K) (delFromMain : Bool)
    (s' : CommitState K) : Prop where
  fm : s'.fm.WellFormed
  main : s'.main = if delFromMain then s.main.erase fn else s.main
  holes : s'.holes = s.holes
  reserved : s'.reservedExtents = s.reservedExtents
  ext : SameExt s s'
  freed : Freemap.Freed s.fm (s.extentsAt fn) s'.fm
  mult : ∀ x, multMap objectSpans (s.main.erase fn) x + s'.fm.freeMult x =
    multMap objectSpans s.main x + s.fm.freeMult x

theorem removeFn_spec (hok : s.WellFormed) (hone : ∀ x, s.owned x ≤ 1) (fn : K)
    (delFromMain : Bool) :
    ∃ s', s.removeFn fn delFromMain = some s' ∧
      Removed s fn delFromMain s' := by
  cases hlookup : s.main.lookup fn with
  | none =>
    have herase : s.main.erase fn = s.main :=
      erase_eq_self (lookup_eq_none.mp hlookup)
    refine ⟨s, by simp [removeFn, hlookup], hok.fm, ?_, rfl, rfl,
      SameExt.refl s, ?_, ?_⟩
    · simp [herase]
    · simpa [extentsAt, hlookup] using Freemap.Freed.refl s.fm
    · simp [herase]
  | some v =>
    have hmem := lookup_eq_some.mp hlookup
    have hsplit := multMap_erase objectSpans hmem
    have hstored : v.Stored := hok.main _ hmem
    obtain ⟨fm, hfm, hfmOk, hmult, hfreed⟩ := addFreemapExts_stored hok.fm
      hstored (by
        intro x
        have hx := hone x
        have hs := hsplit x
        simp only [objectSpans, owned] at hs hx
        omega)
    refine ⟨{ s with
      fm := fm
      main := if delFromMain then s.main.erase fn else s.main },
      by simp [removeFn, hlookup, hfm], hfmOk, rfl, rfl, rfl,
      ⟨rfl, rfl, rfl⟩, by simpa [extentsAt, hlookup] using hfreed, ?_⟩
    intro x
    have hs := hsplit x
    have hm := hmult x
    simp only [objectSpans] at hs hm ⊢
    omega

theorem del_spec (hok : s.WellFormed) (hone : ∀ x, s.owned x ≤ 1) (fn : K) :
    ∃ s', s.del fn = some s' ∧ s'.WellFormed ∧ Removed s fn true s' ∧
      ∀ x, s'.owned x = s.owned x := by
  obtain ⟨s', hs', hrem⟩ := removeFn_spec hok hone fn true
  have hmain : s'.main = s.main.erase fn := by simpa using hrem.main
  refine ⟨s', hs', ⟨hrem.fm, ?_, ?_⟩, hrem, ?_⟩
  · intro p hp
    rw [hmain] at hp
    exact hok.main p (mem_erase.mp hp).1
  · rw [hrem.holes]
    exact hok.holes
  · intro x
    have := hrem.mult x
    simp only [owned, hmain, hrem.holes]
    omega

/-! ## Adding a key and freeing extents -/

/-- The file size only grows, by whole blocks, and the current write extent
keeps its end. -/
structure Grown (s s' : CommitState K) : Prop where
  maxSize : s.dataFileMaxSize ≤ s'.dataFileMaxSize
  maxDvd : blockSize ∣ s.dataFileMaxSize → blockSize ∣ s'.dataFileMaxSize
  extStart : s.currWriteExtStart ≤ s.currWriteExtEnd →
    s'.currWriteExtStart ≤ s'.currWriteExtEnd
  extEnd : s'.currWriteExtEnd = s.currWriteExtEnd

theorem Grown.of_same {s s' : CommitState K} (h : SameExt s s') :
    Grown s s' :=
  ⟨h.maxSize.ge, by rw [h.maxSize]; exact id,
    by rw [h.extStart, h.extEnd]; exact id, h.extEnd⟩

theorem Grown.trans {s₁ s₂ s₃ : CommitState K}
    (h₁ : Grown s₁ s₂) (h₂ : Grown s₂ s₃) : Grown s₁ s₃ :=
  ⟨h₁.maxSize.trans h₂.maxSize, fun h => h₂.maxDvd (h₁.maxDvd h),
    fun h => h₂.extStart (h₁.extStart h), h₂.extEnd.trans h₁.extEnd⟩

theorem useExt_grown (s : CommitState K) {e : SPunchItem}
    (he : blockSize ∣ e.offset) : Grown s (s.useExt e) := by
  refine ⟨?_, ?_, ?_, rfl⟩
  · simp only [useExt]
    split <;> omega
  · intro h
    simp only [useExt]
    split
    · exact dvd_add he (dvd_roundUp e.len)
    · exact h
  · intro h
    simp only [useExt]
    split <;> omega

theorem foldl_useExt (hexts : ∀ e ∈ exts, blockSize ∣ e.offset)
    (s : CommitState K) :
    Grown s (exts.foldl useExt s) ∧
      (exts.foldl useExt s).main = s.main ∧
      (exts.foldl useExt s).fm = s.fm ∧
      (exts.foldl useExt s).holes = s.holes := by
  induction exts generalizing s with
  | nil => exact ⟨Grown.of_same (SameExt.refl s), rfl, rfl, rfl⟩
  | cons e exts ih =>
    obtain ⟨hgrown, hmain, hfm, hholes⟩ := ih
      (fun e' he' => hexts e' (mem_cons_of_mem _ he')) (s.useExt e)
    have he := useExt_grown s (hexts e mem_cons_self)
    exact ⟨he.trans hgrown, hmain, hfm, hholes⟩

/-- How far marking extents as used moves the write extent and the file
size. -/
structure UsedExts (s : CommitState K) (exts : List SPunchItem)
    (s' : CommitState K) : Prop where
  extStart : s.currWriteExtStart ≤ s'.currWriteExtStart
  startDvd : blockSize ∣ s.currWriteExtStart → blockSize ∣ s'.currWriteExtStart
  extEnd : s'.currWriteExtEnd = s.currWriteExtEnd
  maxSize : s.dataFileMaxSize ≤ s'.dataFileMaxSize
  passed : ∀ e ∈ exts, e.span.2 ≤ s'.currWriteExtStart ∨
    s.currWriteExtEnd < e.span.2
  covered : ∀ e ∈ exts, e.span.2 ≤ s'.dataFileMaxSize

theorem usedExts_foldl (hexts : ∀ e ∈ exts, blockSize ∣ e.offset)
    (s : CommitState K) : UsedExts s exts (exts.foldl useExt s) := by
  induction exts generalizing s with
  | nil => exact ⟨le_rfl, id, rfl, le_rfl, by simp, by simp⟩
  | cons e exts ih =>
    have hrest := ih (fun e' he' => hexts e' (mem_cons_of_mem _ he'))
      (s.useExt e)
    have hdvd : blockSize ∣ e.span.2 :=
      dvd_add (hexts e mem_cons_self) (dvd_roundUp e.len)
    have hstart : s.currWriteExtStart ≤ (s.useExt e).currWriteExtStart := by
      simp only [useExt]
      split <;> omega
    have hmax : s.dataFileMaxSize ≤ (s.useExt e).dataFileMaxSize := by
      simp only [useExt]
      split <;> omega
    have hpassed : e.span.2 ≤ (s.useExt e).currWriteExtStart ∨
        s.currWriteExtEnd < e.span.2 := by
      simp only [useExt, SPunchItem.span]
      split <;> omega
    have hcovered : e.span.2 ≤ (s.useExt e).dataFileMaxSize := by
      simp only [useExt, SPunchItem.span]
      split <;> omega
    refine ⟨hstart.trans hrest.extStart, ?_, hrest.extEnd,
      hmax.trans hrest.maxSize, ?_, ?_⟩
    · intro h
      apply hrest.startDvd
      simp only [useExt]
      split
      · exact hdvd
      · exact h
    · intro e' he'
      rcases mem_cons.mp he' with rfl | he'
      · exact hpassed.imp_left fun h => h.trans hrest.extStart
      · exact hrest.passed e' he'
    · intro e' he'
      rcases mem_cons.mp he' with rfl | he'
      · exact hcovered.trans hrest.maxSize
      · exact hrest.covered e' he'

theorem foldl_useExt_reserved (exts : List SPunchItem) (s : CommitState K) :
    (exts.foldl useExt s).reservedExtents = s.reservedExtents := by
  induction exts generalizing s with
  | nil => rfl
  | cons e exts ih => exact ih (s.useExt e)

theorem mem_eraseReserved
    {p : ℤ × ℤ} : p ∈ (s.eraseReserved exts).reservedExtents ↔
      p ∈ s.reservedExtents ∧ ∀ e ∈ exts, p.1 ≠ e.offset := by
  have hfold : ∀ (m : OrderedMap ℤ ℤ),
      p ∈ exts.foldl (fun m e => m.erase e.offset) m ↔
        p ∈ m ∧ ∀ e ∈ exts, p.1 ≠ e.offset := by
    induction exts with
    | nil => simp
    | cons e exts ih =>
      intro m
      rw [foldl_cons, ih, mem_erase, forall_mem_cons]
      tauto
  exact hfold _

theorem IndexValue.Stored.dvd (h : v.Stored) :
    ∀ e ∈ v.extents, blockSize ∣ e.offset := by
  intro e he
  rcases h with hempty | haligned
  · rw [hempty, mem_singleton] at he
    rw [he]
    exact dvd_zero _
  · exact (haligned e he).dvd

theorem add_spec (hok : s.WellFormed) (fn : K) (hv : v.Stored)
    (hone : ∀ x, s.owned x + mult (v.extents.map SPunchItem.span) x ≤ 1) :
    ∃ s', s.add fn v false = some s' ∧ s'.WellFormed ∧ Grown s s' ∧
      Freemap.Freed s.fm (s.extentsAt fn) s'.fm ∧
      ∀ x, s'.owned x = s.owned x + mult (v.extents.map SPunchItem.span) x := by
  obtain ⟨s₁, hs₁, hrem⟩ := removeFn_spec hok
    (fun x => (Nat.le_add_right _ _).trans (hone x)) fn false
  have hmain₁ : s₁.main = s.main := by simpa using hrem.main
  obtain ⟨hgrown, hmain, hfm, hholes⟩ := foldl_useExt (IndexValue.Stored.dvd hv) s₁
  refine ⟨{ (v.extents.foldl useExt s₁).eraseReserved v.extents with
    main := (v.extents.foldl useExt s₁).main.insert fn v },
    by simp [add, hs₁, eraseReserved], ⟨?_, ?_, ?_⟩, ?_, ?_, ?_⟩
  · simpa [eraseReserved, hfm] using hrem.fm
  · intro p hp
    simp only [hmain, hmain₁] at hp
    rcases mem_insert.mp hp with rfl | ⟨hp, _⟩
    · exact hv
    · exact hok.main p hp
  · simpa [eraseReserved, hholes, hrem.holes] using hok.holes
  · have hsame := (Grown.of_same hrem.ext).trans hgrown
    exact ⟨hsame.maxSize, hsame.maxDvd, hsame.extStart, hsame.extEnd⟩
  · simpa [eraseReserved, hfm] using hrem.freed
  · intro x
    have hins := multMap_insert objectSpans s.main fn v x
    have hr := hrem.mult x
    simp only [owned, eraseReserved, hmain, hmain₁, hfm, hholes, hrem.holes,
      hins, objectSpans] at hr ⊢
    omega

theorem add_frame {s s' : CommitState K} {fn : K} (hv : v.Stored)
    (h : s.add fn v false = some s') :
    UsedExts s v.extents s' ∧ s'.main = s.main.insert fn v ∧
      s'.reservedExtents = (s.eraseReserved v.extents).reservedExtents := by
  obtain ⟨s₁, hs₁, rfl⟩ := Option.map_eq_some_iff.mp h
  have hsame : s₁.main = s.main ∧ SameExt s s₁ ∧
      s₁.reservedExtents = s.reservedExtents := by
    unfold removeFn at hs₁
    split at hs₁
    · cases hs₁
      exact ⟨rfl, SameExt.refl s, rfl⟩
    · obtain ⟨fm, _, rfl⟩ := Option.map_eq_some_iff.mp hs₁
      exact ⟨rfl, ⟨rfl, rfl, rfl⟩, rfl⟩
  obtain ⟨hmain₁, hext, hres⟩ := hsame
  have hused := usedExts_foldl (IndexValue.Stored.dvd hv) s₁
  obtain ⟨_, hmain, _, _⟩ := foldl_useExt (IndexValue.Stored.dvd hv) s₁
  refine ⟨⟨?_, ?_, ?_, ?_, ?_, ?_⟩, ?_, ?_⟩
  · exact hext.extStart ▸ hused.extStart
  · exact hext.extStart ▸ hused.startDvd
  · exact hext.extEnd ▸ hused.extEnd
  · exact hext.maxSize ▸ hused.maxSize
  · exact hext.extEnd ▸ hused.passed
  · exact hused.covered
  · simp [eraseReserved, hmain, hmain₁]
  · simp [eraseReserved, foldl_useExt_reserved, hres]

theorem freeExtents_spec (hok : s.WellFormed) (hexts : ∀ e ∈ exts, e.Aligned)
    (hone : ∀ x, s.owned x + mult (exts.map SPunchItem.span) x ≤ 1) :
    ∃ s', s.freeExtents exts = some s' ∧ s'.WellFormed ∧ Grown s s' ∧
      Freemap.Freed s.fm exts s'.fm ∧
      ∀ x, s'.owned x = s.owned x + mult (exts.map SPunchItem.span) x := by
  obtain ⟨fm, hfm, hfmOk, hmult, hfreed⟩ := addFreemapExts_spec hok.fm hexts (by
    intro x
    have := hone x
    simp only [owned] at this
    omega)
  obtain ⟨hgrown, hmain, _, hholes⟩ :=
    foldl_useExt (fun e he => (hexts e he).dvd) (s.eraseReserved exts)
  refine ⟨{ (exts.foldl useExt (s.eraseReserved exts)) with
    fm := { fm with trimItems := s.fm.trimItems } },
    by simp [freeExtents, hfm], ⟨hfmOk, ?_, ?_⟩, ?_,
    ⟨hfreed.within, hfreed.newFree, fun _ _ _ hwhole => hwhole, ?_,
      hfreed.exts, fun _ ht => .inl ht, hfreed.exact⟩, ?_⟩
  · intro p hp
    rw [hmain] at hp
    exact hok.main p hp
  · intro p hp
    rw [hholes] at hp
    exact hok.holes p hp
  · exact ⟨hgrown.maxSize, hgrown.maxDvd, hgrown.extStart, hgrown.extEnd⟩
  · rintro hmarked e he - t ht ⟨hlo, hhi⟩
    obtain ⟨p, hp, hpl, hpr⟩ := (hmarked t ht).within
    have htpos := (hmarked t ht).pos
    have hfree := freeMult_pos hp hpl (by omega)
    have hind := ind_le_mult
      (mem_map_of_mem (f := SPunchItem.span) he) t.offset
    rw [ind_eq_one.mpr ⟨hlo.le, hhi⟩] at hind
    have honce := hone t.offset
    simp only [owned] at honce
    omega
  · intro x
    have hm := hmult x
    have hmain' : multMap objectSpans
        (exts.foldl useExt (s.eraseReserved exts)).main x =
          multMap objectSpans s.main x := by rw [hmain]; rfl
    have hholes' : multMap freeSpan
        (exts.foldl useExt (s.eraseReserved exts)).holes x =
          multMap freeSpan s.holes x := by rw [hholes]; rfl
    simp only [owned, hmain', hholes', Freemap.freeMult] at hm ⊢
    omega

theorem freeExtents_freeMult {s s' : CommitState K}
    (hexts : ∀ e ∈ exts, blockSize ∣ e.offset)
    (h : s.freeExtents exts = some s') {x : ℤ} (howned : s'.owned x =
      s.owned x + mult (exts.map SPunchItem.span) x) :
    s'.fm.freeMult x = s.fm.freeMult x + mult (exts.map SPunchItem.span) x := by
  obtain ⟨fm, _, rfl⟩ := Option.map_eq_some_iff.mp h
  obtain ⟨_, hmain, _, hholes⟩ := foldl_useExt hexts (s.eraseReserved exts)
  simp only [owned, hmain, hholes] at howned
  simp only [eraseReserved] at howned ⊢
  omega

theorem freeExtents_frame {s s' : CommitState K}
    (hexts : ∀ e ∈ exts, blockSize ∣ e.offset)
    (h : s.freeExtents exts = some s') :
    UsedExts s exts s' ∧ s'.main = s.main ∧
      s'.reservedExtents = (s.eraseReserved exts).reservedExtents := by
  obtain ⟨fm, _, rfl⟩ := Option.map_eq_some_iff.mp h
  have hused := usedExts_foldl hexts (s.eraseReserved exts)
  obtain ⟨_, hmain, _, _⟩ := foldl_useExt hexts (s.eraseReserved exts)
  exact ⟨⟨hused.extStart, hused.startDvd, hused.extEnd, hused.maxSize,
    hused.passed, hused.covered⟩, hmain, foldl_useExt_reserved _ _⟩

/-! ## Finding a new write extent -/

structure Kept (points : List ℤ) (s s' : CommitState K) : Prop where
  main : s'.main = s.main
  reserved : s'.reservedExtents = s.reservedExtents
  keeps : Freemap.Keeps points s.fm s'.fm

theorem Kept.refl (points : List ℤ) (s : CommitState K) : Kept points s s :=
  ⟨rfl, rfl, Freemap.Keeps.refl points s.fm⟩

theorem Kept.mono {points points' : List ℤ} {s s' : CommitState K}
    (h : Kept points s s') (hsub : ∀ o ∈ points', o ∈ points) :
    Kept points' s s' :=
  ⟨h.main, h.reserved, h.keeps.mono hsub⟩

/-- The offsets inside free extents that the search stays away from. -/
def skipPoints (s : CommitState K) (skip : SkipExtents) : List ℤ :=
  s.fm.currNewFreeExtents ++ skip.points

theorem takeFreeExt_kept (hok : s.WellFormed) {cfg : AllocConfig}
    {env : FindFreeEnv} {wal : List FreemapWal} {r : FindFreeResult K}
    (h : s.takeFreeExt cfg env wal = some r) :
    Kept (s.skipPoints env.skip) s r.state := by
  unfold takeFreeExt at h
  split at h
  · rename_i start len hfind
    obtain ⟨fm, hdel, rfl⟩ := Option.map_eq_some_iff.mp h
    exact ⟨rfl, rfl, Freemap.Keeps.of_delFreemapExt hok.fm hfind hdel⟩
  · split at h <;> cases h <;>
      exact ⟨rfl, rfl, Freemap.Keeps.refl _ s.fm⟩

/-- The three outcomes of a search: a new chunk at the end of the file, a free
extent, or no space. -/
inductive Found (s : CommitState K) (cfg : AllocConfig) :
    FindFreeResult K → Prop
  | append {r : FindFreeResult K}
      (answer : r.answer = .found s.dataFileMaxSize
        (s.dataFileMaxSize + cfg.allocChunkSize))
      (extStart : r.state.currWriteExtStart = s.dataFileMaxSize)
      (extEnd : r.state.currWriteExtEnd =
        s.dataFileMaxSize + cfg.allocChunkSize)
      (wellFormed : r.state.WellFormed)
      (maxSize : r.state.dataFileMaxSize = s.dataFileMaxSize)
      (owned : ∀ x, r.state.owned x = s.owned x) : Found s cfg r
  | free {r : FindFreeResult K} {start len : ℤ} (mem : (start, len) ∈ s.fm.free)
      (answer : r.answer = .found start (start + len))
      (extStart : r.state.currWriteExtStart = start)
      (extEnd : r.state.currWriteExtEnd = start + len)
      (wellFormed : r.state.WellFormed)
      (maxSize : r.state.dataFileMaxSize = s.dataFileMaxSize)
      (owned : ∀ x, s.owned x =
        r.state.owned x + ind (start, start + len) x) : Found s cfg r
  | noSpace {r : FindFreeResult K} (answer : r.answer = .noSpace)
      (ext : SameExt s r.state) (wellFormed : r.state.WellFormed)
      (owned : ∀ x, r.state.owned x = s.owned x) : Found s cfg r

theorem takeFreeExt_spec (hok : s.WellFormed) (cfg : AllocConfig)
    (env : FindFreeEnv) (wal : List FreemapWal) :
    ∃ r, s.takeFreeExt cfg env wal = some r ∧ Found s cfg r := by
  cases hfind : s.fm.findFreemapExt env.skip with
  | none =>
    by_cases hspace :
        env.freeSpaceRetry < cfg.minFreeSpace ∨ env.freeSpaceRetry < 0
    · exact ⟨⟨s, .noSpace, wal⟩, by simp [takeFreeExt, hfind, hspace],
        .noSpace rfl (SameExt.refl s) hok fun _ => rfl⟩
    · exact ⟨answerExt (s.appendChunk cfg) wal,
        by simp [takeFreeExt, hfind, hspace],
        .append rfl rfl rfl ⟨hok.fm, hok.main, hok.holes⟩ rfl fun _ => rfl⟩
  | some found =>
    obtain ⟨start, len⟩ := found
    have hmem := findFreemapExt_spec hok.fm hfind
    obtain ⟨fm, hdel, hfm, hmult, _⟩ := delFreemapExt_spec hok.fm hmem
    refine ⟨answerExt
        { s with
          fm := fm
          currWriteExtStart := start
          currWriteExtEnd := start + len }
        (wal ++ [.delFreemapWal start len]),
      by simp only [takeFreeExt, hfind, hdel, Option.map_some],
      .free hmem rfl rfl rfl ⟨hfm, hok.main, hok.holes⟩ rfl ?_⟩
    intro x
    have := hmult x
    simp only [owned, answerExt]
    omega

theorem searchFreeSpace_at_end (hend : s.currWriteExtStart = s.currWriteExtEnd)
    (cfg : AllocConfig) (env : FindFreeEnv) (addRemaining : Bool)
    (wal : List FreemapWal) :
    s.searchFreeSpace cfg env addRemaining wal =
      s.takeFreeExt cfg env wal := by
  rw [searchFreeSpace, if_neg]
  simp only [hend, blockSize]
  omega

/-- The state in which the branches of `FindFree` are evaluated. -/
def reach (s : CommitState K) (offset : ℤ) : CommitState K :=
  { s with
    currWriteExtStart := offset
    dataFileMaxSize := max s.dataFileMaxSize offset }

theorem findFree_eq (hend : offset = s.currWriteExtEnd)
    (hstart : s.currWriteExtStart ≤ s.currWriteExtEnd) (cfg : AllocConfig)
    (env : FindFreeEnv) :
    (∃ force, s.findFree cfg env offset =
      { s.reach offset with forceFreespaceCheck := force }.takeFreeExt
        cfg env []) ∨
    s.findFree cfg env offset =
      some (answerExt ((s.reach offset).appendChunk cfg) []) := by
  have hbump : (if offset > s.currWriteExtStart then offset
      else s.currWriteExtStart) = offset := by
    split <;> omega
  have hmax : (if offset > s.dataFileMaxSize then offset
      else s.dataFileMaxSize) = max s.dataFileMaxSize offset := by
    split <;> omega
  have hzero : ¬ s.currWriteExtEnd - offset ≥ blockSize := by
    simp only [hend, blockSize]
    omega
  simp only [findFree, hbump, hmax, hzero, if_false]
  split
  · left
    exact ⟨s.forceFreespaceCheck, searchFreeSpace_at_end hend _ _ _ _⟩
  · split
    · rename_i hlast
      split
      · right
        have hlast' : max s.dataFileMaxSize offset = offset := hlast.symm
        rw [appendChunk, reach]
        dsimp only
        rw [hlast']
      · left
        exact ⟨false, searchFreeSpace_at_end hend _ _ _ _⟩
    · split
      · rw [findFreeForced]
        split
        · right
          rfl
        · left
          exact ⟨false, searchFreeSpace_at_end hend _ _ _ _⟩
      · left
        exact ⟨s.forceFreespaceCheck, searchFreeSpace_at_end hend _ _ _ _⟩

theorem findFree_spec (hok : s.WellFormed) (hend : offset = s.currWriteExtEnd)
    (hstart : s.currWriteExtStart ≤ s.currWriteExtEnd) (cfg : AllocConfig)
    (env : FindFreeEnv) :
    ∃ r, s.findFree cfg env offset = some r ∧ Found (s.reach offset) cfg r := by
  rcases findFree_eq hend hstart cfg env with ⟨force, heq⟩ | heq
  · obtain ⟨r, hr, hfound⟩ := takeFreeExt_spec
      (s := { s.reach offset with forceFreespaceCheck := force })
      ⟨hok.fm, hok.main, hok.holes⟩ cfg env []
    refine ⟨r, heq.trans hr, ?_⟩
    cases hfound with
    | append ha hs he hw hm ho => exact .append ha hs he hw hm ho
    | free hf ha hs he hw hm ho => exact .free hf ha hs he hw hm ho
    | noSpace ha hsame hw ho =>
      exact .noSpace ha ⟨hsame.maxSize, hsame.extStart, hsame.extEnd⟩ hw ho
  · exact ⟨_, heq, .append rfl rfl rfl ⟨hok.fm, hok.main, hok.holes⟩ rfl
      fun _ => rfl⟩

theorem findFree_kept (hok : s.WellFormed) (hend : offset = s.currWriteExtEnd)
    (hstart : s.currWriteExtStart ≤ s.currWriteExtEnd) {cfg : AllocConfig}
    {env : FindFreeEnv} {r : FindFreeResult K}
    (h : s.findFree cfg env offset = some r) :
    Kept (s.skipPoints env.skip) s r.state := by
  rcases findFree_eq hend hstart cfg env with ⟨force, heq⟩ | heq
  · rw [heq] at h
    have hkept := takeFreeExt_kept
      (s := { s.reach offset with forceFreespaceCheck := force })
      ⟨hok.fm, hok.main, hok.holes⟩ h
    exact ⟨hkept.main, hkept.reserved, hkept.keeps⟩
  · rw [heq] at h
    cases h
    exact ⟨rfl, rfl, Freemap.Keeps.refl _ _⟩

/-! ## The LMDB commit -/

theorem punchHole_kept {s s' : CommitState K} (hok : s.WellFormed)
    {skip : SkipExtents} (h : s.punchHole skip = some s') :
    Kept (s.skipPoints skip) s s' := by
  unfold punchHole at h
  split at h
  · cases h
    exact Kept.refl _ s
  · rename_i start len hfind
    obtain ⟨fm, hdel, rfl⟩ := Option.map_eq_some_iff.mp h
    exact ⟨rfl, rfl, Freemap.Keeps.of_delFreemapExt hok.fm hfind hdel⟩

theorem punchHole_spec (hok : s.WellFormed) (hone : ∀ x, s.owned x ≤ 1)
    (skip : SkipExtents) :
    ∃ s', s.punchHole skip = some s' ∧ s'.WellFormed ∧ SameExt s s' ∧
      ∀ x, s'.owned x = s.owned x := by
  cases hfind : s.fm.findFreemapExt skip with
  | none =>
    exact ⟨s, by simp [punchHole, hfind], hok, SameExt.refl s, fun _ => rfl⟩
  | some found =>
    obtain ⟨start, len⟩ := found
    have hmem := findFreemapExt_spec hok.fm hfind
    have hpos : 0 < len := hok.fm.pos _ hmem
    obtain ⟨fm, hdel, hfm, hmult, _⟩ := delFreemapExt_spec hok.fm hmem
    have hnew : ∀ p ∈ s.holes, p.1 ≠ start := by
      rintro p hp rfl
      have hp2 := hok.holes p hp
      have hhole := mult_le_multMap freeSpan hp p.1
      have hfree := freeMult_pos hmem (x := p.1) le_rfl (by simp only; omega)
      have htotal := hone p.1
      simp only [freeSpan, mult_cons, mult_nil, ind, owned] at hhole htotal
      rw [if_pos ⟨le_rfl, by omega⟩] at hhole
      omega
    refine ⟨{ s with fm := fm, holes := s.holes.insert start len },
      by simp [punchHole, hfind, hdel], ⟨hfm, hok.main, ?_⟩,
      ⟨rfl, rfl, rfl⟩, ?_⟩
    · intro p hp
      rcases mem_insert.mp hp with rfl | ⟨hp, _⟩
      · exact hpos
      · exact hok.holes p hp
    · intro x
      have hm := hmult x
      have hi := freeMult_insert hnew len x
      simp only [owned, hi]
      omega

theorem doFreeMinspace_spec (hok : s.WellFormed) (hone : ∀ x, s.owned x ≤ 1)
    (rounds : List SkipExtents) :
    ∃ s', s.doFreeMinspace rounds = some s' ∧ s'.WellFormed ∧
      SameExt s s' ∧ ∀ x, s'.owned x = s.owned x := by
  induction rounds generalizing s with
  | nil => exact ⟨s, rfl, hok, SameExt.refl s, fun _ => rfl⟩
  | cons skip rounds ih =>
    obtain ⟨s₁, hs₁, hok₁, hsame₁, howned₁⟩ := punchHole_spec hok hone skip
    obtain ⟨s₂, hs₂, hok₂, hsame₂, howned₂⟩ := ih hok₁ (by
      intro x
      rw [howned₁]
      exact hone x)
    refine ⟨s₂, ?_, hok₂, hsame₁.trans hsame₂, ?_⟩
    · simpa [doFreeMinspace, hs₁] using hs₂
    · intro x
      rw [howned₂, howned₁]

theorem doFreeMinspace_frame {s s' : CommitState K}
    {rounds : List SkipExtents} (h : s.doFreeMinspace rounds = some s') :
    s'.main = s.main ∧ s'.reservedExtents = s.reservedExtents ∧
      s'.fm.trimItems = s.fm.trimItems := by
  induction rounds generalizing s with
  | nil =>
    cases h
    exact ⟨rfl, rfl, rfl⟩
  | cons skip rounds ih =>
    obtain ⟨s₁, hs₁, hrest⟩ := Option.bind_eq_some_iff.mp h
    obtain ⟨hmain, hres, htrim⟩ := ih hrest
    rw [hmain, hres, htrim]
    unfold punchHole at hs₁
    split at hs₁
    · cases hs₁
      exact ⟨rfl, rfl, rfl⟩
    · obtain ⟨fm, hdel, rfl⟩ := Option.map_eq_some_iff.mp hs₁
      exact ⟨rfl, rfl, delFreemapExt_trimItems hdel⟩

theorem doFreeMinspace_kept {s s' : CommitState K} (hok : s.WellFormed)
    (hone : ∀ x, s.owned x ≤ 1) {rounds : List SkipExtents}
    {points : List ℤ}
    (hrounds : ∀ skip ∈ rounds, ∀ o ∈ points, o ∈ skip.points)
    (h : s.doFreeMinspace rounds = some s') :
    Kept (s.fm.currNewFreeExtents ++ points) s s' := by
  induction rounds generalizing s with
  | nil =>
    cases h
    exact Kept.refl _ _
  | cons skip rounds ih =>
    obtain ⟨s₁, hs₁, hok₁, _, howned₁⟩ := punchHole_spec hok hone skip
    have hkept : Kept (s.fm.currNewFreeExtents ++ points) s s₁ := by
      apply (punchHole_kept hok hs₁).mono
      intro o ho
      rcases mem_append.mp ho with ho | ho
      · exact mem_append_left _ ho
      · exact mem_append_right _ (hrounds skip mem_cons_self o ho)
    have hrest : s₁.doFreeMinspace rounds = some s' := by
      simpa [doFreeMinspace, hs₁] using h
    have hkept' := ih hok₁ (fun x => (howned₁ x).trans_le (hone x))
      (fun skip' h' => hrounds skip' (mem_cons_of_mem _ h')) hrest
    rw [hkept.keeps.newFree] at hkept'
    exact ⟨hkept'.main.trans hkept.main,
      hkept'.reserved.trans hkept.reserved, hkept.keeps.trans hkept'.keeps⟩

/-! ## Commits -/

structure SameMaps (c c' : CommitState K) : Prop where
  main : c'.main = c.main
  fm : Freemap.SameFree c.fm c'.fm
  holes : c'.holes = c.holes

theorem SameMaps.symm {c c' : CommitState K} (h : SameMaps c c') :
    SameMaps c' c :=
  ⟨h.main.symm, ⟨h.fm.free.symm, h.fm.freeLen.symm⟩, h.holes.symm⟩

theorem SameMaps.trans {c₁ c₂ c₃ : CommitState K} (h₁ : SameMaps c₁ c₂)
    (h₂ : SameMaps c₂ c₃) : SameMaps c₁ c₃ :=
  ⟨h₂.main.trans h₁.main,
    ⟨h₂.fm.free.trans h₁.fm.free, h₂.fm.freeLen.trans h₁.fm.freeLen⟩,
    h₂.holes.trans h₁.holes⟩

theorem SameMaps.owned {c c' : CommitState K} (h : SameMaps c c') (x : ℤ) :
    c'.owned x = c.owned x := by
  simp only [CommitState.owned, Freemap.freeMult, h.main, h.fm.free, h.holes]

theorem SameMaps.wellFormed {c c' : CommitState K} (h : SameMaps c c')
    (hok : c.WellFormed) : c'.WellFormed := by
  refine ⟨?_, h.main ▸ hok.main, h.holes ▸ hok.holes⟩
  have hfm := hok.fm
  simp only [Freemap.WellFormed, h.fm.free, h.fm.freeLen] at hfm ⊢
  exact hfm

theorem sameMaps_foldl_useExt (exts : List SPunchItem)
    (c : CommitState K) : SameMaps c (exts.foldl useExt c) := by
  induction exts generalizing c with
  | nil => exact ⟨rfl, ⟨rfl, rfl⟩, rfl⟩
  | cons e exts ih =>
    have he : SameMaps c (c.useExt e) := ⟨rfl, ⟨rfl, rfl⟩, rfl⟩
    exact he.trans (ih (c.useExt e))

theorem mem_localReserved {c : CommitState K} {e : SPunchItem} :
    e ∈ c.localReserved ↔ (e.offset, e.len) ∈ c.reservedExtents ∧
      e.offset + e.len ≤ c.dataFileMaxSize ∧
      ¬ (c.currWriteExtStart ≤ e.offset ∧
        e.offset + e.len ≤ c.currWriteExtEnd) := by
  simp only [localReserved, mem_map, mem_filter,
    decide_eq_true_eq]
  constructor
  · rintro ⟨p, ⟨hp, hcond⟩, rfl⟩
    exact ⟨hp, hcond⟩
  · rintro ⟨he, hcond⟩
    exact ⟨(e.offset, e.len), ⟨he, hcond⟩, rfl⟩

theorem sameMaps_committed (c : CommitState K) :
    SameMaps c c.useReserved.committed :=
  (sameMaps_foldl_useExt _ c).trans ⟨rfl, ⟨rfl, rfl⟩, rfl⟩

end CommitState

end Hs5
