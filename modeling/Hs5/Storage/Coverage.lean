import Hs5.Storage.Startable

/-!
# Every byte of the data file has an owner

The counterpart of the partition: below the end of the data file each byte
belongs to an object, an upload, a free extent, a hole or a write extent.
What is stored at a commit describes the uploads only indirectly, by the
reserved extents outside of the write extent as the commit thread sees it.
`Filled` collects what has to hold of this view so that no upload is forgotten:
every extent in flight is reserved, no such extent straddles the start of the
write extent, and those that are not in the write extent lie below the file
size.
-/

namespace Hs5

open List Cover Transition CommitState

variable {K : Type} [LinearOrder K]

/-! ## How far the write extent moves -/

variable {exts : List SPunchItem}

namespace CommitState

/-- The start of the write extent and the file size are moved to ends of the
extents only. -/
structure Reached (c : CommitState K) (exts : List SPunchItem)
    (c' : CommitState K) : Prop where
  start : c'.currWriteExtStart = c.currWriteExtStart ∨
    ∃ e ∈ exts, c'.currWriteExtStart = e.span.2 ∧
      c.currWriteExtStart < e.span.2 ∧ e.span.2 ≤ c.currWriteExtEnd
  max : c'.dataFileMaxSize = c.dataFileMaxSize ∨
    ∃ e ∈ exts, c'.dataFileMaxSize = e.span.2

theorem reached_foldl_useExt (exts : List SPunchItem) (c : CommitState K) :
    Reached c exts (exts.foldl useExt c) := by
  induction exts generalizing c with
  | nil => exact ⟨.inl rfl, .inl rfl⟩
  | cons e exts ih =>
    have hrest := ih (c.useExt e)
    constructor
    · have hfirst : (c.useExt e).currWriteExtStart = c.currWriteExtStart ∨
          (c.useExt e).currWriteExtStart = e.span.2 ∧
            c.currWriteExtStart < e.span.2 ∧ e.span.2 ≤ c.currWriteExtEnd := by
        simp only [useExt, SPunchItem.span]
        split
        · rename_i hmove
          exact .inr ⟨rfl, hmove.1, hmove.2⟩
        · exact .inl rfl
      rcases hrest.start with heq | ⟨f, hf, heq, hlt, hle⟩
      · rcases hfirst with hsame | ⟨hmove, hlt, hle⟩
        · exact .inl (heq.trans hsame)
        · exact .inr ⟨e, mem_cons_self, heq.trans hmove, hlt, hle⟩
      · right
        refine ⟨f, mem_cons_of_mem _ hf, heq, ?_, hle⟩
        rcases hfirst with hsame | ⟨hmove, hlt', _⟩
        · omega
        · omega
    · have hfirst : (c.useExt e).dataFileMaxSize = c.dataFileMaxSize ∨
          (c.useExt e).dataFileMaxSize = e.span.2 := by
        simp only [useExt, SPunchItem.span]
        split
        · exact .inr rfl
        · exact .inl rfl
      rcases hrest.max with heq | ⟨f, hf, heq⟩
      · rcases hfirst with hsame | hmove
        · exact .inl (heq.trans hsame)
        · exact .inr ⟨e, mem_cons_self, heq.trans hmove⟩
      · exact .inr ⟨f, mem_cons_of_mem _ hf, heq⟩

theorem add_reached {c c' : CommitState K} {fn : K} {v : IndexValue}
    (h : c.add fn v false = some c') : Reached c v.extents c' := by
  obtain ⟨c₁, hc₁, rfl⟩ := Option.map_eq_some_iff.mp h
  have hsame : SameExt c c₁ := by
    unfold removeFn at hc₁
    split at hc₁
    · cases hc₁
      exact SameExt.refl c
    · obtain ⟨fm, _, rfl⟩ := Option.map_eq_some_iff.mp hc₁
      exact ⟨rfl, rfl, rfl⟩
  have hreach := reached_foldl_useExt v.extents c₁
  constructor
  · have hstart := hreach.start
    rw [hsame.extStart, hsame.extEnd] at hstart
    exact hstart
  · have hmax := hreach.max
    rw [hsame.maxSize] at hmax
    exact hmax

theorem freeExtents_reached {c c' : CommitState K}
    (h : c.freeExtents exts = some c') : Reached c exts c' := by
  obtain ⟨fm, _, rfl⟩ := Option.map_eq_some_iff.mp h
  have hreach := reached_foldl_useExt exts (c.eraseReserved exts)
  exact ⟨hreach.start, hreach.max⟩

end CommitState

/-! ## The invariant -/

namespace AllocState

/-- Where the unused rest of the write extent begins, seen from the commit
thread. -/
def StartOk (s : AllocState K) : Prop :=
  match s.waiting with
  | .answered (.found start _) => s.commit.currWriteExtStart = start
  | _ => s.commit.currWriteExtStart ≤ s.dataFileOffset

structure Filled (s : AllocState K) : Prop where
  full : ∀ x, 0 ≤ x → x < s.fileEnd → 0 < s.used x
  reserved : ∀ e ∈ s.held, (e.offset, e.len) ∈ s.commit.reservedExtents
  apart : ∀ e ∈ s.held, e.span.2 ≤ s.commit.currWriteExtStart ∨
    s.commit.currWriteExtStart ≤ e.offset
  inside : ∀ e ∈ s.held, e.span.2 ≤ s.commit.dataFileMaxSize ∨
    s.commit.currWriteExtStart ≤ e.offset ∧ e.span.2 ≤ s.commit.currWriteExtEnd
  start : s.StartOk

/-- Steps that give up no end of an extent and take no reservation of another
upload away. -/
def KeepsReserved (s : AllocState K) : AllocEvent K → Prop
  | .removeExtentEnd _ _ => False
  | .add _ [] _ _ => s.commit.reservedExtents.lookup 0 = none
  | _ => True

instance (s : AllocState K) (e : AllocEvent K) :
    Decidable (KeepsReserved s e) := by
  rcases e with ⟨⟩ | _ | _ | _ | _ | _ | _ | ⟨_, _ | _⟩ <;>
    dsimp only [KeepsReserved] <;> infer_instance

theorem KeepsReserved.keepsExtents {s : AllocState K} {e : AllocEvent K}
    (h : KeepsReserved s e) : KeepsExtents s e := by
  cases e with
  | removeExtentEnd _ _ => exact h.elim
  | _ => trivial

theorem filled_init {cfg : AllocConfig} (hpos : 0 < cfg.allocChunkSize) :
    Filled (init cfg : AllocState K) := by
  refine ⟨?_, by simp [init], by simp [init], by simp [init], le_rfl⟩
  intro x hlo hhi
  have hin : ind ((0 : ℤ), cfg.allocChunkSize) x = 1 := by
    refine ind_eq_one.mpr ⟨hlo, ?_⟩
    simp only [fileEnd, init] at hhi
    omega
  simp only [used, init, hin]
  omega

section Steps

variable {cfg : AllocConfig} {s : AllocState K}

/-! ## Finalizing and freeing extents -/

theorem Inv.diff_disjoint (h : Inv cfg s) (hexts : exts.Subperm s.held)
    {e f : SPunchItem} (he : e ∈ s.held.diff exts) (hf : f ∈ exts) {x : ℤ}
    (hxe : x ∈ Set.Ico e.span.1 e.span.2) :
    x ∉ Set.Ico f.span.1 f.span.2 := by
  intro hxf
  have honce := h.once x
  have hsplit := held_split hexts x
  have hine := ind_le_mult (mem_map_of_mem (f := SPunchItem.span) he) x
  have hinf := ind_le_mult (mem_map_of_mem (f := SPunchItem.span) hf) x
  rw [ind_eq_one.mpr hxe] at hine
  rw [ind_eq_one.mpr hxf] at hinf
  simp only [used, settled] at honce
  omega

theorem Inv.held_span (h : Inv cfg s) {e : SPunchItem} (he : e ∈ s.held) :
    e.span.1 = e.offset ∧ e.span.1 < e.span.2 := by
  have hround := roundUp_pos (h.held e he).pos
  refine ⟨rfl, ?_⟩
  simp only [SPunchItem.span]
  omega

theorem Inv.diff_offset_ne (h : Inv cfg s) (hexts : exts.Subperm s.held)
    {e f : SPunchItem} (he : e ∈ s.held.diff exts)
    (hf : f ∈ exts) : e.offset ≠ f.offset := by
  intro heq
  obtain ⟨hoff, hlt⟩ := h.held_span (diff_subset _ _ he)
  obtain ⟨hoff', hlt'⟩ := h.held_span (hexts.subset hf)
  exact h.diff_disjoint hexts he hf (x := e.offset)
    ⟨by omega, by omega⟩ ⟨by omega, by omega⟩

theorem Inv.held_le_fileEnd (hpos : 0 < cfg.allocChunkSize) (h : Inv cfg s)
    {e : SPunchItem} (he : e ∈ s.held) : e.span.2 ≤ s.fileEnd := by
  obtain ⟨hlast, hused⟩ := h.held_last he
  by_contra hgt
  simp only [fileEnd] at hgt
  have hzero := (h.chunked hpos).top (e.span.2 - 1) (by omega) (by omega)
  omega

variable {c : CommitState K} {p : Prepare}

theorem Inv.diff_cut (h : Inv cfg s) (hexts : exts.Subperm s.held)
    {e f : SPunchItem} (he : e ∈ s.held.diff exts) (hf : f ∈ exts) :
    e.span.2 ≤ f.span.2 ∨ f.span.2 ≤ e.offset := by
  by_contra hcross
  push Not at hcross
  obtain ⟨hoff, hlt⟩ := h.held_span (diff_subset _ _ he)
  obtain ⟨_, hlt'⟩ := h.held_span (hexts.subset hf)
  exact h.diff_disjoint hexts he hf (x := f.span.2 - 1)
    ⟨by omega, by omega⟩ ⟨by omega, by omega⟩

theorem fileEnd_consume (hpos : 0 < cfg.allocChunkSize) (h : Inv cfg s)
    (hexts : exts.Subperm s.held) (hused : CommitState.UsedExts s.commit exts c)
    (hreach : CommitState.Reached s.commit exts c) :
    (s.consume exts c).fileEnd = s.fileEnd := by
  have hmax : c.dataFileMaxSize ≤ s.fileEnd := by
    rcases hreach.max with heq | ⟨f, hf, heq⟩
    · rw [heq]
      exact le_max_left _ _
    · rw [heq]
      exact h.held_le_fileEnd hpos (hexts.subset hf)
  have hle := hused.maxSize
  simp only [fileEnd, consume, hused.extEnd] at hmax hle ⊢
  omega

/-- The write extent never begins behind what the commit thread has seen: the
last byte of an extent in flight is neither in an answer nor in the rest. -/
theorem startOk_consume (hpos : 0 < cfg.allocChunkSize) (h : Inv cfg s)
    (hold : s.StartOk) (hexts : exts.Subperm s.held)
    (hreach : CommitState.Reached s.commit exts c) :
    (s.consume exts c).StartOk := by
  have hview := (h.chunked hpos).view
  have hwait : (s.consume exts c).waiting = s.waiting := rfl
  simp only [StartOk, hwait] at hold ⊢
  rcases hreach.start with heq | ⟨f, hf, heq, hlt, hle⟩
  · simp only [consume, heq]
    exact hold
  have hheld := hexts.subset hf
  obtain ⟨hfoff, hfspan⟩ := h.held_span hheld
  have hlast := h.owned_eq_zero_of_held hheld (x := f.span.2 - 1)
    (by omega) (by omega)
  simp only [ViewOk] at hview
  simp only [pendingExt] at hlast
  split at hold
  · rename_i start fin hfound
    rw [hfound] at hview hlast
    have hin : ind (start, fin) (f.span.2 - 1) = 1 :=
      ind_eq_one.mpr ⟨by simp only; omega, by simp only; omega⟩
    simp only [hin] at hlast
    omega
  · rename_i hother
    have hextEnd : s.commit.currWriteExtEnd = s.dataFileOffsetEnd := by
      split at hview
      · exact hview
      · exact hview.2.1
      · rename_i start fin hfound
        exact absurd hfound (hother start fin)
      · exact hview
    simp only [consume, heq]
    by_contra hgt
    have hin : ind (s.dataFileOffset, s.dataFileOffsetEnd)
        (f.span.2 - 1) = 1 :=
      ind_eq_one.mpr ⟨by simp only; omega, by simp only; omega⟩
    omega

theorem filled_consume (hpos : 0 < cfg.allocChunkSize) (h : Inv cfg s)
    (hfill : Filled s) {exts erased : List SPunchItem}
    (hexts : exts.Subperm s.held) (hused : CommitState.UsedExts s.commit exts c)
    (hreach : CommitState.Reached s.commit exts c) (hres : c.reservedExtents =
      (s.commit.eraseReserved erased).reservedExtents)
    (herased : ∀ e ∈ s.held.diff exts, ∀ f ∈ erased, e.offset ≠ f.offset)
    (howned : ∀ x, c.owned x =
      s.commit.owned x + mult (exts.map SPunchItem.span) x) :
    Filled (s.consume exts c) := by
  have hkeep : ∀ e ∈ s.held.diff exts, e ∈ s.held :=
    fun e he => diff_subset _ _ he
  refine ⟨?_, ?_, ?_, ?_, startOk_consume hpos h hfill.start hexts hreach⟩
  · intro x hlo hhi
    rw [fileEnd_consume hpos h hexts hused hreach] at hhi
    have hfull := hfill.full x hlo hhi
    have ho := howned x
    have hs := held_split hexts x
    simp only [used, settled, consume, pendingExt, waiting] at hfull ho hs ⊢
    omega
  · intro e he
    rw [consume, hres]
    exact mem_eraseReserved.mpr ⟨hfill.reserved e (hkeep e he), herased e he⟩
  · intro e he
    show e.span.2 ≤ c.currWriteExtStart ∨ c.currWriteExtStart ≤ e.offset
    rcases hreach.start with heq | ⟨f, hf, heq, _, _⟩
    · rw [heq]
      exact hfill.apart e (hkeep e he)
    · rw [heq]
      exact h.diff_cut hexts he hf
  · intro e he
    show e.span.2 ≤ c.dataFileMaxSize ∨
      c.currWriteExtStart ≤ e.offset ∧ e.span.2 ≤ c.currWriteExtEnd
    rcases hfill.inside e (hkeep e he) with hle | ⟨hlo, hhi⟩
    · exact .inl (hle.trans hused.maxSize)
    rw [hused.extEnd]
    rcases hreach.start with heq | ⟨f, hf, heq, _, _⟩
    · rw [heq]
      exact .inr ⟨hlo, hhi⟩
    · rcases h.diff_cut hexts he hf with hle | hge
      · exact .inl (hle.trans (hused.covered f hf))
      · rw [heq]
        exact .inr ⟨hge, hhi⟩

theorem filled_empty (hpos : 0 < cfg.allocChunkSize) (h : Inv cfg s)
    (hf : Frontier s) (hfill : Filled s)
    (hnone : s.commit.reservedExtents.lookup 0 = none)
    (hused : CommitState.UsedExts s.commit [⟨0, 0⟩] c)
    (hreach : CommitState.Reached s.commit [⟨0, 0⟩] c)
    (hres : c.reservedExtents =
      (s.commit.eraseReserved [⟨0, 0⟩]).reservedExtents)
    (howned : ∀ x, c.owned x = s.commit.owned x +
      mult (([] : List SPunchItem).map SPunchItem.span) x) :
    Filled (s.consume [] c) := by
  have hspan : (⟨0, 0⟩ : SPunchItem).span.2 = 0 := by simp [SPunchItem.span]
  have hstart := hf.startNonneg
  have hmax := hf.maxNonneg
  have hgrow := hused.maxSize
  apply filled_consume hpos h hfill nil_subperm ?_ ?_ hres ?_ howned
  · exact ⟨hused.extStart, hused.startDvd, hused.extEnd, hused.maxSize,
      by simp, by simp⟩
  · constructor
    · rcases hreach.start with heq | ⟨e, he, _, hlt, _⟩
      · exact .inl heq
      · rw [mem_singleton.mp he, hspan] at hlt
        omega
    · rcases hreach.max with heq | ⟨e, he, heq⟩
      · exact .inl heq
      · rw [mem_singleton.mp he, hspan] at heq
        left
        omega
  · intro e he f hf' heq
    rw [mem_singleton.mp hf'] at heq
    have hreserved := hfill.reserved e (diff_subset _ _ he)
    exact OrderedMap.lookup_eq_none.mp hnone _ hreserved heq

theorem filled_moved (hfill : Filled s) (hmoved : Moved s.commit c) :
    Filled { s with commit := c } := by
  obtain ⟨-, hsame, hres, howned⟩ := hmoved
  have hcount : ∀ x, { s with commit := c }.used x = s.used x := by
    intro x
    simp only [used, settled, howned]
    rfl
  have hend : { s with commit := c }.fileEnd = s.fileEnd := by
    simp only [fileEnd, hsame.maxSize, hsame.extEnd]
  refine ⟨?_, ?_, ?_, ?_, ?_⟩
  · intro x hlo hhi
    rw [hcount]
    exact hfill.full x hlo (hend ▸ hhi)
  · rw [hres]
    exact hfill.reserved
  · rw [hsame.extStart]
    exact hfill.apart
  · rw [hsame.extStart, hsame.extEnd, hsame.maxSize]
    exact hfill.inside
  · have hstart := hfill.start
    simp only [StartOk, waiting, hsame.extStart] at hstart ⊢
    exact hstart

/-! ## A new write extent -/

theorem filled_findFree (h : Inv cfg s) (hf : Frontier s) (hfill : Filled s)
    {offset : ℤ} (hchunk : blockSize ∣ cfg.allocChunkSize)
    (hp : s.prepare = some p) (hwait : p.wait = .asked offset)
    {env : FindFreeEnv} {r : FindFreeResult K}
    (hr : s.commit.findFree cfg env offset = some r) :
    Filled (s.answer p r) := by
  obtain ⟨hpos, hc, hoff, hend, hempty⟩ := chunked_of_asked h hp hwait
  have hans := answered h hchunk hp hwait hr
  have hkept := findFree_kept h.wellFormed (hoff.trans hend.symm) hc.startLe hr
  refine ⟨?_, ?_, ?_, ?_, ?_⟩
  · intro x hlo hhi
    rw [used_answer h hp hwait hans]
    by_cases hx : x < s.fileEnd
    · exact Nat.add_pos_left (hfill.full x hlo hx) _
    · have hin : ind (s.fileEnd, r.state.currWriteExtEnd) x = 1 := by
        refine ind_eq_one.mpr ⟨not_lt.mp hx, ?_⟩
        have hmax := hans.maxSize
        simp only [fileEnd, answer] at hhi hmax hx
        omega
      omega
  · intro e he
    simp only [answer, hkept.reserved]
    exact hfill.reserved e he
  · intro e he
    simp only [answer]
    rcases hans.answer with ⟨_, _, hlt⟩ | ⟨_, hs, _⟩
    · by_contra hcross
      have hdisj := hans.disjoint h hc he (x := r.state.currWriteExtStart)
        (by omega) (by omega) le_rfl
      omega
    · rw [hs]
      exact hf.clear e he
  · intro e he
    left
    simp only [answer, hans.maxSize]
    exact h.held_le_fileEnd hpos he
  · rcases hans.answer with ⟨_, hfound, _⟩ | ⟨hnone, hs, _⟩
    · simp only [StartOk, waiting, answer, hfound]
    · simp only [StartOk, waiting, answer, hnone, hs]
      omega

/-! ## Writer steps -/

theorem pendingExt_of_ne
    (hs : ∀ start fin, s.waiting ≠ .answered (.found start fin)) :
    s.pendingExt = (0, 0) := by
  unfold pendingExt
  split
  · exact absurd ‹_› (hs _ _)
  · rfl

theorem filled_prepare (hfill : Filled s) {q : Option Prepare}
    (hq : ∀ start fin, { s with prepare := q }.waiting ≠
      .answered (.found start fin))
    (hs : ∀ start fin, s.waiting ≠ .answered (.found start fin)) :
    Filled { s with prepare := q } := by
  have hpend : { s with prepare := q }.pendingExt = s.pendingExt := by
    rw [pendingExt_of_ne hq, pendingExt_of_ne hs]
  have hstart : s.commit.currWriteExtStart ≤ s.dataFileOffset := by
    have hold := hfill.start
    unfold StartOk at hold
    split at hold
    · exact absurd ‹_› (hs _ _)
    · exact hold
  refine ⟨?_, hfill.reserved, hfill.apart, hfill.inside, ?_⟩
  · intro x hlo hhi
    have hcount : { s with prepare := q }.used x = s.used x := by
      simp only [used, hpend]
      rfl
    rw [hcount]
    exact hfill.full x hlo hhi
  · unfold StartOk
    split
    · exact absurd ‹_› (hq _ _)
    · exact hstart

theorem filled_cutExt (h : Inv cfg s) (hfill : Filled s) {start fin : ℤ}
    (hcuts : Cuts s p start fin)
    (hstart : s.commit.currWriteExtStart ≤ start) : Filled ({ s with
      dataFileOffset := start, dataFileOffsetEnd := fin }.cutExt p) := by
  have hround := roundUp_pos hcuts.cut.pos
  have hle := hcuts.cut.le hcuts.lt
  have hnew : ∀ e ∈ s.held, e.offset ≠ start := by
    intro e he heq
    obtain ⟨hoff, hlt⟩ := h.held_span he
    have honce := h.once start
    have hin := ind_le_mult (mem_map_of_mem (f := SPunchItem.span) he)
      start
    rw [ind_eq_one.mpr ⟨by omega, by omega⟩] at hin
    rw [hcuts.used, ind_eq_one.mpr ⟨le_rfl, hcuts.lt⟩, settled] at honce
    omega
  refine ⟨?_, ?_, ?_, ?_, ?_⟩
  · intro x hlo hhi
    rw [hcuts.used_cutExt]
    exact hfill.full x hlo hhi
  · intro e he
    rcases mem_cons.mp he with rfl | he
    · exact OrderedMap.mem_insert.mpr (.inl rfl)
    · exact OrderedMap.mem_insert.mpr (.inr ⟨hfill.reserved e he, hnew e he⟩)
  · intro e he
    rcases mem_cons.mp he with rfl | he
    · exact .inr hstart
    · exact hfill.apart e he
  · intro e he
    rcases mem_cons.mp he with rfl | he
    · exact .inr ⟨hstart, hle.trans_eq hcuts.extEnd.symm⟩
    · exact hfill.inside e he
  · exact hstart.trans (by simp only [cutExt]; omega)

theorem useReserved_ext (hpos : 0 < cfg.allocChunkSize) (h : Inv cfg s)
    (hf : Frontier s) (hfill : Filled s) :
    CommitState.SameExt s.commit s.commit.useReserved := by
  have hreach := reached_foldl_useExt s.commit.localReserved s.commit
  have hdvd : ∀ e ∈ s.commit.localReserved, blockSize ∣ e.offset :=
    fun e he => (h.held e (hf.localReserved_subperm.subset he)).dvd
  have hadv := advanced_foldl_useExt hdvd s.commit
  refine ⟨?_, ?_, hadv.extEnd⟩
  · rcases hreach.max with heq | ⟨e, he, heq⟩
    · exact heq
    · have haligned := h.held e (hf.localReserved_subperm.subset he)
      obtain ⟨_, hle, _⟩ := mem_localReserved.mp he
      have hround : roundUp e.len ≤ s.commit.dataFileMaxSize - e.offset :=
        roundUp_le haligned.pos.le (by omega)
          (dvd_sub (h.chunked hpos).maxDvd haligned.dvd)
      have hgrow := hadv.maxSize
      simp only [SPunchItem.span] at heq
      simp only [CommitState.useReserved]
      omega
  · rcases hreach.start with heq | ⟨e, he, _, hlt, hle⟩
    · exact heq
    · obtain ⟨_, _, hout⟩ := mem_localReserved.mp he
      have hmem := hf.localReserved_subperm.subset he
      have hlen := le_roundUp (h.held e hmem).pos.le
      have hapart := hfill.apart e hmem
      simp only [SPunchItem.span] at hlt hle hapart
      omega

theorem moved_committed (hpos : 0 < cfg.allocChunkSize) (h : Inv cfg s)
    (hf : Frontier s) (hfill : Filled s) :
    Moved s.commit s.commit.useReserved.committed := by
  have hsame := sameMaps_committed s.commit
  have hext := useReserved_ext hpos h hf hfill
  exact ⟨hsame.wellFormed h.wellFormed,
    ⟨hext.maxSize, hext.extStart, hext.extEnd⟩, foldl_useExt_reserved _ _,
    hsame.owned⟩

/-- Every step that keeps reservations keeps the data file filled. -/
theorem filled_step (hpos : 0 < cfg.allocChunkSize)
    (hchunk : blockSize ∣ cfg.allocChunkSize) (h : Inv cfg s)
    (hf : Frontier s) (hfill : Filled s) {s' : AllocState K}
    {e : AllocEvent K} (hok : KeepsReserved s e)
    (hstep : step cfg s e = some s') : Filled s' := by
  cases step_steps hstep with
  | removeExtentEnd => exact hok.elim
  | writePrepare hp =>
    exact filled_prepare hfill (by simp [waiting]) (by simp [waiting, hp])
  | askFindFree hp hidle | finishPrepare hp hidle =>
    exact filled_prepare hfill (by simp [waiting])
      (by simp [waiting, hp, hidle])
  | prepareExt hp hidle hrem hneeds =>
    have hstart := hfill.start
    simp only [StartOk, waiting, hp, hidle] at hstart
    exact filled_cutExt h hfill
      (cuts_prepareExt h (h.chunked hpos) hp hidle hrem hneeds) hstart
  | takeFindFree hp hwait =>
    have hstart := hfill.start
    simp only [StartOk, waiting, hp, hwait] at hstart
    exact filled_cutExt h hfill (cuts_takeFindFree h hp hwait).2 hstart.le
  | failPrepare hp hwait =>
    exact filled_prepare hfill (by simp [waiting])
      (by simp [waiting, hp, hwait])
  | @add _ exts _ _ _ hexts hc =>
    have hcons := consumed_add h hexts hc
    have hreach := add_reached hc
    cases exts with
    | nil =>
      exact filled_empty hpos h hf hfill hok hcons.used hreach
        hcons.reserved hcons.owned
    | cons e exts =>
      exact filled_consume hpos h hfill hexts hcons.used hreach
        hcons.reserved (fun _ he' _ hf' => h.diff_offset_ne hexts he' hf')
        hcons.owned
  | freeExtents hexts hc =>
    have hcons := consumed_freeExtents h hexts hc
    exact filled_consume hpos h hfill hexts hcons.used
      (freeExtents_reached hc) hcons.reserved
      (fun _ he' _ hf' => h.diff_offset_ne hexts he' hf') hcons.owned
  | findFree hp hwait hr =>
    exact filled_findFree h hf hfill hchunk hp hwait hr
  | del hc => exact filled_moved hfill (moved_del h hc)
  | commit hc =>
    obtain ⟨c, hfree, rfl⟩ := Option.map_eq_some_iff.mp hc
    have hmoved := moved_doFreeMinspace h hfree
    have hfill₁ := filled_moved hfill hmoved
    exact filled_moved (s := { s with commit := c }) hfill₁
      (moved_committed hpos (inv_moved h hmoved) (frontier_moved hf hmoved)
        hfill₁)

end Steps

end AllocState

end Hs5
