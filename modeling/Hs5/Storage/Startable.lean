import Hs5.Storage.Replay

/-!
# Starting from what a commit has stored

Both kinds of commit store the file size, the write extent as the commit
thread sees it and the reserved extents outside of it.  The next process
takes over the write extent, frees the reserved extents and knows of no
upload.  `Startable` is what the stored data has to satisfy for that: objects,
free extents, holes, the reserved extents and the write extent are disjoint,
and all but the write extent lie below the file size.
-/

namespace Hs5

open Option List Cover Transition CommitState

variable {K : Type} [LinearOrder K]

/-- A process can start from the maps of `c` with the variables `size`, where
`tmp` are the reserved extents to be freed first. -/
structure Startable (c : CommitState K) (size : SizeInfo)
    (tmp : List SPunchItem) : Prop where
  wellFormed : c.WellFormed
  aligned : ∀ e ∈ tmp, e.Aligned
  once : ∀ x, c.owned x + mult (tmp.map SPunchItem.span) x +
    ind (size.currWriteExtStart, size.currWriteExtEnd) x ≤ 1
  below : ∀ x, size.dataFileMaxSize ≤ x →
    c.owned x + mult (tmp.map SPunchItem.span) x = 0
  startNonneg : 0 ≤ size.currWriteExtStart
  startDvd : blockSize ∣ size.currWriteExtStart
  startLe : size.currWriteExtStart ≤ size.currWriteExtEnd
  endPos : 0 < size.currWriteExtEnd
  endDvd : blockSize ∣ size.currWriteExtEnd
  maxNonneg : 0 ≤ size.dataFileMaxSize
  maxDvd : blockSize ∣ size.dataFileMaxSize

variable {c c' : CommitState K} {tmp : List SPunchItem} {size : SizeInfo}

theorem Startable.of_owned (h : Startable c size tmp) (hok : c'.WellFormed)
    (howned : ∀ x, c'.owned x = c.owned x) :
    Startable c' size tmp :=
  { h with
    wellFormed := hok
    once := fun x => by
      rw [howned]
      exact h.once x
    below := fun x hx => by
      rw [howned]
      exact h.below x hx }

theorem Startable.of_sameMaps (h : Startable c size tmp)
    (hsame : CommitState.SameMaps c c') : Startable c' size tmp :=
  h.of_owned (hsame.wellFormed h.wellFormed) hsame.owned

theorem Startable.owned_le_one {c : CommitState K} (h : Startable c size tmp)
    (x : ℤ) : c.owned x ≤ 1 := by
  have := h.once x
  omega

/-! ## Moving forward -/

namespace CommitState

/-- The write extent keeps its end, its start and the file size only grow by
whole blocks, and nothing is reserved that was not. -/
structure Advanced (c c' : CommitState K) : Prop extends Grown c c' where
  start : c.currWriteExtStart ≤ c'.currWriteExtStart
  startDvd : blockSize ∣ c.currWriteExtStart → blockSize ∣ c'.currWriteExtStart
  reserved : ∀ p ∈ c'.reservedExtents, p ∈ c.reservedExtents

theorem Advanced.of_same (h : SameExt c c')
    (hres : c'.reservedExtents = c.reservedExtents) : Advanced c c' where
  toGrown := Grown.of_same h
  start := h.extStart.ge
  startDvd := by
    rw [h.extStart]
    exact id
  reserved := by
    rw [hres]
    exact fun _ hp => hp

theorem Advanced.trans {c₁ c₂ c₃ : CommitState K} (h₁ : Advanced c₁ c₂)
    (h₂ : Advanced c₂ c₃) : Advanced c₁ c₃ where
  toGrown := h₁.toGrown.trans h₂.toGrown
  start := h₁.start.trans h₂.start
  startDvd := fun h => h₂.startDvd (h₁.startDvd h)
  reserved := fun p hp => h₁.reserved p (h₂.reserved p hp)

theorem advanced_foldl_useExt {exts : List SPunchItem}
    (hexts : ∀ e ∈ exts, blockSize ∣ e.offset) (c : CommitState K) :
    Advanced c (exts.foldl useExt c) := by
  have hused := usedExts_foldl hexts c
  refine ⟨(foldl_useExt hexts c).1, hused.extStart, hused.startDvd, ?_⟩
  intro p hp
  rw [foldl_useExt_reserved] at hp
  exact hp

theorem advanced_eraseReserved (exts : List SPunchItem) (c : CommitState K) :
    Advanced c (c.eraseReserved exts) :=
  ⟨Grown.of_same ⟨rfl, rfl, rfl⟩, le_rfl, id,
    fun _ hp => (mem_eraseReserved.mp hp).1⟩

theorem advanced_removeFn {fn : K} {delFromMain : Bool}
    (h : c.removeFn fn delFromMain = some c') : Advanced c c' := by
  unfold removeFn at h
  split at h
  · cases h
    exact Advanced.of_same (SameExt.refl c) rfl
  · obtain ⟨fm, _, rfl⟩ := map_eq_some_iff.mp h
    exact Advanced.of_same ⟨rfl, rfl, rfl⟩ rfl

/-! ## Commits -/

theorem nodup_localReserved (c : CommitState K) :
    c.localReserved.Nodup := by
  apply List.Nodup.map
  · rintro ⟨o, l⟩ ⟨o', l'⟩ heq
    cases heq
    rfl
  · apply List.Nodup.filter
    apply c.reservedExtents.sorted.imp
    intro p q hlt heq
    exact hlt.ne (congrArg Prod.fst heq)

end CommitState

namespace AllocState

variable {cfg : AllocConfig} {s : AllocState K}

theorem Chunked.commitEnd (h : s.Chunked) :
    0 < s.commit.currWriteExtEnd ∧ blockSize ∣ s.commit.currWriteExtEnd := by
  have hview := h.view
  have hpos := h.endPos
  have hdvd := h.endDvd
  unfold ViewOk at hview
  split at hview
  · exact ⟨by omega, hview ▸ hdvd⟩
  · exact ⟨by omega, hview.2.1 ▸ hdvd⟩
  · obtain ⟨hend, hnonneg, _, hfdvd, hlt, _⟩ := hview
    exact ⟨by omega, hend ▸ hfdvd⟩
  · exact ⟨by omega, hview ▸ hdvd⟩

theorem Frontier.localReserved_subperm (hf : Frontier s) :
    s.commit.localReserved.Subperm s.held := by
  apply subperm_of_subset (nodup_localReserved _)
  intro e he
  exact hf.reserved _ (mem_localReserved.mp he).1

theorem startable_of_live (hpos : 0 < cfg.allocChunkSize) (h : Inv cfg s)
    (hf : Frontier s) (transid : ℤ) :
    Startable s.commit (s.commit.useReserved.sizeInfo transid)
      s.commit.localReserved := by
  have hc := h.chunked hpos
  obtain ⟨hendPos, hendDvd⟩ := hc.commitEnd
  have hsub := hf.localReserved_subperm
  have haligned : ∀ e ∈ s.commit.localReserved, e.Aligned :=
    fun e he => h.held e (hsub.subset he)
  have hdvd : ∀ e ∈ s.commit.localReserved, blockSize ∣ e.offset :=
    fun e he => (haligned e he).dvd
  have hused := usedExts_foldl hdvd s.commit
  have hadv := advanced_foldl_useExt hdvd s.commit
  refine ⟨h.wellFormed, haligned, ?_, ?_, hf.startNonneg.trans hadv.start,
    hadv.startDvd hf.startDvd, hadv.extStart hc.startLe,
    hendPos.trans_eq hadv.extEnd.symm, ?_, hf.maxNonneg.trans hadv.maxSize,
    hadv.maxDvd hc.maxDvd⟩
  · intro x
    by_cases hx : s.commit.useReserved.currWriteExtStart ≤ x ∧
        x < s.commit.currWriteExtEnd
    · have hfresh := hf.fresh x (hadv.start.trans hx.1) hx.2
      have hout : mult (s.commit.localReserved.map SPunchItem.span) x = 0 := by
        by_contra hne
        obtain ⟨i, hi, hlo, hhi⟩ :=
          exists_of_mult_pos (Nat.pos_of_ne_zero hne)
        obtain ⟨e, he, rfl⟩ := mem_map.mp hi
        have hclear := hf.clear e (hsub.subset he)
        have hpassed := hused.passed e he
        simp only [CommitState.useReserved] at hx
        simp only [SPunchItem.span] at hlo hhi hclear hpassed
        omega
      have hone := ind_le_one
        (s.commit.useReserved.currWriteExtStart, s.commit.currWriteExtEnd) x
      simp only [CommitState.sizeInfo, CommitState.useReserved,
        hadv.extEnd] at hone hout ⊢
      omega
    · have hout : ind (s.commit.useReserved.currWriteExtStart,
          s.commit.useReserved.currWriteExtEnd) x = 0 := by
        rw [CommitState.useReserved, hadv.extEnd]
        exact if_neg hx
      have honce := held_once h hsub x
      simp only [CommitState.sizeInfo, hout]
      omega
  · intro x hx
    have hx' : (s.commit.localReserved.foldl CommitState.useExt
        s.commit).dataFileMaxSize ≤ x := hx
    have howned := hf.below x (hadv.maxSize.trans hx')
    have hout : mult (s.commit.localReserved.map SPunchItem.span) x = 0 := by
      by_contra hne
      obtain ⟨i, hi, _, hhi⟩ := exists_of_mult_pos (Nat.pos_of_ne_zero hne)
      obtain ⟨e, he, rfl⟩ := mem_map.mp hi
      have hcovered := hused.covered e he
      omega
    omega
  · simp only [CommitState.sizeInfo, CommitState.useReserved, hadv.extEnd]
    exact hendDvd

def start (c : CommitState K) (size : SizeInfo) : AllocState K where
  commit := c
  dataFileOffset := size.currWriteExtStart
  dataFileOffsetEnd := size.currWriteExtEnd
  prepare := none
  held := []

/-- A process that starts from startable data satisfies the invariants.  The
variables of the commit thread may have moved on since they were read. -/
theorem inv_start (hpos : 0 < cfg.allocChunkSize) {d : Committed K}
    {c : CommitState K} (h : Startable c size [])
    (hadv : CommitState.Advanced (d.opened size) c) :
    Inv cfg (start c size) ∧ Frontier (start c size) := by
  have hend : c.currWriteExtEnd = size.currWriteExtEnd := hadv.extEnd
  have hstart : size.currWriteExtStart ≤ c.currWriteExtStart := hadv.start
  have hmax : size.dataFileMaxSize ≤ c.dataFileMaxSize := hadv.maxSize
  have hused : ∀ x, (start c size).used x = c.owned x +
      ind (size.currWriteExtStart, size.currWriteExtEnd) x := by
    intro x
    have hzero : ind ((0 : ℤ), 0) x = 0 := ind_of_le le_rfl x
    simp [used, settled, start, pendingExt, waiting, hzero]
  constructor
  · refine ⟨h.wellFormed, by simp [start], h.startNonneg, h.startDvd,
      by simp [start], fun p hp => absurd (hadv.reserved p hp)
        (OrderedMap.not_mem_empty p), ?_, ?_, ?_⟩
    · intro x
      rw [hused]
      simpa using h.once x
    · intro _
      refine ⟨h.endPos, h.endDvd, h.startLe, hadv.extStart h.startLe,
        hadv.maxDvd h.maxDvd, hend, ?_⟩
      intro x hx hx'
      have howned := h.below x (hmax.trans hx)
      have hout : ind (size.currWriteExtStart, size.currWriteExtEnd) x = 0 :=
        if_neg fun hin => absurd hin.2 (not_lt.mpr (hend ▸ hx'))
      rw [hused, hout]
      simpa using howned
    · intro hle
      omega
  · refine ⟨h.startNonneg.trans hstart, hadv.startDvd h.startDvd, ?_,
      by simp [start], ?_, ?_, h.maxNonneg.trans hmax⟩
    · intro x hlo hhi
      have honce := h.once x
      rw [ind_eq_one.mpr ⟨hstart.trans hlo, hend ▸ hhi⟩] at honce
      show c.owned x = 0
      omega
    · intro x hx
      have howned := h.below x (hmax.trans hx)
      show c.owned x = 0
      omega
    · intro p hp
      exact absurd (hadv.reserved p hp) (OrderedMap.not_mem_empty p)

end AllocState

/-! ## The first actions of a process -/

namespace CommitState

theorem resetDelLog_spec {c : CommitState K} (h : Startable c size tmp) :
    ∃ c', c.resetDelLog tmp = some c' ∧ Startable c' size [] ∧
      SameExt c c' ∧ c'.reservedExtents = c.reservedExtents ∧
      (∀ x, c'.owned x = c.owned x + mult (tmp.map SPunchItem.span) x) ∧
      (c.fm.Exact → c'.fm.Exact) := by
  obtain ⟨fm, hfm, hok, hmult, hfreed⟩ := addFreemapExts_spec
    h.wellFormed.fm h.aligned (by
      intro x
      have := h.once x
      simp only [owned] at this
      omega)
  have howned : ∀ x, ({ c with
      fm := { fm with trimItems := c.fm.trimItems } } : CommitState K).owned x
        = c.owned x + mult (tmp.map SPunchItem.span) x := by
    intro x
    have := hmult x
    simp only [owned, Freemap.freeMult] at this ⊢
    omega
  refine ⟨{ c with fm := { fm with trimItems := c.fm.trimItems } },
    by simp [resetDelLog, hfm], ?_, ⟨rfl, rfl, rfl⟩, rfl, howned, hfreed.exact⟩
  refine { h with
    wellFormed := ⟨hok, h.wellFormed.main, h.wellFormed.holes⟩
    aligned := by simp
    once := ?_
    below := ?_ }
  · intro x
    have := h.once x
    rw [howned]
    simp only [map_nil, mult_nil]
    omega
  · intro x hx
    have := h.below x hx
    rw [howned]
    simpa using this

theorem doFreeMinspace_startable (h : Startable c size tmp)
    {rounds : List SkipExtents} (hc : c.doFreeMinspace rounds = some c') :
    Startable c' size tmp ∧ SameExt c c' ∧ ∀ x, c'.owned x = c.owned x := by
  obtain ⟨c₁, hc₁, hok, hsame, howned⟩ := doFreeMinspace_spec h.wellFormed
    h.owned_le_one rounds
  rw [hc] at hc₁
  cases hc₁
  exact ⟨h.of_owned hok howned, hsame, howned⟩

end CommitState

/-! ## Replaying items -/

/-- The extents of an item start on block boundaries. -/
def LogItem.OffsetsDvd : LogItem K → Prop
  | .freeExtents exts => ∀ e ∈ exts, blockSize ∣ e.offset
  | _ => True

namespace CommitState

theorem replayItem_advanced {item : LogItem K} (hitem : item.OffsetsDvd)
    (h : c.replayItem item = some c') : Advanced c c' := by
  cases item with
  | add fn exts lastModified md5sum =>
    obtain ⟨c₁, hc₁, rfl⟩ := map_eq_some_iff.mp h
    have herase := advanced_eraseReserved
      (indexValueOf exts lastModified md5sum).extents c₁
    have hadv := (advanced_removeFn hc₁).trans herase
    exact ⟨⟨hadv.maxSize, hadv.maxDvd, hadv.extStart, hadv.extEnd⟩,
      hadv.start, hadv.startDvd, hadv.reserved⟩
  | del fn => exact advanced_removeFn h
  | freeExtents exts =>
    obtain ⟨fm, _, rfl⟩ := map_eq_some_iff.mp h
    have hadv := (advanced_eraseReserved exts c).trans
      (advanced_foldl_useExt hitem (c.eraseReserved exts))
    exact ⟨⟨hadv.maxSize, hadv.maxDvd, hadv.extStart, hadv.extEnd⟩,
      hadv.start, hadv.startDvd, hadv.reserved⟩
  | freemap change =>
    cases change with
    | addFreemapWal offset len | delFreemapWal offset len =>
      obtain ⟨fm, _, rfl⟩ := map_eq_some_iff.mp h
      exact Advanced.of_same ⟨rfl, rfl, rfl⟩ rfl

theorem replayItems_advanced {items : List (LogItem K)}
    (hitems : ∀ item ∈ items, item.OffsetsDvd)
    (h : c.replayItems items = some c') : Advanced c c' := by
  induction items generalizing c with
  | nil =>
    cases h
    exact Advanced.of_same (SameExt.refl _) rfl
  | cons item items ih =>
    obtain ⟨c₁, hc₁, hrest⟩ := bind_eq_some_iff.mp h
    have hitem := replayItem_advanced (hitems item mem_cons_self) hc₁
    exact hitem.trans
      (ih (fun i hi => hitems i (mem_cons_of_mem _ hi)) hrest)

end CommitState

end Hs5
