import Hs5.Storage.Partition

/-!
# The write extent as the commit thread sees it

A commit stores the current write extent as the commit thread sees it,
`[curr_write_ext_start, curr_write_ext_end)`, and the reserved extents
outside of it.  A later process takes the stored write extent as its own, so
nothing in the index or the free map may lie in it.  The commit thread learns
of a used extent only with the item that finalizes or frees it, and moves the
start past it then; until then the extent counts as part of the stored write
extent, or as reserved.
-/

namespace Hs5

open List Cover Transition CommitState

namespace AllocState

variable {K : Type} [LinearOrder K]

/-- The commit thread's view of the write extent is free of stored data, and
everything stored lies below the file size. -/
structure Frontier (s : AllocState K) : Prop where
  startNonneg : 0 ≤ s.commit.currWriteExtStart
  startDvd : blockSize ∣ s.commit.currWriteExtStart
  fresh : ∀ x, s.commit.currWriteExtStart ≤ x →
    x < s.commit.currWriteExtEnd → s.commit.owned x = 0
  clear : ∀ e ∈ s.held, e.span.2 ≤ s.commit.currWriteExtEnd ∨
    s.commit.currWriteExtEnd ≤ e.offset
  below : ∀ x, s.commit.dataFileMaxSize ≤ x → s.commit.owned x = 0
  reserved : ∀ p ∈ s.commit.reservedExtents, ⟨p.1, p.2⟩ ∈ s.held
  maxNonneg : 0 ≤ s.commit.dataFileMaxSize

/-- The steps other than giving up the end of an extent. -/
def KeepsExtents (_ : AllocState K) : AllocEvent K → Prop
  | .removeExtentEnd _ _ => False
  | _ => True

instance (s : AllocState K) (e : AllocEvent K) :
    Decidable (KeepsExtents s e) := by
  rcases e with ⟨⟩ <;> dsimp only [KeepsExtents] <;> infer_instance

theorem KeepsExtents.noSplitBlock {s : AllocState K} {e : AllocEvent K}
    (h : KeepsExtents s e) : NoSplitBlock s e := by
  cases e with
  | removeExtentEnd _ _ => exact h.elim
  | _ => trivial

theorem frontier_init (cfg : AllocConfig) :
    Frontier (init cfg : AllocState K) := by
  have howned : ∀ x, (init cfg : AllocState K).commit.owned x = 0 := by
    intro x
    simp [init, CommitState.owned, Freemap.freeMult, multMap, OrderedMap.empty]
  exact ⟨le_rfl, dvd_zero _, fun x _ _ => howned x, by simp [init],
    fun x _ => howned x, by simp [init], le_rfl⟩

section Steps

variable {cfg : AllocConfig} {s : AllocState K}

variable {p : Prepare} {e : SPunchItem}

theorem Inv.owned_eq_zero_of_held (h : Inv cfg s) (he : e ∈ s.held) {x : ℤ}
    (hlo : e.offset ≤ x) (hhi : x < e.span.2) :
    s.commit.owned x = 0 ∧ ind (s.dataFileOffset, s.dataFileOffsetEnd) x = 0 ∧
      ind s.pendingExt x = 0 := by
  have honce := h.once x
  have hheld := ind_le_mult (mem_map_of_mem (f := SPunchItem.span) he) x
  rw [ind_eq_one.mpr ⟨hlo, hhi⟩] at hheld
  simp only [used, settled] at honce
  omega

theorem Inv.held_last (h : Inv cfg s) (he : e ∈ s.held) :
    e.offset ≤ e.span.2 - 1 ∧ 0 < s.used (e.span.2 - 1) := by
  have hround := roundUp_pos (h.held e he).pos
  have hlo : e.offset ≤ e.span.2 - 1 := by
    simp only [SPunchItem.span]
    omega
  have hheld := ind_le_mult (mem_map_of_mem (f := SPunchItem.span) he)
    (e.span.2 - 1)
  rw [ind_eq_one.mpr ⟨hlo, by simp⟩] at hheld
  refine ⟨hlo, ?_⟩
  simp only [used, settled]
  omega

/-! ## Finalizing and freeing extents -/

theorem frontier_consume (hf : Frontier s) {exts erased : List SPunchItem}
    (hexts : exts.Subperm s.held) (herased : ∀ e ∈ exts, e ∈ erased)
    {c : CommitState K}
    (hused : CommitState.UsedExts s.commit erased c)
    (hres : c.reservedExtents = (s.commit.eraseReserved erased).reservedExtents)
    (howned : ∀ x, c.owned x =
      s.commit.owned x + mult (exts.map SPunchItem.span) x) :
    Frontier (s.consume exts c) := by
  have hpoint : ∀ x, 0 < mult (exts.map SPunchItem.span) x →
      ∃ e ∈ exts, e.offset ≤ x ∧ x < e.span.2 := by
    intro x hx
    obtain ⟨i, hi, hrange⟩ := exists_of_mult_pos hx
    obtain ⟨e, he, rfl⟩ := mem_map.mp hi
    exact ⟨e, he, hrange⟩
  have hnone : ∀ x, s.commit.owned x = 0 →
      (∀ e ∈ exts, e.offset ≤ x → ¬ x < e.span.2) → c.owned x = 0 := by
    intro x hzero hout
    rw [howned, hzero, Nat.zero_add]
    by_contra hne
    obtain ⟨e, he, hlo, hhi⟩ := hpoint x (Nat.pos_of_ne_zero hne)
    exact hout e he hlo hhi
  refine ⟨hf.startNonneg.trans hused.extStart, hused.startDvd hf.startDvd,
    ?_, ?_, ?_, ?_, hf.maxNonneg.trans hused.maxSize⟩
  · intro x hstart hend
    have hstart' : c.currWriteExtStart ≤ x := hstart
    have hend' : x < s.commit.currWriteExtEnd := hused.extEnd ▸ hend
    apply hnone x (hf.fresh x (hused.extStart.trans hstart') hend')
    intro e he hlo hhi
    have hclear := hf.clear e (hexts.subset he)
    have hpassed := hused.passed e (herased e he)
    omega
  · intro e he
    rw [consume, hused.extEnd]
    exact hf.clear e (diff_subset _ _ he)
  · intro x hmax
    have hmax' : c.dataFileMaxSize ≤ x := hmax
    apply hnone x (hf.below x (hused.maxSize.trans hmax'))
    intro e he _ hhi
    have hcovered := hused.covered e (herased e he)
    omega
  · intro p hp
    rw [consume, hres] at hp
    obtain ⟨hp, hkeys⟩ := mem_eraseReserved.mp hp
    apply mem_diff_of_mem (hf.reserved p hp)
    intro hmem
    exact hkeys _ (herased _ hmem) rfl

theorem frontier_moved (hf : Frontier s) {c : CommitState K}
    (hmoved : Moved s.commit c) : Frontier { s with commit := c } where
  startNonneg := hf.startNonneg.trans_eq hmoved.ext.extStart.symm
  startDvd := by
    rw [hmoved.ext.extStart]
    exact hf.startDvd
  fresh := by
    intro x hlo hhi
    rw [hmoved.owned]
    exact hf.fresh x (hmoved.ext.extStart ▸ hlo) (hmoved.ext.extEnd ▸ hhi)
  clear := by
    rw [hmoved.ext.extEnd]
    exact hf.clear
  below := by
    intro x hx
    rw [hmoved.owned]
    exact hf.below x (hmoved.ext.maxSize ▸ hx)
  reserved := by
    rw [hmoved.reserved]
    exact hf.reserved
  maxNonneg := hf.maxNonneg.trans_eq hmoved.ext.maxSize.symm

theorem frontier_committed (h : Inv cfg s) (hf : Frontier s) :
    Frontier { s with commit := s.commit.useReserved.committed } := by
  have hused := usedExts_foldl (fun e he => h.reserved _
    (mem_localReserved.mp he).1) s.commit
  have hfront := frontier_consume hf (nil_subperm (l := s.held))
    (c := s.commit.useReserved.committed) (fun _ he => he)
    ⟨hused.extStart, hused.startDvd, hused.extEnd, hused.maxSize, by simp,
      by simp⟩ (foldl_useExt_reserved _ _)
    (by simpa using (sameMaps_committed s.commit).owned)
  simpa [consume] using hfront

theorem mem_extents_indexValueOf {exts : List SPunchItem} (he : e ∈ exts)
    (lastModified : ℤ) (md5sum : Bytes) :
    e ∈ (indexValueOf exts lastModified md5sum).extents := by
  cases exts with
  | nil => cases he
  | cons e' exts => exact he

/-! ## A new write extent -/

theorem Chunked.lt_fileEnd (hc : s.Chunked) (he : e ∈ s.held) {x : ℤ}
    (hlo : e.offset ≤ x) (hhi : x < e.span.2) : x < s.fileEnd := by
  by_contra hge
  have hzero := hc.used_eq_zero (not_lt.mp hge)
  have hheld := ind_le_mult (mem_map_of_mem (f := SPunchItem.span) he) x
  rw [ind_eq_one.mpr ⟨hlo, hhi⟩] at hheld
  simp only [used, settled] at hzero
  omega

theorem Answered.disjoint {r : FindFreeResult K} (hans : Answered s p r)
    (h : Inv cfg s) (hc : s.Chunked) (he : e ∈ s.held) {x : ℤ}
    (hlo : e.offset ≤ x) (hhi : x < e.span.2)
    (hstart : r.state.currWriteExtStart ≤ x) : r.state.currWriteExtEnd ≤ x := by
  by_contra hlt
  have hfile := hc.lt_fileEnd he hlo hhi
  have howned := hans.owned x
  have hzero := (h.owned_eq_zero_of_held he hlo hhi).1
  have hout : ind (s.fileEnd, r.state.currWriteExtEnd) x = 0 :=
    if_neg fun hin => absurd hin.1 (not_le.mpr hfile)
  rw [ind_eq_one.mpr ⟨hstart, not_le.mp hlt⟩] at howned
  omega

theorem frontier_findFree (h : Inv cfg s) (hf : Frontier s) {offset : ℤ}
    (hchunk : blockSize ∣ cfg.allocChunkSize)
    (hp : s.prepare = some p) (hwait : p.wait = .asked offset)
    {env : FindFreeEnv} {r : FindFreeResult K}
    (hr : s.commit.findFree cfg env offset = some r) :
    Frontier (s.answer p r) := by
  obtain ⟨hpos, hc, hoff, hend, hempty⟩ := chunked_of_asked h hp hwait
  have hans := answered h hchunk hp hwait hr
  have hkept := findFree_kept h.wellFormed (hoff.trans hend.symm) hc.startLe hr
  have hmax : s.commit.dataFileMaxSize ≤ s.fileEnd := le_max_left _ _
  have hmaxNonneg := hf.maxNonneg
  have hmaxSize := hans.maxSize
  refine ⟨hans.startNonneg, hans.startDvd, ?_, ?_, ?_, ?_,
    by simp only [answer]; omega⟩
  · intro x hlo hhi
    have howned := hans.owned x
    rw [ind_eq_one.mpr ⟨hlo, hhi⟩] at howned
    have hone := h.owned_le_one x
    have hnew := ind_le_one (s.fileEnd, r.state.currWriteExtEnd) x
    show r.state.owned x = 0
    by_cases hx : s.fileEnd ≤ x
    · have hzero := hf.below x (hmax.trans hx)
      omega
    · have hout : ind (s.fileEnd, r.state.currWriteExtEnd) x = 0 :=
        if_neg fun hin => hx hin.1
      omega
  · intro e he
    show e.span.2 ≤ r.state.currWriteExtEnd ∨ r.state.currWriteExtEnd ≤ e.offset
    rcases hans.answer with ⟨_, _, hlt⟩ | ⟨_, _, hsame⟩
    · by_contra hcross
      obtain ⟨hspan, _⟩ := h.held_last he
      have hdisj := hans.disjoint h hc he
        (x := max e.offset r.state.currWriteExtStart) (by omega) (by omega)
        (le_max_right _ _)
      omega
    · rw [hsame]
      exact hf.clear e he
  · intro x hx
    have hx' : s.fileEnd ≤ x := hmaxSize ▸ hx
    have howned := hans.owned x
    have hzero := hf.below x (hmax.trans hx')
    have hstart := hans.startLeEnd
    have hsame : ind (r.state.currWriteExtStart, r.state.currWriteExtEnd) x =
        ind (s.fileEnd, r.state.currWriteExtEnd) x := by
      simp only [ind, hx', hstart.trans hx']
    show r.state.owned x = 0
    omega
  · intro q hq
    exact hf.reserved q (hkept.reserved ▸ hq)

/-! ## Writer steps -/

theorem frontier_prepare (hf : Frontier s) (q : Option Prepare) :
    Frontier { s with prepare := q } :=
  ⟨hf.startNonneg, hf.startDvd, hf.fresh, hf.clear, hf.below, hf.reserved,
    hf.maxNonneg⟩

theorem frontier_cutExt (hf : Frontier s) {start fin : ℤ}
    (hcuts : Cuts s p start fin) : Frontier ({ s with
      dataFileOffset := start, dataFileOffsetEnd := fin }.cutExt p) := by
  refine ⟨hf.startNonneg, hf.startDvd, hf.fresh, ?_, hf.below, ?_, hf.maxNonneg⟩
  · intro e he
    rcases mem_cons.mp he with rfl | he
    · exact .inl ((hcuts.cut.le hcuts.lt).trans_eq hcuts.extEnd.symm)
    · exact hf.clear e he
  · intro q hq
    rcases OrderedMap.mem_insert.mp hq with rfl | ⟨hq, _⟩
    · exact mem_cons_self
    · exact mem_cons_of_mem _ (hf.reserved q hq)

/-- With a positive chunk size every step that gives up no end keeps the
commit thread's view of the write extent free of stored data. -/
theorem frontier_step (hpos : 0 < cfg.allocChunkSize)
    (hchunk : blockSize ∣ cfg.allocChunkSize) (h : Inv cfg s)
    (hf : Frontier s) {s' : AllocState K} {e : AllocEvent K}
    (hok : KeepsExtents s e) (hstep : step cfg s e = some s') :
    Frontier s' := by
  cases step_steps hstep with
  | removeExtentEnd => exact hok.elim
  | writePrepare | askFindFree | failPrepare | finishPrepare =>
    exact frontier_prepare hf _
  | prepareExt hp hidle hrem hneeds =>
    exact frontier_cutExt hf
      (cuts_prepareExt h (h.chunked hpos) hp hidle hrem hneeds)
  | takeFindFree hp hwait =>
    exact frontier_cutExt hf (cuts_takeFindFree h hp hwait).2
  | @add _ _ lastModified md5sum _ hexts hc =>
    have hcons := consumed_add h hexts hc
    exact frontier_consume hf hexts
      (fun e he => mem_extents_indexValueOf he lastModified md5sum)
      hcons.used hcons.reserved hcons.owned
  | freeExtents hexts hc =>
    have hcons := consumed_freeExtents h hexts hc
    exact frontier_consume hf hexts (fun e he => he) hcons.used
      hcons.reserved hcons.owned
  | findFree hp hwait hr => exact frontier_findFree h hf hchunk hp hwait hr
  | del hc => exact frontier_moved hf (moved_del h hc)
  | commit hc =>
    obtain ⟨c, hfree, rfl⟩ := Option.map_eq_some_iff.mp hc
    have hmoved := moved_doFreeMinspace h hfree
    exact frontier_committed (inv_moved h hmoved) (frontier_moved hf hmoved)

end Steps

end AllocState

end Hs5
