import Hs5.Storage.Allocator
import Hs5.Storage.CommitSpec
import Mathlib.Data.List.Perm.Subperm

/-!
# Every byte of the data file has at most one owner

The invariant counts, for every byte, the objects, uploads, free extents,
holes and parts of the current write extent that contain it.  A writer sees
the current write extent as `[data_file_offset, data_file_offset_end)`; the
commit thread sees its end and a lower bound of its used part.  Between the
answer to a `FindFree` item and the moment the waiting writer takes it, the
new write extent belongs to the answer.
-/

namespace Hs5

open List Cover Transition

namespace AllocState

variable {K : Type} [LinearOrder K]

/-- The blocks of all objects, of all extents handed out and not yet finalized
or freed, of the free map, and the rest of the current write extent. -/
def owners (s : AllocState K) : List (ℤ × ℤ) :=
  s.commit.main.entries.flatMap objectSpans ++
    s.held.map SPunchItem.span ++
    s.commit.fm.free.entries.flatMap freeSpan ++
    [(s.dataFileOffset, s.dataFileOffsetEnd)]

/-- All owners are pairwise disjoint; in particular no block belongs to two
objects. -/
def Partition (s : AllocState K) : Prop :=
  PairwiseDisjoint s.owners ∧
    ∀ p ∈ s.commit.main, ∀ q ∈ s.commit.main, p.1 ≠ q.1 →
      ∀ e ∈ p.2.extents, ∀ f ∈ q.2.extents,
        Disjoint (Set.Ico e.span.1 e.span.2) (Set.Ico f.span.1 f.span.2)

/-! ## The invariant -/

/-- What the writer inside `write_prepare` is waiting for. -/
def waiting (s : AllocState K) : FindFreeWait :=
  match s.prepare with
  | some p => p.wait
  | none => .idle

/-- The write extent found for a waiting writer and not yet taken. -/
def pendingExt (s : AllocState K) : ℤ × ℤ :=
  match s.waiting with
  | .answered (.found start fin) => (start, fin)
  | _ => (0, 0)

/-- Owners of a byte besides the write extents. -/
def settled (s : AllocState K) (x : ℤ) : ℕ :=
  s.commit.owned x + mult (s.held.map SPunchItem.span) x

def used (s : AllocState K) (x : ℤ) : ℕ :=
  s.settled x + ind (s.dataFileOffset, s.dataFileOffsetEnd) x +
    ind s.pendingExt x

/-- The end of the data file with the current write extent. -/
def fileEnd (s : AllocState K) : ℤ :=
  max s.commit.dataFileMaxSize s.commit.currWriteExtEnd

/-- How the two views of the write extent are related while the writer
waits. -/
def ViewOk (s : AllocState K) : Prop :=
  match s.waiting with
  | .idle => s.commit.currWriteExtEnd = s.dataFileOffsetEnd
  | .asked offset =>
    offset = s.dataFileOffsetEnd ∧
      s.commit.currWriteExtEnd = s.dataFileOffsetEnd ∧
      s.dataFileOffset = s.dataFileOffsetEnd
  | .answered (.found start fin) =>
    s.commit.currWriteExtEnd = fin ∧ 0 ≤ start ∧ blockSize ∣ start ∧
      blockSize ∣ fin ∧ start < fin ∧ s.dataFileOffset = s.dataFileOffsetEnd
  | .answered .noSpace => s.commit.currWriteExtEnd = s.dataFileOffsetEnd

/-- The write extent with an end, as it is for a positive chunk size. -/
structure Chunked (s : AllocState K) : Prop where
  endPos : 0 < s.dataFileOffsetEnd
  endDvd : blockSize ∣ s.dataFileOffsetEnd
  offsetLe : s.dataFileOffset ≤ s.dataFileOffsetEnd
  startLe : s.commit.currWriteExtStart ≤ s.commit.currWriteExtEnd
  maxDvd : blockSize ∣ s.commit.dataFileMaxSize
  view : s.ViewOk
  top : ∀ x, s.commit.dataFileMaxSize ≤ x → s.commit.currWriteExtEnd ≤ x →
    s.used x = 0

/-- The write extent without an end: everything lies before the offset and
`FindFree` is never asked for. -/
structure Unlimited (s : AllocState K) : Prop where
  endLe : s.dataFileOffsetEnd ≤ 0
  idle : s.waiting = .idle
  top : ∀ x, s.dataFileOffset ≤ x → s.used x = 0

structure Inv (cfg : AllocConfig) (s : AllocState K) : Prop where
  wellFormed : s.commit.WellFormed
  held : ∀ e ∈ s.held, e.Aligned
  offsetNonneg : 0 ≤ s.dataFileOffset
  offsetDvd : blockSize ∣ s.dataFileOffset
  remaining : ∀ p, s.prepare = some p → p.wait ≠ .idle → 0 < p.dataSizeRemaining
  reserved : ∀ p ∈ s.commit.reservedExtents, blockSize ∣ p.1
  once : ∀ x, s.used x ≤ 1
  chunked : 0 < cfg.allocChunkSize → s.Chunked
  unlimited : cfg.allocChunkSize ≤ 0 → s.Unlimited

theorem Inv.owned_le_one {cfg : AllocConfig} {s : AllocState K}
    (h : Inv cfg s) (x : ℤ) : s.commit.owned x ≤ 1 := by
  have := h.once x
  simp only [used, settled] at this
  omega

theorem inv_init {cfg : AllocConfig} (hchunk : blockSize ∣ cfg.allocChunkSize) :
    Inv cfg (init cfg : AllocState K) := by
  have hused : ∀ x, (init cfg : AllocState K).used x =
      ind (0, cfg.allocChunkSize) x := by
    intro x
    have hzero : ind ((0 : ℤ), 0) x = 0 := ind_of_le le_rfl x
    simp [used, settled, init, CommitState.owned, Freemap.freeMult, multMap,
      OrderedMap.empty, pendingExt, waiting, hzero]
  refine ⟨⟨freeOk_empty, by simp [init], by simp [init]⟩, by simp [init],
    le_rfl, dvd_zero _, by simp [init], by simp [init], ?_, ?_, ?_⟩
  · intro x
    rw [hused]
    exact ind_le_one _ _
  · intro hpos
    refine ⟨hpos, hchunk, hpos.le, hpos.le, dvd_zero _, rfl, ?_⟩
    intro x _ hx
    rw [hused]
    exact if_neg fun h => absurd h.2 (not_lt.mpr hx)
  · intro hle
    refine ⟨hle, rfl, ?_⟩
    intro x _
    rw [hused]
    exact ind_of_le hle x

theorem Inv.partition {cfg : AllocConfig} {s : AllocState K}
    (h : Inv cfg s) : s.Partition := by
  have hone : ∀ x, mult s.owners x ≤ 1 := by
    intro x
    have hx := h.once x
    simp only [used, settled, CommitState.owned, Freemap.freeMult,
      multMap] at hx
    simp only [owners, mult_append, mult_cons, mult_nil]
    omega
  refine ⟨pairwiseDisjoint_iff.mpr hone, ?_⟩
  intro p hp q hq hne e he f hf
  rw [Set.disjoint_left]
  intro x hxe hxf
  have hx := h.owned_le_one x
  have hsplit := multMap_erase objectSpans (k := p.1) (v := p.2) hp x
  have hq' : q ∈ s.commit.main.erase p.1 :=
    OrderedMap.mem_erase.mpr ⟨hq, hne.symm⟩
  have hp1 := ind_le_mult (mem_map_of_mem (f := SPunchItem.span) he) x
  have hq1 := ind_le_mult (mem_map_of_mem (f := SPunchItem.span) hf) x
  have hq2 := mult_le_multMap objectSpans hq' x
  rw [ind_eq_one.mpr hxe] at hp1
  rw [ind_eq_one.mpr hxf] at hq1
  simp only [CommitState.owned, objectSpans] at hx hsplit hq2 hp1 hq1
  omega

/-! ## Commit thread steps -/

section Steps

variable {cfg : AllocConfig} {s : AllocState K}

variable {p : Prepare} {exts : List SPunchItem} {offset : ℤ}

theorem held_split (h : exts.Subperm s.held) (x : ℤ) :
    mult (s.held.map SPunchItem.span) x =
      mult (exts.map SPunchItem.span) x +
        mult ((s.held.diff exts).map SPunchItem.span) x := by
  have hperm := subperm_append_diff_self_of_count_le
    (subperm_ext_iff.mp h)
  rw [← mult_perm (hperm.map SPunchItem.span), map_append, mult_append]

theorem inv_consume (h : Inv cfg s) (hexts : exts.Subperm s.held)
    {c : CommitState K} (hok : c.WellFormed)
    (hgrown : CommitState.Grown s.commit c)
    (hres : ∀ p ∈ c.reservedExtents, p ∈ s.commit.reservedExtents)
    (howned : ∀ x, c.owned x =
      s.commit.owned x + mult (exts.map SPunchItem.span) x) :
    Inv cfg (s.consume exts c) := by
  have hused : ∀ x, (s.consume exts c).used x = s.used x := by
    intro x
    have ho := howned x
    have hs := held_split hexts x
    simp only [used, settled, consume, pendingExt, waiting] at ho hs ⊢
    omega
  refine ⟨hok, ?_, h.offsetNonneg, h.offsetDvd, h.remaining,
    fun p hp => h.reserved p (hres p hp), ?_, ?_, ?_⟩
  · intro e he
    exact h.held e (diff_subset _ _ he)
  · intro x
    rw [hused]
    exact h.once x
  · intro hpos
    have hc := h.chunked hpos
    refine ⟨hc.endPos, hc.endDvd, hc.offsetLe, hgrown.extStart hc.startLe,
      hgrown.maxDvd hc.maxDvd, ?_, ?_⟩
    · have hview := hc.view
      simp only [ViewOk, consume, waiting, hgrown.extEnd] at hview ⊢
      exact hview
    · intro x hmax hend
      rw [hused]
      exact hc.top x (hgrown.maxSize.trans hmax) (hgrown.extEnd ▸ hend)
  · intro hle
    have hu := h.unlimited hle
    refine ⟨hu.endLe, hu.idle, ?_⟩
    intro x hx
    rw [hused]
    exact hu.top x hx

theorem stored_indexValueOf (h : ∀ e ∈ exts, e.Aligned) (lastModified : ℤ)
    (md5sum : Bytes) :
    (indexValueOf exts lastModified md5sum).Stored ∧
      ∀ x, mult ((indexValueOf exts lastModified md5sum).extents.map
        SPunchItem.span) x = mult (exts.map SPunchItem.span) x := by
  cases exts with
  | nil =>
    refine ⟨.inl rfl, ?_⟩
    intro x
    have hzero : ind ((0 : ℤ), 0) x = 0 := ind_of_le le_rfl x
    simp [indexValueOf, IndexValue.extents, SPunchItem.span, hzero]
  | cons e exts => exact ⟨.inr h, fun _ => rfl⟩

/-- What an item that finalizes or frees extents does to the maps; it gives up
the reservations of `erased`. -/
structure Consumed (s : CommitState K) (exts erased : List SPunchItem)
    (c : CommitState K) : Prop where
  wellFormed : c.WellFormed
  grown : CommitState.Grown s c
  owned : ∀ x, c.owned x = s.owned x + mult (exts.map SPunchItem.span) x
  used : CommitState.UsedExts s erased c
  reserved : c.reservedExtents = (s.eraseReserved erased).reservedExtents
  freed : ∃ l, Freemap.Freed s.fm l c.fm ∧
    ∀ p ∈ s.main, p ∈ c.main ∨ ∀ e ∈ p.2.extents, e ∈ l

theorem Consumed.mem_reserved {s c : CommitState K}
    {erased : List SPunchItem} (h : Consumed s exts erased c) :
    ∀ p ∈ c.reservedExtents, p ∈ s.reservedExtents := by
  intro p hp
  rw [h.reserved] at hp
  exact (CommitState.mem_eraseReserved.mp hp).1

/-- What an item does that moves space between the maps only. -/
structure Moved (s c : CommitState K) : Prop where
  wellFormed : c.WellFormed
  ext : CommitState.SameExt s c
  reserved : c.reservedExtents = s.reservedExtents
  owned : ∀ x, c.owned x = s.owned x

theorem inv_moved (h : Inv cfg s) {c : CommitState K}
    (hmoved : Moved s.commit c) : Inv cfg { s with commit := c } := by
  have hinv := inv_consume h (nil_subperm (l := s.held))
    hmoved.wellFormed (CommitState.Grown.of_same hmoved.ext)
    (fun p hp => hmoved.reserved ▸ hp) (by simpa using hmoved.owned)
  simpa [consume] using hinv

theorem inv_committed (h : Inv cfg s) :
    Inv cfg { s with commit := s.commit.useReserved.committed } := by
  have hsame := CommitState.sameMaps_committed s.commit
  have hgrown := (CommitState.foldl_useExt (fun e he => h.reserved _
    (CommitState.mem_localReserved.mp he).1) s.commit).1
  have hres : s.commit.useReserved.committed.reservedExtents =
      s.commit.reservedExtents := CommitState.foldl_useExt_reserved _ _
  have hinv := inv_consume h (nil_subperm (l := s.held))
    (c := s.commit.useReserved.committed) (hsame.wellFormed h.wellFormed)
    ⟨hgrown.maxSize, hgrown.maxDvd, hgrown.extStart, hgrown.extEnd⟩
    (fun p hp => hres ▸ hp) (by simpa using hsame.owned)
  simpa [consume] using hinv

section

variable (h : Inv cfg s)

include h

theorem held_once (hexts : exts.Subperm s.held) (x : ℤ) :
    s.commit.owned x + mult (exts.map SPunchItem.span) x ≤ 1 := by
  have ho := h.once x
  have hs := held_split hexts x
  simp only [used, settled] at ho
  omega

theorem consumed_add (hexts : exts.Subperm s.held) {fn : K} {lastModified : ℤ}
    {md5sum : Bytes} {c : CommitState K} (hc : s.commit.add fn
      (indexValueOf exts lastModified md5sum) false = some c) :
    Consumed s.commit exts (indexValueOf exts lastModified md5sum).extents
      c := by
  obtain ⟨hstored, hmult⟩ := stored_indexValueOf
    (fun e he => h.held e (hexts.subset he)) lastModified md5sum
  obtain ⟨c', hc', hok, hgrown, hfreed, howned⟩ := CommitState.add_spec
    h.wellFormed fn hstored fun x => by
      rw [hmult]
      exact held_once h hexts x
  rw [hc] at hc'
  cases hc'
  obtain ⟨hused, hmain, hres⟩ := CommitState.add_frame hstored hc
  refine ⟨hok, hgrown, fun x => by rw [howned, hmult], hused, hres, _,
    hfreed, ?_⟩
  intro p hp
  by_cases hkey : p.1 = fn
  · right
    rw [← hkey, CommitState.mem_extentsAt hp]
    exact fun e he => he
  · left
    rw [hmain]
    exact OrderedMap.mem_insert.mpr (.inr ⟨hp, hkey⟩)

theorem consumed_freeExtents (hexts : exts.Subperm s.held)
    {c : CommitState K} (hc : s.commit.freeExtents exts = some c) :
    Consumed s.commit exts exts c := by
  have haligned : ∀ e ∈ exts, e.Aligned :=
    fun e he => h.held e (hexts.subset he)
  obtain ⟨c', hc', hok, hgrown, hfreed, howned⟩ :=
    CommitState.freeExtents_spec h.wellFormed haligned (held_once h hexts)
  rw [hc] at hc'
  cases hc'
  obtain ⟨hused, hmain, hres⟩ := CommitState.freeExtents_frame
    (fun e he => (haligned e he).dvd) hc
  exact ⟨hok, hgrown, howned, hused, hres, exts, hfreed,
    fun p hp => .inl (hmain ▸ hp)⟩

theorem moved_del {fn : K} {c : CommitState K}
    (hc : s.commit.del fn = some c) : Moved s.commit c := by
  obtain ⟨c', hc', hok, hrem, howned⟩ :=
    CommitState.del_spec h.wellFormed h.owned_le_one fn
  rw [hc] at hc'
  cases hc'
  exact ⟨hok, hrem.ext, hrem.reserved, howned⟩

theorem moved_doFreeMinspace {rounds : List SkipExtents} {c : CommitState K}
    (hc : s.commit.doFreeMinspace rounds = some c) : Moved s.commit c := by
  obtain ⟨c', hc', hok, hsame, howned⟩ :=
    CommitState.doFreeMinspace_spec h.wellFormed h.owned_le_one rounds
  rw [hc] at hc'
  cases hc'
  exact ⟨hok, hsame, (CommitState.doFreeMinspace_frame hc).2.1, howned⟩

/-- The state after the commit thread has answered a `FindFree` item. -/
def answer (s : AllocState K) (p : Prepare) (r : FindFreeResult K) :
    AllocState K :=
  { s with
    commit := r.state
    prepare := some { p with wait := .answered r.answer } }

theorem chunked_of_asked (hp : s.prepare = some p)
    (hwait : p.wait = .asked offset) :
    0 < cfg.allocChunkSize ∧ s.Chunked ∧ offset = s.dataFileOffsetEnd ∧
      s.commit.currWriteExtEnd = s.dataFileOffsetEnd ∧
      s.dataFileOffset = s.dataFileOffsetEnd := by
  have hwaiting : s.waiting = .asked offset := by simp [waiting, hp, hwait]
  have hpos : 0 < cfg.allocChunkSize := by
    by_contra hle
    have := (h.unlimited (not_lt.mp hle)).idle
    rw [hwaiting] at this
    cases this
  have hc := h.chunked hpos
  have hview := hc.view
  simp only [ViewOk, hwaiting] at hview
  exact ⟨hpos, hc, hview⟩

theorem used_of_asked (hp : s.prepare = some p)
    (hwait : p.wait = .asked offset) (x : ℤ) : s.used x = s.settled x := by
  obtain ⟨_, _, _, _, hempty⟩ := chunked_of_asked h hp hwait
  have hwaiting : s.waiting = .asked offset := by simp [waiting, hp, hwait]
  have hext : ind (s.dataFileOffset, s.dataFileOffsetEnd) x = 0 :=
    ind_of_le hempty.ge x
  have hzero : ind ((0 : ℤ), 0) x = 0 := ind_of_le le_rfl x
  simp [used, pendingExt, hwaiting, hext, hzero]

/-- What the answer to a `FindFree` item does: the write extent is new space at
the end of the file, was free before, or is empty. -/
structure Answered (s : AllocState K) (p : Prepare) (r : FindFreeResult K) :
    Prop where
  wellFormed : r.state.WellFormed
  maxSize : r.state.dataFileMaxSize = s.fileEnd
  maxDvd : blockSize ∣ s.fileEnd
  startNonneg : 0 ≤ r.state.currWriteExtStart
  startDvd : blockSize ∣ r.state.currWriteExtStart
  startLe : r.state.currWriteExtStart ≤ r.state.currWriteExtEnd
  startLeEnd : r.state.currWriteExtStart ≤ s.fileEnd
  owned : ∀ x, r.state.owned x +
      ind (r.state.currWriteExtStart, r.state.currWriteExtEnd) x =
    s.commit.owned x + ind (s.fileEnd, r.state.currWriteExtEnd) x
  view : (s.answer p r).ViewOk
  pending : ∀ x, ind (s.answer p r).pendingExt x =
    ind (r.state.currWriteExtStart, r.state.currWriteExtEnd) x
  answer : (∃ fin, r.answer = .found r.state.currWriteExtStart fin ∧
      r.state.currWriteExtStart < r.state.currWriteExtEnd) ∨
    r.answer = .noSpace ∧
      r.state.currWriteExtStart = s.commit.currWriteExtEnd ∧
      r.state.currWriteExtEnd = s.commit.currWriteExtEnd

omit h in
theorem Chunked.used_eq_zero (hc : s.Chunked) {x : ℤ} (hx : s.fileEnd ≤ x) :
    s.used x = 0 :=
  hc.top x ((le_max_left _ _).trans hx) ((le_max_right _ _).trans hx)

theorem answered (hchunk : blockSize ∣ cfg.allocChunkSize)
    (hp : s.prepare = some p) (hwait : p.wait = .asked offset)
    {env : FindFreeEnv} {r : FindFreeResult K}
    (hr : s.commit.findFree cfg env offset = some r) : Answered s p r := by
  obtain ⟨hpos, hc, hoff, hend, hempty⟩ := chunked_of_asked h hp hwait
  obtain ⟨r', hr', hfound⟩ := CommitState.findFree_spec h.wellFormed
    (hoff.trans hend.symm) hc.startLe cfg env
  rw [hr] at hr'
  cases hr'
  have hendPos := hc.endPos
  have hreach : (s.commit.reach offset).dataFileMaxSize = s.fileEnd := by
    rw [fileEnd, hend, ← hoff]
    rfl
  have hle : s.dataFileOffsetEnd ≤ s.fileEnd := hend ▸ le_max_right _ _
  have hdvd : blockSize ∣ s.fileEnd := by
    rcases max_choice s.commit.dataFileMaxSize s.commit.currWriteExtEnd with
      hm | hm
    · exact (congrArg (blockSize ∣ ·) hm).mpr hc.maxDvd
    · exact (congrArg (blockSize ∣ ·) hm).mpr (hend ▸ hc.endDvd)
  cases hfound with
  | append hans hs he hw hm ho =>
    rw [hreach] at hans hs he hm
    refine ⟨hw, hm, hdvd, by omega, hs ▸ hdvd, by omega, hs.le, ?_, ?_, ?_,
      .inl ⟨_, hs ▸ hans, by omega⟩⟩
    · intro x
      rw [hs]
      exact congrArg (· + _) (ho x)
    · simp only [ViewOk, waiting, answer, hans]
      exact ⟨he, by omega, hdvd, dvd_add hdvd hchunk, by omega, hempty⟩
    · intro x
      simp only [pendingExt, waiting, answer, hans, hs, he]
  | @free start len hmem hans hs he hw hm ho =>
    have hlen : 0 < len := h.wellFormed.fm.pos _ hmem
    have hnonneg : 0 ≤ start := h.wellFormed.fm.nonneg _ hmem
    have hstart : blockSize ∣ start := h.wellFormed.fm.dvd _ hmem
    have hfree : ∀ x, s.commit.owned x =
        r.state.owned x + ind (start, start + len) x := ho
    have hbelow : start + len ≤ s.fileEnd := by
      by_contra hgt
      have hzero := hc.used_eq_zero (x := start + len - 1) (by omega)
      have hlast := hfree (start + len - 1)
      rw [ind_eq_one.mpr ⟨by simp only; omega, by simp only; omega⟩] at hlast
      simp only [used, settled] at hzero
      omega
    refine ⟨hw, hm.trans hreach, hdvd, hs ▸ hnonneg, hs ▸ hstart, by omega,
      by omega, ?_, ?_, ?_, .inl ⟨_, hs ▸ hans, by omega⟩⟩
    · intro x
      rw [hs, he, ind_of_le hbelow, hfree]
      rfl
    · simp only [ViewOk, waiting, answer, hans]
      exact ⟨he, hnonneg, hstart,
        dvd_add hstart (h.wellFormed.fm.dvdLen _ hmem), by omega, hempty⟩
    · intro x
      simp only [pendingExt, waiting, answer, hans, hs, he]
  | noSpace hans hsame hw ho =>
    have hs : r.state.currWriteExtStart = offset := hsame.extStart
    have he : r.state.currWriteExtEnd = s.commit.currWriteExtEnd := hsame.extEnd
    have hnone : ∀ x, ind (r.state.currWriteExtStart,
        r.state.currWriteExtEnd) x = 0 := ind_of_le (by omega)
    refine ⟨hw, hsame.maxSize.trans hreach, hdvd, by omega,
      hs ▸ hoff ▸ hc.endDvd, by omega, by omega, ?_, ?_, ?_,
      .inr ⟨hans, by omega, he⟩⟩
    · intro x
      rw [hnone, ind_of_le (by omega)]
      exact congrArg (· + 0) (ho x)
    · simp only [ViewOk, waiting, answer, hans]
      omega
    · intro x
      rw [hnone]
      simp only [pendingExt, waiting, answer, hans]
      exact ind_of_le le_rfl x

theorem used_answer (hp : s.prepare = some p) (hwait : p.wait = .asked offset)
    {r : FindFreeResult K} (hans : Answered s p r) (x : ℤ) :
    (s.answer p r).used x =
      s.used x + ind (s.fileEnd, r.state.currWriteExtEnd) x := by
  obtain ⟨_, _, _, _, hempty⟩ := chunked_of_asked h hp hwait
  have howned := hans.owned x
  have hext : ind (s.dataFileOffset, s.dataFileOffsetEnd) x = 0 :=
    ind_of_le hempty.ge x
  have hafter : (s.answer p r).used x =
      r.state.owned x + mult (s.held.map SPunchItem.span) x +
        ind (s.answer p r).pendingExt x := by
    simp [used, settled, answer, hext]
  rw [hafter, hans.pending, used_of_asked h hp hwait, settled]
  omega

theorem inv_findFree (hchunk : blockSize ∣ cfg.allocChunkSize)
    (hp : s.prepare = some p) (hwait : p.wait = .asked offset)
    {env : FindFreeEnv} {r : FindFreeResult K}
    (hr : s.commit.findFree cfg env offset = some r) :
    Inv cfg (s.answer p r) := by
  obtain ⟨hpos, hc, hoff, hend, hempty⟩ := chunked_of_asked h hp hwait
  have hans := answered h hchunk hp hwait hr
  have hused := used_answer h hp hwait hans
  have hkept := CommitState.findFree_kept h.wellFormed (hoff.trans hend.symm)
    hc.startLe hr
  refine ⟨hans.wellFormed, h.held, h.offsetNonneg, h.offsetDvd, ?_,
    fun q hq => h.reserved q (hkept.reserved ▸ hq), ?_, ?_,
    fun hle => by omega⟩
  · intro q hq _
    cases hq
    exact h.remaining p hp (by simp [hwait])
  · intro x
    rw [hused]
    by_cases hx : s.fileEnd ≤ x
    · rw [hc.used_eq_zero hx, Nat.zero_add]
      exact ind_le_one _ _
    · have hout : ind (s.fileEnd, r.state.currWriteExtEnd) x = 0 :=
        if_neg fun hin => hx hin.1
      rw [hout]
      exact h.once x
  · intro _
    refine ⟨hc.endPos, hc.endDvd, hc.offsetLe, hans.startLe,
      hans.maxSize ▸ hans.maxDvd, hans.view, ?_⟩
    intro x hmax hxend
    have hx : s.fileEnd ≤ x := hans.maxSize ▸ hmax
    rw [hused, hc.used_eq_zero hx, Nat.zero_add]
    exact if_neg fun hin => absurd hin.2 (not_lt.mpr hxend)

/-! ## Writer steps -/

theorem inv_prepare {q : Option Prepare}
    (hpend : { s with prepare := q }.pendingExt = s.pendingExt)
    (hrem : ∀ p, q = some p → p.wait ≠ .idle → 0 < p.dataSizeRemaining)
    (hview : s.Chunked → { s with prepare := q }.ViewOk)
    (hidle : s.Unlimited → { s with prepare := q }.waiting = .idle) :
    Inv cfg { s with prepare := q } := by
  have hused : ∀ x, { s with prepare := q }.used x = s.used x := by
    intro x
    simp only [used, hpend]
    rfl
  refine ⟨h.wellFormed, h.held, h.offsetNonneg, h.offsetDvd, hrem, h.reserved,
    ?_, ?_, ?_⟩
  · intro x
    rw [hused]
    exact h.once x
  · intro hpos
    have hc := h.chunked hpos
    refine ⟨hc.endPos, hc.endDvd, hc.offsetLe, hc.startLe, hc.maxDvd,
      hview hc, ?_⟩
    intro x hmax hend
    rw [hused]
    exact hc.top x hmax hend
  · intro hle
    have hu := h.unlimited hle
    refine ⟨hu.endLe, hidle hu, ?_⟩
    intro x hx
    rw [hused]
    exact hu.top x hx

end

/-- What cutting an extent off the write extent does. -/
structure Cut (s : AllocState K) (p : Prepare) : Prop where
  pos : 0 < s.nextExtLen p
  le : s.dataFileOffset < s.dataFileOffsetEnd →
    s.dataFileOffset + roundUp (s.nextExtLen p) ≤ s.dataFileOffsetEnd

theorem cut_spec (hrem : 0 < p.dataSizeRemaining)
    (hoff : blockSize ∣ s.dataFileOffset)
    (hend : 0 < s.dataFileOffsetEnd → blockSize ∣ s.dataFileOffsetEnd)
    (hnonneg : 0 ≤ s.dataFileOffset) : Cut s p := by
  constructor
  · unfold nextExtLen
    split <;> omega
  · intro hlt
    have hlen : s.nextExtLen p =
        min p.dataSizeRemaining
          (s.dataFileOffsetEnd - s.dataFileOffset) := if_pos hlt
    have hround : roundUp (s.nextExtLen p) ≤
        s.dataFileOffsetEnd - s.dataFileOffset :=
      roundUp_le (by omega) (by omega) (dvd_sub (hend (by omega)) hoff)
    omega

theorem reserved_cutExt (hres : ∀ q ∈ s.commit.reservedExtents, blockSize ∣ q.1)
    (hoff : blockSize ∣ s.dataFileOffset) :
    ∀ q ∈ (s.cutExt p).commit.reservedExtents, blockSize ∣ q.1 := by
  intro q hq
  rcases OrderedMap.mem_insert.mp hq with rfl | ⟨hq, -⟩
  · exact hoff
  · exact hres q hq

theorem used_cutExt (p : Prepare) (x : ℤ) :
    (s.cutExt p).used x = s.settled x +
      (ind (s.dataFileOffset,
          s.dataFileOffset + roundUp (s.nextExtLen p)) x +
        ind (s.dataFileOffset + roundUp (s.nextExtLen p),
          s.dataFileOffsetEnd) x) := by
  have hpend : (s.cutExt p).pendingExt = (0, 0) := rfl
  have hzero : ind ((0 : ℤ), 0) x = 0 := ind_of_le le_rfl x
  have howned : (s.cutExt p).commit.owned x = s.commit.owned x := rfl
  have hheld : mult ((s.cutExt p).held.map SPunchItem.span) x =
      ind (s.dataFileOffset,
          s.dataFileOffset + roundUp (s.nextExtLen p)) x +
        mult (s.held.map SPunchItem.span) x := by
    simp [cutExt, SPunchItem.span]
  have hext : ind ((s.cutExt p).dataFileOffset,
      (s.cutExt p).dataFileOffsetEnd) x =
        ind (s.dataFileOffset + roundUp (s.nextExtLen p),
          s.dataFileOffsetEnd) x := rfl
  rw [used, settled, hpend, hzero, howned, hheld, hext, settled]
  omega

/-- The writer cuts an extent off the write extent from `start` to `fin`, which
it had before or has just been given. -/
structure Cuts (s : AllocState K) (p : Prepare) (start fin : ℤ) : Prop where
  remaining : 0 < p.dataSizeRemaining
  nonneg : 0 ≤ start
  startDvd : blockSize ∣ start
  endDvd : blockSize ∣ fin
  lt : start < fin
  extEnd : s.commit.currWriteExtEnd = fin
  used : ∀ x, s.used x = s.settled x + ind (start, fin) x

variable {start fin : ℤ}

theorem Cuts.cut (hcuts : Cuts s p start fin) :
    Cut { s with dataFileOffset := start, dataFileOffsetEnd := fin } p :=
  cut_spec hcuts.remaining hcuts.startDvd (fun _ => hcuts.endDvd) hcuts.nonneg

theorem cuts_prepareExt (h : Inv cfg s) (hc : s.Chunked)
    (hp : s.prepare = some p) (hidle : p.wait = .idle)
    (hrem : 0 < p.dataSizeRemaining) (hneeds : ¬ s.needsFindFree) :
    Cuts s p s.dataFileOffset s.dataFileOffsetEnd := by
  have hendPos := hc.endPos
  have hlt : s.dataFileOffset < s.dataFileOffsetEnd := by
    simp only [needsFindFree] at hneeds
    omega
  have hwaiting : s.waiting = .idle := by simp [waiting, hp, hidle]
  have hview := hc.view
  simp only [ViewOk, hwaiting] at hview
  refine ⟨hrem, h.offsetNonneg, h.offsetDvd, hc.endDvd, hlt, hview, ?_⟩
  intro x
  have hzero : ind ((0 : ℤ), 0) x = 0 := ind_of_le le_rfl x
  simp [used, pendingExt, hwaiting, hzero]

theorem cuts_takeFindFree (h : Inv cfg s) (hp : s.prepare = some p)
    (hwait : p.wait = .answered (.found start fin)) :
    0 < cfg.allocChunkSize ∧ Cuts s p start fin := by
  have hwaiting : s.waiting = .answered (.found start fin) := by
    simp [waiting, hp, hwait]
  have hpos : 0 < cfg.allocChunkSize := by
    by_contra hle
    have := (h.unlimited (not_lt.mp hle)).idle
    rw [hwaiting] at this
    cases this
  have hview := (h.chunked hpos).view
  simp only [ViewOk, hwaiting] at hview
  obtain ⟨hend, hnonneg, hsdvd, hfdvd, hlt, hempty⟩ := hview
  refine ⟨hpos, h.remaining p hp (by simp [hwait]), hnonneg, hsdvd, hfdvd,
    hlt, hend, ?_⟩
  intro x
  have hext : ind (s.dataFileOffset, s.dataFileOffsetEnd) x = 0 :=
    ind_of_le hempty.ge x
  simp [used, pendingExt, hwaiting, hext]

theorem Cuts.used_cutExt (hcuts : Cuts s p start fin) (x : ℤ) :
    ({ s with dataFileOffset := start, dataFileOffsetEnd := fin }.cutExt
      p).used x = s.used x := by
  have hround := roundUp_pos hcuts.cut.pos
  rw [AllocState.used_cutExt, hcuts.used]
  exact congrArg (s.settled x + ·)
    (ind_split (by simp only; omega) (hcuts.cut.le hcuts.lt) x).symm

theorem inv_cutExt_chunked (hpos : 0 < cfg.allocChunkSize) (h : Inv cfg s)
    (hcuts : Cuts s p start fin) :
    Inv cfg ({ s with
      dataFileOffset := start, dataFileOffsetEnd := fin }.cutExt p) := by
  have hc := h.chunked hpos
  have hround := roundUp_pos hcuts.cut.pos
  have hnonneg := hcuts.nonneg
  have hlt := hcuts.lt
  refine ⟨⟨h.wellFormed.fm, h.wellFormed.main, h.wellFormed.holes⟩, ?_, ?_,
    ?_, ?_, ?_, ?_, ?_, ?_⟩
  · intro e he
    rcases mem_cons.mp he with rfl | he
    · exact ⟨hnonneg, hcuts.startDvd, hcuts.cut.pos⟩
    · exact h.held e he
  · simp only [cutExt]
    omega
  · exact dvd_add hcuts.startDvd (dvd_roundUp _)
  · intro q hq hne
    cases hq
    exact absurd rfl hne
  · exact reserved_cutExt h.reserved hcuts.startDvd
  · intro x
    rw [hcuts.used_cutExt]
    exact h.once x
  · intro _
    refine ⟨hnonneg.trans_lt hlt, hcuts.endDvd, hcuts.cut.le hlt, hc.startLe,
      hc.maxDvd, hcuts.extEnd, ?_⟩
    intro x hx hx'
    rw [hcuts.used_cutExt]
    exact hc.top x hx hx'
  · intro hle
    omega

theorem inv_cutExt_unlimited (hneg : cfg.allocChunkSize ≤ 0) (h : Inv cfg s)
    (hrem : 0 < p.dataSizeRemaining) : Inv cfg (s.cutExt p) := by
  have hu := h.unlimited hneg
  have hnonneg := h.offsetNonneg
  have hendLe := hu.endLe
  have hcut := cut_spec (s := s) hrem h.offsetDvd (by omega) hnonneg
  have hround := roundUp_pos hcut.pos
  have hsettled : ∀ x, s.settled x ≤ s.used x := by
    intro x
    simp only [used]
    omega
  have hused : ∀ x, (s.cutExt p).used x = s.settled x +
      ind (s.dataFileOffset,
        s.dataFileOffset + roundUp (s.nextExtLen p)) x := by
    intro x
    rw [used_cutExt, ind_of_le (a := s.dataFileOffset +
      roundUp (s.nextExtLen p)) (by omega), Nat.add_zero]
  refine ⟨⟨h.wellFormed.fm, h.wellFormed.main, h.wellFormed.holes⟩, ?_, ?_,
    ?_, ?_, ?_, ?_, ?_, ?_⟩
  · intro e he
    rcases mem_cons.mp he with rfl | he
    · exact ⟨hnonneg, h.offsetDvd, hcut.pos⟩
    · exact h.held e he
  · simp only [cutExt]
    omega
  · exact dvd_add h.offsetDvd (dvd_roundUp _)
  · intro q hq hne
    cases hq
    exact absurd rfl hne
  · exact reserved_cutExt h.reserved h.offsetDvd
  · intro x
    rw [hused]
    by_cases hx : s.dataFileOffset ≤ x
    · have hzero := hsettled x
      rw [hu.top x hx] at hzero
      have := ind_le_one (s.dataFileOffset,
        s.dataFileOffset + roundUp (s.nextExtLen p)) x
      omega
    · have hout : ind (s.dataFileOffset,
          s.dataFileOffset + roundUp (s.nextExtLen p)) x = 0 :=
        if_neg fun hin => hx hin.1
      rw [hout]
      exact (hsettled x).trans (h.once x)
  · intro hpos
    omega
  · intro _
    refine ⟨hendLe, rfl, ?_⟩
    intro x hx
    have hx' : s.dataFileOffset + roundUp (s.nextExtLen p) ≤ x := hx
    have hzero := hsettled x
    rw [hu.top x (by omega)] at hzero
    have hout : ind (s.dataFileOffset,
        s.dataFileOffset + roundUp (s.nextExtLen p)) x = 0 :=
      if_neg fun hin => absurd hin.2 (not_lt.mpr hx')
    rw [hused, hout]
    omega

theorem inv_prepareExt (h : Inv cfg s) (hp : s.prepare = some p)
    (hidle : p.wait = .idle) (hrem : 0 < p.dataSizeRemaining)
    (hneeds : ¬ s.needsFindFree) : Inv cfg (s.cutExt p) := by
  rcases lt_or_ge 0 cfg.allocChunkSize with hpos | hneg
  · exact inv_cutExt_chunked hpos h
      (cuts_prepareExt h (h.chunked hpos) hp hidle hrem hneeds)
  · exact inv_cutExt_unlimited hneg h hrem

theorem inv_askFindFree (h : Inv cfg s) (hp : s.prepare = some p)
    (hidle : p.wait = .idle) (hrem : 0 < p.dataSizeRemaining)
    (hneeds : s.needsFindFree) :
    Inv cfg { s with
      prepare := some { p with wait := .asked s.dataFileOffsetEnd } } := by
  have hwaiting : s.waiting = .idle := by simp [waiting, hp, hidle]
  refine inv_prepare h ?_ ?_ ?_ ?_
  · simp only [pendingExt, hwaiting]
    simp [waiting]
  · intro q hq _
    cases hq
    exact hrem
  · intro hc
    have hview := hc.view
    simp only [ViewOk, hwaiting] at hview
    exact ⟨rfl, hview, le_antisymm hc.offsetLe hneeds.2⟩
  · intro hu
    exact absurd hneeds.1 (not_lt.mpr hu.endLe)

theorem inv_leave (h : Inv cfg s) {q : Option Prepare}
    (hq : { s with prepare := q }.waiting = .idle)
    (hwait : s.waiting = .idle ∨ s.waiting = .answered .noSpace) :
    Inv cfg { s with prepare := q } := by
  refine inv_prepare h ?_ ?_ ?_ (fun _ => hq)
  · rcases hwait with hw | hw <;> simp only [pendingExt, hq, hw]
  · intro p hp hne
    subst hp
    exact absurd hq hne
  · intro hc
    have hview := hc.view
    rcases hwait with hw | hw <;>
      simp only [ViewOk, hw] at hview <;>
      simpa only [ViewOk, hq] using hview

/-! ## Form uploads -/

/-- The end given up is not freed at all, or starts a new block. -/
def EndAligned (e : SPunchItem) (toremove : ℤ) : Prop :=
  let offset := e.offset + (e.len - toremove)
  offset.tdiv blockSize = (offset + toremove).tdiv blockSize ∨
    blockSize ∣ offset
  deriving Decidable

/-- The steps at which no unaligned end is freed. -/
def NoSplitBlock (_ : AllocState K) : AllocEvent K → Prop
  | .removeExtentEnd e toremove => EndAligned e toremove
  | _ => True

instance (s : AllocState K) (e : AllocEvent K) :
    Decidable (NoSplitBlock s e) := by
  rcases e with ⟨⟩ <;> dsimp only [NoSplitBlock] <;> infer_instance

theorem removeEnd_spec {e : SPunchItem} (he : e.Aligned) {toremove : ℤ}
    (hpos : 0 < toremove) (hlt : toremove < e.len)
    (hend : EndAligned e toremove) :
    (∀ e' ∈ removeEnd e toremove, e'.Aligned) ∧
      ∀ x, mult ((removeEnd e toremove).map SPunchItem.span) x ≤
        ind e.span x := by
  have hnonneg := he.nonneg
  have hrest : (⟨e.offset, e.len - toremove⟩ : SPunchItem).Aligned :=
    ⟨hnonneg, he.dvd, by simp only; omega⟩
  have hle : e.len ≤ roundUp e.len := le_roundUp (by omega)
  have hround : roundUp (e.len - toremove) ≤ roundUp e.len :=
    roundUp_le (by omega) (by omega) (dvd_roundUp _)
  have hpos' : 0 < roundUp (e.len - toremove) := roundUp_pos (by omega)
  have hsplit := ind_split (a := e.offset)
    (m := e.offset + roundUp (e.len - toremove))
    (b := e.offset + roundUp e.len) (by omega) (by omega)
  by_cases hblocks : (e.offset + (e.len - toremove)).tdiv blockSize =
      (e.offset + (e.len - toremove) + toremove).tdiv blockSize
  · have hkept : removeEnd e toremove = [⟨e.offset, e.len - toremove⟩] := by
      rw [removeEnd, if_pos hblocks]
    rw [hkept]
    refine ⟨by simpa using hrest, ?_⟩
    intro x
    simp [SPunchItem.span, hsplit x]
  · have hpieces : removeEnd e toremove = [⟨e.offset, e.len - toremove⟩,
        ⟨e.offset + (e.len - toremove), toremove⟩] := by
      rw [removeEnd, if_neg hblocks]
    rw [hpieces]
    have hdvd : blockSize ∣ e.offset + (e.len - toremove) :=
      hend.resolve_left hblocks
    have hlen : roundUp (e.len - toremove) = e.len - toremove :=
      roundUp_of_dvd (by omega) ((dvd_add_right he.dvd).mp hdvd)
    have htail : roundUp toremove + (e.len - toremove) = roundUp e.len := by
      rw [roundUp_nonneg (by omega), roundUp_nonneg (by omega)]
      have := (dvd_add_right he.dvd).mp hdvd
      unfold blockSize at this
      omega
    refine ⟨?_, ?_⟩
    · intro e' he'
      rcases mem_cons.mp he' with rfl | he'
      · exact hrest
      · rw [mem_singleton.mp he']
        exact ⟨by simp only; omega, hdvd, hpos⟩
    · intro x
      have hstop : e.offset + (e.len - toremove) + roundUp toremove =
          e.offset + roundUp e.len := by omega
      simp only [map_cons, map_nil, mult_cons, mult_nil,
        SPunchItem.span, hstop, hsplit x, hlen]
      omega

theorem inv_removeExtentEnd (h : Inv cfg s) {e : SPunchItem} {toremove : ℤ}
    (he : e ∈ s.held) (hpos : 0 < toremove) (hlt : toremove < e.len)
    (hend : EndAligned e toremove) :
    Inv cfg { s with held := removeEnd e toremove ++ s.held.erase e } := by
  obtain ⟨haligned, hmult⟩ := removeEnd_spec (h.held e he) hpos hlt hend
  have hused : ∀ x,
      { s with held := removeEnd e toremove ++ s.held.erase e }.used x ≤
        s.used x := by
    intro x
    have hm := hmult x
    have hperm := mult_perm ((perm_cons_erase he).map SPunchItem.span) x
    rw [map_cons, mult_cons] at hperm
    simp only [used, settled, map_append, mult_append, pendingExt,
      waiting] at hperm ⊢
    omega
  refine ⟨h.wellFormed, ?_, h.offsetNonneg, h.offsetDvd, h.remaining,
    h.reserved, ?_, ?_, ?_⟩
  · intro e' he'
    rcases mem_append.mp he' with he' | he'
    · exact haligned e' he'
    · exact h.held e' (mem_of_mem_erase he')
  · intro x
    exact (hused x).trans (h.once x)
  · intro hpos'
    have hc := h.chunked hpos'
    refine ⟨hc.endPos, hc.endDvd, hc.offsetLe, hc.startLe, hc.maxDvd,
      hc.view, ?_⟩
    intro x hmax hend'
    exact Nat.le_zero.mp ((hused x).trans (hc.top x hmax hend').le)
  · intro hle
    have hu := h.unlimited hle
    refine ⟨hu.endLe, hu.idle, ?_⟩
    intro x hx
    exact Nat.le_zero.mp ((hused x).trans (hu.top x hx).le)

theorem inv_step (hchunk : blockSize ∣ cfg.allocChunkSize)
    {s' : AllocState K} {e : AllocEvent K} (h : Inv cfg s)
    (hok : NoSplitBlock s e) (hstep : step cfg s e = some s') :
    Inv cfg s' := by
  cases step_steps hstep with
  | removeExtentEnd he hpos hlt => exact inv_removeExtentEnd h he hpos hlt hok
  | writePrepare hp => exact inv_leave h rfl (.inl (by simp [waiting, hp]))
  | askFindFree hp hidle hrem hneeds =>
    exact inv_askFindFree h hp hidle hrem hneeds
  | prepareExt hp hidle hrem hneeds =>
    exact inv_prepareExt h hp hidle hrem hneeds
  | takeFindFree hp hwait =>
    obtain ⟨hpos, hcuts⟩ := cuts_takeFindFree h hp hwait
    exact inv_cutExt_chunked hpos h hcuts
  | failPrepare hp hwait =>
    exact inv_leave h rfl (.inr (by simp [waiting, hp, hwait]))
  | finishPrepare hp hwait =>
    exact inv_leave h rfl (.inl (by simp [waiting, hp, hwait]))
  | add hexts hc =>
    have hcons := consumed_add h hexts hc
    exact inv_consume h hexts hcons.wellFormed hcons.grown
      hcons.mem_reserved hcons.owned
  | freeExtents hexts hc =>
    have hcons := consumed_freeExtents h hexts hc
    exact inv_consume h hexts hcons.wellFormed hcons.grown
      hcons.mem_reserved hcons.owned
  | findFree hp hwait hr => exact inv_findFree h hchunk hp hwait hr
  | del hc => exact inv_moved h (moved_del h hc)
  | commit hc =>
    obtain ⟨c, hfree, rfl⟩ := Option.map_eq_some_iff.mp hc
    exact inv_committed (inv_moved h (moved_doFreeMinspace h hfree))

end Steps

/-- Whenever the configured chunk size is a whole number of blocks, in every
state of every run from an empty store in which form uploads give up ends at
block boundaries only, the objects, the extents in flight, the free map and
the rest of the write extent are pairwise disjoint. -/
theorem partition_of_run {cfg : AllocConfig}
    (hchunk : blockSize ∣ cfg.allocChunkSize) {s : AllocState K}
    (hrun : Run (step cfg) NoSplitBlock (init cfg) s) : s.Partition := by
  have hinv : Inv cfg s := hrun.invariant (inv_init hchunk)
    fun _ _ _ h hok hs => inv_step hchunk h hok hs
  exact hinv.partition

/-- Free disk space at every inquiry, and nothing to skip. -/
def plentyOfSpace : FindFreeEnv := ⟨false, 1, 1, ⟨[], [], []⟩⟩

def twoBlockChunks : AllocConfig := ⟨8192, 0, 0⟩

/-- Two uploads of which the second needs a new write extent. -/
def twoUploads (firstSize secondOffset : ℤ) : List (AllocEvent ℕ) :=
  [.writePrepare firstSize, .prepareExt, .finishPrepare,
    .writePrepare 1, .askFindFree, .findFree plentyOfSpace, .takeFindFree,
    .finishPrepare,
    .add 1 [⟨0, firstSize⟩] 0 [], .add 2 [⟨secondOffset, 1⟩] 0 []]

theorem partition_of_run_two_blocks :
    ∃ s, exec (guarded (step twoBlockChunks) NoSplitBlock)
        (init twoBlockChunks) (twoUploads 5120 8192) = some s ∧
      s.Partition := by
  have hrun : (exec (guarded (step twoBlockChunks) NoSplitBlock)
      (init twoBlockChunks) (twoUploads 5120 8192)).isSome = true := by
    decide
  have hchunk : blockSize ∣ twoBlockChunks.allocChunkSize := by decide
  obtain ⟨s, hs⟩ := Option.isSome_iff_exists.mp hrun
  exact ⟨s, hs, partition_of_run hchunk (run_of_exec_guarded hs)⟩

/-- With a chunk size of 5120 bytes the second upload is placed inside the
second block of the first one. -/
theorem not_partition_unaligned_chunk :
    ∃ s, exec (step ⟨5120, 0, 0⟩) (init ⟨5120, 0, 0⟩)
        (twoUploads 5120 5120) = some s ∧ ¬ s.Partition := by
  refine ⟨_, rfl, ?_⟩
  intro h
  have hone := pairwiseDisjoint_iff.mp h.1 5120
  exact absurd hone (by decide)

end AllocState

end Hs5
