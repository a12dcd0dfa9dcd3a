import Hs5.Storage.Coverage
import Hs5.Storage.Recovered

/-!
# No space is lost in a crash without a log

Without a log the next process starts from the last LMDB commit alone.  Every
byte that belonged to an upload at the time of that commit is part of the
write extent it stored, or of a reserved extent it stored.
-/

namespace Hs5

open List Cover Transition CommitState AllocState

variable {K : Type} [LinearOrder K]

namespace AllocState

variable {cfg : AllocConfig} {s : AllocState K}

/-- A commit stores an owner for every byte of the data file. -/
theorem stored_full (hpos : 0 < cfg.allocChunkSize) (h : Inv cfg s)
    (hfill : Filled s) {x : ℤ} (hlo : 0 ≤ x) (hhi : x < s.fileEnd) :
    0 < s.commit.owned x +
      mult (s.commit.localReserved.map SPunchItem.span) x +
      ind (s.commit.currWriteExtStart, s.commit.currWriteExtEnd) x := by
  have hc := h.chunked hpos
  by_contra hzero
  have hnone : ind (s.commit.currWriteExtStart, s.commit.currWriteExtEnd) x
      = 0 := by omega
  have hout : ¬ (s.commit.currWriteExtStart ≤ x ∧
      x < s.commit.currWriteExtEnd) := by
    intro hin
    rw [ind_eq_one.mpr hin] at hnone
    cases hnone
  have hfull := hfill.full x hlo hhi
  simp only [used, settled] at hfull
  have hheld : mult (s.held.map SPunchItem.span) x = 0 := by
    by_contra hne
    obtain ⟨i, hi, hxlo, hxhi⟩ := exists_of_mult_pos (Nat.pos_of_ne_zero hne)
    obtain ⟨e, he, rfl⟩ := mem_map.mp hi
    have haligned := h.held e he
    have hlen := le_roundUp haligned.pos.le
    have hnot : e ∉ s.commit.localReserved := by
      intro hmem
      have hle := ind_le_mult
        (mem_map_of_mem (f := SPunchItem.span) hmem) x
      rw [ind_eq_one.mpr ⟨hxlo, hxhi⟩] at hle
      omega
    rw [mem_localReserved] at hnot
    have hcase : ¬ e.offset + e.len ≤ s.commit.dataFileMaxSize ∨
        s.commit.currWriteExtStart ≤ e.offset ∧
          e.offset + e.len ≤ s.commit.currWriteExtEnd := by
      by_contra hboth
      push Not at hboth
      exact hnot ⟨hfill.reserved e he, hboth.1, fun hin =>
        absurd (hboth.2 hin.1) (not_lt.mpr hin.2)⟩
    have hinside := hfill.inside e he
    simp only [SPunchItem.span] at hxlo hxhi hinside
    rcases hcase with hbeyond | ⟨hstart, hend⟩
    · omega
    · have hround : roundUp e.len ≤ s.commit.currWriteExtEnd - e.offset :=
        roundUp_le haligned.pos.le (by omega)
          (dvd_sub hc.commitEnd.2 haligned.dvd)
      omega
  have hview := hc.view
  have hstart := hfill.start
  unfold ViewOk at hview
  unfold StartOk at hstart
  unfold pendingExt at hfull
  have hempty : ∀ y : ℤ, ind ((0 : ℤ), 0) y = 0 := ind_of_le le_rfl
  cases hwait : s.waiting with
  | answered answer =>
    cases answer with
    | found start fin =>
      simp only [hwait] at hview hstart hfull
      have hext : ind (s.dataFileOffset, s.dataFileOffsetEnd) x = 0 :=
        ind_of_le hview.2.2.2.2.2.ge x
      rw [← hstart, ← hview.1] at hfull
      omega
    | noSpace =>
      simp only [hwait, hempty] at hview hstart hfull
      have hext : ind (s.dataFileOffset, s.dataFileOffsetEnd) x = 0 :=
        if_neg fun hin => hout ⟨hstart.trans hin.1, hview ▸ hin.2⟩
      omega
  | idle =>
    simp only [hwait, hempty] at hview hstart hfull
    have hext : ind (s.dataFileOffset, s.dataFileOffsetEnd) x = 0 :=
      if_neg fun hin => hout ⟨hstart.trans hin.1, hview ▸ hin.2⟩
    omega
  | asked offset =>
    simp only [hwait, hempty] at hview hstart hfull
    have hext : ind (s.dataFileOffset, s.dataFileOffsetEnd) x = 0 :=
      if_neg fun hin => hout ⟨hstart.trans hin.1, hview.2.1 ▸ hin.2⟩
    omega

theorem filled_start {c : CommitState K} {size : SizeInfo}
    (hstart : c.currWriteExtStart = size.currWriteExtStart)
    (hend : c.currWriteExtEnd = size.currWriteExtEnd)
    (hmax : c.dataFileMaxSize = size.dataFileMaxSize)
    (hfull : ∀ x, 0 ≤ x →
      x < max size.dataFileMaxSize size.currWriteExtEnd →
      0 < c.owned x +
        ind (size.currWriteExtStart, size.currWriteExtEnd) x) :
    Filled (start c size) := by
  refine ⟨?_, by simp [start], by simp [start], by simp [start], ?_⟩
  · intro x hlo hhi
    simp only [fileEnd, start, hend, hmax] at hhi
    have := hfull x hlo hhi
    simp only [used, settled, start]
    omega
  · exact hstart.le

end AllocState

namespace Node

/-- Every byte below the file size belongs to exactly one object, free extent
or hole, or to the write extent. -/
def NoLeak (s : Node K) : Prop :=
  ∀ x, 0 ≤ x → x < s.alloc.commit.dataFileMaxSize →
    s.alloc.commit.owned x +
      ind (s.alloc.dataFileOffset, s.alloc.dataFileOffsetEnd) x = 1

/-- The process and the last LMDB commit know an owner for every byte. -/
structure Full (cfg : NodeConfig) (s : Node K) : Prop where
  alloc : s.alloc.Filled
  disk : ∀ x, 0 ≤ x → x < max (s.disk.ownSize cfg).dataFileMaxSize
      (s.disk.ownSize cfg).currWriteExtEnd →
    0 < (s.disk.opened (s.disk.ownSize cfg)).owned x +
      mult (s.disk.reserved.map SPunchItem.span) x +
      ind ((s.disk.ownSize cfg).currWriteExtStart,
        (s.disk.ownSize cfg).currWriteExtEnd) x
  old : ∀ content ∈ s.old, content = []

/-- Steps that keep reservations; crashes are arbitrary. -/
def KeepsReserved (s : Node K) : NodeEvent K → Prop
  | .run e => s.alloc.KeepsReserved e
  | _ => True

instance (s : Node K) (e : NodeEvent K) : Decidable (KeepsReserved s e) := by
  rcases e with ⟨⟩ <;> dsimp only [KeepsReserved] <;> infer_instance

section

variable {cfg : NodeConfig} {s s' : Node K}

theorem crashSafe_of_unlogged (hmeta : cfg.walMeta = false)
    (hinv : Inv cfg s) (h : Full cfg s) {c : NodeCrash K}
    (hcan : s.CanCrash cfg c) : s.CrashSafe cfg c := by
  obtain ⟨halt, _, htorn, _⟩ := hcan
  have hnil : c.alt = [] := by
    rcases halt with halt | ⟨content, hcontent, hbegins⟩
    · exact halt
    · rw [h.old content hcontent] at hbegins
      exact prefix_nil.mp hbegins
  refine ⟨hnil, ?_, ?_, .inl ?_⟩
  · by_contra htrue
    have := htorn (by simpa using htrue)
    rw [hmeta] at this
    cases this
  · intro htrue
    rw [hmeta] at htrue
    cases htrue
  · rw [surviving, hnil, hinv.unlogged hmeta]
    simp

theorem CrashSafe.logAfter_eq_nil {c : NodeCrash K}
    (hsafe : s.CrashSafe cfg c) (hmeta : cfg.walMeta = false)
    (hinv : Inv cfg s) : s.logAfter c = [] := by
  have hbegins := hsafe.logAfter.2
  rw [hinv.unlogged hmeta] at hbegins
  exact prefix_nil.mp hbegins

theorem KeepsReserved.orderly (hmeta : cfg.walMeta = false)
    (hinv : Inv cfg s) (h : Full cfg s) {e : NodeEvent K}
    (hok : KeepsReserved s e) (hstep : s.step cfg e = some s') :
    Orderly cfg s e := by
  cases e with
  | run e => exact AllocState.KeepsReserved.keepsExtents hok
  | crash c => exact crashSafe_of_unlogged hmeta hinv h (step_crash hstep).1
  | walCommit | lmdbCommit _ | resetWal | trimmed _ => trivial

theorem full_init (hpos : 0 < cfg.alloc.allocChunkSize) :
    Full cfg (init cfg : Node K) := by
  refine ⟨filled_init hpos, ?_, by simp [init]⟩
  intro x hlo hhi
  simp only [init, ownSize_empty] at hhi ⊢
  have hin : ind ((0 : ℤ), cfg.alloc.allocChunkSize) x = 1 :=
    ind_eq_one.mpr ⟨hlo, by omega⟩
  rw [hin]
  omega

theorem full_lmdbCommit (hpos : 0 < cfg.alloc.allocChunkSize)
    (hmeta : cfg.walMeta = false) (hinv : Inv cfg s) (h : Full cfg s)
    {rounds : List SkipExtents}
    (hstep : s.step cfg (.lmdbCommit rounds) = some s') : Full cfg s' := by
  obtain ⟨_, c, hc, rfl⟩ := lmdbCommit_eq hstep
  have hmoved := moved_doFreeMinspace hinv.alloc hc
  have hinv₁ := inv_moved hinv.alloc hmoved
  have hfront₁ := frontier_moved hinv.front hmoved
  have hfill₁ := filled_moved h.alloc hmoved
  have hext := useReserved_ext hpos hinv₁ hfront₁ hfill₁
  have hstart := startable_of_live hpos hinv₁ hfront₁ s.currTransid
  refine ⟨?_, ?_, ?_⟩
  · exact filled_moved (s := { s.alloc with commit := c }) hfill₁
      (moved_committed hpos hinv₁ hfront₁ hfill₁)
  · intro x hlo hhi
    simp only [ownSize_stored hstart.endPos] at hhi ⊢
    simp only [CommitState.sizeInfo, hext.maxSize, hext.extStart,
      hext.extEnd] at hhi ⊢
    exact stored_full hpos hinv₁ hfill₁ hlo hhi
  · intro content hcontent
    rcases mem_cons.mp hcontent with rfl | hcontent
    · exact hinv.unlogged hmeta
    · exact h.old content hcontent

theorem full_crash (hinv : Inv cfg s) (h : Full cfg s) {c : NodeCrash K}
    (hsafe : s.CrashSafe cfg c) (hnone : s.logAfter c = [])
    (hstep : s.step cfg (.crash c) = some s') :
    Full cfg s' ∧ s'.alloc.held = [] ∧ s'.alloc.waiting = .idle := by
  obtain ⟨_, hrestart⟩ := step_crash hstep
  obtain ⟨hdisk, hreads⟩ := hsafe.reads hinv
  obtain ⟨commit, hreplay, hcases⟩ := restart_eq hrestart
  cases hreads with
  | upToSync log info hlog _ _ _ _ _ =>
    rw [hnone] at hlog
    simp at hlog
  | nothing hlog hitems hsize =>
    rcases hcases with ⟨_, rfl⟩ | ⟨hne, _⟩
    swap
    · exact absurd hitems hne
    obtain ⟨c₁, hc₁, hc₂⟩ := replay_of_nothing hinv hdisk hitems hsize hreplay
    obtain ⟨c₁', hc₁', hstart₁, hsame₁, _, howned₁, _⟩ :=
      resetDelLog_spec hinv.disk
    rw [hc₁] at hc₁'
    cases hc₁'
    obtain ⟨_, hsame₂, howned₂⟩ := doFreeMinspace_startable hstart₁ hc₂
    have hsame := hsame₁.trans hsame₂
    have hfilled : AllocState.Filled
        (AllocState.start commit (s.disk.ownSize cfg)) := by
      apply filled_start hsame.extStart hsame.extEnd hsame.maxSize
      intro x hlo hhi
      rw [howned₂, howned₁]
      exact h.disk x hlo hhi
    refine ⟨⟨?_, ?_, ?_⟩, rfl, rfl⟩
    · rw [← hsize] at hfilled
      exact hfilled
    · simp only [started, hdisk]
      exact h.disk
    · simp only [started]
      exact h.old

theorem full_step (hpos : 0 < cfg.alloc.allocChunkSize)
    (hchunk : blockSize ∣ cfg.alloc.allocChunkSize)
    (hmeta : cfg.walMeta = false) (hinv : Inv cfg s) (h : Full cfg s)
    {e : NodeEvent K} (hok : KeepsReserved s e)
    (hstep : s.step cfg e = some s') : Full cfg s' := by
  cases e with
  | run e =>
    obtain ⟨_, alloc, halloc, rfl⟩ := step_run hstep
    exact ⟨filled_step hpos hchunk hinv.alloc hinv.front h.alloc hok
      halloc, h.disk, h.old⟩
  | walCommit =>
    have htrue := (step_walCommit hstep).1
    rw [hmeta] at htrue
    cases htrue
  | lmdbCommit rounds => exact full_lmdbCommit hpos hmeta hinv h hstep
  | resetWal =>
    cases hstep
    exact ⟨h.alloc, h.disk, by simp⟩
  | trimmed item =>
    rw [step_trimmed hstep]
    exact ⟨h.alloc, h.disk, h.old⟩
  | crash c =>
    have hsafe := crashSafe_of_unlogged hmeta hinv h (step_crash hstep).1
    exact (full_crash hinv h hsafe (hsafe.logAfter_eq_nil hmeta hinv) hstep).1

/-- Without a log, after every crash of every run that keeps reservations,
every byte below the file size has exactly one owner. -/
theorem noLeak_of_run (hmeta : cfg.walMeta = false)
    (hpos : 0 < cfg.alloc.allocChunkSize)
    (hchunk : blockSize ∣ cfg.alloc.allocChunkSize)
    (hrun : Run (step cfg) KeepsReserved (init cfg) s) {c : NodeCrash K}
    (hstep : s.step cfg (.crash c) = some s') : s'.NoLeak := by
  have hboth : Inv cfg s ∧ Full cfg s := by
    apply hrun.invariant ⟨inv_init hpos hchunk, full_init hpos⟩
    rintro s e s' ⟨hinv, h⟩ hok hstep
    have horderly := KeepsReserved.orderly hmeta hinv h hok hstep
    exact ⟨inv_step hpos hchunk hinv horderly hstep,
      full_step hpos hchunk hmeta hinv h hok hstep⟩
  obtain ⟨hinv, h⟩ := hboth
  have hsafe := crashSafe_of_unlogged hmeta hinv h (step_crash hstep).1
  obtain ⟨hfull, hheld, hwait⟩ := full_crash hinv h hsafe
    (hsafe.logAfter_eq_nil hmeta hinv) hstep
  have hinv' := inv_crash hpos hinv hsafe (step_crash hstep).2
  intro x hlo hhi
  have hle := hinv'.alloc.once x
  have hge := hfull.alloc.full x hlo (hhi.trans_le (le_max_left _ _))
  have hzero : ind ((0 : ℤ), 0) x = 0 := ind_of_le le_rfl x
  simp only [AllocState.used, AllocState.settled, AllocState.pendingExt,
    hheld, hwait, hzero, map_nil, mult_nil] at hle hge
  omega

end

def unloggedNode : NodeConfig := ⟨⟨8192, 0, 0⟩, false, 0⟩

/-- Two uploads fill the first write extent, and a third one gets a new one;
the index is committed while all are in flight.  In between other items may be
processed. -/
def threeUploads (between : List (NodeEvent ℕ)) : List (NodeEvent ℕ) :=
  [.run (.writePrepare 1), .run .prepareExt, .run .finishPrepare] ++ between ++
    [.run (.writePrepare 1), .run .prepareExt, .run .finishPrepare,
      .run (.writePrepare 1), .run .askFindFree,
      .run (.findFree AllocState.plentyOfSpace), .run .takeFindFree,
      .lmdbCommit []]

theorem noLeak_of_run_in_flight :
    ∃ s s', exec (guarded (step unloggedNode) KeepsReserved)
        (init unloggedNode) (threeUploads []) = some s ∧
      s.step unloggedNode (.crash (keeping 0)) = some s' ∧ s'.NoLeak := by
  obtain ⟨s, hs, s', hstep, -⟩ : ∃ s ∈ exec (guarded (step unloggedNode)
      KeepsReserved) (init unloggedNode) (threeUploads []),
      ∃ s' ∈ s.step unloggedNode (.crash (keeping 0)), True := by decide
  exact ⟨s, s', hs, hstep, noLeak_of_run rfl (by decide) (by decide)
    (run_of_exec_guarded hs) hstep⟩

/-- An empty object is stored while the first upload is in flight.  After the
crash its block belongs to nothing. -/
theorem not_noLeak_empty_object :
    ∃ s s', exec (step unloggedNode) (init unloggedNode)
        (threeUploads [.run (.add 1 [] 0 [])]) = some s ∧
      s.step unloggedNode (.crash (keeping 0)) = some s' ∧ ¬ s'.NoLeak := by
  refine ⟨_, _, rfl, rfl, ?_⟩
  intro h
  exact absurd (h 0 (by decide) (by decide)) (by decide)

end Node

end Hs5
