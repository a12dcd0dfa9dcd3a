import Hs5.Storage.NoReuse
import Mathlib.Algebra.Order.BigOperators.Group.List

/-!
# The counter of free space

`data_file_free` is updated with every change of the free map and stored by
both kinds of commit.  A process that finds a `Sync` record takes the counter
from it, while the free map is that of the older LMDB commit; the items in
between are then replayed and counted a second time.  The counter is exact as
long as no process has to replay items.
-/

namespace Hs5

open Cover Transition CommitState

variable {K : Type} [LinearOrder K]

theorem Freemap.total_nonneg {fm : Freemap} (hok : fm.WellFormed) :
    0 ≤ fm.total := by
  apply List.sum_nonneg
  intro len hlen
  obtain ⟨p, hp, rfl⟩ := List.mem_map.mp hlen
  exact (hok.pos p hp).le

theorem Freemap.SameFree.total {fm fm' : Freemap}
    (h : Freemap.SameFree fm fm') : fm'.total = fm.total := by
  rw [Freemap.total, h.free, Freemap.total]

theorem Committed.opened_exact {d : Committed K} {size : SizeInfo}
    (h : size.dataFileFree = (d.opened size).fm.total) :
    (d.opened size).fm.Exact := by
  rw [Freemap.Exact]
  simp only [Committed.opened]
  split
  · rfl
  · exact h

namespace Node

/-- The counters of the running process, of the last LMDB commit and of the
`Sync` records in the log. -/
structure Counted (cfg : NodeConfig) (s : Node K) : Prop where
  live : s.alloc.commit.fm.Exact
  disk : (s.disk.opened (s.disk.ownSize cfg)).fm.Exact
  syncs : s.disk.reserved = [] → ∀ log info,
    log ++ [.sync info []] <+: s.log.entries →
      ∀ c, s.rebuilt cfg log = some c → info.dataFileFree = c.fm.total

/-- Orderly steps, where no process has to replay items. -/
def ReplaysNothing (cfg : NodeConfig) (s : Node K) (e : NodeEvent K) :
    Prop :=
  Orderly cfg s e ∧
    match e with
    | .crash c => s.startupItems c = []
    | _ => True

instance (cfg : NodeConfig) (s : Node K) (e : NodeEvent K) :
    Decidable (ReplaysNothing cfg s e) := by
  rcases e with ⟨⟩ <;> dsimp only [ReplaysNothing] <;> infer_instance

section

variable {cfg : NodeConfig} {s s' : Node K}

theorem counted_init : Counted cfg (init cfg : Node K) := by
  refine ⟨rfl, ?_, ?_⟩
  · apply Committed.opened_exact
    simp only [init, ownSize_empty]
    rfl
  · intro _ log info hlog
    simp [init] at hlog

theorem counted_run (hinv : Inv cfg s) (h : Counted cfg s)
    {e : AllocEvent K} (hstep : s.step cfg (.run e) = some s') :
    Counted cfg s' := by
  obtain ⟨hrun, alloc, halloc, rfl⟩ := step_run hstep
  have hpres := preserves_of_step hinv.alloc hrun (canRun_points hrun) halloc
  refine ⟨hpres.exact h.live, h.disk, ?_⟩
  intro hreserved log info hlog
  apply h.syncs hreserved log info
  cases hmeta : cfg.walMeta with
  | false => simpa [hmeta] using hlog
  | true =>
    simp only [hmeta, if_true, SyncedLog.append_entries] at hlog
    exact prefix_of_append_items hlog

theorem useReserved_fm (hinv : AllocState.Inv cfg.alloc s.alloc)
    (hf : s.alloc.Frontier) :
    s.alloc.commit.useReserved.fm = s.alloc.commit.fm := by
  have hdvd : ∀ e ∈ s.alloc.commit.localReserved, blockSize ∣ e.offset :=
    fun e he => (hinv.held e (hf.localReserved_subperm.subset he)).dvd
  exact (foldl_useExt hdvd s.alloc.commit).2.2.1

theorem counted_walCommit (hinv : Inv cfg s) (h : Counted cfg s)
    (hstep : s.step cfg .walCommit = some s') : Counted cfg s' := by
  obtain ⟨hmeta, halloc, hdisk, hprev, hentries, _, _⟩ := step_walCommit hstep
  have hfm := useReserved_fm hinv.alloc hinv.front
  refine ⟨?_, hdisk ▸ h.disk, ?_⟩
  · have hlive := h.live
    rw [← hfm] at hlive
    rw [halloc]
    exact hlive
  · intro hreserved log info hlog c hc
    rw [rebuilt, hdisk, hprev] at hc
    rw [hdisk] at hreserved
    rw [hentries, List.prefix_concat_iff] at hlog
    rcases hlog with heq | hlog
    · obtain ⟨rfl, hsync⟩ := List.append_inj' heq rfl
      simp only [List.cons.injEq, LogEntry.sync.injEq, and_true] at hsync
      obtain ⟨rfl, _⟩ := hsync
      obtain ⟨c', hc', hsame⟩ := hinv.live hmeta hreserved
      rw [rebuilt, hc] at hc'
      cases hc'
      rw [hsame.fm.total, ← h.live, ← hfm]
      rfl
    · exact h.syncs hreserved log info hlog c hc

theorem counted_lmdbCommit (hpos : 0 < cfg.alloc.allocChunkSize)
    (hinv : Inv cfg s) (h : Counted cfg s) {rounds : List SkipExtents}
    (hstep : s.step cfg (.lmdbCommit rounds) = some s') : Counted cfg s' := by
  obtain ⟨hskip, c, hc, rfl⟩ := lmdbCommit_eq hstep
  have hkept := doFreeMinspace_kept hinv.alloc.wellFormed
    hinv.alloc.owned_le_one (trimming_points hskip) hc
  have hexact := hkept.keeps.exact h.live
  have hmoved := AllocState.moved_doFreeMinspace hinv.alloc hc
  have hinv₁ := AllocState.inv_moved hinv.alloc hmoved
  have hfront₁ := AllocState.frontier_moved hinv.front hmoved
  have hfm : c.useReserved.fm = c.fm :=
    useReserved_fm (s := { s with alloc := { s.alloc with commit := c } })
      hinv₁ hfront₁
  have hstart := AllocState.startable_of_live hpos hinv₁ hfront₁ s.currTransid
  refine ⟨?_, ?_, ?_⟩
  · rw [← hfm] at hexact
    exact hexact
  · apply Committed.opened_exact
    simp only [ownSize_stored hstart.endPos]
    rw [CommitState.sizeInfo, hfm]
    exact hexact
  · intro _ log info hlog
    simp at hlog

theorem counted_crash (hinv : Inv cfg s) (h : Counted cfg s)
    {c : NodeCrash K} (hsafe : s.CrashSafe cfg c)
    (hitems : s.startupItems c = [])
    (hstep : s.step cfg (.crash c) = some s') : Counted cfg s' := by
  obtain ⟨⟨_, _, _, hrounds⟩, hrestart⟩ := step_crash hstep
  obtain ⟨hdisk, hreads⟩ := hsafe.reads hinv
  obtain ⟨commit, hreplay, hcases⟩ := restart_eq hrestart
  rcases hcases with ⟨_, rfl⟩ | ⟨hne, _⟩
  swap
  · exact absurd hitems hne
  refine ⟨?_, ?_, ?_⟩
  · show commit.fm.Exact
    cases hreads with
    | nothing _ _ hsize =>
      obtain ⟨c₁, hc₁, hc₂⟩ := replay_of_nothing hinv hdisk hitems hsize hreplay
      obtain ⟨c₁', hc₁', hstart₁, _, _, _, hexact₁⟩ :=
        resetDelLog_spec hinv.disk
      rw [hc₁] at hc₁'
      cases hc₁'
      have hkept := doFreeMinspace_kept hstart₁.wellFormed
        hstart₁.owned_le_one (trimming_points hrounds) hc₂
      exact hkept.keeps.exact (hexact₁ h.disk)
    | upToSync log info hlog hread hsize hreserved hnone hcommit =>
      rw [replay_of_plain hdisk hreserved hnone, hitems] at hreplay
      cases hreplay
      have hbegins := hsafe.logAfter.2
      rw [hlog] at hbegins
      have hnil : replayed s.prevTransid log = [] := by
        rw [← hread, hitems]
      have hrebuilt : s.rebuilt cfg log =
          some (s.disk.opened (s.disk.ownSize cfg)) := by
        rw [rebuilt, hnil]
        rfl
      apply Committed.opened_exact
      rw [hsize]
      have htotal := h.syncs hreserved log info hbegins _ hrebuilt
      exact htotal
  · simp only [started, hdisk]
    exact h.disk
  · intro hreserved log info hlog c' hc'
    have hreserved' : s.disk.reserved = [] := by
      simpa only [started, hdisk] using hreserved
    apply h.syncs hreserved' log info (hlog.trans hsafe.logAfter.2)
    simpa only [rebuilt, started, hdisk, hinv.prev] using hc'

/-- If no process has to replay items, `data_file_free` is the amount of free
space in every state of every orderly run. -/
theorem exact_of_run (hpos : 0 < cfg.alloc.allocChunkSize)
    (hchunk : blockSize ∣ cfg.alloc.allocChunkSize)
    (hrun : Run (step cfg) (ReplaysNothing cfg) (init cfg) s) :
    s.alloc.commit.fm.Exact ∧ 0 ≤ s.alloc.commit.fm.dataFileFree := by
  have hboth : Inv cfg s ∧ Counted cfg s := by
    apply hrun.invariant ⟨inv_init hpos hchunk, counted_init⟩
    rintro s e s' ⟨hinv, h⟩ ⟨hok, hnone⟩ hstep
    refine ⟨inv_step hpos hchunk hinv hok hstep, ?_⟩
    cases e with
    | run e => exact counted_run hinv h hstep
    | walCommit => exact counted_walCommit hinv h hstep
    | lmdbCommit rounds => exact counted_lmdbCommit hpos hinv h hstep
    | resetWal =>
      cases hstep
      exact ⟨h.live, h.disk, h.syncs⟩
    | trimmed item =>
      rw [step_trimmed hstep]
      exact ⟨h.live, h.disk, h.syncs⟩
    | crash c => exact counted_crash hinv h hok hnone hstep
  obtain ⟨hinv, h⟩ := hboth
  refine ⟨h.live, ?_⟩
  rw [h.live]
  exact Freemap.total_nonneg hinv.alloc.wellFormed.fm

end

/-- An object is deleted and the deletion committed to LMDB before the
crash. -/
def crashAfterCommit : List (NodeEvent ℕ) :=
  uploadOne ++ [.run (.del 1), .lmdbCommit [], .resetWal, .walCommit,
    .crash (keeping 1)]

theorem exact_of_run_lmdbCommit :
    ∃ s, exec (guarded (step loggedNode) (ReplaysNothing loggedNode))
        (init loggedNode) crashAfterCommit = some s ∧
      s.alloc.commit.fm.Exact ∧ 0 ≤ s.alloc.commit.fm.dataFileFree := by
  have hrun : (exec (guarded (step loggedNode) (ReplaysNothing loggedNode))
      (init loggedNode) crashAfterCommit).isSome = true := by
    decide
  obtain ⟨s, hs⟩ := Option.isSome_iff_exists.mp hrun
  exact ⟨s, hs, exact_of_run (by decide) (by decide) (run_of_exec_guarded hs)⟩

/-- The deletion is committed to the log only.  After the crash its block is
counted by the `Sync` record and again by the replay. -/
theorem not_exact_replayed_del :
    ∃ s, exec (step loggedNode) (init loggedNode)
        (uploadOne ++ [.lmdbCommit [], .resetWal, .run (.del 1), .walCommit,
          .crash (keeping 2)]) = some s ∧
      s.alloc.commit.fm.dataFileFree = 8192 ∧
      s.alloc.commit.fm.total = 4096 ∧ ¬ s.alloc.commit.fm.Exact := by
  refine ⟨_, rfl, ?_, ?_, ?_⟩
  · decide
  · decide
  · unfold Freemap.Exact
    decide

end Node

end Hs5
