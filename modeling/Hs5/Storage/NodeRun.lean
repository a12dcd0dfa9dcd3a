import Hs5.Storage.NodeInv

/-!
# Orderly runs keep the invariant

One lemma for each kind of step.  A step of writers or commit thread extends
the log by what it logs; a WAL commit adds a point to start from; an LMDB
commit replaces the data on disk; a harmless crash leads to the maps of the
last `Sync` record or of the last LMDB commit.
-/

namespace Hs5

open List Cover Transition Lifting CommitState

namespace Node

variable {K : Type} [LinearOrder K] {cfg : NodeConfig} {s s' : Node K}

/-! ## The beginning -/

theorem ownSize_empty : (Committed.empty : Committed K).ownSize cfg =
    ⟨0, 0, cfg.alloc.allocChunkSize, 0, 1⟩ := by
  simp [Committed.ownSize, Committed.startSize, Committed.loaded,
    Committed.empty, lastSync]

theorem inv_init (hpos : 0 < cfg.alloc.allocChunkSize)
    (hchunk : blockSize ∣ cfg.alloc.allocChunkSize) :
    Inv cfg (init cfg : Node K) := by
  have howned : ∀ size x,
      ((Committed.empty : Committed K).opened size).owned x = 0 := by
    intro size x
    simp [Committed.opened, Committed.empty, CommitState.owned,
      Freemap.freeMult, multMap, OrderedMap.empty]
  refine ⟨AllocState.inv_init hchunk, AllocState.frontier_init cfg.alloc, ?_,
    rfl, fun _ => rfl, by simp [init], by simp [init], ?_, ?_⟩
  · simp only [init, ownSize_empty]
    refine ⟨⟨freeOk_empty, by simp [Committed.opened, Committed.empty],
      by simp [Committed.opened, Committed.empty]⟩,
      by simp [Committed.reserved, Committed.empty], ?_, ?_, le_rfl,
      dvd_zero _, hpos.le, hpos, hchunk, le_rfl, dvd_zero _⟩
    · intro x
      rw [howned]
      simpa [Committed.reserved, Committed.empty] using ind_le_one _ x
    · intro x _
      rw [howned]
      simp [Committed.reserved, Committed.empty]
  · intro _ _
    exact ⟨_, rfl, rfl, ⟨rfl, rfl⟩, rfl⟩
  · intro _ log info hlog
    simp [init] at hlog

/-! ## Running -/

theorem rebuilt_append_items (s : Node K) {log : List (LogEntry K)}
    {items : List (LogItem K)} {c c' : CommitState K}
    (hc : s.rebuilt cfg log = some c) (hc' : c.replayItems items = some c') :
    s.rebuilt cfg (log ++ items.map (.item s.prevTransid)) = some c' := by
  have hc : (s.disk.opened (s.disk.ownSize cfg)).replayItems
      (replayed s.prevTransid log) = some c := hc
  rw [rebuilt, replayed_append, replayed_items, replayItems_append, hc]
  exact hc'

theorem inv_run (hpos : 0 < cfg.alloc.allocChunkSize)
    (hchunk : blockSize ∣ cfg.alloc.allocChunkSize) (h : Inv cfg s)
    {e : AllocEvent K} (hok : s.alloc.KeepsExtents e)
    (hstep : s.step cfg (.run e) = some s') : Inv cfg s' := by
  obtain ⟨hrun, alloc, halloc, rfl⟩ := step_run hstep
  have hinv := AllocState.inv_step hchunk h.alloc hok.noSplitBlock halloc
  have hfront := AllocState.frontier_step hpos hchunk h.alloc h.front hok halloc
  cases hmeta : cfg.walMeta with
  | false =>
    refine ⟨hinv, hfront, h.disk, h.prev, fun _ => h.unlogged hmeta,
      h.intact, h.offsets, ?_, h.syncs⟩
    intro htrue
    rw [hmeta] at htrue
    cases htrue
  | true =>
    refine ⟨hinv, hfront, h.disk, h.prev, ?_, ?_, ?_, ?_, ?_⟩
    · intro hfalse
      rw [hmeta] at hfalse
      cases hfalse
    · simp only [if_true, SyncedLog.append_entries, mem_append,
        mem_map, not_or]
      exact ⟨h.intact, by simp⟩
    · intro t item hitem
      simp only [if_true, SyncedLog.append_entries, mem_append,
        mem_map] at hitem
      rcases hitem with hitem | ⟨item', hitem', heq⟩
      · exact h.offsets t item hitem
      · cases heq
        exact logged_offsetsDvd h.alloc halloc item hitem'
    · intro _ hreserved
      obtain ⟨c, hc, hsame⟩ := h.live hmeta hreserved
      obtain ⟨c₁, hc₁, hsame₁⟩ := logged_replays h.alloc hrun halloc
      obtain ⟨c₂, hc₂, hsame₂⟩ :=
        rel_some (hsame.replayItems (s.logged cfg e)) hc₁
      exact ⟨c₂, rebuilt_append_items s hc hc₂, hsame₁.trans hsame₂⟩
    · intro hreserved log info hlog
      exact h.syncs hreserved log info (prefix_of_append_items hlog)

/-! ## Commits -/

theorem inv_walCommit (hpos : 0 < cfg.alloc.allocChunkSize) (h : Inv cfg s)
    (hstep : s.step cfg .walCommit = some s') : Inv cfg s' := by
  obtain ⟨hmeta, halloc, hdisk, hprev, hentries, _, _⟩ := step_walCommit hstep
  have hinv := AllocState.inv_committed h.alloc
  have hfront := AllocState.frontier_committed h.alloc h.front
  have hrebuilt : ∀ log, s'.rebuilt cfg log = s.rebuilt cfg log := by
    intro log
    rw [rebuilt, hdisk, hprev, rebuilt]
  have hsame : CommitState.SameMaps s'.alloc.commit s.alloc.commit := by
    rw [halloc]
    exact (sameMaps_committed s.alloc.commit).symm
  refine ⟨halloc ▸ hinv, halloc ▸ hfront, hdisk ▸ h.disk, ?_, ?_, ?_, ?_, ?_,
    ?_⟩
  · rw [hprev, hdisk, h.prev]
  · intro hfalse
    rw [hmeta] at hfalse
    cases hfalse
  · rw [hentries]
    simpa using h.intact
  · intro t item hitem
    rw [hentries] at hitem
    exact h.offsets t item (by simpa using hitem)
  · intro _ hreserved
    obtain ⟨c, hc, hc'⟩ := h.live hmeta (hdisk ▸ hreserved)
    refine ⟨c, ?_, hsame.trans hc'⟩
    rw [hrebuilt, hentries, rebuilt, replayed_append, replayed_sync,
      append_nil]
    exact hc
  · intro hreserved log info hlog
    rw [hrebuilt]
    rw [hdisk] at hreserved
    rw [hentries, prefix_concat_iff] at hlog
    rcases hlog with heq | hlog
    · obtain ⟨rfl, hsync⟩ := append_inj' heq rfl
      simp only [List.cons.injEq, LogEntry.sync.injEq, and_true] at hsync
      obtain ⟨rfl, hlocal⟩ := hsync
      obtain ⟨c, hc, hc'⟩ := h.live hmeta hreserved
      have hstart := AllocState.startable_of_live hpos h.alloc h.front
        s.currTransid
      rw [← hlocal] at hstart
      exact ⟨c, hc, hstart.of_sameMaps hc'⟩
    · exact h.syncs hreserved log info hlog

theorem ownSize_stored {c : CommitState K}
    (hend : 0 < c.useReserved.currWriteExtEnd) (transid : ℤ) :
    (c.stored transid).ownSize cfg = c.useReserved.sizeInfo transid := by
  have hpos : ¬ (c.stored transid).size.currWriteExtEnd < 0 := not_lt.mpr hend.le
  have hloaded : (c.stored transid).loaded =
      c.useReserved.sizeInfo transid := if_neg hpos
  have hpos' : ¬ (c.useReserved.sizeInfo transid).currWriteExtEnd < 0 := hpos
  simp [Committed.ownSize, Committed.startSize, lastSync, hloaded, hpos']

theorem inv_lmdbCommit (hpos : 0 < cfg.alloc.allocChunkSize)
    (h : AllocState.Inv cfg.alloc s.alloc) (hf : s.alloc.Frontier)
    {fromStartupWal : Bool} {rounds : List SkipExtents}
    (hstep : s.lmdbCommit cfg fromStartupWal rounds = some s') :
    Inv cfg s' := by
  obtain ⟨_, c, hc, rfl⟩ := lmdbCommit_eq hstep
  have hmoved := AllocState.moved_doFreeMinspace h hc
  have hinv := AllocState.inv_moved h hmoved
  have hfront := AllocState.frontier_moved hf hmoved
  have hstart := AllocState.startable_of_live hpos hinv hfront s.currTransid
  have hinv' := AllocState.inv_committed hinv
  have hfront' := AllocState.frontier_committed hinv hfront
  have hmaps : ∀ size, CommitState.SameMaps c
      ((c.stored s.currTransid).opened size) := by
    intro size
    exact ⟨rfl, ⟨rfl, rfl⟩, rfl⟩
  refine ⟨hinv', hfront', ?_, rfl, fun _ => rfl, by simp, by simp, ?_, ?_⟩
  · simp only [ownSize_stored hstart.endPos]
    exact hstart.of_sameMaps (hmaps _)
  · intro _ _
    refine ⟨_, rfl, ?_⟩
    exact (sameMaps_committed c).symm.trans (hmaps _)
  · intro _ log info hlog
    simp at hlog

/-! ## Crashes -/

section Crash

variable {c : NodeCrash K}

theorem CrashSafe.logAfter (hsafe : s.CrashSafe cfg c) :
    s.logAfter c = s.surviving c ∧ s.logAfter c <+: s.log.entries := by
  obtain ⟨halt, htorn, _, _⟩ := hsafe
  have hlog : s.logAfter c = s.surviving c := by
    simp [Node.logAfter, htorn]
  refine ⟨hlog, ?_⟩
  rw [hlog, surviving, halt, nil_append]
  exact List.take_prefix _ _

theorem CrashSafe.readable (hsafe : s.CrashSafe cfg c) (h : Inv cfg s) :
    Hs5.readable (s.logAfter c) = s.surviving c := by
  obtain ⟨hlog, hbegins⟩ := hsafe.logAfter
  rw [readable_of_intact fun hmem => h.intact (hbegins.subset hmem), hlog]

theorem replay_of_plain (hdisk : s.diskAfter c = s.disk)
    (hreserved : s.disk.reserved = []) (hrounds : c.rounds = []) :
    s.replay cfg c = (s.disk.opened (s.sizeAfter cfg c)).replayItems
      (s.startupItems c) := by
  have hreserved' : s.disk.startupTmp ++ s.disk.tmp = [] := hreserved
  simp only [replay, hdisk, hreserved', hrounds]
  rfl

theorem replay_of_nothing (h : Inv cfg s) (hdisk : s.diskAfter c = s.disk)
    (hitems : s.startupItems c = [])
    (hsize : s.sizeAfter cfg c = s.disk.ownSize cfg)
    {commit : CommitState K} (hreplay : s.replay cfg c = some commit) :
    ∃ c₁, (s.disk.opened (s.disk.ownSize cfg)).resetDelLog s.disk.reserved =
      some c₁ ∧ c₁.doFreeMinspace c.rounds = some commit := by
  obtain ⟨c₁, hc₁, _⟩ := resetDelLog_spec h.disk
  have hc₁' : (s.disk.opened (s.disk.ownSize cfg)).resetDelLog
      (s.disk.startupTmp ++ s.disk.tmp) = some c₁ := hc₁
  simp only [replay, hdisk, hsize, hitems, hc₁', Option.bind_eq_bind,
    Option.bind_some, Option.bind_eq_some_iff] at hreplay
  obtain ⟨c₂, hc₂, hcommit⟩ := hreplay
  cases hcommit
  exact ⟨c₁, hc₁, hc₂⟩

/-- What the next process reads after a harmless crash. -/
inductive Reads (cfg : NodeConfig) (s : Node K) (c : NodeCrash K) : Prop
  | nothing (log : s.logAfter c = []) (items : s.startupItems c = [])
      (size : s.sizeAfter cfg c = s.disk.ownSize cfg)
  | upToSync (log : List (LogEntry K)) (info : SizeInfo)
      (eq : s.logAfter c = log ++ [.sync info []])
      (items : s.startupItems c = replayed s.prevTransid log)
      (size : s.sizeAfter cfg c = info)
      (reserved : s.disk.reserved = []) (rounds : c.rounds = [])
      (startable : ∃ commit, s.rebuilt cfg log = some commit ∧
        Startable commit info [])

theorem CrashSafe.reads (hsafe : s.CrashSafe cfg c) (h : Inv cfg s) :
    s.diskAfter c = s.disk ∧ Reads cfg s c := by
  have hreadable := hsafe.readable h
  obtain ⟨hlog, hbegins⟩ := hsafe.logAfter
  obtain ⟨_, _, hrounds, hend⟩ := hsafe
  rcases hend with hnil | ⟨hsync, hreserved⟩
  · rw [hnil] at hreadable hlog
    constructor
    · simp [diskAfter, hreadable, Committed.withReserved, lastSync]
    · apply Reads.nothing hlog
      · simp [startupItems, hreadable, replayed]
      · rw [sizeAfter, hreadable]
        rfl
  · obtain ⟨log, info, heq⟩ := exists_of_endsInSync hsync
    rw [heq] at hreadable hlog
    rw [hlog] at hbegins
    have hlast := lastSync_append_sync log info []
    obtain ⟨commit, hcommit, hstart⟩ := h.syncs hreserved log info hbegins
    have hnonneg : ¬ info.currWriteExtEnd < 0 := not_lt.mpr hstart.endPos.le
    have hmeta : cfg.walMeta = true := by
      by_contra hne
      rw [h.unlogged (by simpa using hne)] at hbegins
      simp at hbegins
    constructor
    · simp [diskAfter, hreadable, Committed.withReserved, hlast]
    · refine Reads.upToSync log info hlog ?_ ?_ hreserved (hrounds hmeta)
        ⟨commit, hcommit, hstart⟩
      · rw [startupItems, hreadable, replayed_append, replayed_sync,
          append_nil, h.prev]
      · simp [sizeAfter, hreadable, Committed.startSize, hlast, hnonneg]

theorem replay_startable (hsafe : s.CrashSafe cfg c) (h : Inv cfg s)
    {commit : CommitState K} (hreplay : s.replay cfg c = some commit) :
    Startable commit (s.sizeAfter cfg c) [] ∧
      CommitState.Advanced (s.disk.opened (s.sizeAfter cfg c)) commit := by
  obtain ⟨hdisk, hreads⟩ := hsafe.reads h
  cases hreads with
  | nothing hlog hitems hsize =>
    obtain ⟨c₁, hc₁, hc₂⟩ := replay_of_nothing h hdisk hitems hsize hreplay
    obtain ⟨c₁', hc₁', hstart₁, hsame₁, hres₁, _⟩ := resetDelLog_spec h.disk
    rw [hc₁] at hc₁'
    cases hc₁'
    obtain ⟨hstart₂, hsame₂, _⟩ := doFreeMinspace_startable hstart₁ hc₂
    have hres₂ := (doFreeMinspace_frame hc₂).2.1
    rw [hsize]
    exact ⟨hstart₂, .of_same (hsame₁.trans hsame₂) (hres₂.trans hres₁)⟩
  | upToSync log info hlog hitems hsize hreserved hrounds hcommit =>
    rw [replay_of_plain hdisk hreserved hrounds] at hreplay
    obtain ⟨c₁, hc₁, hstart⟩ := hcommit
    have hmaps : CommitState.SameMaps
        (s.disk.opened (s.disk.ownSize cfg))
        (s.disk.opened (s.sizeAfter cfg c)) := ⟨rfl, ⟨rfl, rfl⟩, rfl⟩
    have hrel := hmaps.replayItems (replayed s.prevTransid log)
    rw [← hitems] at hrel
    have hc₁' : (s.disk.opened (s.disk.ownSize cfg)).replayItems
        (s.startupItems c) = some c₁ := hitems ▸ hc₁
    obtain ⟨c₂, hc₂, hsame⟩ := rel_some hrel hc₁'
    rw [hreplay] at hc₂
    cases hc₂
    refine ⟨hsize ▸ hstart.of_sameMaps hsame, ?_⟩
    apply replayItems_advanced ?_ hreplay
    intro item hitem
    rw [hitems] at hitem
    apply h.offsets s.prevTransid item
    have hbegins := hsafe.logAfter.2
    rw [hlog] at hbegins
    exact hbegins.subset (mem_append_left _ (mem_of_mem_replayed hitem))

theorem inv_crash (hpos : 0 < cfg.alloc.allocChunkSize) (h : Inv cfg s)
    (hsafe : s.CrashSafe cfg c) (hstep : s.restart cfg c = some s') :
    Inv cfg s' := by
  obtain ⟨commit, hreplay, hcases⟩ := restart_eq hstep
  obtain ⟨hstart, hadv⟩ := replay_startable hsafe h hreplay
  obtain ⟨hinv, hfront⟩ := AllocState.inv_start hpos hstart hadv
  rcases hcases with ⟨hitems, rfl⟩ | ⟨_, hcommit⟩
  · obtain ⟨hdisk, hreads⟩ := hsafe.reads h
    have hbegins := hsafe.logAfter.2
    have hrebuilt : ∀ log, (s.started cfg c commit).rebuilt cfg log =
        s.rebuilt cfg log := by
      intro log
      simp only [rebuilt, started, hdisk, h.prev]
    refine ⟨hinv, hfront, ?_, ?_, ?_, ?_, ?_, ?_, ?_⟩
    · simp only [started, hdisk]
      exact h.disk
    · simp only [started, hdisk]
    · intro hfalse
      have hnil := h.unlogged hfalse
      rw [hnil] at hbegins
      simpa [started] using hbegins
    · intro hmem
      exact h.intact (hbegins.subset hmem)
    · intro t item hmem
      exact h.offsets t item (hbegins.subset hmem)
    · intro hmeta hreserved
      have hreserved' : s.disk.reserved = [] := by
        simpa only [started, hdisk] using hreserved
      rw [replay_of_plain hdisk hreserved' (hsafe.2.2.1 hmeta), hitems]
        at hreplay
      cases hreplay
      refine ⟨s.disk.opened (s.disk.ownSize cfg), ?_, rfl, ⟨rfl, rfl⟩, rfl⟩
      have hnone : replayed s.prevTransid (s.logAfter c) = [] := by
        have hread := hitems
        rw [startupItems, hsafe.readable h, ← h.prev] at hread
        rw [hsafe.logAfter.1]
        exact hread
      rw [hrebuilt, rebuilt]
      have hentries : (s.started cfg c
          (s.disk.opened (s.sizeAfter cfg c))).log.entries =
            s.logAfter c := rfl
      rw [hentries, hnone]
      rfl
    · intro hreserved log info hlog
      have hreserved' : s.disk.reserved = [] := by
        simpa only [started, hdisk] using hreserved
      rw [hrebuilt]
      exact h.syncs hreserved' log info (hlog.trans hbegins)
  · exact inv_lmdbCommit hpos hinv hfront hcommit

end Crash

/-! ## Whole runs -/

theorem inv_step (hpos : 0 < cfg.alloc.allocChunkSize)
    (hchunk : blockSize ∣ cfg.alloc.allocChunkSize) (h : Inv cfg s)
    {e : NodeEvent K} (hok : Orderly cfg s e)
    (hstep : s.step cfg e = some s') : Inv cfg s' := by
  cases e with
  | run e => exact inv_run hpos hchunk h hok hstep
  | walCommit => exact inv_walCommit hpos h hstep
  | lmdbCommit rounds => exact inv_lmdbCommit hpos h.alloc h.front hstep
  | resetWal =>
    cases hstep
    exact ⟨h.alloc, h.front, h.disk, h.prev, h.unlogged, h.intact,
      h.offsets, h.live, h.syncs⟩
  | trimmed item =>
    rw [step_trimmed hstep]
    exact ⟨h.alloc, h.front, h.disk, h.prev, h.unlogged, h.intact,
      h.offsets, h.live, h.syncs⟩
  | crash c => exact inv_crash hpos h hok (step_crash hstep).2

theorem inv_of_run (hpos : 0 < cfg.alloc.allocChunkSize)
    (hchunk : blockSize ∣ cfg.alloc.allocChunkSize)
    (hrun : Run (step cfg) (Orderly cfg) (init cfg) s) : Inv cfg s :=
  hrun.invariant (inv_init hpos hchunk)
    fun _ _ _ h hok hstep => inv_step hpos hchunk h hok hstep

end Node

end Hs5
