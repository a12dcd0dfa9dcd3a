import Hs5.Storage.Startable
import Mathlib.Data.List.TakeWhile

/-!
# The invariant over process lifetimes

What is on disk can be started from at any time.  For the last LMDB commit
this is so by itself; for a `Sync` record of the log it is so together with
the items before it, which lead from the maps of the LMDB commit to those at
the time of the record.
-/

namespace Hs5

open List Cover Transition Lifting AllocState

section Log

variable {K : Type}

/-! ## Reading the log -/

theorem replayed_append (transid : ℤ) (l₁ l₂ : List (LogEntry K)) :
    replayed transid (l₁ ++ l₂) =
      replayed transid l₁ ++ replayed transid l₂ :=
  filterMap_append

@[simp] theorem replayed_items (transid : ℤ) (items : List (LogItem K)) :
    replayed transid (items.map (.item transid)) = items := by
  simp [replayed, filterMap_map, Function.comp_def, LogEntry.itemOf]

@[simp] theorem replayed_sync (transid : ℤ) (info : SizeInfo)
    (reserved : List SPunchItem) :
    replayed transid ([.sync info reserved] : List (LogEntry K)) = [] := rfl

theorem lastSync_append_sync (log : List (LogEntry K)) (info : SizeInfo)
    (reserved : List SPunchItem) :
    lastSync (log ++ [.sync info reserved]) = some (info, reserved) := by
  simp [lastSync, LogEntry.syncOf]

variable {log : List (LogEntry K)}

theorem readable_of_intact (h : LogEntry.torn ∉ log) : readable log = log := by
  apply takeWhile_eq_self_iff.mpr
  intro entry hentry
  cases entry with
  | torn => exact absurd hentry h
  | item _ _ => rfl
  | sync _ _ => rfl

theorem mem_of_mem_replayed {transid : ℤ} {item : LogItem K}
    (h : item ∈ replayed transid log) : .item transid item ∈ log := by
  obtain ⟨entry, hentry, hitem⟩ := mem_filterMap.mp h
  cases entry with
  | item t i =>
    simp only [LogEntry.itemOf, Option.ite_none_right_eq_some,
      Option.some.injEq] at hitem
    obtain ⟨rfl, rfl⟩ := hitem
    exact hentry
  | sync _ _ => cases hitem
  | torn => cases hitem

theorem prefix_of_append_items {log entries : List (LogEntry K)}
    {info : SizeInfo} {reserved : List SPunchItem} {transid : ℤ}
    {items : List (LogItem K)}
    (h : log ++ [.sync info reserved] <+:
      entries ++ items.map (.item transid)) :
    log ++ [.sync info reserved] <+: entries := by
  obtain ⟨rest, hrest⟩ := h
  rw [append_assoc, append_eq_append_iff] at hrest
  rcases hrest with ⟨more, hentries, hitems⟩ | ⟨more, _, hitems⟩
  · cases more with
    | nil =>
      have hmem : LogEntry.sync info reserved ∈
          items.map (LogEntry.item transid) := by
        rw [nil_append] at hitems
        rw [← hitems]
        exact mem_cons_self
      simp at hmem
    | cons entry more =>
      rw [cons_append, cons_append, List.cons.injEq] at hitems
      rw [hentries, ← hitems.1]
      exact ⟨more, by simp⟩
  · have hmem : LogEntry.sync info reserved ∈
        items.map (LogEntry.item transid) := by
      rw [hitems]
      simp
    simp at hmem

/-- The log ends with a `Sync` record without reserved extents. -/
def endsInSync (log : List (LogEntry K)) : Bool :=
  match log.getLast? with
  | some (.sync _ []) => true
  | _ => false

theorem exists_of_endsInSync
    (h : endsInSync log = true) : ∃ pre info, log = pre ++ [.sync info []] := by
  unfold endsInSync at h
  split at h
  · rename_i info hlast
    obtain ⟨pre, rfl⟩ := getLast?_eq_some_iff.mp hlast
    exact ⟨pre, info, rfl⟩
  · cases h

end Log

variable {K : Type} [LinearOrder K]

/-! ## The log determines the maps -/

namespace CommitState

theorem SameMaps.refl (c : CommitState K) : SameMaps c c :=
  ⟨rfl, ⟨rfl, rfl⟩, rfl⟩

theorem replayItems_append (c : CommitState K) (l₁ l₂ : List (LogItem K)) :
    c.replayItems (l₁ ++ l₂) =
      (c.replayItems l₁).bind fun c' => c'.replayItems l₂ :=
  foldlM_append

theorem findFree_replays {c : CommitState K} {offset : ℤ}
    (hend : offset = c.currWriteExtEnd)
    (hstart : c.currWriteExtStart ≤ c.currWriteExtEnd) {cfg : AllocConfig}
    {env : FindFreeEnv} {r : FindFreeResult K}
    (h : c.findFree cfg env offset = some r) :
    ∃ c', c.replayItems (r.wal.map .freemap) = some c' ∧
      SameMaps r.state c' := by
  rcases findFree_eq hend hstart cfg env with ⟨force, heq⟩ | heq
  · rw [heq, takeFreeExt] at h
    split at h
    · rename_i start len hfind
      obtain ⟨fm, hdel, rfl⟩ := Option.map_eq_some_iff.mp h
      have hdel' : c.fm.delFreemapExt start len = some fm := hdel
      refine ⟨{ c with fm := fm }, ?_, ⟨rfl, ⟨rfl, rfl⟩, rfl⟩⟩
      simp [answerExt, replayItems, replayItem, applyFreemapWal, hdel']
    · split at h <;> cases h <;>
        exact ⟨c, rfl, ⟨rfl, ⟨rfl, rfl⟩, rfl⟩⟩
  · rw [heq] at h
    cases h
    exact ⟨c, rfl, ⟨rfl, ⟨rfl, rfl⟩, rfl⟩⟩

end CommitState

variable {e : AllocEvent K}

namespace Node

section Logged

variable {cfg : NodeConfig} {s : Node K}

theorem logged_replays (h : AllocState.Inv cfg.alloc s.alloc)
    (hrun : s.canRun e = true) {alloc : AllocState K}
    (hstep : s.alloc.step cfg.alloc e = some alloc) :
    ∃ c, s.alloc.commit.replayItems (s.logged cfg e) = some c ∧
      CommitState.SameMaps alloc.commit c := by
  cases step_steps hstep with
  | writePrepare | askFindFree | failPrepare | finishPrepare
  | removeExtentEnd => exact ⟨_, rfl, .refl _⟩
  | prepareExt | takeFindFree => exact ⟨_, rfl, rfl, ⟨rfl, rfl⟩, rfl⟩
  | @add fn _ _ _ _ _ hc =>
    obtain ⟨c', hc', hsame⟩ := rel_some
      ((CommitState.SameMaps.refl s.alloc.commit).add fn _ false true) hc
    refine ⟨c', ?_, hsame⟩
    simp [logged, CommitState.replayItems, CommitState.replayItem, hc']
  | @del _ c hc | @freeExtents _ c _ hc =>
    refine ⟨c, ?_, .refl c⟩
    simp [logged, CommitState.replayItems, CommitState.replayItem, hc]
  | @findFree env _ _ r hp hwait hr =>
    obtain ⟨_, hc, hoff, hend, _⟩ := chunked_of_asked h hp hwait
    have hlogged : s.logged cfg (.findFree env) = r.wal.map .freemap := by
      simp [logged, hp, hwait, hr]
    rw [hlogged]
    exact CommitState.findFree_replays (hoff.trans hend.symm) hc.startLe hr
  | commit => cases hrun

theorem logged_offsetsDvd (h : AllocState.Inv cfg.alloc s.alloc)
    {alloc : AllocState K} (hstep : s.alloc.step cfg.alloc e = some alloc) :
    ∀ item ∈ s.logged cfg e, item.OffsetsDvd := by
  cases step_steps hstep with
  | freeExtents hexts =>
    intro item hitem
    rw [logged, mem_singleton] at hitem
    rw [hitem]
    intro e he
    exact (h.held e (hexts.subset he)).dvd
  | findFree hp hwait hr =>
    intro item hitem
    simp only [logged, hp, hwait, hr, Option.map_some, mem_map] at hitem
    obtain ⟨change, _, rfl⟩ := hitem
    trivial
  | add | del =>
    intro item hitem
    rw [logged, mem_singleton] at hitem
    rw [hitem]
    trivial
  | _ =>
    intro item hitem
    cases hitem

end Logged

end Node

/-! ## The invariant -/

/-- The variables of the next process if the log is empty. -/
def Committed.ownSize (cfg : NodeConfig) (d : Committed K) : SizeInfo :=
  d.startSize cfg []

def Committed.reserved (d : Committed K) : List SPunchItem :=
  d.startupTmp ++ d.tmp

namespace Node

/-- The maps that the log leads to from the last LMDB commit. -/
def rebuilt (cfg : NodeConfig) (s : Node K) (log : List (LogEntry K)) :
    Option (CommitState K) :=
  (s.disk.opened (s.disk.ownSize cfg)).replayItems (replayed s.prevTransid log)

structure Inv (cfg : NodeConfig) (s : Node K) : Prop where
  alloc : AllocState.Inv cfg.alloc s.alloc
  front : s.alloc.Frontier
  disk : Startable (s.disk.opened (s.disk.ownSize cfg))
    (s.disk.ownSize cfg) s.disk.reserved
  prev : s.prevTransid = s.disk.size.currTransid
  unlogged : cfg.walMeta = false → s.log.entries = []
  intact : .torn ∉ s.log.entries
  offsets : ∀ t item, .item t item ∈ s.log.entries → item.OffsetsDvd
  live : cfg.walMeta = true → s.disk.reserved = [] →
    ∃ c, s.rebuilt cfg s.log.entries = some c ∧
      CommitState.SameMaps s.alloc.commit c
  syncs : s.disk.reserved = [] → ∀ log info,
    log ++ [.sync info []] <+: s.log.entries →
      ∃ c, s.rebuilt cfg log = some c ∧ Startable c info []

/-- The next process reads nothing behind the variables it starts with. -/
def CrashSafe (cfg : NodeConfig) (s : Node K) (c : NodeCrash K) : Prop :=
  c.alt = [] ∧ c.torn = false ∧ (cfg.walMeta = true → c.rounds = []) ∧
    (s.surviving c = [] ∨
      endsInSync (s.surviving c) = true ∧ s.disk.reserved = [])
  deriving Decidable

/-- No end of an extent is given up, and crashes are harmless. -/
def Orderly (cfg : NodeConfig) (s : Node K) : NodeEvent K → Prop
  | .run e => s.alloc.KeepsExtents e
  | .crash c => s.CrashSafe cfg c
  | _ => True

instance (cfg : NodeConfig) (s : Node K) (e : NodeEvent K) :
    Decidable (Orderly cfg s e) := by
  rcases e with ⟨⟩ <;> dsimp only [Orderly] <;> infer_instance

/-! ## What each step does -/

section StepCases

variable {cfg : NodeConfig} {s s' : Node K}

theorem step_run (h : s.step cfg (.run e) = some s') :
    s.canRun e = true ∧ ∃ alloc, s.alloc.step cfg.alloc e = some alloc ∧
      s' = { s with
        alloc := alloc
        log :=
          if cfg.walMeta then
            s.log.append ((s.logged cfg e).map (.item s.prevTransid))
          else s.log } := by
  simp only [step, run, Option.ite_none_right_eq_some,
    Option.map_eq_some_iff] at h
  obtain ⟨hrun, alloc, halloc, rfl⟩ := h
  exact ⟨hrun, alloc, halloc, rfl⟩

theorem step_walCommit (h : s.step cfg .walCommit = some s') :
    cfg.walMeta = true ∧
      s'.alloc = { s.alloc with
        commit := s.alloc.commit.useReserved.committed } ∧
      s'.disk = s.disk ∧ s'.prevTransid = s.prevTransid ∧
      s'.log.entries = s.log.entries ++
        [.sync (s.alloc.commit.useReserved.sizeInfo s.currTransid)
          s.alloc.commit.localReserved] ∧
      s'.log.durable = s'.log.entries ∧
      s'.trimQueue = s.trimQueue ++
        runTrimQueue cfg s.alloc.commit.useReserved.fm.trimItems := by
  simp only [step, walCommit, Option.ite_none_right_eq_some,
    Option.some.injEq] at h
  obtain ⟨hmeta, rfl⟩ := h
  refine ⟨hmeta, rfl, rfl, rfl, rfl, ?_, rfl⟩
  have hle := s.log.synced_le
  apply take_of_length_le
  simp only [SyncedLog.push, SyncedLog.sync, SyncedLog.size, length_append]
  omega

theorem lmdbCommit_eq {fromStartupWal : Bool} {rounds : List SkipExtents}
    (h : s.lmdbCommit cfg fromStartupWal rounds = some s') :
    (∀ skip ∈ rounds, skip.trimmingFreeSkipExtents = s.trimming) ∧
      ∃ c, s.alloc.commit.doFreeMinspace rounds = some c ∧
      s' = { s with
        alloc := { s.alloc with commit := c.useReserved.committed }
        disk := c.stored s.currTransid
        log := .unsynced []
        old := s.log.entries :: s.old
        txnStart := 0
        prevTransid := s.currTransid
        currTransid := s.currTransid + 1
        trimQueue :=
          if fromStartupWal then s.trimQueue
          else s.trimQueue ++ runTrimQueue cfg c.fm.trimItems } := by
  simp only [lmdbCommit, Option.ite_none_right_eq_some,
    Option.map_eq_some_iff] at h
  obtain ⟨hskip, c, hc, rfl⟩ := h
  exact ⟨hskip, c, hc, rfl⟩

theorem trimming_points {rounds : List SkipExtents} {trimming : List ℤ}
    (h : ∀ skip ∈ rounds, skip.trimmingFreeSkipExtents = trimming) :
    ∀ skip ∈ rounds, ∀ o ∈ trimming, o ∈ skip.points := by
  intro skip hskip o ho
  exact mem_append_left _ (h skip hskip ▸ ho)

theorem step_trimmed {item : SPunchItem}
    (h : s.step cfg (.trimmed item) = some s') :
    s' = { s with trimQueue := s.trimQueue.erase item } := by
  simp only [step, Option.ite_none_right_eq_some, Option.some.injEq] at h
  exact h.2.symm

theorem step_crash {c : NodeCrash K} (h : s.step cfg (.crash c) = some s') :
    s.CanCrash cfg c ∧ s.restart cfg c = some s' := by
  simpa only [step, Option.ite_none_right_eq_some] using h

theorem restart_eq {c : NodeCrash K} (h : s.restart cfg c = some s') :
    ∃ commit, s.replay cfg c = some commit ∧
      (s.startupItems c = [] ∧ s' = s.started cfg c commit ∨
        s.startupItems c ≠ [] ∧ (s.started cfg c commit).lmdbCommit cfg true
          c.startupRounds = some s') := by
  obtain ⟨commit, hcommit, h⟩ := Option.bind_eq_some_iff.mp h
  refine ⟨commit, hcommit, ?_⟩
  by_cases hitems : s.startupItems c = []
  · rw [if_pos hitems] at h
    exact .inl ⟨hitems, (Option.some.inj h).symm⟩
  · rw [if_neg hitems] at h
    exact .inr ⟨hitems, h⟩

end StepCases

end Node

end Hs5
