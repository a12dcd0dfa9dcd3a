import Hs5.Storage.TrimSafe

/-!
# What `commit_items` says about the last LMDB commit

A key whose value in the open transaction differs from the last committed one
has an entry in `commit_items`.  So as long as there is no entry for the hash
of a key, reading the last commit gives what the commit thread would read.
-/

namespace Hs5

open Transition OrderedMap

variable {K P : Type} [LinearOrder K]

theorem findFragInfo_congr [DecidableEq P] {V : Type} {commonPrefix : K → P}
    {m m' : OrderedMap K V} {fn : K}
    (h : ∀ k, commonPrefix k = commonPrefix fn →
      m.lookup k = m'.lookup k) (readNewest : Bool) :
    findFragInfo commonPrefix m fn readNewest =
      findFragInfo commonPrefix m' fn readNewest := by
  unfold findFragInfo
  split
  · let versions : K × V → Bool := fun p => commonPrefix p.1 = commonPrefix fn
    have hfilter : m.filter versions = m'.filter versions := by
      apply ext_mem
      intro p
      rw [mem_filter, mem_filter]
      apply and_congr_left
      intro hp
      rw [← lookup_eq_some, ← lookup_eq_some,
        h p.1 (by simpa [versions] using hp)]
    have hentries : m.entries.filter versions = m'.entries.filter versions :=
      congrArg OrderedMap.entries hfilter
    rw [← List.head?_filter, ← List.head?_filter, hentries]
  · rw [h fn rfl]

theorem mem_of_findFragInfo [DecidableEq P] {V : Type} {commonPrefix : K → P}
    {m : OrderedMap K V} {fn : K} {readNewest : Bool} {p : K × V}
    (h : findFragInfo commonPrefix m fn readNewest = some p) : p ∈ m := by
  unfold findFragInfo at h
  split at h
  · exact List.mem_of_find?_eq_some h
  · obtain ⟨v, hv, rfl⟩ := Option.map_eq_some_iff.mp h
    exact lookup_eq_some.mp hv

theorem mem_of_getFragInfo [DecidableEq P] {cfg : ReadConfig K P}
    {m : OrderedMap K IndexValue} {fn : K} {readNewest : Bool}
    {v : IndexValue} (h : getFragInfo cfg m fn readNewest = some v) :
    ∃ k, (k, v) ∈ m := by
  obtain ⟨p, hp, rfl⟩ := Option.map_eq_some_iff.mp h
  exact ⟨p.1, mem_of_findFragInfo hp⟩

/-! ## What the steps of the storage do to the index -/

namespace Node

variable {cfg : NodeConfig} {s s' : Node K}

variable {e : AllocEvent K}

theorem main_run (h : s.Inv cfg) (hstep : s.step cfg (.run e) = some s') :
    s'.alloc.commit.main = (s.logged cfg e).foldl LogItem.applyMain
      s.alloc.commit.main := by
  obtain ⟨hrun, alloc, halloc, rfl⟩ := step_run hstep
  obtain ⟨c, hc, hsame⟩ := logged_replays h.alloc hrun halloc
  exact hsame.main.symm.trans (CommitState.replayItems_main hc)

theorem main_run_of_none (h : s.Inv cfg) (hkey : ReadNode.itemKey e = none)
    (hstep : s.step cfg (.run e) = some s') :
    s'.alloc.commit.main = s.alloc.commit.main := by
  rw [main_run h hstep]
  have hfreemap : ∀ (wal : List FreemapWal) (m : OrderedMap K IndexValue),
      (wal.map LogItem.freemap).foldl LogItem.applyMain m = m := by
    intro wal m
    induction wal with
    | nil => rfl
    | cons w wal ih => exact ih
  cases e with
  | add | del => simp [ReadNode.itemKey] at hkey
  | findFree env =>
    simp only [logged]
    split
    · split
      · exact hfreemap _ _
      · rfl
    · rfl
  | _ => rfl

theorem lookup_run_of_ne (h : s.Inv cfg) {fn k : K}
    (hkey : ReadNode.itemKey e = some fn) (hk : k ≠ fn)
    (hstep : s.step cfg (.run e) = some s') :
    s'.alloc.commit.main.lookup k = s.alloc.commit.main.lookup k := by
  rw [main_run h hstep]
  cases e with
  | add fn' exts lastModified md5sum =>
    obtain rfl : fn' = fn := by simpa [ReadNode.itemKey] using hkey
    exact lookup_insert_of_ne _ _ hk
  | del fn' =>
    obtain rfl : fn' = fn := by simpa [ReadNode.itemKey] using hkey
    exact lookup_erase_of_ne _ hk
  | _ => simp [ReadNode.itemKey] at hkey

theorem run_frame (hstep : s.step cfg (.run e) = some s') :
    s'.disk = s.disk ∧ s'.trimQueue = s.trimQueue := by
  obtain ⟨-, alloc, -, rfl⟩ := step_run hstep
  exact ⟨rfl, rfl⟩

theorem main_walCommit (hstep : s.step cfg .walCommit = some s') :
    s'.disk = s.disk ∧ s'.alloc.commit.main = s.alloc.commit.main := by
  obtain ⟨-, halloc, hdisk, -⟩ := step_walCommit hstep
  refine ⟨hdisk, ?_⟩
  rw [halloc]
  exact (CommitState.sameMaps_committed s.alloc.commit).main

theorem main_lmdbCommit {fromStartupWal : Bool} {rounds : List SkipExtents}
    (hstep : s.lmdbCommit cfg fromStartupWal rounds = some s') :
    s'.disk.main = s'.alloc.commit.main ∧
      s'.alloc.commit.main = s.alloc.commit.main := by
  obtain ⟨-, c, hc, rfl⟩ := lmdbCommit_eq hstep
  have hsame : c.useReserved.committed.main = c.main :=
    (CommitState.sameMaps_committed c).main
  exact ⟨hsame.symm, hsame.trans (CommitState.doFreeMinspace_frame hc).1⟩

theorem main_crash {c : NodeCrash K}
    (hstep : s.step cfg (.crash c) = some s') :
    s'.disk.main = s'.alloc.commit.main := by
  obtain ⟨commit, hreplay, ⟨hnone, rfl⟩ | ⟨-, hcommit⟩⟩ :=
    restart_eq (step_crash hstep).2
  · have hmain := replay_main hreplay
    rw [hnone] at hmain
    exact hmain.symm
  · exact (main_lmdbCommit hcommit).1

end Node

/-! ## The invariant -/

namespace ReadNode

/-- Entries of `commit_items` cover the difference to the last LMDB commit. -/
structure Covered (cfg : ReadConfig K P) (s : ReadNode K) : Prop where
  items : ∀ k, s.node.disk.main.lookup k = s.main.lookup k ∨
    (s.commitItems.lookup (cfg.hash k)).isSome
  committing : s.committing = true → s.node.disk.main = s.main

section

variable {cfg : ReadConfig K P} {s s' : ReadNode K}

theorem isSome_lookup_insert {m : OrderedMap ℕ ℕ} {h n : ℕ} (k : ℕ)
    (hk : (m.lookup k).isSome) : ((m.insert h n).lookup k).isSome := by
  by_cases heq : k = h
  · simp [heq]
  · rw [lookup_insert_of_ne m n heq]
    exact hk

theorem Covered.of_node (h : Covered cfg s) {node : Node K}
    (hdisk : node.disk = s.node.disk)
    (hmain : node.alloc.commit.main = s.main) (trimQueue : List SPunchItem) :
    Covered cfg { s with node := node, trimQueue := trimQueue } := by
  constructor
  · intro k
    rw [hdisk, ReadNode.main, hmain]
    exact h.items k
  · rw [hdisk, ReadNode.main, hmain]
    exact h.committing

variable [DecidableEq P]

variable {e : ReadEvent K}

theorem Covered.step (h : Covered cfg s) (hinv : s.node.Inv cfg.node)
    (hsteps : Steps cfg s e s') : Covered cfg s' := by
  cases hsteps with
  | enqueue =>
    refine ⟨?_, h.committing⟩
    intro k
    exact (h.items k).imp_right (isSome_lookup_insert _)
  | run hcan hnode hkey =>
    exact h.of_node (Node.run_frame hnode).1
      (Node.main_run_of_none hinv hkey hnode) _
  | @item e node fn n hcan hnode hkey hcount =>
    obtain ⟨items, skip, heq⟩ := skipReadingFn_eq
      { s with commitItems := s.commitItems.insert (cfg.hash fn) n } fn
    obtain ⟨hdisk, -⟩ := Node.run_frame hnode
    have hidle : s.committing = false := by
      cases e with
      | add | del => simpa [canRun] using hcan
      | _ => simp [itemKey] at hkey
    rw [heq]
    constructor
    · intro k
      by_cases hk : k = fn
      · right
        simp [hk]
      · rw [hdisk, ReadNode.main, Node.lookup_run_of_ne hinv hkey hk hnode]
        exact (h.items k).imp_right (isSome_lookup_insert _)
    · intro hcommitting
      rw [hidle] at hcommitting
      cases hcommitting
  | walCommit hidle hnode =>
    obtain ⟨hdisk, hmain⟩ := Node.main_walCommit hnode
    exact h.of_node hdisk hmain _
  | lmdbCommit hidle hskip hnode =>
    obtain ⟨hdisk, -⟩ := Node.main_lmdbCommit hnode
    exact ⟨fun k => .inl (by simp [pushTrim, ReadNode.main, hdisk]),
      fun _ => hdisk⟩
  | cleanCommitItems hcommitting =>
    have heq := h.committing hcommitting
    exact ⟨fun k => .inl (congrArg (fun m => m.lookup k) heq), fun _ => heq⟩
  | resetWal | writeExt | queueWrite | dataWrite | punch =>
    exact ⟨h.items, h.committing⟩
  | crash hnode =>
    have heq := Node.main_crash hnode
    exact ⟨fun k => .inl (congrArg (fun m => m.lookup k) heq), fun _ => heq⟩
  | reader hreader =>
    obtain ⟨items, skip, readers, next, rfl⟩ := hreader.frame
    exact ⟨h.items, h.committing⟩
  | trim htrim =>
    cases htrim with
    | _ => exact ⟨h.items, h.committing⟩

theorem Covered.getFragInfo_eq (h : Covered cfg s) {fn : K}
    (hnone : s.commitItems.lookup (cfg.hash fn) = none) (readNewest : Bool) :
    getFragInfo cfg s.node.disk.main fn readNewest =
      getFragInfo cfg s.main fn readNewest := by
  unfold getFragInfo
  rw [findFragInfo_congr]
  intro k hk
  rcases h.items k with heq | hsome
  · exact heq
  · rw [ReadConfig.hash, hk] at hsome
    rw [ReadConfig.hash] at hnone
    simp [hnone] at hsome

end

end ReadNode

end Hs5
