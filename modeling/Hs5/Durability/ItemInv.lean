import Hs5.Durability.Start

/-!
# Logged items and the index

Every item with a record in a log file is in the index, in the open
transaction, or waits to be replayed.  An index commit leaves no open items,
so whatever is in a file when the file is left or reset is in the index.
-/

namespace Hs5

open List

variable {cfg : WalConfig}

/-- The items of the metadata records of a log. -/
def loggedItems {ι γ : Type} (log : List (WalRecord ι γ)) : List ι :=
  log.filterMap fun r =>
    match r.payload with
    | .fragInfo _ item => some item
    | _ => none

variable {alt : Bool}

namespace WalFile

variable {ι γ : Type}

variable {w : WalFile ι γ} {item : ι}

theorem mem_loggedItems {log : List (WalRecord ι γ)} :
    item ∈ loggedItems log ↔
      ∃ r ∈ log, ∃ transid, r.payload = .fragInfo transid item := by
  simp only [loggedItems, mem_filterMap]
  constructor
  · rintro ⟨r, hr, hitem⟩
    refine ⟨r, hr, ?_⟩
    cases hp : r.payload <;> simp_all
  · rintro ⟨r, hr, transid, hitem⟩
    exact ⟨r, hr, by rw [hitem]⟩

def loggedIn (w : WalFile ι γ) (alt : Bool) : List ι :=
  loggedItems (w.files alt).entries

theorem loggedIn_append {p : WalPayload ι γ}
    (h : item ∈ (w.append p).loggedIn alt) :
    item ∈ w.loggedIn alt ∨ ∃ transid, p = .fragInfo transid item := by
  obtain ⟨r, hr, transid, hitem⟩ := mem_loggedItems.mp h
  by_cases halt : alt = w.useAltFile
  · subst halt
    rw [append_files_self, SyncedLog.push_entries, mem_append,
      mem_singleton] at hr
    rcases hr with hr | rfl
    · exact .inl (mem_loggedItems.mpr ⟨r, hr, transid, hitem⟩)
    · exact .inr ⟨transid, hitem⟩
  · obtain rfl : alt = !w.useAltFile := Bool.eq_not.mpr halt
    rw [append_files_not] at hr
    exact .inl (mem_loggedItems.mpr ⟨r, hr, transid, hitem⟩)

theorem loggedIn_append_not (w : WalFile ι γ) (p : WalPayload ι γ) :
    (w.append p).loggedIn (!w.useAltFile) = w.loggedIn (!w.useAltFile) := by
  unfold loggedIn
  rw [append_files_not]

theorem loggedIn_appendItems_not (w : WalFile ι γ) (transid : ℤ)
    (items : List ι) :
    (w.appendItems transid items).loggedIn (!w.useAltFile) =
        w.loggedIn (!w.useAltFile) ∧
      (w.appendItems transid items).useAltFile = w.useAltFile ∧
      (w.appendItems transid items).pendingReset = w.pendingReset := by
  induction items generalizing w with
  | nil => exact ⟨rfl, rfl, rfl⟩
  | cons item rest ih =>
    obtain ⟨hfiles, hused, hreset⟩ := ih (w.append (.fragInfo transid item))
    exact ⟨hfiles.trans (loggedIn_append_not w _), hused, hreset⟩

theorem loggedIn_appendItems {transid : ℤ} {items : List ι}
    (h : item ∈ (w.appendItems transid items).loggedIn alt) :
    item ∈ w.loggedIn alt ∨ item ∈ items := by
  induction items generalizing w with
  | nil => exact .inl h
  | cons first rest ih =>
    rcases ih h with h | h
    · rcases loggedIn_append h with h | ⟨_, h⟩
      · exact .inl h
      · right
        simp only [WalPayload.fragInfo.injEq] at h
        simp [h.2]
    · exact .inr (mem_cons_of_mem _ h)

theorem loggedIn_fsync {n : ℕ} :
    (w.fsync n).loggedIn alt = w.loggedIn alt := by
  unfold loggedIn
  by_cases halt : alt = w.useAltFile
  · subst halt
    rw [fsync_files_self, SyncedLog.sync_entries, currentFile]
  · obtain rfl : alt = !w.useAltFile := Bool.eq_not.mpr halt
    rw [fsync_files_not]

theorem loggedIn_resetCurrent {sync : Bool}
    (h : item ∈ (w.resetCurrent sync).loggedIn alt) :
    item ∈ w.loggedIn alt := by
  unfold loggedIn at *
  by_cases halt : alt = w.useAltFile
  · subst halt
    rw [resetCurrent_files_self, headerOnly_entries] at h
    simp [loggedItems] at h
  · obtain rfl : alt = !w.useAltFile := Bool.eq_not.mpr halt
    rwa [resetCurrent_files_not] at h

theorem loggedIn_switchFiles
    (h : item ∈ w.switchFiles.loggedIn alt) : item ∈ w.loggedIn alt := by
  unfold loggedIn at *
  by_cases halt : alt = w.useAltFile
  · subst halt
    rwa [switchFiles_files_self, SyncedLog.sync_entries, currentFile] at h
  · obtain rfl : alt = !w.useAltFile := Bool.eq_not.mpr halt
    rw [switchFiles_files_not, headerOnly_entries] at h
    simp [loggedItems] at h

end WalFile

namespace Store

variable {s s' : Store}

/-- Every logged item is in the index, in the open transaction, or waits to
be replayed; once an index commit is complete, none is left open. -/
structure ItemInv (s : Store) : Prop where
  logged : ∀ alt, ∀ item ∈ s.wal.loggedIn alt, item ∈ s.committed ∨
    item ∈ s.openTxn ∨ ∃ id ∈ s.startup, item = .recovered id
  replayed : s.pc ≠ .idle ∨ s.pendingCommits ≠ [] → s.startup = []
  closed : (∃ cur reset, s.pc = .lmdbFinish cur reset) ∨
    (∃ reset, s.pc = .lmdbReset reset) → s.openTxn = []
  left : s.wal.pendingReset = true →
    ∀ item ∈ s.wal.loggedIn (!s.wal.useAltFile), item ∈ s.committed

theorem ItemInv.of_logged (h : ItemInv s)
    (hlogged : ∀ alt, ∀ item ∈ s'.wal.loggedIn alt, item ∈ s.wal.loggedIn alt)
    (hcommitted : s'.committed = s.committed) (hopen : s'.openTxn = s.openTxn)
    (hstartup : s'.startup = s.startup) (hpc : s'.pc = s.pc)
    (hpending : s'.pendingCommits = s.pendingCommits)
    (hused : s'.wal.useAltFile = s.wal.useAltFile)
    (hreset : s'.wal.pendingReset = true → s.wal.pendingReset = true) :
    ItemInv s' where
  logged := by
    intro alt item hitem
    rw [hcommitted, hopen, hstartup]
    exact h.logged alt item (hlogged alt item hitem)
  replayed := by
    rw [hpc, hpending, hstartup]
    exact h.replayed
  closed := by
    rw [hpc, hopen]
    exact h.closed
  left := by
    intro hr item hitem
    rw [hused] at hitem
    rw [hcommitted]
    exact h.left (hreset hr) item (hlogged _ item hitem)

theorem ItemInv.of_commit (h : ItemInv s) (hpc : s.pc ≠ .idle)
    (hlogged : ∀ alt, ∀ item ∈ s'.wal.loggedIn alt, item ∈ s.wal.loggedIn alt)
    (hkept : ∀ item, item ∈ s.committed ∨ item ∈ s.openTxn →
      item ∈ s'.committed ∨ item ∈ s'.openTxn)
    (hstartup : s'.startup = s.startup)
    (hclosed : (∃ cur reset, s'.pc = .lmdbFinish cur reset) ∨
      (∃ reset, s'.pc = .lmdbReset reset) → s'.openTxn = [])
    (hleft : s'.wal.pendingReset = true →
      ∀ item ∈ s'.wal.loggedIn (!s'.wal.useAltFile), item ∈ s'.committed) :
    ItemInv s' := by
  have hnil : s'.startup = [] := hstartup.trans (h.replayed (.inl hpc))
  refine ⟨?_, fun _ => hnil, hclosed, hleft⟩
  intro alt item hitem
  rcases h.logged alt item (hlogged alt item hitem) with hi | hi | ⟨id, hid, -⟩
  · exact (hkept item (.inl hi)).imp_right .inl
  · exact (hkept item (.inr hi)).imp_right .inl
  · rw [h.replayed (.inl hpc)] at hid
    cases hid

variable {item : ItemId}

theorem loggedIn_data {w : WalFile ItemId Unit} {d : DataWrite}
    (h : item ∈ (w.append (.dataFileData d)).loggedIn alt) :
    item ∈ w.loggedIn alt := by
  rcases WalFile.loggedIn_append h with h | ⟨_, h⟩
  · exact h
  · cases h

theorem loggedIn_resetManual {w : WalFile ItemId Unit} {alt alt' : Bool}
    (h : item ∈ (w.resetManual alt).loggedIn alt') :
    item ∈ w.loggedIn alt' := by
  by_cases halt : alt' = alt
  · subst halt
    simp [WalFile.loggedIn, WalFile.resetManual, loggedItems] at h
  · simpa only [WalFile.loggedIn, WalFile.resetManual,
      Function.update_of_ne halt] using h

theorem itemInv_applyWork {chain : List Work}
    (hlogged : ∀ alt, ∀ item ∈ s.wal.loggedIn alt, item ∈ s.committed ∨
      item ∈ s.openTxn ∨ (∃ id ∈ s.startup, item = .recovered id) ∨
        ∃ work ∈ chain.head?, item = work.id)
    (hreplayed : s.pendingCommits ≠ [] → s.startup = []) (hpc : s.pc = .idle)
    (hleft : s.wal.pendingReset = true →
      ∀ item ∈ s.wal.loggedIn (!s.wal.useAltFile), item ∈ s.committed)
    (startup : Bool) (matched : Bool)
    (callbacks : List (List (ℕ × Bool))) (freemap : List ℕ) (logOk : Bool) :
    ItemInv (s.applyWork cfg startup chain matched callbacks freemap
      logOk) := by
  have hreplayed' : s.pc ≠ .idle ∨ s.pendingCommits ≠ [] → s.startup = [] := by
    rintro (hno | hpending)
    · exact absurd hpc hno
    · exact hreplayed hpending
  have hclosed : ∀ {openTxn : List ItemId},
      (∃ cur reset, s.pc = .lmdbFinish cur reset) ∨
        (∃ reset, s.pc = .lmdbReset reset) → openTxn = [] := by
    rw [hpc]
    rintro _ (⟨_, _, hno⟩ | ⟨_, hno⟩) <;> cases hno
  cases chain with
  | nil =>
    refine ⟨?_, hreplayed', hclosed, hleft⟩
    intro alt item hitem
    rcases hlogged alt item hitem with hi | hi | hi | ⟨_, hno, _⟩
    · exact .inl hi
    · exact .inr (.inl hi)
    · exact .inr (.inr hi)
    · cases hno
  | cons work linked =>
    refine ⟨?_, hreplayed', hclosed, ?_⟩
    swap
    · simp only [Store.applyWork]
      intro hreset item hitem
      obtain ⟨hfiles, hused, hreset'⟩ := s.wal.loggedIn_appendItems_not
        s.prevTransid _
      rw [hused, hfiles] at hitem
      exact hleft (hreset' ▸ hreset) item hitem
    intro alt item hitem
    simp only [Store.applyWork] at hitem ⊢
    rcases WalFile.loggedIn_appendItems hitem with hitem | hitem
    · rcases hlogged alt item hitem with hi | hi | hi | ⟨work', hwork, rfl⟩
      · exact .inl hi
      · exact .inr (.inl (mem_append_left _ hi))
      · exact .inr (.inr hi)
      · obtain rfl : work = work' := by simpa using hwork
        exact .inr (.inl (mem_append_right _ mem_cons_self))
    · refine .inr (.inl (mem_append_right _ ?_))
      rcases mem_append.mp hitem with hitem | hitem
      · split at hitem
        · rw [mem_singleton.mp hitem]
          exact mem_cons_self
        · cases hitem
      · exact mem_cons_of_mem _ hitem

theorem ItemInv.committed_of_reset (h : ItemInv s)
    (hpc : ∃ reset, s.pc = .lmdbReset reset)
    (hitem : item ∈ s.wal.loggedIn alt) : item ∈ s.committed := by
  obtain ⟨reset, hpc⟩ := hpc
  rcases h.logged alt item hitem with hi | hi | ⟨id, hid, -⟩
  · exact hi
  · rw [h.closed (.inr ⟨reset, hpc⟩)] at hi
    cases hi
  · rw [h.replayed (.inl (by rw [hpc]; simp))] at hid
    cases hid

theorem ItemInv.commitStep (h : ItemInv s) (hs : CommitStep cfg s s') :
    ItemInv s' := by
  have hidle : s.pc ≠ .idle := by
    cases hs with
    | _ hpc => simp [hpc]
  have hsame : ∀ item, item ∈ s.committed ∨ item ∈ s.openTxn →
      item ∈ s.committed ∨ item ∈ s.openTxn := fun _ hi => hi
  have hfiles : ∀ alt, ∀ item ∈ s.wal.loggedIn alt,
      item ∈ s.wal.loggedIn alt := fun _ _ hi => hi
  cases hs with
  | appendSync =>
    refine h.of_commit hidle ?_ hsame rfl (by simp) ?_
    · intro alt item hitem
      rcases WalFile.loggedIn_append hitem with hitem | ⟨_, hno⟩
      · exact hitem
      · cases hno
    · intro hreset item hitem
      exact h.left hreset item ((s.wal.loggedIn_append_not (.sync ())) ▸ hitem)
  | walSynced | lmdbWalSynced =>
    refine h.of_commit hidle ?_ hsame rfl (by simp) ?_
    · intro alt item hitem
      rwa [WalFile.loggedIn_fsync] at hitem
    · intro hreset item hitem
      rw [WalFile.loggedIn_fsync] at hitem
      exact h.left hreset item hitem
  | txnCommitted =>
    refine h.of_commit hidle hfiles ?_ rfl (fun _ => rfl) ?_
    · intro item hitem
      exact .inl (mem_append.mpr hitem)
    · intro hreset item hitem
      exact mem_append_left _ (h.left hreset item hitem)
  | finish hpc =>
    exact h.of_commit hidle hfiles hsame rfl
      (fun _ => h.closed (.inl ⟨_, _, hpc⟩)) h.left
  | resetLog =>
    refine h.of_commit hidle (fun _ _ => WalFile.loggedIn_resetCurrent) hsame
      rfl (by simp) ?_
    intro hreset item hitem
    exact h.left hreset item (WalFile.loggedIn_resetCurrent hitem)
  | switch hpc =>
    refine h.of_commit hidle (fun _ _ => WalFile.loggedIn_switchFiles) hsame
      rfl (by simp) ?_
    intro _ item hitem
    exact h.committed_of_reset ⟨_, hpc⟩ (WalFile.loggedIn_switchFiles hitem)
  | _ => exact h.of_commit hidle hfiles hsame rfl (by simp) h.left

theorem ItemInv.step (h : ItemInv s) {e : Event} (hs : Steps cfg s e s') :
    ItemInv s' := by
  cases hs with
  | writeExt | markDirty | pwrite | enqueue =>
    exact ⟨h.logged, h.replayed, h.closed, h.left⟩
  | logQueued | logDirect =>
    exact h.of_logged (fun _ _ => loggedIn_data) rfl rfl rfl rfl rfl rfl id
  | popItem hwal =>
    obtain ⟨item, queue, -, -, rfl⟩ := WalFile.popItem_eq_some hwal
    exact ⟨h.logged, h.replayed, h.closed, h.left⟩
  | itemWritten _ hwal =>
    obtain ⟨_, -, rfl⟩ := WalFile.itemWritten_eq_some hwal
    exact ⟨h.logged, h.replayed, h.closed, h.left⟩
  | finishItem hwal =>
    obtain ⟨item, -, ⟨-, -, rfl⟩ | ⟨-, rfl⟩⟩ := WalFile.finishItem_eq_some hwal
    · exact ⟨h.logged, h.replayed, h.closed, h.left⟩
    · exact ⟨h.logged, h.replayed, h.closed, h.left⟩
  | dataFileSynced hwal =>
    obtain ⟨item, -, rfl⟩ := WalFile.dataFileSynced_eq_some hwal
    exact ⟨h.logged, h.replayed, h.closed, h.left⟩
  | finishSwitch hwal =>
    obtain ⟨item, -, rfl⟩ := WalFile.finishSwitch_eq_some hwal
    exact h.of_logged (fun _ _ => loggedIn_resetManual) rfl rfl rfl rfl rfl rfl
      (by simp)
  | processCallback hpc | processEntry hpc =>
    apply itemInv_applyWork
    · exact fun alt item hitem =>
        (h.logged alt item hitem).imp_right (.imp_right .inl)
    · exact fun hp => h.replayed (.inr hp)
    · exact hpc
    · exact h.left
  | processStartup hpc _ hstartup =>
    apply itemInv_applyWork
    · intro alt item hitem
      rcases h.logged alt item hitem with hi | hi | ⟨id', hid, rfl⟩
      · exact .inl hi
      · exact .inr (.inl hi)
      · rw [hstartup] at hid
        rcases mem_cons.mp hid with rfl | hid
        · exact .inr (.inr (.inr ⟨_, rfl, rfl⟩))
        · exact .inr (.inr (.inl ⟨id', hid, rfl⟩))
    · intro hp
      have hnil := h.replayed (.inr hp)
      rw [hstartup] at hnil
      cases hnil
    · exact hpc
    · exact h.left
  | takeCommit _ _ hnil =>
    exact ⟨h.logged, fun _ => hnil, h.closed, h.left⟩
  | skipCommit _ _ hpending =>
    have hnil : s.startup = [] := h.replayed (.inr (by simp [hpending]))
    exact ⟨h.logged, fun _ => hnil, h.closed, h.left⟩
  | beginWalCommit _ _ hpending | beginLmdbCommit _ _ hpending =>
    have hnil : s.startup = [] := h.replayed (.inr (by simp [hpending]))
    exact ⟨h.logged, fun _ => hnil, by simp, h.left⟩
  | beginStartupCommit _ _ hnil =>
    exact ⟨h.logged, fun _ => hnil, by simp, h.left⟩
  | commitStep hs => exact h.commitStep hs

theorem itemInv_initial {disk : Disk} {wal : WalFile ItemId Unit}
    (h : WalFile.Opened (disk.records cfg) wal) :
    ItemInv (initial cfg disk wal) where
  logged := by
    intro alt item hitem
    obtain ⟨r, hr, transid, hp⟩ := WalFile.mem_loggedItems.mp hitem
    rcases h.entries alt r hr with hr | ⟨seqNo, rfl⟩
    · obtain ⟨hwal, r₀, hr₀, rfl⟩ := mem_disk_records hr
      obtain ⟨id, hid, rfl⟩ := recoveredRecord_fragInfo hp
      by_cases htransid : transid = disk.transid
      · subst htransid
        refine .inr (.inr ⟨id, ?_, rfl⟩)
        have hmem : id ∈ replayedItems disk.transid (disk.files alt) :=
          mem_filterMap.mpr ⟨r₀, hr₀, by simp [hid]⟩
        simp only [initial, Disk.startupItems, hwal, if_true, mem_append]
        by_cases halt : alt = wal.useAltFile
        · subst halt
          exact .inr hmem
        · obtain rfl : alt = !wal.useAltFile := Bool.eq_not.mpr halt
          exact .inl hmem
      · exact .inl (mem_map_of_mem (disk.committed_of_transid alt r₀ hr₀
          transid id hid htransid))
    · cases hp
  replayed := by simp [initial]
  closed := by simp [initial]
  left := by
    intro hreset
    have hno : (initial cfg disk wal).wal.pendingReset = false := h.pendingReset
    rw [hno] at hreset
    cases hreset

end Store

end Hs5
