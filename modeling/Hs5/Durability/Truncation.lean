import Hs5.Durability.ItemInv
import Hs5.Durability.Progress

/-!
# Truncation of the log files

A log file is truncated in three places: by the data thread after it has
worked off the file and synced the data file, by the commit thread when it
starts the file anew after a commit of the index, and by the commit thread
when it changes files.  In runs from a fresh or recovered log, the data of
every record that is lost this way is in the data file and synced, and every
item is part of a committed transaction.
-/

namespace Hs5

open Transition

variable {cfg : WalConfig} {P : DataWrite → Prop}

namespace Store

variable {s s' : Store}

def Truncates (s s' : Store) (alt : Bool) : Prop :=
  ¬ (s.wal.files alt).entries <+: (s'.wal.files alt).entries

/-- The three places where a file is truncated. -/
inductive TruncationPoint (cfg : WalConfig) (s : Store) (alt : Bool) : Prop
  | dataThread {item : DataItem} (hthread : s.wal.thread = .synced item)
      (halt : alt = item.isAlt)
  | reset (hpc : s.pc = .lmdbReset true) (hwal : cfg.walFile = true)
      (hcfg : cfg.walWriteThread = false ∨ cfg.walWriteData = 0)
      (halt : alt = s.wal.useAltFile)
  | switch (hpc : s.pc = .lmdbReset true) (hwal : cfg.walFile = true)
      (hcfg : cfg.Switches) (halt : alt = !s.wal.useAltFile)

theorem truncationPoint_of_step {e : Event} {alt : Bool}
    (hs : Steps cfg s e s') (h : Truncates s s' alt) :
    TruncationPoint cfg s alt := by
  have hkept : s'.wal.files alt ≠ s.wal.files alt := by
    intro hsame
    apply h
    rw [hsame]
  cases logChange_step hs with
  | grow hgrown => exact absurd (hgrown.files alt).entries h
  | dataThread hthread hused hfiles =>
    refine .dataThread hthread ?_
    by_contra halt
    exact hkept (hfiles alt halt)
  | reset hpc hwal hcfg hused hother =>
    refine .reset hpc hwal hcfg ?_
    by_contra halt
    obtain rfl : alt = !s.wal.useAltFile := Bool.eq_not.mpr halt
    exact hkept hother
  | switch hpc hwal hcfg hused hleft =>
    refine .switch hpc hwal hcfg ?_
    by_contra halt
    obtain rfl : alt = s.wal.useAltFile := by simpa using halt
    apply h
    rw [hleft]
    exact (SyncedLog.extends_sync _ _).entries

/-- What has to hold of a file that is truncated: its data is durable in the
data file, its items are in the index. -/
structure Truncatable (s : Store) (alt : Bool) : Prop where
  data : ∀ d ∈ s.wal.records alt, Wrote s.dataFile.durable d
  items : ∀ item ∈ s.wal.loggedIn alt, item ∈ s.committed

theorem durable_of_point (h : DataInv cfg P s) {alt : Bool}
    (hp : TruncationPoint cfg s alt) {d : DataWrite}
    (hd : d ∈ s.wal.records alt) (hP : P d) : Wrote s.dataFile.durable d := by
  cases hp with
  | @dataThread item hthread halt =>
    obtain ⟨-, rfl, -⟩ := h.log.queue.synced_item (by rw [hthread]; rfl)
      (by rw [hthread]; rfl)
    obtain rfl : alt = !s.wal.useAltFile := halt
    exact h.log.synced _ hthread d hd
  | reset hpc hwal hcfg halt =>
    subst halt
    cases hthread : cfg.walWriteThread with
    | false =>
      have hlock := h.lock (by simp [hpc, CommitPc.holdsWalLock, hwal, hthread])
      simp only [LockPhase, hpc] at hlock
      exact hlock d hd
    | true =>
      have hzero : cfg.walWriteData = 0 := by simpa [hthread] using hcfg
      exact absurd hP (h.log.noData hthread hzero d hd)
  | switch hpc hwal hcfg halt =>
    subst halt
    have hpending := h.wait hcfg hwal (by rw [hpc]; rfl)
    obtain ⟨hreset, -⟩ := h.log.queue.shape.steady_of_pending
      h.log.queue.counted hpending
    exact absurd hP (h.log.other hcfg hreset d hd)

theorem committed_of_point (h : DataInv cfg P s) (hi : ItemInv s) {alt : Bool}
    (hp : TruncationPoint cfg s alt) {item : ItemId}
    (hitem : item ∈ s.wal.loggedIn alt) : item ∈ s.committed := by
  cases hp with
  | dataThread hthread halt =>
    obtain ⟨hreset, rfl, -⟩ := h.log.queue.synced_item (by rw [hthread]; rfl)
      (by rw [hthread]; rfl)
    obtain rfl : alt = !s.wal.useAltFile := halt
    exact hi.left hreset item hitem
  | reset hpc | switch hpc => exact hi.committed_of_reset ⟨_, hpc⟩ hitem

end Store

/-- The log files hold no data that a restart makes recovery write to the data
file and that is then truncated without a sync: with a data thread the file
that the first reset or switch truncates has no data records. -/
def Store.Disk.TruncationSafe (disk : Store.Disk) (cfg : WalConfig) : Prop :=
  cfg.walWriteThread = true →
    (cfg.walWriteData ≠ 0 →
      dataRecords (disk.files !WalFile.newerFile disk.files) = []) ∧
    (cfg.walWriteData = 0 →
      dataRecords (disk.files (WalFile.newerFile disk.files)) = [])

namespace Store

variable {s s' : Store}

/-- Both invariants, with all data records taken into account. -/
def TruncationInv (cfg : WalConfig) (s : Store) : Prop :=
  DataInv cfg (fun _ => True) s ∧ ItemInv s

theorem truncationInv_start {disk : Disk} (hsafe : disk.TruncationSafe cfg)
    (h : start cfg disk = some s) : TruncationInv cfg s := by
  obtain ⟨wal, hopen, rfl⟩ := Option.map_eq_some_iff.mp h
  have hopened := WalFile.opened_openWal hopen
  have hnil : ∀ {alt}, (cfg.walFile = true →
      dataRecords (disk.files alt) = []) →
      ∀ d ∈ dataRecords (disk.records cfg alt), ¬ True := by
    intro alt hempty d hd
    obtain ⟨r, hr, -⟩ := WalFile.mem_dataRecords.mp hd
    rw [dataRecords_disk (hempty (mem_disk_records hr).1)] at hd
    cases hd
  refine ⟨dataInv_initial hopened ?_ ?_, itemInv_initial hopened⟩
  · rintro ⟨hthread, hdata⟩
    refine hnil fun hwal => ?_
    rw [hopened.useAltFile, newerFile_records disk hwal]
    exact (hsafe hthread).1 hdata
  · intro hthread hdata
    refine hnil fun hwal => ?_
    rw [hopened.useAltFile, newerFile_records disk hwal]
    exact (hsafe hthread).2 hdata

/-- In every run, the counters count the queued items, a range that is
written out is not covered by a queued item, and a file is truncated only
when its data is durable in the data file and its items are in the index. -/
theorem truncatable_of_run {disk : Disk} {s₀ s : Store}
    (hsafe : disk.TruncationSafe cfg) (hstart : start cfg disk = some s₀)
    (hrun : Run (step cfg) anyStep s₀ s) :
    s.wal.Counted ∧
      (∀ off dataSize, s.wal.writtenOut off dataSize = true →
        ∀ item ∈ s.wal.unreleased, ∀ x, off ≤ x ∧ x < off + dataSize →
          ¬ (item.write.off ≤ x ∧
            x < item.write.off + item.write.data.length)) ∧
      ∀ e s' alt, step cfg s e = some s' → Truncates s s' alt →
        s.Truncatable alt := by
  obtain ⟨hdata, hitems⟩ : TruncationInv cfg s := by
    refine hrun.invariant (truncationInv_start hsafe hstart) ?_
    rintro s e s' ⟨hd, hi⟩ - hs
    exact ⟨hd.step (step_steps hs), hi.step (step_steps hs)⟩
  refine ⟨hdata.log.queue.counted, ?_, ?_⟩
  · intro off dataSize hout item hitem x hx
    exact hdata.log.queue.counted.disjoint_of_writtenOut hout hitem hx
  · intro e s' alt hs htrunc
    have hpoint := truncationPoint_of_step (step_steps hs) htrunc
    exact ⟨fun d hd => durable_of_point hdata hpoint hd trivial,
      fun item hitem => committed_of_point hdata hitems hpoint hitem⟩

/-- All data and metadata is logged, and the data thread is used. -/
def fullLog : WalConfig := ⟨true, true, -1, true⟩

def newDisk : Disk := ⟨fun _ => [], 0, [], by simp⟩

/-- Data is logged and queued, and a commit of the index changes files. -/
def changeWithData : List Event :=
  [.writeExt 0 [1] true, .logData 0, .enqueue (.items [⟨.add, [0]⟩]),
    .process true [] [] true, .enqueue (.commit .noWal), .takeCommit,
    .beginCommit false, .commitStep true, .commitStep true, .commitStep true,
    .commitStep true, .commitStep true, .commitStep true]

/-- The data thread up to the truncation of the old file. -/
def finishChange : List Event :=
  [.popItem, .itemWritten, .finishItem, .popItem, .itemWritten, .finishItem,
    .dataFileSynced]

theorem truncatable_of_run_switch :
    ∃ s₀ s s' : Store, start fullLog newDisk = some s₀ ∧
      exec (step fullLog) s₀ (changeWithData ++ finishChange) = some s ∧
      step fullLog s .finishSwitch = some s' ∧ Truncates s s' false ∧
      s.Truncatable false := by
  have hsafe : newDisk.TruncationSafe fullLog := fun _ =>
    ⟨fun _ => rfl, fun _ => rfl⟩
  obtain ⟨s₀, hstart, s, hexec, s', hs', htrunc⟩ :
      ∃ s₀ ∈ start fullLog newDisk,
      ∃ s ∈ exec (step fullLog) s₀ (changeWithData ++ finishChange),
      ∃ s' ∈ step fullLog s .finishSwitch, ¬ (s.wal.files false).entries <+:
        (s'.wal.files false).entries := by decide
  exact ⟨s₀, s, s', hstart, hexec, hs', htrunc,
    (truncatable_of_run hsafe hstart (run_of_exec hexec)).2.2
      _ _ _ hs' htrunc⟩

/-- A process stopped after a change of files, before the data thread had
truncated the old file: an object with its data in the old file is in the
index, another one is logged in the new file. -/
def stoppedAfterChange : Disk where
  files := fun alt =>
    if alt then [⟨3, .init⟩, ⟨3, .fragInfo 5 1⟩]
    else [⟨2, .init⟩, ⟨2, .dataFileData ⟨none, 0, [1]⟩⟩, ⟨2, .fragInfo 4 0⟩]
  transid := 5
  committed := [0]
  committed_of_transid := by
    intro alt r hr transid id hp hne
    cases alt
    · simp only [Bool.false_eq_true, if_false, List.mem_cons,
        List.not_mem_nil, or_false] at hr
      rcases hr with rfl | rfl | rfl <;> simp_all
    · simp only [if_true, List.mem_cons, List.not_mem_nil, or_false] at hr
      rcases hr with rfl | rfl <;> simp_all

/-- The commit at the end of the replay truncates the old file, whose data was
written to the data file by recovery but never synced. -/
theorem not_truncatable_after_restart :
    ∃ s₀ s s' : Store, start fullLog stoppedAfterChange = some s₀ ∧
      exec (step fullLog) s₀
        [.process true [] [] true, .beginStartupCommit, .commitStep true,
          .commitStep true, .commitStep true, .commitStep true,
          .commitStep true] = some s ∧
      step fullLog s (.commitStep true) = some s' ∧ Truncates s s' false ∧
      ¬ s.Truncatable false := by
  refine ⟨_, _, _, rfl, rfl, rfl, by unfold Truncates; decide, ?_⟩
  intro h
  obtain ⟨x, hx, -⟩ := h.data ⟨none, 0, [1]⟩ (by decide)
  have hx : x ∈ ([] : List DataWrite) := hx
  cases hx

end Store

end Hs5
