import Hs5.Wal.RestartInv

/-!
# Selection of the file in use and records after a restart

Two properties of the log over any number of crashes and restarts.  The new
process goes on with the file that has the greater number in its header and
reads the other file first; and it gets back every record that was synced.
-/

namespace Hs5

open Option List

namespace LogNode

open Transition

variable {fmt : WalFormat}

/-! ## Selection -/

/-- From every state of a run that meets the condition, a crash that meets
it leaves files on which the new process goes on with the one whose header has
the greater number, after it has read the other one. -/
theorem selected_of_run {transid : ℤ} {n₀ n : LogNode}
    (hstart : start fmt transid = some n₀)
    (hrun : Run (step fmt) (Ok fmt) n₀ n) {c : Crash}
    (hcrash : ∀ alt, (n.files alt).CanCrash fmt (c.file alt))
    (hok : n.Ok fmt (.crash c)) :
    ∃ n', n.step fmt (.crash c) = some n' ∧
      (∀ q, headerOf ((n.files !n'.useAltFile).left
          (c.file !n'.useAltFile)) = some q →
        ∃ q', headerOf ((n.files n'.useAltFile).left
          (c.file n'.useAltFile)) = some q' ∧ q < q') ∧
      n'.recovered =
        (resultOf c.transid (wholeRecords ((n.files !n'.useAltFile).left
          (c.file !n'.useAltFile)))).append
        (resultOf c.transid (wholeRecords ((n.files n'.useAltFile).left
          (c.file n'.useAltFile)))) := by
  obtain ⟨n', hrestart, -, hnewer, hrecovered⟩ :=
    ((inv_of_run hstart hrun).found hcrash hok).restart_eq c.transid
  refine ⟨n', ?_, hnewer, hrecovered⟩
  rw [LogNode.step, if_pos hcrash, hrestart]

/-- A crash that keeps a number of chunks of each file and leaves bytes
behind them. -/
def keep (primary alt : ℕ) (tail : Bool → Bytes) (transid : ℤ) : Crash where
  file := fun isAlt => ⟨none, if isAlt then alt else primary, tail isAlt⟩
  transid := transid

/-- An item and the sync of it, and then a change of files. -/
def itemAndSwitch : List Event :=
  [.append (.fragInfo 4 ⟨⟨.del, [0x61], -1, 0, 0, [], [], none⟩, []⟩),
    .sync false 2, .switchFiles]

/-- The header of the new file is lost in the change. -/
def headerLost : Crash := keep 2 0 (fun _ => []) 4

/-- Then the process goes on with the file that was left. -/
theorem selected_of_run_header_lost :
    ∃ n₀ n n', start crc32cFormat 4 = some n₀ ∧
      exec (guarded (step crc32cFormat) (Ok crc32cFormat)) n₀ itemAndSwitch =
        some n ∧
      n.step crc32cFormat (.crash headerLost) = some n' ∧
      n'.useAltFile = false := by
  obtain ⟨n₀, hstart, n, hexec, hcrash, hok, hfalse, htrue⟩ :
      ∃ n₀ ∈ start crc32cFormat 4, ∃ n ∈ exec (guarded (step crc32cFormat)
        (Ok crc32cFormat)) n₀ itemAndSwitch,
      (∀ alt, (n.files alt).CanCrash crc32cFormat (headerLost.file alt)) ∧
        n.Ok crc32cFormat (.crash headerLost) ∧
        headerOf ((n.files false).left (headerLost.file false)) = some 2 ∧
        headerOf ((n.files true).left (headerLost.file true)) = none := by
    decide +kernel
  obtain ⟨n', hstep, hnewer, -⟩ := selected_of_run hstart
    (run_of_exec_guarded hexec) hcrash hok
  refine ⟨n₀, n, n', hstart, hexec, hstep, ?_⟩
  by_contra huse
  rw [Bool.not_eq_false] at huse
  obtain ⟨q', hq', -⟩ := hnewer 2 (by rw [huse]; exact hfalse)
  rw [huse, htrue] at hq'
  cases hq'

/-- The header of the new file is torn in the change. -/
def headerTorn : Crash :=
  keep 2 0 (fun isAlt => if isAlt then [200, 1, 77, 3, 40] else []) 4

/-- Then the constructor takes the number of the primary file for that of the
alternate one and aborts. -/
theorem not_selected_header_torn :
    ∃ n₀ n, start crc32cFormat 4 = some n₀ ∧
      exec (guarded (step crc32cFormat) (Ok crc32cFormat)) n₀ itemAndSwitch =
        some n ∧
      (∀ alt, (n.files alt).CanCrash crc32cFormat (headerTorn.file alt)) ∧
      headerOf ((n.files false).left (headerTorn.file false)) = some 2 ∧
      openSeqNo crc32cFormat 1
          (chunkBytes crc32cFormat
            ((n.files false).left (headerTorn.file false))) =
        some (2, 2) ∧
      openSeqNo crc32cFormat 2
          (chunkBytes crc32cFormat
            ((n.files true).left (headerTorn.file true))) =
        some (2, 2) ∧
      n.step crc32cFormat (.crash headerTorn) = none := by
  obtain ⟨n₀, hstart, n, hexec, hcrash, hfalse, hprimary, halt, hnone⟩ :
      ∃ n₀ ∈ start crc32cFormat 4, ∃ n ∈ exec (guarded (step crc32cFormat)
        (Ok crc32cFormat)) n₀ itemAndSwitch,
      (∀ alt, (n.files alt).CanCrash crc32cFormat (headerTorn.file alt)) ∧
        headerOf ((n.files false).left (headerTorn.file false)) = some 2 ∧
        openSeqNo crc32cFormat 1 (chunkBytes crc32cFormat
          ((n.files false).left (headerTorn.file false))) = some (2, 2) ∧
        openSeqNo crc32cFormat 2 (chunkBytes crc32cFormat
          ((n.files true).left (headerTorn.file true))) = some (2, 2) ∧
        (n.step crc32cFormat (.crash headerTorn)).isNone = true := by
    decide +kernel
  exact ⟨n₀, n, hstart, hexec, hcrash, hfalse, hprimary, halt,
    isNone_iff_eq_none.mp hnone⟩

/-! ## Records written after a restart -/

theorem recordsOf_map (log : List (WalRecord FragInfo CommitInfo))
    (chunks : List Chunk) :
    recordsOf (log.map .record ++ chunks) = log ++ recordsOf chunks := by
  simp [recordsOf, filterMap_map]

theorem recordsOf_eq_of_form {chunks : List Chunk}
    {log : List (WalRecord FragInfo CommitInfo)} (h : Form fmt chunks log) :
    recordsOf chunks = log := by
  cases h with
  | whole log =>
    have hmap := recordsOf_map log []
    have hnil : recordsOf [] = [] := rfl
    rwa [append_nil, hnil, append_nil] at hmap
  | torn log tail hne hstop =>
    rw [recordsOf_map]
    simp [recordsOf]

/-- Recovery after the crash returns what some logs say that start with all
records synced in each file and hold nothing that was not written. -/
def Returned (n : LogNode) (c : Crash) (n' : LogNode) : Prop :=
  ∃ log : Bool → List (WalRecord FragInfo CommitInfo),
    (∀ alt, recordsOf (n.files alt).log.durable <+: log alt ∧
      ∃ chunks ∈ (n.files alt).contents, log alt <+: recordsOf chunks) ∧
    n'.recovered =
      (resultOf c.transid (log !n'.useAltFile)).append
        (resultOf c.transid (log n'.useAltFile))

theorem durable_prefix_left {n : LogNode} (h : n.Inv fmt) {alt : Bool}
    {c : FileCrash} (hcrash : (n.files alt).CanCrash fmt c)
    (htail : ¬ ChecksumValid fmt c.tail ∧ SizeFieldOk c.tail) :
    recordsOf (n.files alt).log.durable <+:
      wholeRecords ((n.files alt).left c) := by
  have hbase := h.contents alt _ (base_mem_contents hcrash)
  rw [(contentOk_left hbase hcrash htail).1]
  cases hs : c.source with
  | none =>
    have hentries : (n.files alt).base c = (n.files alt).log.entries := by
      rw [LogFile.base, hs]
    rw [hentries] at hbase ⊢
    rw [SyncedLog.durable, recordsOf_eq_of_form (hbase.form.take _)]
    exact take_prefix_take_left (hcrash.1 hs)
  | some i =>
    have hold : (n.files alt).old ≠ [] := by
      intro hnil
      have hlt := hcrash.2.1 i hs
      rw [hnil] at hlt
      cases hlt
    rw [SyncedLog.durable, (n.files alt).unsynced hold]
    exact List.nil_prefix

/-- From every state of a run that meets the condition, recovery after a
crash that meets it returns everything that was synced. -/
theorem returned_of_run {transid : ℤ} {n₀ n : LogNode}
    (hstart : start fmt transid = some n₀)
    (hrun : Run (step fmt) (Ok fmt) n₀ n) {c : Crash}
    (hcrash : ∀ alt, (n.files alt).CanCrash fmt (c.file alt))
    (hok : n.Ok fmt (.crash c)) :
    ∃ n', n.step fmt (.crash c) = some n' ∧ n.Returned c n' := by
  have hinv := inv_of_run hstart hrun
  obtain ⟨n', hrestart, -, -, hrecovered⟩ :=
    (hinv.found hcrash hok).restart_eq c.transid
  refine ⟨n', ?_, fun alt =>
    wholeRecords ((n.files alt).left (c.file alt)), ?_, hrecovered⟩
  · rw [LogNode.step, if_pos hcrash, hrestart]
  · intro alt
    have hmem := base_mem_contents (hcrash alt)
    have hbase := hinv.contents alt _ hmem
    refine ⟨durable_prefix_left hinv (hcrash alt) (hok.1 alt), _, hmem, ?_⟩
    dsimp only
    rw [(contentOk_left hbase (hcrash alt) (hok.1 alt)).1,
      recordsOf_eq_of_form hbase.form]
    exact List.take_prefix _ _

def someCommit : CommitInfo := ⟨8192, 4096, 8192, 0, 5, 1, 1, []⟩

/-- A crash with a torn tail behind an item; the replay of the item resets
the file, and then a commit is written and synced. -/
def itemReplayed : List Event :=
  [.append (.fragInfo 4 ⟨⟨.del, [0x61], -1, 0, 0, [], [], none⟩, []⟩),
    .sync false 2,
    .crash (keep 2 0 (fun isAlt => if isAlt then [] else [1, 2, 3]) 4),
    .reset, .append (.sync someCommit), .sync false 2]

theorem returned_of_run_reset :
    ∃ n₀ n n', start crc32cFormat 4 = some n₀ ∧
      exec (guarded (step crc32cFormat) (Ok crc32cFormat)) n₀ itemReplayed =
        some n ∧
      recordsOf (n.files false).log.durable =
        [⟨3, .init⟩, ⟨3, .sync someCommit⟩] ∧
      n.step crc32cFormat (.crash (keep 2 0 (fun _ => []) 5)) = some n' ∧
      n.Returned (keep 2 0 (fun _ => []) 5) n' := by
  obtain ⟨n₀, hstart, n, hexec, hcrash, hok, hdurable⟩ :
      ∃ n₀ ∈ start crc32cFormat 4, ∃ n ∈ exec (guarded (step crc32cFormat)
        (Ok crc32cFormat)) n₀ itemReplayed,
      (∀ alt, (n.files alt).CanCrash crc32cFormat
          ((keep 2 0 (fun _ => []) 5).file alt)) ∧
        n.Ok crc32cFormat (.crash (keep 2 0 (fun _ => []) 5)) ∧
        recordsOf (n.files false).log.durable =
          [⟨3, .init⟩, ⟨3, .sync someCommit⟩] := by decide +kernel
  obtain ⟨n', hstep, hreturned⟩ := returned_of_run hstart
    (run_of_exec_guarded hexec) hcrash hok
  exact ⟨n₀, n, n', hstart, hexec, hdurable, hstep, hreturned⟩

/-- A crash leaves torn bytes behind the header and there is nothing to
replay; a commit is written behind them and synced. -/
def commitBehindTorn : List Event :=
  [.crash (keep 1 0 (fun isAlt => if isAlt then [] else [1, 2, 3]) 4),
    .append (.sync someCommit), .sync false 3]

theorem resultOf_commitInfo_ne_none {transid : ℤ} {seqNo : ℤ}
    {info : CommitInfo} {log : List (WalRecord FragInfo CommitInfo)}
    (h : ⟨seqNo, .sync info⟩ ∈ log) :
    (resultOf transid log).commitInfo ≠ none := by
  have hmem : info ∈ syncsOf log := mem_filterMap.mpr ⟨_, h, rfl⟩
  intro hnone
  rw [resultOf, getLast?_eq_none_iff] at hnone
  rw [hnone] at hmem
  cases hmem

theorem append_commitInfo_ne_none {ret ret' : ReadResult}
    (h : ret.commitInfo ≠ none ∨ ret'.commitInfo ≠ none) :
    (ret.append ret').commitInfo ≠ none := by
  cases hnewer : ret'.commitInfo with
  | some info => simp [ReadResult.append, hnewer]
  | none =>
    have holder := h.resolve_right (fun hne => hne hnewer)
    simpa [ReadResult.append, hnewer] using holder

theorem Returned.commitInfo_ne_none {n n' : LogNode} {c : Crash}
    (h : n.Returned c n') {alt : Bool} {seqNo : ℤ} {info : CommitInfo}
    (hmem : ⟨seqNo, .sync info⟩ ∈ recordsOf (n.files alt).log.durable) :
    n'.recovered.commitInfo ≠ none := by
  obtain ⟨log, hlog, heq⟩ := h
  have hsome : (resultOf c.transid (log alt)).commitInfo ≠ none :=
    resultOf_commitInfo_ne_none ((hlog alt).1.subset hmem)
  rw [heq]
  apply append_commitInfo_ne_none
  by_cases huse : alt = n'.useAltFile
  · right
    rwa [← huse]
  · left
    rwa [← Bool.eq_not.mpr huse]

/-- The commit is synced and not returned. -/
theorem not_returned_behind_torn :
    ∃ n₀ n n', start crc32cFormat 4 = some n₀ ∧
      exec (step crc32cFormat) n₀ commitBehindTorn = some n ∧
      recordsOf (n.files false).log.durable =
        [⟨2, .init⟩, ⟨2, .sync someCommit⟩] ∧
      n.step crc32cFormat (.crash (keep 3 0 (fun _ => []) 4)) = some n' ∧
      n'.recovered = ⟨[], [], none⟩ ∧
      ¬ n.Returned (keep 3 0 (fun _ => []) 4) n' := by
  obtain ⟨n₀, hstart, n, hexec, hdurable, n', hstep, hrecovered⟩ :
      ∃ n₀ ∈ start crc32cFormat 4,
      ∃ n ∈ exec (step crc32cFormat) n₀ commitBehindTorn,
        recordsOf (n.files false).log.durable =
          [⟨2, .init⟩, ⟨2, .sync someCommit⟩] ∧
        ∃ n' ∈ n.step crc32cFormat (.crash (keep 3 0 (fun _ => []) 4)),
          n'.recovered = ⟨[], [], none⟩ := by decide +kernel
  refine ⟨n₀, n, n', hstart, hexec, hdurable, hstep, hrecovered, ?_⟩
  intro hreturned
  have hmem : ⟨2, .sync someCommit⟩ ∈
      recordsOf (n.files false).log.durable := by
    rw [hdurable]
    simp
  apply hreturned.commitInfo_ne_none hmem
  rw [hrecovered]

end LogNode

end Hs5
