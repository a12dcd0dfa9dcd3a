import Hs5.Wal.Restart

/-!
# What a restart finds

Contents of a log file that can be read, the invariant that a process keeps
as long as it appends nothing behind torn bytes, and the restart on files that
satisfy it.  The sequence numbers do the work: a header gets a number above
all numbers in both files, so no two headers that a crash can bring back are
confused.
-/

namespace Hs5

open List Transition

/-! ## Contents that can be read -/

variable {fmt : WalFormat}

/-- Records, and at most one piece of torn bytes at their end. -/
inductive Form (fmt : WalFormat) :
    List Chunk → List (WalRecord FragInfo CommitInfo) → Prop
  | whole (log : List (WalRecord FragInfo CommitInfo)) :
      Form fmt (log.map .record) log
  | torn (log : List (WalRecord FragInfo CommitInfo)) (tail : Bytes)
      (hne : tail ≠ []) (hstop : scanRecord fmt tail = .stop) :
      Form fmt (log.map .record ++ [.torn tail]) log

@[simp]
theorem wholeRecords_map (log : List (WalRecord FragInfo CommitInfo))
    (chunks : List Chunk) :
    wholeRecords (log.map .record ++ chunks) = log ++ wholeRecords chunks := by
  induction log with
  | nil => rfl
  | cons r log ih => simp [wholeRecords, ih]

theorem chunkBytes_map (log : List (WalRecord FragInfo CommitInfo)) :
    chunkBytes fmt (log.map .record) = encodeLog fmt log := by
  simp only [chunkBytes, encodeLog, flatMap_map]
  rfl

variable {log : List (WalRecord FragInfo CommitInfo)} {chunks : List Chunk}
  {p : WalPayload FragInfo CommitInfo} {seqNo : ℤ}

section

variable (h : Form fmt chunks log)

include h

theorem Form.wholeRecords_eq : wholeRecords chunks = log := by
  cases h with
  | whole log =>
    have hmap := wholeRecords_map log []
    simpa [wholeRecords] using hmap
  | torn log tail hne hstop => simp [wholeRecords]

theorem Form.holds
    (hfits : LogFits fmt log) : Holds fmt (chunkBytes fmt chunks) log := by
  refine ⟨hfits, ?_⟩
  cases h with
  | whole log => exact ⟨[], rfl, by rw [chunkBytes_map, append_nil]⟩
  | torn log tail hne hstop =>
    refine ⟨tail, hstop, ?_⟩
    simp only [chunkBytes, flatMap_append, flatMap_singleton]
    rw [← chunkBytes, chunkBytes_map]
    rfl

theorem Form.bytes_eq_nil (hfits : LogFits fmt log)
    (hbytes : chunkBytes fmt chunks = []) : chunks = [] := by
  have hholds := h.holds hfits
  rw [hbytes] at hholds
  have hlog := hholds.log_eq_nil
  cases h with
  | whole log => rw [hlog, map_nil]
  | torn log tail hne hstop =>
    subst hlog
    simp [chunkBytes, Chunk.bytes] at hbytes
    exact absurd hbytes hne

theorem Form.eq_map (hwhole : ∀ ch ∈ chunks, ch.isTorn = false) :
    chunks = log.map .record := by
  cases h with
  | whole log => rfl
  | torn log tail hne hstop =>
    have htorn := hwhole (.torn tail) (by simp)
    cases htorn

end

theorem Form.head_torn (h : Form fmt chunks [])
    (hne : chunkBytes fmt chunks ≠ []) :
    chunks.head?.any Chunk.isTorn = true := by
  cases h with
  | whole => exact absurd rfl hne
  | torn tail htail hstop => rfl

theorem Form.left (h : Form fmt chunks log) {k : ℕ} {tail : Bytes}
    (hstop : scanRecord fmt tail = .stop) (hlast : tail = [] ∨
      (chunks.take k).getLast?.all (fun ch => !ch.isTorn) = true) :
    Form fmt (chunks.take k ++ if tail = [] then [] else [.torn tail])
      (log.take k) := by
  cases h with
  | whole log =>
    rw [← map_take]
    by_cases htail : tail = []
    · rw [if_pos htail, append_nil]
      exact .whole _
    · rw [if_neg htail]
      exact .torn _ tail htail hstop
  | torn log tail' hne' hstop' =>
    rw [take_append, ← map_take, length_map]
    cases hk : k - log.length with
    | zero =>
      rw [take_zero, append_nil]
      by_cases htail : tail = []
      · rw [if_pos htail, append_nil]
        exact .whole _
      · rw [if_neg htail]
        exact .torn _ tail htail hstop
    | succ j =>
      have hall : log.take k = log := take_of_length_le (by omega)
      rw [take_append, length_map, hk] at hlast
      have htail : tail = [] := by
        rcases hlast with htail | hlast
        · exact htail
        · simp [Chunk.isTorn] at hlast
      have hone : [Chunk.torn tail'].take (j + 1) = [Chunk.torn tail'] :=
        take_of_length_le (by simp)
      rw [if_pos htail, append_nil, hall, hone]
      exact .torn log tail' hne' hstop'

theorem Form.take (h : Form fmt chunks log)
    (k : ℕ) : Form fmt (chunks.take k) (log.take k) := by
  have hleft := h.left (k := k) (scanRecord_nil fmt) (.inl rfl)
  rwa [if_pos rfl, append_nil] at hleft

/-! ## Logs that are read -/

theorem logFits_nil : LogFits fmt [] := ⟨rfl, by simp⟩

theorem logFits_header (h : IsInt64 seqNo) :
    LogFits fmt [⟨seqNo, .init⟩] :=
  ⟨rfl, by simpa using recordFits_header h⟩

theorem LogFits.take (h : LogFits fmt log)
    (k : ℕ) : LogFits fmt (log.take k) := by
  refine ⟨?_, fun r hr => h.fits r (mem_of_mem_take hr)⟩
  rcases (h.logReadable 0).cases with rfl | ⟨seqNo, entries, rfl, -, hentries⟩
  · rw [take_nil]
    rfl
  · cases k with
    | zero => rfl
    | succ k =>
      have hread := h.readable
      simp only [take_succ_cons, WalFile.readable,
        all_eq_true] at hread ⊢
      exact fun r hr => hread r (mem_of_mem_take hr)

theorem LogFits.append (h : LogFits fmt log)
    (hheader : WalFile.headerSeqNo log = some seqNo)
    (hfits : RecordFits fmt ⟨seqNo, p⟩) (hp : p ≠ .init) :
    LogFits fmt (log ++ [⟨seqNo, p⟩]) := by
  rcases (h.logReadable 0).cases with rfl | ⟨seqNo', entries, rfl, -, -⟩
  · cases hheader
  · obtain rfl : seqNo' = seqNo := by
      simpa [WalFile.headerSeqNo] using hheader
    constructor
    · have hread := h.readable
      simp only [cons_append, WalFile.readable, all_append,
        all_cons, all_nil, Bool.and_true, decide_true] at hread ⊢
      rw [hread]
    · intro r hr
      rcases mem_append.mp hr with hr | hr
      · exact h.fits r hr
      · rw [mem_singleton.mp hr]
        exact hfits

theorem headerSeqNo_append (hne : log ≠ [])
    (r : WalRecord FragInfo CommitInfo) :
    WalFile.headerSeqNo (log ++ [r]) = WalFile.headerSeqNo log := by
  cases log with
  | nil => exact absurd rfl hne
  | cons r' log =>
    obtain ⟨seqNo, payload⟩ := r'
    cases payload <;> rfl

theorem headerSeqNo_take {k : ℕ}
    (h : WalFile.headerSeqNo (log.take k) = some seqNo) :
    WalFile.headerSeqNo log = some seqNo := by
  cases k with
  | zero => cases h
  | succ k =>
    cases log with
    | nil => cases h
    | cons r log =>
      obtain ⟨seqNo', payload⟩ := r
      cases payload with
      | init => exact h
      | fragInfo | dataFileData | sync => cases h

/-! ## The invariant -/

def LogFile.contents (f : LogFile) : List (List Chunk) := f.log.entries :: f.old

def headerOf (chunks : List Chunk) : Option ℤ :=
  WalFile.headerSeqNo (wholeRecords chunks)

/-- A content that can be read, with a number up to `seqNo`. -/
structure ContentOk (fmt : WalFormat) (seqNo : ℤ) (chunks : List Chunk) :
    Prop where
  form : Form fmt chunks (wholeRecords chunks)
  fits : LogFits fmt (wholeRecords chunks)
  header : ∀ q, headerOf chunks = some q → 2 ≤ q ∧ q ≤ seqNo

/-- Every content can be read, and no header of one file has the number of a
header of the other. -/
structure LogNode.Contents (fmt : WalFormat) (n : LogNode) : Prop where
  contents : ∀ alt, ∀ chunks ∈ (n.files alt).contents,
    ContentOk fmt n.seqNo chunks
  distinct : ∀ chunks ∈ (n.files false).contents,
    ∀ chunks' ∈ (n.files true).contents, ∀ q,
      headerOf chunks = some q → headerOf chunks' ≠ some q
  seqNo_pos : 1 ≤ n.seqNo

structure LogNode.Inv (fmt : WalFormat) (n : LogNode) : Prop extends
    n.Contents fmt where
  current : ∀ q, headerOf (n.files n.useAltFile).log.entries = some q →
    q = n.seqNo
  used : (n.files n.useAltFile).log.entries ≠ []

theorem ContentOk.mono {seqNo seqNo' : ℤ} (h : ContentOk fmt seqNo chunks)
    (hle : seqNo ≤ seqNo') :
    ContentOk fmt seqNo' chunks :=
  ⟨h.form, h.fits, fun q hq => ⟨(h.header q hq).1, (h.header q hq).2.trans hle⟩⟩

theorem contentOk_nil (seqNo : ℤ) : ContentOk fmt seqNo [] :=
  ⟨.whole [], logFits_nil, fun q hq => by cases hq⟩

theorem contentOk_header (fmt : WalFormat) (h : IsInt64 seqNo)
    (hpos : 2 ≤ seqNo) : ContentOk fmt seqNo [.record ⟨seqNo, .init⟩] := by
  refine ⟨.whole [⟨seqNo, .init⟩], logFits_header h, ?_⟩
  intro q hq
  obtain rfl : seqNo = q := by
    simpa [headerOf, wholeRecords, WalFile.headerSeqNo] using hq
  exact ⟨hpos, le_rfl⟩

theorem ContentOk.left {k : ℕ} {tail : Bytes} (h : ContentOk fmt seqNo chunks)
    (hstop : scanRecord fmt tail = .stop) (hlast : tail = [] ∨
      (chunks.take k).getLast?.all (fun ch => !ch.isTorn) = true) :
    wholeRecords (chunks.take k ++ if tail = [] then [] else [.torn tail]) =
        (wholeRecords chunks).take k ∧
      ContentOk fmt seqNo
        (chunks.take k ++ if tail = [] then [] else [.torn tail]) := by
  have hform := h.form.left hstop hlast
  have hrecords := hform.wholeRecords_eq
  refine ⟨hrecords, ?_, ?_, ?_⟩
  · rwa [hrecords]
  · rw [hrecords]
    exact h.fits.take k
  · intro q hq
    rw [headerOf, hrecords] at hq
    exact h.header q (headerSeqNo_take hq)

theorem ContentOk.append (h : ContentOk fmt seqNo chunks)
    (hwhole : ∀ ch ∈ chunks, ch.isTorn = false)
    (hheader : headerOf chunks = some seqNo)
    (hfits : RecordFits fmt ⟨seqNo, p⟩) (hp : p ≠ .init) :
    headerOf (chunks ++ [.record ⟨seqNo, p⟩]) = headerOf chunks ∧
      ContentOk fmt seqNo (chunks ++ [.record ⟨seqNo, p⟩]) := by
  have hne : wholeRecords chunks ≠ [] := by
    intro hnil
    rw [headerOf, hnil] at hheader
    cases hheader
  have hmap := h.form.eq_map hwhole
  have hrecords : wholeRecords (chunks ++ [.record ⟨seqNo, p⟩]) =
      wholeRecords chunks ++ [⟨seqNo, p⟩] := by
    rw [hmap, wholeRecords_map, ← hmap]
    rfl
  have hsame : headerOf (chunks ++ [.record ⟨seqNo, p⟩]) = headerOf chunks := by
    rw [headerOf, hrecords, headerSeqNo_append hne]
    rfl
  refine ⟨hsame, ?_, ?_, ?_⟩
  · have hform : Form fmt _ (wholeRecords chunks ++ [⟨seqNo, p⟩]) := .whole _
    rw [map_append, ← hmap] at hform
    rw [hrecords]
    exact hform
  · rw [hrecords]
    exact h.fits.append hheader hfits hp
  · rw [hsame]
    exact h.header

namespace LogNode

theorem Contents.of_headers {n n' : LogNode} (h : n.Contents fmt)
    (hle : n.seqNo ≤ n'.seqNo)
    (hcontents : ∀ alt, ∀ chunks ∈ (n'.files alt).contents,
      ContentOk fmt n'.seqNo chunks ∧ ∀ q, headerOf chunks = some q →
        (∃ old ∈ (n.files alt).contents, headerOf old = some q) ∨
          alt = n'.useAltFile ∧ n.seqNo < q)
    (hcurrent : ∀ q, headerOf (n'.files n'.useAltFile).log.entries = some q →
      q = n'.seqNo)
    (hused : (n'.files n'.useAltFile).log.entries ≠ []) : n'.Inv fmt := by
  refine ⟨⟨fun alt chunks hc => (hcontents alt chunks hc).1, ?_,
    h.seqNo_pos.trans hle⟩, hcurrent, hused⟩
  intro chunks hc chunks' hc' q hq hq'
  have hold : ∀ alt, ∀ old ∈ (n.files alt).contents, headerOf old = some q →
      q ≤ n.seqNo :=
    fun alt old hmem hq => ((h.contents alt old hmem).header q hq).2
  rcases (hcontents false chunks hc).2 q hq with ⟨old, hmem, hold₀⟩ | ⟨ha, hlt⟩
  · rcases (hcontents true chunks' hc').2 q hq' with
      ⟨old', hmem', hold₁⟩ | ⟨-, hlt⟩
    · exact h.distinct old hmem old' hmem' q hold₀ hold₁
    · have hq_le := hold false old hmem hold₀
      omega
  · rcases (hcontents true chunks' hc').2 q hq' with
      ⟨old', hmem', hold₁⟩ | ⟨ha', -⟩
    · have hq_le := hold true old' hmem' hold₁
      omega
    · rw [← ha] at ha'
      cases ha'

@[simp]
theorem modify_self (n : LogNode) (alt : Bool) (f : LogFile → LogFile) :
    (n.modify alt f).files alt = f (n.files alt) :=
  Function.update_self _ _ _

@[simp]
theorem modify_not (n : LogNode) (alt : Bool) (f : LogFile → LogFile) :
    (n.modify alt f).files (!alt) = n.files (!alt) :=
  Function.update_of_ne (by simp) _ _

variable {files : Bool → LogFile} {n : LogNode} {transid : ℤ}

theorem Inv.modify (h : n.Inv fmt) {alt : Bool} {f : LogFile → LogFile}
    (hcontents : ∀ chunks ∈ (f (n.files alt)).contents,
      ContentOk fmt n.seqNo chunks ∧ ∀ q, headerOf chunks = some q →
        ∃ old ∈ (n.files alt).contents, headerOf old = some q)
    (hcurrent : alt = n.useAltFile →
      headerOf (f (n.files alt)).log.entries =
          headerOf (n.files alt).log.entries ∧
        (f (n.files alt)).log.entries ≠ []) : (n.modify alt f).Inv fmt := by
  have hfiles : ∀ alt', (n.modify alt f).files alt' =
      if alt' = alt then f (n.files alt) else n.files alt' := by
    intro alt'
    by_cases heq : alt' = alt
    · subst heq
      simp
    · obtain rfl : alt' = !alt := Bool.eq_not.mpr heq
      simp
  have hle : n.seqNo ≤ (n.modify alt f).seqNo := le_rfl
  apply h.toContents.of_headers hle
  · intro alt' chunks hc
    rw [hfiles] at hc
    by_cases heq : alt' = alt
    · rw [if_pos heq] at hc
      subst heq
      exact ⟨(hcontents chunks hc).1,
        fun q hq => .inl ((hcontents chunks hc).2 q hq)⟩
    · rw [if_neg heq] at hc
      exact ⟨h.contents alt' chunks hc, fun q hq => .inl ⟨chunks, hc, hq⟩⟩
  · intro q hq
    change headerOf ((n.modify alt f).files n.useAltFile).log.entries = _ at hq
    rw [hfiles] at hq
    by_cases heq : n.useAltFile = alt
    · rw [if_pos heq, (hcurrent heq.symm).1, ← heq] at hq
      exact h.current q hq
    · rw [if_neg heq] at hq
      exact h.current q hq
  · change ((n.modify alt f).files n.useAltFile).log.entries ≠ []
    rw [hfiles]
    by_cases heq : n.useAltFile = alt
    · rw [if_pos heq]
      exact (hcurrent heq.symm).2
    · rw [if_neg heq]
      exact h.used

theorem Inv.headerOf_current (h : n.Inv fmt)
    (hwhole : ∀ ch ∈ (n.files n.useAltFile).log.entries,
      ch.isTorn = false) :
    headerOf (n.files n.useAltFile).log.entries = some n.seqNo := by
  have hok := h.contents n.useAltFile _ (mem_cons_self ..)
  have hmap := hok.form.eq_map hwhole
  cases hheader : headerOf (n.files n.useAltFile).log.entries with
  | none =>
    have hnil := hok.fits.headerSeqNo_eq_none.mp hheader
    rw [hnil] at hmap
    exact absurd hmap h.used
  | some q => rw [h.current q hheader]

theorem Inv.append (h : n.Inv fmt) (hp : p ≠ .init)
    (hwhole : ∀ ch ∈ (n.files n.useAltFile).log.entries, ch.isTorn = false)
    (hfits : RecordFits fmt ⟨n.seqNo, p⟩) : (n.append p).Inv fmt := by
  have hmem : (n.files n.useAltFile).log.entries ∈
      (n.files n.useAltFile).contents := mem_cons_self ..
  have hheader := h.headerOf_current hwhole
  obtain ⟨hsame, hok⟩ :=
    (h.contents n.useAltFile _ hmem).append hwhole hheader hfits hp
  apply h.modify
  · intro chunks hc
    rcases mem_cons.mp hc with rfl | hold
    · refine ⟨hok, fun q hq => ⟨_, hmem, ?_⟩⟩
      rwa [LogFile.push, SyncedLog.push_entries, hsame] at hq
    · have hold' : chunks ∈ (n.files n.useAltFile).contents :=
        mem_cons_of_mem _ hold
      exact ⟨h.contents _ chunks hold', fun q hq => ⟨chunks, hold', hq⟩⟩
  · intro _
    exact ⟨hsame, by simp [LogFile.push]⟩

theorem Inv.sync (h : n.Inv fmt) (alt : Bool) (k : ℕ) :
    (n.modify alt fun f => f.sync k).Inv fmt := by
  apply h.modify
  · intro chunks hc
    have hmem : chunks ∈ (n.files alt).contents := by
      have heq : chunks = (n.files alt).log.entries := by
        simpa [LogFile.contents, LogFile.sync] using hc
      rw [heq]
      exact mem_cons_self ..
    exact ⟨h.contents alt chunks hmem, fun q hq => ⟨chunks, hmem, hq⟩⟩
  · intro hcur
    refine ⟨rfl, ?_⟩
    rw [hcur]
    exact h.used

theorem Inv.finishSwitch (h : n.Inv fmt) :
    n.finishSwitch.Inv fmt := by
  have hmodify : (n.modify (!n.useAltFile) LogFile.truncate).Inv fmt := by
    apply h.modify
    · intro chunks hc
      rcases mem_cons.mp hc with rfl | hold
      · refine ⟨contentOk_nil _, fun q hq => ?_⟩
        cases hq
      · exact ⟨h.contents _ chunks hold, fun q hq => ⟨chunks, hold, hq⟩⟩
    · intro hcur
      simp at hcur
  exact ⟨⟨hmodify.contents, hmodify.distinct, hmodify.seqNo_pos⟩,
    hmodify.current, hmodify.used⟩

theorem Contents.reset (h : n.Contents fmt)
    (hseq : IsInt64 (n.seqNo + 1)) : n.reset.Inv fmt := by
  have hpos := h.seqNo_pos
  have hself : n.reset.files n.useAltFile =
      (n.files n.useAltFile).truncate.push ⟨n.seqNo + 1, .init⟩ :=
    Function.update_self _ _ _
  have hother : n.reset.files (!n.useAltFile) = n.files (!n.useAltFile) :=
    Function.update_of_ne (by simp) _ _
  have hle : n.seqNo ≤ n.reset.seqNo := by
    change n.seqNo ≤ n.seqNo + 1
    omega
  apply h.of_headers hle
  · intro alt chunks hc
    have hkept : chunks ∈ (n.files alt).contents →
        ContentOk fmt n.reset.seqNo chunks ∧ ∀ q, headerOf chunks = some q →
          (∃ old ∈ (n.files alt).contents, headerOf old = some q) ∨
            alt = n.reset.useAltFile ∧ n.seqNo < q :=
      fun hmem => ⟨(h.contents alt chunks hmem).mono hle,
        fun q hq => .inl ⟨chunks, hmem, hq⟩⟩
    by_cases heq : alt = n.useAltFile
    · subst heq
      rw [hself] at hc
      rcases mem_cons.mp hc with rfl | hold
      · have hheader := contentOk_header fmt hseq (by omega)
        refine ⟨hheader, fun q hq => .inr ⟨rfl, ?_⟩⟩
        obtain rfl : n.seqNo + 1 = q := Option.some.inj hq
        omega
      · exact hkept hold
    · obtain rfl : alt = !n.useAltFile := Bool.eq_not.mpr heq
      rw [hother] at hc
      exact hkept hc
  · intro q hq
    change headerOf (n.reset.files n.useAltFile).log.entries = some q at hq
    rw [hself] at hq
    exact (Option.some.inj hq).symm
  · change (n.reset.files n.useAltFile).log.entries ≠ []
    rw [hself]
    exact cons_ne_nil _ _

theorem Inv.switchFiles (h : n.Inv fmt)
    (hseq : IsInt64 (n.seqNo + 1)) : n.switchFiles.Inv fmt := by
  have hsync := h.sync n.useAltFile (n.files n.useAltFile).log.size
  apply Contents.reset
  · exact ⟨hsync.contents, hsync.distinct, hsync.seqNo_pos⟩
  · exact hseq

/-! ## Restarting -/

/-- What a new process finds: one content for each file. -/
structure Found (fmt : WalFormat) (files : Bool → LogFile) : Prop where
  contents : ∀ alt, ∃ seqNo, ContentOk fmt seqNo (files alt).log.entries
  fresh : ∀ alt, (files alt).old = []
  distinct : ∀ q, headerOf (files false).log.entries = some q →
    headerOf (files true).log.entries ≠ some q
  header : (files true).log.entries.head?.any Chunk.isTorn = true →
    (files false).log.entries = []

theorem Found.holds (h : Found fmt files) (alt : Bool) :
    Holds fmt (chunkBytes fmt (files alt).log.entries)
      (wholeRecords (files alt).log.entries) := by
  obtain ⟨seqNo, hok⟩ := h.contents alt
  exact hok.form.holds hok.fits

theorem Found.torn_header (h : Found fmt files)
    (hne : chunkBytes fmt (files true).log.entries ≠ [])
    (hnil : wholeRecords (files true).log.entries = []) :
    chunkBytes fmt (files false).log.entries = [] := by
  obtain ⟨seqNo, hok⟩ := h.contents true
  have hform := hok.form
  rw [hnil] at hform
  rw [h.header (hform.head_torn hne)]
  rfl

/-- The object that a process has after reading two files of which at least
one is not empty. -/
def opened (transid : ℤ) (files : Bool → LogFile)
    (useAltFile : Bool) (seqNo : ℤ) : LogNode where
  files := files
  useAltFile := useAltFile
  seqNo := (headerOf (files useAltFile).log.entries).getD
    ((headerOf (files !useAltFile).log.entries).getD seqNo)
  pendingReset := false
  recovered :=
    (resultOf transid (wholeRecords (files !useAltFile).log.entries)).append
      (resultOf transid (wholeRecords (files useAltFile).log.entries))

theorem Found.inv_opened (h : Found fmt files) {useAltFile : Bool}
    (hseq : 1 ≤ seqNo) (hcur : (files useAltFile).log.entries ≠ [])
    (hnewer : ∀ q, headerOf (files !useAltFile).log.entries = some q →
      ∃ q', headerOf (files useAltFile).log.entries = some q' ∧ q < q') :
    (opened transid files useAltFile seqNo).Inv fmt := by
  set n := opened transid files useAltFile seqNo with hn
  have hself : ∀ q, headerOf (files useAltFile).log.entries = some q →
      q = n.seqNo := by
    intro q hq
    simp [hn, opened, hq]
  have hbound : ∀ alt q, headerOf (files alt).log.entries = some q →
      q ≤ n.seqNo := by
    intro alt q hq
    by_cases heq : alt = useAltFile
    · rw [heq] at hq
      exact (hself q hq).le
    · obtain rfl : alt = !useAltFile := Bool.eq_not.mpr heq
      obtain ⟨q', hq', hlt⟩ := hnewer q hq
      have hle := hself q' hq'
      omega
  have hentries : ∀ alt, ∀ chunks ∈ (files alt).contents,
      chunks = (files alt).log.entries := by
    intro alt chunks hc
    rwa [LogFile.contents, h.fresh alt, mem_singleton] at hc
  refine ⟨⟨?_, ?_, ?_⟩, hself, hcur⟩
  · intro alt chunks hc
    rw [hentries alt chunks hc]
    obtain ⟨seqNo', hok⟩ := h.contents alt
    exact ⟨hok.form, hok.fits,
      fun q hq => ⟨(hok.header q hq).1, hbound alt q hq⟩⟩
  · intro chunks hc chunks' hc' q hq
    rw [hentries false chunks hc] at hq
    rw [hentries true chunks' hc']
    exact h.distinct q hq
  · cases hq : headerOf (files useAltFile).log.entries with
    | some q =>
      obtain ⟨seqNo', hok⟩ := h.contents useAltFile
      have h2 := (hok.header q hq).1
      have hle := hself q hq
      omega
    | none =>
      have hother : headerOf (files !useAltFile).log.entries = none := by
        cases hq' : headerOf (files !useAltFile).log.entries with
        | none => rfl
        | some q =>
          obtain ⟨q', hq'', -⟩ := hnewer q hq'
          rw [hq] at hq''
          cases hq''
      simpa [hn, opened, hq, hother] using hseq

theorem readBoth_eq (n : LogNode) (transid : ℤ)
    (log : Bool → List (WalRecord FragInfo CommitInfo))
    (h : ∀ alt, Holds fmt (n.content fmt alt) (log alt)) :
    readBoth fmt transid n =
      some { n with
        seqNo := (WalFile.headerSeqNo (log n.useAltFile)).getD
          ((WalFile.headerSeqNo (log !n.useAltFile)).getD n.seqNo)
        recovered := (resultOf transid (log !n.useAltFile)).append
          (resultOf transid (log n.useAltFile)) } := by
  have hread : ∀ alt seqNo,
      readFile fmt transid false seqNo (n.content fmt alt) =
        some ⟨!(log alt).isEmpty, (WalFile.headerSeqNo (log alt)).getD seqNo,
          resultOf transid (log alt)⟩ := by
    intro alt seqNo
    obtain ⟨hfits, tail, htail, hbytes⟩ := h alt
    rw [hbytes]
    exact readFile_log hfits htail
  simp only [readBoth, hread]
  rfl

theorem created_eq {useAltFile : Bool} (hopen : (openFiles fmt fun alt =>
      chunkBytes fmt (files alt).log.entries) = some (useAltFile, seqNo)) :
    created fmt files =
      some (if chunkBytes fmt (files useAltFile).log.entries = [] then
        LogNode.reset ⟨files, useAltFile, seqNo, false, ⟨[], [], none⟩⟩
      else ⟨files, useAltFile, seqNo, false, ⟨[], [], none⟩⟩) := by
  rw [created, hopen]
  rfl

theorem Contents.holds (h : n.Contents fmt) (alt : Bool) :
    Holds fmt (n.content fmt alt) (wholeRecords (n.files alt).log.entries) := by
  have hok := h.contents alt _ (mem_cons_self ..)
  exact hok.form.holds hok.fits

theorem Found.readBoth_reset (h : Found fmt files)
    (hnil : ∀ alt, (files alt).log.entries = []) (useAltFile : Bool)
    (transid : ℤ) :
    ∃ n, readBoth fmt transid
        (LogNode.reset ⟨files, useAltFile, 1, false, ⟨[], [], none⟩⟩) =
          some n ∧
      n.Inv fmt ∧ n.useAltFile = useAltFile ∧
      n.recovered = (resultOf transid []).append (resultOf transid []) := by
  set n : LogNode := ⟨files, useAltFile, 1, false, ⟨[], [], none⟩⟩ with hn
  have hall : ∀ alt, ∀ chunks ∈ (n.files alt).contents, chunks = [] := by
    intro alt chunks hc
    have heq : chunks = (files alt).log.entries := by
      rwa [hn, LogFile.contents, h.fresh alt, mem_singleton] at hc
    rw [heq, hnil alt]
  have hcontents : n.Contents fmt := by
    refine ⟨?_, ?_, le_rfl⟩
    · intro alt chunks hc
      rw [hall alt chunks hc]
      exact contentOk_nil _
    · intro chunks hc chunks' hc' q hq
      rw [hall false chunks hc] at hq
      cases hq
  have hinv : n.reset.Inv fmt :=
    hcontents.reset (show IsInt64 (1 + 1) by decide)
  have hself : (n.reset.files useAltFile).log.entries =
      [.record ⟨2, .init⟩] := by
    simp [hn, LogNode.reset, LogNode.modify, LogFile.push, LogFile.truncate]
  have hother : (n.reset.files !useAltFile).log.entries = [] := by
    simp [hn, LogNode.reset, LogNode.modify, hnil]
  have hread := readBoth_eq n.reset transid _ hinv.toContents.holds
  change readBoth fmt transid n.reset = some { n.reset with
    seqNo := (headerOf (n.reset.files useAltFile).log.entries).getD
      ((headerOf (n.reset.files !useAltFile).log.entries).getD n.reset.seqNo)
    recovered :=
      (resultOf transid
        (wholeRecords (n.reset.files !useAltFile).log.entries)).append
      (resultOf transid
        (wholeRecords (n.reset.files useAltFile).log.entries)) } at hread
  rw [hself, hother] at hread
  exact ⟨_, hread,
    ⟨⟨hinv.contents, hinv.distinct, hinv.seqNo_pos⟩, hinv.current, hinv.used⟩,
    rfl, rfl⟩

/-- A new process gets through, goes on with the newer file and reads the
older one first. -/
theorem Found.restart_eq (h : Found fmt files) (transid : ℤ) :
    ∃ n, restart fmt transid files = some n ∧ n.Inv fmt ∧
      (∀ q, headerOf (files !n.useAltFile).log.entries = some q →
        ∃ q', headerOf (files n.useAltFile).log.entries = some q' ∧ q < q') ∧
      n.recovered =
        (resultOf transid
          (wholeRecords (files !n.useAltFile).log.entries)).append
        (resultOf transid (wholeRecords (files n.useAltFile).log.entries)) := by
  have hpos : ∀ alt seqNo, headerOf (files alt).log.entries = some seqNo →
      2 ≤ seqNo := by
    intro alt seqNo hq
    obtain ⟨seqNo', hok⟩ := h.contents alt
    exact (hok.header seqNo hq).1
  obtain ⟨useAltFile, seqNo, hopen, hseq, hone, hempty, hnewer⟩ :=
    openFiles_eq h.holds hpos h.distinct h.torn_header
  dsimp only at hone
  by_cases hcur : chunkBytes fmt (files useAltFile).log.entries = []
  · have hnil : ∀ alt, (files alt).log.entries = [] := by
      intro alt
      obtain ⟨seqNo', hok⟩ := h.contents alt
      apply hok.form.bytes_eq_nil hok.fits
      by_cases heq : alt = useAltFile
      · rwa [heq]
      · obtain rfl : alt = !useAltFile := Bool.eq_not.mpr heq
        exact hempty hcur
    obtain rfl : seqNo = 1 := by
      apply hone
      intro alt
      rw [hnil alt]
      rfl
    obtain ⟨n, hread, hinv, huse, hrecovered⟩ :=
      h.readBoth_reset hnil useAltFile transid
    refine ⟨n, ?_, hinv, ?_, ?_⟩
    · rw [restart, created_eq hopen, if_pos hcur, Option.bind_some, hread]
    · rw [huse]
      exact hnewer
    · rw [hrecovered, hnil, hnil]
      rfl
  · have hread := readBoth_eq ⟨files, useAltFile, seqNo, false, ⟨[], [], none⟩⟩
      transid _ h.holds
    refine ⟨opened transid files useAltFile seqNo, ?_, ?_, hnewer, rfl⟩
    · rw [restart, created_eq hopen, if_neg hcur, Option.bind_some]
      exact hread
    · apply h.inv_opened hseq ?_ hnewer
      intro hnil
      rw [hnil] at hcur
      exact hcur rfl

/-! ## Crashes -/

theorem base_mem_contents {f : LogFile} {c : FileCrash}
    (h : f.CanCrash fmt c) : f.base c ∈ f.contents := by
  obtain ⟨-, hsource, -⟩ := h
  cases hs : c.source with
  | none =>
    rw [LogFile.base, hs]
    exact mem_cons_self ..
  | some i =>
    have hsource := hsource i hs
    have hget : f.old.getD i [] = f.old[i] := by
      simp [List.getD, getElem?_eq_getElem hsource]
    simp only [LogFile.base, hs, hget]
    exact mem_cons_of_mem _ (getElem_mem hsource)

theorem contentOk_left {f : LogFile} {c : FileCrash}
    (h : ContentOk fmt seqNo (f.base c)) (hcrash : f.CanCrash fmt c)
    (htail : ¬ ChecksumValid fmt c.tail ∧ SizeFieldOk c.tail) :
    wholeRecords (f.left c) = (wholeRecords (f.base c)).take c.survivors ∧
      ContentOk fmt seqNo (f.left c) := by
  apply h.left (scanRecord_of_not_valid htail.1 htail.2)
  rcases hcrash.2.2 with hnil | ⟨hlast, -⟩
  · exact .inl hnil
  · exact .inr hlast

/-- After a crash that meets the condition a new process finds files it can
read. -/
theorem Inv.found (h : n.Inv fmt) {c : Crash}
    (hcrash : ∀ alt, (n.files alt).CanCrash fmt (c.file alt))
    (hok : n.Ok fmt (.crash c)) :
    Found fmt fun alt => (n.files alt).crash (c.file alt) := by
  have hleft : ∀ alt,
      wholeRecords ((n.files alt).left (c.file alt)) =
          (wholeRecords ((n.files alt).base (c.file alt))).take
            (c.file alt).survivors ∧
        ContentOk fmt n.seqNo ((n.files alt).left (c.file alt)) := by
    intro alt
    have hmem := base_mem_contents (hcrash alt)
    exact contentOk_left (h.contents alt _ hmem) (hcrash alt) (hok.1 alt)
  have hheader : ∀ alt q,
      headerOf ((n.files alt).left (c.file alt)) = some q →
        headerOf ((n.files alt).base (c.file alt)) = some q := by
    intro alt q hq
    rw [headerOf, (hleft alt).1] at hq
    exact headerSeqNo_take hq
  refine ⟨fun alt => ⟨n.seqNo, (hleft alt).2⟩, fun alt => rfl, ?_, hok.2⟩
  intro q hq hq'
  exact h.distinct _ (base_mem_contents (hcrash false)) _
    (base_mem_contents (hcrash true)) q (hheader false q hq)
    (hheader true q hq')

theorem found_empty (fmt : WalFormat) : Found fmt fun _ => .empty where
  contents := fun _ => ⟨0, contentOk_nil 0⟩
  fresh := fun _ => rfl
  distinct := fun q hq => by cases hq
  header := fun h => by cases h

theorem inv_start (h : start fmt transid = some n) : n.Inv fmt := by
  obtain ⟨n', hrestart, hinv, -, -⟩ := (found_empty fmt).restart_eq transid
  rw [start, hrestart] at h
  exact Option.some.inj h ▸ hinv

theorem Inv.step {n n' : LogNode} {e : Event} (h : n.Inv fmt)
    (hok : n.Ok fmt e) (hs : n.step fmt e = some n') : n'.Inv fmt := by
  cases e with
  | append p =>
    rw [LogNode.step] at hs
    split at hs
    · cases hs
    · rename_i hp
      cases hs
      exact h.append hp hok.1 hok.2
  | sync alt k =>
    cases hs
    exact h.sync alt k
  | reset =>
    cases hs
    exact h.toContents.reset hok
  | switchFiles =>
    rw [LogNode.step] at hs
    split at hs
    · cases hs
    · cases hs
      exact h.switchFiles hok
  | finishSwitch =>
    rw [LogNode.step] at hs
    split at hs
    · cases hs
      exact h.finishSwitch
    · cases hs
  | crash c =>
    rw [LogNode.step] at hs
    split at hs
    · rename_i hcrash
      obtain ⟨n'', hrestart, hinv, -, -⟩ :=
        (h.found hcrash hok).restart_eq c.transid
      rw [hrestart] at hs
      exact Option.some.inj hs ▸ hinv
    · cases hs

/-- The invariant holds in every state of a run that meets the condition. -/
theorem inv_of_run {n₀ n : LogNode} (hstart : start fmt transid = some n₀)
    (hrun : Run (step fmt) (Ok fmt) n₀ n) : n.Inv fmt :=
  hrun.invariant (inv_start hstart) fun _ _ _ h hok hs => h.step hok hs

end LogNode

end Hs5
