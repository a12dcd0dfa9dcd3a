import Hs5.S3.Adds
import Hs5.S3.Restarts

/-!
# Upload ids and versions are new

Upload ids and versions are drawn from counters in memory.  A commit keeps the
counters together with the entries, so that in one lifetime of the process
nothing that is stored, or is going to be, has an id above its counter.  A new
process is different: it runs items from the log again, but has its counters
from the last commit record in the log, which knows nothing of the items
behind it.  And a commit record that an LMDB commit has made obsolete still
sets the counters if the log was not reset in time.  Apart from these two
cases the ids that a process draws are new.
-/

namespace Hs5.S3

open Option List Transition

/-! ## Bounds -/

inductive HasUploadId : Ids → ℤ → Prop
  | record {k : KeyInfo} {upload : Option ℤ}
      (hbucket : isPartialUploadsBucket k.bucketId) :
      HasUploadId (k, upload) k.version
  | part {k : KeyInfo} {upload : Option ℤ} {id n : ℤ}
      (hbucket : isPartsBucket k.bucketId) (hid : IsId id)
      (hn : IsPartNumber n) (hkey : k.key = partName id n) :
      HasUploadId (k, upload) id
  | completed {k : KeyInfo} {id : ℤ} : HasUploadId (k, some id) id

/-- The counters of one moment and those of a later one. -/
structure Counters.Before (c c' : Counters) : Prop where
  partid : c.currPartid ≤ c'.currPartid
  version : c.currVersion ≤ c'.currVersion

theorem Counters.Before.refl (c : Counters) : c.Before c :=
  ⟨le_refl _, le_refl _⟩

theorem Counters.Before.trans {a b c : Counters} (h : a.Before b)
    (h' : b.Before c) : a.Before c :=
  ⟨h.partid.trans h'.partid, h.version.trans h'.version⟩

structure Drawn (c : Counters) (x : Ids) : Prop where
  version : isObjectBucket x.1.bucketId → x.1.version ≤ c.currVersion
  record : isPartialUploadsBucket x.1.bucketId →
    x.1.version ≤ c.currPartid ∧ x.1.version < 2 ^ 63
  part : isPartsBucket x.1.bucketId → ∃ id n, IsId id ∧ IsPartNumber n ∧
    x.1.key = partName id n ∧ id ≤ c.currPartid
  completed : ∀ id, x.2 = some id → id ≤ c.currPartid

variable {x : Ids} {c : Counters} {cfg : Config}

theorem Drawn.mono {c c' : Counters} (h : Drawn c x)
    (hle : c.Before c') : Drawn c' x where
  version hbucket := (h.version hbucket).trans hle.version
  record hbucket :=
    ⟨(h.record hbucket).1.trans hle.partid, (h.record hbucket).2⟩
  part hbucket := by
    obtain ⟨id, n, hid, hn, hkey, hle'⟩ := h.part hbucket
    exact ⟨id, n, hid, hn, hkey, hle'.trans hle.partid⟩
  completed id hx := (h.completed id hx).trans hle.partid

theorem Drawn.uploadId_le {id : ℤ} (h : Drawn c x)
    (hx : HasUploadId x id) : id ≤ c.currPartid := by
  cases hx with
  | record hbucket => exact (h.record hbucket).1
  | part hbucket hid hn hkey =>
    obtain ⟨id', n', hid', hn', hkey', hle⟩ := h.part hbucket
    obtain ⟨rfl, -⟩ := partName_inj hid hid' hn hn' (hkey ▸ hkey')
    exact hle
  | completed => exact h.completed id rfl

theorem drawn_of_isObjectBucket (hbucket : isObjectBucket x.1.bucketId)
    (hversion : x.1.version ≤ c.currVersion)
    (hupload : ∀ id, x.2 = some id → id ≤ c.currPartid) : Drawn c x where
  version _ := hversion
  record hrecords :=
    absurd hrecords (not_isPartialUploadsBucket_of_isObjectBucket hbucket)
  part hparts :=
    absurd hbucket (not_isObjectBucket_of_isPartsBucket hparts)
  completed := hupload

def LogRecord.adds : LogRecord → List Ids
  | .fragInfo _ chain _ => chain.adds
  | .sync _ => []

/-! ## One lifetime -/

namespace Server

/-- The counters of the server, in the transaction with a number. -/
def counters (s : Server) (transid : ℤ) : Counters :=
  ⟨transid, s.currPartid, s.currVersion⟩

theorem drawVersion_le {s : Server} (bucketId : ℤ) (h : 0 ≤ s.currVersion) :
    (s.drawVersion cfg bucketId).2 ≤
      (s.drawVersion cfg bucketId).1.currVersion := by
  unfold drawVersion
  split
  · exact le_refl _
  · exact h

theorem HasUpload.drawn {s : Server} {upload : KeyInfo}
    (h : s.HasUpload upload) (hdrawn : ∀ x ∈ s.adds, Drawn c x)
    (hbucket : isPartialUploadsBucket upload.bucketId) :
    upload.version ≤ c.currPartid ∧ upload.version < 2 ^ 63 := by
  obtain ⟨e, -, -, -, he, -⟩ := h
  have hmain : idsOf (upload, e) ∈ mainAdds s.store.main :=
    mem_mainAdds.mpr ⟨_, he, rfl⟩
  exact (hdrawn _ (mem_adds_of_main hmain)).record hbucket

theorem Opens.drawn {s s₁ : Server} {ev : Event} {task : Task} {bucketId : ℤ}
    (h : Opens cfg s ev s₁ task) (hbucket : ev.bucketId? = some bucketId)
    (hobject : isObjectBucket bucketId) (transid : ℤ)
    (hversion : 0 ≤ s.currVersion)
    (hdrawn : ∀ x ∈ s.adds, Drawn (s.counters transid) x)
    (hx : x ∈ task.adds) : Drawn (s₁.counters transid) x := by
  cases h with
  | putObject =>
    cases hbucket
    obtain rfl := mem_singleton.mp hx
    refine drawn_of_isObjectBucket hobject (drawVersion_le _ hversion) ?_
    simp [idsOf, Metadata.uploadId?]
  | createMultipartUpload hid =>
    cases hbucket
    obtain rfl := mem_singleton.mp hx
    have hrecord := isPartialUploadsBucket_uploadKey []
      (s.currPartid + 1) hobject
    refine ⟨fun hb => ?_, fun _ => ⟨le_refl _, hid⟩, fun hb => ?_, ?_⟩
    · exact absurd hrecord (not_isPartialUploadsBucket_of_isObjectBucket hb)
    · exact absurd hrecord (not_isPartialUploadsBucket_of_isPartsBucket hb)
    · simp [idsOf, Metadata.uploadId?]
  | @putObjectPart _ key uploadId _ partNumber _ _ _ hid hpart hupload =>
    cases hbucket
    obtain rfl := mem_singleton.mp hx
    have hrecord := isPartialUploadsBucket_uploadKey key uploadId hobject
    have hparts := isPartsBucket_partKey uploadId partNumber hrecord
    obtain ⟨hle, hlt⟩ := hupload.drawn hdrawn hrecord
    refine ⟨fun hb => ?_, fun hb => ?_, fun _ => ?_, ?_⟩
    · exact absurd hb (not_isObjectBucket_of_isPartsBucket hparts)
    · exact absurd hb (not_isPartialUploadsBucket_of_isPartsBucket hparts)
    · exact ⟨uploadId, partNumber, ⟨hid.le, hlt⟩,
        ⟨hpart.1.le, by omega⟩, rfl, hle⟩
    · simp [idsOf, Metadata.uploadId?]
  | @completeMultipartUpload b key uploadId _ _ _ _ _ _ hid hparts hupload =>
    obtain rfl := Option.some.inj hbucket
    obtain rfl := mem_singleton.mp hx
    have hrecord := isPartialUploadsBucket_uploadKey key uploadId hobject
    obtain ⟨hle, -⟩ := hupload.drawn hdrawn hrecord
    refine drawn_of_isObjectBucket hobject (drawVersion_le _ hversion) ?_
    intro id hid'
    cases hid'
    exact hle.trans (s.le_drawVersion cfg b).2.ge
  | deleteMarker hversioned =>
    cases hbucket
    obtain rfl := mem_singleton.mp hx
    exact drawn_of_isObjectBucket hobject (drawVersion_le _ hversion) (by simp)
  | abortMultipartUpload | deleteVersion | putObjectLegalHold
  | putObjectRetention => cases hx

end Server

/-! ## The invariant -/

namespace ServerNode

/-- The counters and what they cover.  `covered` is what a commit record in
the log is worth: it is above all items before it. -/
structure Inv (s : ServerNode) : Prop where
  positive : newCounters.Before s.index.counters
  before : s.index.counters.Before s.counters
  live : ∀ x ∈ s.server.adds, Drawn s.counters x
  indexed : ∀ x ∈ mainAdds s.index.main, Drawn s.index.counters x
  stale : ∀ r ∈ s.stale, ∀ x ∈ r.adds, Drawn s.index.counters x
  logged : ∀ r ∈ s.log, ∀ x ∈ r.adds, Drawn s.counters x
  covered : s.log.Pairwise fun a b =>
    ∀ c ∈ b.sync?, ∀ x ∈ a.adds, Drawn c x
  synced : ∀ r ∈ s.log, ∀ c ∈ r.sync?, s.index.counters.Before c

variable {s s' : ServerNode}

theorem inv_init : Inv init := by
  refine ⟨.refl _, .refl _, ?_, ?_, ?_, ?_, ?_, ?_⟩
  · intro x hx
    cases hx
  · intro x hx
    cases hx
  · simp [init]
  · simp [init]
  · simp [init]
  · simp [init]

theorem Inv.server {server : Server} (h : Inv s)
    (hle : s.counters.Before (server.counters s.currTransid))
    (hlive : ∀ x ∈ server.adds, Drawn (server.counters s.currTransid) x) :
    Inv { s with server := server } where
  positive := h.positive
  before := h.before.trans hle
  live := hlive
  indexed := h.indexed
  stale := h.stale
  logged r hr x hx := (h.logged r hr x hx).mono hle
  covered := h.covered
  synced := h.synced

theorem Inv.serverStep {ev : Event} {server : Server} (h : Inv s)
    (hstep : Server.Steps cfg s.server ev server) :
    Inv { s with server := server } := by
  have hle : s.counters.Before (server.counters s.currTransid) :=
    ⟨hstep.counters_le.2, hstep.counters_le.1⟩
  have hversion : 0 ≤ s.server.currVersion :=
    (h.positive.trans h.before).version
  refine h.server hle ?_
  intro x hx
  obtain hold | ⟨bucketId, s₁, task, hbucket, hobject, hopen, rfl, hnew⟩ :=
    hstep.mem_adds hx
  · exact (h.live x hold).mono hle
  · exact hopen.drawn hbucket hobject s.currTransid hversion h.live hnew

theorem Inv.log (h : Inv s) {r : LogRecord} (hsync : r.sync? = none)
    (hadds : ∀ x ∈ r.adds, x ∈ s.server.adds) :
    Inv { s with log := s.log ++ [r] } where
  positive := h.positive
  before := h.before
  live := h.live
  indexed := h.indexed
  stale := h.stale
  logged r' hr' x hx := by
    rcases mem_append.mp hr' with hr' | hr'
    · exact h.logged r' hr' x hx
    · obtain rfl := mem_singleton.mp hr'
      exact h.live x (hadds x hx)
  covered := by
    refine pairwise_append.mpr ⟨h.covered, by simp, ?_⟩
    intro a ha b hb
    obtain rfl := mem_singleton.mp hb
    simp [hsync]
  synced r' hr' := by
    rcases mem_append.mp hr' with hr' | hr'
    · exact h.synced r' hr'
    · obtain rfl := mem_singleton.mp hr'
      simp [hsync]

theorem mem_adds_of_front {c : Chain} {m : Option MatchInfo}
    (hfront : s.server.store.front = some (c, m)) (hx : x ∈ c.adds) :
    x ∈ s.server.adds := by
  unfold Store.front at hfront
  split at hfront
  · rename_i rest hqueue
    cases hfront
    refine Server.mem_adds_of_callback ?_ hx
    rw [hqueue]
    exact mem_cons_self
  · obtain ⟨q, hq, heq⟩ := map_eq_some_iff.mp hfront
    cases heq
    exact Server.mem_adds_of_queued (mem_of_head? hq) hx

theorem Inv.walCommit (h : Inv s) :
    Inv { s with log := s.log ++ [.sync s.counters] } where
  positive := h.positive
  before := h.before
  live := h.live
  indexed := h.indexed
  stale := h.stale
  logged r hr x hx := by
    rcases mem_append.mp hr with hr | hr
    · exact h.logged r hr x hx
    · obtain rfl := mem_singleton.mp hr
      cases hx
  covered := by
    refine pairwise_append.mpr ⟨h.covered, by simp, ?_⟩
    intro a ha b hb c hc x hx
    obtain rfl := mem_singleton.mp hb
    cases hc
    exact h.logged a ha x hx
  synced r hr c hc := by
    rcases mem_append.mp hr with hr | hr
    · exact h.synced r hr c hc
    · obtain rfl := mem_singleton.mp hr
      cases hc
      exact h.before

/-! ## Restarts -/

/-- What a crash leaves of the log since the last LMDB commit ends with a
commit record; or it leaves nothing of it, and no commit record from
before. -/
def Covers (s : ServerNode) : NodeEvent → Prop
  | .restart survivors =>
    match (s.left survivors).getLast? with
    | some r => r.sync?.isSome = true
    | none => ∀ r ∈ s.stale.take survivors, r.sync? = none
  | _ => True

instance (s : ServerNode) : (e : NodeEvent) → Decidable (s.Covers e)
  | .restart survivors =>
    match h : (s.left survivors).getLast? with
    | some r => decidable_of_iff (r.sync?.isSome = true) (by simp [Covers, h])
    | none => decidable_of_iff (∀ r ∈ s.stale.take survivors, r.sync? = none)
        (by simp [Covers, h])
  | .server _ _ | .del _ | .process | .walCommit | .lmdbCommit | .resetLog =>
    isTrue trivial

variable {survivors : ℕ}

/-- The counters of a new process are above all that it finds. -/
theorem Inv.recoveredCounters (h : Inv s)
    (hok : s.Covers (.restart survivors)) :
    s.index.counters.Before (s.recoveredCounters survivors) ∧
      ∀ r ∈ s.left survivors, ∀ x ∈ r.adds,
        Drawn (s.recoveredCounters survivors) x := by
  have hsub : (s.left survivors).Sublist s.log := take_sublist _ _
  rcases eq_nil_or_concat (s.left survivors) with hnil | ⟨pre, r, heq⟩
  · have hnone : lastSync (s.survived survivors) = none := by
      simp only [Covers, hnil, getLast?_nil] at hok
      rw [lastSync, survived, hnil, append_nil,
        filterMap_eq_nil_iff.mpr hok, getLast?_nil]
    rw [ServerNode.recoveredCounters, hnone, hnil]
    exact ⟨.refl _, by simp⟩
  · cases r with
    | fragInfo transid chain m =>
      simp [Covers, heq, LogRecord.sync?] at hok
    | sync c =>
      have hlast : lastSync (s.survived survivors) = some c := by
        rw [lastSync, survived, heq, concat_eq_append,
          ← append_assoc, filterMap_append]
        simp [LogRecord.sync?]
      have hcovered := h.covered.sublist hsub
      rw [heq, concat_eq_append, pairwise_append] at hcovered
      have hmem : .sync c ∈ s.log := hsub.subset (by simp [heq])
      rw [ServerNode.recoveredCounters, hlast]
      refine ⟨h.synced _ hmem c rfl, ?_⟩
      intro r hr x hx
      rw [heq, concat_eq_append, mem_append] at hr
      rcases hr with hr | hr
      · exact hcovered.2.2 r hr _ (mem_singleton.mpr rfl) c rfl x hx
      · obtain rfl := mem_singleton.mp hr
        cases hx

theorem mem_adds_of_recovered {q : Queued Task}
    (hq : q ∈ s.recovered survivors) (h : x ∈ q.chain.adds) :
    ∃ r ∈ s.survived survivors, x ∈ r.adds := by
  obtain ⟨r, hr, hitem⟩ := mem_filterMap.mp hq
  refine ⟨r, hr, ?_⟩
  cases r with
  | sync info => simp [LogRecord.item?] at hitem
  | fragInfo transid chain m =>
    simp only [LogRecord.item?, ite_none_right_eq_some,
      Option.some.injEq] at hitem
    obtain ⟨-, rfl⟩ := hitem
    exact h

theorem Inv.restart (h : Inv s)
    (hok : s.Covers (.restart survivors)) : Inv (s.restart survivors) := by
  obtain ⟨hbefore, hleft⟩ := h.recoveredCounters hok
  have hsub : (s.left survivors).Sublist s.log := take_sublist _ _
  have hstale : ∀ r ∈ s.stale.take survivors, r ∈ s.stale :=
    fun r hr => mem_of_mem_take hr
  refine ⟨h.positive, hbefore, ?_, h.indexed,
    fun r hr => h.stale r (hstale r hr), hleft, h.covered.sublist hsub,
    fun r hr => h.synced r (hsub.subset hr)⟩
  intro x hx
  rcases Server.mem_adds.mp hx with hx | ⟨r, hr, -⟩ | ⟨q, hq, hx⟩ | ⟨c, hc, -⟩
  · exact (h.indexed x hx).mono hbefore
  · exact absurd hr (OrderedMap.not_mem_empty r)
  · obtain ⟨r, hr, hx⟩ := mem_adds_of_recovered hq hx
    rcases mem_append.mp hr with hr | hr
    · exact (h.stale r (hstale r hr) x hx).mono hbefore
    · exact hleft r hr x hx
  · cases hc

theorem Inv.step (h : Inv s) {e : NodeEvent} (hok : s.Covers e)
    (hstep : Steps s e s') : Inv s' := by
  cases hstep with
  | server hserver => exact h.serverStep hserver
  | del =>
    refine h.server (.refl _) ?_
    intro x hx
    rcases Server.mem_adds_of_enqueue hx with hx | hx
    · exact h.live x hx
    · simp [Chain.adds, Item.adds] at hx
  | @process c m server log startupWalItems hfront hserver hlog =>
    have hran := h.serverStep (hserver plainBuckets)
    have hle := (hserver plainBuckets).counters_le
    rcases hlog with rfl | rfl
    · exact ⟨hran.positive, hran.before, hran.live, hran.indexed,
        hran.stale, hran.logged, hran.covered, hran.synced⟩
    · have hlogged := h.log (r := .fragInfo s.prevTransid c m) rfl
        fun x hx => mem_adds_of_front hfront hx
      exact ⟨hran.positive, hran.before, hran.live, hran.indexed,
        hran.stale, fun r hr x hx => (hlogged.logged r hr x hx).mono
          ⟨hle.2, hle.1⟩, hlogged.covered, hlogged.synced⟩
  | walCommit => exact h.walCommit
  | lmdbCommit =>
    refine ⟨h.positive.trans h.before, ⟨le_refl _, le_refl _⟩,
      fun x hx => ?_, ?_, ?_, by simp, by simp, by simp⟩
    · exact (h.live x hx).mono ⟨le_refl _, le_refl _⟩
    · exact fun x hx => h.live x (Server.mem_adds_of_main hx)
    · intro r hr x hx
      rcases mem_append.mp hr with hr | hr
      · exact (h.stale r hr x hx).mono h.before
      · exact h.logged r hr x hx
  | resetLog =>
    exact ⟨h.positive, h.before, h.live, h.indexed, by simp, h.logged,
      h.covered, h.synced⟩
  | restart => exact h.restart hok

/-! ## New ids -/

/-- The next ids are not those of anything that is stored or is going to be
stored. -/
structure FreshIds (s : ServerNode) : Prop where
  partid : ∀ x ∈ s.server.adds, ∀ id, HasUploadId x id → id < s.getNextPartid
  version : ∀ x ∈ s.server.adds, isObjectBucket x.1.bucketId →
    x.1.version < s.getNextVersion

/-- Ids are new in every state of every run where no crash leaves items
without the commit record behind them, or an obsolete commit record. -/
theorem freshIds_of_run (walWriteMeta : Bool)
    (hrun : Run (step walWriteMeta) Covers init s) : s.FreshIds := by
  have hinv : Inv s := by
    apply hrun.invariant inv_init
    intro s e s' h hok hstep
    exact h.step hok (step_steps hstep)
  constructor
  · intro x hx id hid
    exact Int.lt_add_one_of_le ((hinv.live x hx).uploadId_le hid)
  · intro x hx hbucket
    exact Int.lt_add_one_of_le ((hinv.live x hx).version hbucket)

/-! ## Runs -/

def keepVersions : Config := ⟨fun _ => true, fun _ => false⟩

/-- A request with a number stores a version of an object. -/
def storeVersion (ticket : ℕ) : List NodeEvent :=
  [.server keepVersions
      (.putObject 1 [65] [] 0 [7] ⟨none, false⟩ {}),
    .server keepVersions (.queue ticket 0), .process]

def startUpload (ticket : ℕ) : List NodeEvent :=
  [.server keepVersions
      (.createMultipartUpload 1 [65] [9] ⟨none, false⟩ 0),
    .server keepVersions (.queue ticket 0), .process]

/-- A version is stored and committed to the log; the process is killed, and
the next one finds the whole log. -/
def crashAfterCommit : List NodeEvent :=
  storeVersion 0 ++ [.walCommit, .restart 2, .process]

theorem freshIds_of_run_crashAfterCommit :
    ∃ s, exec (guarded (step true) Covers) init crashAfterCommit = some s ∧
      (s.server.store.main.lookup ⟨1, [65], 1⟩).isSome = true ∧
      s.getNextVersion = 2 ∧ s.FreshIds := by
  obtain ⟨s, hs, hmain, hnext⟩ : ∃ s ∈ exec (guarded (step true) Covers) init
      crashAfterCommit,
      (s.server.store.main.lookup ⟨1, [65], 1⟩).isSome = true ∧
        s.getNextVersion = 2 := by decide +kernel
  exact ⟨s, hs, hmain, hnext, freshIds_of_run true (run_of_exec_guarded hs)⟩

/-- The process is killed before the commit, and the next one finds the items
in the log. -/
def crashBeforeCommit : List NodeEvent :=
  storeVersion 0 ++ startUpload 1 ++ [.restart 2, .process, .process]

/-- Both the version and the upload id are given out again. -/
theorem not_freshIds_crashBeforeCommit :
    ∃ s, exec (step true) init crashBeforeCommit = some s ∧
      (s.server.store.main.lookup ⟨1, [65], 1⟩).isSome = true ∧
      s.getNextVersion = 1 ∧
      (s.server.store.main.lookup (uploadKey 1 [65] 1)).isSome = true ∧
      s.getNextPartid = 1 ∧ ¬ s.FreshIds := by
  obtain ⟨s, hs, hversion, hnextVersion, hupload, hnextPartid⟩ :
      ∃ s ∈ exec (step true) init crashBeforeCommit,
      (s.server.store.main.lookup ⟨1, [65], 1⟩).isSome = true ∧
        s.getNextVersion = 1 ∧
        (s.server.store.main.lookup (uploadKey 1 [65] 1)).isSome = true ∧
        s.getNextPartid = 1 := by decide +kernel
  refine ⟨s, hs, hversion, hnextVersion, hupload, hnextPartid, ?_⟩
  intro hfresh
  obtain ⟨e, he⟩ := isSome_iff_exists.mp hversion
  have hmem : idsOf (⟨1, [65], 1⟩, e) ∈ s.server.adds :=
    Server.mem_adds_of_main
      (mem_mainAdds.mpr ⟨_, OrderedMap.lookup_eq_some.mp he, rfl⟩)
  have hbucket : isObjectBucket 1 := by decide
  have hlt : 1 < s.getNextVersion := hfresh.version _ hmem hbucket
  exact absurd hnextVersion hlt.ne'

/-- The log has a commit record from before the LMDB commit when the process
is killed. -/
example : (exec (step true) init (storeVersion 0 ++ [.walCommit] ++
    storeVersion 1 ++ [.lmdbCommit, .restart 3])).map
      (fun s => ((s.server.store.main.lookup ⟨1, [65], 2⟩).isSome,
        s.getNextVersion)) = some (true, 2) := by
  decide +kernel

end ServerNode

end Hs5.S3
