import Hs5.S3.Conditional

/-!
# Versions and the order of writes

In a bucket with versioning a write stores a new version, whose number is
drawn when the request starts.  Which version is the newest is decided by the
numbers, which version was written last by the commit queue.  The two orders
agree if requests on one object do not overlap between drawing a number and
queueing the item.
-/

namespace Hs5.S3

open List Transition OrderedMap Store

/-! ## The newest version -/

theorem KeyInfo.le_iff_of_commonPrefix_eq {a b : KeyInfo}
    (h : a.commonPrefix = b.commonPrefix) : a ≤ b ↔ b.version ≤ a.version := by
  obtain ⟨ab, ak, av⟩ := a
  obtain ⟨bb, bk, bv⟩ := b
  simp only [KeyInfo.commonPrefix, Prod.mk.injEq] at h
  obtain ⟨rfl, rfl⟩ := h
  have hle : ((⟨ab, ak, av⟩ : KeyInfo) ≤ ⟨ab, ak, bv⟩) ↔
      KeyInfo.sortKey ⟨ab, ak, av⟩ ≤ KeyInfo.sortKey ⟨ab, ak, bv⟩ := Iff.rfl
  rw [hle]
  simp [KeyInfo.sortKey, Prod.Lex.toLex_le_toLex]

variable {cfg : Config} {fn : KeyInfo} {main : OrderedMap KeyInfo Entry}
  {h h' : History} {task : Task} {ev : Event} {s s' : Server}

theorem newest_eq_some_iff {p : KeyInfo × Entry} :
    newest main fn = some p ↔ p ∈ main ∧
      p.1.commonPrefix = fn.commonPrefix ∧
      ∀ q ∈ main, q.1.commonPrefix = fn.commonPrefix →
        q.1.version ≤ p.1.version := by
  have hfound : ∀ {x}, newest main fn = some x → x ∈ main ∧
      x.1.commonPrefix = fn.commonPrefix ∧
      ∀ q ∈ main, q.1.commonPrefix = fn.commonPrefix →
        q.1.version ≤ x.1.version := by
    intro x hx
    obtain ⟨hbegins, l₁, l₂, heq, hbefore⟩ :=
      find?_eq_some_iff_append.mp hx
    have hbegins : x.1.commonPrefix = fn.commonPrefix := by
      simpa using hbegins
    refine ⟨mem_of_find?_eq_some hx, hbegins, ?_⟩
    intro q hq hqfn
    have hsorted := main.sorted
    rw [heq, pairwise_append, pairwise_cons] at hsorted
    rw [mem_def, heq, mem_append, mem_cons] at hq
    rcases hq with hq | rfl | hq
    · exact absurd hqfn (by simpa using hbefore q hq)
    · exact le_refl _
    · exact (KeyInfo.le_iff_of_commonPrefix_eq (hbegins.trans hqfn.symm)).mp
        (hsorted.2.1.1 q hq).le
  constructor
  · exact hfound
  · rintro ⟨hp, hbegins, hmax⟩
    cases hnewest : newest main fn with
    | none =>
      have hnot := find?_eq_none.mp hnewest p hp
      simp [hbegins] at hnot
    | some x =>
      obtain ⟨hx, hxprefix, hxmax⟩ := hfound hnewest
      have hversion := le_antisymm (hmax x hx hxprefix) (hxmax p hp hbegins)
      have hname := hxprefix.trans hbegins.symm
      have hkey : x.1 = p.1 := by
        simp only [KeyInfo.commonPrefix, Prod.mk.injEq] at hname
        obtain ⟨⟨xb, xk, xv⟩, xe⟩ := x
        simp_all
      rw [eq_of_mem hx hp hkey]

theorem newest_congr {m m' : OrderedMap KeyInfo Entry}
    (h : ∀ p : KeyInfo × Entry, p.1.commonPrefix = fn.commonPrefix →
      (p ∈ m ↔ p ∈ m')) : newest m fn = newest m' fn := by
  ext p
  rw [newest_eq_some_iff, newest_eq_some_iff]
  constructor
  · rintro ⟨hp, hbegins, hmax⟩
    exact ⟨(h p hbegins).mp hp, hbegins,
      fun q hq hqfn => hmax q ((h q hqfn).mpr hq) hqfn⟩
  · rintro ⟨hp, hbegins, hmax⟩
    exact ⟨(h p hbegins).mpr hp, hbegins,
      fun q hq hqfn => hmax q ((h q hqfn).mp hq) hqfn⟩

theorem newest_insert (v : Entry)
    (h : ∀ p ∈ main, p.1.commonPrefix = fn.commonPrefix →
      p.1.version < fn.version) :
    newest (main.insert fn v) fn = some (fn, v) := by
  rw [newest_eq_some_iff]
  refine ⟨by simp, rfl, ?_⟩
  intro q hq hqfn
  rcases mem_insert.mp hq with rfl | ⟨hq, -⟩
  · exact le_refl _
  · exact (h q hq hqfn).le

/-! ## Drawn versions -/

def Versioned (cfg : Config) (fn : KeyInfo) : Prop :=
  isObjectBucket fn.bucketId ∧ cfg.withVersioning fn.bucketId = true
  deriving Decidable

/-- The key that a request has drawn a version for. -/
def Task.drawn : Task → Option KeyInfo
  | putObject fn _ _ => some fn
  | completeMultipartUpload _ object _ _ _ _ _ _ => some object
  | deleteMarker fn _ => some fn
  | _ => none

/-- The name of the object that a request draws a version for when it
starts. -/
def Event.draws (cfg : Config) : Event → Option (ℤ × Bytes)
  | putObject bucketId key _ _ _ _ _ =>
    if cfg.withVersioning bucketId then some (bucketId, key) else none
  | completeMultipartUpload bucketId key _ _ _ _ _ _ =>
    if cfg.withVersioning bucketId then some (bucketId, key) else none
  | deleteObject bucketId key version _ _ =>
    if cfg.withVersioning bucketId ∧ version = 0 then some (bucketId, key)
    else none
  | _ => none

/-- No request draws a version while another request on the object has drawn
one and not queued its item yet. -/
def SerialDraws (cfg : Config) (h : History) (ev : Event) : Prop :=
  ∀ name ∈ ev.draws cfg, ∀ r ∈ h.server.requests.entries,
    ∀ fn ∈ r.2.drawn, fn.commonPrefix ≠ name

instance (cfg : Config) (h : History) (ev : Event) :
    Decidable (SerialDraws cfg h ev) := by
  unfold SerialDraws
  infer_instance

def Item.writes (i : Item) : List KeyInfo :=
  match i.action with
  | .add _ => [i.fn]
  | _ => []

/-- The writes on the queues, in the order in which they will run. -/
def Store.pendingWrites {ρ : Type} (s : Store ρ) : List KeyInfo :=
  s.pendingItems.flatMap Item.writes

theorem Item.mem_applyMain {i : Item} {p : KeyInfo × Entry}
    (h : p ∈ i.applyMain main) : p.1 ∈ i.writes ∨ ∃ e, (p.1, e) ∈ main := by
  by_cases hkey : p.1 = i.fn
  · have hlook : ∀ e, main.lookup i.fn = some e → ∃ e, (p.1, e) ∈ main := by
      intro e he
      exact ⟨e, hkey ▸ lookup_eq_some.mp he⟩
    unfold applyMain at h
    split at h
    · rename_i hadd
      exact .inl (by simp [writes, hadd, hkey])
    · exact absurd hkey (mem_erase.mp h).2
    · exact absurd hkey (mem_erase.mp h).2
    · split at h
      · exact .inr ⟨p.2, h⟩
      · rename_i e he
        exact .inr (hlook e he)
    · split at h
      · exact .inr ⟨p.2, h⟩
      · rename_i e he
        exact .inr (hlook e he)
    · exact .inr ⟨p.2, h⟩
  · exact .inr ⟨p.2, (mem_applyMain_of_ne hkey).mp h⟩

theorem Item.writes_callbacks (i : Item) (main : OrderedMap KeyInfo Entry) :
    (i.callbacks main).flatMap Item.writes = [] := by
  rw [flatMap_eq_nil_iff]
  intro j hj
  obtain ⟨_, -, hdel, -⟩ := mem_deleteActions (mem_callbacks hj)
  simp [writes, hdel]

theorem Server.Steps.process_writes {h : History} {s' : Server}
    (hsteps : Server.Steps cfg h.server .process s')
    (hs : h.server.Formed cfg) :
    match h.nextItem with
    | some i =>
      h.server.store.pendingWrites = i.writes ++ s'.store.pendingWrites
    | none =>
      s'.store.pendingWrites.Sublist h.server.store.pendingWrites := by
  have hsingle : ∀ i : Item, ((i.callbacks h.server.store.main).map
      single).flatMap (fun c => c.items.flatMap Item.writes) = [] := by
    intro i
    have hnil := i.writes_callbacks h.server.store.main
    simpa [flatMap_map, single, Chain.items] using hnil
  have hnext : ∀ c : Chain, c.next.flatMap
      (fun c => c.items.flatMap Item.writes) = c.linked.flatMap Item.writes := by
    intro c
    unfold Chain.next
    split
    · rename_i hlinked
      simp [hlinked]
    · rename_i hlinked
      simp [hlinked, Chain.items]
  obtain ⟨c, rest, hqueue, hran⟩ | ⟨q, rest, hidle, hqueue, hround⟩ :=
    hsteps.process
  · have hlinked : c.linked = [] := by
      have hhead := hs.callbacks
      rw [hqueue] at hhead
      exact hhead.head.2.1
    simp only [History.nextItem, hqueue, Store.pendingWrites,
      Store.pendingItems, hran.callbackQueue, hran.commitQueue,
      flatMap_append, flatMap_assoc, flatMap_cons,
      popCallback_callbackQueue, popCallback_commitQueue,
      popCallback_main, hnext, hsingle]
    simp [Chain.items, hlinked]
  · obtain ⟨hpass, hran⟩ | ⟨hfail, -, -, hcallbacks, hcommit⟩ := hround
    · simp only [History.nextItem, hidle, hqueue, hpass, if_true,
        Store.pendingWrites, Store.pendingItems, hran.callbackQueue,
        hran.commitQueue, flatMap_append, flatMap_assoc,
        flatMap_cons, popQueued_callbackQueue,
        popQueued_commitQueue, popQueued_main, hnext, hsingle]
      simp [Chain.items]
    · simp [History.nextItem, hidle, hqueue, hfail, Store.pendingWrites,
        Store.pendingItems, hcallbacks, hcommit]

theorem not_versioned_of_isPartialUploadsBucket
    (h : isPartialUploadsBucket fn.bucketId) :
    ¬ Versioned cfg fn :=
  fun hv => not_isPartialUploadsBucket_of_isObjectBucket hv.1 h

theorem not_versioned_of_isPartsBucket
    (h : isPartsBucket fn.bucketId) : ¬ Versioned cfg fn :=
  fun hv => not_isObjectBucket_of_isPartsBucket h hv.1

theorem Task.Formed.writes_chain (h : task.Formed cfg) {now : ℤ} {c : Chain}
    {m : Option MatchInfo} (hchain : task.chain cfg now = some (c, m)) :
    c.items.flatMap Item.writes = [] ∨
      ∃ fn, c.items.flatMap Item.writes = [fn] ∧
        (Versioned cfg fn → task.drawn = some fn) := by
  cases h with
  | putObject | deleteMarker =>
    obtain ⟨⟩ := hchain
    exact .inr ⟨_, rfl, fun _ => rfl⟩
  | @createMultipartUpload bucketId key uploadId _ _ _ hbucket =>
    obtain ⟨⟩ := hchain
    have hupload := isPartialUploadsBucket_uploadKey key uploadId hbucket
    exact .inr ⟨_, rfl, fun hv =>
      absurd hv (not_versioned_of_isPartialUploadsBucket hupload)⟩
  | @putObjectPart bucketId key uploadId partNumber _ _ _ hbucket =>
    obtain ⟨⟩ := hchain
    have hupload := isPartialUploadsBucket_uploadKey key uploadId hbucket
    have hparts := isPartsBucket_partKey uploadId partNumber hupload
    exact .inr ⟨_, rfl, fun hv =>
      absurd hv (not_versioned_of_isPartsBucket hparts)⟩
  | @completeMultipartUpload _ _ _ _ toRead =>
    cases toRead with
    | nil =>
      obtain ⟨⟩ := hchain
      exact .inr ⟨_, rfl, fun _ => rfl⟩
    | cons n toRead => cases hchain
  | _ =>
    obtain ⟨⟩ := hchain
    exact .inl rfl

theorem Server.Steps.process_requests (h : Server.Steps cfg s .process s') :
    s'.requests = s.requests ∧ s'.currVersion = s.currVersion := by
  cases h with
  | start hbucket => simp [Event.bucketId?] at hbucket
  | callback => exact ⟨rfl, rfl⟩
  | passed => exact ⟨rfl, rfl⟩
  | dropped _ _ _ _ hs' =>
    subst hs'
    split
    · exact ⟨rfl, rfl⟩
    · exact ⟨rfl, rfl⟩

/-! ## Versions rise along the queue -/

namespace Server

/-- The keys that are or will be in the main map, as far as they are decided
by the queues. -/
def Known (s : Server) (k : KeyInfo) : Prop :=
  (∃ e, (k, e) ∈ s.store.main) ∨ k ∈ s.store.pendingWrites

/-- Versions of one object rise from the main map along the queues to the
request that has drawn one. -/
structure Rising (cfg : Config) (s : Server) : Prop where
  bound : ∀ k, s.Known k → Versioned cfg k → k.version ≤ s.currVersion
  drawn_bound : ∀ r ∈ s.requests, ∀ fn, r.2.drawn = some fn →
    Versioned cfg fn → fn.version ≤ s.currVersion
  stored : ∀ k e k', (k, e) ∈ s.store.main → k' ∈ s.store.pendingWrites →
    Versioned cfg k → k.commonPrefix = k'.commonPrefix → k.version < k'.version
  queued : s.store.pendingWrites.Pairwise fun k k' =>
    Versioned cfg k → k.commonPrefix = k'.commonPrefix →
    k.version < k'.version
  drawn : ∀ r ∈ s.requests, ∀ fn, r.2.drawn = some fn → Versioned cfg fn →
    ∀ k, s.Known k → k.commonPrefix = fn.commonPrefix → k.version < fn.version
  alone : ∀ r ∈ s.requests, ∀ r' ∈ s.requests, ∀ fn fn',
    r.2.drawn = some fn → r'.2.drawn = some fn' → Versioned cfg fn →
    fn.commonPrefix = fn'.commonPrefix → r.1 = r'.1

theorem rising_init (cfg : Config) : Rising cfg init := by
  have hmain : ∀ p, p ∉ init.store.main := not_mem_empty
  have hrequests : ∀ r, r ∉ init.requests := not_mem_empty
  constructor
  · rintro k (⟨e, he⟩ | hk)
    · exact absurd he (hmain _)
    · simp [init, Store.pendingWrites, Store.pendingItems] at hk
  · intro r hr
    exact absurd hr (hrequests r)
  · intro k e k' he
    exact absurd he (hmain _)
  · exact List.Pairwise.nil
  · intro r hr
    exact absurd hr (hrequests r)
  · intro r hr
    exact absurd hr (hrequests r)

theorem versioned_congr {a b : KeyInfo} (h : a.commonPrefix = b.commonPrefix)
    (ha : Versioned cfg a) :
    Versioned cfg b := by
  have hbucket : a.bucketId = b.bucketId := congrArg Prod.fst h
  exact ⟨hbucket ▸ ha.1, hbucket ▸ ha.2⟩

theorem Opens.draws {s s₁ : Server} (h : Opens cfg s ev s₁ task)
    (hdrawn : task.drawn = some fn) (hversioned : Versioned cfg fn) :
    fn.version = s.currVersion + 1 ∧ s₁.currVersion = s.currVersion + 1 ∧
      ev.draws cfg = some fn.commonPrefix := by
  have hv := hversioned.2
  cases h with
  | putObject | completeMultipartUpload | deleteMarker =>
    cases hdrawn
    simp only at hv
    simp [drawVersion, hv, Event.draws, KeyInfo.commonPrefix]
  | _ => simp [Task.drawn] at hdrawn

theorem Rising.start {h : History} {s₁ : Server} (hrise : h.server.Rising cfg)
    (hserial : SerialDraws cfg h ev) (hopen : Opens cfg h.server ev s₁ task)
    (hle : h.server.currVersion ≤ s₁.currVersion) :
    (s₁.start task).Rising cfg := by
  obtain ⟨hstore, hrequests, hticket, -⟩ := hopen.store_eq
  have hmem : ∀ r ∈ (s₁.start task).requests,
      r = (s₁.nextTicket, task) ∨ r ∈ h.server.requests := by
    intro r hr
    rcases mem_insert.mp hr with rfl | ⟨hr, -⟩
    · exact .inl rfl
    · exact .inr (hrequests ▸ hr)
  have hknown : ∀ k, (s₁.start task).Known k → h.server.Known k := by
    intro k hk
    simpa [Known, Server.start, hstore] using hk
  constructor
  · intro k hk hv
    exact (hrise.bound k (hknown k hk) hv).trans hle
  · intro r hr fn hfn hv
    rcases hmem r hr with rfl | hr
    · obtain ⟨hversion, hcurr, -⟩ := hopen.draws hfn hv
      simp [Server.start, hversion, hcurr]
    · exact (hrise.drawn_bound r hr fn hfn hv).trans hle
  · simpa [Server.start, hstore] using hrise.stored
  · simpa [Server.start, hstore] using hrise.queued
  · intro r hr fn hfn hv k hk hname
    rcases hmem r hr with rfl | hr
    · obtain ⟨hversion, -, -⟩ := hopen.draws hfn hv
      have hbound := hrise.bound k (hknown k hk) (versioned_congr hname.symm hv)
      omega
    · exact hrise.drawn r hr fn hfn hv k (hknown k hk) hname
  · intro r hr r' hr' fn fn' hfn hfn' hv hname
    have hnew : ∀ {fn fn' : KeyInfo} {r : ℕ × Task}, r ∈ h.server.requests →
        task.drawn = some fn → r.2.drawn = some fn' → Versioned cfg fn →
        fn.commonPrefix = fn'.commonPrefix → False := by
      intro fn fn' r hr hfn hfn' hv hname
      obtain ⟨-, -, hdraws⟩ := hopen.draws hfn hv
      exact hserial _ hdraws r hr fn' hfn' hname.symm
    rcases hmem r hr with rfl | hr <;> rcases hmem r' hr' with rfl | hr'
    · rfl
    · exact (hnew hr' hfn hfn' hv hname).elim
    · exact (hnew hr hfn' hfn (versioned_congr hname hv) hname.symm).elim
    · exact hrise.alone r hr r' hr' fn fn' hfn hfn' hv hname

theorem Rising.queue {s : Server} {ticket : ℕ} {now : ℤ} {c : Chain}
    {m : Option MatchInfo} (hrise : s.Rising cfg) (hformed : task.Formed cfg)
    (hrequest : (ticket, task) ∈ s.requests)
    (hchain : task.chain cfg now = some (c, m)) :
    Rising cfg { s with
      requests := s.requests.erase ticket
      store := s.store.enqueue ⟨c, m, some task⟩ } := by
  have hwrites : ∀ fn ∈ c.items.flatMap Item.writes, Versioned cfg fn →
      task.drawn = some fn := by
    obtain hnil | ⟨fn, hfn, hdrawn⟩ := hformed.writes_chain hchain
    · simp [hnil]
    · rw [hfn]
      intro fn' hfn'
      rw [mem_singleton.mp hfn']
      exact hdrawn
  have hpending : (s.store.enqueue ⟨c, m, some task⟩).pendingWrites =
      s.store.pendingWrites ++ c.items.flatMap Item.writes := by
    simp [Store.pendingWrites, Store.pendingItems, Store.enqueue]
  have hknown : ∀ k, Known { s with
      requests := s.requests.erase ticket
      store := s.store.enqueue ⟨c, m, some task⟩ } k →
      s.Known k ∨ k ∈ c.items.flatMap Item.writes := by
    rintro k (hk | hk)
    · exact .inl (.inl hk)
    · simp only [hpending, mem_append] at hk
      rcases hk with hk | hk
      · exact .inl (.inr hk)
      · exact .inr hk
  have hdrawn := hrise.drawn (ticket, task) hrequest
  constructor
  · intro k hk hv
    rcases hknown k hk with hk | hk
    · exact hrise.bound k hk hv
    · exact hrise.drawn_bound _ hrequest k (hwrites k hk hv) hv
  · intro r hr
    exact hrise.drawn_bound r (mem_erase.mp hr).1
  · intro k e k' hk hk' hv hname
    simp only [hpending, mem_append] at hk'
    rcases hk' with hk' | hk'
    · exact hrise.stored k e k' hk hk' hv hname
    · have hv' := versioned_congr hname hv
      exact hdrawn k' (hwrites k' hk' hv') hv' k (.inl ⟨e, hk⟩) hname
  · simp only [hpending]
    rw [pairwise_append]
    refine ⟨hrise.queued, ?_, ?_⟩
    · obtain hnil | ⟨fn, hfn, -⟩ := hformed.writes_chain hchain
      · simp [hnil]
      · simp [hfn]
    · intro k hk k' hk' hv hname
      have hv' := versioned_congr hname hv
      exact hdrawn k' (hwrites k' hk' hv') hv' k (.inr hk) hname
  · intro r hr fn hfn hv k hk hname
    obtain ⟨hr, hne⟩ := mem_erase.mp hr
    rcases hknown k hk with hk | hk
    · exact hrise.drawn r hr fn hfn hv k hk hname
    · have hk' := hwrites k hk (versioned_congr hname.symm hv)
      exact absurd (hrise.alone r hr _ hrequest fn k hfn hk' hv hname.symm) hne
  · intro r hr r' hr'
    exact hrise.alone r (mem_erase.mp hr).1 r' (mem_erase.mp hr').1

theorem Rising.of_requests (hrise : s.Rising cfg) (hstore : s'.store = s.store)
    (hversion : s'.currVersion = s.currVersion)
    (hrequests : ∀ r ∈ s'.requests, ∃ r' ∈ s.requests,
      r'.1 = r.1 ∧ r'.2.drawn = r.2.drawn) : s'.Rising cfg := by
  have hknown : ∀ k, s'.Known k → s.Known k := by
    intro k hk
    simpa [Known, hstore] using hk
  constructor
  · intro k hk hv
    rw [hversion]
    exact hrise.bound k (hknown k hk) hv
  · intro r hr fn hfn hv
    obtain ⟨r₀, hr₀, -, hdrawn⟩ := hrequests r hr
    rw [hversion]
    exact hrise.drawn_bound r₀ hr₀ fn (hdrawn.trans hfn) hv
  · rw [hstore]
    exact hrise.stored
  · rw [hstore]
    exact hrise.queued
  · intro r hr fn hfn hv k hk hname
    obtain ⟨r₀, hr₀, -, hdrawn⟩ := hrequests r hr
    exact hrise.drawn r₀ hr₀ fn (hdrawn.trans hfn) hv k (hknown k hk) hname
  · intro r hr r' hr' fn fn' hfn hfn' hv hname
    obtain ⟨r₀, hr₀, hticket, hdrawn⟩ := hrequests r hr
    obtain ⟨r₁, hr₁, hticket', hdrawn'⟩ := hrequests r' hr'
    rw [← hticket, ← hticket']
    exact hrise.alone r₀ hr₀ r₁ hr₁ fn fn' (hdrawn.trans hfn)
      (hdrawn'.trans hfn') hv hname

theorem Rising.of_store (hrise : s.Rising cfg)
    (hrequests : s'.requests = s.requests)
    (hversion : s'.currVersion = s.currVersion)
    (hknown : ∀ k, s'.Known k → s.Known k)
    (hstored : ∀ k e k', (k, e) ∈ s'.store.main →
      k' ∈ s'.store.pendingWrites → Versioned cfg k →
      k.commonPrefix = k'.commonPrefix → k.version < k'.version)
    (hsub : s'.store.pendingWrites.Sublist s.store.pendingWrites) :
    s'.Rising cfg := by
  constructor
  · intro k hk hv
    rw [hversion]
    exact hrise.bound k (hknown k hk) hv
  · rw [hrequests, hversion]
    exact hrise.drawn_bound
  · exact hstored
  · exact hrise.queued.sublist hsub
  · rw [hrequests]
    intro r hr fn hfn hv k hk
    exact hrise.drawn r hr fn hfn hv k (hknown k hk)
  · rw [hrequests]
    exact hrise.alone

theorem Rising.process (hrise : h.server.Rising cfg) (hinv : h.Inv cfg)
    (hrec : h.Recorded cfg .process h') : h'.server.Rising cfg := by
  obtain ⟨hrequests, hversion⟩ := hrec.steps.process_requests
  have hwrites := hrec.steps.process_writes hinv.formed
  have hmain := (hrec.process hinv).1
  cases hnext : h.nextItem with
  | some i =>
    simp only [hnext, Option.elim_some] at hwrites hmain
    have hkeys : ∀ k e, (k, e) ∈ h'.server.store.main →
        k ∈ i.writes ∨ ∃ e, (k, e) ∈ h.server.store.main := by
      intro k e hk
      rw [hmain] at hk
      exact Item.mem_applyMain hk
    have hqueued := hrise.queued
    rw [hwrites, pairwise_append] at hqueued
    apply hrise.of_store hrequests hversion
    · rintro k (⟨e, hk⟩ | hk)
      · rcases hkeys k e hk with hk | hk
        · exact .inr (by simp [hwrites, hk])
        · exact .inl hk
      · exact .inr (by simp [hwrites, hk])
    · intro k e k' hk hk' hv hname
      rcases hkeys k e hk with hk | ⟨e', hk⟩
      · exact hqueued.2.2 k hk k' hk' hv hname
      · exact hrise.stored k e' k' hk (by simp [hwrites, hk']) hv hname
    · rw [hwrites]
      exact sublist_append_right _ _
  | none =>
    simp only [hnext, Option.elim_none] at hwrites hmain
    apply hrise.of_store hrequests hversion
    · rintro k (hk | hk)
      · exact .inl (hmain ▸ hk)
      · exact .inr (hwrites.subset hk)
    · intro k e k' hk hk'
      exact hrise.stored k e k' (hmain ▸ hk) (hwrites.subset hk')
    · exact hwrites

theorem Rising.step (hrise : h.server.Rising cfg) (hinv : h.Inv cfg)
    (hserial : SerialDraws cfg h ev) (hrec : h.Recorded cfg ev h') :
    h'.server.Rising cfg := by
  by_cases hev : ev = .process
  · subst hev
    exact hrise.process hinv hrec
  · have hsteps := hrec.steps
    have hle := hsteps.counters_le.1
    generalize h'.server = s' at hsteps hle
    cases hsteps with
    | start hbucket hobject hopen => exact hrise.start hserial hopen hle
    | readPart hrequest hpart =>
      refine hrise.of_requests ?_ ?_ ?_
      · rfl
      · rfl
      · intro r hr
        rcases mem_insert.mp hr with rfl | ⟨hr, -⟩
        · exact ⟨_, hrequest, rfl, rfl⟩
        · exact ⟨r, hr, rfl, rfl⟩
    | queue hrequest hchain =>
      exact hrise.queue (hinv.formed.requests _ hrequest) hrequest hchain
    | giveUp hrequest =>
      refine hrise.of_requests ?_ ?_ ?_
      · rfl
      · rfl
      · intro r hr
        exact ⟨r, (mem_erase.mp hr).1, rfl, rfl⟩
    | callback | passed | dropped => exact absurd rfl hev
    | @freeExtents index exts hexts =>
      have hpending : (h.server.store.enqueue
          ⟨⟨{ action := .freeExtents exts }, []⟩, none,
            none⟩).pendingWrites = h.server.store.pendingWrites := by
        simp [Store.pendingWrites, Store.pendingItems, Store.enqueue,
          Chain.items, Item.writes]
      refine hrise.of_store ?_ ?_ ?_ ?_ ?_
      · rfl
      · rfl
      · intro k hk
        simpa [Known, hpending] using hk
      · simpa [hpending] using hrise.stored
      · rw [hpending]

end Server

/-! ## The last write is the newest -/

namespace History

def lastApplied (h : History) (name : ℤ × Bytes) : Option Item :=
  (h.applied.filter fun i => i.fn.commonPrefix = name).getLast?

/-- What holds along runs in which requests on one object do not overlap
between drawing a version and queueing their item. -/
structure InOrder (cfg : Config) (h : History) : Prop where
  inv : h.Inv cfg
  rising : h.server.Rising cfg
  /-- Every write met only older versions of its object. -/
  fresh : ∀ fn v before, (⟨fn, .add v⟩, before) ∈ h.ran → Versioned cfg fn →
    ∀ p ∈ before, p.1.commonPrefix = fn.commonPrefix → p.1.version < fn.version
  last : ∀ fn v, Versioned cfg fn →
    h.lastApplied fn.commonPrefix = some ⟨fn, .add v⟩ →
    newest h.server.store.main fn = some (fn, v)

theorem inOrder_init (cfg : Config) : InOrder cfg init where
  inv := inv_init cfg
  rising := Server.rising_init cfg
  fresh := by simp [init, ran]
  last := by simp [init, lastApplied, applied]

theorem InOrder.lt_next (hord : h.InOrder cfg)
    (hrec : h.Recorded cfg .process h') {v : Entry}
    (hnext : h.nextItem = some ⟨fn, .add v⟩) (hv : Versioned cfg fn) :
    ∀ p ∈ h.server.store.main, p.1.commonPrefix = fn.commonPrefix →
      p.1.version < fn.version := by
  intro p hp hname
  have hwrites := hrec.steps.process_writes hord.inv.formed
  simp only [hnext, Item.writes, singleton_append] at hwrites
  exact hord.rising.stored p.1 p.2 fn hp (by simp [hwrites])
    (Server.versioned_congr hname.symm hv) hname

theorem InOrder.process (hord : h.InOrder cfg)
    (hrec : h.Recorded cfg .process h') :
    h'.InOrder cfg := by
  obtain ⟨hmain, hran⟩ := hrec.process hord.inv
  cases hnext : h.nextItem with
  | none =>
    simp only [hnext, Option.elim_none, Option.toList_none, map_nil,
      append_nil] at hmain hran
    refine ⟨hord.inv.step hrec, hord.rising.process hord.inv hrec, ?_, ?_⟩
    · rw [hran]
      exact hord.fresh
    · have happlied : h'.applied = h.applied := by
        rw [applied_eq, hran, ← applied_eq]
      simp only [lastApplied, happlied, hmain]
      exact hord.last
  | some i =>
    simp only [hnext, Option.elim_some, Option.toList_some, map_cons,
      map_nil] at hmain hran
    refine ⟨hord.inv.step hrec, hord.rising.process hord.inv hrec, ?_, ?_⟩
    · intro fn v before hmem hv
      rw [hran, mem_append, mem_singleton] at hmem
      rcases hmem with hmem | heq
      · exact hord.fresh fn v before hmem hv
      · obtain ⟨rfl, rfl⟩ := Prod.mk.inj heq
        exact hord.lt_next hrec hnext hv
    · intro fn v hv hlast
      have happlied : h'.applied = h.applied ++ [i] := by
        rw [applied_eq, hran, map_append, ← applied_eq]
        rfl
      rw [lastApplied, happlied, filter_append] at hlast
      by_cases hname : i.fn.commonPrefix = fn.commonPrefix
      · simp only [filter_cons, hname, decide_true, if_true,
          filter_nil, getLast?_append, getLast?_singleton,
          Option.some_or, Option.some.injEq] at hlast
        subst hlast
        rw [hmain]
        exact newest_insert v (hord.lt_next hrec hnext hv)
      · simp only [filter_cons, hname, decide_false,
          Bool.false_eq_true, if_false, filter_nil,
          append_nil] at hlast
        rw [← hord.last fn v hv hlast, hmain]
        apply newest_congr
        intro p hp
        apply Item.mem_applyMain_of_ne
        rintro heq
        exact hname (heq ▸ hp)

theorem InOrder.step (hord : h.InOrder cfg) (hserial : SerialDraws cfg h ev)
    (hstep : h.step cfg ev = some h') : h'.InOrder cfg := by
  have hrec := step_recorded hstep
  by_cases hev : ev = .process
  · subst hev
    exact hord.process hrec
  · obtain ⟨hmain, hran, hpast⟩ := hrec.client hev
    refine ⟨hord.inv.step hrec, hord.rising.step hord.inv hserial hrec, ?_, ?_⟩
    · rw [hran]
      exact hord.fresh
    · simp only [lastApplied, applied, hpast, hmain]
      exact hord.last

/-- A write to a bucket with versioning, when it is applied. -/
structure AppliedNewest (t : Taken) (fn : KeyInfo) (v : Entry)
    (before : OrderedMap KeyInfo Entry) : Prop where
  /-- A read of the newest version returns the write. -/
  visible : newest (before.insert fn v) fn = some (fn, v)
  /-- The conditions were met by the version that it replaces as the
  newest. -/
  replaced : ∀ m, t.queued.matchInfo = some m →
    (match newest before fn with
      | none => m.setNotFound
      | some p => onMatchCallback m p.2).isMatch = true

theorem InOrder.appliedNewest {h : History} (hord : h.InOrder cfg)
    {newer older : List Taken} {t : Taken}
    (hpast : h.past = newer ++ t :: older) {v : Entry}
    {before : OrderedMap KeyInfo Entry} (hi : (⟨fn, .add v⟩, before) ∈ t.run)
    (hv : Versioned cfg fn) : AppliedNewest t fn v before := by
  have hran : (⟨fn, .add v⟩, before) ∈ h.ran := by
    simp only [ran, hpast, mem_flatMap, mem_reverse]
    exact ⟨t, by simp, hi⟩
  refine ⟨newest_insert v (hord.fresh fn v before hran hv), ?_⟩
  intro m hm
  have hsound := hord.inv.sound_of_append hpast
  have hlinear := hord.inv.linear
  rw [hpast] at hlinear
  obtain ⟨main, -, hlinear⟩ := hlinear.split
  have hatomic := hsound.atomic hlinear.1
  have hpass := hatomic.verdict.mp (ne_nil_of_mem hi)
  have hadd : ⟨fn, .add v⟩ ∈ t.queued.chain.items := by
    have hmem : (⟨fn, .add v⟩ : Item) ∈ t.items ++ h.pendingOf newer :=
      mem_append_left _ (mem_map_of_mem hi)
    rcases hsound.mem_items hmem with hmem | ⟨hdel, -⟩
    · exact hmem
    · simp at hdel
  obtain ⟨hread, hnewest⟩ := (hsound.formed.checks hadd hv.1 hm).versioned hv.2
  have hsame : newest t.checked fn = newest before fn := by
    apply newest_congr
    intro p hp
    rw [← lookup_eq_some, ← lookup_eq_some,
      hatomic.unchanged _ _ hi hadd p.1 hp]
  simp only [Store.passes, hm, Option.all_some, fragInfoMatches, hread,
    hnewest, Option.isSome_some, and_self, if_true, Option.getD_some,
    hsame] at hpass
  cases hnew : newest before fn with
  | none | some p => simpa [hnew] using hpass

/-- In a run in which no request draws a version of an object while another
has drawn one and not queued its item, versions are ordered as their writes
are applied: the write to an object that was applied last is read as its
newest version, every write was when it was applied, and its conditions were
met by the version that was the newest until then. -/
theorem newest_of_lastApplied (cfg : Config) {h : History}
    (hrun : Run (step cfg) (SerialDraws cfg) init h) :
    (∀ fn v, Versioned cfg fn →
        h.lastApplied fn.commonPrefix = some ⟨fn, .add v⟩ →
        newest h.server.store.main fn = some (fn, v)) ∧
      ∀ t ∈ h.past, ∀ fn v before, (⟨fn, .add v⟩, before) ∈ t.run →
        Versioned cfg fn → AppliedNewest t fn v before := by
  have hord : h.InOrder cfg := by
    refine hrun.invariant (inOrder_init cfg) ?_
    intro h ev h' hord hserial hstep
    exact hord.step hserial hstep
  refine ⟨hord.last, ?_⟩
  intro t ht fn v before hi hv
  obtain ⟨newer, older, hpast⟩ := append_of_mem ht
  exact hord.appliedNewest hpast hi hv

/-- Buckets with versioning and without object lock. -/
def versionedBuckets : Config := ⟨fun _ => true, fun _ => false⟩

/-- A write of the object `a`. -/
def write (start : ℤ) : Event :=
  .putObject 1 [97] [⟨start, 10⟩] 0 [] ⟨none, false⟩ {}

/-- Two writes that do not overlap: the second is the newest. -/
theorem newest_of_lastApplied_write :
    ∃ h v, exec (guarded (step versionedBuckets)
          (SerialDraws versionedBuckets)) init
        [write 4096, .queue 0 0, write 8192, .queue 1 0, .process,
          .process] = some h ∧
      h.lastApplied (1, [97]) = some ⟨⟨1, [97], 2⟩, .add v⟩ ∧
      newest h.server.store.main ⟨1, [97], 2⟩ = some (⟨1, [97], 2⟩, v) := by
  obtain ⟨h, hh, hlast⟩ : ∃ h ∈ exec (guarded (step versionedBuckets)
      (SerialDraws versionedBuckets)) init
        [write 4096, .queue 0 0, write 8192, .queue 1 0, .process, .process],
      h.lastApplied (1, [97]) = some ⟨⟨1, [97], 2⟩, .add ⟨[⟨8192, 10⟩], 0,
        .object [] ⟨none, false⟩⟩⟩ := by decide
  refine ⟨h, _, hh, hlast, ?_⟩
  exact (newest_of_lastApplied versionedBuckets (run_of_exec_guarded hh)).1
    _ _ (by decide) hlast

/-- Two writes of one object, the first of which is queued last: what was
applied last is version 1, what is read is version 2. -/
theorem newest_ne_lastApplied :
    (exec (step versionedBuckets) init
        [write 4096, write 8192, .queue 1 0, .queue 0 0, .process,
          .process]).map (fun h =>
        ((h.lastApplied (1, [97])).map fun i => i.fn.version,
          (newest h.server.store.main ⟨1, [97], 1⟩).map
            fun p => p.1.version)) =
      some (some 1, some 2) := by
  decide

end History

end Hs5.S3
