import Hs5.S3.Server
import Hs5.S3.UnsyncedReads
import Mathlib.Tactic.Ring

/-!
# Reads see the writes that were queued before them

A read that starts after a change of its key was queued returns what the main
map had at some moment after the start when no such change was on its way any
more.  If `commit_items` has no entry for the key when the read starts, no
change of the key is on its way and the last LMDB commit is up to date.
Otherwise the item of the read is behind all changes on the commit queue.
-/

namespace Hs5.S3

open Option OrderedMap Transition

namespace UnsyncedStore

variable {hash : ℤ × Bytes → ℕ} {s s' : UnsyncedStore}

/-! ## Counts -/

def writeCount (hash : ℤ × Bytes → ℕ) (h : ℕ) (items : List Write) : ℕ :=
  items.countP fun i =>
    i.action.hasCommitItem && decide (hash i.fn.commonPrefix = h)

@[simp] theorem writeCount_append (h : ℕ) (l₁ l₂ : List Write) :
    writeCount hash h (l₁ ++ l₂) =
      writeCount hash h l₁ + writeCount hash h l₂ :=
  List.countP_append

theorem writeCount_cons (h : ℕ) (i : Write) (items : List Write) :
    writeCount hash h (i :: items) =
      writeCount hash h [i] + writeCount hash h items :=
  writeCount_append h [i] items

theorem lookup_countWrites (d : ℤ) (items : List Write)
    (counts : OrderedMap ℕ ℤ) (h : ℕ) :
    ((countWrites hash d items counts).lookup h).getD 0 =
      (counts.lookup h).getD 0 + d * writeCount hash h items := by
  induction items generalizing counts with
  | nil => simp [countWrites, writeCount]
  | cons i items ih =>
    have hcons : countWrites hash d (i :: items) counts =
        countWrites hash d items (countWrites hash d [i] counts) := rfl
    have hone : ((countWrites hash d [i] counts).lookup h).getD 0 =
        (counts.lookup h).getD 0 + d * writeCount hash h [i] := by
      by_cases hcommit : i.action.hasCommitItem = true
      · by_cases hname : hash i.fn.commonPrefix = h
        · simp [countWrites, writeCount, hcommit, hname]
        · have hne : h ≠ hash i.fn.commonPrefix := fun heq => hname heq.symm
          simp [countWrites, writeCount, hcommit, hname,
            lookup_insert_of_ne _ _ hne]
      · simp [countWrites, writeCount, hcommit]
    rw [hcons, ih, writeCount_cons, hone]
    push_cast
    ring

theorem isSome_countWrites (d : ℤ) (items : List Write)
    {counts : OrderedMap ℕ ℤ} {h : ℕ} (hsome : (counts.lookup h).isSome) :
    ((countWrites hash d items counts).lookup h).isSome := by
  induction items generalizing counts with
  | nil => exact hsome
  | cons i items ih =>
    apply ih
    beta_reduce
    split
    · by_cases hname : h = hash i.fn.commonPrefix
      · simp [hname]
      · rw [lookup_insert_of_ne _ _ hname]
        exact hsome
    · exact hsome

theorem isSome_countWrites_singleton (d : ℤ) {i : Write}
    (hi : i.action.hasCommitItem = true) (counts : OrderedMap ℕ ℤ) :
    ((countWrites hash d [i] counts).lookup
      (hash i.fn.commonPrefix)).isSome := by
  simp [countWrites, hi]

/-! ## Actions -/

theorem hasCommitItem_of_mutates {a : WriteAction} (h : a.mutates = true)
    (hmod : a.isModifyData = false) : a.hasCommitItem = true := by
  cases a with
  | delWithQueued => rfl
  | queueDel => cases h
  | request a =>
    cases a with
    | modifyData => cases hmod
    | freeExtents => cases h
    | _ => rfl

theorem lookup_applyMain_of_ne {i : Write} {main : OrderedMap KeyInfo Entry}
    {k : KeyInfo} (hk : k ≠ i.fn) :
    (i.applyMain main).lookup k = main.lookup k := by
  obtain ⟨fn, action⟩ := i
  cases action with
  | request a =>
    apply lookup_congr
    intro v
    exact Item.mem_applyMain_of_ne (i := ⟨fn, a⟩) (p := (k, v)) hk
  | delWithQueued => exact lookup_erase_of_ne _ hk
  | queueDel => rfl

theorem applyMain_of_not_mutates {i : Write}
    {main : OrderedMap KeyInfo Entry} (h : i.action.mutates = false) :
    i.applyMain main = main := by
  obtain ⟨fn, action⟩ := i
  cases action with
  | delWithQueued => cases h
  | queueDel => rfl
  | request a =>
    cases a with
    | freeExtents => rfl
    | _ => cases h

variable {c : WriteChain} {callbackQueue : List (ℕ × WriteChain)}
  {commitQueue : List QueueEntry} {r : ReadCall} {reader : ℕ} {seq : ℕ}
  {p : ℕ × KeyInfo}

theorem writeCount_linked (hfrom : c.fromRequest = true)
    (hwrite : c.item.action.needsWrite = true) (h : ℕ) :
    writeCount hash h c.linked = 0 := by
  obtain ⟨⟨fn, action⟩, linked, matchInfo⟩ := c
  unfold WriteChain.fromRequest at hfrom
  split at hfrom
  · rename_i hnil
    simp only at hnil
    subst hnil
    rfl
  · rename_i hlinked
    simp only at hlinked
    subst hlinked
    rfl
  · rename_i haction hlinked
    simp only at haction
    subst haction
    cases hwrite
  · cases hfrom

theorem next_linked {c c' : WriteChain} (hfrom : c.fromRequest = true)
    (hc' : c' ∈ c.next) : c'.linked = [] := by
  obtain ⟨⟨fn, action⟩, linked, matchInfo⟩ := c
  unfold WriteChain.fromRequest at hfrom
  split at hfrom
  · rename_i hnil
    simp only at hnil
    subst hnil
    cases hc'
  · rename_i hlinked
    simp only at hlinked
    subst hlinked
    rw [List.mem_singleton.mp hc']
  · rename_i hlinked
    simp only at hlinked
    subst hlinked
    rw [List.mem_singleton.mp hc']
  · cases hfrom

/-! ## What reads may return -/

/-- No change of the object that was queued before the read is on its way. -/
def Settled (pending : List (ℕ × KeyInfo)) (r : ReadCall) : Prop :=
  ∀ p ∈ pending, p.1 < r.since → p.2.commonPrefix ≠ r.fn.commonPrefix

def find (main : OrderedMap KeyInfo Entry) (r : ReadCall) : FragResult :=
  findFragInfo KeyInfo.commonPrefix main r.fn r.flags.readNewest

/-- The result was there at some moment since the read has started when all
changes that were queued before it had been made. -/
def Allowed (past : List Moment) (r : ReadCall) (result : FragResult) :
    Prop :=
  ∃ m ∈ past.drop r.start, Settled m.pending r ∧ result = find m.main r

/-! ## What a round of the commit thread does -/

inductive Pops (s : UnsyncedStore) : ℕ → WriteChain →
    List (ℕ × WriteChain) → List QueueEntry → Prop
  | callback {seq c rest} (hqueue : s.callbackQueue = (seq, c) :: rest) :
      Pops s seq c rest s.commitQueue
  | queue {seq c rest} (hcallback : s.callbackQueue = [])
      (hqueue : s.commitQueue = .write seq c :: rest) : Pops s seq c [] rest

def popped (hash : ℤ × Bytes → ℕ) (s : UnsyncedStore) (c : WriteChain)
    (callbackQueue : List (ℕ × WriteChain)) (commitQueue : List QueueEntry)
    (log : List WriteChain) (startupWalItems : ℕ) : UnsyncedStore :=
  { s with
    callbackQueue := callbackQueue
    commitQueue := commitQueue
    commitItems := countWrites hash (-1) [c.item] s.commitItems
    log := log
    startupWalItems := startupWalItems }

def Logs (s : UnsyncedStore) (c : WriteChain) (log : List WriteChain) :
    Prop :=
  log = s.log ∨ c.item.action.needsWrite = true ∧ log = s.log ++ [c]

inductive Rounds (hash : ℤ × Bytes → ℕ) (s : UnsyncedStore) :
    UnsyncedStore → Prop
  | run {seq c callbackQueue commitQueue log n isReading}
      (hpops : Pops s seq c callbackQueue commitQueue)
      (hlog : s.Logs c log) :
      Rounds hash s ((s.popped hash c callbackQueue commitQueue log
        n).runChain hash seq c isReading)
  | drop {seq c callbackQueue commitQueue log n}
      (hpops : Pops s seq c callbackQueue commitQueue)
      (hlog : s.Logs c log) :
      Rounds hash s { s.popped hash c callbackQueue commitQueue log n with
        commitItems := countWrites hash (-1) c.linked
          (s.popped hash c callbackQueue commitQueue log n).commitItems }
  | read {reader rest readers} (hcallback : s.callbackQueue = [])
      (hqueue : s.commitQueue = .read reader :: rest)
      (hreaders : ∀ q ∈ readers, q ∈ s.readers ∨
        ∃ r, (reader, r) ∈ s.readers ∧
          q = (reader, { r with stage := .done (find s.main r) })) :
      Rounds hash s { s with commitQueue := rest, readers := readers }

theorem writeLog_eq (s : UnsyncedStore) (c : WriteChain) :
    ∃ log, s.writeLog c = { s with log := log } ∧ s.Logs c log := by
  unfold writeLog
  split
  · rename_i hwrite
    exact ⟨_, rfl, .inr ⟨hwrite, rfl⟩⟩
  · exact ⟨s.log, rfl, .inl rfl⟩

theorem readFragInfo_eq (s : UnsyncedStore) (reader : ℕ) :
    ∃ readers, s.readFragInfo reader = { s with readers := readers } ∧
      ∀ q ∈ readers, q ∈ s.readers ∨ ∃ r, (reader, r) ∈ s.readers ∧
        q = (reader, { r with stage := .done (find s.main r) }) := by
  unfold readFragInfo
  split
  · exact ⟨_, rfl, fun _ hq => .inl hq⟩
  · rename_i r hr
    refine ⟨_, rfl, fun q hq => ?_⟩
    rcases mem_insert.mp hq with rfl | ⟨hq, -⟩
    · exact .inr ⟨r, lookup_eq_some.mp hr, rfl⟩
    · exact .inl hq

theorem process_rounds {isReading : Bool}
    (h : s.process hash isReading = some s') :
    s.committing = false ∧ Rounds hash s s' := by
  unfold process at h
  split at h
  · cases h
  · rename_i hidle
    refine ⟨by simpa using hidle, ?_⟩
    split at h
    · rename_i seq c rest hqueue
      cases h
      obtain ⟨log, heq, hlog⟩ := writeLog_eq { s with
        callbackQueue := rest
        commitItems := countWrites hash (-1) [c.item] s.commitItems } c
      rw [heq]
      exact Rounds.run (n := s.startupWalItems) (.callback hqueue) hlog
    · rename_i seq c rest hcallback hqueue
      obtain ⟨log, heq, hlog⟩ : ∃ log, (if s.startupWalItems ≠ 0 then
          s.popped hash c [] rest s.log (s.startupWalItems - 1)
        else (s.popped hash c [] rest s.log
          (s.startupWalItems - 1)).writeLog c) =
            s.popped hash c [] rest log (s.startupWalItems - 1) ∧
          s.Logs c log := by
        split
        · exact ⟨s.log, rfl, .inl rfl⟩
        · exact writeLog_eq (s.popped hash c [] rest s.log
            (s.startupWalItems - 1)) c
      have hpopped : ({ s with
          commitQueue := rest
          commitItems := countWrites hash (-1) [c.item] s.commitItems
          startupWalItems := s.startupWalItems - 1 } : UnsyncedStore) =
            s.popped hash c [] rest s.log (s.startupWalItems - 1) := by
        simp [popped, hcallback]
      simp only [hpopped, heq] at h
      split at h
      · cases h
        exact Rounds.run (.queue hcallback hqueue) hlog
      · cases h
        exact Rounds.drop (.queue hcallback hqueue) hlog
    · rename_i reader rest hcallback hqueue
      cases h
      obtain ⟨readers, heq, hreaders⟩ :=
        readFragInfo_eq { s with commitQueue := rest } reader
      rw [heq]
      exact Rounds.read hcallback hqueue hreaders
    · cases h

theorem Pops.items (h : Pops s seq c callbackQueue commitQueue) :
    s.pendingItems = c.items ++
      ((callbackQueue.flatMap fun p => p.2.items) ++
        commitQueue.flatMap QueueEntry.items) := by
  cases h with
  | callback hqueue => simp [pendingItems, hqueue]
  | queue hcallback hqueue =>
    simp [pendingItems, hcallback, hqueue, QueueEntry.items]

theorem Pops.changes (h : Pops s seq c callbackQueue commitQueue) :
    s.pendingChanges = c.changes seq ++
      ((callbackQueue.flatMap fun p => p.2.changes p.1) ++
        commitQueue.flatMap QueueEntry.changes) := by
  cases h with
  | callback hqueue => simp [pendingChanges, hqueue]
  | queue hcallback hqueue =>
    simp [pendingChanges, hcallback, hqueue, QueueEntry.changes]

theorem items_next (c : WriteChain) :
    c.next.flatMap WriteChain.items = c.linked := by
  obtain ⟨i, linked, matchInfo⟩ := c
  cases linked with
  | nil => rfl
  | cons j linked => simp [WriteChain.next, WriteChain.items]

theorem mem_changes_of_next
    (hp : p ∈ c.next.flatMap fun c => c.changes seq) : p ∈ c.changes seq := by
  obtain ⟨i, linked, matchInfo⟩ := c
  cases linked with
  | nil => cases hp
  | cons j linked =>
    simp only [WriteChain.next, List.flatMap_singleton,
      WriteChain.changes, WriteChain.items, List.mem_map] at hp ⊢
    obtain ⟨k, hk, rfl⟩ := hp
    exact ⟨k, (List.sublist_cons_self i _).filter _ |>.subset hk, rfl⟩

theorem pendingItems_runChain (s : UnsyncedStore) (seq : ℕ) (c : WriteChain)
    (isReading : Bool) (h : ℕ) :
    writeCount hash h (s.runChain hash seq c isReading).pendingItems =
      writeCount hash h s.pendingItems + writeCount hash h c.linked +
        writeCount hash h (c.item.callbacks s.main isReading) := by
  have hnext : (c.next.map fun c => (seq, c)).flatMap
      (fun p => p.2.items) = c.linked := by
    rw [List.flatMap_map]
    exact items_next c
  have hsingle : ((c.item.callbacks s.main isReading).map
      fun i => (s.nextSeq, (⟨i, [], none⟩ : WriteChain))).flatMap
        (fun p => p.2.items) = c.item.callbacks s.main isReading := by
    simp [List.flatMap_map, WriteChain.items]
  simp only [pendingItems, runChain, List.flatMap_append, hnext, hsingle,
    writeCount_append]
  omega

/-! ## The counts -/

def Counted (hash : ℤ × Bytes → ℕ) (s : UnsyncedStore) : Prop :=
  ∀ h, (s.commitItems.lookup h).getD 0 = writeCount hash h s.pendingItems

theorem Counted.round (hcounted : s.Counted hash)
    (hround : Rounds hash s s') : s'.Counted hash := by
  intro h
  have hold := hcounted h
  cases hround with
  | @run seq c callbackQueue commitQueue log n isReading hpops hlog =>
    rw [hpops.items, writeCount_append, WriteChain.items,
      writeCount_cons] at hold
    rw [pendingItems_runChain]
    simp only [runChain, popped, pendingItems, lookup_countWrites,
      writeCount_append, hold]
    push_cast
    ring
  | @drop seq c callbackQueue commitQueue log n hpops hlog =>
    rw [hpops.items, writeCount_append, WriteChain.items,
      writeCount_cons] at hold
    simp only [popped, pendingItems, lookup_countWrites,
      writeCount_append, hold]
    push_cast
    ring
  | read hcallback hqueue hreaders =>
    simpa [pendingItems, hqueue, QueueEntry.items] using hold

theorem Counted.enqueue (hcounted : s.Counted hash) (c : WriteChain) :
    (s.enqueue hash c).Counted hash := by
  intro h
  have hold := hcounted h
  simp only [pendingItems, writeCount_append] at hold
  simp only [UnsyncedStore.enqueue, pendingItems, lookup_countWrites,
    List.flatMap_append, List.flatMap_singleton, QueueEntry.items,
    writeCount_append, hold]
  push_cast
  ring

theorem writeCount_flatMap {items : List WriteChain}
    (hitems : ∀ c ∈ items, c.fromRequest = true ∧
      c.item.action.needsWrite = true) (h : ℕ) :
    writeCount hash h (items.flatMap WriteChain.items) =
      writeCount hash h (items.map WriteChain.item) := by
  induction items with
  | nil => rfl
  | cons c items ih =>
    have hc := hitems c List.mem_cons_self
    have hrest := ih fun c' hc' => hitems c' (List.mem_cons_of_mem _ hc')
    rw [List.flatMap_cons, List.map_cons, writeCount_append, hrest,
      writeCount_cons, WriteChain.items, writeCount_cons,
      writeCount_linked hc.1 hc.2]
    omega

theorem counted_restart (hlog : ∀ c ∈ s.log, c.fromRequest = true ∧
      c.item.action.needsWrite = true) (survivors : ℕ) :
    (s.restart hash survivors).Counted hash := by
  intro h
  have hitems : ∀ c ∈ s.log.take survivors, c.fromRequest = true ∧
      c.item.action.needsWrite = true :=
    fun c hc => hlog c (List.mem_of_mem_take hc)
  have hpending : (s.restart hash survivors).pendingItems =
      (s.log.take survivors).flatMap WriteChain.items := by
    rw [pendingItems, restart, List.flatMap_nil, List.nil_append,
      List.flatMap_map]
    rfl
  have hempty : (OrderedMap.empty : OrderedMap ℕ ℤ).lookup h = none := rfl
  rw [hpending, writeCount_flatMap hitems, restart, lookup_countWrites, hempty]
  simp

/-! ## What the last LMDB commit lacks -/

/-- Entries of `commit_items` cover the difference to the last LMDB commit,
but for `ModifyData`. -/
structure Covered (hash : ℤ × Bytes → ℕ) (s : UnsyncedStore) : Prop where
  items : ∀ k, s.committed.lookup k = s.main.lookup k ∨
    s.onItsWay hash k = true ∨ hash k.commonPrefix ∈ s.modified
  committing : s.committing = true → s.committed = s.main

theorem Covered.runChain (h : Covered hash s) (hidle : s.committing = false)
    (hway : c.item.action.hasCommitItem = true →
      s.onItsWay hash c.item.fn = true) (isReading : Bool) :
    Covered hash (s.runChain hash seq c isReading) := by
  have hmodified : ∀ n ∈ s.modified,
      n ∈ (s.runChain hash seq c isReading).modified := by
    intro n hn
    unfold UnsyncedStore.runChain
    simp only
    split
    · exact List.mem_cons_of_mem _ hn
    · exact hn
  refine ⟨?_, fun hcommitting => ?_⟩
  · intro k
    have hold : s.committed.lookup k = s.main.lookup k ∨
        (s.runChain hash seq c isReading).onItsWay hash k = true ∨
        hash k.commonPrefix ∈ (s.runChain hash seq c isReading).modified :=
      (h.items k).imp_right (Or.imp (isSome_countWrites _ _) (hmodified _))
    change s.committed.lookup k = (c.item.applyMain s.main).lookup k ∨ _
    by_cases hk : k = c.item.fn
    · subst hk
      by_cases hmut : c.item.action.mutates = true
      · cases hmod : c.item.action.isModifyData with
        | true =>
          right; right
          simp [UnsyncedStore.runChain, hmod]
        | false =>
          right; left
          exact isSome_countWrites _ _
            (hway (hasCommitItem_of_mutates hmut hmod))
      · rw [applyMain_of_not_mutates (by simpa using hmut)]
        exact hold
    · rw [lookup_applyMain_of_ne hk]
      exact hold
  · have hcommitting : s.committing = true := hcommitting
    rw [hidle] at hcommitting
    cases hcommitting

theorem Covered.round (h : Covered hash s) (hidle : s.committing = false)
    (hround : Rounds hash s s') : Covered hash s' := by
  have hpopped : ∀ c callbackQueue commitQueue log n, Covered hash
      (s.popped hash c callbackQueue commitQueue log n) :=
    fun _ _ _ _ _ => ⟨fun k => (h.items k).imp_right
      (Or.imp_left (isSome_countWrites _ _)), h.committing⟩
  cases hround with
  | run hpops hlog =>
    exact (hpopped _ _ _ _ _).runChain hidle
      (fun hitem => isSome_countWrites_singleton _ hitem _) _
  | @drop seq c callbackQueue commitQueue log n hpops hlog =>
    have hold := hpopped c callbackQueue commitQueue log n
    exact ⟨fun k => (hold.items k).imp_right
      (Or.imp_left (isSome_countWrites _ _)), hold.committing⟩
  | read => exact ⟨h.items, h.committing⟩

/-! ## Chains on the queues -/

structure Formed (s : UnsyncedStore) : Prop where
  callbacks : ∀ p ∈ s.callbackQueue, p.2.linked = []
  queued : ∀ seq c, .write seq c ∈ s.commitQueue → c.fromRequest = true
  logged : ∀ c ∈ s.log, c.fromRequest = true ∧ c.item.action.needsWrite = true

theorem fromRequest_of_nil (h : c.linked = []) :
    c.fromRequest = true := by
  obtain ⟨i, linked, matchInfo⟩ := c
  subst h
  unfold WriteChain.fromRequest
  split
  · rfl
  · rfl
  · rfl
  · rename_i hnone _ _
    exact (hnone rfl).elim

theorem Formed.pops (h : s.Formed)
    (hpops : Pops s seq c callbackQueue commitQueue) :
    c.fromRequest = true ∧ (∀ p ∈ callbackQueue, p.2.linked = []) ∧
      ∀ e ∈ commitQueue, e ∈ s.commitQueue := by
  cases hpops with
  | callback hqueue =>
    have hall := h.callbacks
    rw [hqueue] at hall
    exact ⟨fromRequest_of_nil (hall _ List.mem_cons_self),
      fun p hp => hall p (List.mem_cons_of_mem _ hp), fun e he => he⟩
  | queue hcallback hqueue =>
    refine ⟨h.queued seq c (by simp [hqueue]), by simp, ?_⟩
    rw [hqueue]
    exact fun e he => List.mem_cons_of_mem _ he

theorem Formed.log (h : s.Formed) (hc : c.fromRequest = true)
    {log : List WriteChain} (hlog : s.Logs c log) :
    ∀ c ∈ log, c.fromRequest = true ∧ c.item.action.needsWrite = true := by
  rcases hlog with rfl | ⟨hwrite, rfl⟩
  · exact h.logged
  · intro c' hc'
    rcases List.mem_append.mp hc' with hc' | hc'
    · exact h.logged c' hc'
    · rw [List.mem_singleton.mp hc']
      exact ⟨hc, hwrite⟩

theorem Formed.round (h : s.Formed) (hround : Rounds hash s s') :
    s'.Formed := by
  cases hround with
  | @run seq c callbackQueue commitQueue log n isReading hpops hlog =>
    obtain ⟨hc, hcallbacks, hqueue⟩ := h.pops hpops
    refine ⟨?_, fun seq c hc => h.queued seq c (hqueue _ hc), h.log hc hlog⟩
    intro p hp
    rcases List.mem_append.mp hp with hp | hp
    · rcases List.mem_append.mp hp with hp | hp
      · exact hcallbacks p hp
      · obtain ⟨c', hc', rfl⟩ := List.mem_map.mp hp
        exact next_linked hc hc'
    · obtain ⟨i, -, rfl⟩ := List.mem_map.mp hp
      rfl
  | drop hpops hlog =>
    obtain ⟨hc, hcallbacks, hqueue⟩ := h.pops hpops
    exact ⟨hcallbacks, fun seq c hc => h.queued seq c (hqueue _ hc),
      h.log hc hlog⟩
  | read hcallback hqueue hreaders =>
    refine ⟨h.callbacks, ?_, h.logged⟩
    intro seq c hc
    apply h.queued seq c
    rw [hqueue]
    exact List.mem_cons_of_mem _ hc

/-! ## What reads know -/

def StageOk (s : UnsyncedStore) (r : ReadCall) : Prop :=
  match r.stage with
  | .checked => Settled s.pendingChanges r ∧
      Allowed s.past r (find s.committed r)
  | .found p => Allowed s.past r (some p)
  | .queued => True
  | .done result => Allowed s.past r result

/-- The order of the commit queue, and of the numbers. -/
structure Ordered (s : UnsyncedStore) : Prop where
  readers : ∀ q ∈ s.readers, q.1 < s.nextReader ∧
    q.2.since ≤ s.nextSeq ∧ q.2.start ≤ s.past.length
  reads : ∀ reader, .read reader ∈ s.commitQueue → reader < s.nextReader
  behind : s.commitQueue.Pairwise fun a b => ∀ reader r,
    a = .read reader → (reader, r) ∈ s.readers → ∀ p ∈ b.changes, r.since ≤ p.1

/-- What every step does to the queues: new changes have new numbers, and at
most one entry comes to the end of the commit queue. -/
structure Advances (s s' : UnsyncedStore) : Prop where
  past : s'.past = s.past
  nextSeq : s.nextSeq ≤ s'.nextSeq
  nextReader : s.nextReader ≤ s'.nextReader
  committed : s'.committed = s.committed ∨ s'.committed = s'.main
  changes : ∀ p ∈ s'.pendingChanges, p ∈ s.pendingChanges ∨ s.nextSeq ≤ p.1
  queue : ∃ l : List QueueEntry, ∃ last : Option QueueEntry,
    s'.commitQueue = l ++ last.toList ∧ l.Sublist s.commitQueue ∧
    (∀ e ∈ last, ∀ p ∈ e.changes, s.nextSeq ≤ p.1) ∧
    ∀ reader, last = some (.read reader) → reader < s'.nextReader

/-- A read of the state before, or one that has just started. -/
def FromRead (s : UnsyncedStore) (q : ℕ × ReadCall) : Prop :=
  (∃ r, (q.1, r) ∈ s.readers ∧ q.2.since = r.since ∧ q.2.start = r.start) ∨
    q.1 = s.nextReader ∧ q.2.since = s.nextSeq ∧ q.2.start = s.past.length

theorem Allowed.mono {past : List Moment} {result : FragResult}
    (h : Allowed past r result) (m : Moment) :
    Allowed (past ++ [m]) r result := by
  obtain ⟨m', hm', hsettled⟩ := h
  refine ⟨m', ?_, hsettled⟩
  rw [List.drop_append]
  exact List.mem_append_left _ hm'

theorem allowed_now {past : List Moment} {m : Moment}
    (hstart : r.start ≤ past.length) (hsettled : Settled m.pending r) :
    Allowed (past ++ [m]) r (find m.main r) := by
  refine ⟨m, ?_, hsettled, rfl⟩
  rw [List.drop_append_of_le_length hstart]
  exact List.mem_append_right _ (List.mem_singleton_self m)

theorem StageOk.keep (h : StageOk s r) (hsince : r.since ≤ s.nextSeq)
    (hstart : r.start ≤ s.past.length) (hadvances : Advances s s') :
    StageOk s'.note r := by
  have hkeep : ∀ {result}, Allowed s.past r result →
      Allowed s'.note.past r result := by
    intro result hallowed
    rw [note, hadvances.past]
    exact hallowed.mono _
  unfold StageOk at h ⊢
  split at h
  · obtain ⟨hsettled, hallowed⟩ := h
    have hsettled' : Settled s'.pendingChanges r := by
      intro p hp hlt
      rcases hadvances.changes p hp with hold | hnew
      · exact hsettled p hold hlt
      · omega
    refine ⟨hsettled', ?_⟩
    rcases hadvances.committed with heq | heq
    · rw [show s'.note.committed = s.committed from heq]
      exact hkeep hallowed
    · rw [show s'.note.committed = s'.main from heq, note, hadvances.past]
      exact allowed_now hstart hsettled'
  · exact hkeep h
  · trivial
  · exact hkeep h

theorem Ordered.advance (h : s.Ordered) (hadvances : Advances s s')
    (hreaders : ∀ q ∈ s'.readers, q.1 < s'.nextReader ∧ FromRead s q) :
    s'.note.Ordered := by
  have hsince : ∀ q, FromRead s q →
      q.2.since ≤ s.nextSeq ∧ q.2.start ≤ s.past.length := by
    rintro q (⟨r, hr, hs, hst⟩ | ⟨-, hs, hst⟩)
    · rw [hs, hst]
      exact (h.readers _ hr).2
    · exact ⟨hs.le, hst.le⟩
  obtain ⟨l, last, hqueue, hl, hchanges, hreads⟩ := hadvances.queue
  refine ⟨?_, ?_, ?_⟩
  · intro q hq
    obtain ⟨hid, hfrom⟩ := hreaders q hq
    obtain ⟨hs, hst⟩ := hsince q hfrom
    refine ⟨hid, hs.trans hadvances.nextSeq, ?_⟩
    simp only [note, hadvances.past, List.length_append]
    omega
  · intro reader hmem
    have hmem : .read reader ∈ s'.commitQueue := hmem
    rw [hqueue] at hmem
    rcases List.mem_append.mp hmem with hmem | hmem
    · exact (h.reads reader (hl.subset hmem)).trans_le hadvances.nextReader
    · exact hreads reader (mem_toList.mp hmem)
  · change s'.commitQueue.Pairwise _
    rw [hqueue, List.pairwise_append]
    refine ⟨?_, ?_, ?_⟩
    · refine (h.behind.sublist hl).imp_of_mem ?_
      intro a b ha hb hold reader r hread hr p hp
      rcases (hreaders _ hr).2 with ⟨r', hr', hs, -⟩ | ⟨hid, -, -⟩
      · rw [hs]
        exact hold reader r' hread hr' p hp
      · have hlt := h.reads reader (hl.subset (hread ▸ ha))
        simp only at hid
        omega
    · cases last with
      | none => exact List.Pairwise.nil
      | some e => exact List.pairwise_singleton _ _
    · intro a ha b hb reader r hread hr p hp
      have hs := (hsince _ (hreaders _ hr).2).1
      exact hs.trans (hchanges b (mem_toList.mp hb) p hp)

/-! ## What a step does to the queues -/

theorem mem_changes_seq (hp : p ∈ c.changes seq) : p.1 = seq := by
  obtain ⟨i, -, rfl⟩ := List.mem_map.mp hp
  rfl

theorem Pops.sublist (h : Pops s seq c callbackQueue commitQueue) :
    commitQueue.Sublist s.commitQueue := by
  cases h with
  | callback => exact List.Sublist.refl _
  | queue hcallback hqueue =>
    rw [hqueue]
    exact List.sublist_cons_self _ _

theorem queue_of_sublist {n : ℕ} (h : commitQueue.Sublist s.commitQueue) :
    ∃ l : List QueueEntry, ∃ last : Option QueueEntry,
      commitQueue = l ++ last.toList ∧ l.Sublist s.commitQueue ∧
      (∀ e ∈ last, ∀ p ∈ e.changes, s.nextSeq ≤ p.1) ∧
      ∀ reader, last = some (.read reader) → reader < n :=
  ⟨commitQueue, none, (List.append_nil _).symm, h, by simp, by simp⟩

theorem Rounds.advances (h : Rounds hash s s') : Advances s s' := by
  cases h with
  | run hpops hlog =>
    refine ⟨rfl, Nat.le_succ _, le_rfl, .inl rfl, ?_,
      queue_of_sublist hpops.sublist⟩
    intro p hp
    rw [hpops.changes]
    simp only [pendingChanges, runChain, popped, List.flatMap_append,
      List.flatMap_map, List.mem_append] at hp ⊢
    rcases hp with ((hp | hp) | hp) | hp
    · exact .inl (.inr (.inl hp))
    · exact .inl (.inl (mem_changes_of_next hp))
    · obtain ⟨i, -, hp⟩ := List.mem_flatMap.mp hp
      exact .inr (mem_changes_seq hp).ge
    · exact .inl (.inr (.inr hp))
  | drop hpops hlog =>
    refine ⟨rfl, le_rfl, le_rfl, .inl rfl, ?_, queue_of_sublist hpops.sublist⟩
    intro p hp
    rw [hpops.changes]
    exact .inl (List.mem_append_right _ hp)
  | @read reader rest readers hcallback hqueue hreaders =>
    have hsub : rest.Sublist s.commitQueue := by
      rw [hqueue]
      exact List.sublist_cons_self _ _
    refine ⟨rfl, le_rfl, le_rfl, .inl rfl, ?_, queue_of_sublist hsub⟩
    intro p hp
    left
    simpa [pendingChanges, hqueue, QueueEntry.changes] using hp

theorem advances_enqueue (s : UnsyncedStore) (c : WriteChain) :
    Advances s (s.enqueue hash c) := by
  refine ⟨rfl, Nat.le_succ _, le_rfl, .inl rfl, ?_, s.commitQueue,
    some (.write s.nextSeq c), rfl, List.Sublist.refl _, ?_, by simp⟩
  · intro p hp
    simp only [pendingChanges, enqueue, List.flatMap_append,
      List.flatMap_singleton, QueueEntry.changes, List.mem_append] at hp ⊢
    rcases hp with hp | hp | hp
    · exact .inl (.inl hp)
    · exact .inl (.inr hp)
    · exact .inr (mem_changes_seq hp).ge
  · intro e he p hp
    cases he
    exact (mem_changes_seq hp).ge

/-! ## Every run -/

structure Inv (hash : ℤ × Bytes → ℕ) (s : UnsyncedStore) : Prop where
  counted : s.Counted hash
  covered : s.Covered hash
  formed : s.Formed
  ordered : s.Ordered
  readers : ∀ q ∈ s.readers, StageOk s q.2

theorem Inv.advance (h : Inv hash s) (hadvances : Advances s s')
    (hcounted : s'.Counted hash) (hcovered : s'.Covered hash)
    (hformed : s'.Formed)
    (hreaders : ∀ q ∈ s'.readers, q ∈ s.readers ∨
      q.1 < s'.nextReader ∧ FromRead s q ∧ StageOk s'.note q.2) :
    Inv hash s'.note := by
  refine ⟨hcounted, ⟨hcovered.items, hcovered.committing⟩,
    ⟨hformed.callbacks, hformed.queued, hformed.logged⟩,
    h.ordered.advance hadvances ?_, ?_⟩
  · intro q hq
    rcases hreaders q hq with hold | ⟨hid, hfrom, -⟩
    · exact ⟨(h.ordered.readers q hold).1.trans_le hadvances.nextReader,
        .inl ⟨q.2, hold, rfl, rfl⟩⟩
    · exact ⟨hid, hfrom⟩
  · intro q hq
    rcases hreaders q hq with hold | ⟨-, -, hstage⟩
    · obtain ⟨-, hsince, hstart⟩ := h.ordered.readers q hold
      exact (h.readers q hold).keep hsince hstart hadvances
    · exact hstage

/-- The item of a read comes after all changes that were queued before it. -/
theorem Ordered.settled (h : s.Ordered) {rest : List QueueEntry}
    (hcallback : s.callbackQueue = [])
    (hqueue : s.commitQueue = .read reader :: rest)
    (hr : (reader, r) ∈ s.readers) :
    Settled (pendingChanges { s with commitQueue := rest }) r := by
  intro p hp hlt
  simp only [pendingChanges, hcallback, List.flatMap_nil, List.nil_append] at hp
  obtain ⟨e, he, hp⟩ := List.mem_flatMap.mp hp
  have hbehind := h.behind
  rw [hqueue, List.pairwise_cons] at hbehind
  have hle := hbehind.1 e he reader r rfl hr p hp
  omega

theorem Inv.round (h : Inv hash s) (hidle : s.committing = false)
    (hround : Rounds hash s s') : Inv hash s'.note := by
  refine h.advance hround.advances (h.counted.round hround)
    (h.covered.round hidle hround) (h.formed.round hround) ?_
  cases hround with
  | run | drop => exact fun _ hq => .inl hq
  | read hcallback hqueue hreaders =>
    intro q hq
    rcases hreaders q hq with hold | ⟨r, hr, rfl⟩
    · exact .inl hold
    · obtain ⟨hid, -, hstart⟩ := h.ordered.readers _ hr
      have hsettled := h.ordered.settled hcallback hqueue hr
      exact .inr ⟨hid, .inl ⟨r, hr, rfl, rfl⟩,
        allowed_now (m := ⟨s.main, _⟩) hstart hsettled⟩

theorem Inv.enqueue (h : Inv hash s)
    (hc : c.fromRequest = true) : Inv hash (s.enqueue hash c).note := by
  refine h.advance (advances_enqueue s c) (h.counted.enqueue c)
    ⟨fun k => (h.covered.items k).imp_right
      (Or.imp_left (isSome_countWrites _ _)), h.covered.committing⟩
    ⟨h.formed.callbacks, ?_, h.formed.logged⟩ fun _ hq => .inl hq
  intro seq c' hc'
  rcases List.mem_append.mp hc' with hc' | hc'
  · exact h.formed.queued seq c' hc'
  · cases List.mem_singleton.mp hc'
    exact hc

theorem Inv.lmdbCommit (h : Inv hash s) :
    Inv hash (note { s with
      committed := s.main
      committing := true
      log := []
      modified := [] }) :=
  h.advance ⟨rfl, le_rfl, le_rfl, .inr rfl, fun _ hp => .inl hp,
      queue_of_sublist (List.Sublist.refl _)⟩ h.counted
    ⟨fun _ => .inl rfl, fun _ => rfl⟩
    ⟨h.formed.callbacks, h.formed.queued, by simp⟩ fun _ hq => .inl hq

theorem lookup_filter_ne_zero (counts : OrderedMap ℕ ℤ) (n : ℕ) :
    ((counts.filter fun p => p.2 ≠ 0).lookup n).getD 0 =
      (counts.lookup n).getD 0 := by
  cases hold : counts.lookup n with
  | none =>
    have hnone : (counts.filter fun p => p.2 ≠ 0).lookup n = none := by
      apply lookup_eq_none.mpr
      intro p hp
      exact lookup_eq_none.mp hold p (mem_filter.mp hp).1
    rw [hnone]
  | some v =>
    have hmem := lookup_eq_some.mp hold
    by_cases hv : v = 0
    · have hnone : (counts.filter fun p => p.2 ≠ 0).lookup n = none := by
        apply lookup_eq_none.mpr
        intro p hp hkey
        obtain ⟨hp, hne⟩ := mem_filter.mp hp
        rw [eq_of_mem hp hmem hkey] at hne
        simp [hv] at hne
      rw [hnone, hv]
      rfl
    · have hsome : (counts.filter fun p => p.2 ≠ 0).lookup n = some v :=
        lookup_eq_some.mpr (mem_filter.mpr ⟨hmem, by simpa using hv⟩)
      rw [hsome]

theorem Inv.cleanCommitItems (h : Inv hash s)
    (hcommitting : s.committing = true) :
    Inv hash (note { s with
      committing := false
      commitItems := s.commitItems.filter fun p => p.2 ≠ 0 }) := by
  refine h.advance ⟨rfl, le_rfl, le_rfl, .inl rfl, fun _ hp => .inl hp,
      queue_of_sublist (List.Sublist.refl _)⟩ ?_ ⟨?_, by simp⟩
    ⟨h.formed.callbacks, h.formed.queued, h.formed.logged⟩ fun _ hq => .inl hq
  · intro n
    rw [lookup_filter_ne_zero]
    exact h.counted n
  · intro k
    exact .inl (by rw [h.covered.committing hcommitting])

theorem Inv.restart (h : Inv hash s) (survivors : ℕ) :
    Inv hash (s.restart hash survivors).note := by
  have hlog : ∀ c ∈ s.log.take survivors, c.fromRequest = true ∧
      c.item.action.needsWrite = true :=
    fun c hc => h.formed.logged c (List.mem_of_mem_take hc)
  have hwrites : ∀ e ∈ (s.restart hash survivors).commitQueue,
      ∃ c ∈ s.log.take survivors, e = .write s.nextSeq c := by
    intro e he
    obtain ⟨c, hc, rfl⟩ := List.mem_map.mp he
    exact ⟨c, hc, rfl⟩
  refine ⟨counted_restart h.formed.logged survivors,
    ⟨fun k => .inl rfl, fun _ => rfl⟩, ⟨?_, ?_, hlog⟩, ⟨?_, ?_, ?_⟩, ?_⟩
  · exact fun p hp => absurd hp List.not_mem_nil
  · intro seq c hc
    obtain ⟨c', hc', heq⟩ := hwrites _ hc
    cases heq
    exact (hlog c hc').1
  · exact fun q hq => absurd hq (not_mem_empty q)
  · intro reader hread
    obtain ⟨c, -, heq⟩ := hwrites _ hread
    cases heq
  · refine List.pairwise_of_forall_mem_list ?_
    intro a _ b _ reader r _ hr
    exact absurd hr (not_mem_empty _)
  · exact fun q hq => absurd hq (not_mem_empty q)

/-! ## Reads -/

theorem Inv.setStage (h : Inv hash s) {stage : ReadCallStage} {nextReader : ℕ}
    {queue : List QueueEntry} (hnext : s.nextReader ≤ nextReader)
    (hid : reader < nextReader) (hfrom : FromRead s (reader, r))
    (hqueue : queue = s.commitQueue ∨ queue = s.commitQueue ++ [.read reader])
    (hstage : StageOk (note { s with
      readers := s.readers.insert reader { r with stage := stage }
      nextReader := nextReader
      commitQueue := queue }) { r with stage := stage }) :
    Inv hash (note { s with
      readers := s.readers.insert reader { r with stage := stage }
      nextReader := nextReader
      commitQueue := queue }) := by
  have hitems : queue.flatMap QueueEntry.items =
      s.commitQueue.flatMap QueueEntry.items := by
    rcases hqueue with rfl | rfl
    · rfl
    · simp [QueueEntry.items]
  have hchanges : queue.flatMap QueueEntry.changes =
      s.commitQueue.flatMap QueueEntry.changes := by
    rcases hqueue with rfl | rfl
    · rfl
    · simp [QueueEntry.changes]
  refine h.advance ⟨rfl, le_rfl, hnext, .inl rfl, ?_, ?_⟩ ?_
    ⟨h.covered.items, h.covered.committing⟩
    ⟨h.formed.callbacks, ?_, h.formed.logged⟩ ?_
  · intro p hp
    left
    rw [pendingChanges] at hp ⊢
    rwa [← hchanges]
  · rcases hqueue with rfl | rfl
    · exact queue_of_sublist (List.Sublist.refl _)
    · refine ⟨s.commitQueue, some (.read reader), rfl,
        List.Sublist.refl _, by simp [QueueEntry.changes], ?_⟩
      intro reader' heq
      cases heq
      exact hid
  · intro n
    rw [pendingItems]
    change _ = (writeCount hash n (_ ++ queue.flatMap QueueEntry.items) : ℤ)
    rw [hitems]
    exact h.counted n
  · intro seq c hc
    rcases hqueue with rfl | rfl
    · exact h.formed.queued seq c hc
    · exact h.formed.queued seq c (by simpa using hc)
  · intro q hq
    rcases mem_insert.mp hq with rfl | ⟨hq, -⟩
    · exact .inr ⟨hid, hfrom, hstage⟩
    · exact .inl hq

/-- Hashes of keys with a change by `ModifyData` that the last LMDB commit
does not have. -/
def touched (hash : ℤ × Bytes → ℕ) (s : UnsyncedStore) : List ℕ :=
  s.modified ++ (s.pendingItems.filter fun i => i.action.isModifyData).map
    fun i => hash i.fn.commonPrefix

theorem exists_item_of_change (hp : p ∈ s.pendingChanges) :
    ∃ i ∈ s.pendingItems, i.fn = p.2 ∧ i.action.mutates = true := by
  have hchain : ∀ (seq : ℕ) (c : WriteChain), p ∈ c.changes seq →
      ∃ i ∈ c.items, i.fn = p.2 ∧ i.action.mutates = true := by
    intro seq c hc
    obtain ⟨i, hi, rfl⟩ := List.mem_map.mp hc
    obtain ⟨hi, hmut⟩ := List.mem_filter.mp hi
    exact ⟨i, hi, rfl, hmut⟩
  rcases List.mem_append.mp hp with hp | hp
  · obtain ⟨q, hq, hp⟩ := List.mem_flatMap.mp hp
    obtain ⟨i, hi, hfn, hmut⟩ := hchain q.1 q.2 hp
    exact ⟨i, List.mem_append_left _ (List.mem_flatMap.mpr ⟨q, hq, hi⟩),
      hfn, hmut⟩
  · obtain ⟨e, he, hp⟩ := List.mem_flatMap.mp hp
    cases e with
    | read reader => cases hp
    | write seq c =>
      obtain ⟨i, hi, hfn, hmut⟩ := hchain seq c hp
      exact ⟨i, List.mem_append_right _
        (List.mem_flatMap.mpr ⟨_, he, hi⟩), hfn, hmut⟩

section

variable (h : Inv hash s)

include h

/-- A key with a change on its way, or not yet in LMDB, has an entry in
`commit_items`. -/
theorem Inv.onItsWay {fn : KeyInfo}
    (htouched : hash fn.commonPrefix ∉ s.touched hash)
    (hchange : (∃ n, (n, fn) ∈ s.pendingChanges) ∨
      s.committed.lookup fn ≠ s.main.lookup fn) :
    s.onItsWay hash fn = true := by
  have hmodified : hash fn.commonPrefix ∉ s.modified :=
    fun hmem => htouched (List.mem_append_left _ hmem)
  rcases hchange with ⟨n, hn⟩ | hne
  · obtain ⟨i, hi, hfn, hmut⟩ := exists_item_of_change hn
    have hmod : i.action.isModifyData = false := by
      by_contra hmod
      apply htouched
      refine List.mem_append_right _ (List.mem_map.mpr ⟨i, ?_, ?_⟩)
      · exact List.mem_filter.mpr ⟨hi, by simpa using hmod⟩
      · rw [hfn]
    have hcommit := hasCommitItem_of_mutates hmut hmod
    have hpos : 0 < writeCount hash (hash fn.commonPrefix) s.pendingItems :=
      List.countP_pos_iff.mpr ⟨i, hi, by simp [hcommit, hfn]⟩
    have hcount := h.counted (hash fn.commonPrefix)
    rw [UnsyncedStore.onItsWay]
    cases hlook : s.commitItems.lookup (hash fn.commonPrefix) with
    | none =>
      rw [hlook] at hcount
      simp only [getD_none] at hcount
      omega
    | some v => rfl
  · rcases h.covered.items fn with heq | hway | hmem
    · exact absurd heq hne
    · exact hway
    · exact absurd hmem hmodified

theorem Inv.settled (htouched : hash r.fn.commonPrefix ∉ s.touched hash)
    (hnone : s.onItsWay hash r.fn = false) :
    Settled s.pendingChanges r ∧ find s.committed r = find s.main r := by
  have hall : ∀ k : KeyInfo, k.commonPrefix = r.fn.commonPrefix →
      ¬ ((∃ n, (n, k) ∈ s.pendingChanges) ∨
        s.committed.lookup k ≠ s.main.lookup k) := by
    intro k hk hchange
    have hway : s.onItsWay hash k = true :=
      h.onItsWay (by rw [hk]; exact htouched) hchange
    rw [UnsyncedStore.onItsWay, hk, ← UnsyncedStore.onItsWay, hnone] at hway
    cases hway
  constructor
  · intro p hp _ hk
    exact hall p.2 hk (.inl ⟨p.1, hp⟩)
  · apply findFragInfo_congr
    intro k hk
    by_contra hne
    exact hall k hk (.inr hne)

/-- A read of a key with a change by `ModifyData` that LMDB does not have goes
to the commit thread. -/
def ReadsCounted (hash : ℤ × Bytes → ℕ) (s : UnsyncedStore) :
    UnsyncedEvent → Prop
  | .readPrepare fn flags => flags.readUnsynced = true ∨
      s.onItsWay hash fn = true ∨ hash fn.commonPrefix ∉ s.touched hash
  | _ => True

instance (s : UnsyncedStore) (e : UnsyncedEvent) :
    Decidable (ReadsCounted hash s e) := by
  rcases e with ⟨⟩ <;> dsimp only [ReadsCounted] <;> infer_instance

theorem Inv.readPrepare (fn : KeyInfo) (flags : ReadFlags)
    (hok : ReadsCounted hash s (.readPrepare fn flags)) :
    Inv hash (s.readPrepare hash fn flags).note := by
  unfold UnsyncedStore.readPrepare
  split
  · exact h.setStage (Nat.le_succ _) (Nat.lt_succ_self _)
      (.inr ⟨rfl, rfl, rfl⟩) (.inr rfl) trivial
  · rename_i hfast
    have hnone : s.onItsWay hash fn = false := by
      cases hway : s.onItsWay hash fn with
      | false => rfl
      | true => exact absurd (.inr hway) hfast
    have htouched : hash fn.commonPrefix ∉ s.touched hash := by
      rcases hok with hunsynced | hway | htouched
      · exact absurd (.inl hunsynced) hfast
      · exact absurd (.inr hway) hfast
      · exact htouched
    obtain ⟨hsettled, hsame⟩ :=
      h.settled (r := ⟨fn, flags, s.nextSeq, s.past.length, .checked⟩)
        htouched hnone
    refine h.setStage (Nat.le_succ _) (Nat.lt_succ_self _)
      (.inr ⟨rfl, rfl, rfl⟩) (.inl rfl) ⟨hsettled, ?_⟩
    change Allowed (s.past ++ [⟨s.main, s.pendingChanges⟩]) _
      (find s.committed _)
    rw [hsame]
    exact allowed_now (m := ⟨s.main, s.pendingChanges⟩) le_rfl hsettled

theorem Inv.changeStage (hr : (reader, r) ∈ s.readers) {stage : ReadCallStage}
    (hstage : StageOk (s.setStage reader r stage).note
      { r with stage := stage }) : Inv hash (s.setStage reader r stage).note :=
  h.setStage le_rfl (h.ordered.readers _ hr).1
    (.inl ⟨r, hr, rfl, rfl⟩) (.inl rfl) hstage

theorem Inv.readSnapshot
    (hstep : s.readSnapshot reader = some s') : Inv hash s'.note := by
  obtain ⟨r, hr, hstep⟩ := bind_eq_some_iff.mp hstep
  have hmem := lookup_eq_some.mp hr
  have hstage := h.readers _ hmem
  split at hstep
  · rename_i hchecked
    rw [StageOk, hchecked] at hstage
    have hallowed := hstage.2.mono ⟨s.main, s.pendingChanges⟩
    split at hstep
    · rename_i hnone
      cases hstep
      rw [find, hnone] at hallowed
      exact h.changeStage hmem hallowed
    · rename_i p hp
      rw [find, hp] at hallowed
      split at hstep
      · cases hstep
        exact h.changeStage hmem hallowed
      · cases hstep
        exact h.changeStage hmem hallowed
  · cases hstep

theorem Inv.readPin
    (hstep : s.readPin hash reader = some s') : Inv hash s'.note := by
  obtain ⟨r, hr, hstep⟩ := bind_eq_some_iff.mp hstep
  have hmem := lookup_eq_some.mp hr
  have hstage := h.readers _ hmem
  split at hstep
  · rename_i p hfound
    rw [StageOk, hfound] at hstage
    split at hstep
    · cases hstep
      exact h.setStage le_rfl (h.ordered.readers _ hmem).1
        (.inl ⟨r, hmem, rfl, rfl⟩) (.inr rfl) trivial
    · cases hstep
      exact h.changeStage hmem (hstage.mono ⟨s.main, s.pendingChanges⟩)
  · cases hstep

theorem Inv.step {e : UnsyncedEvent} (hok : ReadsCounted hash s e)
    (hstep : step hash s e = some s') : Inv hash s' := by
  obtain ⟨s₁, hact, rfl⟩ := map_eq_some_iff.mp hstep
  cases e with
  | enqueue c =>
    simp only [act, ite_none_right_eq_some, Option.some.injEq] at hact
    obtain ⟨hc, rfl⟩ := hact
    exact h.enqueue hc
  | process isReading =>
    obtain ⟨hidle, hround⟩ := process_rounds hact
    exact h.round hidle hround
  | lmdbCommit =>
    simp only [act, ite_none_left_eq_some, Option.some.injEq] at hact
    obtain ⟨-, rfl⟩ := hact
    exact h.lmdbCommit
  | cleanCommitItems =>
    simp only [act, ite_none_right_eq_some, Option.some.injEq] at hact
    obtain ⟨hcommitting, rfl⟩ := hact
    exact h.cleanCommitItems hcommitting
  | restart survivors =>
    cases hact
    exact h.restart survivors
  | readPrepare fn flags =>
    cases hact
    exact h.readPrepare fn flags hok
  | readSnapshot reader => exact h.readSnapshot hact
  | readPin reader => exact h.readPin hact

end

theorem inv_init : Inv hash init := by
  refine ⟨fun n => rfl, ⟨fun k => .inl rfl, fun _ => rfl⟩,
    ⟨by simp [init], by simp [init], by simp [init]⟩,
    ⟨by simp [init], by simp [init], by simp [init]⟩, by simp [init]⟩

/-- What `commit_items` is for: it counts the items on their way, it has an
entry for every key whose changes LMDB lacks, and reads see all changes that
were queued before them. -/
structure ReadsOwnWrites (hash : ℤ × Bytes → ℕ) (s : UnsyncedStore) : Prop where
  counted : ∀ n, (s.commitItems.lookup n).getD 0 =
    writeCount hash n s.pendingItems
  present : ∀ fn : KeyInfo, hash fn.commonPrefix ∉ s.touched hash →
    (∃ n, (n, fn) ∈ s.pendingChanges) ∨
      s.committed.lookup fn ≠ s.main.lookup fn → s.onItsWay hash fn = true
  reads : ∀ q ∈ s.readers, ∀ result, q.2.stage = .done result →
    Allowed s.past q.2 result

/-- Read your writes, in every state of every run where a key that
`ModifyData` has changed since the last LMDB commit is not read from LMDB. -/
theorem readsOwnWrites_of_run (hash : ℤ × Bytes → ℕ) {s : UnsyncedStore}
    (hrun : Run (step hash) (ReadsCounted hash) init s) :
    s.ReadsOwnWrites hash := by
  have hinv : Inv hash s := by
    apply hrun.invariant inv_init
    intro s e s' h hok hstep
    exact h.step hok hstep
  refine ⟨hinv.counted, fun fn => hinv.onItsWay, ?_⟩
  intro q hq result hdone
  have hstage := hinv.readers q hq
  rw [StageOk, hdone] at hstage
  exact hstage

/-! ## Runs -/

def bucketHash (name : ℤ × Bytes) : ℕ := name.1.toNat

def uploadRecord (parts : List PartExt) : Entry :=
  ⟨[⟨0, 0⟩], 0, .upload [1] ⟨none, false⟩ parts⟩

def partEntry : Entry := ⟨[⟨0, 0⟩], 0, .object [7] ⟨none, false⟩⟩

/-- An upload is created and committed, and a part is on its way. -/
def queuePart : List UnsyncedEvent :=
  [.enqueue { item :=
      ⟨uploadKey 1 [65] 1, .request (.add (uploadRecord []))⟩ },
    .process false, .lmdbCommit, .cleanCommitItems, .enqueue {
      item := ⟨partKey (getPartialUploadsBucket 1) 1 1,
        .request (.add partEntry)⟩
      linked := [⟨uploadKey 1 [65] 1, .request (.modifyData [⟨1, 1, 1⟩])⟩] }]

def readQueuedPart : List UnsyncedEvent :=
  queuePart ++ [.readPrepare (partKey (getPartialUploadsBucket 1) 1 1) {},
    .process false, .process false, .process false]

theorem readsOwnWrites_of_run_queuedPart :
    ∃ s r, exec (guarded (step bucketHash) (ReadsCounted bucketHash)) init
        readQueuedPart = some s ∧ s.readers.lookup 0 = some r ∧
      r.stage = .done (some
        (partKey (getPartialUploadsBucket 1) 1 1, partEntry)) ∧
      s.ReadsOwnWrites bucketHash := by
  obtain ⟨s, hs, r, hr, hstage⟩ : ∃ s ∈ exec (guarded (step bucketHash)
      (ReadsCounted bucketHash)) init readQueuedPart,
      ∃ r ∈ s.readers.lookup 0, r.stage = .done (some
        (partKey (getPartialUploadsBucket 1) 1 1, partEntry)) := by
    decide +kernel
  exact ⟨s, r, hs, hr, hstage, readsOwnWrites_of_run bucketHash
    (run_of_exec_guarded hs)⟩

/-- The part is stored and added to the record of its upload, and then the
record is read. -/
def readRecordAfterPart : List UnsyncedEvent :=
  queuePart ++ [.process false, .process false,
    .readPrepare (uploadKey 1 [65] 1) {}, .readSnapshot 0]

/-- The read finds the record without the part. -/
theorem not_readsOwnWrites_readRecordAfterPart :
    ∃ s r, exec (step bucketHash) init readRecordAfterPart = some s ∧
      s.readers.lookup 0 = some r ∧
      r.stage = .done (some (uploadKey 1 [65] 1, uploadRecord [])) ∧
      s.main.lookup (uploadKey 1 [65] 1) =
        some (uploadRecord [⟨1, 1, 1⟩]) ∧
      ¬ s.ReadsOwnWrites bucketHash := by
  obtain ⟨s, hs, hmain, r, hr, hstage, hfinds⟩ : ∃ s ∈ exec
      (step bucketHash) init readRecordAfterPart,
      s.main.lookup (uploadKey 1 [65] 1) = some (uploadRecord [⟨1, 1, 1⟩]) ∧
        ∃ r ∈ s.readers.lookup 0,
          r.stage = .done (some (uploadKey 1 [65] 1, uploadRecord [])) ∧
          ∀ m ∈ s.past.drop r.start,
            find m.main r ≠ some (uploadKey 1 [65] 1, uploadRecord []) := by
    decide +kernel
  refine ⟨s, r, hs, hr, hstage, hmain, ?_⟩
  intro howned
  obtain ⟨m, hm, -, hresult⟩ :=
    howned.reads (0, r) (lookup_eq_some.mp hr) _ hstage
  exact hfinds m hm hresult.symm

end UnsyncedStore

end Hs5.S3
