import Hs5.S3.DeferredSteps

/-!
# Where the parts are

Every part that was ever written is at one place: its object waits on the
commit queue, its object is there, or its object was removed.  A part of a
removed object is deleted, its deletion is queued, it is noted in the record
of the readers of the object, or the last reader is about to delete it.  Each
step moves parts from one of these places to another, provided that no record
is overwritten.
-/

namespace Hs5.S3

open List Transition OrderedMap

namespace PartStore

variable {hash : ℤ × Bytes → ℕ} {s s' : PartStore}

/-! ## The invariant -/

structure Accounts (s : PartStore) : Prop where
  account : ∀ k, IsPartKey k →
    s.deleted.count k + s.deletions.count k + s.deferred.count k +
      s.remaining.count k = s.removedParts.count k
  once : ∀ k, s.queuedParts.count k + s.live.count k +
    s.removedParts.count k ≤ s.written.count k
  own : s.written.Nodup
  partKeys : ∀ k ∈ s.written, IsPartKey k
  ids : ∀ p ∈ s.main, p.2.uploadId? ≠ some (-1)
  queuedIds : ∀ i ∈ s.queue, ∀ v, i.action = .add v → v.uploadId? ≠ some (-1)

theorem live_count (s : PartStore) (fn k : KeyInfo) :
    s.live.count k = (s.partsAt fn).count k +
      (gather partsOf (s.main.erase fn)).count k := by
  cases hlook : s.main.lookup fn with
  | none =>
    rw [erase_eq_self (lookup_eq_none.mp hlook)]
    simp [partsAt, hlook, live]
  | some v =>
    simp only [partsAt, hlook, live]
    exact count_gather_erase partsOf (lookup_eq_some.mp hlook) k

theorem deletions_enqueue (hash : ℤ × Bytes → ℕ) (s : PartStore)
    (i : PartItem) (k : KeyInfo) :
    (s.enqueue hash i).deletions.count k =
      s.deletions.count k + i.delKeys.count k := by
  simp only [deletions, queue, enqueue, flatMap_append,
    count_append, flatMap_cons, flatMap_nil, append_nil]
  omega

theorem queuedParts_enqueue (hash : ℤ × Bytes → ℕ) (s : PartStore)
    (i : PartItem) (k : KeyInfo) :
    (s.enqueue hash i).queuedParts.count k =
      s.queuedParts.count k + i.addParts.count k := by
  simp only [queuedParts, queue, enqueue, flatMap_append,
    count_append, flatMap_cons, flatMap_nil, append_nil]
  omega

theorem mem_queue_enqueue {i j : PartItem}
    (h : j ∈ (s.enqueue hash i).queue) : j ∈ s.queue ∨ j = i := by
  simp only [queue, enqueue, mem_append, mem_singleton] at h ⊢
  tauto

variable {i : PartItem} {fn : KeyInfo}

theorem Accounts.enqueue (h : s.Accounts) (i : PartItem)
    {readers : OrderedMap ℕ PartReader} {written : List KeyInfo}
    (hwritten : written = s.written ++ i.addParts) (hown : written.Nodup)
    (hkeys : ∀ k ∈ written, IsPartKey k)
    (hrest : ∀ k, IsPartKey k → i.delKeys.count k +
      (gather (fun p => p.2.rest) readers).count k = s.remaining.count k)
    (hid : ∀ v, i.action = .add v → v.uploadId? ≠ some (-1)) :
    (⟨s.main, s.committed, s.committing, countItem hash 1 i s.commitItems,
      s.commitQueue ++ [i], s.callbackQueue, s.queueDel,
      s.readingMultipartObjects, readers, s.nextReader, written, s.removed,
      s.deleted⟩ : PartStore).Accounts := by
  refine ⟨?_, ?_, hown, hkeys, h.ids, ?_⟩
  · intro k hk
    have hold := h.account k hk
    have hnew := hrest k hk
    have hdel := deletions_enqueue hash s i k
    change s.deleted.count k + (s.enqueue hash i).deletions.count k +
      s.deferred.count k + (gather (fun p => p.2.rest) readers).count k =
        s.removedParts.count k
    omega
  · intro k
    have hold := h.once k
    have hadd := queuedParts_enqueue hash s i k
    change (s.enqueue hash i).queuedParts.count k + s.live.count k +
      s.removedParts.count k ≤ written.count k
    rw [hwritten, count_append]
    omega
  · intro j hj v hv
    have hj : j ∈ (s.enqueue hash i).queue := hj
    rcases mem_queue_enqueue hj with hj | rfl
    · exact h.queuedIds j hj v hv
    · exact hid v hv

/-! ## The commit thread -/

/-- No parts are noted yet for the readers of the object at the key. -/
def NoneNoted (s : PartStore) (fn : KeyInfo) : Prop :=
  ∀ v ∈ s.main.lookup fn, v.uploadId?.isSome →
    ∀ obj ∈ s.readingMultipartObjects.lookup fn, obj.delUploadId = -1

theorem PartsGo.count {records : OrderedMap KeyInfo ReadingMultipartObject}
    {dels : List KeyInfo} (h : s.PartsGo fn records dels)
    (hids : ∀ p ∈ s.main, p.2.uploadId? ≠ some (-1)) (hnone : s.NoneNoted fn)
    (k : KeyInfo) :
    dels.count k + (gather (fun p => p.2.delKeys) records).count k =
      (s.partsAt fn).count k + s.deferred.count k := by
  cases h with
  | deleted hdels =>
    rw [hdels]
    rfl
  | @noted v obj hv hmulti hobj =>
    have hid := hids (fn, v) (lookup_eq_some.mp hv)
    have hset := count_gather_set (fun p => p.2.delKeys)
      (lookup_eq_some.mp hobj) (PartStore.noted obj fn v) k
    have hempty : obj.delKeys = [] := by
      simp [ReadingMultipartObject.delKeys, hnone v hv hmulti obj hobj]
    have hparts : s.partsAt fn = partsOf (fn, v) := by simp [partsAt, hv]
    simp only [hempty, count_nil, noted_delKeys hmulti hid] at hset
    rw [hparts, count_nil, deferred]
    omega

theorem count_applyMain (hitem : i.action.hasCommitItem = true)
    (main : OrderedMap KeyInfo Metadata) (k : KeyInfo) :
    (gather partsOf (applyMain i main)).count k =
      i.addParts.count k + (gather partsOf (main.erase i.fn)).count k := by
  obtain ⟨fn, action⟩ := i
  cases action with
  | add v => exact count_gather_insert partsOf main fn v k
  | del | delWithQueued => simp [applyMain, PartItem.addParts]
  | queueDel => cases hitem

theorem mem_applyMain {main : OrderedMap KeyInfo Metadata}
    {p : KeyInfo × Metadata} (hp : p ∈ applyMain i main) :
    i.action = .add p.2 ∨ p ∈ main := by
  obtain ⟨fn, action⟩ := i
  cases action with
  | add v =>
    rcases mem_insert.mp hp with rfl | ⟨hp, -⟩
    · exact .inl rfl
    · exact .inr hp
  | del | delWithQueued => exact .inr (mem_erase.mp hp).1
  | queueDel => exact .inr hp

theorem Accounts.run (h : s.Accounts) {callbacks queued : List PartItem}
    {items : OrderedMap ℕ ℤ} (hqueue : s.queue = i :: (callbacks ++ queued))
    (hnone : i.action.hasCommitItem = true → s.NoneNoted i.fn)
    (hrun : ({ s with
      callbackQueue := callbacks
      commitQueue := queued
      commitItems := items } : PartStore).Runs i s') : s'.Accounts := by
  have hdel : ∀ k, s.deletions.count k = i.delKeys.count k +
      (callbacks.flatMap PartItem.delKeys).count k +
        (queued.flatMap PartItem.delKeys).count k := by
    intro k
    simp [deletions, hqueue, count_append, Nat.add_assoc]
  have hadd : ∀ k, s.queuedParts.count k = i.addParts.count k +
      (callbacks.flatMap PartItem.addParts).count k +
        (queued.flatMap PartItem.addParts).count k := by
    intro k
    simp [queuedParts, hqueue, count_append, Nat.add_assoc]
  have hids : ∀ j ∈ callbacks ++ queued, ∀ v, j.action = .add v →
      v.uploadId? ≠ some (-1) :=
    fun j hj => h.queuedIds j (hqueue ▸ mem_cons_of_mem _ hj)
  cases hrun with
  | queueDel haction =>
    have hnil : i.delKeys = [] ∧ i.addParts = [] := by
      simp [PartItem.delKeys, PartItem.addParts, haction]
    simp only [hnil, count_nil, Nat.zero_add] at hdel hadd
    refine ⟨?_, ?_, h.own, h.partKeys, h.ids, hids⟩
    · intro k hk
      have hold := h.account k hk
      rw [hdel k, ← count_append, ← flatMap_append] at hold
      exact hold
    · intro k
      have hold := h.once k
      rw [hadd k, ← count_append, ← flatMap_append] at hold
      exact hold
  | @remove records acts _ _ hitem hgo hacts =>
    have hremoved : ∀ k, ((s.removed ++ (s.partsAt i.fn).map
        fun k => (i.fn, k)).map Prod.snd).count k =
          s.removedParts.count k + (s.partsAt i.fn).count k := by
      intro k
      simp [removedParts, count_append]
    refine ⟨?_, ?_, h.own, h.partKeys, ?_, ?_⟩
    · intro k hk
      have hold := h.account k hk
      have hparts : (acts.flatMap PartItem.delKeys).count k +
          (gather (fun p => p.2.delKeys) records).count k =
            (s.partsAt i.fn).count k + s.deferred.count k :=
        hgo.count h.ids (hnone hitem) k
      rw [hdel k] at hold
      change (s.deleted ++ i.delKeys).count k +
        ((callbacks ++ acts ++ queued).flatMap PartItem.delKeys).count k +
          (gather (fun p => p.2.delKeys) records).count k +
            s.remaining.count k = _
      refine Eq.trans ?_ (hremoved k).symm
      simp only [count_append, flatMap_append]
      omega
    · intro k
      have hold := h.once k
      rw [hadd k, live_count s i.fn k] at hold
      change ((callbacks ++ acts ++ queued).flatMap PartItem.addParts).count k +
        (gather partsOf (applyMain i s.main)).count k + _ ≤ s.written.count k
      rw [count_applyMain hitem]
      refine le_trans (Nat.add_le_add_left (hremoved k).le _) ?_
      simp only [count_append, flatMap_append,
        flatMap_addParts hacts, count_nil]
      omega
    · intro p hp
      rcases mem_applyMain hp with haction | hp
      · exact h.queuedIds i (hqueue ▸ mem_cons_self) p.2 haction
      · exact h.ids p hp
    · intro j hj v hv
      simp only [queue, mem_append] at hj
      rcases hj with (hj | hj) | hj
      · exact hids j (mem_append_left _ hj) v hv
      · exact absurd hv (hacts j hj v)
      · exact hids j (mem_append_right _ hj) v hv

/-! ## Readers -/

theorem Accounts.of_places (h : s.Accounts)
    {records : OrderedMap KeyInfo ReadingMultipartObject}
    {readers : OrderedMap ℕ PartReader} {nextReader : ℕ}
    {committed : OrderedMap KeyInfo Metadata} {committing : Bool}
    {commitItems : OrderedMap ℕ ℤ}
    (hsum : ∀ k, (gather (fun p => p.2.delKeys) records).count k +
      (gather (fun p => p.2.rest) readers).count k =
        s.deferred.count k + s.remaining.count k) :
    ({ s with
      committed := committed
      committing := committing
      commitItems := commitItems
      readingMultipartObjects := records
      readers := readers
      nextReader := nextReader } : PartStore).Accounts := by
  refine ⟨?_, h.once, h.own, h.partKeys, h.ids, h.queuedIds⟩
  intro k hk
  have hold := h.account k hk
  have hnew := hsum k
  change s.deleted.count k + s.deletions.count k +
    (gather (fun p => p.2.delKeys) records).count k +
      (gather (fun p => p.2.rest) readers).count k = s.removedParts.count k
  omega

theorem Accounts.delPart (h : s.Accounts) {reader : ℕ} {r : PartReader}
    {k : KeyInfo} {rest : List KeyInfo} (hr : (reader, r) ∈ s.readers)
    (hstage : r.stage = .deleting (k :: rest)) :
    ((s.enqueue hash ⟨k, .delWithQueued⟩).setStage reader r
      (.deleting rest)).Accounts := by
  refine h.enqueue ⟨k, .delWithQueued⟩ (append_nil _).symm h.own
    h.partKeys ?_ (by simp)
  intro k' _
  have hset := count_gather_set (fun p => p.2.rest) hr
    { r with stage := .deleting rest } k'
  simp only [PartReader.rest, hstage, count_cons] at hset
  simp only [PartItem.delKeys, PartStore.enqueue, remaining, PartReader.rest,
    count_cons, count_nil]
  omega

end PartStore

end Hs5.S3
