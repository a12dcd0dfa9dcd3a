import Hs5.S3.Deferred

/-!
# What readers, writers and the commit thread do to parts

Each step of the store is one of the cases listed here.  Removing an object
either asks for the deletion of its parts or notes them for the last reader.
-/

namespace Hs5.S3

open Option Transition OrderedMap

/-! ## Places of parts -/

def PartItem.addParts (i : PartItem) : List KeyInfo :=
  match i.action with
  | .add v => partsOf (i.fn, v)
  | _ => []

def PartItem.delKeys (i : PartItem) : List KeyInfo :=
  match i.action with
  | .del | .delWithQueued => [i.fn]
  | .add _ | .queueDel => []

/-- The multipart object that a reader is counted for. -/
def PartReader.opened (r : PartReader) : List KeyInfo :=
  match r.stage with
  | .reading fn (.multipartObject _ _ _ _ _) => [fn]
  | _ => []

/-- The parts that a reader is about to delete. -/
def PartReader.rest (r : PartReader) : List KeyInfo :=
  match r.stage with
  | .deleting rest => rest
  | _ => []

namespace PartStore

def queue (s : PartStore) : List PartItem := s.callbackQueue ++ s.commitQueue

def queuedParts (s : PartStore) : List KeyInfo :=
  s.queue.flatMap PartItem.addParts

def live (s : PartStore) : List KeyInfo := gather partsOf s.main

def removedParts (s : PartStore) : List KeyInfo := s.removed.map Prod.snd

def deletions (s : PartStore) : List KeyInfo := s.queue.flatMap PartItem.delKeys

def deferred (s : PartStore) : List KeyInfo :=
  gather (fun p => p.2.delKeys) s.readingMultipartObjects

def remaining (s : PartStore) : List KeyInfo :=
  gather (fun p => p.2.rest) s.readers

def opened (s : PartStore) : List KeyInfo :=
  gather (fun p => p.2.opened) s.readers

end PartStore

def IsPartKey (k : KeyInfo) : Prop := k.bucketId % 4 = 3

theorem isPartKey_of_mem_partsOf {fn : KeyInfo} {v : Metadata}
    (hfn : isObjectBucket fn.bucketId) {k : KeyInfo}
    (hk : k ∈ partsOf (fn, v)) : IsPartKey k := by
  unfold partsOf at hk
  split at hk
  · simp only [partKeys, List.mem_map] at hk
    obtain ⟨n, -, rfl⟩ := hk
    simp only [isObjectBucket] at hfn
    simp only [IsPartKey, getPartsBucket]
    omega
  · cases hk

namespace PartStore

/-! ## What a step can do -/

inductive Steps (hash : ℤ × Bytes → ℕ) (s : PartStore) :
    PartEvent → PartStore → Prop
  | put {fn v} (hbucket : isObjectBucket fn.bucketId) :
      Steps hash s (.put fn v) { s.enqueue hash ⟨fn, .add v⟩ with
        written := s.written ++ partsOf (fn, v) }
  | putPart {fn md5 m} :
      Steps hash s (.putPart fn md5 m)
        (s.enqueue hash ⟨fn, .add (.object md5 m)⟩)
  | delete {fn} (hbucket : isObjectBucket fn.bucketId) :
      Steps hash s (.delete fn) (s.enqueue hash ⟨fn, .del⟩)
  /-- the commit thread takes the next item, of either queue -/
  | process {i callbackQueue commitQueue} (hidle : s.committing = false)
      (hqueue : s.queue = i :: (callbackQueue ++ commitQueue)) :
      Steps hash s .process ({ s with
        callbackQueue := callbackQueue
        commitQueue := commitQueue
        commitItems := countItem hash (-1) i s.commitItems }.runItem hash i)
  | lmdbCommit :
      Steps hash s .lmdbCommit { s with committed := s.main, committing := true }
  | cleanCommitItems (hcommitting : s.committing = true) :
      Steps hash s .cleanCommitItems { s with
        committing := false
        commitItems := s.commitItems.filter fun p => p.2 ≠ 0 }
  | readPrepare {fn readNewest readUnsynced} :
      Steps hash s (.readPrepare fn readNewest readUnsynced)
        (s.readPrepare hash fn readNewest readUnsynced)
  /-- a reader that is not counted leaves -/
  | leave {e reader r} (hr : (reader, r) ∈ s.readers)
      (hopened : r.opened = []) (hrest : r.rest = []) :
      Steps hash s e (s.leave reader)
  /-- a reader that is not counted waits for another step -/
  | wait {e reader r stage} (hr : (reader, r) ∈ s.readers)
      (hopened : r.opened = []) (hrest : r.rest = [])
      (hstage : ({ r with stage := stage } : PartReader).opened = [] ∧
        ({ r with stage := stage } : PartReader).rest = [])
      (hreading : ∀ fn v, stage ≠ .reading fn v) :
      Steps hash s e (s.setStage reader r stage)
  | pin {reader r fn v} (hr : (reader, r) ∈ s.readers)
      (hstage : r.stage = .found fn v)
      (hitems : v ≠ .tombstone →
        s.commitItems.lookup (hash r.fn.commonPrefix) = none) :
      Steps hash s (.readPin reader) (s.pin reader r (fn, v))
  | read {reader r p} (hr : (reader, r) ∈ s.readers)
      (hstage : r.stage = .queued)
      (hp : findFragInfo KeyInfo.commonPrefix s.main r.fn r.readNewest =
        some p) :
      Steps hash s (.readFragInfo reader) (s.pin reader r p)
  | finalize {reader r fn v rest s₁} (hr : (reader, r) ∈ s.readers)
      (hstage : r.stage = .reading fn v) (hopened : r.opened = [fn])
      (hremove : s.removeReadingMultipartObject fn = (s₁, rest)) :
      Steps hash s (.finalizeMultiPart reader)
        (s₁.setStage reader r (.deleting rest))
  | delPart {reader r k rest} (hr : (reader, r) ∈ s.readers)
      (hstage : r.stage = .deleting (k :: rest)) :
      Steps hash s (.delPart reader)
        ((s.enqueue hash ⟨k, .delWithQueued⟩).setStage reader r
          (.deleting rest))

variable {hash : ℤ × Bytes → ℕ} {s s' : PartStore}

theorem process_steps (h : s.process hash = some s') :
    Steps hash s .process s' := by
  unfold process at h
  split at h
  · cases h
  · rename_i hidle
    have hidle : s.committing = false := by simpa using hidle
    split at h
    · rename_i i rest _ hqueue
      cases h
      exact .process hidle (by simp [queue, hqueue])
    · rename_i i rest hcallback hqueue
      cases h
      refine .process hidle ?_
      simp [queue, hcallback, hqueue]
    · cases h

theorem readSnapshot_steps {reader : ℕ}
    (h : s.readSnapshot reader = some s') :
    Steps hash s (.readSnapshot reader) s' := by
  obtain ⟨r, hr, h⟩ := bind_eq_some_iff.mp h
  have hr := lookup_eq_some.mp hr
  split at h
  · rename_i hstage
    have hopened : r.opened = [] := by simp [PartReader.opened, hstage]
    have hrest : r.rest = [] := by simp [PartReader.rest, hstage]
    split at h
    · cases h
      exact .leave hr hopened hrest
    · cases h
      exact .wait hr hopened hrest ⟨rfl, rfl⟩ (by simp)
  · cases h

theorem readPin_steps {reader : ℕ} (h : s.readPin hash reader = some s') :
    Steps hash s (.readPin reader) s' := by
  obtain ⟨r, hr, h⟩ := bind_eq_some_iff.mp h
  have hr := lookup_eq_some.mp hr
  split at h
  · rename_i fn v hstage
    split at h
    · cases h
      exact .wait hr (by simp [PartReader.opened, hstage])
        (by simp [PartReader.rest, hstage]) ⟨rfl, rfl⟩ (by simp)
    · rename_i hnot
      cases h
      refine .pin hr hstage ?_
      intro hv
      simpa [hv] using hnot
  · cases h

theorem readFragInfo_steps {reader : ℕ}
    (h : s.readFragInfo reader = some s') :
    Steps hash s (.readFragInfo reader) s' := by
  unfold readFragInfo at h
  split at h
  · cases h
  · obtain ⟨r, hr, h⟩ := bind_eq_some_iff.mp h
    have hr := lookup_eq_some.mp hr
    split at h
    · rename_i hstage
      split at h
      · cases h
        exact .leave hr (by simp [PartReader.opened, hstage])
          (by simp [PartReader.rest, hstage])
      · rename_i p hp
        cases h
        exact .read hr hstage hp
    · cases h

theorem finalizeMultiPart_steps {reader : ℕ}
    (h : s.finalizeMultiPart reader = some s') :
    Steps hash s (.finalizeMultiPart reader) s' := by
  obtain ⟨r, hr, h⟩ := bind_eq_some_iff.mp h
  have hr := lookup_eq_some.mp hr
  split at h
  · rename_i fn _ _ _ _ _ hstage
    cases h
    exact .finalize hr hstage (by simp [PartReader.opened, hstage]) rfl
  · rename_i fn v hnot hstage
    cases h
    refine .leave hr ?_ (by simp [PartReader.rest, hstage])
    unfold PartReader.opened
    split
    · rename_i heq
      rw [hstage] at heq
      cases heq
      exact absurd rfl (hnot _ _ _ _ _)
    · rfl
  · cases h

theorem delPart_steps {reader : ℕ} (h : s.delPart hash reader = some s') :
    Steps hash s (.delPart reader) s' := by
  obtain ⟨r, hr, h⟩ := bind_eq_some_iff.mp h
  have hr := lookup_eq_some.mp hr
  split at h
  · rename_i k rest hstage
    cases h
    exact .delPart hr hstage
  · rename_i hstage
    cases h
    exact .leave hr (by simp [PartReader.opened, hstage])
      (by simp [PartReader.rest, hstage])
  · cases h

theorem step_steps {e : PartEvent} (h : s.step hash e = some s') :
    Steps hash s e s' := by
  cases e with
  | put fn v =>
    simp only [step, ite_none_right_eq_some, Option.some.injEq] at h
    obtain ⟨hbucket, rfl⟩ := h
    exact .put hbucket
  | putPart fn md5 m =>
    simp only [step, ite_none_left_eq_some, Option.some.injEq] at h
    obtain ⟨-, rfl⟩ := h
    exact .putPart
  | delete fn =>
    simp only [step, ite_none_right_eq_some, Option.some.injEq] at h
    obtain ⟨hbucket, rfl⟩ := h
    exact .delete hbucket
  | process => exact process_steps h
  | lmdbCommit =>
    simp only [step, ite_none_left_eq_some, Option.some.injEq] at h
    obtain ⟨-, rfl⟩ := h
    exact .lmdbCommit
  | cleanCommitItems =>
    simp only [step, ite_none_right_eq_some, Option.some.injEq] at h
    obtain ⟨hcommitting, rfl⟩ := h
    exact .cleanCommitItems hcommitting
  | readPrepare fn readNewest readUnsynced =>
    cases h
    exact .readPrepare
  | readSnapshot reader => exact readSnapshot_steps h
  | readPin reader => exact readPin_steps h
  | readFragInfo reader => exact readFragInfo_steps h
  | finalizeMultiPart reader => exact finalizeMultiPart_steps h
  | delPart reader => exact delPart_steps h

/-! ## Removing a version -/

def partsAt (s : PartStore) (fn : KeyInfo) : List KeyInfo :=
  match s.main.lookup fn with
  | some v => partsOf (fn, v)
  | none => []

theorem isSome_countItem {items : OrderedMap ℕ ℤ} {h : ℕ} (d : ℤ)
    (i : PartItem) (hsome : (items.lookup h).isSome) :
    ((countItem hash d i items).lookup h).isSome := by
  unfold countItem
  split
  · by_cases heq : h = hash i.fn.commonPrefix
    · simp [heq]
    · rw [lookup_insert_of_ne _ _ heq]
      exact hsome
  · exact hsome

theorem isSome_countItems {items : OrderedMap ℕ ℤ} {h : ℕ}
    (acts : List PartItem) (hsome : (items.lookup h).isSome) :
    ((acts.foldl (fun items i => countItem hash 1 i items) items).lookup
      h).isSome := by
  induction acts generalizing items with
  | nil => exact hsome
  | cons i acts ih => exact ih (isSome_countItem 1 i hsome)

theorem flatMap_addParts {acts : List PartItem}
    (hacts : ∀ i ∈ acts, ∀ v, i.action ≠ .add v) :
    acts.flatMap PartItem.addParts = [] := by
  rw [List.flatMap_eq_nil_iff]
  intro i hi
  unfold PartItem.addParts
  split
  · rename_i v haction
    exact absurd haction (hacts i hi v)
  · rfl

theorem delKeys_map (keys : List KeyInfo) (isReading : Bool) :
    (keys.map fun k => PartItem.mk k
      (if isReading then .queueDel else .del)).flatMap PartItem.delKeys =
        if isReading then [] else keys := by
  cases isReading with
  | true => simp [List.flatMap_map, PartItem.delKeys]
  | false => simp [List.flatMap_map, PartItem.delKeys]

/-- The record of the readers after the parts of an upload were noted. -/
def noted (obj : ReadingMultipartObject) (fn : KeyInfo) (v : Metadata) :
    ReadingMultipartObject :=
  match v with
  | .multipartObject _ uploadId _ exts _ =>
    { obj with
      delUploadId := uploadId
      delBucketId := getPartsBucket fn.bucketId
      delParts := exts }
  | _ => obj

theorem noted_refs (obj : ReadingMultipartObject) (fn : KeyInfo)
    (v : Metadata) : (noted obj fn v).refs = obj.refs := by
  unfold noted
  split <;> rfl

theorem noted_delKeys {obj : ReadingMultipartObject} {fn : KeyInfo}
    {v : Metadata} (hmulti : v.uploadId?.isSome)
    (hid : v.uploadId? ≠ some (-1)) :
    (noted obj fn v).delKeys = partsOf (fn, v) := by
  cases v with
  | multipartObject md5 uploadId numParts exts m =>
    have hne : uploadId ≠ -1 := by simpa [Metadata.uploadId?] using hid
    simp [noted, ReadingMultipartObject.delKeys, partsOf, hne]
  | _ => simp [Metadata.uploadId?] at hmulti

/-- What becomes of the parts of an object that is removed: the records of
readers and the parts to delete right away. -/
inductive PartsGo (s : PartStore) (fn : KeyInfo) :
    OrderedMap KeyInfo ReadingMultipartObject → List KeyInfo → Prop
  | deleted {dels} (hdels : dels = s.partsAt fn)
      (hno : ∀ v, s.main.lookup fn = some v → v.uploadId?.isSome →
        s.readingMultipartObjects.lookup fn = none) :
      PartsGo s fn s.readingMultipartObjects dels
  | noted {v obj} (hv : s.main.lookup fn = some v) (hmulti : v.uploadId?.isSome)
      (hobj : s.readingMultipartObjects.lookup fn = some obj) :
      PartsGo s fn (s.readingMultipartObjects.insert fn (noted obj fn v)) []

theorem onDeleteCallback_eq {fn : KeyInfo} {v : Metadata}
    (hv : s.main.lookup fn = some v) : ∃ records acts,
      s.onDeleteCallback fn v =
        ({ s with readingMultipartObjects := records }, acts) ∧
      s.PartsGo fn records (acts.flatMap PartItem.delKeys) ∧
      ∀ i ∈ acts, ∀ v, i.action ≠ .add v := by
  have hparts : s.partsAt fn = partsOf (fn, v) := by simp [partsAt, hv]
  cases v with
  | multipartObject md5 uploadId numParts exts m =>
    unfold onDeleteCallback isReadingMultipartObjectAndMarkDel
    cases hobj : s.readingMultipartObjects.lookup fn with
    | none =>
      exact ⟨s.readingMultipartObjects, _, rfl, .deleted
        ((delKeys_map _ false).trans hparts.symm) fun _ _ _ => hobj, by simp⟩
    | some obj =>
      refine ⟨_, _, rfl, ?_, by simp⟩
      rw [delKeys_map _ true]
      exact .noted hv rfl hobj
  | _ =>
    refine ⟨s.readingMultipartObjects, [], rfl, ?_, by simp⟩
    refine .deleted hparts.symm fun w hw hmulti => ?_
    rw [hv] at hw
    cases hw
    cases hmulti

theorem removeFn_eq (hash : ℤ × Bytes → ℕ) (s : PartStore) (fn : KeyInfo)
    (delFromMain : Bool) : ∃ records acts items,
      s.PartsGo fn records (acts.flatMap PartItem.delKeys) ∧
      (∀ i ∈ acts, ∀ v, i.action ≠ .add v) ∧
      (∀ h, (s.commitItems.lookup h).isSome → (items.lookup h).isSome) ∧
      s.removeFn hash fn delFromMain = { s with
        main := if delFromMain then s.main.erase fn else s.main
        readingMultipartObjects := records
        callbackQueue := s.callbackQueue ++ acts
        commitItems := items
        removed := s.removed ++ (s.partsAt fn).map fun k => (fn, k) } := by
  cases hlook : s.main.lookup fn with
  | none =>
    have hparts : s.partsAt fn = [] := by simp [partsAt, hlook]
    refine ⟨s.readingMultipartObjects, [], s.commitItems,
      .deleted hparts.symm (by simp [hlook]), by simp, fun _ hk => hk, ?_⟩
    simp [removeFn, hlook, hparts, erase_eq_self (lookup_eq_none.mp hlook)]
  | some v =>
    have hparts : s.partsAt fn = partsOf (fn, v) := by simp [partsAt, hlook]
    obtain ⟨records, acts, heq, hgo, hacts⟩ := onDeleteCallback_eq hlook
    simp only [removeFn, hlook, heq, hparts]
    exact ⟨records, acts, _, hgo, hacts,
      fun _ h => isSome_countItems acts h, rfl⟩

def applyMain (i : PartItem) (main : OrderedMap KeyInfo Metadata) :
    OrderedMap KeyInfo Metadata :=
  match i.action with
  | .add v => main.insert i.fn v
  | .del | .delWithQueued => main.erase i.fn
  | .queueDel => main

inductive Runs (s : PartStore) (i : PartItem) : PartStore → Prop
  | queueDel {queueDel} (haction : i.action = .queueDel) :
      Runs s i { s with queueDel := queueDel }
  | remove {records acts items queueDel} (hitem : i.action.hasCommitItem = true)
      (hgo : s.PartsGo i.fn records (acts.flatMap PartItem.delKeys))
      (hacts : ∀ j ∈ acts, ∀ v, j.action ≠ .add v)
      (hitems : ∀ h, (s.commitItems.lookup h).isSome →
        (items.lookup h).isSome) :
      Runs s i { s with
        main := applyMain i s.main
        readingMultipartObjects := records
        callbackQueue := s.callbackQueue ++ acts
        commitItems := items
        queueDel := queueDel
        removed := s.removed ++ (s.partsAt i.fn).map fun k => (i.fn, k)
        deleted := s.deleted ++ i.delKeys }

theorem runItem_runs (hash : ℤ × Bytes → ℕ) (s : PartStore) (i : PartItem) :
    s.Runs i (s.runItem hash i) := by
  obtain ⟨fn, action⟩ := i
  cases action with
  | add v =>
    obtain ⟨records, acts, items, hgo, hacts, hitems, heq⟩ :=
      removeFn_eq hash s fn false
    have hdeleted : s.deleted = s.deleted ++ [] := (List.append_nil _).symm
    simp only [runItem, heq]
    rw [hdeleted]
    exact .remove rfl hgo hacts hitems
  | del | delWithQueued =>
    obtain ⟨records, acts, items, hgo, hacts, hitems, heq⟩ :=
      removeFn_eq hash s fn true
    simp only [runItem, heq]
    exact .remove rfl hgo hacts hitems
  | queueDel => exact .queueDel rfl

end PartStore

end Hs5.S3
