import Hs5.Storage.Readers

/-!
# What readers, writers and trim thread can do

Each step of the storage with readers is one of the cases listed here.
-/

namespace Hs5

open Option

namespace ReadNode

variable {K P : Type} [LinearOrder K] [DecidableEq P]

inductive ReaderStep (cfg : ReadConfig K P) (s : ReadNode K) :
    ReadEvent K → ReadNode K → Prop
  | prepare {fn readNewest readUnsynced} :
      ReaderStep cfg s (.readPrepare fn readNewest readUnsynced)
        (s.readPrepare cfg fn readNewest readUnsynced)
  | snapshotNone {reader r} (hr : (reader, r) ∈ s.readers)
      (hstage : r.stage = .checked) :
      ReaderStep cfg s (.readSnapshot reader) (s.leave reader)
  | snapshot {reader r v} (hr : (reader, r) ∈ s.readers)
      (hstage : r.stage = .checked)
      (hv : getFragInfo cfg s.node.disk.main r.fn r.readNewest = some v) :
      ReaderStep cfg s (.readSnapshot reader) (s.setStage reader r (.found v))
  | requeue {reader r v} (hr : (reader, r) ∈ s.readers)
      (hstage : r.stage = .found v) :
      ReaderStep cfg s (.readPin reader) (s.setStage reader r .queued)
  | pin {reader r v} (hr : (reader, r) ∈ s.readers)
      (hstage : r.stage = .found v)
      (hitems : v.HasExtents →
        s.commitItems.lookup (cfg.hash r.fn) = none) :
      ReaderStep cfg s (.readPin reader) (s.pin reader r v)
  | notFound {reader r} (hr : (reader, r) ∈ s.readers)
      (hstage : r.stage = .queued)
      (hv : getFragInfo cfg s.main r.fn r.readNewest = none) :
      ReaderStep cfg s (.readFragInfo reader)
        ((s.leave reader).addReadingItem (-1))
  | read {reader r v} (hr : (reader, r) ∈ s.readers)
      (hstage : r.stage = .queued)
      (hv : getFragInfo cfg s.main r.fn r.readNewest = some v) :
      ReaderStep cfg s (.readFragInfo reader) (s.pin reader r v)
  | finalize {reader r v seen} (hr : (reader, r) ∈ s.readers)
      (hstage : r.stage = .reading v seen) :
      ReaderStep cfg s (.readFinalize reader)
        ((s.removeReadingItem v).leave reader)

inductive TrimStep (s : ReadNode K) : ReadEvent K → ReadNode K → Prop
  | retry :
      TrimStep s .retryTrim { s with
        trimQueue := s.trimQueue ++ s.readingTrimExtents
        readingTrimExtents := [] }
  | putAside {item rest} (hqueue : s.trimQueue = item :: rest) :
      TrimStep s .trim { s with
        trimQueue := rest
        readingTrimExtents := s.readingTrimExtents ++ [item] }
  | start {item rest} (hpunching : s.punching = none)
      (hqueue : s.trimQueue = item :: rest)
      (hskip : hasPointIn s.readingFreeSkipExtents item.offset item.len =
        false) :
      TrimStep s .trim { s with trimQueue := rest, punching := some item }
  | drop {item rest} (hqueue : s.trimQueue = item :: rest) :
      TrimStep s .trim { s with
        trimQueue := rest
        node := { s.node with trimQueue := s.node.trimQueue.erase item } }
  | finish {item ok} (hpunching : s.punching = some item) :
      TrimStep s (.trimmed ok) { s with
        node := { s.node with trimQueue := s.node.trimQueue.erase item }
        punching := none
        doTrim := ok }

inductive Steps (cfg : ReadConfig K P) (s : ReadNode K) :
    ReadEvent K → ReadNode K → Prop
  | enqueue {fn} : Steps cfg s (.enqueue fn) (s.enqueue cfg fn)
  | run {e node} (hcan : s.canRun e = true)
      (hnode : s.node.step cfg.node (.run e) = some node)
      (hkey : itemKey e = none) : Steps cfg s (.run e) { s with node := node }
  | item {e node fn n} (hcan : s.canRun e = true)
      (hnode : s.node.step cfg.node (.run e) = some node)
      (hkey : itemKey e = some fn)
      (hcount : s.commitItems.lookup (cfg.hash fn) = some (n + 1)) :
      Steps cfg s (.run e)
        { { s with
            commitItems :=
              s.commitItems.insert (cfg.hash fn) n }.skipReadingFn fn with
          node := node }
  | walCommit {node} (hidle : s.committing = false)
      (hnode : s.node.step cfg.node .walCommit = some node) :
      Steps cfg s .walCommit (s.pushTrim node)
  | lmdbCommit {rounds node} (hidle : s.committing = false)
      (hskip : ∀ skip ∈ rounds,
        skip.readingFreeSkipExtents = s.readingFreeSkipExtents)
      (hnode : s.node.step cfg.node (.lmdbCommit rounds) = some node) :
      Steps cfg s (.lmdbCommit rounds) { s.pushTrim node with
        committing := true
        data := s.zeroHoles node }
  | cleanCommitItems (hcommitting : s.committing = true) :
      Steps cfg s .cleanCommitItems { s with
        committing := false
        commitItems := s.commitItems.filter fun p => p.2 ≠ 0 }
  | resetWal :
      Steps cfg s .resetWal { s with node := { s.node with old := [] } }
  | crash {c node data}
      (hnode : s.node.step cfg.node (.crash c) = some node) :
      Steps cfg s (.crash c data) (started node s.nextReader data)
  | writeExt {e offset bytes} (he : e ∈ s.node.alloc.held)
      (hoffset : 0 ≤ offset) (hlen : offset + bytes.length ≤ roundUp e.len) :
      Steps cfg s (.writeExt e offset bytes false)
        { s with data := writeBytes s.data (e.offset + offset) bytes }
  | queueWrite {e offset bytes} (he : e ∈ s.node.alloc.held)
      (hoffset : 0 ≤ offset) (hlen : offset + bytes.length ≤ roundUp e.len) :
      Steps cfg s (.writeExt e offset bytes true)
        { s with dataWriteQueue :=
            s.dataWriteQueue ++ [(e.offset + offset, bytes)] }
  | dataWrite {offset bytes rest}
      (hqueue : s.dataWriteQueue = (offset, bytes) :: rest) :
      Steps cfg s .dataWrite { s with
        data := writeBytes s.data offset bytes
        dataWriteQueue := rest }
  | reader {e s'} (h : ReaderStep cfg s e s') : Steps cfg s e s'
  | trim {e s'} (h : TrimStep s e s') : Steps cfg s e s'
  | punch {item} (hpunching : s.punching = some item) : Steps cfg s .punch
        { s with data := zero s.data item.offset item.len }

section

variable {cfg : ReadConfig K P} {s s' : ReadNode K}

/-! ## What readers change -/

theorem skipReadingFn_eq (s : ReadNode K) (fn : K) :
    ∃ items skip, s.skipReadingFn fn = { s with
      readingItems := items
      readingFreeSkipExtents := skip } := by
  unfold skipReadingFn skipReading
  split
  · split
    · split
      · exact ⟨_, _, rfl⟩
      · exact ⟨_, _, rfl⟩
    · exact ⟨_, _, rfl⟩
  · exact ⟨_, _, rfl⟩

theorem removeReadingItem_eq (s : ReadNode K) (v : IndexValue) :
    ∃ items skip, s.removeReadingItem v = { s with
      readingItems := items
      readingFreeSkipExtents := skip } := by
  unfold removeReadingItem
  split
  · exact ⟨_, _, rfl⟩
  · split
    · exact ⟨_, _, rfl⟩
    · split
      · exact ⟨_, _, rfl⟩
      · exact ⟨_, _, rfl⟩

theorem pin_eq (s : ReadNode K) (reader : ℕ) (r : Reader K)
    (v : IndexValue) :
    ∃ items, s.pin reader r v =
      { s.setStage reader r (.reading v s.data) with
        readingItems := items } := by
  unfold pin
  simp only
  split
  · exact ⟨_, rfl⟩
  · exact ⟨_, rfl⟩

theorem ReaderStep.frame {e : ReadEvent K} (h : ReaderStep cfg s e s') :
    ∃ items skip readers next, s' = { s with
      readingItems := items
      readingFreeSkipExtents := skip
      readers := readers
      nextReader := next } := by
  cases h with
  | pin | read =>
    obtain ⟨items, heq⟩ := pin_eq s _ _ _
    exact ⟨_, _, _, _, heq⟩
  | @finalize reader r v seen hr hstage =>
    obtain ⟨items, skip, heq⟩ := removeReadingItem_eq s v
    rw [heq]
    exact ⟨_, _, _, _, rfl⟩
  | _ => exact ⟨_, _, _, _, rfl⟩

/-! ## Inversion -/

theorem readSnapshot_steps {reader : ℕ}
    (h : s.readSnapshot cfg reader = some s') :
    ReaderStep cfg s (.readSnapshot reader) s' := by
  obtain ⟨r, hr, h⟩ := bind_eq_some_iff.mp h
  have hr := OrderedMap.lookup_eq_some.mp hr
  split at h
  · rename_i hstage
    split at h
    · cases h
      exact .snapshotNone hr hstage
    · rename_i v hv
      cases h
      exact .snapshot hr hstage hv
  · cases h

theorem readPin_steps {reader : ℕ} (h : s.readPin cfg reader = some s') :
    ReaderStep cfg s (.readPin reader) s' := by
  obtain ⟨r, hr, h⟩ := bind_eq_some_iff.mp h
  have hr := OrderedMap.lookup_eq_some.mp hr
  split at h
  · rename_i v hstage
    split at h
    · cases h
      exact .requeue hr hstage
    · rename_i hnot
      cases h
      refine .pin hr hstage ?_
      intro hext
      simpa [hext] using hnot
  · cases h

theorem readFragInfo_steps {reader : ℕ}
    (h : s.readFragInfo cfg reader = some s') :
    ReaderStep cfg s (.readFragInfo reader) s' := by
  obtain ⟨r, hr, h⟩ := bind_eq_some_iff.mp h
  have hr := OrderedMap.lookup_eq_some.mp hr
  split at h
  · rename_i hstage
    split at h
    · rename_i hv
      cases h
      exact .notFound hr hstage hv
    · rename_i v hv
      cases h
      exact .read hr hstage hv
  · cases h

theorem readFinalize_steps {reader : ℕ}
    (h : s.readFinalize reader = some s') :
    ReaderStep cfg s (.readFinalize reader) s' := by
  obtain ⟨r, hr, h⟩ := bind_eq_some_iff.mp h
  have hr := OrderedMap.lookup_eq_some.mp hr
  split at h
  · rename_i v seen hstage
    cases h
    exact .finalize hr hstage
  · cases h

theorem trim_steps (h : s.trim = some s') : TrimStep s .trim s' := by
  unfold trim at h
  split at h
  · rename_i item rest hpunching hqueue
    simp only at h
    split at h
    · cases h
      exact .putAside hqueue
    · rename_i hskip
      split at h
      · cases h
        exact .start hpunching hqueue (by simpa using hskip)
      · cases h
        exact .drop hqueue
  · cases h

theorem run_steps {e : AllocEvent K} (h : s.run cfg e = some s') :
    Steps cfg s (.run e) s' := by
  unfold run at h
  split at h
  · rename_i hcan
    obtain ⟨node, hnode, h⟩ := bind_eq_some_iff.mp h
    obtain ⟨taken, htaken, h⟩ := bind_eq_some_iff.mp h
    cases h
    unfold takeEvent at htaken
    split at htaken
    · rename_i fn hkey
      unfold takeItem at htaken
      split at htaken
      · rename_i n hcount
        cases htaken
        exact .item hcan hnode hkey hcount
      · cases htaken
    · rename_i hkey
      cases htaken
      exact .run hcan hnode hkey
  · cases h

theorem step_steps {e : ReadEvent K} (h : s.step cfg e = some s') :
    Steps cfg s e s' := by
  cases e with
  | enqueue fn =>
    cases h
    exact .enqueue
  | run e => exact run_steps h
  | walCommit =>
    simp only [step, walCommit] at h
    split at h
    · cases h
    · rename_i hidle
      obtain ⟨node, hnode, rfl⟩ := map_eq_some_iff.mp h
      exact .walCommit (by simpa using hidle) hnode
  | lmdbCommit rounds =>
    simp only [step, lmdbCommit, ite_none_right_eq_some,
      map_eq_some_iff] at h
    obtain ⟨⟨hidle, hskip⟩, node, hnode, rfl⟩ := h
    exact .lmdbCommit (by simpa using hidle) hskip hnode
  | cleanCommitItems =>
    simp only [step, cleanCommitItems, ite_none_right_eq_some,
      Option.some.injEq] at h
    obtain ⟨hcommitting, rfl⟩ := h
    exact .cleanCommitItems hcommitting
  | resetWal =>
    cases h
    exact .resetWal
  | crash c data =>
    obtain ⟨node, hnode, rfl⟩ := map_eq_some_iff.mp h
    exact .crash hnode
  | writeExt e offset bytes walWriteThread =>
    simp only [step, ite_none_right_eq_some, Option.some.injEq] at h
    obtain ⟨⟨he, hoffset, hlen⟩, rfl⟩ := h
    cases walWriteThread with
    | false => exact .writeExt he hoffset hlen
    | true => exact .queueWrite he hoffset hlen
  | dataWrite =>
    simp only [step, dataWrite] at h
    split at h
    · cases h
    · rename_i hqueue
      cases h
      exact .dataWrite hqueue
  | readPrepare fn readNewest readUnsynced =>
    cases h
    exact .reader .prepare
  | readSnapshot reader => exact .reader (readSnapshot_steps h)
  | readPin reader => exact .reader (readPin_steps h)
  | readFragInfo reader =>
    simp only [step, ite_none_left_eq_some] at h
    exact .reader (readFragInfo_steps h.2)
  | readFinalize reader => exact .reader (readFinalize_steps h)
  | retryTrim =>
    cases h
    exact .trim .retry
  | trim => exact .trim (trim_steps h)
  | punch =>
    obtain ⟨item, hitem, rfl⟩ := map_eq_some_iff.mp h
    exact .punch hitem
  | trimmed ok =>
    obtain ⟨item, hitem, rfl⟩ := map_eq_some_iff.mp h
    exact .trim (.finish hitem)

end

end ReadNode

end Hs5
