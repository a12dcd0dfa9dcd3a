import Hs5.S3.ReadRequests

/-!
# What a step of a request does

Apart from the steps of the storage and the start of a request, a step takes
one request further, or ends it.  `Moves` lists the ways in which it does so,
with what happens to the readers.
-/

namespace Hs5.S3

open Option Transition OrderedMap

variable {K P : Type} [LinearOrder K]

def Reads (node : ReadNode K) (p : Opened) : Prop :=
  ∃ r seen, (p.1, r) ∈ node.readers ∧ r.stage = .reading p.2 seen

def RequestPhase.part : RequestPhase → Option ℕ
  | .seeking part | .loading part => some part
  | .checking | .reading | .paused => none

def RequestEvent.request : RequestEvent K → Option ℕ
  | .storage _ | .readMeta _ _ | .start _ _ _ => none
  | .prepared q | .reject q | .seekPart q _ | .startReading q
  | .readPart q _ | .partPrepared q | .finish q | .pause q | .resume q
  | .abort q => some q

namespace ReadRequests

theorem result_none {node : ReadNode K} {reader : ℕ}
    (h : result node reader = some none) :
    node.readers.lookup reader = none := by
  unfold result at h
  split at h
  · assumption
  · split at h
    · cases h
    · cases h

theorem result_some {node : ReadNode K} {reader : ℕ} {v : IndexValue}
    (h : result node reader = some (some v)) : Reads node (reader, v) := by
  unfold result at h
  split at h
  · cases h
  · rename_i r hr
    split at h
    · rename_i w seen hstage
      cases h
      exact ⟨r, seen, lookup_eq_some.mp hr, hstage⟩
    · cases h

variable [DecidableEq P]

/-- How a request goes on: the readers, and the request if it has not
ended. -/
inductive Moves (cfg : RequestConfig K P) (node : ReadNode K) :
    RequestEvent K → ReadRequest → ReadNode K → Option ReadRequest → Prop
  | missing {q isCopy reader} (hgone : node.readers.lookup reader = none) :
      Moves cfg node (.prepared q) (.preparing isCopy reader) node none
  | marker {q isCopy reader v} (hv : Reads node (reader, v))
      (hmarker : cfg.tombstone v = true) :
      Moves cfg node (.prepared q) (.preparing isCopy reader) node none
  | opened {q isCopy reader v phase} (hv : Reads node (reader, v))
      (hphase : phase.part = none) :
      Moves cfg node (.prepared q) (.preparing isCopy reader) node
        (some (.handling (ReadRequests.opened cfg isCopy (reader, v)) phase))
  | reject {q h} :
      Moves cfg node (.reject q) (.handling h .checking)
        (h.cleanup h.res node) none
  | startReading {q h} :
      Moves cfg node (.startReading q) (.handling h .checking) node
        (some (.handling { h with
          extents := if h.currExt.isSome then h.extents else h.res }
          .reading))
  | firstPart {e h phase info curr phase'}
      (hinfo : h.multiPartDownloadData = some info)
      (hcurr : h.currExt = none) (hphase : phase.part = none)
      (hphase' : RequestPhase.part phase' = some node.nextReader) :
      Moves cfg node e (.handling h phase)
        (node.readPrepare cfg.reads (cfg.partKey info.uploadId curr.1.start)
          false false) (some (.handling { h with currExt := some curr } phase'))
  | nextPart {q offset h info curr}
      (hinfo : h.multiPartDownloadData = some info)
      (hcurr : h.currExt.isSome = true) :
      Moves cfg node (.readPart q offset) (.handling h .reading)
        ((leavePart h node).1.readPrepare cfg.reads
          (cfg.partKey info.uploadId curr.1.start) false false)
        (some (.handling { (leavePart h node).2 with currExt := some curr }
          (.loading (leavePart h node).1.nextReader)))
  | partMissing {q h phase part extents} (hphase : phase.part = some part)
      (hgone : node.readers.lookup part = none)
      (hextents : extents = h.res ∨ extents = h.extents) :
      Moves cfg node (.partPrepared q) (.handling h phase)
        (h.cleanup extents node) none
  | partOpened {q h phase phase' part v} (hphase : phase.part = some part)
      (hphase' : RequestPhase.part phase' = none)
      (hv : Reads node (part, v)) :
      Moves cfg node (.partPrepared q) (.handling h phase) node
        (some (.handling (h.openPart (part, v)) phase'))
  | finish {q h} :
      Moves cfg node (.finish q) (.handling h .reading)
        (h.cleanup h.extents node) none
  | turn {e h phase phase'} (hphase : phase.part = none)
      (hphase' : RequestPhase.part phase' = none) :
      Moves cfg node e (.handling h phase) node (some (.handling h phase'))
  | abort {q h} : Moves cfg node (.abort q) (.handling h .paused) node none

inductive Steps (cfg : RequestConfig K P) (s : ReadRequests K) :
    RequestEvent K → ReadRequests K → Prop
  | storage {e node} (hreader : ∀ fn readNewest readUnsynced,
        e ≠ .readPrepare fn readNewest readUnsynced)
      (hfinalize : ∀ reader, e ≠ .readFinalize reader)
      (hcrash : ∀ c data, e ≠ .crash c data)
      (hnode : s.node.step cfg.reads e = some node) :
      Steps cfg s (.storage e) { s with node := node }
  | crash {c data node}
      (hnode : s.node.step cfg.reads (.crash c data) = some node) :
      Steps cfg s (.storage (.crash c data))
        { s with node := node, requests := OrderedMap.empty }
  | readMeta {fn readNewest} : Steps cfg s (.readMeta fn readNewest) s
  | start {isCopy fn readNewest} :
      Steps cfg s (.start isCopy fn readNewest)
        (s.start cfg isCopy fn readNewest)
  | moves {e q r node r?} (hq : e.request = some q) (hr : (q, r) ∈ s.requests)
      (hmoves : Moves cfg s.node e r node r?) : Steps cfg s e (s.put q node r?)

variable {cfg : RequestConfig K P} {s s' : ReadRequests K}

theorem steps_of_prepared {q : ℕ} (h : s.prepared cfg q = some s') :
    Steps cfg s (.prepared q) s' := by
  unfold prepared at h
  split at h
  · rename_i isCopy reader hr
    have hmem := lookup_eq_some.mp hr
    obtain ⟨v?, hv, hs'⟩ := map_eq_some_iff.mp h
    cases v? with
    | none =>
      subst hs'
      exact .moves rfl hmem (.missing (result_none hv))
    | some v =>
      have hreads := result_some hv
      simp only at hs'
      split at hs'
      · rename_i hcopy
        split at hs'
        · rename_i hmarker
          subst hs'
          exact .moves rfl hmem (.marker hreads hmarker)
        · subst hs' hcopy
          exact .moves rfl hmem (.opened hreads rfl)
      · rename_i hcopy
        obtain rfl : isCopy = false := by simpa using hcopy
        subst hs'
        exact .moves rfl hmem (.opened hreads rfl)
  · cases h

theorem steps_of_seekPart {q : ℕ} {n : ℤ}
    (h : s.seekPart cfg q n = some s') : Steps cfg s (.seekPart q n) s' := by
  unfold seekPart at h
  split at h
  · rename_i hnd hr
    have hmem := lookup_eq_some.mp hr
    obtain ⟨info, hinfo, h⟩ := bind_eq_some_iff.mp h
    split at h
    · rename_i hok
      obtain ⟨curr, -, h⟩ := bind_eq_some_iff.mp h
      cases h
      exact .moves rfl hmem (.firstPart hinfo (by simpa using hok.1) rfl rfl)
    · cases h
  · cases h

theorem steps_of_readPart {q : ℕ} {offset : ℤ}
    (h : s.readPart cfg q offset = some s') :
    Steps cfg s (.readPart q offset) s' := by
  unfold readPart at h
  split at h
  · rename_i hnd hr
    have hmem := lookup_eq_some.mp hr
    obtain ⟨info, hinfo, h⟩ := bind_eq_some_iff.mp h
    split at h
    · rename_i hcurr
      obtain ⟨curr, -, h⟩ := bind_eq_some_iff.mp h
      cases h
      exact .moves rfl hmem (.firstPart hinfo hcurr rfl rfl)
    · rename_i curr₀ hcurr
      obtain ⟨curr, -, h⟩ := bind_eq_some_iff.mp h
      cases h
      exact .moves rfl hmem (.nextPart hinfo (by simp [hcurr]))
  · cases h

theorem steps_of_partPrepared {q : ℕ} (h : s.partPrepared q = some s') :
    Steps cfg s (.partPrepared q) s' := by
  unfold partPrepared at h
  split at h
  · rename_i hnd part hr
    have hmem := lookup_eq_some.mp hr
    obtain ⟨v?, hv, hs'⟩ := map_eq_some_iff.mp h
    cases v? with
    | none =>
      subst hs'
      exact .moves rfl hmem (.partMissing rfl (result_none hv) (.inl rfl))
    | some v =>
      subst hs'
      exact .moves rfl hmem (.partOpened rfl rfl (result_some hv))
  · rename_i hnd part hr
    have hmem := lookup_eq_some.mp hr
    obtain ⟨v?, hv, hs'⟩ := map_eq_some_iff.mp h
    cases v? with
    | none =>
      subst hs'
      exact .moves rfl hmem (.partMissing rfl (result_none hv) (.inr rfl))
    | some v =>
      subst hs'
      exact .moves rfl hmem (.partOpened rfl rfl (result_some hv))
  · cases h

theorem steps_of_pause {q : ℕ} (h : s.pause q = some s') :
    Steps cfg s (.pause q) s' := by
  unfold pause at h
  split at h
  · rename_i hnd hr
    split at h
    · cases h
    · cases h
      exact .moves rfl (lookup_eq_some.mp hr) (.turn rfl rfl)
  · cases h

theorem steps_of_storage {e : ReadEvent K} (h : s.storage cfg e = some s') :
    Steps cfg s (.storage e) s' := by
  unfold storage at h
  split at h
  · cases h
  · cases h
  · obtain ⟨node, hnode, rfl⟩ := map_eq_some_iff.mp h
    exact .crash hnode
  · rename_i hreader hfinalize hcrash
    obtain ⟨node, hnode, rfl⟩ := map_eq_some_iff.mp h
    exact .storage hreader hfinalize hcrash hnode

theorem step_steps {e : RequestEvent K} (h : step cfg s e = some s') :
    Steps cfg s e s' := by
  cases e with
  | storage e => exact steps_of_storage h
  | readMeta fn readNewest =>
    cases h
    exact .readMeta
  | start isCopy fn readNewest =>
    cases h
    exact .start
  | prepared q => exact steps_of_prepared h
  | reject q =>
    simp only [step, reject] at h
    split at h
    · rename_i hnd hr
      cases h
      exact .moves rfl (lookup_eq_some.mp hr) .reject
    · cases h
  | seekPart q n => exact steps_of_seekPart h
  | startReading q =>
    simp only [step, startReading] at h
    split at h
    · rename_i hnd hr
      cases h
      exact .moves rfl (lookup_eq_some.mp hr) .startReading
    · cases h
  | readPart q offset => exact steps_of_readPart h
  | partPrepared q => exact steps_of_partPrepared h
  | finish q =>
    simp only [step, finish] at h
    split at h
    · rename_i hnd hr
      cases h
      exact .moves rfl (lookup_eq_some.mp hr) .finish
    · cases h
  | pause q => exact steps_of_pause h
  | resume q =>
    simp only [step, resume] at h
    split at h
    · rename_i hnd hr
      cases h
      exact .moves rfl (lookup_eq_some.mp hr) (.turn rfl rfl)
    · cases h
  | abort q =>
    simp only [step, abort] at h
    split at h
    · rename_i hnd hr
      cases h
      exact .moves rfl (lookup_eq_some.mp hr) .abort
    · cases h

end ReadRequests

end Hs5.S3
