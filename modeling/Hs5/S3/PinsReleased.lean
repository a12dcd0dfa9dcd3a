import Hs5.S3.ReadRequestSteps
import Hs5.Support.Gather

/-!
# Requests release what they have counted

Every reader that may be counted belongs to one request: it is the reader of
the object, of the part that is open, or of the part that is being opened.  A
request that ends leaves no such reader behind, unless

* `read_prepare` was told by the commit thread that the key is not there,
* it has opened a part by its number and then a precondition does not hold:
  the cleanup of `getObject` is given the extents of the object, not those of
  the part, or
* the client goes away while `readObject` is paused.

So without these, `reading_items` and `reading_free_skip_extents` are empty
when there are no requests.
-/

namespace Hs5.S3

open List Transition OrderedMap

variable {K P : Type} [LinearOrder K]

/-! ## Readers of a request -/

/-- A reader of an object without extents, which nobody has to count. -/
def Uncounted (r : Reader K) : Prop :=
  ∃ v seen, r.stage = .reading v seen ∧ ¬ v.HasExtents

def ReadRequest.readers : ReadRequest → List ℕ
  | .preparing _ reader => [reader]
  | .handling h phase =>
    h.res.1 :: phase.part.toList ++
      if h.needsFinalize then [h.extents.1] else []

structure Handler.Fits (cfg : RequestConfig K P) (node : ReadNode K)
    (h : Handler) (phase : RequestPhase) : Prop where
  res : Reads node h.res
  multipart : h.multiPartDownloadData = cfg.multipart h.res.2
  plain : h.multiPartDownloadData = none →
    h.extents = h.res ∧ h.needsFinalize = false ∧ phase.part = none
  part : h.needsFinalize = true → Reads node h.extents ∧ h.currExt.isSome = true
  opening : phase.part.isSome = true → h.currExt.isSome = true
  left : phase.part.isSome = true → h.needsFinalize = true →
    ¬ 0 < h.extents.2.len

def ReadRequest.Fits (cfg : RequestConfig K P) (node : ReadNode K) :
    ReadRequest → Prop
  | .preparing _ _ => True
  | .handling h phase => h.Fits cfg node phase

namespace ReadRequests

structure Owned (cfg : RequestConfig K P) (s : ReadRequests K) : Prop where
  numbered : ∀ q ∈ s.requests, q.1 < s.nextRequest
  fresh : ∀ q ∈ s.requests, ∀ id ∈ q.2.readers, id < s.node.nextReader
  nodup : ∀ q ∈ s.requests, q.2.readers.Nodup
  apart : ∀ q ∈ s.requests, ∀ q' ∈ s.requests, q.1 ≠ q'.1 →
    ∀ id ∈ q.2.readers, id ∉ q'.2.readers
  fits : ∀ q ∈ s.requests, q.2.Fits cfg s.node
  owned : ∀ p ∈ s.node.readers, Uncounted p.2 ∨
    ∃ q ∈ s.requests, p.1 ∈ q.2.readers

end ReadRequests

section

variable {cfg : RequestConfig K P} {node node' : ReadNode K}

theorem reads_unique {p : Opened} (h : Reads node p) {q : ℕ × Reader K}
    (hq : q ∈ node.readers) (hkey : q.1 = p.1) :
    ∃ seen, q.2.stage = .reading p.2 seen := by
  obtain ⟨r, seen, hr, hstage⟩ := h
  have heq := eq_of_mem hq hr hkey
  exact ⟨seen, by rw [heq]; exact hstage⟩

theorem Handler.Fits.mono {h : Handler} {phase : RequestPhase}
    (hfits : h.Fits cfg node phase)
    (hreads : ∀ p, p.1 ∈ (ReadRequest.handling h phase).readers →
      Reads node p → Reads node' p) : h.Fits cfg node' phase := by
  refine ⟨?_, hfits.multipart, hfits.plain, ?_, hfits.opening, hfits.left⟩
  · exact hreads _ (by simp [ReadRequest.readers]) hfits.res
  · intro hneeds
    obtain ⟨hread, hcurr⟩ := hfits.part hneeds
    exact ⟨hreads _ (by simp [ReadRequest.readers, hneeds]) hread, hcurr⟩

variable {r : ReadRequest} {info : MultiPartInfo} {p : ℕ × Reader K}
  {extents : Opened}

theorem ReadRequest.Fits.mono (hfits : r.Fits cfg node)
    (hreads : ∀ p, p.1 ∈ r.readers → Reads node p → Reads node' p) :
    r.Fits cfg node' := by
  cases r with
  | preparing isCopy reader => trivial
  | handling h phase => exact Handler.Fits.mono hfits hreads

theorem ReadRequest.mem_readers_handling {h : Handler}
    {phase : RequestPhase} {id : ℕ} :
    id ∈ (ReadRequest.handling h phase).readers ↔ id = h.res.1 ∨
      phase.part = some id ∨ h.needsFinalize = true ∧ id = h.extents.1 := by
  cases hneeds : h.needsFinalize with
  | _ => simp [ReadRequest.readers, hneeds]

theorem uncounted_of_reads {q : Opened} (h : Reads node q)
    (hext : ¬ q.2.HasExtents) (hp : p ∈ node.readers)
    (hkey : p.1 = q.1) : Uncounted p.2 := by
  obtain ⟨seen, hstage⟩ := reads_unique h hp hkey
  exact ⟨q.2, seen, hstage, hext⟩

theorem not_hasExtents_of_len (hinv : node.PinInv) {q : Opened}
    (h : Reads node q) (hlen : ¬ 0 < q.2.len) : ¬ q.2.HasExtents := by
  obtain ⟨r, seen, hr, hstage⟩ := h
  intro hext
  have haligned := ReadNode.aligned_of_hasExtents
    (hinv.stored _ hr q.2 seen hstage) hext
  exact hlen (haligned ⟨q.2.offset, q.2.len⟩ mem_cons_self).pos

theorem Handler.Fits.res_noExtents {h : Handler} {phase : RequestPhase}
    (hfits : h.Fits cfg node phase)
    (hinfo : h.multiPartDownloadData = some info) : ¬ h.res.2.HasExtents := by
  apply cfg.noExtents
  rw [← hfits.multipart, hinfo]
  exact .inl rfl

theorem Handler.Fits.uncounted {h : Handler} {phase : RequestPhase}
    (hfits : h.Fits cfg node phase) (hinv : node.PinInv)
    (hinfo : h.multiPartDownloadData = some info) (hp : p ∈ node.readers)
    (hmem : p.1 ∈ (ReadRequest.handling h phase).readers) :
    Uncounted p.2 ∨ phase.part = some p.1 ∨
      h.needsFinalize = true ∧ p.1 = h.extents.1 ∧ 0 < h.extents.2.len := by
  rcases ReadRequest.mem_readers_handling.mp hmem with
    hres | hpart | ⟨hneeds, hext⟩
  · exact .inl (uncounted_of_reads hfits.res (hfits.res_noExtents hinfo)
      hp hres)
  · exact .inr (.inl hpart)
  · by_cases hlen : 0 < h.extents.2.len
    · exact .inr (.inr ⟨hneeds, hext, hlen⟩)
    · have hread := (hfits.part hneeds).1
      exact .inl (uncounted_of_reads hread
        (not_hasExtents_of_len hinv hread hlen) hp hext)

theorem Handler.cleanup_of_plain {h : Handler}
    (hplain : h.multiPartDownloadData = none) (extents : Opened) :
    h.cleanup extents node = readFinalize node extents := by
  simp only [Handler.cleanup, hplain]

theorem Handler.cleanup_of_multipart {h : Handler}
    (hinfo : h.multiPartDownloadData = some info)
    (hextents : h.needsFinalize = true → ¬ 0 < extents.2.len) :
    h.cleanup extents node = node := by
  simp only [Handler.cleanup, hinfo, Handler.finalizeMultiPart]
  rw [if_neg]
  rintro ⟨-, hneeds, hlen⟩
  exact hextents hneeds hlen

/-! ## A request goes on -/

namespace ReadRequests

variable {s : ReadRequests K}

/-- The readers of a request that goes on, and none if it has ended. -/
def readersOf : Option ReadRequest → List ℕ
  | some r => r.readers
  | none => []

variable {r? : Option ReadRequest} {phase' : RequestPhase} {e : RequestEvent K}

theorem mem_put {request : ℕ} {q : ℕ × ReadRequest} :
    q ∈ (s.put request node r?).requests ↔
      (q.1 = request ∧ r? = some q.2) ∨ (q ∈ s.requests ∧ q.1 ≠ request) := by
  cases r? with
  | none => simp [put, mem_erase]
  | some r =>
    simp only [put, mem_insert, Option.some.injEq]
    constructor
    · rintro (rfl | hq)
      · exact .inl ⟨rfl, rfl⟩
      · exact .inr hq
    · rintro (⟨hkey, rfl⟩ | hq)
      · exact .inl (by rw [← hkey])
      · exact .inr hq

/-- What one request does to the readers while the other requests wait. -/
structure Handles (cfg : RequestConfig K P) (node node' : ReadNode K)
    (r : ReadRequest) (r? : Option ReadRequest) : Prop where
  next : node.nextReader ≤ node'.nextReader
  reads : ∀ p, p.1 ∉ r.readers → Reads node p → Reads node' p
  readers : ∀ id ∈ readersOf r?, id ∈ r.readers ∨
    node.nextReader ≤ id ∧ id < node'.nextReader
  nodup : (readersOf r?).Nodup
  fits : ∀ r' ∈ r?, r'.Fits cfg node'
  owned : ∀ p ∈ node'.readers, Uncounted p.2 ∨ p.1 ∈ readersOf r? ∨
    p ∈ node.readers ∧ p.1 ∉ r.readers

theorem Owned.set (h : Owned cfg s) {request : ℕ}
    (hnumber : request < s.nextRequest)
    (hfresh : ∀ id ∈ r.readers, id < node.nextReader)
    (hself : ∀ q ∈ s.requests, q.1 = request → q.2 = r)
    (hold : ∀ q ∈ s.requests, q.1 ≠ request → ∀ id ∈ q.2.readers,
      id ∉ r.readers)
    (hstep : Handles cfg s.node node r r?) :
    Owned cfg (s.put request node r?) := by
  have hnode : (s.put request node r?).node = node := by
    cases r? with
    | _ => rfl
  have hnext : (s.put request node r?).nextRequest = s.nextRequest := by
    cases r? with
    | _ => rfl
  have hnew : ∀ q ∈ s.requests, q.1 ≠ request → ∀ id ∈ q.2.readers,
      id ∉ readersOf r? := by
    intro q hq hne id hid hmem
    rcases hstep.readers id hmem with hmem | ⟨hge, -⟩
    · exact hold q hq hne id hid hmem
    · exact absurd (h.fresh q hq id hid) (by omega)
  refine ⟨?_, ?_, ?_, ?_, ?_, ?_⟩
  · intro q hq
    rw [hnext]
    rcases mem_put.mp hq with ⟨hkey, -⟩ | ⟨hq, -⟩
    · rw [hkey]
      exact hnumber
    · exact h.numbered q hq
  · intro q hq id hid
    rw [hnode]
    rcases mem_put.mp hq with ⟨-, rfl⟩ | ⟨hq, -⟩
    · rcases hstep.readers id hid with hmem | ⟨-, hlt⟩
      · exact hfresh id hmem
      · exact hlt
    · exact (h.fresh q hq id hid).trans_le hstep.next
  · intro q hq
    rcases mem_put.mp hq with ⟨-, rfl⟩ | ⟨hq, -⟩
    · exact hstep.nodup
    · exact h.nodup q hq
  · intro q hq q' hq' hne id hid hid'
    rcases mem_put.mp hq with ⟨hkey, rfl⟩ | ⟨hold₁, hother⟩
    · rcases mem_put.mp hq' with ⟨hkey', -⟩ | ⟨hold₂, hother'⟩
      · exact hne (hkey.trans hkey'.symm)
      · exact hnew q' hold₂ hother' id hid' hid
    · rcases mem_put.mp hq' with ⟨hkey', rfl⟩ | ⟨hold₂, -⟩
      · exact hnew q hold₁ hother id hid hid'
      · exact h.apart q hold₁ q' hold₂ hne id hid hid'
  · intro q hq
    rw [hnode]
    rcases mem_put.mp hq with ⟨-, heq⟩ | ⟨hq, hother⟩
    · exact hstep.fits q.2 heq
    · refine (h.fits q hq).mono ?_
      intro p hp
      exact hstep.reads p (hold q hq hother p.1 hp)
  · intro p hp
    rw [hnode] at hp
    rcases hstep.owned p hp with hun | hmem | ⟨hp, hnot⟩
    · exact .inl hun
    · right
      cases r? with
      | none => cases hmem
      | some r' => exact ⟨(request, r'), mem_put.mpr (.inl ⟨rfl, rfl⟩), hmem⟩
    · rcases h.owned p hp with hun | ⟨q, hq, hid⟩
      · exact .inl hun
      · right
        refine ⟨q, mem_put.mpr (.inr ⟨hq, ?_⟩), hid⟩
        intro hkey
        rw [hself q hq hkey] at hid
        exact hnot hid

theorem Owned.put (h : Owned cfg s) {request : ℕ}
    (hr : (request, r) ∈ s.requests) (hstep : Handles cfg s.node node r r?) :
    Owned cfg (s.put request node r?) := by
  refine h.set (h.numbered _ hr) ?_ ?_ ?_ hstep
  · exact fun id hid => (h.fresh _ hr id hid).trans_le hstep.next
  · intro q hq hkey
    rw [eq_of_mem hq hr hkey]
  · exact fun q hq => h.apart q hq (request, r) hr

/-! ## What a request leaves behind -/

structure Sound (cfg : ReadConfig K P) (node : ReadNode K) : Prop where
  reads : ReadNode.ReadInv cfg node
  marks : node.Marks

theorem readers_readFinalize (node : ReadNode K) (p : Opened) :
    (readFinalize node p).readers = node.readers.erase p.1 ∧
      (readFinalize node p).nextReader = node.nextReader := by
  obtain ⟨items, skip, heq⟩ := ReadNode.removeReadingItem_eq node p.2
  rw [readFinalize, heq]
  exact ⟨rfl, rfl⟩

theorem Handles.of_readers (hnext : node'.nextReader = node.nextReader)
    (hkeep : ∀ p ∈ node.readers, p.1 ∉ r.readers → p ∈ node'.readers)
    (hfrom : ∀ p ∈ node'.readers, p ∈ node.readers)
    (hsub : ∀ id ∈ readersOf r?, id ∈ r.readers)
    (hnodup : (readersOf r?).Nodup) (hfits : ∀ r' ∈ r?, r'.Fits cfg node')
    (hdrop : ∀ p ∈ node'.readers, p.1 ∈ r.readers →
      Uncounted p.2 ∨ p.1 ∈ readersOf r?) : Handles cfg node node' r r? := by
  refine ⟨hnext.ge, ?_, fun id hid => .inl (hsub id hid), hnodup, hfits, ?_⟩
  · rintro p hp ⟨reader, seen, hr, hstage⟩
    exact ⟨reader, seen, hkeep _ hr hp, hstage⟩
  · intro p hp
    by_cases hmem : p.1 ∈ r.readers
    · rcases hdrop p hp hmem with hun | hin
      · exact .inl hun
      · exact .inr (.inl hin)
    · exact .inr (.inr ⟨hfrom p hp, hmem⟩)

theorem Handles.same (hsub : ∀ id ∈ readersOf r?, id ∈ r.readers)
    (hnodup : (readersOf r?).Nodup) (hfits : ∀ r' ∈ r?, r'.Fits cfg node)
    (hdrop : ∀ p ∈ node.readers, p.1 ∈ r.readers →
      Uncounted p.2 ∨ p.1 ∈ readersOf r?) : Handles cfg node node r r? :=
  Handles.of_readers rfl (fun _ hp _ => hp) (fun _ hp => hp) hsub hnodup
    hfits hdrop

theorem Handles.finalize {q : Opened} (hq : q.1 ∈ r.readers)
    (hsub : ∀ id ∈ readersOf r?, id ∈ r.readers) (hnodup : (readersOf r?).Nodup)
    (hfits : ∀ r' ∈ r?, r'.Fits cfg (readFinalize node q))
    (hdrop : ∀ p ∈ node.readers, p.1 ≠ q.1 → p.1 ∈ r.readers →
      Uncounted p.2 ∨ p.1 ∈ readersOf r?) :
    Handles cfg node (readFinalize node q) r r? := by
  obtain ⟨hreaders, hnext⟩ := readers_readFinalize node q
  refine Handles.of_readers hnext ?_ ?_ hsub hnodup hfits ?_
  · intro p hp hnot
    rw [hreaders]
    exact mem_erase.mpr ⟨hp, fun heq => hnot (heq ▸ hq)⟩
  · intro p hp
    rw [hreaders] at hp
    exact (mem_erase.mp hp).1
  · intro p hp
    rw [hreaders] at hp
    obtain ⟨hp, hne⟩ := mem_erase.mp hp
    exact hdrop p hp hne

theorem Handles.readPrepare {node₁ : ReadNode K} {r r₁ r₂ : ReadRequest}
    (h : Handles cfg node node₁ r (some r₁)) (fn : K)
    (htickets : ∀ p ∈ node₁.readers, p.1 < node₁.nextReader)
    (hfresh : ∀ id ∈ r₁.readers, id < node₁.nextReader)
    (hreaders : r₂.readers.Perm (node₁.nextReader :: r₁.readers))
    (hfits : r₁.Fits cfg node₁ →
      (∀ p, Reads node₁ p →
        Reads (node₁.readPrepare cfg.reads fn false false) p) →
      r₂.Fits cfg (node₁.readPrepare cfg.reads fn false false)) :
    Handles cfg node (node₁.readPrepare cfg.reads fn false false) r
      (some r₂) := by
  obtain ⟨stage, -, heq⟩ :=
    ReadNode.readPrepare_eq cfg.reads node₁ fn false false
  have hreads : ∀ p, Reads node₁ p →
      Reads (node₁.readPrepare cfg.reads fn false false) p := by
    rintro p ⟨reader, seen, hr, hstage⟩
    have hlt := htickets _ hr
    rw [heq]
    exact ⟨reader, seen, mem_insert.mpr (.inr ⟨hr, hlt.ne⟩), hstage⟩
  have hnext : (node₁.readPrepare cfg.reads fn false false).nextReader =
      node₁.nextReader + 1 := rfl
  have hle := h.next
  refine ⟨by omega, ?_, ?_, ?_, ?_, ?_⟩
  · exact fun p hp hread => hreads p (h.reads p hp hread)
  · intro id hid
    rcases mem_cons.mp (hreaders.mem_iff.mp hid) with rfl | hid
    · exact .inr ⟨hle, by omega⟩
    · rcases h.readers id hid with hold | ⟨hge, hlt⟩
      · exact .inl hold
      · exact .inr ⟨hge, by omega⟩
  · refine hreaders.nodup_iff.mpr (nodup_cons.mpr ⟨?_, h.nodup⟩)
    exact fun hmem => absurd (hfresh _ hmem) (lt_irrefl _)
  · rintro r' ⟨⟩
    exact hfits (h.fits r₁ rfl) hreads
  · intro p hp
    rw [heq] at hp
    rcases mem_insert.mp hp with rfl | ⟨hp, -⟩
    · exact .inr (.inl (hreaders.mem_iff.mpr mem_cons_self))
    · rcases h.owned p hp with hun | hmem | hold
      · exact .inl hun
      · exact .inr (.inl
          (hreaders.mem_iff.mpr (mem_cons_of_mem _ hmem)))
      · exact .inr (.inr hold)

/-! ## Every move -/

variable {h : Handler} {phase : RequestPhase}

section

variable (hfits : h.Fits cfg node phase)

include hfits

theorem handles_cleanup_plain (hplain : h.multiPartDownloadData = none) :
    Handles cfg node (readFinalize node h.res) (.handling h phase) none := by
  obtain ⟨-, hneeds, hpart⟩ := hfits.plain hplain
  refine Handles.finalize (ReadRequest.mem_readers_handling.mpr (.inl rfl))
    (by simp [readersOf]) (by simp [readersOf]) (by simp) ?_
  intro p hp hne hmem
  rcases ReadRequest.mem_readers_handling.mp hmem with
    hres | hopening | ⟨hopen, -⟩
  · exact absurd hres hne
  · rw [hpart] at hopening
    cases hopening
  · rw [hneeds] at hopen
    cases hopen

theorem handles_cleanup_multipart (hinv : node.PinInv)
    (hinfo : h.multiPartDownloadData = some info)
    (hneeds : h.needsFinalize = true → ¬ 0 < h.extents.2.len)
    (hgone : ∀ part, phase.part = some part →
      node.readers.lookup part = none) :
    Handles cfg node node (.handling h phase) none := by
  refine Handles.same (by simp [readersOf]) (by simp [readersOf]) (by simp) ?_
  intro p hp hmem
  rcases hfits.uncounted hinv hinfo hp hmem with
    hun | hpart | ⟨hopen, -, hlen⟩
  · exact .inl hun
  · have hsome : node.readers.lookup p.1 = some p.2 := lookup_eq_some.mpr hp
    rw [hgone _ hpart] at hsome
    cases hsome
  · exact absurd hlen (hneeds hopen)

theorem handles_finish (hinv : node.PinInv) (hphase : phase.part = none) :
    Handles cfg node (h.cleanup h.extents node) (.handling h phase) none := by
  cases hinfo : h.multiPartDownloadData with
  | none =>
    rw [Handler.cleanup_of_plain hinfo, (hfits.plain hinfo).1]
    exact handles_cleanup_plain hfits hinfo
  | some info =>
    by_cases hopen : h.needsFinalize = true ∧ 0 < h.extents.2.len
    · have hclean : h.cleanup h.extents node = readFinalize node h.extents := by
        simp only [Handler.cleanup, hinfo, Handler.finalizeMultiPart]
        exact if_pos ⟨(hfits.part hopen.1).2, hopen⟩
      rw [hclean]
      refine Handles.finalize (ReadRequest.mem_readers_handling.mpr
        (.inr (.inr ⟨hopen.1, rfl⟩))) (by simp [readersOf])
        (by simp [readersOf]) (by simp) ?_
      intro p hp hne hmem
      rcases hfits.uncounted hinv hinfo hp hmem with
        hun | hpart | ⟨-, hkey, -⟩
      · exact .inl hun
      · rw [hphase] at hpart
        cases hpart
      · exact absurd hkey hne
    · have hneeds : h.needsFinalize = true → ¬ 0 < h.extents.2.len :=
        fun hn hlen => hopen ⟨hn, hlen⟩
      rw [Handler.cleanup_of_multipart hinfo hneeds]
      refine handles_cleanup_multipart hfits hinv hinfo hneeds ?_
      rw [hphase]
      exact fun part hpart => absurd hpart (by simp)

theorem handles_reject (hinv : node.PinInv) (hphase : phase.part = none)
    (hneeds : h.needsFinalize = false) :
    Handles cfg node (h.cleanup h.res node) (.handling h phase) none := by
  cases hinfo : h.multiPartDownloadData with
  | none =>
    rw [Handler.cleanup_of_plain hinfo]
    exact handles_cleanup_plain hfits hinfo
  | some info =>
    rw [Handler.cleanup_of_multipart hinfo (by simp [hneeds])]
    refine handles_cleanup_multipart hfits hinv hinfo (by simp [hneeds]) ?_
    rw [hphase]
    exact fun part hpart => absurd hpart (by simp)

theorem handles_partMissing (hinv : node.PinInv) {part : ℕ}
    (hphase : phase.part = some part) (hgone : node.readers.lookup part = none)
    (hextents : extents = h.res ∨ extents = h.extents) :
    Handles cfg node (h.cleanup extents node) (.handling h phase) none := by
  cases hinfo : h.multiPartDownloadData with
  | none =>
    have hnone := (hfits.plain hinfo).2.2
    rw [hphase] at hnone
    cases hnone
  | some info =>
    have hleft := hfits.left (by simp [hphase])
    have hlen : h.needsFinalize = true → ¬ 0 < extents.2.len := by
      intro hneeds
      rcases hextents with rfl | rfl
      · exact fun hlen => hfits.res_noExtents hinfo (.inr hlen)
      · exact hleft hneeds
    rw [Handler.cleanup_of_multipart hinfo hlen]
    refine handles_cleanup_multipart hfits hinv hinfo hleft ?_
    intro part' hpart'
    rw [hphase] at hpart'
    cases hpart'
    exact hgone

theorem handles_partOpened (hinv : node.PinInv)
    (hnodup : (ReadRequest.handling h phase).readers.Nodup) {part : ℕ}
    {v : IndexValue} (hphase : phase.part = some part)
    (hphase' : phase'.part = none) (hv : Reads node (part, v)) :
    Handles cfg node node (.handling h phase)
      (some (.handling (h.openPart (part, v)) phase')) := by
  have hreaders : readersOf (some (.handling (h.openPart (part, v)) phase')) =
      [h.res.1, part] := by
    simp [readersOf, ReadRequest.readers, Handler.openPart, hphase']
  obtain ⟨info, hinfo⟩ : ∃ info, h.multiPartDownloadData = some info := by
    rw [← Option.isSome_iff_exists, Option.isSome_iff_ne_none]
    intro hnone
    have hpart := (hfits.plain hnone).2.2
    rw [hphase] at hpart
    cases hpart
  refine Handles.same ?_ ?_ ?_ ?_
  · rw [hreaders]
    intro id hid
    simp only [mem_cons, not_mem_nil, or_false] at hid
    rcases hid with rfl | rfl
    · exact ReadRequest.mem_readers_handling.mpr (.inl rfl)
    · exact ReadRequest.mem_readers_handling.mpr (.inr (.inl hphase))
  · rw [hreaders]
    simp only [ReadRequest.readers, hphase, Option.toList_some,
      cons_append, nodup_cons, nil_append,
      mem_cons, not_or] at hnodup
    simp [hnodup.1.1]
  · rintro r' ⟨⟩
    refine ⟨hfits.res, hfits.multipart, ?_, ?_, ?_, ?_⟩
    · intro hnone
      rw [show (h.openPart (part, v)).multiPartDownloadData =
        h.multiPartDownloadData from rfl, hinfo] at hnone
      cases hnone
    · exact fun _ => ⟨hv, hfits.opening (by simp [hphase])⟩
    · simp [hphase']
    · simp [hphase']
  · intro p hp hmem
    rw [hreaders]
    rcases hfits.uncounted hinv hinfo hp hmem with
      hun | hpart | ⟨hneeds, -, hlen⟩
    · exact .inl hun
    · rw [hphase] at hpart
      cases hpart
      exact .inr (by simp)
    · exact absurd hlen (hfits.left (by simp [hphase]) hneeds)

end

theorem handles_turn {h' : Handler}
    (hnodup : (ReadRequest.handling h phase).readers.Nodup)
    (hreaders : (ReadRequest.handling h' phase').readers =
      (ReadRequest.handling h phase).readers)
    (hfits : h'.Fits cfg node phase') :
    Handles cfg node node (.handling h phase) (some (.handling h' phase')) := by
  refine Handles.same ?_ ?_ ?_ ?_
  · simp [readersOf, hreaders]
  · simpa [readersOf, hreaders] using hnodup
  · rintro r' ⟨⟩
    exact hfits
  · intro p _ hmem
    simp [readersOf, hreaders, hmem]

theorem fits_startReading (hfits : h.Fits cfg node phase) :
    Handler.Fits cfg node { h with
      extents := if h.currExt.isSome then h.extents else h.res }
      .reading := by
  refine ⟨hfits.res, hfits.multipart, ?_, ?_, by simp [RequestPhase.part],
    by simp [RequestPhase.part]⟩
  · intro hplain
    obtain ⟨hext, hneeds, -⟩ := hfits.plain hplain
    refine ⟨?_, hneeds, rfl⟩
    simp [hext]
  · intro hneeds
    obtain ⟨hread, hcurr⟩ := hfits.part hneeds
    simp only [hcurr, if_true]
    exact ⟨hread, trivial⟩

theorem handles_readPart {node₁ : ReadNode K}
    (hhandles : Handles cfg node node₁ r (some (.handling h phase)))
    (htickets : ∀ p ∈ node₁.readers, p.1 < node₁.nextReader)
    (hfresh : ∀ id ∈ (ReadRequest.handling h phase).readers,
      id < node₁.nextReader) (hinfo : h.multiPartDownloadData = some info)
    (hphase : phase.part = none)
    (hleft : h.needsFinalize = true → ¬ 0 < h.extents.2.len) (fn : K)
    (curr : PartExt × List PartExt)
    (hphase' : phase'.part = some node₁.nextReader) :
    Handles cfg node (node₁.readPrepare cfg.reads fn false false) r
      (some (.handling { h with currExt := some curr } phase')) := by
  refine hhandles.readPrepare fn htickets hfresh ?_ ?_
  · simp only [ReadRequest.readers, hphase, hphase', Option.toList_none,
      Option.toList_some, cons_append, nil_append]
    exact List.Perm.swap _ _ _
  · intro hfits hreads
    refine ⟨hreads _ hfits.res, hfits.multipart, ?_, ?_, fun _ => rfl,
      fun _ => hleft⟩
    · intro hplain
      rw [show ({ h with currExt := some curr } :
        Handler).multiPartDownloadData = h.multiPartDownloadData from rfl,
        hinfo] at hplain
      cases hplain
    · intro hneeds
      exact ⟨hreads _ (hfits.part hneeds).1, rfl⟩

theorem handles_leavePart (hfits : h.Fits cfg node phase) (hinv : node.PinInv)
    (hnodup : (ReadRequest.handling h phase).readers.Nodup)
    (hphase : phase.part = none)
    (hinfo : h.multiPartDownloadData = some info) :
    Handles cfg node (leavePart h node).1 (.handling h phase)
      (some (.handling (leavePart h node).2 phase)) := by
  unfold leavePart
  split
  · rename_i hopen
    obtain ⟨hlen, hneeds⟩ := hopen
    have hreaders : readersOf
        (some (.handling { h with needsFinalize := false } phase)) =
          [h.res.1] := by
      simp [readersOf, ReadRequest.readers, hphase]
    have hne : h.res.1 ≠ h.extents.1 := by
      simp only [ReadRequest.readers, hphase, hneeds, Option.toList_none,
        if_true, cons_append, nil_append, nodup_cons,
        mem_singleton] at hnodup
      exact hnodup.1
    refine Handles.finalize (ReadRequest.mem_readers_handling.mpr
      (.inr (.inr ⟨hneeds, rfl⟩))) ?_ ?_ ?_ ?_
    · rw [hreaders]
      intro id hid
      rw [mem_singleton.mp hid]
      exact ReadRequest.mem_readers_handling.mpr (.inl rfl)
    · rw [hreaders]
      exact nodup_singleton _
    · rintro r' ⟨⟩
      refine ⟨?_, hfits.multipart, ?_, by simp, ?_, by simp⟩
      · obtain ⟨r, seen, hr, hstage⟩ := hfits.res
        refine ⟨r, seen, ?_, hstage⟩
        rw [(readers_readFinalize node h.extents).1]
        exact mem_erase.mpr ⟨hr, hne⟩
      · intro hplain
        exact ⟨(hfits.plain hplain).1, rfl, hphase⟩
      · simp [hphase]
    · intro p hp hother hmem
      rcases hfits.uncounted hinv hinfo hp hmem with
        hun | hpart | ⟨-, hkey, -⟩
      · exact .inl hun
      · rw [hphase] at hpart
        cases hpart
      · exact absurd hkey hother
  · exact handles_turn hnodup rfl hfits

theorem leavePart_left (h : Handler) (node : ReadNode K) :
    (leavePart h node).2.multiPartDownloadData = h.multiPartDownloadData ∧
      ((leavePart h node).2.needsFinalize = true →
        ¬ 0 < (leavePart h node).2.extents.2.len) := by
  unfold leavePart
  split
  · exact ⟨rfl, by simp⟩
  · rename_i hopen
    exact ⟨rfl, fun hneeds hlen => hopen ⟨hlen, hneeds⟩⟩

theorem leavePart_readers (h : Handler) (node : ReadNode K) :
    (leavePart h node).1.readers = node.readers ∨
      (leavePart h node).1.readers = node.readers.erase h.extents.1 := by
  unfold leavePart
  split
  · exact .inr (readers_readFinalize node h.extents).1
  · exact .inl rfl

/-! ## The storage during a move -/

variable [DecidableEq P]

section

variable (hpos : 0 < cfg.reads.node.alloc.allocChunkSize)
    (hchunk : blockSize ∣ cfg.reads.node.alloc.allocChunkSize)

include hpos hchunk

section

variable (hsound : Sound cfg.reads node)

include hsound

theorem Sound.step {e : ReadEvent K}
    (hcurrent : ReadNode.PinsCurrent cfg.reads node e)
    (hfinds : ReadNode.Finds cfg.reads node e)
    (hsteps : ReadNode.Steps cfg.reads node e node') : Sound cfg.reads node' :=
  ⟨hsound.reads.step hpos hchunk hcurrent hsteps,
    hsound.marks.step hsound.reads hcurrent.2 hfinds hsteps⟩

theorem Sound.readFinalize {p : Opened}
    (hp : Reads node p) : Sound cfg.reads (S3.readFinalize node p) := by
  obtain ⟨r, seen, hr, hstage⟩ := hp
  exact hsound.step hpos hchunk (e := .readFinalize p.1)
    ⟨trivial, trivial⟩ trivial (.reader (.finalize hr hstage))

theorem Sound.readPrepare (fn : K)
    (readNewest readUnsynced : Bool) : Sound cfg.reads
      (node.readPrepare cfg.reads fn readNewest readUnsynced) :=
  hsound.step hpos hchunk (e := .readPrepare fn readNewest readUnsynced)
    ⟨trivial, trivial⟩ trivial (.reader .prepare)

theorem Sound.cleanup (hfits : h.Fits cfg node phase)
    (hextents : extents = h.res ∨ extents = h.extents) :
    Sound cfg.reads (h.cleanup extents node) := by
  cases hinfo : h.multiPartDownloadData with
  | none =>
    have hres : extents = h.res := by
      rcases hextents with hext | hext
      · exact hext
      · rw [hext, (hfits.plain hinfo).1]
    rw [Handler.cleanup_of_plain hinfo, hres]
    exact hsound.readFinalize hpos hchunk hfits.res
  | some info =>
    by_cases hopen : h.currExt.isSome ∧ h.needsFinalize ∧ 0 < extents.2.len
    · have hclean : h.cleanup extents node =
          S3.readFinalize node extents := by
        simp only [Handler.cleanup, hinfo, Handler.finalizeMultiPart]
        exact if_pos hopen
      rw [hclean]
      apply hsound.readFinalize hpos hchunk
      rcases hextents with hext | hext
      · rw [hext]
        exact hfits.res
      · rw [hext]
        exact (hfits.part hopen.2.1).1
    · have hclean : h.cleanup extents node = node := by
        simp only [Handler.cleanup, hinfo, Handler.finalizeMultiPart]
        exact if_neg hopen
      rw [hclean]
      exact hsound

theorem Sound.leavePart (hfits : h.Fits cfg node phase) :
    Sound cfg.reads (ReadRequests.leavePart h node).1 := by
  unfold ReadRequests.leavePart
  split
  · rename_i hopen
    exact hsound.readFinalize hpos hchunk (hfits.part hopen.2).1
  · exact hsound

end

theorem Moves.sound (hmoves : Moves cfg node e r node' r?)
    (hsound : Sound cfg.reads node) (hfits : r.Fits cfg node) :
    Sound cfg.reads node' := by
  cases hmoves with
  | missing | marker | opened | startReading | partOpened | turn | abort =>
    exact hsound
  | reject => exact hsound.cleanup hpos hchunk hfits (.inl rfl)
  | firstPart => exact hsound.readPrepare hpos hchunk _ _ _
  | nextPart =>
    exact (hsound.leavePart hpos hchunk hfits).readPrepare hpos hchunk _ _ _
  | partMissing _ _ hextents =>
    exact hsound.cleanup hpos hchunk hfits hextents
  | finish => exact hsound.cleanup hpos hchunk hfits (.inr rfl)

end

def partOpen : ReadRequest → Bool
  | .preparing _ _ => false
  | .handling h _ => h.needsFinalize

omit [DecidableEq P] in
theorem Moves.handles (hmoves : Moves cfg node e r node' r?)
    (hinv : node.PinInv) (hfresh : ∀ id ∈ r.readers, id < node.nextReader)
    (hnodup : r.readers.Nodup) (hfits : r.Fits cfg node)
    (hreject : ∀ q, e = .reject q → partOpen r = false)
    (habort : ∀ q, e ≠ .abort q) : Handles cfg node node' r r? := by
  cases hmoves with
  | @missing q isCopy reader hgone =>
    refine Handles.same (by simp [readersOf]) (by simp [readersOf]) (by simp) ?_
    intro p hp hmem
    have hkey : p.1 = reader := by simpa [ReadRequest.readers] using hmem
    have hsome : node.readers.lookup p.1 = some p.2 := lookup_eq_some.mpr hp
    rw [hkey, hgone] at hsome
    cases hsome
  | @marker q isCopy reader v hv hmarker =>
    refine Handles.same (by simp [readersOf]) (by simp [readersOf]) (by simp) ?_
    intro p hp hmem
    have hkey : p.1 = reader := by simpa [ReadRequest.readers] using hmem
    exact .inl (uncounted_of_reads hv
      (cfg.noExtents v (.inr hmarker)) hp hkey)
  | @opened q isCopy reader v phase hv hphase =>
    have hreaders : readersOf (some (.handling
        (ReadRequests.opened cfg isCopy (reader, v)) phase)) =
          (ReadRequest.preparing isCopy reader).readers := by
      simp [readersOf, ReadRequest.readers, ReadRequests.opened, hphase]
    refine Handles.same (by simp [hreaders]) ?_ ?_ ?_
    · rw [hreaders]
      exact hnodup
    · rintro r' ⟨⟩
      exact ⟨hv, rfl, fun _ => ⟨rfl, rfl, hphase⟩, by
        simp [ReadRequests.opened], by simp [hphase], by simp [hphase]⟩
    · intro p _ hmem
      rw [hreaders]
      exact .inr hmem
  | reject => exact handles_reject hfits hinv rfl (hreject _ rfl)
  | @startReading q h =>
    refine handles_turn hnodup ?_ (fits_startReading hfits)
    have hpart := hfits.part
    cases hneeds : h.needsFinalize with
    | false => simp [ReadRequest.readers, RequestPhase.part, hneeds]
    | true =>
      simp [ReadRequest.readers, RequestPhase.part, hneeds, (hpart hneeds).2]
  | @firstPart e h phase info curr phase' hinfo hcurr hphase hphase' =>
    have hneeds : h.needsFinalize = false := by
      by_contra hopen
      have hsome := (hfits.part (by simpa using hopen)).2
      rw [hcurr] at hsome
      cases hsome
    exact handles_readPart (handles_turn hnodup rfl hfits) hinv.tickets
      hfresh hinfo hphase (by simp [hneeds]) _ curr hphase'
  | @nextPart q offset h info curr hinfo hcurr =>
    have hleave := handles_leavePart hfits hinv hnodup rfl hinfo
    obtain ⟨hsame, hleft⟩ := leavePart_left h node
    refine handles_readPart hleave ?_ ?_ (hsame.trans hinfo) rfl hleft _
      curr rfl
    · intro p hp
      have hle := hleave.next
      rcases leavePart_readers h node with hreaders | hreaders
      · rw [hreaders] at hp
        exact (hinv.tickets p hp).trans_le hle
      · rw [hreaders] at hp
        exact (hinv.tickets p (mem_erase.mp hp).1).trans_le hle
    · intro id hid
      rcases hleave.readers id hid with hold | ⟨-, hlt⟩
      · exact (hfresh id hold).trans_le hleave.next
      · exact hlt
  | partMissing hphase hgone hextents =>
    exact handles_partMissing hfits hinv hphase hgone hextents
  | partOpened hphase hphase' hv =>
    exact handles_partOpened hfits hinv hnodup hphase hphase' hv
  | finish => exact handles_finish hfits hinv rfl
  | @turn e h phase phase' hphase hphase' =>
    refine handles_turn hnodup ?_ ?_
    · simp [ReadRequest.readers, hphase, hphase']
    · refine ⟨hfits.res, hfits.multipart, ?_, hfits.part, ?_, ?_⟩
      · intro hplain
        obtain ⟨hext, hneeds, -⟩ := hfits.plain hplain
        exact ⟨hext, hneeds, hphase'⟩
      · simp [hphase']
      · simp [hphase']
  | abort => exact absurd rfl (habort _)

/-! ## Steps of the storage -/

/-- Readers that are there go on reading what they have opened. -/
structure Follows (node node' : ReadNode K) : Prop where
  next : node'.nextReader = node.nextReader
  keeps : ∀ p, Reads node p → Reads node' p
  stays : ∀ p ∈ node'.readers, ∃ r, (p.1, r) ∈ node.readers ∧
    (Uncounted r → Uncounted p.2)

omit [DecidableEq P] in
theorem Follows.of_readers (hreaders : node'.readers = node.readers)
    (hnext : node'.nextReader = node.nextReader) : Follows node node' := by
  refine ⟨hnext, ?_, ?_⟩
  · rintro p ⟨r, seen, hr, hstage⟩
    exact ⟨r, seen, hreaders ▸ hr, hstage⟩
  · intro p hp
    exact ⟨p.2, hreaders ▸ hp, id⟩

omit [DecidableEq P] in
theorem follows_setStage {reader : ℕ} {r : Reader K}
    (hr : (reader, r) ∈ node.readers)
    (hstage : ∀ v seen, r.stage ≠ .reading v seen) (stage : ReadStage)
    (hreaders : node'.readers =
      (node.setStage reader r stage).readers)
    (hnext : node'.nextReader = node.nextReader) : Follows node node' := by
  refine ⟨hnext, ?_, ?_⟩
  · rintro p ⟨r', seen, hr', hread⟩
    refine ⟨r', seen, ?_, hread⟩
    rw [hreaders]
    refine mem_insert.mpr (.inr ⟨hr', ?_⟩)
    intro hkey
    have heq := eq_of_mem hr hr' hkey.symm
    cases heq
    exact hstage _ _ hread
  · intro p hp
    rw [hreaders] at hp
    rcases mem_insert.mp hp with rfl | ⟨hp, -⟩
    · refine ⟨r, hr, ?_⟩
      rintro ⟨v, seen, hread, -⟩
      exact absurd hread (hstage v seen)
    · exact ⟨p.2, hp, id⟩

omit [DecidableEq P] in
theorem follows_leave {reader : ℕ} {r : Reader K}
    (hr : (reader, r) ∈ node.readers)
    (hstage : ∀ v seen, r.stage ≠ .reading v seen)
    (hreaders : node'.readers = (node.leave reader).readers)
    (hnext : node'.nextReader = node.nextReader) : Follows node node' := by
  refine ⟨hnext, ?_, ?_⟩
  · rintro p ⟨r', seen, hr', hread⟩
    refine ⟨r', seen, ?_, hread⟩
    rw [hreaders]
    refine mem_erase.mpr ⟨hr', ?_⟩
    intro hkey
    have heq := eq_of_mem hr hr' hkey.symm
    cases heq
    exact hstage _ _ hread
  · intro p hp
    rw [hreaders] at hp
    exact ⟨p.2, (mem_erase.mp hp).1, id⟩

theorem follows_reader {cfg : ReadConfig K P} {e : ReadEvent K}
    (hstep : ReadNode.ReaderStep cfg node e node')
    (hprepare : ∀ fn readNewest readUnsynced,
      e ≠ .readPrepare fn readNewest readUnsynced)
    (hfinalize : ∀ reader, e ≠ .readFinalize reader) : Follows node node' := by
  cases hstep with
  | prepare => exact absurd rfl (hprepare _ _ _)
  | snapshotNone hr hstage | notFound hr hstage =>
    exact follows_leave hr (by simp [hstage]) rfl rfl
  | snapshot hr hstage | requeue hr hstage =>
    exact follows_setStage hr (by simp [hstage]) _ rfl rfl
  | @pin reader r v hr hstage | @read reader r v hr hstage =>
    obtain ⟨items, heq⟩ := ReadNode.pin_eq node reader r v
    exact follows_setStage hr (by simp [hstage]) _ (by rw [heq])
      (by rw [heq]; rfl)
  | finalize => exact absurd rfl (hfinalize _)

theorem follows_storage {cfg : ReadConfig K P} {e : ReadEvent K}
    (hsteps : ReadNode.Steps cfg node e node')
    (hprepare : ∀ fn readNewest readUnsynced,
      e ≠ .readPrepare fn readNewest readUnsynced)
    (hfinalize : ∀ reader, e ≠ .readFinalize reader)
    (hcrash : ∀ c data, e ≠ .crash c data) : Follows node node' := by
  cases hsteps with
  | @item e node₁ fn n =>
    obtain ⟨items, skip, heq⟩ := ReadNode.skipReadingFn_eq { node with
      commitItems := node.commitItems.insert (cfg.hash fn) n } fn
    rw [heq]
    exact Follows.of_readers rfl rfl
  | crash => exact absurd rfl (hcrash _ _)
  | reader hreader => exact follows_reader hreader hprepare hfinalize
  | trim hstep =>
    cases hstep with
    | _ => exact Follows.of_readers rfl rfl
  | _ => exact Follows.of_readers rfl rfl

/-! ## Every run -/

omit [DecidableEq P] in
theorem owned_of_empty (hreaders : node.readers = OrderedMap.empty)
    (nextRequest : ℕ) :
    Owned cfg (⟨node, OrderedMap.empty, nextRequest⟩ : ReadRequests K) := by
  refine ⟨by simp, by simp, by simp, by simp, by simp, ?_⟩
  intro p hp
  have hp : p ∈ node.readers := hp
  rw [hreaders] at hp
  exact absurd hp (not_mem_empty p)

theorem readers_of_crash {cfg : ReadConfig K P} {c : NodeCrash K}
    {data : ℤ → UInt8}
    (hsteps : ReadNode.Steps cfg node (.crash c data) node') :
    node'.readers = OrderedMap.empty := by
  cases hsteps with
  | crash => rfl
  | reader hstep => cases hstep
  | trim hstep => cases hstep

omit [DecidableEq P] in
theorem Owned.follows (h : Owned cfg s) (hfollows : Follows s.node node) :
    Owned cfg { s with node := node } := by
  refine ⟨h.numbered, ?_, h.nodup, h.apart, ?_, ?_⟩
  · intro q hq id hid
    have hlt := h.fresh q hq id hid
    have hnext := hfollows.next
    show id < node.nextReader
    omega
  · intro q hq
    exact (h.fits q hq).mono fun p _ => hfollows.keeps p
  · intro p hp
    obtain ⟨r, hr, hun⟩ := hfollows.stays p hp
    exact (h.owned (p.1, r) hr).imp_left hun

omit [DecidableEq P] in
theorem Owned.start (h : Owned cfg s)
    (htickets : ∀ p ∈ s.node.readers, p.1 < s.node.nextReader)
    (isCopy : Bool) (fn : K) (readNewest : Bool) :
    Owned cfg (s.start cfg isCopy fn readNewest) := by
  have hnumbered : Owned cfg { s with nextRequest := s.nextRequest + 1 } :=
    ⟨fun q hq => Nat.lt_succ_of_lt (h.numbered q hq), h.fresh, h.nodup,
      h.apart, h.fits, h.owned⟩
  have hhandles : Handles cfg s.node
      (s.node.readPrepare cfg.reads fn readNewest false)
      (.preparing isCopy s.node.nextReader)
      (some (.preparing isCopy s.node.nextReader)) := by
    obtain ⟨stage, -, heq⟩ :=
      ReadNode.readPrepare_eq cfg.reads s.node fn readNewest false
    refine ⟨Nat.le_succ _, ?_, fun id hid => .inl hid,
      nodup_singleton _, ?_, ?_⟩
    · rintro p - ⟨r, seen, hr, hstage⟩
      rw [heq]
      exact ⟨r, seen, mem_insert.mpr (.inr ⟨hr, (htickets _ hr).ne⟩), hstage⟩
    · rintro r' ⟨⟩
      trivial
    · intro p hp
      rw [heq] at hp
      rcases mem_insert.mp hp with rfl | ⟨hp, hne⟩
      · exact .inr (.inl (mem_singleton_self _))
      · exact .inr (.inr ⟨hp, fun h => hne (mem_singleton.mp h)⟩)
  refine hnumbered.set (Nat.lt_succ_self _) ?_ ?_ ?_ hhandles
  · intro id hid
    rw [mem_singleton.mp hid]
    exact Nat.lt_succ_self _
  · exact fun q hq hkey => absurd hkey (h.numbered q hq).ne
  · intro q hq _ id hid hnew
    rw [mem_singleton.mp hnew] at hid
    exact lt_irrefl _ (h.fresh q hq _ hid)

/-- The fast path counts readers for committed values, `ReadFragInfo` items
find their keys, no request that has opened a part by its number is rejected
after that, and no client goes away while `readObject` is paused. -/
def Careful (cfg : RequestConfig K P) (s : ReadRequests K) :
    RequestEvent K → Prop
  | .storage e => ReadNode.PinsCurrent cfg.reads s.node e ∧
      ReadNode.Finds cfg.reads s.node e
  | .reject request => ∀ r ∈ s.requests.lookup request, partOpen r = false
  | .abort _ => False
  | _ => True

instance (cfg : RequestConfig K P) (s : ReadRequests K)
    (e : RequestEvent K) : Decidable (Careful cfg s e) := by
  rcases e with ⟨⟩ <;> dsimp only [Careful] <;> infer_instance

structure Inv (cfg : RequestConfig K P) (s : ReadRequests K) : Prop where
  sound : Sound cfg.reads s.node
  owned : Owned cfg s

theorem Inv.step (hpos : 0 < cfg.reads.node.alloc.allocChunkSize)
    (hchunk : blockSize ∣ cfg.reads.node.alloc.allocChunkSize) (h : Inv cfg s)
    {s' : ReadRequests K} (hok : Careful cfg s e)
    (hsteps : Steps cfg s e s') : Inv cfg s' := by
  cases hsteps with
  | storage hprepare hfinalize hcrash hnode =>
    have hnode := ReadNode.step_steps hnode
    exact ⟨h.sound.step hpos hchunk hok.1 hok.2 hnode,
      h.owned.follows (follows_storage hnode hprepare hfinalize hcrash)⟩
  | crash hnode =>
    have hnode := ReadNode.step_steps hnode
    refine ⟨h.sound.step hpos hchunk hok.1 hok.2 hnode, ?_⟩
    exact owned_of_empty (readers_of_crash hnode) _
  | readMeta => exact h
  | start =>
    exact ⟨h.sound.readPrepare hpos hchunk _ _ _,
      h.owned.start h.sound.reads.pins.tickets _ _ _⟩
  | @moves e q r node r? hq hr hmoves =>
    have hfits := h.owned.fits (q, r) hr
    have hsound := hmoves.sound hpos hchunk h.sound hfits
    have hhandles := hmoves.handles h.sound.reads.pins
      (h.owned.fresh (q, r) hr) (h.owned.nodup (q, r) hr) hfits (by
        rintro q' rfl
        cases hq
        exact hok r (lookup_eq_some.mpr hr))
      (by
        rintro q' rfl
        exact hok)
    have howned := h.owned.put hr hhandles
    cases r? with
    | _ => exact ⟨hsound, howned⟩

omit [DecidableEq P] in
theorem inv_init (hpos : 0 < cfg.reads.node.alloc.allocChunkSize)
    (hchunk : blockSize ∣ cfg.reads.node.alloc.allocChunkSize) :
    Inv cfg (init cfg : ReadRequests K) := by
  refine ⟨⟨ReadNode.readInv_init hpos hchunk, ?_⟩, ?_⟩
  · exact ⟨fun o _ => rfl, by simp [init, ReadNode.init, ReadNode.started]⟩
  · exact owned_of_empty rfl 0

/-! ## Outstanding readers -/

/-- The reader is counted, for an object whose first extent starts at the
offset. -/
def readsAt (r : Reader K) (o : ℤ) : Bool := r.pinned.any fun v => v.offset = o

/-- The readers of requests that have not ended for an object whose first
extent starts at the offset. -/
def outstanding (s : ReadRequests K) (o : ℤ) : ℕ :=
  (OrderedMap.gather (fun q => q.2.readers) s.requests).countP fun id =>
    (s.node.readers.lookup id).any fun r => readsAt r o

omit [DecidableEq P] in
theorem Owned.nodup_gather (h : Owned cfg s) :
    (OrderedMap.gather (fun q => q.2.readers) s.requests).Nodup := by
  apply nodup_flatMap.mpr
  refine ⟨h.nodup, ?_⟩
  refine s.requests.sorted.imp_of_mem ?_
  intro q q' hq hq' hlt id hid hid'
  exact h.apart q hq q' hq' hlt.ne id hid hid'

theorem pinCount_eq_countP (node : ReadNode K) (o : ℤ) :
    node.pinCount o = node.readers.entries.countP fun p => readsAt p.2 o := by
  rw [ReadNode.pinCount, ReadNode.pins, countP_filterMap]
  congr 1
  funext p
  rw [readsAt]
  cases p.2.pinned with
  | none => rfl
  | some v => rfl

theorem nodup_readers (node : ReadNode K) :
    (node.readers.entries.map Prod.fst).Nodup :=
  pairwise_map.mpr (node.readers.sorted.imp fun hlt => hlt.ne)

omit [DecidableEq P] in
theorem Owned.of_readsAt (h : Owned cfg s) (hp : p ∈ s.node.readers) {o : ℤ}
    (ho : readsAt p.2 o = true) :
    p.1 ∈ OrderedMap.gather (fun q => q.2.readers) s.requests := by
  rcases h.owned p hp with ⟨v, seen, hstage, hnot⟩ | hmem
  · simp [readsAt, Reader.pinned, hstage, hnot] at ho
  · exact mem_gather.mpr hmem

omit [DecidableEq P] in
theorem Owned.pinCount_eq (h : Owned cfg s) (o : ℤ) :
    s.node.pinCount o = s.outstanding o := by
  rw [pinCount_eq_countP, outstanding, countP_eq_length_filter,
    countP_eq_length_filter, ← length_map (f := Prod.fst)]
  apply List.Perm.length_eq
  have hleft : ((s.node.readers.entries.filter fun p =>
      readsAt p.2 o).map Prod.fst).Nodup :=
    (nodup_readers s.node).sublist (filter_sublist.map _)
  have hright := h.nodup_gather.filter
    fun id => (s.node.readers.lookup id).any fun r => readsAt r o
  refine (perm_ext_iff_of_nodup hleft hright).mpr ?_
  intro id
  simp only [mem_map, mem_filter, Option.any_eq_true]
  constructor
  · rintro ⟨p, ⟨hp, ho⟩, rfl⟩
    exact ⟨h.of_readsAt hp ho, p.2, lookup_eq_some.mpr hp, ho⟩
  · rintro ⟨-, r, hr, ho⟩
    exact ⟨(id, r), ⟨lookup_eq_some.mp hr, ho⟩, rfl⟩

omit [DecidableEq P] in
theorem Owned.pins_eq_nil (h : Owned cfg s)
    (hrequests : s.requests.entries = []) : s.node.pins = [] := by
  apply eq_nil_iff_forall_not_mem.mpr
  intro v hv
  obtain ⟨p, hp, seen, hstage, hext⟩ := ReadNode.mem_pins.mp hv
  have hreads : readsAt p.2 v.offset = true := by
    simp [readsAt, Reader.pinned, hstage, hext]
  have hmem := h.of_readsAt hp hreads
  rw [OrderedMap.gather, hrequests] at hmem
  cases hmem

/-- The entries of `reading_items` count the readers that requests have for
objects, and nothing is left of them when all requests have ended. -/
structure PinsReleased (s : ReadRequests K) : Prop where
  counted : ∀ o, (s.node.readingItems.lookup o).map ReadingItem.refs =
    if s.outstanding o = 0 then none else some (s.outstanding o : ℤ)
  released : s.requests.entries = [] →
    s.node.readingItems.entries = [] ∧ s.node.readingFreeSkipExtents = []

/-- Pin accounting, in every state of every run of careful steps. -/
theorem pinsReleased_of_run (cfg : RequestConfig K P)
    (hpos : 0 < cfg.reads.node.alloc.allocChunkSize)
    (hchunk : blockSize ∣ cfg.reads.node.alloc.allocChunkSize)
    {s : ReadRequests K} (hrun : Run (step cfg) (Careful cfg) (init cfg) s) :
    s.PinsReleased := by
  have hinv : Inv cfg s := by
    apply hrun.invariant (inv_init hpos hchunk)
    intro s e s' h hok hstep
    exact h.step hpos hchunk hok (step_steps hstep)
  have hpins := hinv.sound.reads.pins
  constructor
  · intro o
    rw [← hinv.owned.pinCount_eq]
    exact hinv.sound.marks.counted hpins o
  · intro hrequests
    exact hinv.sound.marks.empty hpins (hinv.owned.pins_eq_nil hrequests)

end ReadRequests

end

/-! ## Runs -/

namespace ReadRequests

/-- Objects without extents whose metadata is `[2]` have a single part. -/
def onePart : RequestConfig ℕ ℕ where
  reads := ReadNode.plainReads 8192
  multipart v :=
    if v.HasExtents then none
    else if v.md5sum = [2] then some ⟨7, 1, [⟨1, 1, 1⟩]⟩ else none
  tombstone v := !decide v.HasExtents && v.md5sum = [255]
  partKey _ partNum := 100 + partNum.toNat
  noExtents v h := by
    by_cases hext : v.HasExtents
    · simp [hext] at h
    · exact hext

/-- A multipart object with one part is stored, and a request opens the object
and its part. -/
def openPartNumber : List (RequestEvent ℕ) :=
  [.storage (.run (.writePrepare 1)), .storage (.run .prepareExt),
    .storage (.run .finishPrepare), .storage (.enqueue 101),
    .storage (.run (.add 101 [⟨0, 1⟩] 0 [])), .storage (.enqueue 1),
    .storage (.run (.add 1 [] 0 [2])), .storage (.lmdbCommit []),
    .storage .cleanCommitItems, .start false 1 false,
    .storage (.readSnapshot 0), .storage (.readPin 0), .prepared 0,
    .seekPart 0 0, .storage (.readSnapshot 1), .storage (.readPin 1),
    .partPrepared 0]

def deletePartWhilePaused : List (RequestEvent ℕ) :=
  openPartNumber ++ [.startReading 0, .pause 0, .storage (.enqueue 101),
    .storage (.run (.del 101)), .resume 0]

theorem pinsReleased_of_run_deletePart :
    ∃ s s', exec (guarded (step onePart) (Careful onePart)) (init onePart)
        deletePartWhilePaused = some s ∧
      s.node.readingItems.entries = [(0, ⟨1, true⟩)] ∧
      s.node.readingFreeSkipExtents = [0] ∧
      guarded (step onePart) (Careful onePart) s (.finish 0) = some s' ∧
      s'.requests.entries.length = 0 ∧ s.PinsReleased ∧ s'.PinsReleased := by
  obtain ⟨s, hs, hitems, hskip, s', hs', hrequests⟩ : ∃ s ∈ exec (guarded
      (step onePart) (Careful onePart)) (init onePart) deletePartWhilePaused,
      s.node.readingItems.entries = [(0, ⟨1, true⟩)] ∧
        s.node.readingFreeSkipExtents = [0] ∧
        ∃ s' ∈ guarded (step onePart) (Careful onePart) s (.finish 0),
          s'.requests.entries.length = 0 := by decide
  have hfinish : exec (guarded (step onePart) (Careful onePart)) s
      [.finish 0] = some s' := by
    simp [exec, Option.mem_def.mp hs']
  have hrun := run_of_exec_guarded hs
  exact ⟨s, s', hs, hitems, hskip, hs', hrequests,
    pinsReleased_of_run onePart (by decide) (by decide) hrun,
    pinsReleased_of_run onePart (by decide) (by decide)
      (hrun.trans (run_of_exec_guarded hfinish))⟩

/-- A key is deleted and then read before the next LMDB commit. -/
def readAfterDel : List (RequestEvent ℕ) :=
  [.storage (.enqueue 1), .storage (.run (.del 1)), .start false 1 false,
    .storage (.readFragInfo 0), .prepared 0]

/-- The object is not found, and its reader stays counted at the offset -1. -/
theorem not_pinsReleased_readAfterDel :
    ∃ s, exec (step onePart) (init onePart) readAfterDel = some s ∧
      s.requests.entries = [] ∧
      s.node.readingItems.entries = [(-1, ⟨1, false⟩)] ∧ ¬ s.PinsReleased := by
  obtain ⟨s, hs, hlength, hitems⟩ : ∃ s ∈ exec (step onePart) (init onePart)
      readAfterDel, s.requests.entries.length = 0 ∧
        s.node.readingItems.entries = [(-1, ⟨1, false⟩)] := by decide
  have hrequests := length_eq_zero_iff.mp hlength
  refine ⟨s, hs, hrequests, hitems, ?_⟩
  intro hreleased
  have hempty := (hreleased.released hrequests).1
  rw [hitems] at hempty
  cases hempty

example : (exec (step onePart) (init onePart)
    (openPartNumber ++ [.reject 0])).map
      (fun s => (s.requests.entries.length, s.node.readingItems.entries)) =
    some (0, [(0, ⟨1, false⟩)]) := by
  decide

example : (exec (step onePart) (init onePart)
    (openPartNumber ++ [.startReading 0, .pause 0, .abort 0])).map
      (fun s => (s.requests.entries.length, s.node.readingItems.entries)) =
    some (0, [(0, ⟨1, false⟩)]) := by
  decide

end ReadRequests

end Hs5.S3
