import Hs5.S3.MultipartPlace
import Hs5.Support.Progress
import Mathlib.Algebra.Order.BigOperators.Group.List

/-!
# Downloads of multipart objects are exact

A download of `[rangeStart, rangeEnd)` sends these bytes of the concatenated
parts, with any pauses and any buffer size, and so does an `ObjectReader`,
unless a run of equal parts ends at `rangeStart` or less than one of its parts
before it.
-/

variable {bufsize : ℤ}

namespace Hs5

open List Slice Transition

/-! ## What is posted -/

def Posted.bytes : Posted → Bytes
  | .body data _ => data
  | .abort => []
  | .stopped _ => []

def postedBytes (posted : List Posted) : Bytes := posted.flatMap Posted.bytes

@[simp] theorem postedBytes_nil : postedBytes [] = [] := rfl

@[simp] theorem postedBytes_cons (task : Posted) (posted : List Posted) :
    postedBytes (task :: posted) = task.bytes ++ postedBytes posted := rfl

@[simp] theorem postedBytes_append (posted posted' : List Posted) :
    postedBytes (posted ++ posted') =
      postedBytes posted ++ postedBytes posted' := by
  simp [postedBytes]

/-- What the variant of a download counts for the worker thread. -/
def Worker.weight : Worker → ℕ
  | .idle => 0
  | .reading _ => 1
  | .scheduled _ => 2

/-- What the variant of a download counts for a posted task. -/
def Posted.weight : Posted → ℕ
  | .body _ _ => 1
  | .abort => 1
  | .stopped _ => 3

structure RangeFound (sfs : PartStorage) (parts : List (ℤ × ℤ))
    (rangeStart rangeEnd : ℤ) : Prop where
  stores : sfs.Stores parts
  nonneg : 0 ≤ rangeStart
  lt : rangeStart < rangeEnd
  le : rangeEnd ≤ totalSize parts

namespace Download

def readTo (s : Download) : ℤ := s.doneBytes + (postedBytes s.posted).length

section

variable (sfs : PartStorage) (parts : List (ℤ × ℤ)) (rangeStart rangeEnd : ℤ)

def IsBody (task : Posted) : Prop := ∃ data, task = .body data rangeEnd

/-- Where a download is that has not finished. -/
inductive Stage (s : Download) : Prop
  | scheduled : s.worker = .scheduled s.doneBytes → s.posted = [] →
      s.running = true → Stage s
  | reading : s.worker = .reading s.readTo →
      (∀ task ∈ s.posted, IsBody rangeEnd task) → s.running = true → Stage s
  | stopping (bodies : List Posted) : s.worker = .idle →
      StandsAt sfs parts s.data s.extents s.readTo →
      s.posted = bodies ++ [.stopped true] →
      (∀ task ∈ bodies, IsBody rangeEnd task) → s.running = true → Stage s
  | waiting : s.worker = .idle →
      StandsAt sfs parts s.data s.extents s.doneBytes → s.posted = [] →
      s.running = false → s.paused = true → Stage s
  | complete : s.worker = .idle → s.readTo = rangeEnd →
      (∀ task ∈ s.posted, IsBody rangeEnd task) → s.running = true → Stage s

/-- A download that has not finished: what is posted continues what has been
sent. -/
structure Live (s : Download) : Prop where
  done_lt : s.doneBytes < rangeEnd
  bytes : OccursAt (sfs.objectData parts) s.doneBytes (postedBytes s.posted)
  bound : s.readTo ≤ rangeEnd
  stage : Stage sfs parts rangeEnd s

/-- The worker is where the cursor of the download is. -/
def WorkerAt (s : Download) : Prop :=
  match s.worker with
  | .idle => True
  | .scheduled offset => offset ≤ rangeEnd ∧
      ((s.data.extIdx = none ∧ offset = rangeStart ∧
          ClearOfRunEnds rangeStart 0 (completedRuns parts)) ∨
        StandsAt sfs parts s.data s.extents offset)
  | .reading offset => offset ≤ rangeEnd ∧
      StandsAt sfs parts s.data s.extents offset

structure Inv (s : Download) : Prop where
  remaining : s.putRemaining = rangeEnd
  runs : s.data.exts = completedRuns parts
  notAborted : s.aborted = false
  noAbort : Posted.abort ∉ s.posted
  done : s.doneBytes = rangeStart + s.sent.length
  done_le : s.doneBytes ≤ rangeEnd
  sent : OccursAt (sfs.objectData parts) rangeStart s.sent
  eom : s.eom = true → s.finished = true ∧ s.doneBytes = rangeEnd
  worker : WorkerAt sfs parts rangeStart rangeEnd s
  live : s.finished = false → Live sfs parts rangeEnd s

end

/-- Bytes to read, parts to visit, tasks to run. -/
def variant (rangeEnd : ℤ) (s : Download) : ℕ :=
  2 * (rangeEnd - s.readTo).toNat + s.data.ahead.length + s.worker.weight +
    (s.posted.map Posted.weight).sum

/-- A step that brings an unpaused download nearer to its end. -/
def Advances (rangeEnd : ℤ) (s s' : Download) : Prop :=
  s.finished = false → s.paused = false → s'.paused = false ∧
    (s'.finished = true → s'.eom = true) ∧
    variant rangeEnd s' < variant rangeEnd s

variable {rest : List Posted} {s' : Download}

section Steps

variable {sfs : PartStorage} {parts : List (ℤ × ℤ)}
  {rangeStart rangeEnd : ℤ} {s : Download}

theorem Advances.of_lt (hpaused : s'.paused = s.paused)
    (hfin : s'.finished = s.finished)
    (h : s.finished = false → variant rangeEnd s' < variant rangeEnd s) :
    Advances rangeEnd s s' := by
  intro hopen hgoing
  refine ⟨hpaused.trans hgoing, fun hend => ?_, h hopen⟩
  rw [hfin, hopen] at hend
  cases hend

/-- A download begins at the first byte of the range, positioned there or
clear of the end of a run. -/
theorem inv_initPart (hrange : RangeFound sfs parts rangeStart rangeEnd)
    {data : MultiPartDownloadData} {extents : List Ext}
    (hruns : data.exts = completedRuns parts)
    (hplace : (data.extIdx = none ∧
        ClearOfRunEnds rangeStart 0 (completedRuns parts)) ∨
      StandsAt sfs parts data extents rangeStart) :
    Inv sfs parts rangeStart rangeEnd
      (initPart data extents rangeStart rangeEnd) where
  remaining := rfl
  runs := hruns
  notAborted := rfl
  noAbort := not_mem_nil
  done := by simp [initPart, init]
  done_le := hrange.lt.le
  sent := occursAt_nil hrange.nonneg
  eom := by simp [initPart, init]
  worker := ⟨hrange.lt.le, hplace.imp_left fun h => ⟨h.1, rfl, h.2⟩⟩
  live := fun _ =>
    { done_lt := hrange.lt
      bytes := occursAt_nil hrange.nonneg
      bound := by
        rw [readTo]
        simp only [initPart, init, postedBytes_nil, length_nil,
          Nat.cast_zero, add_zero]
        exact hrange.lt.le
      stage := .scheduled rfl rfl rfl }

theorem Stage.of_scheduled (h : Stage sfs parts rangeEnd s) {offset : ℤ}
    (hworker : s.worker = .scheduled offset) :
    offset = s.doneBytes ∧ s.posted = [] ∧ s.running = true := by
  cases h with
  | scheduled hw hp hr =>
    rw [hworker] at hw
    exact ⟨Worker.scheduled.inj hw, hp, hr⟩
  | reading hw | stopping _ hw | waiting hw | complete hw =>
    cases hworker.symm.trans hw

theorem Stage.of_reading (h : Stage sfs parts rangeEnd s) {offset : ℤ}
    (hworker : s.worker = .reading offset) :
    offset = s.readTo ∧ (∀ task ∈ s.posted, IsBody rangeEnd task) ∧
      s.running = true := by
  cases h with
  | reading hw hp hr =>
    rw [hworker] at hw
    exact ⟨Worker.reading.inj hw, hp, hr⟩
  | scheduled hw | stopping _ hw | waiting hw | complete hw =>
    cases hworker.symm.trans hw

theorem Stage.setPaused (h : Stage sfs parts rangeEnd s) {paused : Bool}
    (hpaused : s.running = false → paused = true) :
    Stage sfs parts rangeEnd { s with paused := paused } := by
  cases h with
  | scheduled hw hp hr => exact .scheduled hw hp hr
  | reading hw hp hr => exact .reading hw hp hr
  | stopping bodies hw hst hp hb hr => exact .stopping bodies hw hst hp hb hr
  | waiting hw hst hp hr => exact .waiting hw hst hp hr (hpaused hr)
  | complete hw he hp hr => exact .complete hw he hp hr

section

variable (h : Inv sfs parts rangeStart rangeEnd s)

include h

theorem Inv.setPaused {paused : Bool}
    (hpaused : s.finished = false → s.running = false → paused = true) :
    Inv sfs parts rangeStart rangeEnd { s with paused := paused } :=
  { h with
    live := fun hfin =>
    { h.live hfin with stage := (h.live hfin).stage.setPaused (hpaused hfin) } }

theorem Inv.onEgressResumed :
    Inv sfs parts rangeStart rangeEnd s.onEgressResumed := by
  unfold Download.onEgressResumed
  by_cases hstart : s.running = false ∧ s.finished = false
  · rw [if_pos hstart]
    have hlive := h.live hstart.2
    cases hlive.stage with
    | scheduled _ _ hr | reading _ _ hr | stopping _ _ _ _ _ hr
    | complete _ _ _ hr => cases hstart.1.symm.trans hr
    | waiting _ hst hp =>
      exact
        { h with
          worker := ⟨h.done_le, .inr hst⟩
          live := fun _ => { hlive with stage := .scheduled rfl hp rfl } }
  · rw [if_neg hstart]
    exact h.setPaused fun hfin hr => absurd ⟨hr, hfin⟩ hstart

theorem Inv.onError : Inv sfs parts rangeStart rangeEnd
      { s with
        finished := true
        paused := true } :=
  { h with
    eom := fun heom => ⟨rfl, (h.eom heom).2⟩
    live := fun hfin => absurd hfin.symm Bool.false_ne_true }

theorem Inv.seek (hrange : RangeFound sfs parts rangeStart rangeEnd)
    {offset : ℤ} (hworker : s.worker = .scheduled offset) :
    Inv sfs parts rangeStart rangeEnd (s.seek sfs offset) ∧
      Advances rangeEnd s (s.seek sfs offset) := by
  have hat := h.worker
  rw [WorkerAt, hworker] at hat
  obtain ⟨hle, hplace⟩ := hat
  obtain ⟨data, extents, hseek, hstands, hahead⟩ : ∃ data extents,
      seekMultipartExt sfs offset s.data s.extents = .ok (data, extents) ∧
      StandsAt sfs parts data extents offset ∧
      data.ahead.length ≤ s.data.ahead.length := by
    rcases hplace with ⟨hfresh, rfl, hclear⟩ | hstands
    · exact hrange.stores.seekMultipartExt h.runs hfresh hclear
        hrange.nonneg (hrange.lt.trans_le hrange.le)
    · exact ⟨s.data, s.extents, hstands.seekMultipartExt offset, hstands,
        Nat.le_refl _⟩
  unfold Download.seek
  rw [hseek]
  dsimp only
  refine ⟨{ h with runs := hstands.runs, worker := ⟨hle, hstands⟩, live := ?_ },
    ?_⟩
  · intro hfin
    have hlive := h.live hfin
    obtain ⟨rfl, hp, hr⟩ := hlive.stage.of_scheduled hworker
    have hto : s.readTo = s.doneBytes := by simp [readTo, hp]
    refine { hlive with stage := .reading ?_ ?_ hr }
    · exact congrArg Worker.reading hto.symm
    · intro task htask
      rw [hp] at htask
      exact absurd htask not_mem_nil
  · refine Advances.of_lt rfl rfl fun _ => ?_
    simp only [variant, readTo, hworker, Worker.weight]
    omega

theorem Inv.leave_stopped {offset : ℤ} (hworker : s.worker = .reading offset) :
    Inv sfs parts rangeStart rangeEnd (s.leave (.stopped true)) := by
  have hat := h.worker
  rw [WorkerAt, hworker] at hat
  have hbytes : postedBytes (s.leave (.stopped true)).posted =
      postedBytes s.posted := by
    simp [leave, Posted.bytes]
  have hto : (s.leave (.stopped true)).readTo = s.readTo := by
    rw [readTo, hbytes]
    rfl
  refine { h with noAbort := ?_, worker := trivial, live := ?_ }
  · rw [leave, mem_append, mem_singleton]
    rintro (hmem | heq)
    · exact h.noAbort hmem
    · exact Posted.noConfusion heq
  · intro hfin
    have hlive := h.live hfin
    obtain ⟨rfl, hp, hr⟩ := hlive.stage.of_reading hworker
    refine ⟨hlive.done_lt, ?_, ?_, ?_⟩
    · rw [hbytes]
      exact hlive.bytes
    · rw [hto]
      exact hlive.bound
    · refine .stopping s.posted rfl ?_ rfl hp hr
      rw [hto]
      exact hat.2

theorem Inv.nextPart {offset : ℤ} (hworker : s.worker = .reading offset)
    {data : MultiPartDownloadData} {extents : List Ext}
    (hle : offset ≤ rangeEnd)
    (hstands : StandsAt sfs parts data extents offset)
    (hahead : data.ahead.length < s.data.ahead.length) :
    Inv sfs parts rangeStart rangeEnd
        { s with data := data, extents := extents } ∧
      Advances rangeEnd s { s with data := data, extents := extents } := by
  refine ⟨{ h with runs := hstands.runs, worker := ?_, live := ?_ }, ?_⟩
  · rw [WorkerAt, hworker]
    exact ⟨hle, hstands⟩
  · intro hfin
    have hlive := h.live hfin
    obtain ⟨rfl, hp, hr⟩ := hlive.stage.of_reading hworker
    exact { hlive with stage := .reading hworker hp hr }
  · refine Advances.of_lt rfl rfl fun _ => ?_
    simp only [variant, readTo]
    omega

theorem Inv.postBody {offset : ℤ} (hworker : s.worker = .reading offset)
    {body : Bytes} (hne : body ≠ []) (hle : offset + body.length ≤ rangeEnd)
    (hbody : OccursAt (sfs.objectData parts) offset body)
    (hstands : StandsAt sfs parts s.data s.extents (offset + body.length))
    (hs' : s' = { s with
      posted := s.posted ++ [.body body rangeEnd]
      worker := .reading (offset + body.length) }) :
    Inv sfs parts rangeStart rangeEnd s' ∧ Advances rangeEnd s s' := by
  have hbytes : postedBytes s'.posted = postedBytes s.posted ++ body := by
    simp [hs', Posted.bytes]
  have hto : s'.readTo = s.readTo + body.length := by
    rw [readTo, hbytes, length_append, readTo, hs']
    push_cast
    omega
  have hlen : 0 < body.length := length_pos_iff.mpr hne
  subst hs'
  refine ⟨{ h with noAbort := ?_, worker := ⟨hle, hstands⟩, live := ?_ }, ?_⟩
  · rw [mem_append, mem_singleton]
    rintro (hmem | heq)
    · exact h.noAbort hmem
    · exact Posted.noConfusion heq
  · intro hfin
    have hlive := h.live hfin
    obtain ⟨rfl, hp, hr⟩ := hlive.stage.of_reading hworker
    refine ⟨hlive.done_lt, ?_, ?_, .reading ?_ ?_ hr⟩
    · rw [hbytes]
      exact hlive.bytes.append hbody
    · rw [hto]
      exact hle
    · exact congrArg Worker.reading hto.symm
    · intro task htask
      rcases mem_append.mp htask with hmem | hmem
      · exact hp task hmem
      · exact ⟨body, mem_singleton.mp hmem⟩
  · refine Advances.of_lt rfl rfl fun hfin => ?_
    obtain ⟨rfl, -, -⟩ := (h.live hfin).stage.of_reading hworker
    rw [variant, hto, variant, hworker]
    simp only [Worker.weight, map_append, map_cons, map_nil,
      Posted.weight, sum_append, sum_cons, sum_nil]
    omega

theorem Inv.leaveLoop {offset : ℤ} (hworker : s.worker = .reading offset)
    (hend : ¬ offset < rangeEnd) :
    Inv sfs parts rangeStart rangeEnd { s with worker := .idle } ∧
      Advances rangeEnd s { s with worker := .idle } := by
  refine ⟨{ h with worker := trivial, live := ?_ }, ?_⟩
  · intro hfin
    have hlive := h.live hfin
    obtain ⟨rfl, hp, hr⟩ := hlive.stage.of_reading hworker
    have hall : s.readTo = rangeEnd := by
      have := hlive.bound
      omega
    exact { hlive with stage := .complete rfl hall hp hr }
  · refine Advances.of_lt rfl rfl fun _ => ?_
    simp only [variant, readTo, hworker, Worker.weight]
    omega

theorem Inv.iterate (hrange : RangeFound sfs parts rangeStart rangeEnd)
    (hbuf : 0 < bufsize) {offset : ℤ} (hworker : s.worker = .reading offset) :
    Inv sfs parts rangeStart rangeEnd (s.iterate sfs bufsize offset) ∧
      Advances rangeEnd s (s.iterate sfs bufsize offset) := by
  have hat := h.worker
  rw [WorkerAt, hworker] at hat
  obtain ⟨hle, hstands⟩ := hat
  obtain rfl : rangeEnd = s.putRemaining := h.remaining.symm
  unfold Download.iterate
  by_cases hend : offset < s.putRemaining
  · rw [if_pos hend]
    by_cases hpaused : s.paused = true
    · rw [if_pos hpaused]
      refine ⟨h.leave_stopped hworker, fun _ hrunning => ?_⟩
      exact absurd (hrunning.symm.trans hpaused) Bool.false_ne_true
    · rw [if_neg hpaused]
      rcases hext : extentAt s.extents offset with _ | ext
      · obtain ⟨data, extents, hnext, hstands', hahead⟩ :=
          hstands.readNextMultipartExt hrange.stores hext
            (hend.trans_le hrange.le)
        dsimp only
        rw [hnext]
        exact h.nextPart hworker hle hstands' hahead
      · obtain ⟨hlen, hread⟩ := hstands.readData hrange.stores hext
        set k := min ext.len (min bufsize (s.putRemaining - offset)) with hk
        have hpos : 0 < k := by omega
        obtain ⟨hbody, hstands'⟩ := hread k hpos.le (by omega)
        have hlength : ((readData sfs.dataFile ext.dataFileOffset k).length
            : ℤ) = k := by
          rw [length_readData, Int.toNat_of_nonneg hpos.le]
        refine h.postBody hworker ?_ ?_ hbody ?_ rfl
        · rw [← length_pos_iff]
          omega
        · omega
        · rw [hlength]
          exact hstands'
  · rw [if_neg hend]
    exact h.leaveLoop hworker hend

end

/-- The download when the first posted body has been sent. -/
def afterBody (s : Download) (data : Bytes) (rest : List Posted) : Download :=
  { s with
    posted := rest
    doneBytes := s.doneBytes + data.length
    sent := s.sent ++ data }

variable {data : Bytes} {totalLen : ℤ}

theorem readTo_afterBody (hposted : s.posted = .body data totalLen :: rest) :
    (s.afterBody data rest).readTo = s.readTo := by
  simp only [readTo, afterBody, hposted, postedBytes_cons, Posted.bytes,
    length_append]
  push_cast
  omega

theorem Stage.afterBody (h : Stage sfs parts rangeEnd s)
    (hposted : s.posted = .body data totalLen :: rest) :
    totalLen = rangeEnd ∧ Stage sfs parts rangeEnd (s.afterBody data rest) := by
  have hto := readTo_afterBody hposted
  have hhead : ∀ {tasks : List Posted},
      (∀ task ∈ tasks, IsBody rangeEnd task) →
      Posted.body data totalLen ∈ tasks → totalLen = rangeEnd := by
    intro tasks hbodies hmem
    obtain ⟨data', heq⟩ := hbodies _ hmem
    exact (Posted.body.inj heq).2
  have hfirst : Posted.body data totalLen ∈ s.posted := by
    rw [hposted]
    exact mem_cons_self
  have hrest : (∀ task ∈ s.posted, IsBody rangeEnd task) →
      ∀ task ∈ rest, IsBody rangeEnd task := by
    intro hbodies task htask
    refine hbodies task ?_
    rw [hposted]
    exact mem_cons_of_mem _ htask
  cases h with
  | scheduled _ hp | waiting _ _ hp => cases hp.symm.trans hposted
  | reading hw hp hr =>
    exact ⟨hhead hp hfirst, .reading (hto ▸ hw) (hrest hp) hr⟩
  | stopping bodies hw hst hp hb hr =>
    rw [hp] at hposted
    cases bodies with
    | nil => cases hposted
    | cons task bodies =>
      cases hposted
      refine ⟨hhead hb mem_cons_self,
        .stopping bodies hw (hto ▸ hst) rfl ?_ hr⟩
      exact fun task htask => hb task (mem_cons_of_mem _ htask)
  | complete hw he hp hr =>
    exact ⟨hhead hp hfirst, .complete hw (hto ▸ he) (hrest hp) hr⟩

theorem Stage.of_stopped (h : Stage sfs parts rangeEnd s) {didPause : Bool}
    (hposted : s.posted = .stopped didPause :: rest) :
    didPause = true ∧ rest = [] ∧ s.worker = .idle ∧
      StandsAt sfs parts s.data s.extents s.doneBytes := by
  have hbody : ∀ {tasks : List Posted},
      (∀ task ∈ tasks, IsBody rangeEnd task) →
      Posted.stopped didPause ∉ tasks := by
    intro tasks hbodies hmem
    obtain ⟨data', heq⟩ := hbodies _ hmem
    exact Posted.noConfusion heq
  have hfirst : Posted.stopped didPause ∈ s.posted := by
    rw [hposted]
    exact mem_cons_self
  cases h with
  | scheduled _ hp | waiting _ _ hp => cases hp.symm.trans hposted
  | reading _ hp | complete _ _ hp => exact absurd hfirst (hbody hp)
  | stopping bodies hw hst hp hb =>
    have hto : s.posted = [.stopped true] → s.readTo = s.doneBytes := by
      intro hlast
      simp [readTo, hlast, Posted.bytes]
    rw [hp] at hposted
    cases bodies with
    | nil =>
      cases hposted
      rw [hto hp] at hst
      exact ⟨rfl, rfl, hw, hst⟩
    | cons task bodies =>
      cases hposted
      exact absurd mem_cons_self (hbody hb)

theorem Inv.noAbort_tail (h : Inv sfs parts rangeStart rangeEnd s)
    {task : Posted} (hposted : s.posted = task :: rest) :
    Posted.abort ∉ rest := by
  intro hmem
  refine h.noAbort ?_
  rw [hposted]
  exact mem_cons_of_mem _ hmem

theorem Inv.dropTask (h : Inv sfs parts rangeStart rangeEnd s) {task : Posted}
    (hposted : s.posted = task :: rest) (hfin : s.finished = true) :
    Inv sfs parts rangeStart rangeEnd { s with posted := rest } ∧
      Advances rangeEnd s { s with posted := rest } := by
  refine ⟨{ h with noAbort := h.noAbort_tail hposted, live := fun hlive => ?_ },
    fun hlive => ?_⟩
  · exact absurd (hlive.symm.trans hfin) Bool.false_ne_true
  · exact absurd (hlive.symm.trans hfin) Bool.false_ne_true

theorem Inv.runTask_body (h : Inv sfs parts rangeStart rangeEnd s)
    (hposted : s.posted = .body data totalLen :: rest)
    (hs' : s' = { s with posted := rest }.runTask (.body data totalLen)) :
    Inv sfs parts rangeStart rangeEnd s' ∧ Advances rangeEnd s s' := by
  have hrun : s' = if s.finished = true then { s with posted := rest }
      else if s.doneBytes + data.length = totalLen then
        { s.afterBody data rest with
          eom := true
          finished := true
          running := false }
      else s.afterBody data rest := hs'
  rcases Bool.eq_false_or_eq_true s.finished with hfin | hfin
  · rw [if_pos hfin] at hrun
    exact hrun ▸ h.dropTask hposted hfin
  · rw [if_neg (by rw [hfin]; exact Bool.false_ne_true)] at hrun
    have hlive := h.live hfin
    obtain ⟨rfl, hstage⟩ := hlive.stage.afterBody hposted
    have hto := readTo_afterBody hposted
    have hbytes := hlive.bytes
    rw [hposted, postedBytes_cons] at hbytes
    have hnext : s.doneBytes + data.length ≤ totalLen := by
      have hbound := hlive.bound
      rw [readTo, hposted, postedBytes_cons, length_append] at hbound
      simp only [Posted.bytes] at hbound
      push_cast at hbound
      omega
    have hsent : OccursAt (sfs.objectData parts) rangeStart
        (s.sent ++ data) := by
      refine h.sent.append ?_
      rw [← h.done]
      exact hbytes.left
    have hdone : s.doneBytes + data.length =
        rangeStart + (s.sent ++ data).length := by
      rw [h.done, length_append]
      push_cast
      omega
    have hless : variant totalLen (s.afterBody data rest) <
        variant totalLen s := by
      rw [variant, hto, variant, hposted]
      simp only [afterBody, map_cons, sum_cons, Posted.weight]
      omega
    by_cases hlast : s.doneBytes + data.length = totalLen
    · rw [if_pos hlast] at hrun
      subst hrun
      refine ⟨{ h with
        noAbort := h.noAbort_tail hposted
        done := hdone
        done_le := hnext
        sent := hsent
        eom := fun _ => ⟨rfl, hlast⟩
        live := fun hopen => absurd hopen.symm Bool.false_ne_true }, ?_⟩
      exact fun _ hpaused => ⟨hpaused, fun _ => rfl, hless⟩
    · rw [if_neg hlast] at hrun
      subst hrun
      refine ⟨{ h with
        noAbort := h.noAbort_tail hposted
        done := hdone
        done_le := hnext
        sent := hsent
        eom := fun heom => absurd ((h.eom heom).1.symm.trans hfin) (by simp)
        live := fun _ => ⟨?_, ?_, ?_, hstage⟩ }, ?_⟩
      · exact lt_of_le_of_ne hnext hlast
      · exact hbytes.right
      · rw [hto]
        exact hlive.bound
      · exact Advances.of_lt rfl rfl fun _ => hless

section

variable (h : Inv sfs parts rangeStart rangeEnd s)

include h

theorem Inv.runTask_stopped {didPause : Bool}
    (hposted : s.posted = .stopped didPause :: rest)
    (hs' : s' = { s with posted := rest }.runTask (.stopped didPause)) :
    Inv sfs parts rangeStart rangeEnd s' ∧ Advances rangeEnd s s' := by
  have hrun : s' = if s.finished = true then { s with posted := rest }
      else if didPause = true ∧ s.paused = false then
        Download.onEgressResumed { s with posted := rest, running := false }
      else { s with posted := rest, running := false } := hs'
  rcases Bool.eq_false_or_eq_true s.finished with hfin | hfin
  · rw [if_pos hfin] at hrun
    exact hrun ▸ h.dropTask hposted hfin
  · rw [if_neg (by rw [hfin]; exact Bool.false_ne_true)] at hrun
    have hlive := h.live hfin
    obtain ⟨rfl, rfl, hidle, hstands⟩ := hlive.stage.of_stopped hposted
    have hto : s.readTo = s.doneBytes := by
      simp [readTo, hposted, Posted.bytes]
    have hto' : ∀ s'' : Download, s''.posted = [] →
        s''.readTo = s''.doneBytes := by
      intro s'' hempty
      simp [readTo, hempty]
    have hbound := hlive.bound
    rw [hto] at hbound
    have hbytes : OccursAt (sfs.objectData parts) s.doneBytes [] :=
      occursAt_nil hlive.bytes.1
    rcases Bool.eq_false_or_eq_true s.paused with hpaused | hpaused
    · rw [if_neg (by rw [hpaused]; simp)] at hrun
      subst hrun
      refine ⟨{ h with
        noAbort := h.noAbort_tail hposted
        live := fun _ => ⟨hlive.done_lt, hbytes, ?_,
          .waiting hidle hstands rfl rfl hpaused⟩ }, ?_⟩
      · rw [hto' _ rfl]
        exact hbound
      · exact fun _ hopen => absurd (hopen.symm.trans hpaused) (by simp)
    · rw [if_pos ⟨rfl, hpaused⟩, Download.onEgressResumed,
        if_pos ⟨rfl, hfin⟩] at hrun
      subst hrun
      refine ⟨{ h with
        noAbort := h.noAbort_tail hposted
        worker := ⟨h.done_le, .inr hstands⟩
        live := fun _ => ⟨hlive.done_lt, hbytes, ?_,
          .scheduled rfl rfl rfl⟩ }, fun _ _ => ⟨rfl, ?_, ?_⟩⟩
      · rw [hto' _ rfl]
        exact hbound
      · exact fun hopen => absurd (hfin.symm.trans hopen) (by simp)
      · rw [variant, hto' _ rfl, variant, hto, hposted, hidle]
        simp only [Worker.weight, map_cons, map_nil, sum_cons,
          sum_nil, Posted.weight]
        omega

theorem Inv.step (hrange : RangeFound sfs parts rangeStart rangeEnd)
    (hbuf : 0 < bufsize) {e : DownloadEvent}
    (hs : s.step sfs bufsize e = some s') :
    Inv sfs parts rangeStart rangeEnd s' ∧
      (Quiet s e → Advances rangeEnd s s') := by
  have hloud : ∀ e', e = e' → e' ≠ .work → e' ≠ .runPosted →
      Quiet s e → Advances rangeEnd s s' := by
    rintro e' rfl hwork hrun (rfl | rfl)
    · exact absurd rfl hwork
    · exact absurd rfl hrun
  cases e with
  | onEgressPaused =>
    cases hs
    exact ⟨h.setPaused fun _ _ => rfl, hloud _ rfl (by decide) (by decide)⟩
  | onEgressResumed =>
    cases hs
    exact ⟨h.onEgressResumed, hloud _ rfl (by decide) (by decide)⟩
  | onError =>
    cases hs
    exact ⟨h.onError, hloud _ rfl (by decide) (by decide)⟩
  | work =>
    rw [Download.step] at hs
    rcases hworker : s.worker with _ | offset | offset
    · rw [hworker] at hs
      cases hs
    · rw [hworker] at hs
      cases hs
      exact (h.seek hrange hworker).imp_right fun hadv _ => hadv
    · rw [hworker] at hs
      cases hs
      exact (h.iterate hrange hbuf hworker).imp_right fun hadv _ => hadv
  | runPosted =>
    rw [Download.step] at hs
    rcases hposted : s.posted with _ | ⟨task, rest⟩
    · rw [hposted] at hs
      cases hs
    · rw [hposted] at hs
      have hs' := (Option.some.inj hs).symm
      rcases task with ⟨data, totalLen⟩ | _ | didPause
      · exact (h.runTask_body hposted hs').imp_right fun hadv _ => hadv
      · refine absurd ?_ h.noAbort
        rw [hposted]
        exact mem_cons_self
      · exact (h.runTask_stopped hposted hs').imp_right fun hadv _ => hadv

theorem Inv.enabled (hfin : s.finished = false) (hpaused : s.paused = false)
    (bufsize : ℤ) : ∃ e s', Quiet s e ∧ s.step sfs bufsize e = some s' := by
  have hposted : s.posted ≠ [] →
      ∃ e s', Quiet s e ∧ s.step sfs bufsize e = some s' := by
    intro hne
    obtain ⟨task, rest, hcons⟩ := exists_cons_of_ne_nil hne
    refine ⟨.runPosted, { s with posted := rest }.runTask task, .inr rfl, ?_⟩
    rw [Download.step, hcons]
  have hlive := h.live hfin
  cases hlive.stage with
  | scheduled hw =>
    refine ⟨.work, s.seek sfs s.doneBytes, .inl rfl, ?_⟩
    rw [Download.step, hw]
  | reading hw =>
    refine ⟨.work, s.iterate sfs bufsize s.readTo, .inl rfl, ?_⟩
    rw [Download.step, hw]
  | stopping bodies _ _ hp =>
    refine hposted ?_
    rw [hp]
    exact append_ne_nil_of_right_ne_nil _ (cons_ne_nil _ _)
  | waiting _ _ _ _ hwait => cases hpaused.symm.trans hwait
  | complete _ hall =>
    refine hposted ?_
    intro hnil
    have hdone := hlive.done_lt
    rw [readTo, hnil, postedBytes_nil, length_nil] at hall
    omega

end

end Steps

end Download

/-! ## Reading into a buffer -/

namespace ObjectReader

section

variable {sfs : PartStorage} {parts : List (ℤ × ℤ)} {r : ObjectReader}
  {rangeStart rangeEnd offset bsize : ℤ}

/-- The loop of `Read` fills the buffer with the bytes at the offset.  Every
iteration reads something or goes to the next part. -/
theorem readLoop_spec (hstores : sfs.Stores parts)
    (hsize : r.fsize = totalSize parts)
    (hstands : StandsAt sfs parts r.data r.extents offset)
    (hnonneg : 0 ≤ bsize) (hle : offset + bsize ≤ totalSize parts) {fuel : ℕ}
    (hfuel : bsize.toNat + r.data.ahead.length < fuel) :
    ∃ r' read, readLoop sfs fuel r bsize offset = some (.ok (r', read)) ∧
      r'.fsize = totalSize parts ∧
      StandsAt sfs parts r'.data r'.extents (offset + bsize) ∧
      OccursAt (sfs.objectData parts) offset read ∧
      (read.length : ℤ) = bsize := by
  have hoffset : 0 ≤ offset := by
    obtain ⟨before, hparts, -, hlo, -⟩ := hstands.part
    have hbefore : sfs.Stores before := fun p hp => hstores p (by
      rw [hparts]
      exact mem_append_left _ hp)
    exact hbefore.totalSize_nonneg.trans hlo
  induction fuel generalizing r bsize offset with
  | zero => omega
  | succ fuel ih =>
    rw [readLoop]
    by_cases hmore : offset < r.fsize ∧ bsize > 0
    · rw [if_pos hmore]
      rcases hext : extentAt r.extents offset with _ | ext
      · obtain ⟨data, extents, hnext, hstands', hahead⟩ :=
          hstands.readNextMultipartExt hstores hext (by omega)
        dsimp only
        rw [hnext]
        exact ih (r := { r with data := data, extents := extents }) hsize
          hstands' hnonneg hle (by dsimp only; omega) hoffset
      · obtain ⟨hlen, hread⟩ := hstands.readData hstores hext
        dsimp only
        set k := min ext.len (min bsize (r.fsize - offset)) with hk
        obtain ⟨hbytes, hstands'⟩ := hread k (by omega) (by omega)
        have hlength : ((readData sfs.dataFile ext.dataFileOffset k).length
            : ℤ) = k := by
          rw [length_readData, Int.toNat_of_nonneg (by omega)]
        have hpiece : sfs.readExt ext (min bsize (r.fsize - offset)) =
            readData sfs.dataFile ext.dataFileOffset k := rfl
        have hleft : 0 ≤ bsize - k := by omega
        obtain ⟨r', rest, hloop, hsize', hstands'', hrest, hcount⟩ :=
          ih hsize hstands' hleft (by omega) (by omega) (by omega)
        refine ⟨r', readData sfs.dataFile ext.dataFileOffset k ++ rest, ?_,
          hsize', ?_, ?_, ?_⟩
        · rw [hpiece, hlength, hloop]
          rfl
        · rwa [show offset + k + (bsize - k) = offset + bsize by omega]
            at hstands''
        · refine hbytes.append ?_
          rwa [hlength]
        · rw [length_append]
          push_cast
          omega
    · rw [if_neg hmore, if_neg (by omega)]
      obtain rfl : bsize = 0 := by omega
      refine ⟨r, [], rfl, hsize, ?_, occursAt_nil hoffset, rfl⟩
      rwa [add_zero]

/-- The reader has its place or is about to look for it. -/
def Ready (sfs : PartStorage) (parts : List (ℤ × ℤ)) (rangeStart : ℤ)
    (r : ObjectReader) (offset : ℤ) : Prop :=
  (r.data.exts = completedRuns parts ∧ r.data.extIdx = none ∧
    offset = rangeStart ∧ ClearOfRunEnds rangeStart 0 (completedRuns parts)) ∨
  StandsAt sfs parts r.data r.extents offset

theorem Ready.seekMultipartExt
    (h : Ready sfs parts rangeStart r offset)
    (hrange : RangeFound sfs parts rangeStart rangeEnd) :
    ∃ data extents, seekMultipartExt sfs offset r.data r.extents =
        .ok (data, extents) ∧ StandsAt sfs parts data extents offset := by
  rcases h with ⟨hruns, hfresh, rfl, hclear⟩ | hstands
  · obtain ⟨data, extents, hseek, hstands, -⟩ :=
      hrange.stores.seekMultipartExt hruns hfresh hclear hrange.nonneg
        (hrange.lt.trans_le hrange.le)
    exact ⟨data, extents, hseek, hstands⟩
  · exact ⟨r.data, r.extents, hstands.seekMultipartExt offset, hstands⟩

theorem readPieces_spec (hrange : RangeFound sfs parts rangeStart rangeEnd)
    {pieces : List ℤ} (hsize : r.fsize = totalSize parts)
    (hready : Ready sfs parts rangeStart r offset) (hnonneg : 0 ≤ offset)
    (hpieces : ∀ n ∈ pieces, 0 ≤ n) (hsum : offset + pieces.sum = rangeEnd)
    {fuel : ℕ} (hfuel : (rangeEnd - offset).toNat + parts.length < fuel) :
    ∃ r' read, readPieces sfs fuel r offset pieces = some (.ok (r', read)) ∧
      OccursAt (sfs.objectData parts) offset read ∧
      offset + read.length = rangeEnd := by
  induction pieces generalizing r offset with
  | nil =>
    rw [sum_nil] at hsum
    exact ⟨r, [], rfl, occursAt_nil hnonneg, hsum⟩
  | cons bsize rest ih =>
    have hbsize : 0 ≤ bsize := hpieces bsize mem_cons_self
    have hrest : ∀ n ∈ rest, 0 ≤ n := fun n hn =>
      hpieces n (mem_cons_of_mem _ hn)
    have hsum_rest : 0 ≤ rest.sum := sum_nonneg hrest
    rw [sum_cons] at hsum
    have hle := hrange.le
    obtain ⟨data, extents, hseek, hstands⟩ := hready.seekMultipartExt hrange
    have hahead : data.ahead.length ≤ parts.length := by
      obtain ⟨before, hparts, -⟩ := hstands.part
      have hcount := congrArg List.length hparts
      rw [length_append] at hcount
      omega
    obtain ⟨r', piece, hread, hsize', hstands', hpiece, hlength⟩ :=
      readLoop_spec (r := { r with data := data, extents := extents })
        hrange.stores hsize hstands hbsize (by omega)
        (by dsimp only; omega : _ < fuel)
    obtain ⟨r'', pieces, hreads, hbytes, hend⟩ :=
      ih hsize' (.inr hstands') (by omega) hrest (by omega) (by omega)
    refine ⟨r'', piece ++ pieces, ?_, ?_, ?_⟩
    · rw [readPieces, read, hseek]
      dsimp only
      rw [hread]
      dsimp only
      rw [hreads]
      rfl
    · refine hpiece.append ?_
      rwa [hlength]
    · rw [length_append]
      push_cast
      omega

end

end ObjectReader

/-! ## Exact downloads -/

/-- Bytes `rangeStart` to `rangeEnd - 1` of the concatenation of the parts. -/
def PartStorage.rangeData (sfs : PartStorage) (parts : List (ℤ × ℤ))
    (rangeStart rangeEnd : ℤ) : Bytes :=
  ((sfs.objectData parts).drop rangeStart.toNat).take
    (rangeEnd - rangeStart).toNat

structure GetExact (sfs : PartStorage) (parts : List (ℤ × ℤ))
    (bufsize rangeStart rangeEnd : ℤ) : Prop where
  sent : ∀ s, Run (Download.step sfs bufsize) anyStep
      (Download.init (completedRuns parts) rangeStart rangeEnd) s →
    s.aborted = false ∧
    s.sent <+: sfs.rangeData parts rangeStart rangeEnd ∧
    (s.eom = true → s.sent = sfs.rangeData parts rangeStart rangeEnd)
  completes : ∀ s, Run (Download.step sfs bufsize) anyStep
      (Download.init (completedRuns parts) rangeStart rangeEnd) s →
    s.finished = false → s.paused = false →
    Inevitably (Download.step sfs bufsize) Download.Quiet
      (fun s' => s'.eom = true ∧
        s'.sent = sfs.rangeData parts rangeStart rangeEnd) s
  read : ∀ pieces : List ℤ, (∀ n ∈ pieces, 0 ≤ n) →
    pieces.sum = rangeEnd - rangeStart →
    ∃ n, ∀ fuel, n ≤ fuel → ∃ r,
      (ObjectReader.opened (completedRuns parts)
        (totalSize parts)).readPieces sfs fuel rangeStart pieces =
        some (.ok (r, sfs.rangeData parts rangeStart rangeEnd))

section Exact

variable {sfs : PartStorage} {parts : List (ℤ × ℤ)}
  {rangeStart rangeEnd : ℤ} {s : Download}

theorem OccursAt.eq_rangeData {d : Bytes}
    (h : OccursAt (sfs.objectData parts) rangeStart d)
    (hlen : rangeStart + d.length = rangeEnd) :
    d = sfs.rangeData parts rangeStart rangeEnd := by
  have hcount : (rangeEnd - rangeStart).toNat = d.length := by omega
  rw [PartStorage.rangeData, hcount]
  exact h.eq_take

section

variable (h : Download.Inv sfs parts rangeStart rangeEnd s)

include h

theorem Download.Inv.sent_begins :
    s.sent <+: sfs.rangeData parts rangeStart rangeEnd := by
  refine h.sent.prefix_take ?_
  have hdone := h.done
  have hle := h.done_le
  omega

theorem Download.Inv.sent_eq (heom : s.eom = true) :
    s.sent = sfs.rangeData parts rangeStart rangeEnd :=
  OccursAt.eq_rangeData h.sent (h.done.symm.trans (h.eom heom).2)

theorem Download.Inv.finished_of_open (hend : s.finished = true → s.eom = true)
    (hopen : ¬ (s.eom = true ∧
      s.sent = sfs.rangeData parts rangeStart rangeEnd)) :
    s.finished = false := by
  rw [← Bool.not_eq_true]
  intro hfin
  exact hopen ⟨hend hfin, h.sent_eq (hend hfin)⟩

end

/-- From a state of the invariant a response is at any time a beginning of
the range, and the server gets to its end. -/
theorem Download.Inv.exact (h₀ : Download.Inv sfs parts rangeStart rangeEnd s)
    (hrange : RangeFound sfs parts rangeStart rangeEnd) (hbuf : 0 < bufsize)
    {s' : Download} (hrun : Run (Download.step sfs bufsize) anyStep s s') :
    (s'.aborted = false ∧
      s'.sent <+: sfs.rangeData parts rangeStart rangeEnd ∧
      (s'.eom = true → s'.sent = sfs.rangeData parts rangeStart rangeEnd)) ∧
    (s'.finished = false → s'.paused = false →
      Inevitably (Download.step sfs bufsize) Download.Quiet
        (fun s => s.eom = true ∧
          s.sent = sfs.rangeData parts rangeStart rangeEnd) s') := by
  have h : Download.Inv sfs parts rangeStart rangeEnd s' :=
    hrun.invariant h₀ fun _ _ _ h _ hs => (h.step hrange hbuf hs).1
  refine ⟨⟨h.notAborted, h.sent_begins, h.sent_eq⟩, fun hfin hpaused => ?_⟩
  refine inevitably_of_variant
    (fun s => Download.Inv sfs parts rangeStart rangeEnd s ∧
      s.paused = false ∧ (s.finished = true → s.eom = true))
    (Download.variant rangeEnd) ?_ ?_
    ⟨h, hpaused, fun hend =>
      absurd (hfin.symm.trans hend) Bool.false_ne_true⟩
  · rintro s ⟨h, hpaused, hend⟩ hopen
    exact h.enabled (h.finished_of_open hend hopen) hpaused bufsize
  · rintro s e s' ⟨h, hpaused, hend⟩ hopen hquiet hs
    obtain ⟨h', hadv⟩ := h.step hrange hbuf hs
    obtain ⟨hpaused', hend', hless⟩ :=
      hadv hquiet (h.finished_of_open hend hopen) hpaused
    exact ⟨⟨h', hpaused', hend'⟩, hless⟩

/-- Downloads are exact if no run of equal parts ends at the first byte of the
range or less than one of its parts before it. -/
theorem getExact_of_clear (hstores : sfs.Stores parts)
    (hnonneg : 0 ≤ rangeStart) (hlt : rangeStart < rangeEnd)
    (hle : rangeEnd ≤ totalSize parts)
    (hclear : ClearOfRunEnds rangeStart 0 (completedRuns parts))
    {bufsize : ℤ} (hbuf : 0 < bufsize) :
    GetExact sfs parts bufsize rangeStart rangeEnd := by
  have hrange : RangeFound sfs parts rangeStart rangeEnd :=
    ⟨hstores, hnonneg, hlt, hle⟩
  have hinit : Download.Inv sfs parts rangeStart rangeEnd
      (Download.init (completedRuns parts) rangeStart rangeEnd) :=
    Download.inv_initPart hrange (show MultiPartDownloadData.exts
      ⟨completedRuns parts, none, ⟨0, 0, 0⟩⟩ = _ from rfl) (.inl ⟨rfl, hclear⟩)
  refine ⟨fun s hrun => (hinit.exact hrange hbuf hrun).1,
    fun s hrun => (hinit.exact hrange hbuf hrun).2, ?_⟩
  · intro pieces hpieces hsum
    refine ⟨(rangeEnd - rangeStart).toNat + parts.length + 1,
      fun fuel hfuel => ?_⟩
    obtain ⟨r, read, hread, hbytes, hend⟩ :=
      ObjectReader.readPieces_spec hrange
        (r := ObjectReader.opened (completedRuns parts) (totalSize parts))
        rfl (.inl ⟨rfl, rfl, rfl, hclear⟩) hnonneg hpieces (by omega)
        (Nat.lt_of_succ_le hfuel)
    rw [OccursAt.eq_rangeData hbytes hend] at hread
    exact ⟨r, hread⟩

/-- A part of five bytes and two parts of three bytes, each filled with its
number. -/
def threeParts : PartStorage where
  readPrepare n :=
    if n = 1 then some [⟨0, 0, 5⟩]
    else if n = 2 ∨ n = 3 then some [⟨0, (n - 1) * blockSize, 3⟩]
    else none
  dataFile i := UInt8.ofNat (i / blockSize + 1).toNat

theorem stores_threeParts :
    threeParts.Stores [(1, 5), (2, 3), (3, 3)] := by
  intro p hp
  simp only [mem_cons, not_mem_nil, or_false] at hp
  rcases hp with rfl | rfl | rfl
  · exact ⟨by decide, [⟨0, 0, 5⟩], rfl, rfl, by decide, rfl⟩
  · exact ⟨by decide, [⟨0, blockSize, 3⟩], rfl, rfl, by decide, rfl⟩
  · exact ⟨by decide, [⟨0, 2 * blockSize, 3⟩], rfl, rfl, by decide, rfl⟩

/-- A range that begins inside the first part and goes over the end of its
run. -/
theorem getExact_of_clear_threeParts :
    GetExact threeParts [(1, 5), (2, 3), (3, 3)] 4 3 11 :=
  getExact_of_clear stores_threeParts (by decide) (by decide) (by decide)
    (by decide) (by decide)

/-- A range that begins where the run of the first part ends: the second part
is sent twice and the third is not sent. -/
theorem not_getExact_run_end :
    ¬ GetExact threeParts [(1, 5), (2, 3), (3, 3)] 4 5 11 := by
  intro h
  obtain ⟨s, hs, hsent, heom⟩ : ∃ s ∈ exec (Download.step threeParts 4)
      (Download.init (completedRuns [(1, 5), (2, 3), (3, 3)]) 5 11)
        [.work, .work, .work, .work, .work, .runPosted, .runPosted],
      s.sent = [2, 2, 2, 2, 2, 2] ∧ s.eom = true := by decide +kernel
  have hdata : s.sent = threeParts.rangeData [(1, 5), (2, 3), (3, 3)] 5 11 :=
    (h.sent s (run_of_exec hs)).2.2 heom
  rw [hsent] at hdata
  exact absurd hdata (by decide +kernel)

end Exact

end Hs5
