import Hs5.Storage.Partition
import Hs5.Storage.FreemapExact

/-!
# What `write_prepare` returns

The extents of one call tile the object: their object offsets follow each
other from 0 to the requested size, and every extent but the last one is a
whole number of blocks.  `Writers` adds to the allocator who holds which
extent: the callers of finished calls, the call that is running, or a
`FreeExtents` item that a failed call has queued.  A call fails when `FindFree`
finds no space, and then queues everything it has reserved; when the storage is
already dead it leaves without doing so.
-/

namespace Hs5

open Option List Cover Transition

/-! ## Extents of one object -/

def Ext.punchItem (e : Ext) : SPunchItem := ⟨e.dataFileOffset, e.len⟩

/-- The extents cover the bytes of the object from `a` to `b` in order. -/
def Tiles : ℤ → List Ext → ℤ → Prop
  | a, [], b => a = b
  | a, e :: exts, b => e.objOffset = a ∧ 0 < e.len ∧ Tiles (a + e.len) exts b

theorem Tiles.append {exts exts' : List Ext} {a b c : ℤ}
    (h : Tiles a exts b) (h' : Tiles b exts' c) : Tiles a (exts ++ exts') c := by
  induction exts generalizing a with
  | nil =>
    have heq : a = b := h
    exact heq ▸ h'
  | cons e exts ih =>
    obtain ⟨hoff, hpos, hrest⟩ := h
    exact ⟨hoff, hpos, ih hrest⟩

theorem tiles_singleton {e : Ext} (h : 0 < e.len) :
    Tiles e.objOffset [e] (e.objOffset + e.len) :=
  ⟨rfl, h, rfl⟩

variable {exts : List Ext}

theorem Tiles.pos {a b : ℤ} (h : Tiles a exts b) :
    ∀ e ∈ exts, 0 < e.len := by
  induction exts generalizing a with
  | nil => exact fun e he => absurd he not_mem_nil
  | cons e exts ih =>
    intro e' he'
    rcases mem_cons.mp he' with rfl | he'
    · exact h.2.1
    · exact ih h.2.2 e' he'

theorem Tiles.le {a b : ℤ} (h : Tiles a exts b) :
    a ≤ b := by
  induction exts generalizing a with
  | nil =>
    have heq : a = b := h
    exact heq.le
  | cons e exts ih =>
    have hrest := ih h.2.2
    have hpos := h.2.1
    omega

theorem Tiles.end_le {a b : ℤ} (h : Tiles a exts b) {e : Ext} (he : e ∈ exts) :
    e.objOffset + e.len ≤ b := by
  induction exts generalizing a with
  | nil => exact absurd he not_mem_nil
  | cons e' exts ih =>
    obtain ⟨hoff, hpos, hrest⟩ := h
    rcases mem_cons.mp he with rfl | he
    · rw [hoff]
      exact hrest.le
    · exact ih hrest he

theorem Tiles.of_append {exts' : List Ext} {a b : ℤ}
    (h : Tiles a (exts ++ exts') b) : ∃ m, Tiles a exts m ∧ Tiles m exts' b := by
  induction exts generalizing a with
  | nil => exact ⟨a, rfl, h⟩
  | cons e exts ih =>
    obtain ⟨hoff, hpos, hrest⟩ := h
    obtain ⟨m, htail, hend⟩ := ih hrest
    exact ⟨m, ⟨hoff, hpos, htail⟩, hend⟩

theorem Tiles.of_concat {e : Ext} {a b : ℤ} (h : Tiles a (exts ++ [e]) b) :
    Tiles a exts e.objOffset ∧ 0 < e.len ∧ b = e.objOffset + e.len := by
  obtain ⟨m, hinit, rfl, hpos, hend⟩ := h.of_append
  exact ⟨hinit, hpos, hend.symm⟩

/-- A point of the tiled interval either separates two extents or lies inside
one. -/
theorem Tiles.split {a b n : ℤ} (h : Tiles a exts b) (hlo : a ≤ n)
    (hhi : n ≤ b) :
    (∃ s t, exts = s ++ t ∧ Tiles a s n ∧ Tiles n t b) ∨
      ∃ s e t, exts = s ++ e :: t ∧ e.objOffset < n ∧
        n < e.objOffset + e.len := by
  induction exts generalizing a with
  | nil =>
    have heq : a = b := h
    exact .inl ⟨[], [], rfl, by simp only [Tiles]; omega,
      by simp only [Tiles]; omega⟩
  | cons e exts ih =>
    obtain ⟨hoff, hpos, hrest⟩ := h
    rcases hlo.eq_or_lt with rfl | hlt
    · exact .inl ⟨[], e :: exts, rfl, rfl, hoff, hpos, hrest⟩
    · by_cases hin : n < a + e.len
      · exact .inr ⟨[], e, exts, rfl, by omega, by omega⟩
      · rcases ih hrest (by omega) with
          ⟨s, t, rfl, hs, ht⟩ | ⟨s, e', t, rfl, hcut⟩
        · exact .inl ⟨e :: s, t, rfl, ⟨hoff, hpos, hs⟩, ht⟩
        · exact .inr ⟨e :: s, e', t, rfl, hcut⟩

/-- Extents for an object of `dataSize` bytes as `write_prepare` hands them
out. -/
structure Prepared (dataSize : ℤ) (exts : List Ext) : Prop where
  tiles : Tiles 0 exts dataSize
  aligned : ∀ e ∈ exts, e.punchItem.Aligned
  whole : ∀ e ∈ exts.dropLast, blockSize ∣ e.len

/-- `free_extents`: the `FreeExtents` items queued for a list of extents. -/
def freeExtentsItems : List Ext → List (List SPunchItem)
  | [] => []
  | [e] => if e.dataFileOffset = 0 ∧ e.len = 0 then [] else [[e.punchItem]]
  | exts => [exts.map Ext.punchItem]

theorem freeExtentsItems_of_pos (h : ∀ e ∈ exts, 0 < e.len) (hne : exts ≠ []) :
    freeExtentsItems exts = [exts.map Ext.punchItem] := by
  match exts with
  | [] => exact absurd rfl hne
  | [e] =>
    have hpos := h e mem_cons_self
    exact if_neg fun hzero => hpos.ne' hzero.2
  | _ :: _ :: _ => rfl

/-! ## Writers -/

/-- The allocator with the extents in the hands of its callers. -/
structure Writers (K : Type) [LinearOrder K] where
  alloc : AllocState K
  isDead : Bool
  /-- the write extents of the running call, with their starts when it got
  them -/
  obtained : List (ℤ × ℤ)
  /-- extents of finished calls that no item has used up -/
  granted : List SPunchItem
  /-- `FreeExtents` items of failed calls in the commit queue -/
  freeQueue : List (List SPunchItem)

inductive WriterEvent (K : Type) where
  | alloc (e : AllocEvent K)
  /-- the commit thread takes the oldest `FreeExtents` item of a failed
  call -/
  | freeFailed
  /-- `is_dead` is set -/
  | die
  /-- `write_prepare` finds the storage dead when it needs a write extent -/
  | abandonPrepare

namespace Writers

variable {K : Type} [LinearOrder K]

def init (cfg : AllocConfig) : Writers K :=
  ⟨AllocState.init cfg, false, [], [], []⟩

/-- The extents the running call has reserved so far. -/
def running (s : Writers K) : List Ext :=
  match s.alloc.prepare with
  | some p => p.extents
  | none => []

/-- Callers use only extents that were returned to them. -/
def allowed (s : Writers K) : AllocEvent K → Prop
  | .writePrepare _ | .askFindFree => s.isDead = false
  | .removeExtentEnd e _ => e ∈ s.granted
  | .add _ exts _ _ | .freeExtents exts => exts.Subperm s.granted
  | _ => True

instance (s : Writers K) (e : AllocEvent K) : Decidable (s.allowed e) := by
  rcases e with ⟨⟩ <;> dsimp only [allowed] <;> infer_instance

/-- Who holds what after a step of the allocator to `a`. -/
def after (s : Writers K) (e : AllocEvent K) (a : AllocState K) :
    Writers K :=
  match e with
  | .writePrepare _ =>
    { s with
      alloc := a
      obtained := [(s.alloc.dataFileOffset, s.alloc.dataFileOffsetEnd)] }
  | .takeFindFree =>
    { s with
      alloc := a
      obtained := s.obtained ++ [s.alloc.pendingExt] }
  | .failPrepare =>
    { s with
      alloc := a
      freeQueue := s.freeQueue ++ freeExtentsItems s.running }
  | .finishPrepare =>
    { s with
      alloc := a
      granted := s.granted ++ s.running.map Ext.punchItem }
  | .removeExtentEnd e toremove =>
    { s with
      alloc := a
      granted := AllocState.removeEnd e toremove ++ s.granted.erase e }
  | .add _ exts _ _ | .freeExtents exts =>
    { s with alloc := a, granted := s.granted.diff exts }
  | _ => { s with alloc := a }

def step (cfg : AllocConfig) (s : Writers K) :
    WriterEvent K → Option (Writers K)
  | .alloc e =>
    if s.allowed e then (s.alloc.step cfg e).map (s.after e) else none
  | .freeFailed =>
    match s.freeQueue with
    | [] => none
    | exts :: rest =>
      (s.alloc.step cfg (.freeExtents exts)).map fun a =>
        { s with alloc := a, freeQueue := rest }
  | .die => some { s with isDead := true }
  | .abandonPrepare => do
      let p ← s.alloc.prepare
      if s.isDead ∧ p.wait = .idle ∧ 0 < p.dataSizeRemaining ∧
          s.alloc.needsFindFree then
        some { s with alloc := { s.alloc with prepare := none } }
      else none

/-- Steps at which no unaligned end is freed, while the storage works. -/
def Working (s : Writers K) : WriterEvent K → Prop
  | .alloc e => AllocState.NoSplitBlock s.alloc e
  | .die => False
  | _ => True

instance (s : Writers K) (e : WriterEvent K) : Decidable (Working s e) := by
  rcases e with ⟨⟩ <;> dsimp only [Working] <;> infer_instance

/-! ## The running call -/

/-- The extent lies in the part of a write extent that a call obtained; a
write extent without an end has an end of at most 0. -/
def Inside (obtained : List (ℤ × ℤ)) (e : Ext) : Prop :=
  ∃ w ∈ obtained, w.1 ≤ e.dataFileOffset ∧ (0 < w.2 → e.punchItem.span.2 ≤ w.2)

/-- The loop invariant of `write_prepare`, for the current write extent from
`offset` to `fin`. -/
structure Running (offset fin : ℤ) (obtained : List (ℤ × ℤ))
    (p : Prepare) : Prop where
  remaining : 0 ≤ p.dataSizeRemaining
  tiles : Tiles 0 p.extents (p.dataSize - p.dataSizeRemaining)
  whole : 0 < p.dataSizeRemaining → ∀ e ∈ p.extents, blockSize ∣ e.len
  wholeInit : ∀ e ∈ p.extents.dropLast, blockSize ∣ e.len
  inside : ∀ e ∈ p.extents, Inside obtained e
  current : ∃ w ∈ obtained, w.1 ≤ offset ∧ w.2 = fin

section Running

variable {offset fin : ℤ} {obtained : List (ℤ × ℤ)} {p : Prepare}

theorem Running.start (dataSize : ℤ) (h : 0 < dataSize) :
    Running offset fin [(offset, fin)] ⟨dataSize, dataSize, [], .idle⟩ := by
  refine ⟨h.le, ?_, ?_, ?_, ?_, ?_⟩
  · exact (sub_self dataSize).symm
  · exact fun _ e he => absurd he not_mem_nil
  · exact fun e he => absurd he not_mem_nil
  · exact fun e he => absurd he not_mem_nil
  · exact ⟨_, mem_cons_self, le_rfl, rfl⟩

theorem Running.wait (h : Running offset fin obtained p) (w : FindFreeWait) :
    Running offset fin obtained { p with wait := w } :=
  ⟨h.remaining, h.tiles, h.whole, h.wholeInit, h.inside, h.current⟩

theorem Running.obtain (h : Running offset fin obtained p) (start stop : ℤ) :
    Running start stop (obtained ++ [(start, stop)]) p := by
  refine ⟨h.remaining, h.tiles, h.whole, h.wholeInit, ?_, ?_⟩
  · intro e he
    obtain ⟨w, hw, hin⟩ := h.inside e he
    exact ⟨w, mem_append_left _ hw, hin⟩
  · exact ⟨(start, stop), by simp, le_rfl, rfl⟩

end Running

variable {exts : List SPunchItem} {a : AllocState K}
  {rest : List (List SPunchItem)}

theorem Running.cut {obtained : List (ℤ × ℤ)} {p p' : Prepare}
    (h : Running a.dataFileOffset a.dataFileOffsetEnd obtained p)
    (hp' : (a.cutExt p).prepare = some p') (hcut : AllocState.Cut a p)
    (hoff : blockSize ∣ a.dataFileOffset)
    (hend : 0 < a.dataFileOffsetEnd → blockSize ∣ a.dataFileOffsetEnd ∧
      a.dataFileOffset < a.dataFileOffsetEnd) (hnonneg : 0 ≤ a.dataFileOffset)
    (hrem : 0 < p.dataSizeRemaining) :
    Running (a.cutExt p).dataFileOffset (a.cutExt p).dataFileOffsetEnd
      obtained p' := by
  cases hp'
  have hpos := hcut.pos
  have hround := roundUp_pos hpos
  have hle : a.nextExtLen p ≤ p.dataSizeRemaining := by
    unfold AllocState.nextExtLen
    split
    · exact min_le_left _ _
    · exact le_rfl
  obtain ⟨w, hw, hstart, hfin⟩ := h.current
  refine ⟨by simp only; omega, ?_, ?_, ?_, ?_, ?_⟩
  · have htile := h.tiles.append (tiles_singleton (e :=
      ⟨p.dataSize - p.dataSizeRemaining, a.dataFileOffset, a.nextExtLen p⟩)
      hpos)
    have hsum : p.dataSize - p.dataSizeRemaining + a.nextExtLen p =
        p.dataSize - (p.dataSizeRemaining - a.nextExtLen p) := by omega
    exact hsum ▸ htile
  · intro hmore e he
    simp only at hmore he
    rcases mem_append.mp he with he | he
    · exact h.whole hrem e he
    · rw [mem_singleton.mp he]
      have hlt : a.dataFileOffset < a.dataFileOffsetEnd := by
        by_contra hge
        have hlen : a.nextExtLen p = p.dataSizeRemaining :=
          if_neg fun hgt => hge hgt
        omega
      have hlen : a.nextExtLen p =
          min p.dataSizeRemaining (a.dataFileOffsetEnd - a.dataFileOffset) :=
        if_pos hlt
      have hrest : a.nextExtLen p = a.dataFileOffsetEnd - a.dataFileOffset := by
        omega
      simp only [hrest]
      exact dvd_sub (hend (by omega)).1 hoff
  · intro e he
    simp only [dropLast_concat] at he
    exact h.whole hrem e he
  · intro e he
    rcases mem_append.mp he with he | he
    · exact h.inside e he
    · rw [mem_singleton.mp he]
      refine ⟨w, hw, hstart, fun hw2 => ?_⟩
      rw [hfin] at hw2 ⊢
      exact hcut.le (hend hw2).2
  · refine ⟨w, hw, ?_, hfin⟩
    simp only [AllocState.cutExt]
    omega

/-! ## The invariant -/

structure Inv (cfg : AllocConfig) (s : Writers K) : Prop where
  alloc : AllocState.Inv cfg s.alloc
  held : s.alloc.held.Perm (s.granted ++ s.running.map Ext.punchItem ++
    s.freeQueue.flatten)
  running : ∀ p, s.alloc.prepare = some p →
    Running s.alloc.dataFileOffset s.alloc.dataFileOffsetEnd s.obtained p

theorem inv_init {cfg : AllocConfig}
    (hchunk : blockSize ∣ cfg.allocChunkSize) :
    Inv cfg (init cfg : Writers K) := by
  refine ⟨AllocState.inv_init hchunk, List.Perm.refl _, ?_⟩
  intro p hp
  cases hp

theorem perm_diff {α : Type} [DecidableEq α] {held exts rest : List α}
    (h : held.Perm (exts ++ rest)) : (held.diff exts).Perm rest := by
  have hsub : exts.Subperm held :=
    (sublist_append_left exts rest).subperm.trans h.symm.subperm
  have hheld := subperm_append_diff_self_of_count_le
    (subperm_ext_iff.mp hsub)
  exact (perm_append_left_iff exts).mp (hheld.trans h)

section Steps

variable {cfg : AllocConfig} {s s' : Writers K}

theorem running_eq {p : Prepare} (hp : s.alloc.prepare = some p) :
    s.running = p.extents := by
  simp [running, hp]

section

variable (h : Inv cfg s)

include h

theorem inv_same (ha : AllocState.Inv cfg a) (hheld : a.held = s.alloc.held)
    (hoff : a.dataFileOffset = s.alloc.dataFileOffset)
    (hend : a.dataFileOffsetEnd = s.alloc.dataFileOffsetEnd)
    (hprepare : ∀ p', a.prepare = some p' → ∃ p w,
      s.alloc.prepare = some p ∧ p' = { p with wait := w })
    (hnone : a.prepare = none → s.alloc.prepare = none) :
    Inv cfg { s with alloc := a } := by
  have hrunning : running { s with alloc := a } = s.running := by
    cases hp' : a.prepare with
    | none => simp [running, hp', hnone hp']
    | some p' =>
      obtain ⟨p, w, hp, rfl⟩ := hprepare p' hp'
      simp [running, hp', hp]
  refine ⟨ha, ?_, ?_⟩
  · have hperm := h.held
    simp only [hrunning]
    exact hheld ▸ hperm
  · intro p' hp'
    obtain ⟨p, w, hp, rfl⟩ := hprepare p' hp'
    have hrun := (h.running p hp).wait w
    simp only [hoff, hend]
    exact hrun

theorem inv_consume {c : CommitState K}
    (ha : AllocState.Inv cfg (s.alloc.consume exts c))
    {granted : List SPunchItem} {freeQueue : List (List SPunchItem)}
    (hperm : (s.alloc.held.diff exts).Perm
      (granted ++ s.running.map Ext.punchItem ++ freeQueue.flatten)) :
    Inv cfg { s with
      alloc := s.alloc.consume exts c
      granted := granted
      freeQueue := freeQueue } :=
  ⟨ha, hperm, h.running⟩

theorem Inv.perm_granted (hexts : exts.Subperm s.granted) :
    (s.alloc.held.diff exts).Perm (s.granted.diff exts ++
      s.running.map Ext.punchItem ++ s.freeQueue.flatten) := by
  have hgranted := subperm_append_diff_self_of_count_le
    (subperm_ext_iff.mp hexts)
  refine perm_diff (h.held.trans ?_)
  simp only [← append_assoc]
  exact (hgranted.symm.append_right _).append_right _

theorem Inv.perm_queue (hqueue : s.freeQueue = exts :: rest) :
    (s.alloc.held.diff exts).Perm (s.granted ++
      s.running.map Ext.punchItem ++ rest.flatten) := by
  have hheld : s.alloc.held.Perm (exts ++ (s.granted ++
      s.running.map Ext.punchItem ++ rest.flatten)) := by
    refine h.held.trans ?_
    rw [hqueue, flatten_cons]
    exact perm_append_comm_assoc _ _ _
  exact perm_diff hheld

theorem Inv.queue_subperm (hqueue : s.freeQueue = exts :: rest) :
    exts.Subperm s.alloc.held := by
  refine List.Subperm.trans ?_ h.held.symm.subperm
  rw [hqueue, flatten_cons]
  exact ((sublist_append_left exts rest.flatten).trans
    (sublist_append_right _ _)).subperm

theorem inv_cut {p : Prepare} (hp : s.alloc.prepare = some p)
    (ha : AllocState.Inv cfg (a.cutExt p)) (hheld : a.held = s.alloc.held)
    {obtained : List (ℤ × ℤ)}
    (hrun : Running a.dataFileOffset a.dataFileOffsetEnd obtained p)
    (hcut : AllocState.Cut a p) (hoff : blockSize ∣ a.dataFileOffset)
    (hend : 0 < a.dataFileOffsetEnd → blockSize ∣ a.dataFileOffsetEnd ∧
      a.dataFileOffset < a.dataFileOffsetEnd) (hnonneg : 0 ≤ a.dataFileOffset)
    (hrem : 0 < p.dataSizeRemaining) :
    Inv cfg { s with alloc := a.cutExt p, obtained := obtained } := by
  refine ⟨ha, ?_, fun p' hp' =>
    hrun.cut hp' hcut hoff hend hnonneg hrem⟩
  have hperm := h.held
  rw [running_eq hp] at hperm
  have hnew : (⟨a.dataFileOffset, a.nextExtLen p⟩ :: a.held).Perm
      (s.granted ++ (p.extents.map Ext.punchItem ++
        [⟨a.dataFileOffset, a.nextExtLen p⟩]) ++ s.freeQueue.flatten) := by
    rw [hheld]
    refine (hperm.cons _).trans ?_
    rw [← append_assoc, append_assoc _ [_]]
    exact perm_middle.symm
  simpa [AllocState.cutExt, running, Ext.punchItem] using hnew

end

theorem endDvd (h : AllocState.Inv cfg a)
    (hpos : 0 < a.dataFileOffsetEnd) : blockSize ∣ a.dataFileOffsetEnd := by
  rcases lt_or_ge 0 cfg.allocChunkSize with hchunk | hchunk
  · exact (h.chunked hchunk).endDvd
  · exact absurd hpos (not_lt.mpr (h.unlimited hchunk).endLe)

theorem found_spec (h : AllocState.Inv cfg a) {p : Prepare} {start fin : ℤ}
    (hp : a.prepare = some p) (hwait : p.wait = .answered (.found start fin)) :
    0 ≤ start ∧ blockSize ∣ start ∧ blockSize ∣ fin ∧ start < fin := by
  have hwaiting : a.waiting = .answered (.found start fin) := by
    simp [AllocState.waiting, hp, hwait]
  have hpos : 0 < cfg.allocChunkSize := by
    by_contra hle
    have hidle := (h.unlimited (not_lt.mp hle)).idle
    rw [hwaiting] at hidle
    cases hidle
  have hview := (h.chunked hpos).view
  simp only [AllocState.ViewOk, hwaiting] at hview
  exact ⟨hview.2.1, hview.2.2.1, hview.2.2.2.1, hview.2.2.2.2.1⟩

theorem inv_alloc (hchunk : blockSize ∣ cfg.allocChunkSize) (h : Inv cfg s)
    {e : AllocEvent K} (hallowed : s.allowed e)
    (hok : AllocState.NoSplitBlock s.alloc e)
    (ha : s.alloc.step cfg e = some a) : Inv cfg (s.after e a) := by
  have hinv := AllocState.inv_step hchunk h.alloc hok ha
  cases AllocState.step_steps ha with
  | @writePrepare dataSize hnone hpos =>
    refine ⟨hinv, ?_, ?_⟩
    · have hperm := h.held
      have hrunning : s.running = [] := by simp [running, hnone]
      rw [hrunning] at hperm
      exact hperm
    · intro p hp
      cases hp
      exact Running.start dataSize hpos
  | @askFindFree p hp | @findFree _ p _ _ hp =>
    refine inv_same h hinv rfl rfl rfl ?_ (by simp)
    intro p' hp'
    cases hp'
    exact ⟨p, _, hp, rfl⟩
  | @prepareExt p hp _ hrem hneeds =>
    have hend := endDvd h.alloc
    have hcut := AllocState.cut_spec (s := s.alloc) hrem h.alloc.offsetDvd
      hend h.alloc.offsetNonneg
    refine inv_cut h hp hinv rfl (h.running p hp) hcut h.alloc.offsetDvd
      (fun hpos => ⟨hend hpos, ?_⟩) h.alloc.offsetNonneg hrem
    exact not_le.mp fun hge => hneeds ⟨hpos, hge⟩
  | @takeFindFree p start fin hp hwait =>
    obtain ⟨hnonneg, hsdvd, hfdvd, hlt⟩ := found_spec h.alloc hp hwait
    have hrem := h.alloc.remaining p hp (by simp [hwait])
    have hpending : s.alloc.pendingExt = (start, fin) := by
      simp [AllocState.pendingExt, AllocState.waiting, hp, hwait]
    have hcut := AllocState.cut_spec
      (s := { s.alloc with dataFileOffset := start, dataFileOffsetEnd := fin })
      hrem hsdvd (fun _ => hfdvd) hnonneg
    have hrun := (h.running p hp).obtain start fin
    rw [← hpending] at hrun
    exact inv_cut h hp hinv rfl hrun hcut hsdvd (fun _ => ⟨hfdvd, hlt⟩)
      hnonneg hrem
  | @failPrepare p hp =>
    refine ⟨hinv, ?_, fun q hq => by cases hq⟩
    have hperm := h.held
    have hqueue : (freeExtentsItems s.running).flatten =
        s.running.map Ext.punchItem := by
      rw [running_eq hp]
      by_cases hnil : p.extents = []
      · simp [hnil, freeExtentsItems]
      · simp [freeExtentsItems_of_pos (h.running p hp).tiles.pos hnil]
    simp only [after, flatten_append, hqueue]
    rw [append_assoc] at hperm
    refine hperm.trans ?_
    simp only [running, map_nil, append_nil]
    exact perm_append_comm.append_left _
  | finishPrepare =>
    refine ⟨hinv, ?_, fun q hq => by cases hq⟩
    have hperm := h.held
    simpa [after, running] using hperm
  | @removeExtentEnd e toremove =>
    refine ⟨hinv, ?_, h.running⟩
    have hperm := h.held.erase e
    rw [append_assoc, erase_append_left _ hallowed] at hperm
    have hpieces := hperm.append_left (AllocState.removeEnd e toremove)
    simpa [after, running] using hpieces
  | add | freeExtents => exact inv_consume h hinv (h.perm_granted hallowed)
  | del | commit => exact ⟨hinv, h.held, h.running⟩

theorem inv_step (hchunk : blockSize ∣ cfg.allocChunkSize)
    (h : Inv cfg s) (hdead : s.isDead = false) {e : WriterEvent K}
    (hok : Working s e) (hstep : s.step cfg e = some s') :
    Inv cfg s' ∧ s'.isDead = false := by
  cases e with
  | alloc e =>
    simp only [step, ite_none_right_eq_some,
      map_eq_some_iff] at hstep
    obtain ⟨hallowed, a, ha, rfl⟩ := hstep
    refine ⟨inv_alloc hchunk h hallowed hok ha, ?_⟩
    cases e <;> exact hdead
  | freeFailed =>
    simp only [step] at hstep
    split at hstep
    · cases hstep
    · rename_i exts rest hqueue
      obtain ⟨a, ha, rfl⟩ := map_eq_some_iff.mp hstep
      have hinv := AllocState.inv_step hchunk h.alloc
        (e := .freeExtents exts) trivial ha
      cases AllocState.step_steps ha with
      | freeExtents =>
        exact ⟨inv_consume h hinv (h.perm_queue hqueue), hdead⟩
  | die => exact absurd hok id
  | abandonPrepare =>
    simp only [step, bind_eq_bind, bind_eq_some_iff,
      ite_none_right_eq_some] at hstep
    obtain ⟨p, _, ⟨hisDead, _⟩, _⟩ := hstep
    exact absurd hisDead (by simp [hdead])

end Steps

/-! ## The contract of `write_prepare` -/

/-- What callers of `write_prepare` rely on. -/
structure PrepareOk (cfg : AllocConfig) (s : Writers K) : Prop where
  /-- a call that succeeds returns extents that tile the object -/
  success : ∀ p s', s.alloc.prepare = some p →
    s.step cfg (.alloc .finishPrepare) = some s' →
      Prepared p.dataSize p.extents ∧ ∀ e ∈ p.extents, Inside s.obtained e
  /-- no two extents of one or of several calls share a block -/
  disjoint : PairwiseDisjoint ((s.granted ++
    s.running.map Ext.punchItem ++ s.freeQueue.flatten).map SPunchItem.span)
  /-- a call that fails queues all extents it has reserved -/
  failure : ∀ p s', s.alloc.prepare = some p → p.extents ≠ [] →
    (s.step cfg (.alloc .failPrepare) = some s' ∨
      s.step cfg .abandonPrepare = some s') →
      s'.freeQueue = s.freeQueue ++ [p.extents.map Ext.punchItem]
  /-- extents that wait to be freed are not free yet -/
  queued : ∀ exts ∈ s.freeQueue, ∀ e ∈ exts,
    Disjoint s.alloc.commit.fm.freeBytes (Set.Ico e.span.1 e.span.2)
  /-- the commit thread frees their blocks and drops the reservations -/
  freed : ∀ exts rest, s.freeQueue = exts :: rest →
    ∃ s', s.step cfg .freeFailed = some s' ∧ s'.freeQueue = rest ∧
      (∀ x, s'.alloc.commit.fm.freeMult x = s.alloc.commit.fm.freeMult x +
        mult (exts.map SPunchItem.span) x) ∧
      ∀ e ∈ exts, s'.alloc.commit.reservedExtents.lookup e.offset = none

section Contract

variable {cfg : AllocConfig} {s : Writers K}

section

variable (h : Inv cfg s)

include h

theorem Inv.aligned {e : Ext} (he : e ∈ s.running) : e.punchItem.Aligned := by
  refine h.alloc.held _ (h.held.symm.subset ?_)
  exact mem_append_left _
    (mem_append_right _ (mem_map_of_mem he))

theorem Inv.success {p : Prepare} {s' : Writers K}
    (hp : s.alloc.prepare = some p)
    (hstep : s.step cfg (.alloc .finishPrepare) = some s') :
    Prepared p.dataSize p.extents ∧ ∀ e ∈ p.extents, Inside s.obtained e := by
  have hrun := h.running p hp
  have hdone : p.dataSizeRemaining = 0 := by
    simp only [step, AllocState.step, hp, bind_eq_bind,
      bind_some, ite_none_right_eq_some,
      map_eq_some_iff] at hstep
    obtain ⟨_, _, ⟨⟨_, hle⟩, _⟩, _⟩ := hstep
    exact le_antisymm hle hrun.remaining
  have htiles := hrun.tiles
  rw [hdone, sub_zero] at htiles
  refine ⟨⟨htiles, ?_, hrun.wholeInit⟩, hrun.inside⟩
  intro e he
  exact h.aligned (running_eq hp ▸ he)

theorem Inv.disjoint :
    PairwiseDisjoint ((s.granted ++ s.running.map Ext.punchItem ++
      s.freeQueue.flatten).map SPunchItem.span) := by
  rw [pairwiseDisjoint_iff]
  intro x
  rw [← mult_perm (h.held.map SPunchItem.span)]
  have honce := h.alloc.once x
  simp only [AllocState.used, AllocState.settled] at honce
  omega

theorem Inv.queued (hexts : exts ∈ s.freeQueue) {e : SPunchItem}
    (he : e ∈ exts) :
    Disjoint s.alloc.commit.fm.freeBytes (Set.Ico e.span.1 e.span.2) := by
  have hmem : e ∈ s.alloc.held := h.held.symm.subset
    (mem_append_right _ (mem_flatten.mpr ⟨exts, hexts, he⟩))
  rw [Set.disjoint_left]
  intro x hfree hx
  have hpos := Freemap.mem_freeBytes_iff.mp hfree
  have hheld := ind_le_mult (mem_map_of_mem (f := SPunchItem.span) hmem) x
  rw [ind_eq_one.mpr hx] at hheld
  have honce := h.alloc.once x
  simp only [AllocState.used, AllocState.settled, CommitState.owned] at honce
  omega

theorem Inv.freed (hqueue : s.freeQueue = exts :: rest) :
    ∃ s', s.step cfg .freeFailed = some s' ∧ s'.freeQueue = rest ∧
      (∀ x, s'.alloc.commit.fm.freeMult x = s.alloc.commit.fm.freeMult x +
        mult (exts.map SPunchItem.span) x) ∧
      ∀ e ∈ exts, s'.alloc.commit.reservedExtents.lookup e.offset = none := by
  have hsub := h.queue_subperm hqueue
  have haligned : ∀ e ∈ exts, e.Aligned := fun e he =>
    h.alloc.held e (hsub.subset he)
  obtain ⟨c, hc, _, _, _, howned⟩ := CommitState.freeExtents_spec
    h.alloc.wellFormed haligned (AllocState.held_once h.alloc hsub)
  obtain ⟨_, _, hreserved⟩ := CommitState.freeExtents_frame
    (fun e he => (haligned e he).dvd) hc
  refine ⟨{ s with alloc := s.alloc.consume exts c, freeQueue := rest },
    ?_, rfl, ?_, ?_⟩
  · simp [step, hqueue, AllocState.step, hsub, hc]
  · intro x
    exact CommitState.freeExtents_freeMult
      (fun e he => (haligned e he).dvd) hc (howned x)
  · intro e he
    rw [OrderedMap.lookup_eq_none]
    intro p hp heq
    simp only [AllocState.consume, hreserved] at hp
    exact (CommitState.mem_eraseReserved.mp hp).2 e he heq

theorem Inv.prepareOk (hdead : s.isDead = false) : PrepareOk cfg s := by
  refine ⟨fun p s' hp hstep => h.success hp hstep, h.disjoint, ?_,
    fun exts hexts e he => h.queued hexts he,
    fun exts rest hqueue => h.freed hqueue⟩
  intro p s' hp hne hstep
  rcases hstep with hstep | hstep
  · simp only [step, ite_none_right_eq_some,
      map_eq_some_iff] at hstep
    obtain ⟨_, a, _, rfl⟩ := hstep
    have hitems := freeExtentsItems_of_pos (h.running p hp).tiles.pos hne
    simp only [after, running_eq hp, hitems]
  · simp only [step, hp, bind_eq_bind, bind_some,
      ite_none_right_eq_some] at hstep
    exact absurd hstep.1.1 (by simp [hdead])

end

end Contract

/-- With a chunk size of whole blocks, in every run in which the storage works
and form uploads give up ends at block boundaries only, `write_prepare` keeps
its contract. -/
theorem prepareOk_of_run {cfg : AllocConfig}
    (hchunk : blockSize ∣ cfg.allocChunkSize) {s : Writers K}
    (hrun : Run (step cfg) Working (init cfg) s) : PrepareOk cfg s := by
  have hinv : Inv cfg s ∧ s.isDead = false :=
    hrun.invariant ⟨inv_init hchunk, rfl⟩
      fun _ _ _ h hok hstep => inv_step hchunk h.1 h.2 hok hstep
  exact hinv.1.prepareOk hinv.2

def noSpace : FindFreeEnv := ⟨false, -1, -1, ⟨[], [], []⟩⟩

/-- An upload that gets a second write extent, and another one that finds no
space after it has reserved the rest. -/
def fullDisk : List (WriterEvent ℕ) :=
  [.alloc (.writePrepare 10000), .alloc .prepareExt, .alloc .askFindFree,
    .alloc (.findFree AllocState.plentyOfSpace), .alloc .takeFindFree,
    .alloc .finishPrepare, .alloc (.writePrepare 5000), .alloc .prepareExt,
    .alloc .askFindFree, .alloc (.findFree noSpace), .alloc .failPrepare]

/-- The extent of the second upload waits to be freed. -/
theorem prepareOk_of_run_fullDisk :
    ∃ s, exec (guarded (step AllocState.twoBlockChunks) Working)
        (init AllocState.twoBlockChunks) fullDisk = some s ∧
      s.freeQueue = [[⟨12288, 4096⟩]] ∧
      PrepareOk AllocState.twoBlockChunks s := by
  obtain ⟨s, hs, hqueue⟩ : ∃ s ∈ exec (guarded
      (step AllocState.twoBlockChunks) Working)
        (init AllocState.twoBlockChunks) fullDisk,
      s.freeQueue = [[⟨12288, 4096⟩]] := by decide +kernel
  exact ⟨s, hs, hqueue, prepareOk_of_run (by decide) (run_of_exec_guarded hs)⟩

def twoChunks : List (WriterEvent ℕ) :=
  [.alloc (.writePrepare 10000), .alloc .prepareExt, .alloc .askFindFree,
    .alloc (.findFree AllocState.plentyOfSpace), .alloc .takeFindFree]

/-- With chunks of 5000 bytes the second extent starts inside a block of the
first one; and when the storage dies during a call, the extents it has
reserved are never freed. -/
theorem not_prepareOk_unaligned_chunk :
    (∃ s, exec (step ⟨5000, 0, 0⟩) (init ⟨5000, 0, 0⟩) twoChunks = some s ∧
      s.running = [⟨0, 0, 5000⟩, ⟨5000, 5000, 5000⟩] ∧
      ¬ PrepareOk ⟨5000, 0, 0⟩ s) ∧
    ∃ s, exec (step AllocState.twoBlockChunks) (init AllocState.twoBlockChunks)
        [.alloc (.writePrepare 10000), .alloc .prepareExt, .die] =
          some (s : Writers ℕ) ∧
      s.running = [⟨0, 0, 8192⟩] ∧
      ¬ PrepareOk AllocState.twoBlockChunks s := by
  refine ⟨⟨_, rfl, rfl, fun h => ?_⟩, ⟨_, rfl, rfl, fun h => ?_⟩⟩
  · have hone := pairwiseDisjoint_iff.mp h.disjoint 5000
    exact absurd hone (by decide)
  · have hqueue := h.failure _ _ rfl (by decide) (.inr rfl)
    exact absurd hqueue (by decide)

end Writers

end Hs5
