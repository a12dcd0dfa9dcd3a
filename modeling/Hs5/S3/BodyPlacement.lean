import Hs5.S3.MultipartPlace
import Hs5.Storage.FlatFile

/-!
# The bodies of uploads

Each upload has extents of the data file and a body thread, which takes the
buffers of the request one after the other and writes each in pieces that end
with an extent.  All threads write to one data file, and a write that starts
with a page fills its last page with zeros.  Whatever the order of the writes,
each byte written is in its place.
-/

namespace Hs5

open List Transition ByteFile

/-! ## Extents and pages -/

/-- Where byte `i` of the object is in the data file. -/
def Ext.place (e : Ext) (i : ℕ) : ℕ :=
  (e.dataFileOffset + (i - e.objOffset)).toNat

def Ext.Has (e : Ext) (i : ℤ) : Prop :=
  e.objOffset ≤ i ∧ i < e.objOffset + e.len

theorem Tiles.unique {extents : List Ext} {a b : ℤ} (h : Tiles a extents b) :
    (∀ e ∈ extents, a ≤ e.objOffset) ∧
      ∀ e ∈ extents, ∀ f ∈ extents, ∀ i, e.Has i → f.Has i → e = f := by
  induction extents generalizing a with
  | nil => simp
  | cons e' extents ih =>
    obtain ⟨hoff, hpos, hrest⟩ := h
    have hrest := ih hrest
    grind [Ext.Has]

theorem flatFillPage_eq (flat buf : Bytes) (off : ℕ) {stop : ℕ}
    (hstop : fillPageSize ∣ stop) (hle : off + buf.length ≤ stop) :
    ∃ pad, MultiFile.flatFillPage flat buf off =
        writeAt flat off (buf ++ pad) ∧ off + (buf ++ pad).length ≤ stop := by
  unfold MultiFile.flatFillPage
  split
  · refine ⟨_, rfl, ?_⟩
    simp only [fillPageSize, length_append, length_replicate] at *
    omega
  · exact ⟨[], by simp, by simpa using hle⟩

/-! ## Uploads -/

/-- The members of `S3Handler` that the body thread uses; `received` are the
bytes of all buffers taken, `data` what is left of the last one. -/
structure Upload where
  extents : List Ext := []
  putRemaining : ℤ := 0
  received : Bytes := []
  data : Bytes := []

namespace Upload

/-- `onBodyCPU` with a buffer, without its loop. -/
def onBodyCPU (u : Upload) (body : Bytes) : Upload :=
  if u.extents = [] then u
  else
    { u with
      putRemaining := u.putRemaining - body.length
      received := u.received ++ body
      data := body }

/-- Where the rest of the buffer goes in the object. -/
def offset (u : Upload) : ℕ := u.received.length - u.data.length

/-- One round of the loop of `onBodyCPU`, with `write_ext`. -/
def writeExt (u : Upload) (flat : Bytes) : Upload × Bytes :=
  match extentAt u.extents u.offset with
  | none => ({ u with data := [] }, flat)
  | some currExt =>
    let wlen := min u.data.length currExt.len.toNat
    ({ u with data := u.data.drop wlen }, MultiFile.flatFillPage flat
      (u.data.take wlen) currExt.dataFileOffset.toNat)

end Upload

/-- The data file and the uploads that write to it. -/
structure Uploads where
  flat : Bytes
  put : ℕ → Upload

namespace Uploads

inductive Event where
  | onBodyCPU (j : ℕ) (body : Bytes)
  | writeExt (j : ℕ)

def set (s : Uploads) (j : ℕ) (p : Upload × Bytes) : Uploads :=
  ⟨p.2, Function.update s.put j p.1⟩

/-- A thread takes a buffer when it has written the one before. -/
def step (s : Uploads) : Event → Option Uploads
  | .onBodyCPU j body =>
    if (s.put j).data ≠ [] then none
    else some (s.set j ((s.put j).onBodyCPU body, s.flat))
  | .writeExt j =>
    if (s.put j).data = [] then none
    else some (s.set j ((s.put j).writeExt s.flat))

/-- Uploads that begin with extents as `write_prepare` hands them out. -/
structure Prepared (s : Uploads) : Prop where
  tiles : ∀ j, Tiles 0 (s.put j).extents (s.put j).putRemaining
  aligned : ∀ j, ∀ e ∈ (s.put j).extents, e.punchItem.Aligned
  apart : ∀ j k, ∀ e ∈ (s.put j).extents, ∀ f ∈ (s.put k).extents,
    j = k ∧ e = f ∨ e.punchItem.span.2 ≤ f.dataFileOffset ∨
      f.punchItem.span.2 ≤ e.dataFileOffset
  empty : ∀ j, (s.put j).received = [] ∧ (s.put j).data = []

/-- What `u`, which began as `u₀`, has written is in place. -/
structure Placed (flat : Bytes) (u₀ u : Upload) : Prop where
  extents : u.extents = u₀.extents
  written : ∀ e ∈ u₀.extents, ∀ i : ℕ, e.Has i → i < u.offset →
    byteAt flat (e.place i) = byteAt u.received i
  suffix : u.data <:+ u.received
  counted : u.putRemaining + u.received.length = u₀.putRemaining

def AllPlaced (s₀ s : Uploads) : Prop :=
  ∀ k, Placed s.flat (s₀.put k) (s.put k)

/-! ## Writes -/

variable {s₀ s s' : Uploads} {j k : ℕ}

/-- A write into an extent changes no byte of another upload and none that
comes before it. -/
theorem byteAt_write (h : s₀.Prepared) {it e : Ext}
    (hit : it ∈ (s₀.put j).extents) {o i : ℕ} {buf : Bytes}
    (ho : it.objOffset ≤ o) (hend : o + buf.length ≤ it.objOffset + it.len)
    (he : e ∈ (s₀.put k).extents) (hi : e.Has i)
    (hlt : k = j → i < o + buf.length) (flat : Bytes) :
    byteAt (MultiFile.flatFillPage flat buf (it.place o)) (e.place i) =
      if k = j ∧ o ≤ i then byteAt buf (i - o)
      else byteAt flat (e.place i) := by
  obtain ⟨hpos, hdvd, hlen⟩ := h.aligned j it hit
  obtain ⟨hpos', -, hlen'⟩ := h.aligned k e he
  have hround := roundUp_nonneg hlen.le
  have hround' := le_roundUp hlen'.le
  simp only [Ext.punchItem, blockSize, Ext.Has] at *
  have hpages : fillPageSize ∣ (it.dataFileOffset + roundUp it.len).toNat := by
    unfold fillPageSize
    omega
  unfold Ext.place
  obtain ⟨pad, heq, hstop⟩ := flatFillPage_eq flat buf (it.dataFileOffset +
    (o - it.objOffset)).toNat hpages (by omega)
  rw [heq, byteAt_writeAt]
  by_cases hin : k = j ∧ o ≤ i
  · obtain ⟨rfl, hoi⟩ := hin
    have hlt := hlt rfl
    obtain rfl := (h.tiles k).unique.2 e he it hit i hi ⟨by omega, by omega⟩
    rw [if_pos (by simp; omega), if_pos ⟨rfl, hoi⟩, byteAt_append,
      if_pos (by omega)]
    congr 1
    omega
  · rw [if_neg hin, if_neg]
    rintro ⟨hlo, hhi⟩
    rcases h.apart k j e he it hit with ⟨rfl, rfl⟩ | hno
    · exact hin ⟨rfl, by omega⟩
    · simp only [SPunchItem.span, Ext.punchItem] at hno
      omega

theorem Placed.onBodyCPU {flat body : Bytes} {u₀ u : Upload}
    (h : Placed flat u₀ u) (hdata : u.data = []) :
    Placed flat u₀ (u.onBodyCPU body) := by
  unfold Upload.onBodyCPU
  split
  · exact h
  · refine ⟨h.extents, fun e he i hi hlt => ?_, suffix_append _ _, ?_⟩
    · have hold := h.written e he i hi
      simp [Upload.offset, hdata] at hlt hold
      rw [byteAt_append, if_pos hlt, hold hlt]
    · simp [← h.counted]

theorem AllPlaced.set {p : Upload × Bytes}
    (hj : Placed p.2 (s₀.put j) p.1)
    (hk : ∀ k ≠ j, Placed p.2 (s₀.put k) (s.put k)) :
    AllPlaced s₀ (s.set j p) :=
  (Function.forall_update_iff _ fun k u => Placed _ (s₀.put k) u).mpr ⟨hj, hk⟩

theorem AllPlaced.writeExt (h : AllPlaced s₀ s) (h₀ : s₀.Prepared) :
    AllPlaced s₀ (s.set j ((s.put j).writeExt s.flat)) := by
  have hj := h j
  have htiles := h₀.tiles j
  rw [← hj.extents] at htiles
  generalize s.put j = u at hj htiles ⊢
  obtain ⟨pre, hpre⟩ := hj.suffix
  have hoffset : u.offset = pre.length := by simp [Upload.offset, ← hpre]
  by_cases hlt : u.offset < (s₀.put j).putRemaining
  · obtain ⟨it, hit, hfind, hle, hend⟩ := htiles.findExt_some (by omega) hlt
    rw [hj.extents] at hit
    simp only [Upload.writeExt, extentAt, hfind, if_neg
      (show ¬ (it.len = 0 ∨ it.objOffset + it.len ≤ u.offset) by omega)]
    refine .set ⟨hj.extents, fun e he i hi hi' => ?_,
      (drop_suffix _ _).trans hj.suffix, hj.counted⟩ fun k hk =>
        { h k with written := fun e he i hi hi' => ?_ }
    · have hl := congrArg List.length hpre
      simp only [Upload.offset, length_drop, length_append] at hi' hl
      refine (byteAt_write h₀ hit hle (by simp; omega) he hi
        (fun _ => by simp; omega) _).trans ?_
      split
      · rw [byteAt_take, if_pos (by omega), ← hpre, byteAt_append,
          if_neg (by omega), hoffset]
      · exact hj.written e he i hi (by omega)
    · refine (byteAt_write h₀ hit hle (by simp; omega) he hi
        (fun hno => absurd hno hk) _).trans ?_
      rw [if_neg fun hno => hk hno.1, (h k).written e he i hi hi']
  · simp only [Upload.writeExt, htiles.extentAt_eq_none (not_lt.mp hlt)]
    refine .set ⟨hj.extents, fun e he i hi _ => ?_, nil_suffix,
      hj.counted⟩ fun k _ => h k
    have hle := (h₀.tiles j).end_le he
    exact hj.written e he i hi (by unfold Ext.Has at hi; omega)

theorem AllPlaced.step (h : AllPlaced s₀ s) (h₀ : s₀.Prepared) {e : Event}
    (hs : s.step e = some s') : AllPlaced s₀ s' := by
  cases e with
  | onBodyCPU j body =>
    simp only [Uploads.step, Option.ite_none_left_eq_some, not_not] at hs
    obtain ⟨hdata, ⟨⟩⟩ := hs
    exact .set ((h j).onBodyCPU hdata) fun k _ => h k
  | writeExt j =>
    simp only [Uploads.step, Option.ite_none_left_eq_some] at hs
    obtain ⟨-, ⟨⟩⟩ := hs
    exact h.writeExt h₀

/-- For any number of uploads and any order of their writes: when the thread
of an upload has written its last buffer and no bytes remain, each byte of the
body is where the extents have it. -/
theorem body_placed (h₀ : s₀.Prepared) (hrun : Run step anyStep s₀ s) (j : ℕ)
    (hdata : (s.put j).data = []) (hdone : (s.put j).putRemaining = 0) :
    ((s.put j).received.length : ℤ) = (s₀.put j).putRemaining ∧
      ∀ e ∈ (s₀.put j).extents, ∀ i : ℕ, e.Has i →
        byteAt s.flat (e.place i) = byteAt (s.put j).received i := by
  have hstart : AllPlaced s₀ s₀ := by
    intro k
    obtain ⟨hreceived, hempty⟩ := h₀.empty k
    exact ⟨rfl, fun _ _ i _ hi => by simp [Upload.offset, hreceived] at hi,
      hempty ▸ nil_suffix, by simp [hreceived]⟩
  have hinv := hrun.invariant hstart fun _ _ _ h _ => h.step h₀
  have hcount := (hinv j).counted
  refine ⟨by omega, fun e he i hi => (hinv j).written e he i hi ?_⟩
  have hle := (h₀.tiles j).end_le he
  simp only [Upload.offset, hdata, length_nil, Ext.Has] at hi ⊢
  omega

/-- Each upload has two bytes in one page and one byte in the page before. -/
def twoExtentUploads : Uploads :=
  ⟨[], fun j =>
    { extents := [⟨0, 8192 * j + 4096, 2⟩, ⟨2, 8192 * j, 1⟩]
      putRemaining := 3 }⟩

theorem prepared_twoExtentUploads : twoExtentUploads.Prepared := by
  refine ⟨fun j => ⟨rfl, two_pos, rfl, one_pos, rfl⟩, ?_, ?_,
    fun j => ⟨rfl, rfl⟩⟩
  · simp only [twoExtentUploads, mem_cons, not_mem_nil, or_false,
      forall_eq_or_imp, forall_eq]
    intro j
    constructor <;> constructor <;> simp [Ext.punchItem, blockSize] <;> omega
  · simp only [twoExtentUploads, mem_cons, not_mem_nil, or_false,
      forall_eq_or_imp, forall_eq, SPunchItem.span, Ext.punchItem,
      show roundUp 1 = 4096 by decide, show roundUp 2 = 4096 by decide]
    intro j k
    rcases eq_or_ne j k with rfl | h
    · simp
    · omega

/-- Two threads take a buffer each, which crosses from one extent to the
other, and write in turns. -/
theorem body_placed_twoExtentUploads : ∃ s,
    Run step anyStep twoExtentUploads s ∧ byteAt s.flat 4096 = 5 ∧
      byteAt s.flat 4097 = 6 ∧ byteAt s.flat 0 = 7 := by
  have hexec : exec step twoExtentUploads [.onBodyCPU 0 [5, 6, 7],
    .onBodyCPU 1 [8, 9], .writeExt 1, .writeExt 0, .onBodyCPU 1 [4],
    .writeExt 1, .writeExt 0] = some _ := rfl
  have hplaced := (body_placed prepared_twoExtentUploads
    (run_of_exec hexec) 0 rfl rfl).2
  have hfirst := hplaced _ mem_cons_self
  have hsecond := hplaced _ (mem_cons_of_mem _ mem_cons_self)
  exact ⟨_, run_of_exec hexec, hfirst 0 ⟨le_rfl, two_pos⟩,
    hfirst 1 ⟨zero_le_one, one_lt_two⟩, hsecond 2 ⟨le_rfl, by decide⟩⟩

end Uploads

end Hs5
