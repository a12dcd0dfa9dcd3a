import Mathlib.Data.Int.Notation
import Mathlib.Data.List.Basic
import Mathlib.Tactic.Linarith

/-!
# Lists of parts

An upload record and a completed object list their parts in runs of
consecutive part numbers of one size.  The record of an upload grows by
`addPartExt`, one part at a time and in any order; a completed object gets
the runs that `finalizeMultipartUpload` builds while it reads the parts.
-/

namespace Hs5

open List

/-- `MultiPartDownloadData::PartExt`: `len` parts of `size` bytes, numbered
from `start` on. -/
structure PartExt where
  size : ℤ
  start : ℤ
  len : ℤ
  deriving DecidableEq

namespace PartExt

/-- The part numbers of a run, as the loops over it enumerate them. -/
def numbers (e : PartExt) : List ℤ :=
  (List.range e.len.toNat).map fun i : ℕ => e.start + (i : ℤ)

theorem mem_numbers {e : PartExt} {n : ℤ} :
    n ∈ e.numbers ↔ e.start ≤ n ∧ n < e.start + e.len := by
  simp only [numbers, mem_map, mem_range]
  constructor
  · rintro ⟨i, hi, rfl⟩
    omega
  · rintro ⟨hstart, hlt⟩
    exact ⟨(n - e.start).toNat, by omega, by omega⟩

def Continues (e : PartExt) (partSize partNum : ℤ) : Prop :=
  e.size = partSize ∧ e.start + e.len = partNum
  deriving Decidable

def Splits (e : PartExt) (partNum : ℤ) : Prop :=
  e.start ≥ partNum ∧ e.start + e.len > partNum
  deriving Decidable

end PartExt

def ListsPart (parts : List PartExt) (n : ℤ) : Prop :=
  ∃ e ∈ parts, n ∈ e.numbers

/-! ## Adding a part to an upload record -/

inductive AddPartLoop where
  | returned (parts : List PartExt)
  | finished (parts newParts : List PartExt) (delParts : Bool)

/-- Put a run in front of what the loop leaves. -/
def AddPartLoop.cons (e : PartExt) : AddPartLoop → AddPartLoop
  | .returned parts => .returned (e :: parts)
  | .finished parts newParts delParts =>
    .finished (e :: parts) newParts delParts

/-- Keep the end of a split run aside and note whether nothing is left of its
beginning. -/
def AddPartLoop.keep (newPart : List PartExt) (empty : Bool) :
    AddPartLoop → AddPartLoop
  | .returned parts => .returned parts
  | .finished parts newParts delParts =>
    .finished parts (newPart ++ newParts) (empty || delParts)

/-- The end of a run that is split at `partNum`. -/
def splitEnd (partSize partNum : ℤ) (part : PartExt) : List PartExt :=
  let newPartLen := part.start + part.len - partNum - 1
  if newPartLen > 0 then [⟨partSize, partNum + 1, newPartLen⟩] else []

def addPartLoop (partSize partNum : ℤ) : List PartExt → AddPartLoop
  | [] => .finished [] [] false
  | part :: rest =>
    if part.Continues partSize partNum then
      .returned ({ part with len := part.len + 1 } :: rest)
    else if part.Splits partNum then
      let len := partNum - part.start
      ((addPartLoop partSize partNum rest).keep
        (splitEnd partSize partNum part) (len == 0)).cons
          { part with len := len }
    else (addPartLoop partSize partNum rest).cons part

def addPartExt (parts : List PartExt) (partSize partNum : ℤ) :
    List PartExt :=
  match addPartLoop partSize partNum parts with
  | .returned parts => parts
  | .finished parts newParts delParts =>
    let parts := parts ++ newParts ++ [⟨partSize, partNum, 1⟩]
    if delParts then parts.filter (fun part => part.len > 0) else parts

def cutRun (partNum : ℤ) (e : PartExt) : PartExt :=
  if e.Splits partNum then { e with len := partNum - e.start } else e

/-- Uploading the parts 3, 1 and 2 of one size loses part 3 from the list. -/
example :
    addPartExt (addPartExt (addPartExt [] 5 3) 5 1) 5 2 =
      [⟨5, 3, -2⟩, ⟨5, 2, 0⟩, ⟨5, 1, 2⟩] := by decide

/-! ## The parts of a completed object -/

/-- The runs of the parts read so far, with the last run not closed yet, and
of the parts that follow: the loop over the parts of a completion. -/
def partRuns (lastExt : PartExt) : List (ℤ × ℤ) → List PartExt
  | [] => if lastExt.len > 0 then [lastExt] else []
  | (partNumber, totalLen) :: rest =>
    if lastExt.len = 0 then partRuns ⟨totalLen, partNumber, 1⟩ rest
    else if lastExt.start + lastExt.len = partNumber ∧
        lastExt.size = totalLen then
      partRuns { lastExt with len := lastExt.len + 1 } rest
    else lastExt :: partRuns ⟨totalLen, partNumber, 1⟩ rest

/-- The runs of all parts of a completion, given as numbers and sizes. -/
def completedRuns (parts : List (ℤ × ℤ)) : List PartExt :=
  partRuns ⟨-1, 0, 0⟩ parts

def PartExt.parts (e : PartExt) : List (ℤ × ℤ) :=
  e.numbers.map fun n => (n, e.size)

namespace PartExt

theorem parts_of_nonpos {e : PartExt} (h : e.len ≤ 0) : e.parts = [] := by
  have hlen : e.len.toNat = 0 := by omega
  simp [parts, numbers, hlen]

theorem parts_split {e : PartExt} {k : ℤ} (hk : 0 ≤ k) (hle : k ≤ e.len) :
    e.parts = { e with len := k }.parts ++
      { e with start := e.start + k, len := e.len - k }.parts := by
  have hlen : e.len.toNat = k.toNat + (e.len - k).toNat := by omega
  have hshift : ∀ i : ℕ, e.start + ((k.toNat + i : ℕ) : ℤ) =
      e.start + k + (i : ℤ) := by
    intro i
    omega
  simp only [parts, numbers, hlen, range_add, map_append,
    map_map]
  congr 1
  refine map_congr_left fun i _ => ?_
  simp only [Function.comp_apply, hshift]

theorem parts_of_pos {e : PartExt} (h : 0 < e.len) :
    e.parts = (e.start, e.size) ::
      { e with start := e.start + 1, len := e.len - 1 }.parts := by
  rw [parts_split (by omega : (0 : ℤ) ≤ 1) (by omega)]
  simp [parts, numbers]

end PartExt

theorem flatMap_partRuns {lastExt : PartExt} (hlen : 0 ≤ lastExt.len)
    (parts : List (ℤ × ℤ)) :
    (partRuns lastExt parts).flatMap PartExt.parts =
      lastExt.parts ++ parts := by
  induction parts generalizing lastExt with
  | nil =>
    rw [partRuns, append_nil]
    split
    · simp
    · exact (PartExt.parts_of_nonpos (by omega)).symm
  | cons part rest ih =>
    obtain ⟨n, size⟩ := part
    have hone : (⟨size, n, 1⟩ : PartExt).parts = [(n, size)] := by
      simp [PartExt.parts, PartExt.numbers]
    rw [partRuns]
    split
    · rw [ih (by simp), hone, PartExt.parts_of_nonpos (by omega)]
      rfl
    · split
      · rename_i hcont
        obtain ⟨hnum, hsize⟩ := hcont
        have hsplit := PartExt.parts_split
          (e := { lastExt with len := lastExt.len + 1 }) hlen (by simp)
        have hlast : (⟨lastExt.size, lastExt.start + lastExt.len,
            lastExt.len + 1 - lastExt.len⟩ : PartExt) = ⟨size, n, 1⟩ := by
          rw [hsize, hnum, add_sub_cancel_left]
        rw [hlast, hone] at hsplit
        rw [ih (by simp only; omega), hsplit, append_assoc]
        rfl
      · rw [flatMap_cons, ih (by simp), hone]
        rfl

theorem flatMap_completedRuns (parts : List (ℤ × ℤ)) :
    (completedRuns parts).flatMap PartExt.parts = parts := by
  rw [completedRuns, flatMap_partRuns (le_refl _),
    PartExt.parts_of_nonpos (le_refl _), nil_append]

theorem len_pos_partRuns {lastExt : PartExt} (hlen : 0 ≤ lastExt.len)
    (parts : List (ℤ × ℤ)) : ∀ e ∈ partRuns lastExt parts, 0 < e.len := by
  induction parts generalizing lastExt with
  | nil =>
    intro e he
    rw [partRuns] at he
    split at he
    · rename_i hpos
      rwa [mem_singleton.mp he]
    · exact absurd he not_mem_nil
  | cons part rest ih =>
    obtain ⟨n, size⟩ := part
    intro e he
    rw [partRuns] at he
    split at he
    · exact ih (by simp) e he
    · split at he
      · exact ih (by simp only; omega) e he
      · rcases mem_cons.mp he with rfl | he
        · omega
        · exact ih (by simp) e he

theorem len_pos_completedRuns (parts : List (ℤ × ℤ)) :
    ∀ e ∈ completedRuns parts, 0 < e.len :=
  len_pos_partRuns (le_refl _) parts

end Hs5
