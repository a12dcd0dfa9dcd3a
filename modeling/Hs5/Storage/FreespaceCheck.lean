import Hs5.Storage.Freemap
import Hs5.Support.Bitmap

/-!
# Checking and regenerating the free map

`freespace_check` enters the blocks of all objects, holes, the current write
extent and the free extents into a bitmap with one bit for each block of the
data file, and reports an error if a bit is set twice, if a bit stays unset,
or if the two indexes of the free map do not match.
`generate_freespace_cache` builds the free map from the bits that the others
leave unset.
-/

namespace Hs5

open List Bitmap Cover OrderedMap

/-- What the check reads: the maps, the current write extent and the size of
the data file. -/
structure SpaceMaps where
  main : List IndexValue
  old : List IndexValue
  holes : OrderedMap ℤ ℤ
  free : OrderedMap ℤ ℤ
  freeLen : List (ℤ × ℤ)
  dataFileOffset : ℤ
  dataFileOffsetEnd : ℤ
  dataSize : ℤ

/-- The bits of an extent: from the block of its offset on, as many blocks as
its length needs. -/
def extentBits (offset len : ℤ) : ℤ × ℤ :=
  let startBit := offset.tdiv blockSize
  let lenBits := divUp len blockSize
  (startBit, startBit + lenBits)

def freeBits (p : ℤ × ℤ) : ℤ × ℤ :=
  (p.1.tdiv blockSize, divUp (p.1 + p.2) blockSize)

namespace SpaceMaps

def bitmapSize (m : SpaceMaps) : ℤ := divUp m.dataSize blockSize

def writeLen (m : SpaceMaps) : ℤ :=
  min m.dataSize m.dataFileOffsetEnd - m.dataFileOffset

/-! ## The check -/

def setExtentBmapVal (s : Scan) (v : IndexValue) : Scan :=
  v.extents.foldl (fun s ext => s.mark (extentBits ext.offset ext.len)) s

def setHole (bitmapSize : ℤ) (s : Scan) (hole : ℤ × ℤ) : Scan :=
  let bits := extentBits hole.1 hole.2
  if bits.2 ≥ bitmapSize then s.fail else s.mark bits

/-- An iteration of the second loop over the holes, which only logs a bit that
is not set yet. -/
def setHoleAgain (bitmapSize : ℤ) (s : Scan) (hole : ℤ × ℤ) : Scan :=
  let bits := extentBits hole.1 hole.2
  if bits.2 ≥ bitmapSize then s.fail else s.set bits

def setWriteExtent (m : SpaceMaps) (s : Scan) : Scan :=
  if m.dataFileOffsetEnd > 0 then
    s.mark (extentBits m.dataFileOffset m.writeLen)
  else s

/-- The loop over `dbi_free`.  The lookup in `dbi_free_len` stores its result
in the variable that the loop tests, so that a missing entry ends it. -/
def freeLoop (m : SpaceMaps) : Scan → List (ℤ × ℤ) → Scan
  | s, [] => s
  | s, (offset, len) :: rest =>
    let bits := freeBits (offset, len)
    if bits.2 > m.bitmapSize then m.freeLoop s.fail rest
    else
      let s := s.mark bits
      if (len, offset) ∈ m.freeLen then m.freeLoop s rest else s.fail

/-- The loop over `dbi_free_len`; a missing entry of `dbi_free` ends it. -/
def freeLenLoop (m : SpaceMaps) : Scan → List (ℤ × ℤ) → Scan
  | s, [] => s
  | s, (len, offset) :: rest =>
    match m.free.lookup offset with
    | none => s.fail
    | some tvalLen =>
      if tvalLen = len then m.freeLenLoop s rest
      else m.freeLenLoop s.fail rest

def freespaceCheck (m : SpaceMaps) : Bool :=
  let s := m.main.foldl setExtentBmapVal Scan.start
  if s.ok = false then false
  else
    let s := m.old.foldl setExtentBmapVal s
    let s := m.holes.entries.foldl (setHole m.bitmapSize) s
    let s := m.holes.entries.foldl (setHoleAgain m.bitmapSize) s
    let s := m.setWriteExtent s
    let s := m.freeLoop s m.free.entries
    let s := m.freeLenLoop s m.freeLen
    s.ok && (unsetRuns s.bits m.bitmapSize).isEmpty

/-! ## Generating the free map -/

/-- Enter a range.  With `ignore_errors` a range that meets a set bit is only
logged. -/
def enter (ignoreErrors : Bool) (s : Scan) (bits : ℤ × ℤ) : Scan :=
  ⟨setRange s.bits bits, s.ok && (ignoreErrors || !getRange s.bits bits)⟩

def addExtentBmap (ignoreErrors : Bool) (s : Scan) (v : IndexValue) : Scan :=
  v.extents.foldl
    (fun s ext => enter ignoreErrors s (extentBits ext.offset ext.len)) s

def addFreemapExtSimple (m : SpaceMaps) (offset len : ℤ) : SpaceMaps :=
  let len := roundUp len
  { m with
    free := m.free.insert offset len
    freeLen := putLen m.freeLen (len, offset) }

/-- Store the runs of unset bits as free extents. -/
def addRuns (m : SpaceMaps) (runs : List (ℤ × ℤ)) : SpaceMaps :=
  runs.foldl (fun m run => m.addFreemapExtSimple (run.1 * blockSize)
    ((run.2 - run.1) * blockSize - 1)) m

def clearFreespaceCache (m : SpaceMaps) : SpaceMaps :=
  { m with
    free := OrderedMap.empty
    freeLen := [] }

def generateFreespaceCache (ignoreErrors : Bool) (m : SpaceMaps) :
    Bool × SpaceMaps :=
  let s := m.main.foldl (addExtentBmap ignoreErrors) Scan.start
  if s.ok = false then (false, m)
  else
    let s := m.old.foldl (addExtentBmap ignoreErrors) s
    if s.ok = false then (false, m)
    else
      let s := m.holes.entries.foldl (fun s hole =>
        enter ignoreErrors s (extentBits hole.1 hole.2)) s
      if s.ok = false then (false, m)
      else
        let s :=
          if m.dataFileOffsetEnd > 0 then
            enter ignoreErrors s (extentBits m.dataFileOffset m.writeLen)
          else s
        (s.ok, m.addRuns (unsetRuns s.bits m.bitmapSize))

/-! ## What the check is to find out -/

def objectBits (values : List IndexValue) : List (ℤ × ℤ) :=
  values.flatMap fun v => v.extents.map fun ext =>
    extentBits ext.offset ext.len

def holeBits (m : SpaceMaps) : List (ℤ × ℤ) :=
  m.holes.entries.map fun hole => extentBits hole.1 hole.2

def writeBits (m : SpaceMaps) : List (ℤ × ℤ) :=
  if m.dataFileOffsetEnd > 0 then [extentBits m.dataFileOffset m.writeLen]
  else []

def usedBits (m : SpaceMaps) : List (ℤ × ℤ) :=
  objectBits m.main ++ (objectBits m.old ++ (m.holeBits ++ m.writeBits))

def recordedBits (m : SpaceMaps) : List (ℤ × ℤ) :=
  m.usedBits ++ m.free.entries.map freeBits

def holeItems (m : SpaceMaps) : List SPunchItem :=
  m.holes.entries.map fun hole => ⟨hole.1, hole.2⟩

def writeItems (m : SpaceMaps) : List SPunchItem :=
  if m.dataFileOffsetEnd > 0 then [⟨m.dataFileOffset, m.writeLen⟩] else []

/-- The ranges in use: object extents, holes and the write extent. -/
def used (m : SpaceMaps) : List SPunchItem :=
  m.main.flatMap IndexValue.extents ++
    (m.old.flatMap IndexValue.extents ++ (m.holeItems ++ m.writeItems))

def recorded (m : SpaceMaps) : List SPunchItem :=
  m.used ++ m.free.entries.map fun p => ⟨p.1, p.2⟩

/-- The recorded ranges have no block in common, their blocks are those of the
data file, and the two indexes of the free map are inverse to each other. -/
structure Partitioned (m : SpaceMaps) : Prop where
  disjoint : m.recorded.Pairwise fun e e' => ¬ e.SharesBlock e'
  cover : ∀ b, (∃ e ∈ m.recorded, e.HasBlock b) ↔
    SPunchItem.HasBlock ⟨0, m.dataSize⟩ b
  inverse : ∀ offset len, (offset, len) ∈ m.free ↔ (len, offset) ∈ m.freeLen

/-- No hole has a byte in the last block of the data file. -/
def HolesBeforeEnd (m : SpaceMaps) : Prop :=
  ∀ e ∈ m.holeItems, ¬ e.HasBlock ((m.dataSize - 1) / blockSize)

end SpaceMaps

/-- The range does not reach into one block more than its length needs. -/
structure SPunchItem.Fits (e : SPunchItem) : Prop where
  offset : 0 ≤ e.offset
  len : 0 ≤ e.len
  blocks : 0 < e.len →
    e.offset % blockSize + (e.len - 1) % blockSize < blockSize

namespace SpaceMaps

/-- The ranges in use lie in the data file, where the check has bits. -/
structure UsedInFile (m : SpaceMaps) : Prop where
  dataSize : 0 ≤ m.dataSize
  fits : ∀ e ∈ m.used, e.Fits
  inFile : ∀ e ∈ m.used, e.offset + e.len ≤ roundUp m.dataSize
  holes : ∀ e ∈ m.holeItems, 0 < e.len

structure InFile (m : SpaceMaps) : Prop extends UsedInFile m where
  free : ∀ p ∈ m.free, 0 ≤ p.1 ∧ 0 < p.2

/-! ## Blocks and bits -/

theorem hasBlock_iff_extentBits {e : SPunchItem} (h : e.Fits) (b : ℤ) :
    e.HasBlock b ↔ (extentBits e.offset e.len).1 ≤ b ∧
      b < (extentBits e.offset e.len).2 := by
  have hoffset := h.offset
  have hlen := h.len
  have hblocks := h.blocks
  simp only [extentBits, SPunchItem.HasBlock]
  rw [Int.tdiv_eq_ediv_of_nonneg hoffset, divUp_nonneg hlen]
  unfold blockSize at hblocks ⊢
  constructor
  · rintro ⟨x, hlo, hhi, rfl⟩
    have hfits := hblocks (by omega)
    exact ⟨by omega, by omega⟩
  · rintro ⟨hlo, hhi⟩
    have hfits := hblocks (by omega)
    exact ⟨max e.offset (b * 4096), by omega, by omega, by omega⟩

theorem hasBlock_iff_freeBits {p : ℤ × ℤ} (hoffset : 0 ≤ p.1) (hlen : 0 < p.2)
    (b : ℤ) : SPunchItem.HasBlock ⟨p.1, p.2⟩ b ↔
      (freeBits p).1 ≤ b ∧ b < (freeBits p).2 := by
  simp only [freeBits, SPunchItem.HasBlock]
  rw [Int.tdiv_eq_ediv_of_nonneg hoffset, divUp_nonneg (by omega)]
  unfold blockSize
  constructor
  · rintro ⟨x, hlo, hhi, rfl⟩
    exact ⟨by omega, by omega⟩
  · rintro ⟨hlo, hhi⟩
    exact ⟨max p.1 (b * 4096), by omega, by omega, by omega⟩

section Blocks

variable {m : SpaceMaps}

theorem hasBlock_file (h : 0 ≤ m.dataSize) (b : ℤ) :
    SPunchItem.HasBlock ⟨0, m.dataSize⟩ b ↔ 0 ≤ b ∧ b < m.bitmapSize := by
  simp only [bitmapSize, SPunchItem.HasBlock]
  rw [divUp_nonneg h]
  unfold blockSize
  constructor
  · rintro ⟨x, hlo, hhi, rfl⟩
    exact ⟨by omega, by omega⟩
  · rintro ⟨hlo, hhi⟩
    exact ⟨b * 4096, by omega, by omega, by omega⟩

theorem usedBits_eq (m : SpaceMaps) :
    m.usedBits = m.used.map fun e => extentBits e.offset e.len := by
  have hobjects : ∀ values : List IndexValue, objectBits values =
      (values.flatMap IndexValue.extents).map
        fun e => extentBits e.offset e.len := by
    intro values
    rw [objectBits, map_flatMap]
  have hwrite : m.writeBits =
      m.writeItems.map fun e => extentBits e.offset e.len := by
    unfold writeBits writeItems
    split <;> rfl
  simp only [usedBits, used, map_append, hobjects, hwrite, holeBits,
    holeItems, map_map]
  rfl

/-- Every recorded range beside the bits the check takes for it. -/
def paired (m : SpaceMaps) : List (SPunchItem × (ℤ × ℤ)) :=
  m.used.map (fun e => (e, extentBits e.offset e.len)) ++
    m.free.entries.map fun p => (⟨p.1, p.2⟩, freeBits p)

theorem map_fst_paired (m : SpaceMaps) :
    m.paired.map Prod.fst = m.recorded := by
  simp only [paired, recorded, map_append, map_map]
  congr 1
  exact map_id' m.used

theorem map_snd_paired (m : SpaceMaps) :
    m.paired.map Prod.snd = m.recordedBits := by
  simp only [paired, recordedBits, usedBits_eq, map_append, map_map]
  rfl

theorem InFile.hasBlock_iff (h : m.InFile) :
    ∀ q ∈ m.paired, ∀ b, q.1.HasBlock b ↔ q.2.1 ≤ b ∧ b < q.2.2 := by
  intro q hq b
  rcases mem_append.mp hq with hq | hq
  · obtain ⟨e, he, rfl⟩ := mem_map.mp hq
    exact hasBlock_iff_extentBits (h.fits e he) b
  · obtain ⟨p, hp, rfl⟩ := mem_map.mp hq
    exact hasBlock_iff_freeBits (h.free p hp).1 (h.free p hp).2 b

/-- Ranges without a common block are those with disjoint bits. -/
theorem pairwise_iff (pairs : List (SPunchItem × (ℤ × ℤ)))
    (h : ∀ q ∈ pairs, ∀ b, q.1.HasBlock b ↔ q.2.1 ≤ b ∧ b < q.2.2) :
    (pairs.map Prod.fst).Pairwise (fun e e' => ¬ e.SharesBlock e') ↔
      PairwiseDisjoint (pairs.map Prod.snd) := by
  rw [PairwiseDisjoint, pairwise_map, pairwise_map]
  refine List.Pairwise.iff_of_mem fun {q q'} hq hq' => ?_
  rw [Set.disjoint_left, SPunchItem.SharesBlock, not_exists]
  refine forall_congr' fun b => ?_
  rw [h q hq, h q' hq', not_and]
  rfl

theorem InFile.disjoint_iff (h : m.InFile) :
    m.recorded.Pairwise (fun e e' => ¬ e.SharesBlock e') ↔
      PairwiseDisjoint m.recordedBits := by
  rw [← map_fst_paired, ← map_snd_paired]
  exact pairwise_iff _ h.hasBlock_iff

theorem InFile.exists_hasBlock_iff (h : m.InFile) (b : ℤ) :
    (∃ e ∈ m.recorded, e.HasBlock b) ↔ 0 < mult m.recordedBits b := by
  rw [← map_fst_paired, ← map_snd_paired, mult_pos_iff]
  constructor
  · rintro ⟨e, he, hb⟩
    obtain ⟨q, hq, rfl⟩ := mem_map.mp he
    exact ⟨q.2, mem_map_of_mem hq, (h.hasBlock_iff q hq b).mp hb⟩
  · rintro ⟨bits, hbits, hb⟩
    obtain ⟨q, hq, rfl⟩ := mem_map.mp hbits
    exact ⟨q.1, mem_map_of_mem hq, (h.hasBlock_iff q hq b).mpr hb⟩

theorem UsedInFile.holesBeforeEnd_iff (h : m.UsedInFile) :
    m.HolesBeforeEnd ↔ ∀ bits ∈ m.holeBits, bits.2 < m.bitmapSize := by
  have hsize : m.bitmapSize = (m.dataSize + 4095) / 4096 :=
    divUp_nonneg h.dataSize
  have hround := roundUp_nonneg h.dataSize
  have hbits : m.holeBits =
      m.holeItems.map fun e => extentBits e.offset e.len := by
    simp only [holeBits, holeItems, map_map]
    rfl
  rw [hbits, forall_mem_map]
  refine forall₂_congr fun e he => ?_
  have hused : e ∈ m.used := mem_append_right _
    (mem_append_right _ (mem_append_left _ he))
  have hfits := h.fits e hused
  have hpos := h.holes e he
  have hin := h.inFile e hused
  have hoffset := hfits.offset
  have hblocks := hfits.blocks hpos
  rw [hasBlock_iff_extentBits hfits]
  simp only [extentBits]
  rw [Int.tdiv_eq_ediv_of_nonneg hoffset, divUp_nonneg hfits.len]
  unfold blockSize at hblocks ⊢
  omega

theorem UsedInFile.bits_in_file (h : m.UsedInFile) {bits : ℤ × ℤ}
    (hbits : bits ∈ m.usedBits) {b : ℤ} (hlo : bits.1 ≤ b)
    (hhi : b < bits.2) : 0 ≤ b ∧ b < m.bitmapSize := by
  rw [usedBits_eq] at hbits
  obtain ⟨e, he, rfl⟩ := mem_map.mp hbits
  obtain ⟨x, hx, hx', rfl⟩ :=
    (hasBlock_iff_extentBits (h.fits e he) b).mpr ⟨hlo, hhi⟩
  have hoffset := (h.fits e he).offset
  have hin := h.inFile e he
  have hround := roundUp_nonneg h.dataSize
  rw [bitmapSize, divUp_nonneg h.dataSize]
  unfold blockSize
  exact ⟨by omega, by omega⟩

end Blocks

/-! ## What the loops find out -/

section Loops

variable {m : SpaceMaps}

theorem marked_objects (s : Scan) (values : List IndexValue) :
    Marked s (values.foldl setExtentBmapVal s) (objectBits values) True := by
  have hval : ∀ s v, Marked s (setExtentBmapVal s v)
      (v.extents.map fun ext => extentBits ext.offset ext.len) True := by
    intro s v
    refine Marked.congr (marked_foldl_map (fun s (ext : SPunchItem) =>
      marked_mark s (extentBits ext.offset ext.len)) s v.extents) ?_
    simp
  exact (marked_foldl hval s values).congr (by simp)

theorem marked_setHole (n : ℤ) (s : Scan) (hole : ℤ × ℤ) :
    Marked s (setHole n s hole) [extentBits hole.1 hole.2]
      ((extentBits hole.1 hole.2).2 < n) := by
  unfold setHole
  by_cases hlarge : (extentBits hole.1 hole.2).2 ≥ n
  · dsimp only
    rw [if_pos hlarge]
    exact marked_of_failed rfl (by omega)
  · dsimp only
    rw [if_neg hlarge]
    exact (marked_mark s _).congr (by simp only [true_iff]; omega)

theorem foldl_setHoleAgain {n : ℤ} {s : Scan} {holes : List (ℤ × ℤ)}
    (hsize : ∀ hole ∈ holes, (extentBits hole.1 hole.2).2 < n)
    (hset : ∀ hole ∈ holes, ∀ x, (extentBits hole.1 hole.2).1 ≤ x →
      x < (extentBits hole.1 hole.2).2 → s.bits x = true) :
    holes.foldl (setHoleAgain n) s = s := by
  induction holes with
  | nil => rfl
  | cons hole rest ih =>
    have hhead : setHoleAgain n s hole = s := by
      have hless := hsize hole mem_cons_self
      rw [setHoleAgain, if_neg (by omega), Scan.set]
      have hbits : setRange s.bits (extentBits hole.1 hole.2) = s.bits := by
        funext x
        rw [setRange]
        split
        · rename_i hx
          exact (hset hole mem_cons_self x hx.1 hx.2).symm
        · rfl
      rw [hbits]
    rw [foldl_cons, hhead]
    exact ih (fun h hh => hsize h (mem_cons_of_mem _ hh))
      fun h hh => hset h (mem_cons_of_mem _ hh)

theorem ok_foldl_setHoleAgain (n : ℤ) {s : Scan} (hok : s.ok = false)
    (holes : List (ℤ × ℤ)) : (holes.foldl (setHoleAgain n) s).ok = false := by
  induction holes generalizing s with
  | nil => exact hok
  | cons hole rest ih =>
    refine ih ?_
    rw [setHoleAgain]
    split
    · rfl
    · exact hok

section

variable (m : SpaceMaps)

theorem marked_holes (s : Scan) :
    Marked s (m.holes.entries.foldl (setHoleAgain m.bitmapSize)
        (m.holes.entries.foldl (setHole m.bitmapSize) s)) m.holeBits
      (∀ hole ∈ m.holes.entries,
        (extentBits hole.1 hole.2).2 < m.bitmapSize) := by
  have hfirst := marked_foldl_map (marked_setHole m.bitmapSize) s
    m.holes.entries
  rcases Bool.eq_false_or_eq_true
      (m.holes.entries.foldl (setHole m.bitmapSize) s).ok with hok | hok
  · rw [foldl_setHoleAgain (hfirst.ok_iff.mp hok).2.1]
    · exact hfirst
    · intro hole hhole x hlo hhi
      have hx := (hfirst.ok_iff.mp hok).2.2 x
      have hin : (extentBits hole.1 hole.2) ∈
          m.holes.entries.map fun hole => extentBits hole.1 hole.2 :=
        mem_map_of_mem hhole
      have hone := ind_le_mult hin x
      rw [ind, if_pos ⟨hlo, hhi⟩] at hone
      rw [← Scan.count_eq_one, hfirst.count hok x]
      omega
  · have hfail := ok_foldl_setHoleAgain m.bitmapSize hok m.holes.entries
    refine ⟨?_, fun h => absurd (hfail.symm.trans h) Bool.false_ne_true⟩
    rw [hfail, ← hok]
    exact hfirst.ok_iff

theorem marked_setWriteExtent (s : Scan) :
    Marked s (m.setWriteExtent s) m.writeBits True := by
  unfold setWriteExtent writeBits
  split
  · exact marked_mark s _
  · exact marked_refl s

theorem marked_freeLoop (s : Scan) (entries : List (ℤ × ℤ)) :
    Marked s (m.freeLoop s entries) (entries.map freeBits)
      (∀ p ∈ entries, (freeBits p).2 ≤ m.bitmapSize ∧
        (p.2, p.1) ∈ m.freeLen) := by
  induction entries generalizing s with
  | nil => exact (marked_refl s).congr (by simp)
  | cons p rest ih =>
    obtain ⟨offset, len⟩ := p
    rw [freeLoop]
    dsimp only
    by_cases hlarge : (freeBits (offset, len)).2 > m.bitmapSize
    · rw [if_pos hlarge]
      refine marked_of_failed (ih s.fail).ok_of_fail fun hall => ?_
      have := (hall _ mem_cons_self).1
      omega
    · rw [if_neg hlarge]
      by_cases hlen : (len, offset) ∈ m.freeLen
      · rw [if_pos hlen]
        refine Marked.congr ((marked_mark s _).trans (ih _)) ?_
        simp only [forall_mem_cons, hlen, and_true, true_and]
        exact (and_iff_right (by omega)).symm
      · rw [if_neg hlen]
        exact marked_of_failed rfl fun hall =>
          hlen (hall _ mem_cons_self).2

theorem marked_freeLenLoop (s : Scan) (entries : List (ℤ × ℤ)) :
    Marked s (m.freeLenLoop s entries) []
      (∀ p ∈ entries, (p.2, p.1) ∈ m.free) := by
  induction entries generalizing s with
  | nil => exact (marked_refl s).congr (by simp)
  | cons p rest ih =>
    obtain ⟨len, offset⟩ := p
    rw [freeLenLoop]
    rcases hlookup : m.free.lookup offset with _ | tvalLen
    · refine marked_of_failed rfl fun hall => ?_
      have hmem := hall _ mem_cons_self
      rw [lookup_eq_some.mpr hmem] at hlookup
      exact Option.some_ne_none _ hlookup
    · have hmem := lookup_eq_some.mp hlookup
      dsimp only
      by_cases hsame : tvalLen = len
      · rw [if_pos hsame]
        refine (ih s).congr ?_
        rw [forall_mem_cons]
        exact (and_iff_right (hsame ▸ hmem)).symm
      · rw [if_neg hsame]
        refine marked_of_failed (ih s.fail).ok_of_fail fun hall => hsame ?_
        have hfound := hall _ mem_cons_self
        rw [lookup_eq_some.mpr hfound] at hlookup
        exact (Option.some.inj hlookup).symm

/-- The scan behind the loop over the objects in `dbi_main`. -/
def scanRest (m : SpaceMaps) (s : Scan) : Scan :=
  let s := m.old.foldl setExtentBmapVal s
  let s := m.holes.entries.foldl (setHole m.bitmapSize) s
  let s := m.holes.entries.foldl (setHoleAgain m.bitmapSize) s
  let s := m.setWriteExtent s
  m.freeLenLoop (m.freeLoop s m.free.entries) m.freeLen

theorem marked_scanRest (s : Scan) : Marked s (m.scanRest s)
      (objectBits m.old ++ (m.holeBits ++ (m.writeBits ++
        (m.free.entries.map freeBits ++ []))))
      (True ∧ (∀ hole ∈ m.holes.entries,
          (extentBits hole.1 hole.2).2 < m.bitmapSize) ∧ True ∧
        (∀ p ∈ m.free.entries, (freeBits p).2 ≤ m.bitmapSize ∧
          (p.2, p.1) ∈ m.freeLen) ∧
        ∀ p ∈ m.freeLen, (p.2, p.1) ∈ m.free) :=
  (marked_objects s m.old).trans ((m.marked_holes _).trans
    ((m.marked_setWriteExtent _).trans ((m.marked_freeLoop _ _).trans
      (m.marked_freeLenLoop _ _))))

theorem freespaceCheck_eq_true : m.freespaceCheck = true ↔
      ((∀ bits ∈ m.holeBits, bits.2 < m.bitmapSize) ∧
        (∀ p ∈ m.free, (freeBits p).2 ≤ m.bitmapSize) ∧
        ∀ offset len, (offset, len) ∈ m.free ↔ (len, offset) ∈ m.freeLen) ∧
      PairwiseDisjoint m.recordedBits ∧
      ∀ x, 0 ≤ x → x < m.bitmapSize → 0 < mult m.recordedBits x := by
  set s₁ := m.main.foldl setExtentBmapVal Scan.start with hs₁
  set s := m.scanRest s₁ with hs
  have hmain := marked_objects Scan.start m.main
  rw [← hs₁] at hmain
  have hrest := m.marked_scanRest s₁
  rw [← hs] at hrest
  have hscan := hmain.trans hrest
  have hall : objectBits m.main ++ (objectBits m.old ++ (m.holeBits ++
      (m.writeBits ++ (m.free.entries.map freeBits ++ [])))) =
        m.recordedBits := by
    simp [recordedBits, usedBits]
  rw [hall] at hscan
  have hcheck : m.freespaceCheck = true ↔
      s.ok = true ∧ unsetRuns s.bits m.bitmapSize = [] := by
    have hdef : m.freespaceCheck = if s₁.ok = false then false
        else s.ok && (unsetRuns s.bits m.bitmapSize).isEmpty := rfl
    rw [hdef]
    rcases Bool.eq_false_or_eq_true s₁.ok with hok | hok
    · simp [hok]
    · have hfail : s.ok ≠ true := fun h =>
        absurd (hok.symm.trans (hrest.ok_iff.mp h).1) Bool.false_ne_true
      simp [hok, hfail]
  have hcond : (True ∧ True ∧ (∀ hole ∈ m.holes.entries,
        (extentBits hole.1 hole.2).2 < m.bitmapSize) ∧ True ∧
      (∀ p ∈ m.free.entries, (freeBits p).2 ≤ m.bitmapSize ∧
        (p.2, p.1) ∈ m.freeLen) ∧
      ∀ p ∈ m.freeLen, (p.2, p.1) ∈ m.free) ↔
      (∀ bits ∈ m.holeBits, bits.2 < m.bitmapSize) ∧
        (∀ p ∈ m.free, (freeBits p).2 ≤ m.bitmapSize) ∧
        ∀ offset len, (offset, len) ∈ m.free ↔ (len, offset) ∈ m.freeLen := by
    constructor
    · rintro ⟨-, -, hholes, -, hfree, hlen⟩
      refine ⟨?_, fun p hp => (hfree p hp).1, fun offset len =>
        ⟨fun hp => (hfree _ hp).2, fun hp => hlen _ hp⟩⟩
      intro bits hbits
      obtain ⟨hole, hhole, rfl⟩ := mem_map.mp hbits
      exact hholes hole hhole
    · rintro ⟨hholes, hfree, hinv⟩
      refine ⟨trivial, trivial, fun hole hhole => ?_, trivial,
        fun p hp => ⟨hfree p hp, (hinv p.1 p.2).mp hp⟩,
        fun p hp => (hinv p.2 p.1).mpr hp⟩
      exact hholes _ (mem_map_of_mem hhole)
  rw [hcheck, unsetRuns_eq_nil, ← hcond]
  constructor
  · rintro ⟨hok, hset⟩
    obtain ⟨hC, hdisjoint⟩ := hscan.of_start.mp hok
    refine ⟨hC, hdisjoint, fun x hlo hhi => ?_⟩
    have hone := Scan.count_eq_one.mpr (hset x hlo hhi)
    rw [hscan.count hok x, Scan.count_start] at hone
    omega
  · rintro ⟨hC, hdisjoint, hcover⟩
    have hok := hscan.of_start.mpr ⟨hC, hdisjoint⟩
    refine ⟨hok, fun x hlo hhi => ?_⟩
    have hle := pairwiseDisjoint_iff.mp hdisjoint x
    have hpos := hcover x hlo hhi
    rw [← Scan.count_eq_one, hscan.count hok x, Scan.count_start]
    omega

end

theorem InFile.bits_in_file (h : m.InFile) :
    (∀ p ∈ m.free, (freeBits p).2 ≤ m.bitmapSize) ↔
      ∀ b, 0 < mult m.recordedBits b → 0 ≤ b ∧ b < m.bitmapSize := by
  constructor
  · intro hfree b hb
    obtain ⟨bits, hbits, hlo, hhi⟩ := exists_of_mult_pos hb
    rcases mem_append.mp hbits with hused | hmem
    · exact h.toUsedInFile.bits_in_file hused hlo hhi
    · obtain ⟨p, hp, rfl⟩ := mem_map.mp hmem
      have hnonneg : 0 ≤ (freeBits p).1 := by
        rw [freeBits, Int.tdiv_eq_ediv_of_nonneg (h.free p hp).1]
        have hoffset := (h.free p hp).1
        unfold blockSize
        omega
      exact ⟨hnonneg.trans hlo, hhi.trans_le (hfree p hp)⟩
  · intro hall p hp
    obtain ⟨hoffset, hlen⟩ := h.free p hp
    have hblock : SPunchItem.HasBlock ⟨p.1, p.2⟩ ((freeBits p).2 - 1) := by
      refine (hasBlock_iff_freeBits hoffset hlen _).mpr ⟨?_, by omega⟩
      rw [freeBits, Int.tdiv_eq_ediv_of_nonneg hoffset,
        divUp_nonneg (by omega)]
      unfold blockSize
      omega
    have hmem : (⟨p.1, p.2⟩ : SPunchItem) ∈ m.recorded :=
      mem_append_right _ (mem_map.mpr ⟨p, hp, rfl⟩)
    have hin := hall _ ((h.exists_hasBlock_iff _).mp ⟨_, hmem, hblock⟩)
    omega

/-- The check finds out whether the ranges partition the data file and no hole
reaches its end. -/
theorem freespaceCheck_iff (h : m.InFile) :
    m.freespaceCheck = true ↔ m.Partitioned ∧ m.HolesBeforeEnd := by
  rw [freespaceCheck_eq_true, ← h.toUsedInFile.holesBeforeEnd_iff,
    h.bits_in_file, ← h.disjoint_iff]
  have hfile := hasBlock_file (m := m) h.dataSize
  constructor
  · rintro ⟨⟨hholes, hinside, hinv⟩, hdisjoint, hcover⟩
    refine ⟨⟨hdisjoint, fun b => ?_, hinv⟩, hholes⟩
    rw [h.exists_hasBlock_iff, hfile]
    exact ⟨hinside b, fun hb => hcover b hb.1 hb.2⟩
  · rintro ⟨hpart, hholes⟩
    have hblock : ∀ b, 0 < mult m.recordedBits b ↔
        0 ≤ b ∧ b < m.bitmapSize := fun b => by
      rw [← h.exists_hasBlock_iff, hpart.cover, hfile]
    exact ⟨⟨hholes, fun b => (hblock b).mp, hpart.inverse⟩, hpart.disjoint,
      fun b hlo hhi => (hblock b).mpr ⟨hlo, hhi⟩⟩

end Loops

/-! ## The generated free map -/

section Generate

variable {m : SpaceMaps} {runs : List (ℤ × ℤ)}

/-- The free extent stored for a run of blocks. -/
def freeEntry (run : ℤ × ℤ) : ℤ × ℤ :=
  (run.1 * blockSize, (run.2 - run.1) * blockSize)

theorem addFreemapExtSimple_run {run : ℤ × ℤ} (hrun : run.1 < run.2) :
    m.addFreemapExtSimple (run.1 * blockSize)
        ((run.2 - run.1) * blockSize - 1) =
      { m with
        free := m.free.insert (freeEntry run).1 (freeEntry run).2
        freeLen := putLen m.freeLen ((freeEntry run).2, (freeEntry run).1) } := by
  have hround : roundUp ((run.2 - run.1) * blockSize - 1) =
      (run.2 - run.1) * blockSize := by
    unfold blockSize
    rw [roundUp_nonneg (by omega)]
    omega
  rw [addFreemapExtSimple, hround]
  rfl

theorem freeBits_freeEntry {run : ℤ × ℤ} (hlo : 0 ≤ run.1)
    (hlt : run.1 < run.2) : freeBits (freeEntry run) = run := by
  have hfirst : (run.1 * blockSize).tdiv blockSize = run.1 :=
    Int.mul_tdiv_cancel _ (by decide)
  have hend : run.1 * blockSize + (run.2 - run.1) * blockSize =
      run.2 * blockSize := by
    rw [← add_mul, add_sub_cancel]
  have hlast : divUp (run.2 * blockSize) blockSize = run.2 := by
    rw [divUp_nonneg (by unfold blockSize; omega)]
    unfold blockSize
    omega
  rw [freeBits, freeEntry, hfirst, hend, hlast]

theorem perm_addRuns (hlt : ∀ run ∈ runs, run.1 < run.2)
    (hapart : runs.Pairwise fun r r' => r.1 ≠ r'.1)
    (hfresh : ∀ run ∈ runs, ∀ p ∈ m.free, p.1 ≠ (freeEntry run).1) :
    (m.addRuns runs).free.entries.Perm
      (runs.map freeEntry ++ m.free.entries) := by
  induction runs generalizing m with
  | nil => exact List.Perm.refl _
  | cons run rest ih =>
    obtain ⟨hfirst, hapart⟩ := pairwise_cons.mp hapart
    have hadd : m.addRuns (run :: rest) = addRuns
        { m with
          free := m.free.insert (freeEntry run).1 (freeEntry run).2
          freeLen := putLen m.freeLen
            ((freeEntry run).2, (freeEntry run).1) } rest := by
      rw [addRuns, foldl_cons,
        addFreemapExtSimple_run (hlt run mem_cons_self)]
      rfl
    have hperm := m.free.perm_insert (freeEntry run).1 (freeEntry run).2
    rw [erase_eq_self (hfresh run mem_cons_self)] at hperm
    rw [hadd]
    refine (ih (fun r hr => hlt r (mem_cons_of_mem _ hr)) hapart
      ?_).trans ?_
    · intro r hr p hp
      rcases mem_insert.mp hp with rfl | ⟨hp, -⟩
      · have hne := hfirst r hr
        simp only [freeEntry, blockSize] at hne ⊢
        omega
      · exact hfresh r (mem_cons_of_mem _ hr) p hp
    · rw [map_cons, cons_append]
      exact (hperm.append_left _).trans perm_middle

theorem mem_freeLen_addRuns (hlt : ∀ run ∈ runs, run.1 < run.2)
    {p : ℤ × ℤ} : p ∈ (m.addRuns runs).freeLen ↔
      p ∈ m.freeLen ∨ ∃ run ∈ runs, p = (freeEntry run).swap := by
  induction runs generalizing m with
  | nil => simp [addRuns]
  | cons run rest ih =>
    have hrest : ∀ r ∈ rest, r.1 < r.2 := fun r hr =>
      hlt r (mem_cons_of_mem _ hr)
    rw [addRuns, foldl_cons,
      addFreemapExtSimple_run (hlt run mem_cons_self)]
    refine (ih hrest).trans ?_
    rw [mem_putLen]
    simp only [mem_cons, exists_eq_or_imp]
    rw [← or_assoc, or_comm (a := p = _)]
    rfl

theorem addRuns_used (m : SpaceMaps) (runs : List (ℤ × ℤ)) :
    (m.addRuns runs).usedBits = m.usedBits ∧
      (m.addRuns runs).holeBits = m.holeBits ∧
      (m.addRuns runs).bitmapSize = m.bitmapSize := by
  induction runs generalizing m with
  | nil => exact ⟨rfl, rfl, rfl⟩
  | cons run rest ih => exact ih _

theorem enter_eq_mark {ignoreErrors : Bool} {s : Scan} {bits : ℤ × ℤ}
    (hok : (s.mark bits).ok = true) :
    s.ok = true ∧ enter ignoreErrors s bits = s.mark bits := by
  have hboth := hok
  simp only [Scan.mark, Bool.and_eq_true, Bool.not_eq_true'] at hboth
  refine ⟨hboth.1, ?_⟩
  simp [enter, Scan.mark, hboth.1, hboth.2]

theorem addExtentBmap_eq {ignoreErrors : Bool} {s : Scan} {v : IndexValue}
    (hok : (setExtentBmapVal s v).ok = true) :
    s.ok = true ∧ addExtentBmap ignoreErrors s v = setExtentBmapVal s v :=
  foldl_eq_of_ok (fun _ _ => enter_eq_mark) hok

def usedScan (m : SpaceMaps) : Scan :=
  let s := m.main.foldl setExtentBmapVal Scan.start
  let s := m.old.foldl setExtentBmapVal s
  let s := m.holes.entries.foldl
    (fun s hole => s.mark (extentBits hole.1 hole.2)) s
  m.setWriteExtent s

theorem marked_usedScan (m : SpaceMaps) :
    Marked Scan.start m.usedScan m.usedBits True :=
  Marked.congr ((marked_objects _ m.main).trans
    ((marked_objects _ m.old).trans ((marked_foldl_map (fun s (hole : ℤ × ℤ) =>
        marked_mark s (extentBits hole.1 hole.2)) _ m.holes.entries).trans
          (m.marked_setWriteExtent _)))) (by simp)

/-- If the blocks in use are disjoint, generating the free map stores the runs
of the other blocks. -/
theorem generateFreespaceCache_eq (ignoreErrors : Bool)
    (hok : m.usedScan.ok = true) :
    m.generateFreespaceCache ignoreErrors =
      (true, m.addRuns (unsetRuns m.usedScan.bits m.bitmapSize)) := by
  set s₁ := m.main.foldl setExtentBmapVal Scan.start with hs₁
  set s₂ := m.old.foldl setExtentBmapVal s₁ with hs₂
  set s₃ := m.holes.entries.foldl
    (fun s hole => s.mark (extentBits hole.1 hole.2)) s₂ with hs₃
  have hused : m.usedScan = m.setWriteExtent s₃ := rfl
  have hwrite : s₃.ok = true ∧ (if m.dataFileOffsetEnd > 0 then
      enter ignoreErrors s₃ (extentBits m.dataFileOffset m.writeLen)
      else s₃) = m.usedScan := by
    rw [hused] at hok ⊢
    unfold setWriteExtent at hok ⊢
    split at hok
    · rename_i hend
      rw [if_pos hend, if_pos hend]
      exact enter_eq_mark hok
    · rename_i hend
      rw [if_neg hend, if_neg hend]
      exact ⟨hok, rfl⟩
  obtain ⟨hok₂, hholes⟩ := foldl_eq_of_ok (g := fun s (hole : ℤ × ℤ) =>
    enter ignoreErrors s (extentBits hole.1 hole.2))
    (fun _ _ => enter_eq_mark) hwrite.1
  obtain ⟨hok₁, hold⟩ := foldl_eq_of_ok (g := addExtentBmap ignoreErrors)
    (fun _ _ => addExtentBmap_eq) hok₂
  obtain ⟨-, hmain⟩ := foldl_eq_of_ok (g := addExtentBmap ignoreErrors)
    (fun _ _ => addExtentBmap_eq) hok₁
  unfold generateFreespaceCache
  dsimp only
  rw [hmain, ← hs₁, if_neg (by simp [hok₁]), hold, ← hs₂,
    if_neg (by simp [hok₂]), hholes, ← hs₃, if_neg (by simp [hwrite.1]),
    hwrite.2, hok]

theorem freespaceCheck_generated (hdisjoint : PairwiseDisjoint m.usedBits)
    (hfree : m.free = OrderedMap.empty) (hfreeLen : m.freeLen = [])
    (ignoreErrors : Bool) :
    (m.generateFreespaceCache ignoreErrors).1 = true ∧
      ((m.generateFreespaceCache ignoreErrors).2.freespaceCheck = true ↔
        ∀ bits ∈ m.holeBits, bits.2 < m.bitmapSize) := by
  have hscan := m.marked_usedScan
  have hok : m.usedScan.ok = true := hscan.of_start.mpr ⟨trivial, hdisjoint⟩
  have hcount : ∀ x, m.usedScan.count x = mult m.usedBits x := by
    intro x
    rw [hscan.count hok x, Scan.count_start, zero_add]
  set runs := unsetRuns m.usedScan.bits m.bitmapSize with hruns
  have hmem : ∀ run ∈ runs, 0 ≤ run.1 ∧ run.1 < run.2 ∧
      run.2 ≤ m.bitmapSize := fun run hrun => mem_unsetRuns hrun
  have hlt : ∀ run ∈ runs, run.1 < run.2 := fun run hrun =>
    (hmem run hrun).2.1
  have hapart := pairwise_unsetRuns m.usedScan.bits m.bitmapSize
  have hperm := perm_addRuns (m := m) hlt hapart (by
    rw [hfree]
    exact fun _ _ p hp => absurd hp not_mem_nil)
  rw [hfree, show (OrderedMap.empty : OrderedMap ℤ ℤ).entries = [] from rfl,
    append_nil] at hperm
  have hentry : ∀ p, p ∈ (m.addRuns runs).free ↔
      ∃ run ∈ runs, freeEntry run = p := by
    intro p
    rw [mem_def, hperm.mem_iff, mem_map]
  obtain ⟨hused, hholes, hsize⟩ := m.addRuns_used runs
  have hrecorded : ∀ x, mult (m.addRuns runs).recordedBits x =
      mult m.usedBits x + mult runs x := by
    intro x
    have hback : (runs.map freeEntry).map freeBits = runs := by
      rw [map_map]
      refine (map_congr_left fun run hrun => ?_).trans (map_id _)
      exact freeBits_freeEntry (hmem run hrun).1 (hlt run hrun)
    rw [recordedBits, mult_append, hused,
      mult_perm (hperm.map freeBits) x, hback]
  have hone : ∀ x, mult (m.addRuns runs).recordedBits x ≤ 1 ∧
      (0 ≤ x → x < m.bitmapSize →
        0 < mult (m.addRuns runs).recordedBits x) := by
    intro x
    rw [hrecorded, ← hcount, hruns]
    exact m.usedScan.count_add_unsetRuns m.bitmapSize x
  rw [generateFreespaceCache_eq ignoreErrors hok]
  refine ⟨rfl, (freespaceCheck_eq_true _).trans ?_⟩
  rw [hholes, hsize]
  refine ⟨fun h => h.1.1, fun hend => ⟨⟨hend, ?_, ?_⟩,
    pairwiseDisjoint_iff.mpr fun x => (hone x).1,
    fun x hlo hhi => (hone x).2 hlo hhi⟩⟩
  · intro p hp
    obtain ⟨run, hrun, rfl⟩ := (hentry p).mp hp
    obtain ⟨hlo, hless, hhi⟩ := hmem run hrun
    rw [freeBits_freeEntry hlo hless]
    exact hhi
  · intro offset len
    rw [hentry, mem_freeLen_addRuns hlt, hfreeLen]
    simp only [not_mem_nil, false_or]
    refine exists_congr fun run => and_congr_right fun _ => ?_
    rw [Prod.ext_iff, Prod.ext_iff, and_comm]
    exact and_congr eq_comm eq_comm

/-- An object, a hole, the write extent and a free extent, one block each. -/
def fourBlocks : SpaceMaps where
  main := [⟨0, 100, [], 0, []⟩]
  old := []
  holes := OrderedMap.empty.insert blockSize blockSize
  free := OrderedMap.empty.insert (3 * blockSize) blockSize
  freeLen := [(blockSize, 3 * blockSize)]
  dataFileOffset := 2 * blockSize
  dataFileOffsetEnd := 3 * blockSize
  dataSize := 4 * blockSize

/-- An object in the first block of a file of two blocks and a hole in the
second. -/
def holeAtEnd : SpaceMaps where
  main := [⟨0, 100, [], 0, []⟩]
  old := []
  holes := OrderedMap.empty.insert blockSize blockSize
  free := OrderedMap.empty
  freeLen := []
  dataFileOffset := 0
  dataFileOffsetEnd := -1
  dataSize := 2 * blockSize

end Generate

end SpaceMaps

end Hs5
