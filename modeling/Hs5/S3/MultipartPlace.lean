import Hs5.S3.MultipartRead
import Hs5.Support.Slice

/-!
# The place of a multipart download

The runs of a completed object list its parts in order, and the bytes of the
object are those of the parts, one after the other.  A download is described
by the parts it has still ahead: together with the parts before them they are
all parts, and the extents at hand are those of the first part ahead, moved to
where that part begins.  Seeking finds this place for the first byte of a
range, reading from an extent yields the bytes of the object there, and where
the extents end the next part is the one to read.
-/

namespace Hs5

open Option List Slice

/-! ## Parts and their bytes -/

def totalSize (parts : List (ℤ × ℤ)) : ℤ := (parts.map Prod.snd).sum

@[simp] theorem totalSize_nil : totalSize [] = 0 := rfl

@[simp] theorem totalSize_cons (p : ℤ × ℤ) (parts : List (ℤ × ℤ)) :
    totalSize (p :: parts) = p.2 + totalSize parts := by
  simp [totalSize]

@[simp] theorem totalSize_append (parts parts' : List (ℤ × ℤ)) :
    totalSize (parts ++ parts') = totalSize parts + totalSize parts' := by
  simp [totalSize]

theorem PartExt.totalSize_parts {e : PartExt} (h : 0 ≤ e.len) :
    totalSize e.parts = e.size * e.len := by
  have hlen : (e.len.toNat : ℤ) = e.len := Int.toNat_of_nonneg h
  simp [totalSize, parts, numbers, Function.comp_def, hlen, mul_comm]

/-- The bytes of extents, one after the other. -/
def extentsData (dataFile : ℤ → UInt8) (extents : List Ext) : Bytes :=
  extents.flatMap fun e => readData dataFile e.dataFileOffset e.len

def PartStorage.partData (sfs : PartStorage) (n : ℤ) : Bytes :=
  extentsData sfs.dataFile ((sfs.readPrepare n).getD [])

def PartStorage.objectData (sfs : PartStorage) (parts : List (ℤ × ℤ)) :
    Bytes :=
  parts.flatMap fun p => sfs.partData p.1

/-- Every part of the list is stored, with extents for a positive number of
bytes. -/
def PartStorage.Stores (sfs : PartStorage) (parts : List (ℤ × ℤ)) : Prop :=
  ∀ p ∈ parts, 0 < p.2 ∧
    ∃ extents, sfs.readPrepare p.1 = some extents ∧ Tiles 0 extents p.2

@[simp] theorem length_readData (dataFile : ℤ → UInt8) (offset len : ℤ) :
    (readData dataFile offset len).length = len.toNat := by
  simp [readData]

theorem occursAt_readData (dataFile : ℤ → UInt8) (offset : ℤ) {len j k : ℤ}
    (hj : 0 ≤ j) (hk : j + k ≤ len) :
    OccursAt (readData dataFile offset len) j
      (readData dataFile (offset + j) k) := by
  refine ⟨hj, prefix_iff_getElem?.mpr fun i hi => ?_⟩
  rw [length_readData] at hi
  have hlt : j.toNat + i < len.toNat := by omega
  have hpos : offset + ((j.toNat + i : ℕ) : ℤ) = offset + j + (i : ℤ) := by
    omega
  simp only [readData, getElem?_drop, getElem?_map,
    getElem?_range hlt, map_some, getElem_map,
    getElem_range, hpos]

section Extents

variable {extents : List Ext} {a b offset : ℤ}

theorem Tiles.length_extentsData (h : Tiles a extents b)
    (dataFile : ℤ → UInt8) :
    ((extentsData dataFile extents).length : ℤ) = b - a := by
  induction extents generalizing a with
  | nil =>
    have heq : a = b := h
    simp [extentsData, heq]
  | cons e extents ih =>
    obtain ⟨-, hpos, hrest⟩ := h
    have htail := ih hrest
    simp only [extentsData, flatMap_cons, length_append,
      length_readData] at htail ⊢
    omega

theorem Tiles.occursAt (h : Tiles a extents b) (dataFile : ℤ → UInt8)
    {e : Ext} (he : e ∈ extents) :
    OccursAt (extentsData dataFile extents) (e.objOffset - a)
      (readData dataFile e.dataFileOffset e.len) := by
  obtain ⟨before, after, rfl⟩ := append_of_mem he
  have hbefore : Tiles a before e.objOffset := by
    clear he
    induction before generalizing a with
    | nil => exact h.1.symm
    | cons e' before ih => exact ⟨h.1, h.2.1, ih h.2.2⟩
  rw [← hbefore.length_extentsData dataFile]
  unfold extentsData
  rw [flatMap_append, flatMap_cons]
  exact occursAt_append _ _ _

theorem Tiles.shift (h : Tiles a extents b) (k : ℤ) :
    Tiles (a + k)
      (extents.map fun ext => { ext with objOffset := ext.objOffset + k })
      (b + k) := by
  induction extents generalizing a with
  | nil =>
    have heq : a = b := h
    exact congrArg (· + k) heq
  | cons e extents ih =>
    obtain ⟨hoff, hpos, hrest⟩ := h
    refine ⟨congrArg (· + k) hoff, hpos, ?_⟩
    have htail := ih hrest
    rwa [add_right_comm] at htail

theorem extentsData_shift (dataFile : ℤ → UInt8) (extents : List Ext)
    (k : ℤ) :
    extentsData dataFile
      (extents.map fun ext => { ext with objOffset := ext.objOffset + k }) =
        extentsData dataFile extents := by
  simp [extentsData, flatMap_map]

theorem mem_of_findExt {it : Ext} (h : findExt extents offset = some it) :
    it ∈ extents :=
  (takeWhile_sublist _).mem (mem_of_getLast? h)

theorem Tiles.extentAt_eq_none (h : Tiles a extents b) (hb : b ≤ offset) :
    extentAt extents offset = none := by
  unfold extentAt
  split
  · rfl
  · rename_i it hit
    have hend := h.end_le (mem_of_findExt hit)
    rw [if_pos (.inr (by omega))]

theorem Tiles.findExt_some (h : Tiles a extents b) (ha : a ≤ offset)
    (hb : offset < b) :
    ∃ it ∈ extents, findExt extents offset = some it ∧
      it.objOffset ≤ offset ∧ offset < it.objOffset + it.len := by
  induction extents generalizing a with
  | nil =>
    have heq : a = b := h
    omega
  | cons e extents ih =>
    obtain ⟨hoff, hpos, hrest⟩ := h
    have hle : e.objOffset ≤ offset := by omega
    unfold findExt
    rw [takeWhile_cons_of_pos (by simpa using hle)]
    by_cases hin : offset < a + e.len
    · refine ⟨e, mem_cons_self, ?_, hle, by omega⟩
      have hnil : extents.takeWhile
          (fun ext => decide (ext.objOffset ≤ offset)) = [] := by
        cases extents with
        | nil => rfl
        | cons e' extents =>
          have hoff' : e'.objOffset = a + e.len := hrest.1
          rw [takeWhile_cons_of_neg]
          simp only [decide_eq_true_eq]
          omega
      rw [hnil]
      rfl
    · obtain ⟨it, hit, hfind, hbounds⟩ := ih hrest (by omega)
      refine ⟨it, mem_cons_of_mem _ hit, ?_, hbounds⟩
      rw [getLast?_cons, show List.getLast? _ = some it from hfind]
      rfl

theorem Tiles.extentAt_some (h : Tiles a extents b) (dataFile : ℤ → UInt8)
    (ha : a ≤ offset) (hb : offset < b) :
    ∃ ext, extentAt extents offset = some ext ∧ 0 < ext.len ∧
      offset + ext.len ≤ b ∧
      ∀ k ≤ ext.len, OccursAt (extentsData dataFile extents) (offset - a)
        (readData dataFile ext.dataFileOffset k) := by
  obtain ⟨it, hit, hfind, hle, hlt⟩ := h.findExt_some ha hb
  refine ⟨⟨it.objOffset + (offset - it.objOffset),
    it.dataFileOffset + (offset - it.objOffset),
    it.len - (offset - it.objOffset)⟩, ?_, ?_, ?_, ?_⟩
  · rw [extentAt, hfind]
    dsimp only
    rw [if_neg (by omega)]
  · dsimp only
    omega
  · have hend := h.end_le hit
    dsimp only
    omega
  · intro k hk
    dsimp only at hk ⊢
    have hext := h.occursAt dataFile hit
    have hin : offset - it.objOffset + k ≤ it.len := by omega
    have hplace := hext.trans
      (occursAt_readData dataFile it.dataFileOffset (by omega) hin)
    rwa [sub_add_sub_cancel'] at hplace

end Extents

section Object

variable {sfs : PartStorage} {parts before rest : List (ℤ × ℤ)} {n size : ℤ}

theorem PartStorage.Stores.length_partData (h : sfs.Stores parts)
    (hmem : (n, size) ∈ parts) : ((sfs.partData n).length : ℤ) = size := by
  obtain ⟨-, extents, hread, htiles⟩ := h _ hmem
  rw [PartStorage.partData, hread, getD_some,
    htiles.length_extentsData, sub_zero]

theorem PartStorage.Stores.length_objectData (h : sfs.Stores parts) :
    ((sfs.objectData parts).length : ℤ) = totalSize parts := by
  induction parts with
  | nil => rfl
  | cons p parts ih =>
    have hhead := h.length_partData (n := p.1) (mem_cons_self)
    have htail := ih fun q hq => h q (mem_cons_of_mem _ hq)
    simp only [PartStorage.objectData, flatMap_cons,
      length_append, totalSize_cons] at htail ⊢
    omega

theorem PartStorage.Stores.totalSize_nonneg (h : sfs.Stores parts) :
    0 ≤ totalSize parts := by
  rw [← h.length_objectData]
  exact Int.natCast_nonneg _

theorem PartStorage.Stores.occursAt_part
    (h : sfs.Stores (before ++ (n, size) :: rest)) :
    OccursAt (sfs.objectData (before ++ (n, size) :: rest))
      (totalSize before) (sfs.partData n) := by
  have hbefore : sfs.Stores before := fun p hp =>
    h p (mem_append_left _ hp)
  rw [← hbefore.length_objectData]
  unfold PartStorage.objectData
  rw [flatMap_append, flatMap_cons]
  exact occursAt_append _ _ _

end Object

/-! ## The place of a download -/

def MultiPartDownloadData.ahead (data : MultiPartDownloadData) :
    List (ℤ × ℤ) :=
  match data.extIdx with
  | none => data.exts.flatMap PartExt.parts
  | some extIdx =>
    data.currExt.parts ++ (data.exts.drop (extIdx + 1)).flatMap PartExt.parts

/-- The download stands at `offset`: in the first of the parts ahead, whose
extents it has, or at the end of that part. -/
structure StandsAt (sfs : PartStorage) (parts : List (ℤ × ℤ))
    (data : MultiPartDownloadData) (extents : List Ext) (offset : ℤ) :
    Prop where
  runs : data.exts = completedRuns parts
  seeked : ∃ extIdx, data.extIdx = some extIdx
  len_pos : 0 < data.currExt.len
  part : ∃ before, parts = before ++ data.ahead ∧
    readMultipartExt sfs (totalSize before) data = .ok extents ∧
    totalSize before ≤ offset ∧ offset ≤ totalSize before + data.currExt.size

/-- No run ends at `offset` or less than one of its parts before it; the runs
begin at `start`. -/
def ClearOfRunEnds (offset : ℤ) : ℤ → List PartExt → Prop
  | _, [] => True
  | start, e :: rest =>
    (offset < start + e.size * e.len ∨
      start + e.size * e.len + e.size ≤ offset) ∧
    ClearOfRunEnds offset (start + e.size * e.len) rest

instance decidableClearOfRunEnds (offset : ℤ) :
    ∀ (start : ℤ) (exts : List PartExt),
      Decidable (ClearOfRunEnds offset start exts)
  | _, [] => inferInstanceAs (Decidable True)
  | start, e :: rest =>
    have := decidableClearOfRunEnds offset (start + e.size * e.len) rest
    inferInstanceAs (Decidable (_ ∧ _))

theorem seekLoop_spec {runs : List PartExt} {offset start : ℤ} (extIdx : ℕ)
    (hpos : ∀ e ∈ runs, 0 < e.size ∧ 0 < e.len)
    (hclear : ClearOfRunEnds offset start runs) (hle : start ≤ offset)
    (hlt : offset < start + totalSize (runs.flatMap PartExt.parts)) :
    ∃ k e before,
      seekLoop offset runs extIdx start =
        .ok (extIdx + k, e, start + totalSize before) ∧
      runs.flatMap PartExt.parts =
        before ++ (e.parts ++ (runs.drop (k + 1)).flatMap PartExt.parts) ∧
      0 < e.len ∧ start + totalSize before ≤ offset ∧
      offset ≤ start + totalSize before + e.size := by
  induction runs generalizing start extIdx with
  | nil =>
    rw [flatMap_nil, totalSize_nil] at hlt
    omega
  | cons e rest ih =>
    obtain ⟨hsize, hlen⟩ := hpos e mem_cons_self
    obtain ⟨hrun, hclear⟩ := hclear
    rw [seekLoop]
    by_cases hbegin : start < offset
    · rw [if_pos hbegin]
      dsimp only
      rw [Int.tdiv_eq_ediv_of_nonneg (by omega)]
      set numSeek := (offset - start) / e.size with hnum
      have hlow : numSeek * e.size ≤ offset - start :=
        Int.ediv_mul_le _ hsize.ne'
      have hhigh : offset - start < numSeek * e.size + e.size := by
        have := Int.lt_ediv_add_one_mul_self (offset - start) hsize
        rwa [← hnum, add_one_mul] at this
      rcases hrun with hin | hout
      · have hless : numSeek < e.len := by
          rw [hnum, Int.ediv_lt_iff_lt_mul hsize, mul_comm]
          omega
        have hnonneg : 0 ≤ numSeek := Int.ediv_nonneg (by omega) hsize.le
        have htotal : totalSize { e with len := numSeek }.parts =
            numSeek * e.size := by
          rw [PartExt.totalSize_parts hnonneg, mul_comm]
        rw [if_neg (by omega)]
        refine ⟨0, ⟨e.size, e.start + numSeek, e.len - numSeek⟩,
          { e with len := numSeek }.parts, ?_, ?_, ?_, ?_, ?_⟩
        · rw [htotal, Nat.add_zero]
        · rw [flatMap_cons, drop_succ_cons, drop_zero,
            PartExt.parts_split hnonneg hless.le, append_assoc]
        · dsimp only
          omega
        · omega
        · dsimp only
          omega
      · have hmore : e.len < numSeek := by
          rw [hnum, Int.lt_iff_add_one_le, Int.le_ediv_iff_mul_le hsize,
            add_one_mul, mul_comm]
          omega
        have htotal := PartExt.totalSize_parts hlen.le
        rw [flatMap_cons, totalSize_append, htotal] at hlt
        rw [if_pos hmore]
        obtain ⟨k, e', before, hloop, hparts, hlen', hlo, hhi⟩ :=
          ih (extIdx + 1)
            (fun e' he' => hpos e' (mem_cons_of_mem _ he')) hclear
            (by omega) (by omega)
        refine ⟨k + 1, e', e.parts ++ before, ?_, ?_, hlen', ?_, ?_⟩
        · rw [hloop, totalSize_append, htotal, add_assoc start,
            Nat.add_right_comm, Nat.add_assoc]
        · rw [flatMap_cons, hparts, append_assoc, drop_succ_cons]
        · rw [totalSize_append, htotal]
          omega
        · rw [totalSize_append, htotal]
          omega
    · rw [if_neg hbegin]
      refine ⟨0, e, [], ?_, ?_, hlen, ?_, ?_⟩
      · rw [totalSize_nil, Nat.add_zero, Int.add_zero]
      · rw [flatMap_cons, drop_succ_cons, drop_zero,
          nil_append]
      · rw [totalSize_nil]
        omega
      · rw [totalSize_nil]
        omega

section Place

variable {sfs : PartStorage} {parts : List (ℤ × ℤ)}
  {data data' : MultiPartDownloadData} {extents : List Ext} {offset : ℤ}

theorem PartStorage.Stores.readMultipartExt (h : sfs.Stores parts) {size : ℤ}
    (hmem : (data.currExt.start, size) ∈ parts) (offset : ℤ) :
    ∃ extents, readMultipartExt sfs offset data = .ok extents ∧
      Tiles offset extents (offset + size) ∧
      extentsData sfs.dataFile extents = sfs.partData data.currExt.start := by
  obtain ⟨-, extents, hread, htiles⟩ := h _ hmem
  have hshift := htiles.shift offset
  rw [zero_add, add_comm size] at hshift
  refine ⟨_, ?_, hshift, ?_⟩
  · rw [Hs5.readMultipartExt, hread]
  · rw [extentsData_shift, PartStorage.partData, hread, getD_some]

theorem PartStorage.Stores.runs_pos (h : sfs.Stores parts) :
    ∀ e ∈ completedRuns parts, 0 < e.size ∧ 0 < e.len := by
  intro e he
  have hlen := len_pos_completedRuns parts e he
  have hmem : (e.start, e.size) ∈ parts := by
    rw [← flatMap_completedRuns parts, mem_flatMap]
    refine ⟨e, he, ?_⟩
    rw [PartExt.parts_of_pos hlen]
    exact mem_cons_self
  exact ⟨(h _ hmem).1, hlen⟩

theorem MultiPartDownloadData.ahead_eq {extIdx : ℕ}
    (hidx : data.extIdx = some extIdx) (hlen : 0 < data.currExt.len) :
    data.ahead = (data.currExt.start, data.currExt.size) ::
      (PartExt.parts { data.currExt with
          start := data.currExt.start + 1
          len := data.currExt.len - 1 } ++
        (data.exts.drop (extIdx + 1)).flatMap PartExt.parts) := by
  rw [ahead, hidx]
  dsimp only
  rw [PartExt.parts_of_pos hlen, cons_append]

theorem PartStorage.Stores.standsAt (h : sfs.Stores parts)
    (data : MultiPartDownloadData) {before : List (ℤ × ℤ)} {extIdx : ℕ}
    (hruns : data.exts = completedRuns parts)
    (hidx : data.extIdx = some extIdx) (hlen : 0 < data.currExt.len)
    (hparts : parts = before ++ data.ahead) (hlo : totalSize before ≤ offset)
    (hhi : offset ≤ totalSize before + data.currExt.size) :
    ∃ extents, Hs5.readMultipartExt sfs (totalSize before) data = .ok extents ∧
      StandsAt sfs parts data extents offset := by
  have hmem : (data.currExt.start, data.currExt.size) ∈ parts := by
    rw [hparts, MultiPartDownloadData.ahead_eq hidx hlen]
    exact mem_append_right _ mem_cons_self
  obtain ⟨extents, hread, -⟩ := h.readMultipartExt hmem (totalSize before)
  exact ⟨extents, hread, hruns, ⟨extIdx, hidx⟩, hlen, before, hparts, hread,
    hlo, hhi⟩

theorem PartStorage.Stores.seekMultipartExt (h : sfs.Stores parts)
    (hruns : data.exts = completedRuns parts) (hfresh : data.extIdx = none)
    (hclear : ClearOfRunEnds offset 0 (completedRuns parts))
    (hle : 0 ≤ offset) (hlt : offset < totalSize parts) :
    ∃ data' extents', Hs5.seekMultipartExt sfs offset data extents =
        .ok (data', extents') ∧
      StandsAt sfs parts data' extents' offset ∧
      data'.ahead.length ≤ data.ahead.length := by
  have hlt' : offset < 0 + totalSize
      ((completedRuns parts).flatMap PartExt.parts) := by
    rwa [flatMap_completedRuns, zero_add]
  obtain ⟨k, e, before, hloop, hparts, hlen, hlo, hhi⟩ :=
    seekLoop_spec 0 h.runs_pos hclear hle hlt'
  rw [flatMap_completedRuns] at hparts
  rw [Nat.zero_add, Int.zero_add] at hloop
  rw [zero_add] at hlo hhi
  have hne : data.exts ≠ [] := by
    rintro hnil
    rw [← flatMap_completedRuns parts, ← hruns, hnil] at hlt
    exact absurd hlt (by simp; omega)
  have hahead : parts = before ++ MultiPartDownloadData.ahead
      { data with extIdx := some k, currExt := e } := by
    rw [MultiPartDownloadData.ahead]
    dsimp only
    rwa [hruns]
  obtain ⟨extents', hread, hstands⟩ := h.standsAt
    { data with extIdx := some k, currExt := e } hruns rfl hlen hahead hlo hhi
  refine ⟨_, extents', ?_, hstands, ?_⟩
  · rw [Hs5.seekMultipartExt, if_neg hne, hfresh, hruns, hloop]
    dsimp only
    rw [← hruns, hread]
    rfl
  · have hall : data.ahead = parts := by
      rw [MultiPartDownloadData.ahead, hfresh, hruns]
      exact flatMap_completedRuns parts
    have hcount := congrArg List.length hahead
    rw [length_append] at hcount
    rw [hall]
    omega

theorem StandsAt.seekMultipartExt
    (h : StandsAt sfs parts data extents offset) (offset' : ℤ) :
    Hs5.seekMultipartExt sfs offset' data extents = .ok (data, extents) := by
  obtain ⟨extIdx, hidx⟩ := h.seeked
  obtain ⟨before, hparts, -⟩ := h.part
  have hne : data.exts ≠ [] := by
    intro hnil
    rw [MultiPartDownloadData.ahead_eq hidx h.len_pos,
      ← flatMap_completedRuns parts, ← h.runs, hnil] at hparts
    exact append_ne_nil_of_right_ne_nil _ (cons_ne_nil _ _)
      hparts.symm
  rw [Hs5.seekMultipartExt, if_neg hne, hidx]

theorem nextRun_spec (runs : List PartExt) (extIdx : ℕ)
    (hne : runs.flatMap PartExt.parts ≠ []) :
    ∃ k e, nextRun runs extIdx = some (extIdx + k, e) ∧ 0 < e.len ∧
      runs.flatMap PartExt.parts =
        e.parts ++ (runs.drop (k + 1)).flatMap PartExt.parts := by
  induction runs generalizing extIdx with
  | nil => exact absurd rfl hne
  | cons e rest ih =>
    rw [nextRun]
    by_cases hlen : e.len ≤ 0
    · have hparts : (e :: rest).flatMap PartExt.parts =
          rest.flatMap PartExt.parts := by
        rw [flatMap_cons, PartExt.parts_of_nonpos hlen, nil_append]
      rw [hparts] at hne ⊢
      obtain ⟨k, e', hnext, hlen', hrest⟩ := ih (extIdx + 1) hne
      refine ⟨k + 1, e', ?_, hlen', ?_⟩
      · rw [if_pos hlen, hnext, Nat.add_right_comm, Nat.add_assoc]
      · rw [hrest, drop_succ_cons]
    · refine ⟨0, e, ?_, by omega, ?_⟩
      · rw [if_neg hlen, Nat.add_zero]
      · rw [flatMap_cons, drop_succ_cons, drop_zero]

theorem nextRun_eq_none {runs : List PartExt} (extIdx : ℕ)
    (h : runs.flatMap PartExt.parts = []) : nextRun runs extIdx = none := by
  induction runs generalizing extIdx with
  | nil => rfl
  | cons e rest ih =>
    rw [flatMap_cons, append_eq_nil_iff] at h
    have hlen : e.len ≤ 0 := by
      by_contra hpos
      rw [PartExt.parts_of_pos (by omega)] at h
      exact cons_ne_nil _ _ h.1
    rw [nextRun, if_pos hlen, ih _ h.2]

theorem MultiPartDownloadData.readNextMultipartExt {extIdx : ℕ}
    (hidx : data.extIdx = some extIdx) (hlen : 0 < data.currExt.len)
    (sfs : PartStorage) (offset : ℤ) :
    (data.ahead.tail = [] ∧
      Hs5.readNextMultipartExt sfs offset data = .error .enoent) ∨
    ∃ k e, Hs5.readNextMultipartExt sfs offset data =
        (Hs5.readMultipartExt sfs offset
          { data with extIdx := some k, currExt := e }).map (fun extents =>
              ({ data with extIdx := some k, currExt := e }, extents)) ∧
      0 < e.len ∧
      MultiPartDownloadData.ahead { data with extIdx := some k, currExt := e } =
        data.ahead.tail := by
  rw [ahead_eq hidx hlen, tail_cons, Hs5.readNextMultipartExt, hidx]
  dsimp only
  by_cases hend : data.currExt.len - 1 ≤ 0
  · rw [if_pos hend, PartExt.parts_of_nonpos hend, nil_append]
    by_cases hnil : (data.exts.drop (extIdx + 1)).flatMap PartExt.parts = []
    · rw [nextRun_eq_none _ hnil]
      exact .inl ⟨hnil, rfl⟩
    · obtain ⟨k, e, hnext, hpos, hparts⟩ := nextRun_spec _ (extIdx + 1) hnil
      refine .inr ⟨extIdx + 1 + k, e, ?_, hpos, ?_⟩
      · rw [hnext]
      · rw [hparts, drop_drop]
        rfl
  · rw [if_neg hend]
    exact .inr ⟨extIdx, _, rfl, by dsimp only; omega, rfl⟩

section

variable (h : StandsAt sfs parts data extents offset)

include h

theorem StandsAt.tiles (hstores : sfs.Stores parts) :
    ∃ before, parts = before ++ data.ahead ∧
      Hs5.readMultipartExt sfs (totalSize before) data = .ok extents ∧
      Tiles (totalSize before) extents
        (totalSize before + data.currExt.size) ∧
      extentsData sfs.dataFile extents = sfs.partData data.currExt.start ∧
      totalSize before ≤ offset ∧
      offset ≤ totalSize before + data.currExt.size := by
  obtain ⟨before, hparts, hread, hlo, hhi⟩ := h.part
  obtain ⟨extIdx, hidx⟩ := h.seeked
  have hmem : (data.currExt.start, data.currExt.size) ∈ parts := by
    rw [hparts, MultiPartDownloadData.ahead_eq hidx h.len_pos]
    exact mem_append_right _ mem_cons_self
  obtain ⟨extents₁, hread₁, htiles, hdata⟩ :=
    hstores.readMultipartExt hmem (totalSize before)
  obtain rfl : extents₁ = extents := by
    rw [hread] at hread₁
    exact (Except.ok.inj hread₁).symm
  exact ⟨before, hparts, hread, htiles, hdata, hlo, hhi⟩

theorem StandsAt.readNextMultipartExt (hstores : sfs.Stores parts)
    (hnone : extentAt extents offset = none) (hlt : offset < totalSize parts) :
    ∃ data' extents', Hs5.readNextMultipartExt sfs offset data =
        .ok (data', extents') ∧
      StandsAt sfs parts data' extents' offset ∧
      data'.ahead.length < data.ahead.length := by
  obtain ⟨before, hparts, -, htiles, -, hlo, hhi⟩ := h.tiles hstores
  obtain ⟨extIdx, hidx⟩ := h.seeked
  have hend : offset = totalSize before + data.currExt.size := by
    by_contra hne
    obtain ⟨ext, hext, -⟩ := htiles.extentAt_some sfs.dataFile hlo (by omega)
    rw [hnone] at hext
    exact some_ne_none _ hext.symm
  have hahead : data.ahead =
      (data.currExt.start, data.currExt.size) :: data.ahead.tail := by
    rw [MultiPartDownloadData.ahead_eq hidx h.len_pos, tail_cons]
  have hbefore : parts = (before ++
      [(data.currExt.start, data.currExt.size)]) ++ data.ahead.tail := by
    rw [append_assoc, singleton_append, ← hahead, ← hparts]
  have htotal : totalSize
      (before ++ [(data.currExt.start, data.currExt.size)]) = offset := by
    rw [totalSize_append, totalSize_cons, totalSize_nil, hend]
    omega
  rcases data.readNextMultipartExt hidx h.len_pos sfs offset with
    ⟨hnil, -⟩ | ⟨k, e, hnext, hlen, htail⟩
  · rw [hbefore, hnil, append_nil, htotal] at hlt
    omega
  · have hsize : 0 < e.size := by
      have hmem : (e.start, e.size) ∈ parts := by
        rw [hbefore, ← htail, MultiPartDownloadData.ahead_eq rfl hlen]
        exact mem_append_right _ mem_cons_self
      exact (hstores _ hmem).1
    obtain ⟨extents', hread, hstands⟩ := hstores.standsAt
      { data with extIdx := some k, currExt := e } h.runs rfl hlen
      (htail ▸ hbefore) htotal.le (by dsimp only; omega)
    rw [htotal] at hread
    refine ⟨_, extents', ?_, hstands, ?_⟩
    · rw [hnext, hread]
      rfl
    · rw [htail, hahead, tail_cons, length_cons]
      exact Nat.lt_succ_self _

/-- Where an extent holds the offset, what is read from it are the bytes of
the object there. -/
theorem StandsAt.readData (hstores : sfs.Stores parts) {ext : Ext}
    (hext : extentAt extents offset = some ext) :
    0 < ext.len ∧ ∀ k, 0 ≤ k → k ≤ ext.len →
      OccursAt (sfs.objectData parts) offset
        (Hs5.readData sfs.dataFile ext.dataFileOffset k) ∧
      StandsAt sfs parts data extents (offset + k) := by
  obtain ⟨before, hparts, hread, htiles, hdata, hlo, hhi⟩ := h.tiles hstores
  have hin : offset < totalSize before + data.currExt.size := by
    by_contra hout
    rw [htiles.extentAt_eq_none (by omega)] at hext
    exact some_ne_none _ hext.symm
  obtain ⟨ext', hext', hlen, hend, hbytes⟩ :=
    htiles.extentAt_some sfs.dataFile hlo hin
  obtain rfl : ext = ext' := by
    rw [hext] at hext'
    exact Option.some.inj hext'
  obtain ⟨extIdx, hidx⟩ := h.seeked
  refine ⟨hlen, fun k hk hle => ⟨?_, ?_⟩⟩
  · have hpart : OccursAt (sfs.objectData parts) (totalSize before)
        (sfs.partData data.currExt.start) := by
      rw [hparts, MultiPartDownloadData.ahead_eq hidx h.len_pos] at hstores ⊢
      exact hstores.occursAt_part
    have hplace := hpart.trans (hdata ▸ hbytes k hle)
    rwa [add_sub_cancel] at hplace
  · exact ⟨h.runs, h.seeked, h.len_pos, before, hparts, hread, by omega,
      by omega⟩

end

end Place

end Hs5
