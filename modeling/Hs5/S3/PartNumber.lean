import Hs5.S3.MultipartExact

/-!
# Parts of an object by number

`getObject` with a part number sends one part of a multipart object, and
`getObjectAttributes` lists the parts behind a marker.  Both find the first
part with `seekMultipart`, which goes over the runs of the part list; the
listing then goes on with `readNextMultipartExt`.
-/

namespace Hs5

open List Slice Transition

/-! ## Functions -/

/-- The loop of `seekMultipart` over the runs from `extIdx` on. -/
def seekPartLoop (partNumber : ℤ) :
    List PartExt → ℕ → ℤ → ℤ → Except ReadError (ℕ × PartExt × ℤ)
  | [], _, _, _ => .error .enoent
  | currExt :: rest, extIdx, currPart, offset =>
    if currPart < partNumber then
      let toSeek := min (partNumber - currPart) currExt.len
      let offset := offset + toSeek * currExt.size
      if currPart + toSeek = partNumber then
        .ok (extIdx,
          { currExt with
            start := currExt.start + toSeek
            len := currExt.len - toSeek },
          offset)
      else seekPartLoop partNumber rest (extIdx + 1) (currPart + toSeek) offset
    else .ok (extIdx, currExt, offset)

/-- `seekMultipart` for a number that is not negative: the extents of the part
and its offset.  The length of the part is reported as `currExt.size`. -/
def seekMultipart (sfs : PartStorage) (partNumber : ℕ)
    (data : MultiPartDownloadData) :
    Except ReadError (MultiPartDownloadData × List Ext × ℤ) :=
  if data.exts = [] then .error .enoent
  else
    match seekPartLoop partNumber data.exts 0 0 0 with
    | .error err => .error err
    | .ok (extIdx, currExt, offset) =>
      let data' := { data with extIdx := some extIdx, currExt := currExt }
      (readMultipartExt sfs offset data').map fun extents =>
        (data', extents, offset)

/-- `getObject` of a multipart object with a part number: the download that is
started, or `none` where an error is sent. -/
def getPart (sfs : PartStorage) (exts : List PartExt) (numParts k : ℤ) :
    Option Download :=
  let partNumber := k - 1
  if partNumber < 0 ∨ partNumber ≥ numParts then none
  else
    match seekMultipart sfs partNumber.toNat ⟨exts, none, ⟨0, 0, 0⟩⟩ with
    | .error _ => none
    | .ok (data, extents, offset) =>
      some (.initPart data extents offset (offset + data.currExt.size))

structure ListedPart (H : Type) where
  number : ℤ
  size : ℤ
  checksum : Option H
  deriving DecidableEq

section Listing

variable {H : Type} (sfs : PartStorage) (hash : ℤ → Option H)

/-- The loop of `getObjectAttributes`, with as many rounds left after this
one.  A part without a checksum leaves the hash of the one before. -/
def listParts (offset : ℤ) : ℕ → ℤ → MultiPartDownloadData → List Ext →
    Option H → Except ReadError (List (ListedPart H) × Bool)
  | left, number, data, extents, checksum =>
    let part := ⟨number, (extents.map Ext.len).sum, checksum⟩
    match readNextMultipartExt sfs offset data with
    | .error .enoent => .ok ([part], false)
    | .error err => .error err
    | .ok (data, extents) =>
      match left with
      | 0 => .ok ([part], true)
      | left + 1 =>
        (listParts offset left (number + 1) data extents
          ((hash data.currExt.start).or checksum)).map
            fun (parts, isTruncated) => (part :: parts, isTruncated)

/-- The parts that `getObjectAttributes` lists and whether there are more. -/
def getObjectParts (exts : List PartExt) (partNumberMarker maxParts : ℕ) :
    Except ReadError (List (ListedPart H) × Bool) :=
  match seekMultipart sfs partNumberMarker ⟨exts, none, ⟨0, 0, 0⟩⟩ with
  | .error err => .error err
  | .ok (data, extents, offset) =>
    listParts sfs hash offset (maxParts - 1) (partNumberMarker + 1) data extents
      (hash data.currExt.start)

end Listing

/-! ## Seeking -/

/-- The first `k` parts are not those of some first runs. -/
def InsideRun (k : ℤ) : List PartExt → Prop
  | [] => True
  | e :: rest => k ≠ e.len ∧ InsideRun (k - e.len) rest

instance decidableInsideRun (k : ℤ) :
    ∀ runs : List PartExt, Decidable (InsideRun k runs)
  | [] => inferInstanceAs (Decidable True)
  | e :: rest =>
    have := decidableInsideRun (k - e.len) rest
    inferInstanceAs (Decidable (_ ∧ _))

theorem PartExt.length_parts {e : PartExt} (h : 0 ≤ e.len) :
    (e.parts.length : ℤ) = e.len := by
  simp [parts, numbers, Int.toNat_of_nonneg h]

theorem insideRun_of_nonpos {runs : List PartExt} {k : ℤ}
    (hpos : ∀ e ∈ runs, 0 < e.len) (hk : k ≤ 0) : InsideRun k runs := by
  induction runs generalizing k with
  | nil => trivial
  | cons e rest ih =>
    have hlen := hpos e mem_cons_self
    exact ⟨by omega, ih (fun e' he' => hpos e' (mem_cons_of_mem _ he'))
      (by omega)⟩

theorem partRuns_chain {lastExt : PartExt} (hlen : 0 < lastExt.len)
    (parts : List (ℤ × ℤ)) :
    ∃ len rest, partRuns lastExt parts = { lastExt with len } :: rest ∧
      (partRuns lastExt parts).IsChain
        fun e e' => ¬ e.Continues e'.size e'.start := by
  induction parts generalizing lastExt with
  | nil =>
    rw [partRuns, if_pos hlen]
    exact ⟨lastExt.len, [], rfl, .singleton _⟩
  | cons part rest ih =>
    obtain ⟨n, size⟩ := part
    rw [partRuns, if_neg hlen.ne']
    split
    · exact ih (by dsimp only; omega)
    · rename_i hnot
      obtain ⟨len, rest', heq, hchain⟩ := @ih ⟨size, n, 1⟩ one_pos
      refine ⟨lastExt.len, _, rfl, ?_⟩
      rw [heq] at hchain ⊢
      exact isChain_cons_cons.mpr
        ⟨fun hcont => hnot ⟨hcont.2, hcont.1⟩, hchain⟩

theorem completedRuns_chain (parts : List (ℤ × ℤ)) :
    (completedRuns parts).IsChain
      fun e e' => ¬ e.Continues e'.size e'.start := by
  cases parts with
  | nil => exact .nil
  | cons part rest =>
    rw [completedRuns, partRuns, if_pos rfl]
    exact (partRuns_chain one_pos rest).choose_spec.choose_spec.2

/-- The place behind the first `numSeek` parts of the `k`-th run. -/
structure StopsAt (runs : List PartExt) (k : ℕ) (run : PartExt) (numSeek : ℤ)
    (before : List (ℤ × ℤ)) : Prop where
  run_eq : runs.drop k = run :: runs.drop (k + 1)
  nonneg : 0 ≤ numSeek
  le : numSeek ≤ run.len
  before_eq : before = (runs.take k).flatMap PartExt.parts ++
    { run with len := numSeek }.parts

theorem seekPartLoop_spec {runs : List PartExt} (partNumber currPart : ℤ)
    (extIdx : ℕ) (offset : ℤ) (hpos : ∀ e ∈ runs, 0 < e.len)
    (hle : currPart ≤ partNumber)
    (hlt : partNumber < currPart + (runs.flatMap PartExt.parts).length) :
    ∃ k run numSeek before, StopsAt runs k run numSeek before ∧
      seekPartLoop partNumber runs extIdx currPart offset =
        .ok (extIdx + k, ⟨run.size, run.start + numSeek, run.len - numSeek⟩,
          offset + totalSize before) ∧
      currPart + before.length = partNumber ∧
      (InsideRun (partNumber - currPart) runs ↔ numSeek < run.len) := by
  induction runs generalizing extIdx currPart offset with
  | nil =>
    simp only [flatMap_nil, length_nil] at hlt
    omega
  | cons e rest ih =>
    have hlen := hpos e mem_cons_self
    have hrest : ∀ e' ∈ rest, 0 < e'.len :=
      fun e' he' => hpos e' (mem_cons_of_mem _ he')
    rw [seekPartLoop]
    by_cases hin : partNumber - currPart ≤ e.len
    · have hmin : min (partNumber - currPart) e.len =
          partNumber - currPart := by omega
      set numSeek := partNumber - currPart with hnum
      refine ⟨0, e, numSeek, _, ⟨rfl, by omega, hin, rfl⟩, ?_, ?_, ?_⟩
      · rw [take_zero, flatMap_nil, nil_append,
          PartExt.totalSize_parts (by dsimp only; omega)]
        dsimp only
        by_cases hbegin : currPart < partNumber
        · rw [if_pos hbegin, hmin, if_pos (by omega), mul_comm]
          rfl
        · rw [if_neg hbegin, show numSeek = 0 by omega]
          simp
      · rw [take_zero, flatMap_nil, nil_append,
          PartExt.length_parts (by dsimp only; omega)]
        dsimp only
        omega
      · refine ⟨fun h => by have := h.1; omega, fun h => ⟨h.ne, ?_⟩⟩
        exact insideRun_of_nonpos hrest (by omega)
    · have hmin : min (partNumber - currPart) e.len = e.len := by omega
      rw [if_pos (by omega)]
      dsimp only
      rw [hmin, if_neg (by omega)]
      have hcount := PartExt.length_parts hlen.le
      rw [flatMap_cons, length_append] at hlt
      obtain ⟨k, run, numSeek, before, hstop, hloop, hnumber, hinside⟩ :=
        ih (currPart + e.len) (extIdx + 1) (offset + e.len * e.size) hrest
          (by omega) (by push_cast at hlt; omega)
      refine ⟨k + 1, run, numSeek, e.parts ++ before,
        ⟨hstop.run_eq, hstop.nonneg, hstop.le, ?_⟩, ?_, ?_, ?_⟩
      · rw [hstop.before_eq, take_succ_cons, flatMap_cons,
          append_assoc]
      · rw [hloop, totalSize_append, PartExt.totalSize_parts hlen.le,
          add_assoc offset, mul_comm e.len, Nat.add_right_comm, Nat.add_assoc]
      · rw [length_append]
        push_cast
        omega
      · rw [← hinside, InsideRun, sub_sub]
        exact and_iff_right (fun heq => hin heq.le)

section Parts

variable {sfs : PartStorage} {parts : List (ℤ × ℤ)} {k : ℕ}

/-- Where the seek for the part behind the first `k` ones stops. -/
theorem seekMultipart_spec (sfs : PartStorage) (hk : k < parts.length) :
    ∃ i run numSeek, StopsAt (completedRuns parts) i run numSeek
        (parts.take k) ∧
      (InsideRun k (completedRuns parts) ↔ numSeek < run.len) ∧
      ∃ data, data = ⟨completedRuns parts, some i,
          ⟨run.size, run.start + numSeek, run.len - numSeek⟩⟩ ∧
        data.ahead = parts.drop k ∧
        seekMultipart sfs k ⟨completedRuns parts, none, ⟨0, 0, 0⟩⟩ =
          (readMultipartExt sfs (totalSize (parts.take k)) data).map
            fun extents => (data, extents, totalSize (parts.take k)) := by
  have hflat := flatMap_completedRuns parts
  obtain ⟨i, run, numSeek, before, hstop, hloop, hcount, hinside⟩ :=
    seekPartLoop_spec k 0 0 0 (len_pos_completedRuns parts)
      (Int.natCast_nonneg k) (by rw [hflat]; omega)
  have hparts : parts = before ++ MultiPartDownloadData.ahead
      ⟨completedRuns parts, some i,
        ⟨run.size, run.start + numSeek, run.len - numSeek⟩⟩ := by
    calc parts = ((completedRuns parts).take i ++
          (completedRuns parts).drop i).flatMap PartExt.parts := by
            rw [take_append_drop, hflat]
      _ = _ := by
        rw [hstop.run_eq, flatMap_append, flatMap_cons,
          PartExt.parts_split hstop.nonneg hstop.le, hstop.before_eq]
        simp only [append_assoc, MultiPartDownloadData.ahead]
  obtain rfl : before = parts.take k := by
    rw [hparts, take_left' (by omega)]
  have hne : completedRuns parts ≠ [] := by
    intro hnil
    simpa [hnil] using hstop.run_eq
  refine ⟨i, run, numSeek, hstop, by rwa [sub_zero] at hinside, _, rfl, ?_, ?_⟩
  · refine append_cancel_left (hparts.symm.trans ?_)
    rw [take_append_drop]
  · rw [Nat.zero_add, Int.zero_add] at hloop
    rw [seekMultipart, if_neg hne, hloop]

theorem PartStorage.Stores.seekMultipart (h : sfs.Stores parts)
    (hk : k < parts.length) (hinside : InsideRun k (completedRuns parts)) :
    ∃ data extents, Hs5.seekMultipart sfs k
        ⟨completedRuns parts, none, ⟨0, 0, 0⟩⟩ =
          .ok (data, extents, totalSize (parts.take k)) ∧
      StandsAt sfs parts data extents (totalSize (parts.take k)) ∧
      data.ahead = parts.drop k := by
  obtain ⟨i, run, numSeek, -, hiff, data, hdata, hahead, hseek⟩ :=
    seekMultipart_spec sfs hk
  have hidx : data.extIdx = some i := by rw [hdata]
  have hlen : 0 < data.currExt.len := by
    have := hiff.mp hinside
    rw [hdata]
    dsimp only
    omega
  have hparts : parts = parts.take k ++ data.ahead := by
    rw [hahead, take_append_drop]
  have hsize := (h (data.currExt.start, data.currExt.size) (by
    rw [hparts, MultiPartDownloadData.ahead_eq hidx hlen]
    exact mem_append_right _ mem_cons_self)).1
  obtain ⟨extents, hread, hstands⟩ := h.standsAt data (by rw [hdata]) hidx hlen
    hparts le_rfl (by dsimp only at hsize; omega)
  refine ⟨data, extents, ?_, hstands, hahead⟩
  rw [hseek, hread]
  rfl

/-! ## Listing -/

theorem Tiles.sum_len {exts : List Ext} {a b : ℤ} (h : Tiles a exts b) :
    (exts.map Ext.len).sum = b - a := by
  induction exts generalizing a with
  | nil =>
    have heq : a = b := h
    simp [heq]
  | cons e exts ih =>
    rw [map_cons, sum_cons, ih h.2.2]
    omega

variable {H : Type} {hash : ℤ → Option H}

/-- Parts as they should be listed, numbered from `number` on. -/
def listed (hash : ℤ → Option H) : ℤ → List (ℤ × ℤ) → List (ListedPart H)
  | _, [] => []
  | number, p :: parts =>
    ⟨number, p.2, hash p.1⟩ :: listed hash (number + 1) parts

/-- Parts as they are listed: one without a checksum gets that of the part
before it. -/
def carried (hash : ℤ → Option H) :
    Option H → ℤ → List (ℤ × ℤ) → List (ListedPart H)
  | _, _, [] => []
  | checksum, number, p :: parts =>
    ⟨number, p.2, (hash p.1).or checksum⟩ ::
      carried hash ((hash p.1).or checksum) (number + 1) parts

/-- No part without a checksum follows one with a checksum. -/
def ChecksumsKept (hash : ℤ → Option H) (parts : List (ℤ × ℤ)) : Prop :=
  parts.Pairwise fun p q => (hash p.1).isSome → (hash q.1).isSome

theorem carried_eq_listed {checksum : Option H} {number : ℤ} :
    carried hash checksum number parts = listed hash number parts ↔
      (checksum.isSome → ∀ p ∈ parts, (hash p.1).isSome) ∧
        ChecksumsKept hash parts := by
  induction parts generalizing checksum number with
  | nil => simp [carried, listed, ChecksumsKept]
  | cons p parts ih =>
    simp only [carried, listed, List.cons.injEq, ListedPart.mk.injEq, true_and,
      ih, ChecksumsKept, pairwise_cons, forall_mem_cons]
    cases hash p.1 <;> cases checksum <;> simp

theorem length_carried (hash : ℤ → Option H) (checksum : Option H)
    (number : ℤ) (parts : List (ℤ × ℤ)) :
    (carried hash checksum number parts).length = parts.length := by
  induction parts generalizing checksum number with
  | nil => rfl
  | cons p parts ih => rw [carried, length_cons, ih, length_cons]

theorem length_listed (hash : ℤ → Option H) (number : ℤ)
    (parts : List (ℤ × ℤ)) : (listed hash number parts).length = parts.length := by
  induction parts generalizing number with
  | nil => rfl
  | cons p parts ih => rw [listed, length_cons, ih, length_cons]

theorem PartStorage.Stores.sum_len (h : sfs.Stores parts)
    (data : MultiPartDownloadData) (offset : ℤ) (hidx : data.extIdx = some k)
    (hlen : 0 < data.currExt.len) (hahead : ∀ p ∈ data.ahead, p ∈ parts) :
    ∃ extents, Hs5.readMultipartExt sfs offset data = .ok extents ∧
      (extents.map Ext.len).sum = data.currExt.size := by
  have hmem : (data.currExt.start, data.currExt.size) ∈ parts := by
    refine hahead _ ?_
    rw [MultiPartDownloadData.ahead_eq hidx hlen]
    exact mem_cons_self
  obtain ⟨extents, hread, htiles, -⟩ := h.readMultipartExt hmem offset
  refine ⟨extents, hread, ?_⟩
  rw [htiles.sum_len]
  omega

theorem PartStorage.Stores.nextPart (hstores : sfs.Stores parts)
    {data : MultiPartDownloadData} {extIdx : ℕ}
    (hidx : data.extIdx = some extIdx) (hlen : 0 < data.currExt.len)
    (hahead : ∀ p ∈ data.ahead, p ∈ parts) (offset : ℤ) :
    (data.ahead = [(data.currExt.start, data.currExt.size)] ∧
      readNextMultipartExt sfs offset data = .error .enoent) ∨
    ∃ data' i extents, readNextMultipartExt sfs offset data =
        .ok (data', extents) ∧
      data'.extIdx = some i ∧ 0 < data'.currExt.len ∧
      data.ahead = (data.currExt.start, data.currExt.size) :: data'.ahead ∧
      (extents.map Ext.len).sum = data'.currExt.size := by
  have hcons : data.ahead =
      (data.currExt.start, data.currExt.size) :: data.ahead.tail := by
    rw [MultiPartDownloadData.ahead_eq hidx hlen, tail_cons]
  rcases data.readNextMultipartExt hidx hlen sfs offset with
    ⟨hnil, herr⟩ | ⟨i, e, hnext, hpos, htail⟩
  · rw [hnil] at hcons
    exact .inl ⟨hcons, herr⟩
  · obtain ⟨extents, hread, hsum⟩ := hstores.sum_len
      { data with extIdx := some i, currExt := e } offset rfl hpos
      fun p hp => hahead p (mem_of_mem_tail (htail ▸ hp))
    refine .inr ⟨_, i, extents, ?_, rfl, hpos, ?_, hsum⟩
    · rw [hnext, hread]
      rfl
    · rwa [htail]

theorem PartStorage.Stores.enterRun (hstores : sfs.Stores parts)
    {data : MultiPartDownloadData} {extIdx : ℕ}
    (hidx : data.extIdx = some extIdx) (hlen : data.currExt.len ≤ 0)
    (hahead : ∀ p ∈ data.ahead, p ∈ parts) (hne : data.ahead ≠ [])
    (offset : ℤ) :
    ∃ data' i extents, readNextMultipartExt sfs offset data =
        .ok (data', extents) ∧
      data'.extIdx = some i ∧ 0 < data'.currExt.len ∧
      data'.ahead = data.ahead ∧
      (extents.map Ext.len).sum = data'.currExt.size := by
  have hrest : data.ahead =
      (data.exts.drop (extIdx + 1)).flatMap PartExt.parts := by
    rw [MultiPartDownloadData.ahead, hidx]
    dsimp only
    rw [PartExt.parts_of_nonpos hlen, nil_append]
  rw [hrest] at hne
  obtain ⟨i, e, hnext, hpos, hparts⟩ := nextRun_spec _ (extIdx + 1) hne
  have heq : MultiPartDownloadData.ahead
      ⟨data.exts, some (extIdx + 1 + i), e⟩ = data.ahead := by
    rw [hrest, hparts, drop_drop]
    rfl
  obtain ⟨extents, hread, hsum⟩ := hstores.sum_len
    ⟨data.exts, some (extIdx + 1 + i), e⟩ offset rfl hpos
    fun p hp => hahead p (heq ▸ hp)
  refine ⟨_, _, extents, ?_, rfl, hpos, heq, hsum⟩
  rw [Hs5.readNextMultipartExt, hidx]
  dsimp only
  rw [if_pos (by omega), hnext]
  dsimp only
  rw [hread]
  rfl

theorem listParts_spec (hstores : sfs.Stores parts) (hash : ℤ → Option H)
    (checksum : Option H) (offset number : ℤ) (left : ℕ)
    {data : MultiPartDownloadData} {extents : List Ext} {extIdx : ℕ}
    (hidx : data.extIdx = some extIdx) (hlen : 0 < data.currExt.len)
    (hahead : ∀ p ∈ data.ahead, p ∈ parts)
    (hsize : (extents.map Ext.len).sum = data.currExt.size) :
    listParts sfs hash offset left number data extents
        ((hash data.currExt.start).or checksum) =
      .ok (carried hash checksum number (data.ahead.take (left + 1)),
        decide (left + 1 < data.ahead.length)) := by
  induction left generalizing number data extents extIdx checksum with
  | zero =>
    unfold listParts
    rcases hstores.nextPart hidx hlen hahead offset with
      ⟨hcons, herr⟩ | ⟨data', i, extents', hnext, hidx', hpos, hcons, -⟩
    · rw [herr, hcons, hsize]
      rfl
    · rw [hnext, hcons, MultiPartDownloadData.ahead_eq hidx' hpos, hsize]
      simp [carried]
  | succ left ih =>
    unfold listParts
    rcases hstores.nextPart hidx hlen hahead offset with
      ⟨hcons, herr⟩ | ⟨data', i, extents', hnext, hidx', hpos, hcons, hsize'⟩
    · rw [herr, hcons, hsize]
      simp [carried]
    · have hrest := ih ((hash data.currExt.start).or checksum) (number + 1)
        hidx' hpos
        (fun p hp => hahead p (hcons ▸ mem_cons_of_mem _ hp)) hsize'
      rw [hnext]
      dsimp only
      rw [hrest, hcons, hsize]
      simp [carried, Except.map]

/-! ## Exact answers -/

/-- GET and HEAD for the part `p` behind the first `k` ones report its offset
and size, and the body is that of the part. -/
def PartSent (sfs : PartStorage) (parts : List (ℤ × ℤ)) (bufsize : ℤ) (k : ℕ)
    (p : ℤ × ℤ) : Prop :=
  ∃ s₀, getPart sfs (completedRuns parts) parts.length (k + 1) = some s₀ ∧
    s₀.doneBytes = totalSize (parts.take k) ∧
    s₀.putRemaining = s₀.doneBytes + p.2 ∧
    ∀ s, Run (Download.step sfs bufsize) anyStep s₀ s →
      (s.aborted = false ∧ s.sent <+: sfs.partData p.1 ∧
        (s.eom = true → s.sent = sfs.partData p.1)) ∧
      (s.finished = false → s.paused = false →
        Inevitably (Download.step sfs bufsize) Download.Quiet
          (fun s => s.eom = true ∧ s.sent = sfs.partData p.1) s)

def PartsListed (sfs : PartStorage) (parts : List (ℤ × ℤ))
    (hash : ℤ → Option H) (k : ℕ) : Prop :=
  ∀ maxParts, 1 ≤ maxParts →
    getObjectParts sfs hash (completedRuns parts) k maxParts =
      .ok (listed hash (k + 1) ((parts.drop k).take maxParts),
        decide (maxParts < (parts.drop k).length))

/-- If the part that follows a run in number is listed, it is the next part. -/
theorem StopsAt.next_number {i : ℕ} {run : PartExt} {p : ℤ × ℤ}
    (h : StopsAt (completedRuns parts) i run run.len (parts.take k))
    (hpos : 0 < run.len) (hsorted : parts.Pairwise fun p q => p.1 < q.1)
    (hdrop : parts.drop k = p :: parts.drop (k + 1))
    (hmem : ∃ size, (run.start + run.len, size) ∈ parts) :
    p.1 = run.start + run.len := by
  have hlast : (run.start + run.len - 1, run.size) ∈ run.parts :=
    mem_map_of_mem (f := fun n => (n, run.size))
      (PartExt.mem_numbers.mpr ⟨by omega, by omega⟩)
  rw [← take_append_drop k parts, hdrop] at hsorted hmem
  obtain ⟨hbefore, hbehind, hacross⟩ := pairwise_append.mp hsorted
  have hlt := hacross _ (h.before_eq ▸ mem_append_right _ hlast) p
    mem_cons_self
  rw [h.before_eq] at hbefore hmem
  obtain ⟨size, hmem⟩ := hmem
  rcases mem_append.mp hmem with hin | hin
  · rcases mem_append.mp hin with hin | hin
    · have := (pairwise_append.mp hbefore).2.2 _ hin _ hlast
      dsimp only at this
      omega
    · obtain ⟨n, hn, heq⟩ := mem_map.mp hin
      have := (PartExt.mem_numbers.mp hn).2
      have := (Prod.mk.inj heq).1
      dsimp only at *
      omega
  · rcases mem_cons.mp hin with rfl | hin
    · rfl
    · have := (pairwise_cons.mp hbehind).1 _ hin
      dsimp only at *
      omega

section Exact

variable (hstores : sfs.Stores parts) (hk : k < parts.length)

include hstores hk

theorem partSent_of_insideRun {bufsize : ℤ} (hbuf : 0 < bufsize)
    (hinside : InsideRun k (completedRuns parts)) :
    PartSent sfs parts bufsize k (parts.get ⟨k, hk⟩) := by
  obtain ⟨data, extents, hseek, hstands, hahead⟩ :=
    hstores.seekMultipart hk hinside
  obtain ⟨extIdx, hidx⟩ := hstands.seeked
  set p := parts.get ⟨k, hk⟩ with hp
  have hdrop : parts.drop k = p :: parts.drop (k + 1) :=
    drop_eq_getElem_cons hk
  have hcurr : (data.currExt.start, data.currExt.size) = p := by
    rw [MultiPartDownloadData.ahead_eq hidx hstands.len_pos, hdrop] at hahead
    exact (List.cons.inj hahead).1
  have hall : parts.take k ++ (p.1, p.2) :: parts.drop (k + 1) = parts := by
    rw [← hdrop, take_append_drop]
  have hsplit : sfs.Stores
      (parts.take k ++ (p.1, p.2) :: parts.drop (k + 1)) := by
    rwa [hall]
  have hmem : (p.1, p.2) ∈ parts := get_mem parts ⟨k, hk⟩
  have hrange : RangeFound sfs parts (totalSize (parts.take k))
      (totalSize (parts.take k) + p.2) := by
    have hpos := (hstores _ hmem).1
    have htotal := congrArg totalSize hall
    have hrest := PartStorage.Stores.totalSize_nonneg
      (fun q hq => hstores q (mem_of_mem_drop hq) :
        sfs.Stores (parts.drop (k + 1)))
    have hfirst := PartStorage.Stores.totalSize_nonneg
      (fun q hq => hstores q (mem_of_mem_take hq) :
        sfs.Stores (parts.take k))
    rw [totalSize_append, totalSize_cons] at htotal
    exact ⟨hstores, hfirst, by omega, by omega⟩
  have hdata : sfs.rangeData parts (totalSize (parts.take k))
      (totalSize (parts.take k) + p.2) = sfs.partData p.1 := by
    have hpart := hsplit.occursAt_part
    rw [hall] at hpart
    refine (OccursAt.eq_rangeData hpart ?_).symm
    rw [hstores.length_partData hmem]
  refine ⟨.initPart data extents (totalSize (parts.take k))
    (totalSize (parts.take k) + p.2), ?_, rfl, rfl, fun s hrun => ?_⟩
  · rw [getPart, if_neg (by omega), show ((k : ℤ) + 1 - 1).toNat = k by omega,
      hseek, ← hcurr]
  · have hexact := (Download.inv_initPart hrange hstands.runs
      (.inr hstands)).exact hrange hbuf hrun
    rwa [hdata] at hexact

theorem partsListed_iff_of_insideRun
    (hinside : InsideRun k (completedRuns parts)) :
    PartsListed sfs parts hash k ↔ ChecksumsKept hash (parts.drop k) := by
  obtain ⟨data, extents, hseek, hstands, hahead⟩ :=
    hstores.seekMultipart hk hinside
  obtain ⟨extIdx, hidx⟩ := hstands.seeked
  obtain ⟨before, -, -, htiles, -⟩ := hstands.tiles hstores
  have hlist : ∀ maxParts, 1 ≤ maxParts →
      getObjectParts sfs hash (completedRuns parts) k maxParts =
        .ok (carried hash none (k + 1) ((parts.drop k).take maxParts),
          decide (maxParts < (parts.drop k).length)) := by
    intro maxParts hmax
    have hspec := listParts_spec hstores hash none (totalSize (parts.take k))
      (k + 1) (maxParts - 1) hidx hstands.len_pos
      (fun q hq => mem_of_mem_drop (hahead ▸ hq))
      (by rw [htiles.sum_len]; omega)
    rw [Option.or_none, hahead, Nat.sub_add_cancel hmax] at hspec
    rw [getObjectParts, hseek]
    exact hspec
  constructor
  · intro h
    have hlen : 1 ≤ (parts.drop k).length := by
      rw [length_drop]
      omega
    have hall := (hlist _ hlen).symm.trans (h _ hlen)
    rw [take_length] at hall
    exact (carried_eq_listed.mp (Prod.mk.inj (Except.ok.inj hall)).1).2
  · intro h maxParts hmax
    rw [hlist maxParts hmax, carried_eq_listed.mpr
      ⟨fun hnone => absurd hnone (by simp), h.sublist (take_sublist ..)⟩]

/-- Behind the last part of a run one part too many is listed. -/
theorem insideRun_of_partsListed (h : PartsListed sfs parts hash k) :
    InsideRun k (completedRuns parts) := by
  obtain ⟨i, run, numSeek, hstop, hiff, data, hdata, hahead, hseek⟩ :=
    seekMultipart_spec sfs hk
  by_contra hnot
  have hend : ¬ numSeek < run.len := fun hlt => hnot (hiff.mpr hlt)
  have hidx : data.extIdx = some i := by rw [hdata]
  have hmem : ∀ p ∈ data.ahead, p ∈ parts :=
    fun p hp => mem_of_mem_drop (hahead ▸ hp)
  have hne : data.ahead ≠ [] := by
    rw [hahead, ne_eq, drop_eq_nil_iff]
    omega
  obtain ⟨data', i', extents', hnext, hidx', hpos, heq, hsize⟩ :=
    hstores.enterRun hidx (by rw [hdata]; dsimp only; omega) hmem hne
      (totalSize (parts.take k))
  have hlength : 1 ≤ (parts.drop k).length := by
    rw [length_drop]
    omega
  have hlist := h ((parts.drop k).length + 1) (by omega)
  rw [getObjectParts, hseek] at hlist
  cases hread : readMultipartExt sfs (totalSize (parts.take k)) data with
  | error err =>
    rw [hread] at hlist
    cases hlist
  | ok extents =>
    rw [hread] at hlist
    change listParts .. = _ at hlist
    have hrest := listParts_spec hstores hash (hash data.currExt.start)
      (totalSize (parts.take k)) ((k : ℤ) + 1 + 1)
      ((parts.drop k).length - 1) hidx' hpos
      (fun p hp => hmem p (heq ▸ hp)) hsize
    obtain ⟨left, hleft⟩ : ∃ left, (parts.drop k).length = left + 1 :=
      ⟨_, (Nat.sub_add_cancel hlength).symm⟩
    rw [hleft] at hlist hrest
    unfold listParts at hlist
    rw [hnext] at hlist
    dsimp only at hlist
    simp only [Nat.add_sub_cancel] at hlist hrest
    rw [hrest] at hlist
    have hcount := congrArg List.length (Prod.mk.inj (Except.ok.inj hlist)).1
    simp only [length_cons, length_carried, length_listed,
      length_take, heq, hahead, hleft] at hcount
    omega

omit hstores in
/-- Behind the last part of a run the size of the run is reported, and a part
with the next number is sent. -/
theorem insideRun_of_partSent {bufsize : ℤ}
    (hsorted : parts.Pairwise fun p q => p.1 < q.1)
    (honly : ∀ n, sfs.readPrepare n ≠ none → ∃ size, (n, size) ∈ parts)
    (h : PartSent sfs parts bufsize k (parts.get ⟨k, hk⟩)) :
    InsideRun k (completedRuns parts) := by
  obtain ⟨i, run, numSeek, hstop, hiff, data, hdata, hahead, hseek⟩ :=
    seekMultipart_spec sfs hk
  by_contra hnot
  have hend : numSeek = run.len := by
    have := hstop.le
    have : ¬ numSeek < run.len := fun hlt => hnot (hiff.mpr hlt)
    omega
  subst hend
  set p := parts.get ⟨k, hk⟩ with hp
  have hdrop : parts.drop k = p :: parts.drop (k + 1) :=
    drop_eq_getElem_cons hk
  obtain ⟨s₀, hget, hdone, hremaining, -⟩ := h
  rw [getPart, if_neg (by omega), show ((k : ℤ) + 1 - 1).toNat = k by omega,
    hseek] at hget
  cases hread : sfs.readPrepare (run.start + run.len) with
  | none =>
    simp [readMultipartExt, hdata, hread, Except.map] at hget
  | some extents =>
    simp only [readMultipartExt, hdata, hread, Except.map,
      Option.some.injEq] at hget
    subst hget
    have hsize : run.size = p.2 := by
      simp only [Download.initPart, Download.init] at hremaining
      omega
    have hrunPos : 0 < run.len := len_pos_completedRuns parts run
      (mem_of_mem_drop (hstop.run_eq ▸ mem_cons_self))
    have hahead' : ((completedRuns parts).drop (i + 1)).flatMap PartExt.parts =
        p :: parts.drop (k + 1) := by
      rw [← hdrop, ← hahead, hdata, MultiPartDownloadData.ahead]
      dsimp only
      rw [PartExt.parts_of_nonpos (by dsimp only; omega), nil_append]
    have hnumber : p.1 = run.start + run.len :=
      hstop.next_number hrunPos hsorted hdrop (honly _ (by simp [hread]))
    have hchain := (completedRuns_chain parts).drop i
    rw [hstop.run_eq] at hchain
    cases hnext : (completedRuns parts).drop (i + 1) with
    | nil =>
      rw [hnext] at hahead'
      cases hahead'
    | cons e rest =>
      have hpos := len_pos_completedRuns parts e
        (mem_of_mem_drop (hnext ▸ mem_cons_self))
      rw [hnext] at hchain hahead'
      rw [flatMap_cons, PartExt.parts_of_pos hpos] at hahead'
      have hfirst : (e.start, e.size) = p := (List.cons.inj hahead').1
      refine (isChain_cons_cons.mp hchain).1 ⟨?_, ?_⟩
      · rw [hsize, ← hfirst]
      · rw [← hnumber, ← hfirst]

end Exact

end Parts

end Hs5
