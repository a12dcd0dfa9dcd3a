import Hs5.Storage.MultiFile
import Hs5.Support.Transition

/-!
# A file in chunks is one flat file

`Represents` relates the chunk files to the flat file they stand for: the
chunk files that exist are those that are open, all but the last have the
maximum size, and every byte of the flat file stands where division by the
maximum size says.
-/

namespace Hs5

open Option List ByteFile

namespace MultiFile

/-- The open chunk files stand for a flat file. -/
structure Represents (m : MultiFile) (flat : Bytes) : Prop where
  pos : 0 < m.maxSize
  isOpen : ∀ i, (m.file? i).isSome ↔ i < m.chunks
  full : ∀ i, i + 1 < m.chunks → (m.file i).length = m.maxSize
  fits : ∀ i < m.chunks, (m.file i).length ≤ m.maxSize
  length : flat.length = m.size
  bytes : ∀ i, byteAt flat i = byteAt (m.file (i / m.maxSize)) (i % m.maxSize)

variable {m : MultiFile} {flat : Bytes} {part : ℕ}

/-! ## Chunk files -/

@[simp] theorem file?_setFile (m : MultiFile) (i : ℕ) (f : Option Bytes)
    (j : ℕ) : (m.setFile i f).file? j = if j = i then f else m.file? j := by
  unfold setFile file?
  by_cases hlt : i < m.files.length
  · rw [if_pos hlt, getElem?_set]
    by_cases hji : j = i
    · simp [hji, hlt]
    · simp [hji, Ne.symm hji]
  · simp only [if_neg hlt, getElem?_append, length_replicate,
      getElem?_replicate]
    by_cases hji : j = i
    · subst hji
      simp [hlt]
    · by_cases hj : j < m.files.length
      · simp [hj, hji]
      · by_cases hgap : j - m.files.length < i - m.files.length
        · simp [hj, hji, hgap]
        · have hend : ([f] : List (Option Bytes))[j - m.files.length -
              (i - m.files.length)]? = none :=
            getElem?_eq_none (by
              rw [length_singleton]
              omega)
          simp [hj, hji, hgap, hend]

@[simp] theorem chunks_setFile (m : MultiFile) (i : ℕ) (f : Option Bytes) :
    (m.setFile i f).chunks = m.chunks := rfl

@[simp] theorem maxSize_setFile (m : MultiFile) (i : ℕ) (f : Option Bytes) :
    (m.setFile i f).maxSize = m.maxSize := rfl

theorem file_setFile (m : MultiFile) (i : ℕ) (f : Bytes) (j : ℕ) :
    (m.setFile i (some f)).file j = if j = i then f else m.file j := by
  rw [file, file?_setFile]
  split <;> rfl

theorem size_succ {n : ℕ} (h : m.chunks = n + 1) :
    m.size = (m.file n).length + n * m.maxSize := by
  rw [size, h]

theorem file_of_not_open (h : m.Represents flat) (hpart : m.chunks ≤ part) :
    m.file part = [] := by
  have hnone : m.file? part = none := by
    rw [← not_isSome_iff_eq_none, h.isOpen]
    omega
  rw [file, hnone]
  rfl

/-! ## Positions -/

theorem div_eq_iff {M i part : ℕ} (hM : 0 < M) :
    i / M = part ↔ part * M ≤ i ∧ i < part * M + M := by
  rw [Nat.div_eq_iff hM]
  omega

theorem mod_eq_sub {M i part : ℕ} (h : i / M = part) :
    i % M = i - part * M := by
  have hdiv := Nat.div_add_mod' i M
  rw [h] at hdiv
  omega

section

variable (h : m.Represents flat)

include h

theorem Represents.le_length {part : ℕ} (hpart : part + 1 < m.chunks) :
    part * m.maxSize + m.maxSize ≤ flat.length := by
  obtain ⟨n, hn⟩ : ∃ n, m.chunks = n + 1 := ⟨m.chunks - 1, by omega⟩
  have hmul := Nat.mul_le_mul_right m.maxSize (show part + 1 ≤ n by omega)
  rw [Nat.add_one_mul] at hmul
  rw [h.length, size_succ hn]
  omega

theorem Represents.length_last (hpart : part + 1 = m.chunks) :
    flat.length = part * m.maxSize + (m.file part).length := by
  rw [h.length, size_succ hpart.symm, Nat.add_comm]

theorem Represents.bytes_of_div {i : ℕ} (hi : i / m.maxSize = part) :
    byteAt flat i = byteAt (m.file part) (i - part * m.maxSize) := by
  rw [h.bytes i, hi, mod_eq_sub hi]

/-! ## Changing one chunk file -/

theorem Represents.setFile (hpart : part < m.chunks) {f flat' : Bytes}
    (hfits : f.length ≤ m.maxSize)
    (hfull : part + 1 < m.chunks → f.length = m.maxSize)
    (hlast : part + 1 = m.chunks →
      flat'.length = part * m.maxSize + f.length)
    (hinner : part + 1 < m.chunks → flat'.length = flat.length)
    (hbytes : ∀ i, byteAt flat' i =
      if part * m.maxSize ≤ i ∧ i < part * m.maxSize + m.maxSize then
        byteAt f (i - part * m.maxSize)
      else byteAt flat i) : (m.setFile part (some f)).Represents flat' where
  pos := h.pos
  isOpen i := by
    rw [file?_setFile, chunks_setFile]
    by_cases hi : i = part
    · simp [hi, hpart]
    · rw [if_neg hi]
      exact h.isOpen i
  full i hi := by
    rw [file_setFile]
    by_cases hip : i = part
    · rw [if_pos hip]
      exact hfull (by simpa [hip] using hi)
    · rw [if_neg hip]
      exact h.full i hi
  fits i hi := by
    rw [file_setFile]
    by_cases hip : i = part
    · rw [if_pos hip]
      exact hfits
    · rw [if_neg hip]
      exact h.fits i hi
  length := by
    obtain ⟨n, hn⟩ : ∃ n, m.chunks = n + 1 := ⟨m.chunks - 1, by omega⟩
    have hn' : (m.setFile part (some f)).chunks = n + 1 := hn
    rw [size_succ hn', file_setFile, maxSize_setFile]
    by_cases hend : n = part
    · rw [if_pos hend, hlast (by omega), hend, Nat.add_comm]
    · rw [if_neg hend, hinner (by omega), h.length, size_succ hn]
  bytes i := by
    rw [hbytes i, maxSize_setFile, file_setFile]
    by_cases hi : i / m.maxSize = part
    · rw [if_pos ((div_eq_iff h.pos).mp hi), if_pos hi, mod_eq_sub hi]
    · rw [if_neg (fun hin => hi ((div_eq_iff h.pos).mpr hin)), if_neg hi]
      exact h.bytes i

theorem Represents.writeAt (hpart : part < m.chunks) (off : ℕ) {d : Bytes}
    (hd : d ≠ []) (hoff : off + d.length ≤ m.maxSize) :
    (m.setFile part (some (writeAt (m.file part) off d))).Represents
      (writeAt flat (part * m.maxSize + off) d) := by
  have hpos : 0 < d.length := length_pos_iff.mpr hd
  have hfits := h.fits part hpart
  refine h.setFile hpart ?_ ?_ ?_ ?_ ?_
  · rw [length_writeAt hd]
    omega
  · intro hinner
    rw [length_writeAt hd, h.full part hinner]
    omega
  · intro hlast
    rw [length_writeAt hd, length_writeAt hd, h.length_last hlast]
    omega
  · intro hinner
    have hle := h.le_length hinner
    rw [length_writeAt hd]
    omega
  · intro i
    rw [byteAt_writeAt]
    by_cases hin : part * m.maxSize ≤ i ∧ i < part * m.maxSize + m.maxSize
    · rw [if_pos hin, byteAt_writeAt,
        ← h.bytes_of_div ((div_eq_iff h.pos).mpr hin)]
      by_cases hd' : part * m.maxSize + off ≤ i ∧
          i < part * m.maxSize + off + d.length
      · rw [if_pos hd', if_pos (by omega)]
        congr 1
        omega
      · rw [if_neg hd', if_neg (by omega)]
    · rw [if_neg hin, if_neg (by omega)]

theorem Represents.grow (hpart : part < m.chunks) (len : ℕ)
    (hlen : len ≤ m.maxSize) :
    (m.setFile part (some (grow (m.file part) len))).Represents
      (grow flat (part * m.maxSize + len)) := by
  have hfits := h.fits part hpart
  refine h.setFile hpart ?_ ?_ ?_ ?_ ?_
  · rw [length_grow]
    omega
  · intro hinner
    rw [length_grow, h.full part hinner]
    omega
  · intro hlast
    rw [length_grow, length_grow, h.length_last hlast]
    omega
  · intro hinner
    have hle := h.le_length hinner
    rw [length_grow]
    omega
  · intro i
    rw [byteAt_grow]
    by_cases hin : part * m.maxSize ≤ i ∧ i < part * m.maxSize + m.maxSize
    · rw [if_pos hin, byteAt_grow,
        ← h.bytes_of_div ((div_eq_iff h.pos).mpr hin)]
    · rw [if_neg hin]

theorem Represents.clear (hpart : part < m.chunks) {off n : ℕ}
    (hoff : off + n ≤ m.maxSize) :
    (m.setFile part (some (clear (m.file part) off n))).Represents
      (clear flat (part * m.maxSize + off) n) := by
  refine h.setFile hpart ?_ ?_ ?_ ?_ ?_
  · rw [length_clear]
    exact h.fits part hpart
  · intro hinner
    rw [length_clear, h.full part hinner]
  · intro hlast
    rw [length_clear, length_clear, h.length_last hlast]
  · intro hinner
    rw [length_clear]
  · intro i
    rw [byteAt_clear]
    by_cases hin : part * m.maxSize ≤ i ∧ i < part * m.maxSize + m.maxSize
    · rw [if_pos hin, byteAt_clear,
        ← h.bytes_of_div ((div_eq_iff h.pos).mpr hin)]
      by_cases hclear : part * m.maxSize + off ≤ i ∧
          i < part * m.maxSize + off + n
      · rw [if_pos hclear, if_pos (by omega)]
      · rw [if_neg hclear, if_neg (by omega)]
    · rw [if_neg hin, if_neg (by omega)]

end

/-! ## Adding chunk files -/

/-- The position is in an open chunk file, or in the next one and the others
are full. -/
def Reaches (m : MultiFile) (pos : ℕ) : Prop :=
  pos / m.maxSize < m.chunks ∨
    (pos / m.maxSize = m.chunks ∧ m.size = m.chunks * m.maxSize)
  deriving Decidable

@[simp] theorem chunks_addChunk (m : MultiFile) :
    m.addChunk.chunks = m.chunks + 1 := rfl

@[simp] theorem maxSize_addChunk (m : MultiFile) :
    m.addChunk.maxSize = m.maxSize := by
  unfold addChunk
  split <;> rfl

theorem file?_addChunk (h : m.Represents flat) (i : ℕ) :
    m.addChunk.file? i = if i = m.chunks then some [] else m.file? i := by
  have hnone : m.file? m.chunks = none := by
    rw [← not_isSome_iff_eq_none, h.isOpen]
    omega
  have hset : m.addChunk.file? i = (m.setFile m.chunks (some [])).file? i := by
    unfold addChunk
    rw [hnone]
    rfl
  rw [hset, file?_setFile]

theorem file_addChunk (h : m.Represents flat) (i : ℕ) :
    m.addChunk.file i = m.file i := by
  rw [file, file?_addChunk h]
  by_cases hi : i = m.chunks
  · rw [if_pos hi, hi, file_of_not_open h (Nat.le_refl _)]
    rfl
  · rw [if_neg hi]
    rfl

theorem Represents.addChunk (h : m.Represents flat)
    (hfull : m.size = m.chunks * m.maxSize) : m.addChunk.Represents flat where
  pos := by
    rw [maxSize_addChunk]
    exact h.pos
  isOpen i := by
    rw [file?_addChunk h, chunks_addChunk]
    by_cases hi : i = m.chunks
    · simp [hi]
    · rw [if_neg hi, h.isOpen]
      omega
  full i hi := by
    rw [file_addChunk h, maxSize_addChunk]
    rw [chunks_addChunk] at hi
    by_cases hlast : i + 1 = m.chunks
    · rw [size_succ hlast.symm, ← hlast, Nat.add_one_mul] at hfull
      omega
    · exact h.full i (by omega)
  fits i hi := by
    rw [file_addChunk h, maxSize_addChunk]
    rw [chunks_addChunk] at hi
    by_cases hlast : i = m.chunks
    · rw [hlast, file_of_not_open h (Nat.le_refl _)]
      exact Nat.zero_le _
    · exact h.fits i (by omega)
  length := by
    rw [size_succ (chunks_addChunk m), file_addChunk h, maxSize_addChunk,
      file_of_not_open h (Nat.le_refl _), h.length, hfull]
    simp
  bytes i := by
    rw [maxSize_addChunk, file_addChunk h]
    exact h.bytes i

theorem Represents.extendTo {pos : ℕ} (h : m.Represents flat)
    (hreach : m.Reaches pos) :
    (m.extendTo (pos / m.maxSize)).Represents flat ∧
      pos / m.maxSize < (m.extendTo (pos / m.maxSize)).chunks ∧
      (m.extendTo (pos / m.maxSize)).maxSize = m.maxSize := by
  unfold MultiFile.extendTo
  rcases hreach with hopen | ⟨hnext, hfull⟩
  · have hzero : pos / m.maxSize + 1 - m.chunks = 0 := by omega
    rw [hzero]
    exact ⟨h, hopen, rfl⟩
  · have hone : pos / m.maxSize + 1 - m.chunks = 1 := by omega
    rw [hone, addChunks, addChunks, chunks_addChunk]
    exact ⟨h.addChunk hfull, by omega, maxSize_addChunk m⟩

/-! ## The loop -/

/-- The rule for the loop of `mapOp`: an invariant that an iteration keeps, and
what holds when the loop ends. -/
theorem mapOp_rule {β : Type} (op : β → Bytes → ℕ → ℕ → ℕ × Bytes × β)
    {extend : Bool} (Inv : MultiFile → β → ℕ → ℕ → ℕ → Prop)
    (Q : ℤ → MultiFile → β → Prop)
    (hdone : ∀ m buf offset ret, Inv m buf 0 offset ret → Q ret m buf)
    (hstop : ∀ m buf count offset ret, Inv m buf count offset ret →
      m.chunks ≤ offset / m.maxSize → extend = false →
      Q (if ret = 0 then -1 else ret) m buf)
    (hstep : ∀ m buf count offset ret, Inv m buf count offset ret →
      count ≠ 0 → (offset / m.maxSize < m.chunks ∨ extend = true) →
      ∀ m₁, m₁ = m.extendTo (offset / m.maxSize) → ∀ rc f buf',
      op buf (m₁.file (offset / m.maxSize))
        (min count (m₁.maxSize - offset % m.maxSize)) (offset % m.maxSize) =
          (rc, f, buf') →
      if rc = 0 then Q ret (m₁.setFile (offset / m.maxSize) (some f)) buf'
      else rc ≤ count ∧ Inv (m₁.setFile (offset / m.maxSize) (some f)) buf'
        (count - rc) (offset + rc) (ret + rc))
    {fuel : ℕ} {m : MultiFile} {buf : β} {count offset ret : ℕ}
    (hfuel : count ≤ fuel) (h : Inv m buf count offset ret) :
    Q (mapOp op extend fuel m buf count offset ret).1
      (mapOp op extend fuel m buf count offset ret).2.1
      (mapOp op extend fuel m buf count offset ret).2.2 := by
  induction fuel generalizing m buf count offset ret with
  | zero =>
    obtain rfl : count = 0 := by omega
    exact hdone m buf offset ret h
  | succ fuel ih =>
    rw [mapOp]
    by_cases hcount : count = 0
    · subst hcount
      exact hdone m buf offset ret h
    rw [if_neg hcount]
    by_cases hend : m.chunks ≤ offset / m.maxSize ∧ extend = false
    · rw [if_pos hend]
      exact hstop m buf count offset ret h hend.1 hend.2
    rw [if_neg hend]
    have hopen : offset / m.maxSize < m.chunks ∨ extend = true := by
      rcases Bool.eq_false_or_eq_true extend with hyes | hno
      · exact .inr hyes
      · exact .inl (Nat.lt_of_not_le fun hle => hend ⟨hle, hno⟩)
    obtain ⟨⟨rc, f, buf'⟩, hop⟩ : ∃ r, r = op buf
        ((m.extendTo (offset / m.maxSize)).file (offset / m.maxSize))
        (min count ((m.extendTo (offset / m.maxSize)).maxSize -
          offset % m.maxSize)) (offset % m.maxSize) := ⟨_, rfl⟩
    have hnext := hstep m buf count offset ret h hcount hopen _ rfl rc f buf'
      hop.symm
    dsimp only
    rw [← hop]
    dsimp only
    by_cases hrc : rc = 0
    · rw [if_pos hrc] at hnext
      rw [if_pos hrc]
      exact hnext
    · rw [if_neg hrc] at hnext
      rw [if_neg hrc]
      exact ih (by omega) hnext.2

theorem Represents.reaches_next (h : m.Represents flat)
    (hpart : part < m.chunks) (hfull : (m.file part).length = m.maxSize) :
    m.Reaches (part * m.maxSize + m.maxSize) := by
  have hdiv : (part * m.maxSize + m.maxSize) / m.maxSize = part + 1 := by
    rw [div_eq_iff h.pos, Nat.add_one_mul]
    have := h.pos
    omega
  unfold Reaches
  rw [hdiv]
  by_cases hlast : part + 1 = m.chunks
  · right
    rw [size_succ hlast.symm, hfull, ← hlast, Nat.add_one_mul]
    omega
  · left
    omega

/-! ## Writing -/

/-- What is left of a write gives the file that is to be written. -/
structure Writing (target : Bytes) (m : MultiFile) (buf : Bytes)
    (count offset : ℕ) (flat : Bytes) : Prop where
  count : count = buf.length
  reaches : buf ≠ [] → m.Reaches offset
  represents : m.Represents flat
  rest : ByteFile.writeAt flat offset buf = target

theorem Writing.step {target buf : Bytes} {count offset c : ℕ}
    (h : Writing target m buf count offset flat) (hcount : count ≠ 0)
    (hc : c = min count (m.maxSize - offset % m.maxSize)) :
    Writing target
      ((m.extendTo (offset / m.maxSize)).setFile (offset / m.maxSize)
        (some (ByteFile.writeAt
          ((m.extendTo (offset / m.maxSize)).file (offset / m.maxSize))
          (offset % m.maxSize) (buf.take c))))
      (buf.drop c) (count - c) (offset + c)
      (ByteFile.writeAt flat offset (buf.take c)) := by
  have hlength := h.count
  have hnil : buf ≠ [] := by
    rintro rfl
    exact hcount hlength
  have hmod := Nat.mod_lt offset h.represents.pos
  have hsplit := Nat.div_add_mod' offset m.maxSize
  obtain ⟨h₁, hpart, hmax⟩ := h.represents.extendTo (h.reaches hnil)
  have hlen : (buf.take c).length = c := by
    rw [length_take]
    omega
  have hne : buf.take c ≠ [] := by
    rw [← length_pos_iff, hlen]
    omega
  have h₂ := h₁.writeAt hpart (offset % m.maxSize) hne
    (by rw [hmax, hlen]; omega)
  rw [hmax, hsplit] at h₂
  refine ⟨?_, ?_, h₂, ?_⟩
  · rw [length_drop, hlength]
  · intro hmore
    have hfar : c < buf.length := by
      have := length_pos_iff.mpr hmore
      rw [length_drop] at this
      omega
    have hfits := h₁.fits _ hpart
    have hfull := h₂.reaches_next hpart (by
      rw [file_setFile, if_pos rfl, length_writeAt hne, hlen,
        maxSize_setFile, hmax]
      omega)
    rw [maxSize_setFile, hmax] at hfull
    have hend : offset + c =
        offset / m.maxSize * m.maxSize + m.maxSize := by omega
    rwa [hend]
  · have hjoin := writeAt_append hne flat offset (buf.drop c)
    rw [hlen, take_append_drop] at hjoin
    rw [hjoin, h.rest]

theorem Writing.done {target buf : Bytes} {offset : ℕ}
    (h : Writing target m buf 0 offset flat) : m.Represents target := by
  have hnil : buf = [] := length_eq_zero_iff.mp h.count.symm
  have hrest := h.rest
  rw [hnil, writeAt_nil] at hrest
  rw [← hrest]
  exact h.represents

theorem Writing.maxSize_extendTo {target buf : Bytes} {count offset : ℕ}
    (h : Writing target m buf count offset flat) (hcount : count ≠ 0) :
    (m.extendTo (offset / m.maxSize)).maxSize = m.maxSize := by
  have hnil : buf ≠ [] := by
    rintro rfl
    exact hcount h.count
  exact (h.represents.extendTo (h.reaches hnil)).2.2

section

variable (h : m.Represents flat)

include h

theorem Represents.pwriteFull {buf : Bytes} {offset : ℕ}
    (hreach : buf ≠ [] → m.Reaches offset) :
    (m.pwriteFull buf offset).Represents
      (ByteFile.writeAt flat offset buf) := by
  refine mapOp_rule writeOp
    (fun m buf' count offset' _ => ∃ flat',
      Writing (ByteFile.writeAt flat offset buf) m buf' count offset' flat')
    (fun _ m _ => m.Represents (ByteFile.writeAt flat offset buf))
    ?_ ?_ ?_ (Nat.le_refl _) ⟨flat, rfl, hreach, h, rfl⟩
  · rintro m buf' offset' ret ⟨flat', hw⟩
    exact hw.done
  · rintro m buf' count offset' ret - - hno
    cases hno
  · rintro m buf' count offset' ret ⟨flat', hw⟩ hcount - m₁ rfl rc f buf'' hop
    have hmax := hw.maxSize_extendTo hcount
    have hmod := Nat.mod_lt offset' hw.represents.pos
    rw [hmax, writeOp, Prod.mk.injEq, Prod.mk.injEq] at hop
    obtain ⟨hrc, rfl, rfl⟩ := hop
    rw [if_neg (by omega), hrc]
    exact ⟨by omega, _, hw.step hcount hrc.symm⟩

/-- A write to the start of a page fills its last page with zeros. -/
def flatFillPage (flat buf : Bytes) (offset : ℕ) : Bytes :=
  if offset % fillPageSize = 0 ∧ buf.length % fillPageSize ≠ 0 then
    ByteFile.writeAt flat offset (buf ++
      List.replicate (fillPageSize - buf.length % fillPageSize) 0)
  else ByteFile.writeAt flat offset buf

/-- Chunks end with pages, and a write that fills a page is in one chunk. -/
structure FillsPage (m : MultiFile) (buf : Bytes) (offset : ℕ) : Prop where
  dvd : fillPageSize ∣ m.maxSize
  oneChunk : offset % fillPageSize = 0 → buf.length % fillPageSize ≠ 0 →
    offset % m.maxSize + buf.length ≤ m.maxSize

theorem Represents.pwriteFullFillPage_pad {buf : Bytes} {offset : ℕ}
    (hreach : m.Reaches offset) (hfill : m.FillsPage buf offset)
    (halign : offset % fillPageSize = 0)
    (hcut : buf.length % fillPageSize ≠ 0) :
    (m.pwriteFullFillPage buf offset).Represents
      (ByteFile.writeAt flat offset (buf ++
        List.replicate (fillPageSize - buf.length % fillPageSize) 0)) := by
  set pad : Bytes :=
    List.replicate (fillPageSize - buf.length % fillPageSize) 0 with hpad
  have hone := hfill.oneChunk halign hcut
  have hpage : offset % m.maxSize % fillPageSize = 0 := by
    rw [Nat.mod_mod_of_dvd offset hfill.dvd, halign]
  have hpos : 0 < buf.length := by
    refine Nat.pos_of_ne_zero fun hzero => hcut ?_
    rw [hzero]
    rfl
  obtain ⟨h₁, hpart, hmax⟩ := h.extendTo hreach
  have hfits : offset % m.maxSize + (buf ++ pad).length ≤
      (m.extendTo (offset / m.maxSize)).maxSize := by
    obtain ⟨k, hk⟩ := hfill.dvd
    rw [hmax, length_append, hpad, length_replicate]
    simp only [fillPageSize] at *
    omega
  have h₂ := h₁.writeAt hpart (offset % m.maxSize) (d := buf ++ pad)
    (append_ne_nil_of_left_ne_nil (length_pos_iff.mp hpos) _) hfits
  rw [hmax, Nat.div_add_mod' offset m.maxSize] at h₂
  refine mapOp_rule (fillPageOp buf.length) (fun m' buf' count offset' _ =>
    (m' = m ∧ buf' = buf ∧ count = buf.length ∧ offset' = offset) ∨
    (count = 0 ∧ m'.Represents (ByteFile.writeAt flat offset (buf ++ pad))))
    (fun _ m _ => m.Represents (ByteFile.writeAt flat offset (buf ++ pad)))
    ?_ ?_ ?_ (Nat.le_refl _) (.inl ⟨rfl, rfl, rfl, rfl⟩)
  · rintro m' buf' offset' ret (⟨-, -, hzero, -⟩ | ⟨-, hdone⟩)
    · omega
    · exact hdone
  · rintro m' buf' count offset' ret - - hno
    cases hno
  · rintro m' buf' count offset' ret (⟨rfl, rfl, rfl, rfl⟩ | ⟨hzero, -⟩)
      hcount - m₁ rfl rc f buf'' hop
    · have hall : min buf'.length ((m'.extendTo (offset' / m'.maxSize)).maxSize -
          offset' % m'.maxSize) = buf'.length := by
        rw [hmax]
        omega
      rw [hall, fillPageOp, if_pos ⟨rfl, hpage, hcut⟩, Prod.mk.injEq,
        Prod.mk.injEq, take_length] at hop
      obtain ⟨rfl, rfl, -⟩ := hop
      rw [if_neg hcount]
      exact ⟨Nat.le_refl _, .inr ⟨Nat.sub_self _, h₂⟩⟩
    · exact absurd hzero hcount

theorem Represents.pwriteFullFillPage {buf : Bytes} {offset : ℕ}
    (hreach : buf ≠ [] → m.Reaches offset) (hfill : m.FillsPage buf offset) :
    (m.pwriteFullFillPage buf offset).Represents
      (flatFillPage flat buf offset) := by
  have hpage : offset % m.maxSize % fillPageSize = offset % fillPageSize :=
    Nat.mod_mod_of_dvd offset hfill.dvd
  unfold flatFillPage
  by_cases hpad : offset % fillPageSize = 0 ∧ buf.length % fillPageSize ≠ 0
  · rw [if_pos hpad]
    have hnil : buf ≠ [] := by
      rintro rfl
      exact hpad.2 rfl
    exact h.pwriteFullFillPage_pad (hreach hnil) hfill hpad.1 hpad.2
  · rw [if_neg hpad]
    refine mapOp_rule (fillPageOp buf.length)
      (fun m' buf' count offset' _ => (∃ flat',
        Writing (ByteFile.writeAt flat offset buf) m' buf' count offset' flat') ∧
        count ≤ buf.length ∧ m'.maxSize = m.maxSize ∧
        (count = buf.length → offset' = offset))
      (fun _ m _ => m.Represents (ByteFile.writeAt flat offset buf))
      ?_ ?_ ?_ (Nat.le_refl _)
      ⟨⟨flat, rfl, hreach, h, rfl⟩, Nat.le_refl _, rfl, fun _ => rfl⟩
    · rintro m' buf' offset' ret ⟨⟨flat', hw⟩, -⟩
      exact hw.done
    · rintro m' buf' count offset' ret - - hno
      cases hno
    · rintro m' buf' count offset' ret ⟨⟨flat', hw⟩, hle, hsize, hfirst⟩ hcount -
        m₁ rfl rc f buf'' hop
      have hmax := hw.maxSize_extendTo hcount
      have hmod := Nat.mod_lt offset' hw.represents.pos
      have hplain : ¬ (min count (m'.maxSize - offset' % m'.maxSize) =
          buf.length ∧ offset' % m'.maxSize % fillPageSize = 0 ∧
          min count (m'.maxSize - offset' % m'.maxSize) % fillPageSize ≠
            0) := by
        rintro ⟨hall, halign, hcut⟩
        have hoffset := hfirst (by omega)
        rw [hoffset, hsize, hpage] at halign
        rw [hall] at hcut
        exact hpad ⟨halign, hcut⟩
      rw [hmax, fillPageOp, if_neg hplain, writeOp, Prod.mk.injEq,
        Prod.mk.injEq] at hop
      obtain ⟨hrc, rfl, rfl⟩ := hop
      rw [if_neg (by omega), hrc]
      refine ⟨by omega, ⟨_, hw.step hcount hrc.symm⟩, by omega, ?_, by omega⟩
      rw [maxSize_setFile, hmax, hsize]

/-! ## Holes, allocation and truncation -/

theorem Represents.length_le : flat.length ≤ m.chunks * m.maxSize := by
  rw [h.length, size]
  split
  · exact Nat.zero_le _
  · rename_i n hn
    have hfits := h.fits n (by omega)
    rw [hn, Nat.add_one_mul]
    omega

theorem Represents.length_le_of_div {pos : ℕ}
    (hpos : m.chunks ≤ pos / m.maxSize) : flat.length ≤ pos := by
  have hle := h.length_le
  have hmul := Nat.mul_le_mul_right m.maxSize hpos
  have hsplit := Nat.div_mul_le_self pos m.maxSize
  omega

end

theorem extendTo_of_lt (h : part < m.chunks) : m.extendTo part = m := by
  have hzero : part + 1 - m.chunks = 0 := by omega
  rw [extendTo, hzero, addChunks]

section

variable (h : m.Represents flat)

include h

theorem Represents.punchHole (spos size : ℕ) :
    (m.punchHole spos size).Represents (ByteFile.clear flat spos size) := by
  refine mapOp_rule punchOp
    (fun m _ count offset _ => ∃ flat', m.Represents flat' ∧
      ByteFile.clear flat' offset count = ByteFile.clear flat spos size)
    (fun _ m _ => m.Represents (ByteFile.clear flat spos size))
    ?_ ?_ ?_ (Nat.le_refl _) ⟨flat, h, rfl⟩
  · rintro m - offset ret ⟨flat', hflat, hrest⟩
    rw [clear_zero] at hrest
    rwa [← hrest]
  · rintro m - count offset ret ⟨flat', hflat, hrest⟩ hend -
    rw [clear_of_length_le (hflat.length_le_of_div hend)] at hrest
    rwa [← hrest]
  · rintro m _ count offset ret ⟨flat', hflat, hrest⟩ hcount hopen m₁ rfl rc f
      buf hop
    have hpart : offset / m.maxSize < m.chunks :=
      hopen.resolve_right (by decide)
    have hmod := Nat.mod_lt offset hflat.pos
    rw [extendTo_of_lt hpart, punchOp, Prod.mk.injEq, Prod.mk.injEq] at hop
    obtain ⟨hrc, rfl, -⟩ := hop
    rw [if_neg (by omega), extendTo_of_lt hpart, hrc]
    refine ⟨by omega, _, hflat.clear hpart (by omega), ?_⟩
    rw [Nat.div_add_mod', clear_append, ← hrest]
    congr 1
    omega

theorem Represents.alloc {len : ℕ} (hreach : len ≠ 0 → m.Reaches (len - 1)) :
    (m.alloc len).Represents (ByteFile.grow flat len) := by
  unfold MultiFile.alloc
  by_cases hlen : len = 0
  · rw [if_pos hlen, hlen, grow_of_le (Nat.zero_le _)]
    exact h
  rw [if_neg hlen]
  obtain ⟨h₁, hpart, hmax⟩ := h.extendTo (hreach hlen)
  have hmod := Nat.mod_lt (len - 1) h.pos
  have hsplit := Nat.div_add_mod' (len - 1) m.maxSize
  have h₂ := h₁.grow hpart ((len - 1) % m.maxSize + 1) (by omega)
  rw [hmax, ← Nat.add_assoc, hsplit, Nat.sub_add_cancel (by omega)] at h₂
  refine mapOp_rule allocOp (fun m' _ count offset _ =>
    (m' = m ∧ count = 1 ∧ offset = len - 1) ∨
    (count = 0 ∧ m'.Represents (ByteFile.grow flat len)))
    (fun _ m _ => m.Represents (ByteFile.grow flat len))
    ?_ ?_ ?_ (Nat.le_refl _) (.inl ⟨rfl, rfl, rfl⟩)
  · rintro m' - offset ret (⟨-, hone, -⟩ | ⟨-, hdone⟩)
    · omega
    · exact hdone
  · rintro m' - count offset ret - - hno
    cases hno
  · rintro m' _ count offset ret (⟨rfl, rfl, rfl⟩ | ⟨hzero, -⟩) hcount - m₁ rfl
      rc f buf hop
    · have hall : min 1 ((m'.extendTo ((len - 1) / m'.maxSize)).maxSize -
          (len - 1) % m'.maxSize) = 1 := by
        rw [hmax]
        omega
      rw [hall, allocOp, Prod.mk.injEq, Prod.mk.injEq] at hop
      obtain ⟨rfl, rfl, -⟩ := hop
      rw [if_neg (by decide)]
      exact ⟨Nat.le_refl _, .inr ⟨rfl, h₂⟩⟩
    · exact absurd hzero hcount

theorem Represents.reaches_length : m.Reaches flat.length := by
  unfold Reaches
  rw [← h.length]
  by_cases hzero : m.chunks = 0
  · right
    have hle := h.length_le
    rw [hzero, Nat.zero_mul] at hle
    have hlen : flat.length = 0 := by omega
    rw [hlen, hzero, Nat.zero_div, Nat.zero_mul]
    exact ⟨rfl, rfl⟩
  obtain ⟨n, hn⟩ : ∃ n, m.chunks = n + 1 := ⟨m.chunks - 1, by omega⟩
  have hlen := h.length_last hn.symm
  have hfits := h.fits n (by omega)
  by_cases hfull : (m.file n).length = m.maxSize
  · right
    have hsize : flat.length = m.chunks * m.maxSize := by
      rw [hlen, hfull, hn, Nat.add_one_mul]
    rw [hsize, Nat.mul_div_cancel _ h.pos]
    exact ⟨rfl, rfl⟩
  · left
    have hdiv : flat.length / m.maxSize = n := by
      rw [div_eq_iff h.pos]
      omega
    omega

theorem Represents.length_file (hpart : flat.length / m.maxSize < m.chunks) :
    (m.file (flat.length / m.maxSize)).length = flat.length % m.maxSize := by
  have hmod := Nat.mod_lt flat.length h.pos
  have hsplit := Nat.div_add_mod' flat.length m.maxSize
  by_cases hlast : flat.length / m.maxSize + 1 = m.chunks
  · have hlen := h.length_last hlast
    omega
  · have hinner : flat.length / m.maxSize + 1 < m.chunks := by omega
    have hle := h.le_length hinner
    omega

theorem Represents.truncate_grow {len : ℕ} (hlen : flat.length ≤ len) :
    (mapOp truncateOp true (len - flat.length) m () (len - flat.length)
      flat.length 0).2.1.Represents (ByteFile.grow flat len) := by
  refine mapOp_rule truncateOp
    (fun m _ count offset _ => ∃ flat', m.Represents flat' ∧
      flat'.length = offset ∧
      ByteFile.grow flat' (offset + count) = ByteFile.grow flat len)
    (fun _ m _ => m.Represents (ByteFile.grow flat len))
    ?_ ?_ ?_ (Nat.le_refl _) ⟨flat, h, rfl, by rw [Nat.add_sub_cancel' hlen]⟩
  · rintro m _ offset ret ⟨flat', hflat, rfl, hrest⟩
    rw [Nat.add_zero, grow_of_le (Nat.le_refl _)] at hrest
    rwa [← hrest]
  · rintro m _ count offset ret - - hno
    cases hno
  · rintro m _ count offset ret ⟨flat', hflat, rfl, hrest⟩ hcount - m₁ rfl rc f
      buf hop
    obtain ⟨h₁, hpart, hmax⟩ := hflat.extendTo hflat.reaches_length
    have hmod := Nat.mod_lt flat'.length hflat.pos
    have hsplit := Nat.div_add_mod' flat'.length m.maxSize
    have hfile := h₁.length_file (by rwa [hmax])
    rw [hmax] at hfile
    rw [hmax, truncateOp, Prod.mk.injEq, Prod.mk.injEq,
      resize_eq_grow (by rw [hfile]; omega)] at hop
    obtain ⟨hrc, rfl, -⟩ := hop
    have h₂ := h₁.grow hpart (flat'.length % m.maxSize + rc)
      (by rw [hmax]; omega)
    rw [hmax, ← Nat.add_assoc, hsplit] at h₂
    rw [if_neg (by omega), hrc]
    refine ⟨by omega, _, h₂, ?_, ?_⟩
    · rw [length_grow]
      omega
    · rw [grow_grow _ (by omega), ← hrest]
      congr 1
      omega

theorem Represents.dropLast {n : ℕ} (hn : m.chunks = n + 1) :
    ({ m.setFile n none with chunks := n } : MultiFile).Represents
      (flat.take (n * m.maxSize)) := by
  have hlen := h.length_last hn.symm
  have hfile? : ∀ i, ({ m.setFile n none with chunks := n } : MultiFile).file? i
      = if i = n then none else m.file? i := file?_setFile m n none
  have hfile : ∀ i < n,
      ({ m.setFile n none with chunks := n } : MultiFile).file i =
        m.file i := by
    intro i hi
    rw [file, hfile?, if_neg (by omega)]
    rfl
  refine ⟨h.pos, ?_, ?_, ?_, ?_, ?_⟩
  · intro i
    rw [hfile?]
    by_cases hi : i = n
    · simp [hi]
    · rw [if_neg hi, h.isOpen]
      dsimp only
      omega
  · intro i hi
    rw [hfile i (Nat.lt_of_succ_lt hi)]
    exact h.full i (by dsimp only at hi; omega)
  · intro i hi
    rw [hfile i hi]
    exact h.fits i (by dsimp only at hi; omega)
  · rw [length_take, hlen, Nat.min_eq_left (by omega)]
    cases n with
    | zero => simp [size]
    | succ k =>
      rw [size_succ (n := k) rfl, hfile k (by omega), h.full k (by omega),
        Nat.add_one_mul, Nat.add_comm]
      rfl
  · intro i
    rw [byteAt_take]
    change _ = byteAt (file _ (i / m.maxSize)) (i % m.maxSize)
    by_cases hi : i / m.maxSize < n
    · rw [hfile _ hi, if_pos ((Nat.div_lt_iff_lt_mul h.pos).mp hi)]
      exact h.bytes i
    · rw [if_neg fun hlt => hi ((Nat.div_lt_iff_lt_mul h.pos).mpr hlt)]
      have hnone : ({ m.setFile n none with chunks := n } : MultiFile).file?
          (i / m.maxSize) = none := by
        rw [hfile?]
        by_cases heq : i / m.maxSize = n
        · rw [if_pos heq]
        · rw [if_neg heq, ← not_isSome_iff_eq_none, h.isOpen]
          omega
      rw [file, hnone]
      exact (byteAt_of_length_le (Nat.zero_le _)).symm

theorem Represents.cutLast {n len : ℕ} (hn : m.chunks = n + 1)
    (hlen : len ≤ (m.file n).length) :
    (m.setFile n (some (resize (m.file n) len))).Represents
      (flat.take (n * m.maxSize + len)) := by
  have hflat := h.length_last hn.symm
  have hfits := h.fits n (by omega)
  refine h.setFile (by omega) ?_ ?_ ?_ ?_ ?_
  · rw [length_resize]
    omega
  · omega
  · intro _
    rw [length_resize, length_take]
    omega
  · omega
  · intro i
    rw [byteAt_take]
    by_cases hin : n * m.maxSize ≤ i ∧ i < n * m.maxSize + m.maxSize
    · rw [if_pos hin, byteAt_resize,
        ← h.bytes_of_div ((div_eq_iff h.pos).mpr hin)]
      by_cases hcut : i < n * m.maxSize + len
      · rw [if_pos hcut, if_pos (by omega)]
      · rw [if_neg hcut, if_neg (by omega)]
    · rw [if_neg hin]
      by_cases hcut : i < n * m.maxSize + len
      · rw [if_pos hcut]
      · rw [if_neg hcut, byteAt_of_length_le (by omega)]

end

theorem shrink_zero (fuel : ℕ) (m : MultiFile) : m.shrink fuel 0 = m := by
  cases fuel with
  | zero => rfl
  | succ fuel => rw [shrink, if_pos (.inl rfl)]

theorem Represents.shrink {fuel toTruncate : ℕ} (h : m.Represents flat)
    (hfuel : m.chunks < fuel) (hle : toTruncate ≤ flat.length) :
    (m.shrink fuel toTruncate).Represents
      (flat.take (flat.length - toTruncate)) := by
  induction fuel generalizing m flat toTruncate with
  | zero => omega
  | succ fuel ih =>
    rw [MultiFile.shrink]
    by_cases hzero : toTruncate = 0
    · rw [if_pos (.inl hzero), hzero, Nat.sub_zero, take_length]
      exact h
    have hchunks : m.chunks ≠ 0 := by
      intro hnone
      have hlen := h.length_le
      rw [hnone, Nat.zero_mul] at hlen
      omega
    obtain ⟨n, hn⟩ : ∃ n, m.chunks = n + 1 := ⟨m.chunks - 1, by omega⟩
    have hlast : m.chunks - 1 = n := by omega
    have hflat := h.length_last hn.symm
    rw [if_neg (by omega)]
    dsimp only
    rw [hlast]
    by_cases hall : (m.file n).length ≤ toTruncate
    · rw [Nat.min_eq_left hall, if_pos rfl]
      have hdrop := h.dropLast hn
      have hlen : (flat.take (n * m.maxSize)).length = n * m.maxSize := by
        rw [length_take]
        omega
      have hless : toTruncate - (m.file n).length ≤
          (flat.take (n * m.maxSize)).length := by omega
      have hrest := ih hdrop (by dsimp only; omega) hless
      rw [hlen, take_take, Nat.min_eq_left (by omega)] at hrest
      have hsame : n * m.maxSize - (toTruncate - (m.file n).length) =
          flat.length - toTruncate := by omega
      rwa [hsame] at hrest
    · have hcut := h.cutLast hn (Nat.sub_le _ toTruncate)
      have hsame : n * m.maxSize + ((m.file n).length - toTruncate) =
          flat.length - toTruncate := by omega
      rw [Nat.min_eq_right (by omega), if_neg (by omega), Nat.sub_self,
        shrink_zero, ← hsame]
      exact hcut

theorem Represents.truncate (h : m.Represents flat) (len : ℕ) :
    (m.truncate len).Represents (resize flat len) := by
  unfold MultiFile.truncate
  dsimp only
  rw [← h.length]
  by_cases hlen : len > flat.length
  · rw [if_pos hlen, resize_eq_grow (by omega)]
    exact h.truncate_grow (by omega)
  · have hshrink := h.shrink (Nat.lt_succ_self m.chunks)
      (Nat.sub_le flat.length len)
    have hsame : flat.length - (flat.length - len) = len := by omega
    rw [hsame] at hshrink
    have htake : resize flat len = flat.take len := by
      rw [resize, grow_of_le (by rw [length_take]; omega)]
    rw [if_neg hlen, htake]
    exact hshrink

/-! ## Reading -/

theorem Represents.read {offset c : ℕ} (h : m.Represents flat)
    (hpart : offset / m.maxSize < m.chunks)
    (hc : offset % m.maxSize + c ≤ m.maxSize) :
    ((m.file (offset / m.maxSize)).drop (offset % m.maxSize)).take c =
      (flat.drop offset).take c := by
  have hsplit := Nat.div_add_mod' offset m.maxSize
  have hmod := Nat.mod_lt offset h.pos
  have hfits := h.fits _ hpart
  apply ext_byteAt
  · simp only [length_take, length_drop]
    by_cases hlast : offset / m.maxSize + 1 = m.chunks
    · have hlen := h.length_last hlast
      omega
    · have hinner : offset / m.maxSize + 1 < m.chunks := by omega
      have hfull := h.full _ hinner
      have hle := h.le_length hinner
      omega
  · intro i
    simp only [byteAt_take, byteAt_drop]
    by_cases hi : i < c
    · have hdiv : (offset + i) / m.maxSize = offset / m.maxSize := by
        rw [div_eq_iff h.pos]
        omega
      rw [if_pos hi, if_pos hi, h.bytes_of_div hdiv]
      congr 1
      omega
    · rw [if_neg hi, if_neg hi]

theorem Represents.setFile_self (h : m.Represents flat)
    (hpart : part < m.chunks) :
    (m.setFile part (some (m.file part))).Represents flat := by
  refine h.setFile hpart (h.fits part hpart) (h.full part) ?_ (fun _ => rfl) ?_
  · intro hlast
    exact h.length_last hlast
  · intro i
    by_cases hin : part * m.maxSize ≤ i ∧ i < part * m.maxSize + m.maxSize
    · rw [if_pos hin, h.bytes_of_div ((div_eq_iff h.pos).mpr hin)]
    · rw [if_neg hin]

theorem take_eq_append {l : Bytes} {c count : ℕ} (hc : c ≤ count) :
    l.take count =
      l.take c ++ (l.drop (l.take c).length).take (count - (l.take c).length) := by
  by_cases hshort : c ≤ l.length
  · rw [length_take, Nat.min_eq_left hshort, ← take_add,
      Nat.add_sub_cancel' hc]
  · rw [take_of_length_le (by omega), take_of_length_le (by omega),
      drop_length]
    simp

/-- A read that does not fail returns what the flat file has in the range. -/
theorem Represents.preadFull (h : m.Represents flat) {count offset : ℕ}
    (hok : 0 ≤ (m.preadFull count offset).1) :
    (m.preadFull count offset).1 = ((flat.drop offset).take count).length ∧
      (m.preadFull count offset).2 = (flat.drop offset).take count := by
  set target := (flat.drop offset).take count with htarget
  revert hok
  refine mapOp_rule readOp
    (fun m buf count offset ret => m.Represents flat ∧
      buf ++ (flat.drop offset).take count = target ∧ ret = buf.length)
    (fun ret _ buf => 0 ≤ ret → ret = target.length ∧ buf = target)
    ?_ ?_ ?_ (Nat.le_refl _) ⟨h, rfl, rfl⟩
  · rintro m buf offset ret ⟨-, hrest, rfl⟩ -
    rw [take_zero, append_nil] at hrest
    exact ⟨by rw [hrest], hrest⟩
  · rintro m buf count offset ret ⟨hm, hrest, rfl⟩ hend - hret
    rw [drop_eq_nil_of_le (hm.length_le_of_div hend), take_nil,
      append_nil] at hrest
    by_cases hzero : buf.length = 0
    · rw [if_pos hzero] at hret
      omega
    · rw [if_neg hzero]
      exact ⟨by rw [hrest], hrest⟩
  · rintro m buf count offset ret ⟨hm, hrest, rfl⟩ hcount hopen m₁ rfl rc f
      buf' hop
    have hpart : offset / m.maxSize < m.chunks :=
      hopen.resolve_right (by decide)
    have hmod := Nat.mod_lt offset hm.pos
    set c := min count (m.maxSize - offset % m.maxSize) with hc
    rw [extendTo_of_lt hpart, ← hc, readOp,
      hm.read hpart (by omega), Prod.mk.injEq, Prod.mk.injEq] at hop
    obtain ⟨rfl, rfl, rfl⟩ := hop
    rw [extendTo_of_lt hpart]
    rw [take_eq_append (c := c) (by omega)] at hrest
    by_cases hnone : ((flat.drop offset).take c).length = 0
    · rw [if_pos hnone]
      intro _
      have hempty : flat.drop offset = [] := by
        rw [← length_eq_zero_iff]
        rw [length_take] at hnone
        omega
      rw [hempty, take_nil, length_nil, drop_nil,
        take_nil, append_nil, append_nil] at hrest
      rw [hempty, take_nil, append_nil]
      exact ⟨by rw [hrest], hrest⟩
    · rw [if_neg hnone]
      have hlen : ((flat.drop offset).take c).length ≤ c :=
        length_take_le _ _
      refine ⟨by omega, hm.setFile_self hpart, ?_, ?_⟩
      · rw [append_assoc, ← drop_drop]
        exact hrest
      · rw [length_append]

/-! ## Opening the file again -/

theorem Represents.openLoop (h : m.Represents flat) (idx lastSize : ℕ)
    {files : List (Option Bytes)} (hfiles : files = m.files.drop idx)
    (hidx : idx ≤ m.chunks)
    (hsize : 0 < idx → lastSize = (m.file (idx - 1)).length) :
    openLoop m.maxSize files idx lastSize = some m.chunks := by
  induction files generalizing idx lastSize with
  | nil =>
    have hnone : m.file? idx = none := by
      have hend := drop_eq_nil_iff.mp hfiles.symm
      rw [file?, getElem?_eq_none hend]
      rfl
    have hclosed := (h.isOpen idx).not.mp (by rw [hnone]; decide)
    rw [MultiFile.openLoop, show idx = m.chunks by omega]
    simp
  | cons f files ih =>
    have hget : m.files[idx]? = some f := by
      have hhead := congrArg (·[0]?) hfiles
      simpa using hhead.symm
    have hrest : files = m.files.drop (idx + 1) := by
      rw [← tail_drop, ← hfiles, tail_cons]
    cases f with
    | none =>
      have hnone : m.file? idx = none := by
        rw [file?, hget]
        rfl
      have hclosed := (h.isOpen idx).not.mp (by rw [hnone]; decide)
      rw [MultiFile.openLoop, show idx = m.chunks by omega]
      simp
    | some f =>
      have hsome : m.file? idx = some f := by
        rw [file?, hget]
        rfl
      have hopen := (h.isOpen idx).mp (by rw [hsome]; rfl)
      have hfile : m.file idx = f := by
        rw [file, hsome]
        rfl
      have hfull : ¬ (idx > 0 ∧ lastSize ≠ m.maxSize) := by
        rintro ⟨hpos, hne⟩
        refine hne ?_
        rw [hsize hpos]
        exact h.full (idx - 1) (by omega)
      rw [MultiFile.openLoop, if_neg hfull]
      refine ih _ _ hrest (by omega) fun _ => ?_
      rw [Nat.add_sub_cancel, hfile]

theorem Represents.reopen (h : m.Represents flat) :
    m.reopen.Represents flat := by
  have hopen := h.openLoop 0 0 rfl (Nat.zero_le _)
    (fun hpos => absurd hpos (Nat.lt_irrefl _))
  rw [drop_zero] at hopen
  unfold MultiFile.reopen
  rw [hopen]
  obtain ⟨M, files, chunks⟩ := m
  cases chunks with
  | zero => exact h.addChunk (by simp [size])
  | succ n => exact h

/-! ## Runs -/

/-- The operations that change the file, and closing and opening it again. -/
inductive FileOp where
  | pwriteFull (buf : Bytes) (offset : ℕ)
  | pwriteFullFillPage (buf : Bytes) (offset : ℕ)
  | alloc (len : ℕ)
  | truncate (len : ℕ)
  | punchHole (spos size : ℕ)
  | reopen

def apply (m : MultiFile) : FileOp → MultiFile
  | .pwriteFull buf offset => m.pwriteFull buf offset
  | .pwriteFullFillPage buf offset => m.pwriteFullFillPage buf offset
  | .alloc len => m.alloc len
  | .truncate len => m.truncate len
  | .punchHole spos size => m.punchHole spos size
  | .reopen => m.reopen

def flatApply (flat : Bytes) : FileOp → Bytes
  | .pwriteFull buf offset => ByteFile.writeAt flat offset buf
  | .pwriteFullFillPage buf offset => flatFillPage flat buf offset
  | .alloc len => ByteFile.grow flat len
  | .truncate len => resize flat len
  | .punchHole spos size => ByteFile.clear flat spos size
  | .reopen => flat

/-- The same operation on the file in chunks and on a flat file. -/
def step (s : MultiFile × Bytes) (op : FileOp) : Option (MultiFile × Bytes) :=
  some (s.1.apply op, flatApply s.2 op)

/-- Writes and allocations start in an open chunk file, or in the next one if
the others are full; a write that fills a page is in one chunk. -/
def StartsInReach (s : MultiFile × Bytes) : FileOp → Prop
  | .pwriteFull buf offset => buf ≠ [] → s.1.Reaches offset
  | .pwriteFullFillPage buf offset =>
    (buf ≠ [] → s.1.Reaches offset) ∧ s.1.FillsPage buf offset
  | .alloc len => len ≠ 0 → s.1.Reaches (len - 1)
  | _ => True

def create (maxSize : ℕ) : MultiFile := ⟨maxSize, [some []], 1⟩

theorem represents_create {maxSize : ℕ} (hpos : 0 < maxSize) :
    (create maxSize).Represents [] := by
  have hfile : ∀ i, (create maxSize).file i = [] := by
    intro i
    cases i <;> rfl
  refine ⟨hpos, ?_, ?_, ?_, ?_, ?_⟩
  · intro i
    cases i <;> simp [create, file?]
  · intro i hi
    exact absurd hi (by simp [create])
  · intro i _
    rw [hfile]
    exact Nat.zero_le _
  · rw [size_succ (n := 0) rfl, hfile, Nat.zero_mul]
    rfl
  · intro i
    rw [hfile]
    rfl

theorem Represents.apply {op : FileOp} (h : m.Represents flat)
    (hok : StartsInReach (m, flat) op) :
    (m.apply op).Represents (flatApply flat op) := by
  cases op with
  | pwriteFull buf offset => exact h.pwriteFull hok
  | pwriteFullFillPage buf offset => exact h.pwriteFullFillPage hok.1 hok.2
  | alloc len => exact h.alloc hok
  | truncate len => exact h.truncate len
  | punchHole spos size => exact h.punchHole spos size
  | reopen => exact h.reopen

/-- Reads return the bytes of the flat file, and all chunk files but the last
have the maximum size, so that the file opens again. -/
structure IsFlat (s : MultiFile × Bytes) : Prop where
  reads : ∀ count offset, 0 ≤ (s.1.preadFull count offset).1 →
    (s.1.preadFull count offset).1 =
        ((s.2.drop offset).take count).length ∧
      (s.1.preadFull count offset).2 = (s.2.drop offset).take count
  full : ∀ i, i + 1 < s.1.chunks → (s.1.file i).length = s.1.maxSize

/-- In every run of operations that start in reach, the file in chunks is one
flat file. -/
theorem isFlat_of_run {maxSize : ℕ} (hpos : 0 < maxSize)
    {s : MultiFile × Bytes}
    (hrun : Transition.Run step StartsInReach (create maxSize, []) s) :
    IsFlat s := by
  have h : s.1.Represents s.2 := by
    apply hrun.invariant
    · exact represents_create hpos
    · rintro ⟨m, flat⟩ op s' hm hok hs
      cases hs
      exact hm.apply hok
  exact ⟨fun count offset hread => h.preadFull hread, h.full⟩

instance (m : MultiFile) (buf : Bytes) (offset : ℕ) :
    Decidable (m.FillsPage buf offset) :=
  decidable_of_iff (fillPageSize ∣ m.maxSize ∧ (offset % fillPageSize = 0 →
    buf.length % fillPageSize ≠ 0 →
    offset % m.maxSize + buf.length ≤ m.maxSize))
    ⟨fun h => ⟨h.1, h.2⟩, fun h => ⟨h.dvd, h.oneChunk⟩⟩

instance (s : MultiFile × Bytes) (op : FileOp) :
    Decidable (StartsInReach s op) := by
  rcases op with ⟨⟩ <;> dsimp only [StartsInReach] <;> infer_instance

/-- Chunks of four bytes: a write over two boundaries, a hole, and the file is
opened again. -/
theorem isFlat_of_run_fourBytes :
    ∃ s, Transition.Run step StartsInReach (create 4, []) s ∧
      s.1.chunks = 3 ∧ IsFlat s := by
  obtain ⟨s, hs, hchunks⟩ : ∃ s ∈ Transition.exec (Transition.guarded step
      StartsInReach) (create 4, []) [.alloc 2,
        .pwriteFull (ascii "over chunk") 1, .punchHole 3 4, .reopen,
        .truncate 9], s.1.chunks = 3 := by decide +kernel
  have hrun := Transition.run_of_exec_guarded hs
  exact ⟨s, hrun, hchunks, isFlat_of_run (by decide) hrun⟩

/-- Allocating over a boundary leaves a short chunk file, and opening the file
again loses what was written. -/
theorem not_isFlat_alloc_over_boundary :
    ∃ s, Transition.Run step Transition.anyStep (create 4, []) s ∧
      ¬ IsFlat s ∧ s.2.take 2 = ascii "ab" ∧
      (s.1.reopen.preadFull 2 0) = (-1, []) := by
  obtain ⟨s, hs, hchunks, hshort, hmax, hbytes, hread⟩ :
      ∃ s ∈ Transition.exec step (create 4, [])
        [.pwriteFull (ascii "ab") 0, .alloc 6],
      s.1.chunks = 2 ∧ (s.1.file 0).length = 2 ∧ s.1.maxSize = 4 ∧
        s.2.take 2 = ascii "ab" ∧
        s.1.reopen.preadFull 2 0 = (-1, []) := by decide +kernel
  refine ⟨s, Transition.run_of_exec hs, fun hflat => ?_, hbytes, hread⟩
  have hfull := hflat.full 0 (by omega)
  omega

end MultiFile

end Hs5
