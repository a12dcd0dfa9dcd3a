import Hs5.Storage.Extent

/-!
# The free map

`dbi_free` maps the offset of every free extent to its length and
`dbi_free_len` is the same relation indexed by length, longest first.
`add_freemap_ext` returns an extent to the map and joins it with the free
extents it touches; `find_freemap_ext` walks the length index and takes the
first extent that no skip rule excludes.
-/

namespace Hs5

open List Cover OrderedMap

/-! ## State and operations -/

/-- The free map of the open transaction with the counters kept beside it. -/
structure Freemap where
  /-- `dbi_free`: offset to length -/
  free : OrderedMap ℤ ℤ
  /-- `dbi_free_len`: pairs of length and offset -/
  freeLen : List (ℤ × ℤ)
  dataFileFree : ℤ
  currNewFreeExtents : List ℤ
  trimItems : List SPunchItem
  deriving DecidableEq

/-- Order of `dbi_free_len`: descending length (`mdb_cmp_varint_rev`), and
duplicates of one length in the byte order of their encoded offsets. -/
def lenLe (a b : ℤ × ℤ) : Prop :=
  b.1 < a.1 ∨ (a.1 = b.1 ∧ memcmpLe (addVarInt a.2) (addVarInt b.2) = true)

instance : DecidableRel lenLe := fun _ _ => inferInstanceAs (Decidable (_ ∨ _))

instance decidableMemPairs (e : ℤ × ℤ) (l : List (ℤ × ℤ)) :
    Decidable (e ∈ l) :=
  inferInstance

def putLen (l : List (ℤ × ℤ)) (e : ℤ × ℤ) : List (ℤ × ℤ) :=
  if e ∈ l then l else l.orderedInsert lenLe e

/-- `operator<` of `SPunchItem` looks at the offset only. -/
def SPunchItem.le (a b : SPunchItem) : Prop := a.offset ≤ b.offset

instance : DecidableRel SPunchItem.le :=
  fun a b => inferInstanceAs (Decidable (a.offset ≤ b.offset))

/-- `insert` into the set of items to trim, which keeps an item it already
has at that offset. -/
def insertTrim (items : List SPunchItem) (item : SPunchItem) :
    List SPunchItem :=
  if items.any fun t => t.offset = item.offset then items
  else items.orderedInsert SPunchItem.le item

def eraseTrim (items : List SPunchItem) (offset : ℤ) : List SPunchItem :=
  items.filter fun t => t.offset ≠ offset

namespace Freemap

/-- Store an extent in both indexes and mark it for trimming. -/
def put (fm : Freemap) (offset len : ℤ) : Freemap :=
  { fm with
    free := fm.free.insert offset len
    freeLen := putLen fm.freeLen (len, offset)
    trimItems := insertTrim fm.trimItems ⟨offset, len⟩ }

def delFree (fm : Freemap) (offset : ℤ) : Freemap :=
  { fm with
    free := fm.free.erase offset
    trimItems := eraseTrim fm.trimItems offset }

def eraseLen (fm : Freemap) (offset len : ℤ) : Freemap :=
  { fm with
    freeLen := fm.freeLen.erase (len, offset)
    trimItems := eraseTrim fm.trimItems offset }

/-- `mdb_del` on `dbi_free_len`, which fails if the pair is not stored. -/
def delLen (fm : Freemap) (offset len : ℤ) : Option Freemap :=
  if (len, offset) ∈ fm.freeLen then some (fm.eraseLen offset len) else none

/-- Take the following extent that is being joined out of `dbi_free`. -/
def delNext (fm : Freemap) : Option (ℤ × ℤ) → Freemap
  | some (nextOffset, _) => fm.delFree nextOffset
  | none => fm

/-- Drop the length entry of the following extent that is being joined. -/
def delNextLen (fm : Freemap) : Option (ℤ × ℤ) → Option Freemap
  | some (nextOffset, nextLen) => fm.delLen nextOffset nextLen
  | none => some fm

/-- Length contributed by the following extent that is being joined. -/
def nextLen : Option (ℤ × ℤ) → ℤ
  | some next => next.2
  | none => 0

def account (fm : Freemap) (offset len : ℤ) (usedInCurrTrans : Bool) :
    Freemap :=
  { fm with
    dataFileFree := fm.dataFileFree + len
    currNewFreeExtents :=
      if usedInCurrTrans then fm.currNewFreeExtents.insert offset
      else fm.currNewFreeExtents }

/-- Store the new extent, joined with the following one if there is one. -/
def addUnmerged (fm : Freemap) (offset len : ℤ)
    (next : Option (ℤ × ℤ)) : Option Freemap :=
  (fm.delNextLen next).map fun fm => fm.put offset (len + nextLen next)

/-- Extend the preceding extent over the new one and the following one. -/
def addToPrev (fm : Freemap) (prevOffset prevLength len : ℤ)
    (next : Option (ℤ × ℤ)) : Option Freemap :=
  (fm.delLen prevOffset prevLength).bind fun fm =>
    (fm.delNextLen next).map fun fm =>
    fm.put prevOffset (prevLength + len + nextLen next)

/-- The second half of `add_freemap_ext`: the step to the preceding entry
(`MDB_PREV`) and the insertion. -/
def addWithNext (fm : Freemap) (offset len : ℤ) (usedInCurrTrans : Bool)
    (next : Option (ℤ × ℤ)) : Option Freemap :=
  let fm := fm.delNext next
  match fm.free.below offset with
  | some (prevOffset, prevLength) =>
    if prevOffset + prevLength > offset ∧ prevOffset ≤ offset then
      some fm
    else if offset = prevOffset + prevLength then
      (fm.addToPrev prevOffset prevLength len next).map
        (account · offset len usedInCurrTrans)
    else
      (fm.addUnmerged offset len next).map
        (account · offset len usedInCurrTrans)
  | none =>
    (fm.addUnmerged offset len next).map (account · offset len usedInCurrTrans)

/-- `add_freemap_ext` on a length already rounded to blocks: the step to the
entry at or after the offset (`MDB_SET_RANGE`). -/
def addRounded (fm : Freemap) (offset len : ℤ) (usedInCurrTrans : Bool) :
    Option Freemap :=
  match fm.free.lowerBound offset with
  | some (nextOffset, nextLen) =>
    if offset + len > nextOffset then
      some fm
    else if offset + len = nextOffset then
      fm.addWithNext offset len usedInCurrTrans (some (nextOffset, nextLen))
    else fm.addWithNext offset len usedInCurrTrans none
  | none => fm.addWithNext offset len usedInCurrTrans none

/-- `add_freemap_ext`; `none` is its failure result. -/
def addFreemapExt (fm : Freemap) (offset len : ℤ)
    (usedInCurrTrans : Bool) : Option Freemap :=
  if offset = 0 ∧ len = 0 then some fm
  else fm.addRounded offset (roundUp len) usedInCurrTrans

/-- Remove an extent from both indexes, as the commit thread does when it
takes an extent for writing or punches a hole. -/
def delFreemapExt (fm : Freemap) (offset len : ℤ) : Option Freemap :=
  if fm.free.lookup offset = none then none
  else if (len, offset) ∈ fm.freeLen then
    some { fm with
      free := fm.free.erase offset
      freeLen := fm.freeLen.erase (len, offset)
      dataFileFree := fm.dataFileFree - len }
  else none

end Freemap

/-- The ranges `find_freemap_ext` keeps away from besides the extents freed in
the open transaction. -/
structure SkipExtents where
  /-- `curr_free_skip_extents`, set by the defragmenter -/
  currFreeSkipExtents : List SPunchItem
  /-- `reading_free_skip_extents` -/
  readingFreeSkipExtents : List ℤ
  /-- `trimming_free_skip_extents` -/
  trimmingFreeSkipExtents : List ℤ
  deriving DecidableEq

/-- The test on `curr_free_skip_extents`, with its end points as in the
source. -/
def SPunchItem.skips (ext : SPunchItem) (start len : ℤ) : Bool :=
  (start > ext.offset && start ≤ ext.offset + ext.len) ||
    (start + len > ext.offset && start + len ≤ ext.offset + ext.len)

/-- `lower_bound(start)` finds an element before `start + len`. -/
def hasPointIn (points : List ℤ) (start len : ℤ) : Bool :=
  points.any fun p => start ≤ p && p < start + len

def Freemap.eligible (fm : Freemap) (skip : SkipExtents) (start len : ℤ) :
    Bool :=
  !(skip.currFreeSkipExtents.any fun ext => ext.skips start len) &&
    !hasPointIn fm.currNewFreeExtents start len &&
    !hasPointIn skip.readingFreeSkipExtents start len &&
    !hasPointIn skip.trimmingFreeSkipExtents start len

/-- `find_freemap_ext`: the first eligible extent in the order of the length
index, as offset and length. -/
def Freemap.findFreemapExt (fm : Freemap) (skip : SkipExtents) :
    Option (ℤ × ℤ) :=
  (fm.freeLen.find? fun e => fm.eligible skip e.2 e.1).map fun e => (e.2, e.1)

/-! ## Consistency of the two indexes -/

def freeSpan (p : ℤ × ℤ) : List (ℤ × ℤ) := [(p.1, p.1 + p.2)]

/-- The free extents are whole blocks and the length index is the exact
inverse of the offset index. -/
structure FreeOk (free : OrderedMap ℤ ℤ) (freeLen : List (ℤ × ℤ)) : Prop where
  nonneg : ∀ p ∈ free, 0 ≤ p.1
  dvd : ∀ p ∈ free, blockSize ∣ p.1
  dvdLen : ∀ p ∈ free, blockSize ∣ p.2
  pos : ∀ p ∈ free, 0 < p.2
  inverse : ∀ offset len, (len, offset) ∈ freeLen ↔ (offset, len) ∈ free
  nodup : freeLen.Nodup

theorem mem_putLen {l : List (ℤ × ℤ)} {e e' : ℤ × ℤ} :
    e' ∈ putLen l e ↔ e' = e ∨ e' ∈ l := by
  unfold putLen
  split
  · constructor
    · exact .inr
    · rintro (rfl | h) <;> assumption
  · exact mem_orderedInsert lenLe

theorem nodup_putLen {l : List (ℤ × ℤ)} (e : ℤ × ℤ) (h : l.Nodup) :
    (putLen l e).Nodup := by
  unfold putLen
  split
  · exact h
  · rename_i hmem
    have hperm := perm_orderedInsert lenLe e l
    exact hperm.nodup_iff.mpr (nodup_cons.mpr ⟨hmem, h⟩)

theorem mem_insertTrim {items : List SPunchItem} {t item : SPunchItem}
    (h : t ∈ insertTrim items item) : t = item ∨ t ∈ items := by
  unfold insertTrim at h
  split at h
  · exact .inr h
  · exact (mem_orderedInsert SPunchItem.le).mp h

theorem mem_eraseTrim {items : List SPunchItem} {offset : ℤ}
    {t : SPunchItem} :
    t ∈ eraseTrim items offset ↔ t ∈ items ∧ t.offset ≠ offset := by
  simp [eraseTrim]

theorem freeOk_empty : FreeOk OrderedMap.empty [] := by
  constructor <;> simp

variable {free : OrderedMap ℤ ℤ}

theorem FreeOk.erase {freeLen : List (ℤ × ℤ)} (h : FreeOk free freeLen)
    {offset len : ℤ} (hmem : (offset, len) ∈ free) :
    FreeOk (free.erase offset) (freeLen.erase (len, offset)) := by
  refine ⟨?_, ?_, ?_, ?_, ?_, h.nodup.erase _⟩
  · intro p hp
    exact h.nonneg p (mem_erase.mp hp).1
  · intro p hp
    exact h.dvd p (mem_erase.mp hp).1
  · intro p hp
    exact h.dvdLen p (mem_erase.mp hp).1
  · intro p hp
    exact h.pos p (mem_erase.mp hp).1
  · intro o l
    rw [h.nodup.mem_erase_iff, mem_erase, h.inverse]
    constructor
    · rintro ⟨hne, hol⟩
      refine ⟨hol, ?_⟩
      rintro rfl
      have heq := eq_of_mem hol hmem rfl
      exact hne (by simp_all)
    · rintro ⟨hol, hne⟩
      exact ⟨fun heq => hne (by simp_all), hol⟩

theorem FreeOk.insert {freeLen : List (ℤ × ℤ)} (h : FreeOk free freeLen)
    {offset len : ℤ} (hnew : ∀ p ∈ free, p.1 ≠ offset) (hnonneg : 0 ≤ offset)
    (hdvd : blockSize ∣ offset) (hlen : blockSize ∣ len) (hpos : 0 < len) :
    FreeOk (free.insert offset len) (putLen freeLen (len, offset)) := by
  refine ⟨?_, ?_, ?_, ?_, ?_, nodup_putLen _ h.nodup⟩
  · intro p hp
    rcases mem_insert.mp hp with rfl | ⟨hp, _⟩
    · exact hnonneg
    · exact h.nonneg p hp
  · intro p hp
    rcases mem_insert.mp hp with rfl | ⟨hp, _⟩
    · exact hdvd
    · exact h.dvd p hp
  · intro p hp
    rcases mem_insert.mp hp with rfl | ⟨hp, _⟩
    · exact hlen
    · exact h.dvdLen p hp
  · intro p hp
    rcases mem_insert.mp hp with rfl | ⟨hp, _⟩
    · exact hpos
    · exact h.pos p hp
  · intro o l
    rw [mem_putLen, mem_insert, h.inverse]
    constructor
    · rintro (heq | hol)
      · left
        simp_all
      · exact .inr ⟨hol, hnew _ hol⟩
    · rintro (heq | ⟨hol, _⟩)
      · left
        simp_all
      · exact .inr hol

namespace Freemap

/-- How many free extents contain the byte at `x`. -/
def freeMult (fm : Freemap) (x : ℤ) : ℕ := multMap freeSpan fm.free x

def WellFormed (fm : Freemap) : Prop := FreeOk fm.free fm.freeLen

theorem freeMult_erase {offset len : ℤ} (h : (offset, len) ∈ free) (x : ℤ) :
    multMap freeSpan free x =
      ind (offset, offset + len) x +
        multMap freeSpan (free.erase offset) x := by
  rw [multMap_erase freeSpan h]
  simp [freeSpan]

theorem freeMult_insert {offset : ℤ} (h : ∀ p ∈ free, p.1 ≠ offset)
    (len x : ℤ) :
    multMap freeSpan (free.insert offset len) x =
      ind (offset, offset + len) x + multMap freeSpan free x := by
  rw [multMap_insert, erase_eq_self h]
  simp [freeSpan]

theorem freeMult_pos {fm : Freemap} {p : ℤ × ℤ} (hp : p ∈ fm.free) {x : ℤ}
    (hlo : p.1 ≤ x) (hhi : x < p.1 + p.2) : 0 < fm.freeMult x := by
  have hle := mult_le_multMap freeSpan hp x
  simp [freeSpan, ind, hlo, hhi] at hle
  exact hle

theorem delLen_of_mem {fm : Freemap} {offset len : ℤ}
    (h : (len, offset) ∈ fm.freeLen) :
    fm.delLen offset len = some (fm.eraseLen offset len) :=
  if_pos h

/-! ## Adding an extent -/

/-- A free extent that ends at `offset` is not the one `MDB_PREV` steps to from
there. -/
def ShadowedBefore (fm : Freemap) (offset : ℤ) : Prop :=
  ∀ p ∈ fm.free, p.1 + p.2 = offset → ∃ p' ∈ fm.free, p.1 < p'.1 ∧ p'.1 < offset

/-- The free extent `q` that an inserted extent becomes part of: every other
free extent is kept or becomes part of it as well. -/
structure Joined (fm : Freemap) (offset len : ℤ) (fm' : Freemap)
    (q : ℤ × ℤ) : Prop where
  mem : q ∈ fm'.free
  start : q.1 ≤ offset
  stop : offset + len ≤ q.1 + q.2
  old : ∀ p ∈ fm.free, p ∈ fm'.free ∨ (q.1 ≤ p.1 ∧ p.1 + p.2 ≤ q.1 + q.2)
  trim : ∀ t ∈ fm'.trimItems, t ∈ fm.trimItems ∨ t = ⟨q.1, q.2⟩
  only : ∀ p ∈ fm'.free, p ∈ fm.free ∨ p = q
  first : (q.1 = offset ∧ fm.ShadowedBefore offset) ∨
    ∃ p ∈ fm.free, p.1 = q.1 ∧ p.1 + p.2 = offset
  last : (q.1 + q.2 = offset + len ∧ ∀ p ∈ fm.free, p.1 ≠ offset + len) ∨
    ∃ p ∈ fm.free, p.1 = offset + len ∧ p.1 + p.2 = q.1 + q.2
  kept : ∀ t ∈ fm'.trimItems, t = ⟨q.1, q.2⟩ ∨
    ∀ p ∈ fm.free, p.1 = t.offset → p ∈ fm'.free

/-- What a successful insertion of whole blocks does. -/
structure Added (fm : Freemap) (offset len : ℤ) (used : Bool)
    (fm' : Freemap) : Prop where
  wellFormed : fm'.WellFormed
  mult : ∀ x, fm'.freeMult x = fm.freeMult x + ind (offset, offset + len) x
  dataFileFree : fm'.dataFileFree = fm.dataFileFree + len
  newFree : fm'.currNewFreeExtents =
    if used then fm.currNewFreeExtents.insert offset
    else fm.currNewFreeExtents
  joined : ∃ q, Joined fm offset len fm' q

/-- `fm₁` is `fm` without the extent that follows `stop`. -/
structure WithoutNext (fm : Freemap) (stop : ℤ) (next : Option (ℤ × ℤ))
    (fm₁ : Freemap) : Prop where
  wellFormed : fm₁.WellFormed
  mult : ∀ x, fm.freeMult x = fm₁.freeMult x + ind (stop, stop + nextLen next) x
  subset : ∀ p ∈ fm₁.free, p ∈ fm.free
  free : fm₁.free = (fm.delNext next).free
  dataFileFree : fm₁.dataFileFree = fm.dataFileFree
  newFree : fm₁.currNewFreeExtents = fm.currNewFreeExtents
  old : ∀ p ∈ fm.free, p ∈ fm₁.free ∨ p = (stop, nextLen next)
  trim : ∀ t ∈ fm₁.trimItems, t ∈ fm.trimItems
  kept : ∀ t ∈ fm₁.trimItems, ∀ p ∈ fm.free, p.1 = t.offset → p ∈ fm₁.free

section AddExt

variable {fm : Freemap} {offset len : ℤ} {next : Option (ℤ × ℤ)}

theorem delNextLen_spec (hok : fm.WellFormed) {stop : ℤ}
    (hnext : ∀ n ∈ next, n ∈ fm.free ∧ stop = n.1) :
    ∃ fm₁, (fm.delNext next).delNextLen next = some fm₁ ∧
      WithoutNext fm stop next fm₁ := by
  cases next with
  | none =>
    refine ⟨fm, rfl, hok, ?_, fun p hp => hp, rfl, rfl, rfl,
      fun p hp => .inl hp, fun t ht => ht, fun t _ p hp _ => hp⟩
    intro x
    rw [ind_of_le (by simp [nextLen]), Nat.add_zero]
  | some n =>
    obtain ⟨hn, rfl⟩ := hnext n rfl
    have hmem : (n.2, n.1) ∈ fm.freeLen := (hok.inverse _ _).mpr hn
    refine ⟨_, if_pos hmem, FreeOk.erase hok hn, ?_, ?_, rfl, rfl, rfl,
      ?_, ?_, ?_⟩
    · intro x
      have h := freeMult_erase hn x
      simp only [freeMult, nextLen, delNext, delFree, eraseLen] at h ⊢
      omega
    · intro p hp
      exact (mem_erase.mp hp).1
    · intro p hp
      by_cases hkey : p.1 = n.1
      · exact .inr (eq_of_mem hp hn hkey)
      · exact .inl (mem_erase.mpr ⟨hp, hkey⟩)
    · intro t ht
      exact (mem_eraseTrim.mp (mem_eraseTrim.mp ht).1).1
    · intro t ht p hp hkey
      exact mem_erase.mpr ⟨hp, hkey ▸ (mem_eraseTrim.mp ht).2⟩

variable (hok : fm.WellFormed) (hnonneg : 0 ≤ offset)
  (hdvd : blockSize ∣ offset) (hlen : blockSize ∣ len) (hpos : 0 < len)
  (hnext : ∀ n ∈ next, n ∈ fm.free ∧ offset + len = n.1)

include hok hnext in
theorem nextLen_spec : 0 ≤ nextLen next ∧ blockSize ∣ nextLen next := by
  cases next with
  | none => exact ⟨le_rfl, dvd_zero _⟩
  | some n =>
    obtain ⟨hn, _⟩ := hnext n rfl
    exact ⟨(hok.pos n hn).le, hok.dvdLen n hn⟩

theorem joined_last {fm : Freemap} {offset len : ℤ}
    {next : Option (ℤ × ℤ)} {q : ℤ × ℤ}
    (hnext : ∀ n ∈ next, n ∈ fm.free ∧ offset + len = n.1)
    (hnone : next = none → ∀ p ∈ fm.free, p.1 ≠ offset + len)
    (hq : q.1 + q.2 = offset + len + nextLen next) :
    (q.1 + q.2 = offset + len ∧ ∀ p ∈ fm.free, p.1 ≠ offset + len) ∨
      ∃ p ∈ fm.free, p.1 = offset + len ∧ p.1 + p.2 = q.1 + q.2 := by
  cases next with
  | none => exact .inl ⟨by simpa [nextLen] using hq, hnone rfl⟩
  | some n =>
    obtain ⟨hn, hstop⟩ := hnext n rfl
    exact .inr ⟨n, hn, hstop.symm, by rw [hq, hstop, nextLen]⟩

variable (hnone : next = none → ∀ p ∈ fm.free, p.1 ≠ offset + len)

include hok hnonneg hdvd hlen hpos hnext hnone

theorem addUnmerged_spec (used : Bool) (hnew : ∀ p ∈ fm.free, p.1 ≠ offset)
    (hshadow : fm.ShadowedBefore offset) :
    ∃ fm', ((fm.delNext next).addUnmerged offset len next).map
        (account · offset len used) = some fm' ∧
      Added fm offset len used fm' := by
  obtain ⟨fm₁, hdel, hrest⟩ := delNextLen_spec hok hnext
  obtain ⟨hnlen, hndvd⟩ := nextLen_spec hok hnext
  have hnew₁ : ∀ p ∈ fm₁.free, p.1 ≠ offset := fun p hp =>
    hnew p (hrest.subset p hp)
  refine ⟨(fm₁.put offset (len + nextLen next)).account offset len used,
    by simp [addUnmerged, hdel], ?_, ?_, ?_, ?_, ?_⟩
  · exact FreeOk.insert hrest.wellFormed hnew₁ hnonneg hdvd
      (dvd_add hlen hndvd) (by omega)
  · intro x
    have hins := freeMult_insert hnew₁ (len + nextLen next) x
    have hmult := hrest.mult x
    have hsplit := ind_split (a := offset) (m := offset + len)
      (b := offset + (len + nextLen next)) (by omega) (by omega) x
    rw [← add_assoc] at hsplit hins
    simp only [freeMult, put, account] at hins hmult ⊢
    omega
  · simp [account, put, hrest.dataFileFree]
  · simp [account, put, hrest.newFree]
  · refine ⟨(offset, len + nextLen next),
      mem_insert.mpr (.inl rfl), le_rfl, by simp only; omega,
      ?_, ?_, ?_, .inl ⟨rfl, hshadow⟩,
      joined_last hnext hnone (by simp only; omega), ?_⟩
    · intro p hp
      rcases hrest.old p hp with hp₁ | rfl
      · exact .inl (mem_insert.mpr (.inr ⟨hp₁, hnew p hp⟩))
      · right
        simp only
        omega
    · intro t ht
      rcases mem_insertTrim ht with rfl | ht
      · exact .inr rfl
      · exact .inl (hrest.trim t ht)
    · intro p hp
      rcases mem_insert.mp hp with rfl | ⟨hp, _⟩
      · exact .inr rfl
      · exact .inl (hrest.subset p hp)
    · intro t ht
      rcases mem_insertTrim ht with rfl | ht
      · exact .inl rfl
      · refine .inr fun p hp hkey => mem_insert.mpr ?_
        exact .inr ⟨hrest.kept t ht p hp hkey, hnew p hp⟩

omit hnonneg hdvd hlen hnone in
theorem delPrevLen_spec {fm₁ : Freemap} {prevOffset prevLength : ℤ}
    (hdel : (fm.delNext next).delNextLen next = some fm₁)
    (hprev : (prevOffset, prevLength) ∈ fm.free)
    (htouch : offset = prevOffset + prevLength) :
    ∃ fm₂, ((fm.delNext next).delLen prevOffset prevLength).bind
        (·.delNextLen next) = some fm₂ ∧
      fm₂.free = fm₁.free ∧
      fm₂.freeLen = fm₁.freeLen.erase (prevLength, prevOffset) ∧
      fm₂.dataFileFree = fm₁.dataFileFree ∧
      fm₂.currNewFreeExtents = fm₁.currNewFreeExtents ∧
      ∀ t ∈ fm₂.trimItems, t ∈ fm₁.trimItems ∧ t.offset ≠ prevOffset := by
  have hmem : (prevLength, prevOffset) ∈ fm.freeLen :=
    (hok.inverse _ _).mpr hprev
  cases next with
  | none =>
    cases hdel
    refine ⟨fm.eraseLen prevOffset prevLength, ?_, rfl, rfl, rfl, rfl,
      fun t ht => mem_eraseTrim.mp ht⟩
    rw [delNext, delLen_of_mem hmem]
    rfl
  | some n =>
    obtain ⟨hn, hstop⟩ := hnext n rfl
    have hnmem : (n.2, n.1) ∈ fm.freeLen := (hok.inverse _ _).mpr hn
    have hppos := hok.pos _ hprev
    have hne : (n.2, n.1) ≠ (prevLength, prevOffset) := by
      intro heq
      simp only [Prod.mk.injEq] at heq
      omega
    have hnmem' : (n.2, n.1) ∈ fm.freeLen.erase (prevLength, prevOffset) :=
      (mem_erase_of_ne hne).mpr hnmem
    have hdel' : (fm.delFree n.1).delLen n.1 n.2 = some fm₁ := hdel
    rw [delLen_of_mem (by exact hnmem)] at hdel'
    cases hdel'
    refine ⟨((fm.delFree n.1).eraseLen prevOffset prevLength).eraseLen
      n.1 n.2, ?_, rfl, erase_comm _ _, rfl, rfl, ?_⟩
    · rw [delNext, delLen_of_mem (by exact hmem), Option.bind_some]
      exact delLen_of_mem (by exact hnmem')
    · intro t ht
      obtain ⟨ht, hnkey⟩ := mem_eraseTrim.mp ht
      obtain ⟨ht, hpkey⟩ := mem_eraseTrim.mp ht
      exact ⟨mem_eraseTrim.mpr ⟨ht, hnkey⟩, hpkey⟩

omit hnonneg hdvd in
theorem addToPrev_spec (used : Bool) {prevOffset prevLength : ℤ}
    (hprev : (prevOffset, prevLength) ∈ fm.free)
    (htouch : offset = prevOffset + prevLength) :
    ∃ fm', ((fm.delNext next).addToPrev prevOffset prevLength len next).map
        (account · offset len used) = some fm' ∧
      Added fm offset len used fm' := by
  obtain ⟨fm₁, hdel, hrest⟩ := delNextLen_spec hok hnext
  obtain ⟨hnlen, hndvd⟩ := nextLen_spec hok hnext
  obtain ⟨fm₂, hdel₂, hfree, hfreeLen, hcount, hnew, htrim⟩ :=
    delPrevLen_spec hok hpos hnext hdel hprev htouch
  have hppos := hok.pos _ hprev
  have hprev₁ : (prevOffset, prevLength) ∈ fm₁.free := by
    rw [hrest.free]
    cases next with
    | none => exact hprev
    | some n =>
      obtain ⟨hn, hstop⟩ := hnext n rfl
      exact mem_erase.mpr ⟨hprev, by simp only; omega⟩
  have hkeys : ∀ p ∈ fm₁.free.erase prevOffset, p.1 ≠ prevOffset :=
    fun p hp => (mem_erase.mp hp).2
  refine ⟨(fm₂.put prevOffset (prevLength + len + nextLen next)).account
    offset len used, ?_, ?_, ?_, ?_, ?_, ?_⟩
  · rw [Option.bind_eq_some_iff] at hdel₂
    obtain ⟨fm₃, hdel₃, hdel₂⟩ := hdel₂
    simp [addToPrev, hdel₃, hdel₂]
  · have hins := FreeOk.insert (FreeOk.erase hrest.wellFormed hprev₁)
      hkeys (hok.nonneg _ hprev) (hok.dvd _ hprev)
      (dvd_add (dvd_add (hok.dvdLen _ hprev) hlen) hndvd) (by omega)
    simpa [WellFormed, account, put, hfree, hfreeLen] using hins
  · intro x
    have hins := freeMult_insert hkeys (prevLength + len + nextLen next) x
    have herase := freeMult_erase hprev₁ x
    have hmult := hrest.mult x
    have hsplit₁ := ind_split (a := prevOffset) (m := offset)
      (b := prevOffset + (prevLength + len + nextLen next))
      (by omega) (by omega) x
    have hsplit₂ := ind_split (a := offset) (m := offset + len)
      (b := prevOffset + (prevLength + len + nextLen next))
      (by omega) (by omega) x
    have hend : prevOffset + (prevLength + len + nextLen next) =
        offset + len + nextLen next := by omega
    rw [insert_erase] at hins
    simp only [freeMult, put, account, hfree] at hmult ⊢
    rw [hend] at hsplit₁ hsplit₂ hins
    rw [← htouch] at herase
    omega
  · simp [account, put, hcount, hrest.dataFileFree]
  · simp [account, put, hnew, hrest.newFree]
  · refine ⟨(prevOffset, prevLength + len + nextLen next),
      mem_insert.mpr (.inl rfl), by simp only; omega,
      by simp only; omega, ?_, ?_, ?_, .inr ⟨_, hprev, rfl, htouch.symm⟩,
      joined_last hnext hnone (by simp only; omega), ?_⟩
    · intro p hp
      rcases hrest.old p hp with hp₁ | rfl
      · by_cases hkey : p.1 = prevOffset
        · have hp' := eq_of_mem hp hprev hkey
          right
          rw [hp']
          simp only
          omega
        · exact .inl (mem_insert.mpr (.inr ⟨hfree ▸ hp₁, hkey⟩))
      · right
        simp only
        omega
    · intro t ht
      rcases mem_insertTrim ht with rfl | ht
      · exact .inr rfl
      · exact .inl (hrest.trim t (htrim t ht).1)
    · intro p hp
      rcases mem_insert.mp hp with rfl | ⟨hp, _⟩
      · exact .inr rfl
      · exact .inl (hrest.subset p (hfree ▸ hp))
    · intro t ht
      rcases mem_insertTrim ht with rfl | ht
      · exact .inl rfl
      · obtain ⟨ht, hkey⟩ := htrim t ht
        refine .inr fun p hp hpt => mem_insert.mpr ?_
        exact .inr ⟨hfree ▸ hrest.kept t ht p hp hpt, hpt ▸ hkey⟩

theorem addWithNext_spec (used : Bool)
    (hdisj : ∀ x, offset ≤ x → x < offset + len → fm.freeMult x = 0) :
    ∃ fm', fm.addWithNext offset len used next = some fm' ∧
      Added fm offset len used fm' := by
  have hnew : ∀ p ∈ fm.free, p.1 ≠ offset := by
    rintro p hp rfl
    have hp2 := hok.pos p hp
    have := freeMult_pos hp (x := p.1) le_rfl (by omega)
    rw [hdisj _ le_rfl (by omega)] at this
    exact absurd this (lt_irrefl _)
  obtain ⟨fm₁, hdel, hrest⟩ := delNextLen_spec hok hnext
  have hbefore : ∀ p ∈ fm.free, p.1 < offset → p ∈ (fm.delNext next).free := by
    intro p hp hlt
    rcases hrest.old p hp with hp₁ | rfl
    · exact hrest.free ▸ hp₁
    · simp only at hlt
      omega
  simp only [addWithNext]
  cases hbelow : (fm.delNext next).free.below offset with
  | none =>
    refine addUnmerged_spec hok hnonneg hdvd hlen hpos hnext hnone used hnew
      fun p hp hend => ?_
    have hlt : p.1 < offset := by
      have := hok.pos p hp
      omega
    exact absurd hlt (not_lt.mpr (below_none hbelow p (hbefore p hp hlt)))
  | some prev =>
    obtain ⟨prevOffset, prevLength⟩ := prev
    obtain ⟨hmem, hlt, hmax⟩ := below_some hbelow
    have hprev : (prevOffset, prevLength) ∈ fm.free :=
      hrest.subset _ (hrest.free ▸ hmem)
    have hcover : ¬ (prevOffset + prevLength > offset ∧
        prevOffset ≤ offset) := by
      rintro ⟨hgt, hle⟩
      have := freeMult_pos hprev (x := offset) hle hgt
      rw [hdisj _ le_rfl (by omega)] at this
      exact absurd this (lt_irrefl _)
    simp only [if_neg hcover]
    split
    · rename_i htouch
      exact addToPrev_spec hok hlen hpos hnext hnone used hprev htouch
    · rename_i hapart
      refine addUnmerged_spec hok hnonneg hdvd hlen hpos hnext hnone used
        hnew fun p hp hend => ?_
      have hplt : p.1 < offset := by
        have := hok.pos p hp
        omega
      refine ⟨_, hprev, lt_of_le_of_ne
        (hmax p (hbefore p hp hplt) hplt) fun hkey => ?_, hlt⟩
      have heq := eq_of_mem hp hprev hkey
      rw [heq] at hend
      exact hapart hend.symm

end AddExt

/-- Returning an extent that is disjoint from the free map succeeds and frees
exactly the blocks of the extent. -/
theorem addFreemapExt_spec {fm : Freemap} (hok : fm.WellFormed)
    {e : SPunchItem} (he : e.Aligned) (used : Bool)
    (hdisj : ∀ x, e.offset ≤ x → x < e.offset + roundUp e.len →
      fm.freeMult x = 0) :
    ∃ fm', fm.addFreemapExt e.offset e.len used = some fm' ∧
      Added fm e.offset (roundUp e.len) used fm' := by
  have hpos := roundUp_pos he.pos
  have hlen := dvd_roundUp e.len
  have hnot : ¬ (e.offset = 0 ∧ e.len = 0) := fun h => he.pos.ne' h.2
  rw [addFreemapExt, if_neg hnot, addRounded]
  cases hlb : fm.free.lowerBound e.offset with
  | none =>
    refine addWithNext_spec hok he.nonneg he.dvd hlen hpos (by simp) ?_ used
      hdisj
    intro _ p hp heq
    have hlt := lowerBound_none hlb p hp
    omega
  | some next =>
    obtain ⟨nextOffset, nextLength⟩ := next
    obtain ⟨hmem, hle, hmin⟩ := lowerBound_some hlb
    have hcover : ¬ e.offset + roundUp e.len > nextOffset := by
      intro hgt
      have hnpos := hok.pos _ hmem
      have := freeMult_pos hmem (x := nextOffset) le_rfl (by omega)
      rw [hdisj _ hle hgt] at this
      exact absurd this (lt_irrefl _)
    simp only [if_neg hcover]
    split
    · rename_i htouch
      refine addWithNext_spec hok he.nonneg he.dvd hlen hpos ?_ (by simp)
        used hdisj
      rintro n ⟨⟩
      exact ⟨hmem, htouch⟩
    · rename_i hapart
      refine addWithNext_spec hok he.nonneg he.dvd hlen hpos (by simp) ?_
        used hdisj
      intro _ p hp heq
      have hfirst := hmin p hp (by omega)
      simp only at hfirst
      omega

/-! ## Taking an extent -/

/-- A free extent found by the search can be removed, and removing it frees
exactly its bytes for the taker. -/
theorem findFreemapExt_spec {fm : Freemap} (hok : fm.WellFormed)
    {skip : SkipExtents} {start len : ℤ}
    (h : fm.findFreemapExt skip = some (start, len)) :
    (start, len) ∈ fm.free := by
  obtain ⟨e, he, heq⟩ := Option.map_eq_some_iff.mp h
  have hmem := mem_of_find?_eq_some he
  cases heq
  exact (hok.inverse _ _).mp hmem

theorem delFreemapExt_spec {fm : Freemap} (hok : fm.WellFormed)
    {start len : ℤ} (h : (start, len) ∈ fm.free) :
    ∃ fm', fm.delFreemapExt start len = some fm' ∧ fm'.WellFormed ∧
      (∀ x, fm.freeMult x =
        fm'.freeMult x + ind (start, start + len) x) ∧
      fm'.dataFileFree = fm.dataFileFree - len := by
  have hlookup : fm.free.lookup start = some len := lookup_eq_some.mpr h
  have hmem : (len, start) ∈ fm.freeLen := (hok.inverse _ _).mpr h
  refine ⟨{ fm with
    free := fm.free.erase start
    freeLen := fm.freeLen.erase (len, start)
    dataFileFree := fm.dataFileFree - len }, ?_, FreeOk.erase hok h, ?_, rfl⟩
  · simp [delFreemapExt, hlookup, hmem]
  intro x
  have := freeMult_erase h x
  simp only [freeMult] at this ⊢
  omega

end Freemap

end Hs5
