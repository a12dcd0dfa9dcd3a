import Hs5.Storage.CommitItems

/-!
# What readers hold on to

A reader is counted from the return of `read_prepare` to `read_finalize`.
Either the object that it reads is still there, or it was removed and each of
its extents is spared: it lies in the free map, and its offset is among those
that the search for free space and the trim thread skip.
-/

namespace Hs5

open List Cover Transition OrderedMap

variable {K P : Type} [LinearOrder K]

/-! ## What readers hold on to -/

def Reader.pinned (r : Reader K) : Option IndexValue :=
  match r.stage with
  | .reading v _ => if v.HasExtents then some v else none
  | _ => none

namespace ReadNode

def fm (s : ReadNode K) : Freemap := s.node.alloc.commit.fm

def pins (s : ReadNode K) : List IndexValue :=
  s.readers.entries.filterMap fun p => p.2.pinned

def otherPins (s : ReadNode K) (reader : ℕ) : List IndexValue :=
  (s.readers.erase reader).entries.filterMap fun p => p.2.pinned

def pinCount (s : ReadNode K) (offset : ℤ) : ℕ :=
  s.pins.countP fun v => v.offset = offset

/-- An extent that was freed while it is being read. -/
structure Spared (s : ReadNode K) (e : SPunchItem) : Prop where
  skip : e.offset ∈ s.readingFreeSkipExtents
  within : s.fm.Within e.span.1 e.span.2
  whole : s.fm.Whole e.span.1 e.span.2
  queued : ∀ t ∈ s.node.trimQueue, ¬ (e.span.1 < t.offset ∧ t.offset < e.span.2)
  quiet : ∀ t, s.punching = some t → ∀ x ∈ Set.Ico e.span.1 e.span.2,
    x ∉ Set.Ico t.offset (t.offset + t.len)

/-- The readers of the object with this first offset were told that it is
gone. -/
def Skips (s : ReadNode K) (offset : ℤ) : Prop :=
  ∃ item, s.readingItems.lookup offset = some item ∧ item.freeSkip = true

/-- The object is still there, or its extents are spared. -/
def Holds (s : ReadNode K) (v : IndexValue) : Prop :=
  (∃ fn, (fn, v) ∈ s.main) ∨ s.Skips v.offset ∧ ∀ e ∈ v.extents, s.Spared e

/-- `reading_items` counts the readers of the object with a first offset. -/
def Counts (s : ReadNode K) : Prop :=
  ∀ o, 0 ≤ o → (s.readingItems.lookup o).map ReadingItem.refs =
    if s.pinCount o = 0 then none else some (s.pinCount o : ℤ)

structure PinInv (s : ReadNode K) : Prop where
  tickets : ∀ p ∈ s.readers, p.1 < s.nextReader
  counted : s.Counts
  stored : ∀ p ∈ s.readers, ∀ v seen, p.2.stage = .reading v seen → v.Stored
  holds : ∀ v ∈ s.pins, s.Holds v
  agree : ∀ v ∈ s.pins, ∀ w ∈ s.pins,
    v.extents = w.extents ∨ ∀ o ∈ v.offsets, o ∉ w.offsets
  seen : ∀ p ∈ s.readers, ∀ v seen, p.2.stage = .reading v seen →
    ∀ e ∈ v.extents, ∀ x ∈ Set.Ico e.span.1 e.span.2, s.data x = seen x

/-! ## Values -/

variable {v : IndexValue} {e : SPunchItem} {x : ℤ}

theorem aligned_of_hasExtents (hv : v.Stored)
    (hext : v.HasExtents) : ∀ e ∈ v.extents, e.Aligned := by
  rcases hv with hempty | haligned
  · have hfirst : (⟨v.offset, v.len⟩ : SPunchItem) = ⟨0, 0⟩ :=
      (List.cons.inj hempty).1
    simp only [SPunchItem.mk.injEq] at hfirst
    simp [IndexValue.HasExtents, hfirst] at hext
  · exact haligned

theorem hasExtents_of_mem_span (hv : v.Stored) (he : e ∈ v.extents)
    (hx : x ∈ Set.Ico e.span.1 e.span.2) : v.HasExtents := by
  rcases hv with hempty | haligned
  · rw [hempty, mem_singleton] at he
    subst he
    simp [SPunchItem.span] at hx
  · exact .inr (haligned ⟨v.offset, v.len⟩ mem_cons_self).pos

theorem mem_pins {s : ReadNode K} :
    v ∈ s.pins ↔ ∃ p ∈ s.readers, ∃ seen, p.2.stage = .reading v seen ∧
      v.HasExtents := by
  simp only [pins, mem_filterMap, Reader.pinned]
  constructor
  · rintro ⟨p, hp, hpin⟩
    split at hpin
    · rename_i w seen hstage
      split at hpin
      · rename_i hext
        cases hpin
        exact ⟨p, hp, seen, hstage, hext⟩
      · cases hpin
    · cases hpin
  · rintro ⟨p, hp, seen, hstage, hext⟩
    exact ⟨p, hp, by simp [hstage, hext]⟩

section

variable {s s' : ReadNode K}

theorem PinInv.aligned (h : s.PinInv) (hv : v ∈ s.pins) :
    ∀ e ∈ v.extents, e.Aligned := by
  obtain ⟨p, hp, seen, hstage, hext⟩ := mem_pins.mp hv
  exact aligned_of_hasExtents (h.stored p hp v seen hstage) hext

/-! ## Pins and readers -/

variable {r : Reader K} {reader : ℕ} {cfg : NodeConfig} {seen : ℤ → UInt8}

omit [LinearOrder K] in
theorem pins_of_perm {l rest : List (ℕ × Reader K)}
    (h : l.Perm ((reader, r) :: rest)) :
    (l.filterMap fun p => p.2.pinned).Perm
      (r.pinned.toList ++ rest.filterMap fun p => p.2.pinned) := by
  refine (h.filterMap _).trans (List.Perm.of_eq ?_)
  rw [filterMap_cons]
  cases r.pinned with
  | none => rfl
  | some v => rfl

theorem pins_perm (hr : (reader, r) ∈ s.readers) :
    s.pins.Perm (r.pinned.toList ++ s.otherPins reader) :=
  pins_of_perm (perm_erase hr)

theorem otherPins_of_none (hr : (reader, r) ∈ s.readers)
    (hnone : r.pinned = none) : (s.otherPins reader).Perm s.pins := by
  have hperm := pins_perm hr
  rw [hnone] at hperm
  exact hperm.symm

theorem otherPins_nextReader (h : s.PinInv) :
    (s.otherPins s.nextReader).Perm s.pins := by
  rw [otherPins, erase_eq_self fun p hp => (h.tickets p hp).ne]
  exact List.Perm.refl _

theorem pins_of_reading (hr : (reader, r) ∈ s.readers)
    (hstage : r.stage = .reading v seen) (hext : v.HasExtents) :
    s.pins.Perm (v :: s.otherPins reader) := by
  have hpinned : r.pinned = some v := by
    simp [Reader.pinned, hstage, hext]
  have hperm := pins_perm hr
  rw [hpinned] at hperm
  exact hperm

theorem mem_otherPins (hr : (reader, r) ∈ s.readers)
    (hv : v ∈ s.otherPins reader) : v ∈ s.pins :=
  (pins_perm hr).mem_iff.mpr (mem_append_right _ hv)

theorem offset_mem_offsets (v : IndexValue) : v.offset ∈ v.offsets :=
  mem_cons_self

theorem PinInv.pos (h : s.PinInv) (hv : v ∈ s.pins) :
    ∀ e ∈ v.extents, 0 < e.len :=
  fun e he => (h.aligned hv e he).pos

theorem PinInv.offset_nonneg (h : s.PinInv) (hv : v ∈ s.pins) : 0 ≤ v.offset :=
  (h.aligned hv ⟨v.offset, v.len⟩ mem_cons_self).nonneg

/-! ## Bytes of objects and of the free map -/

theorem offset_ne_of_objects (hinv : s.node.Inv cfg) {p q : K × IndexValue}
    (hp : p ∈ s.main) (hq : q ∈ s.main) (hne : p.1 ≠ q.1) {e f : SPunchItem}
    (he : e ∈ p.2.extents) (hf : f ∈ q.2.extents) (hepos : 0 < e.len)
    (hfpos : 0 < f.len) : e.offset ≠ f.offset := by
  intro heq
  have htwo := mult_add_mult_le_multMap objectSpans hp hq hne e.offset
  have hinde := ind_le_mult
    (mem_map_of_mem (f := SPunchItem.span) he) e.offset
  have hindf := ind_le_mult
    (mem_map_of_mem (f := SPunchItem.span) hf) e.offset
  have hspane : e.offset ∈ Set.Ico e.span.1 e.span.2 := by
    have := roundUp_pos hepos
    exact ⟨le_rfl, by simp only [SPunchItem.span]; omega⟩
  have hspanf : e.offset ∈ Set.Ico f.span.1 f.span.2 := by
    have := roundUp_pos hfpos
    exact ⟨heq.ge, by simp only [SPunchItem.span]; omega⟩
  rw [ind_eq_one.mpr hspane] at hinde
  rw [ind_eq_one.mpr hspanf] at hindf
  have honce := hinv.alloc.owned_le_one e.offset
  simp only [CommitState.owned, objectSpans, ReadNode.main] at honce htwo
  omega

/-- A byte of an object or of the free map belongs to nobody else. -/
structure Idle (s : ReadNode K) (x : ℤ) : Prop where
  held : ∀ e ∈ s.node.alloc.held, x ∉ Set.Ico e.span.1 e.span.2
  writeExt :
    x ∉ Set.Ico s.node.alloc.dataFileOffset s.node.alloc.dataFileOffsetEnd
  pending : x ∉ Set.Ico s.node.alloc.pendingExt.1 s.node.alloc.pendingExt.2
  holes : ∀ p ∈ s.node.alloc.commit.holes, x ∉ Set.Ico p.1 (p.1 + p.2)

theorem idle_of_owned (hinv : s.node.Inv cfg)
    (hx : 0 < multMap objectSpans s.main x + s.fm.freeMult x) : s.Idle x := by
  have honce := hinv.alloc.once x
  simp only [AllocState.used, AllocState.settled, CommitState.owned] at honce
  simp only [ReadNode.main, ReadNode.fm] at hx
  refine ⟨?_, ?_, ?_, ?_⟩
  · intro e he hxe
    have hheld := ind_le_mult (mem_map_of_mem (f := SPunchItem.span) he) x
    rw [ind_eq_one.mpr hxe] at hheld
    omega
  · intro hxe
    rw [ind_eq_one.mpr hxe] at honce
    omega
  · intro hxe
    rw [ind_eq_one.mpr hxe] at honce
    omega
  · intro q hq hxq
    have hhole := mult_le_multMap freeSpan hq x
    have hind : ind (q.1, q.1 + q.2) x = 1 := ind_eq_one.mpr hxq
    simp only [freeSpan, mult_cons, mult_nil, hind] at hhole
    omega

theorem object_pos {p : K × IndexValue} (hp : p ∈ s.main)
    (he : e ∈ p.2.extents) (hx : x ∈ Set.Ico e.span.1 e.span.2) :
    0 < multMap objectSpans s.main x := by
  have hind := ind_le_mult (mem_map_of_mem (f := SPunchItem.span) he) x
  have hmult := mult_le_multMap objectSpans hp x
  rw [ind_eq_one.mpr hx] at hind
  simp only [objectSpans] at hmult
  omega

theorem within_pos {lo hi : ℤ} (h : s.fm.Within lo hi)
    (hx : x ∈ Set.Ico lo hi) : 0 < s.fm.freeMult x := by
  obtain ⟨q, hq, hlo, hhi⟩ := h
  exact Freemap.freeMult_pos hq (hlo.trans hx.1) (hx.2.trans_le hhi)

theorem not_within_of_object (hinv : s.node.Inv cfg) {p : K × IndexValue}
    (hp : p ∈ s.main) (he : e ∈ p.2.extents)
    (hx : x ∈ Set.Ico e.span.1 e.span.2) {lo hi : ℤ}
    (h : s.fm.Within lo hi) : x ∉ Set.Ico lo hi := by
  intro hfree
  have hobject := object_pos hp he hx
  have hpos := within_pos h hfree
  have honce := hinv.alloc.owned_le_one x
  simp only [CommitState.owned] at honce
  simp only [ReadNode.main, ReadNode.fm] at hobject hpos
  omega

theorem Holds.idle {cfg : ReadConfig K P} (h : TrimInv cfg s) (hv : s.Holds v)
    (he : e ∈ v.extents) (hx : x ∈ Set.Ico e.span.1 e.span.2) :
    s.Idle x ∧ ∀ t, s.punching = some t →
      x ∉ Set.Ico t.offset (t.offset + t.len) := by
  rcases hv with ⟨fn, hfn⟩ | ⟨-, hspared⟩
  · have hobject := object_pos hfn he hx
    refine ⟨idle_of_owned h.node (by omega), ?_⟩
    intro t ht
    have hmem : t ∈ s.node.trimQueue :=
      h.trims.mem_iff.mpr (by simp [ReadNode.trimming, ht])
    exact not_within_of_object h.node hfn he hx (h.shielded.trimmed t hmem).2
  · have hfree := within_pos (hspared e he).within hx
    refine ⟨idle_of_owned h.node (by omega), ?_⟩
    intro t ht
    exact (hspared e he).quiet t ht x hx

/-! ## A reader is counted -/

theorem Holds.meets (hinv : s.node.Inv cfg) {fn : K} {v w : IndexValue}
    (hfn : (fn, v) ∈ s.main) (hw : s.Holds w)
    (hvpos : ∀ e ∈ v.extents, 0 < e.len) (hwpos : ∀ e ∈ w.extents, 0 < e.len) :
    v = w ∨ ∀ o ∈ v.offsets, o ∉ w.offsets := by
  rcases hw with ⟨fn', hfn'⟩ | ⟨-, hspared⟩
  · by_cases hne : fn = fn'
    · left
      exact (Prod.mk.inj (eq_of_mem hfn hfn' hne)).2
    · right
      intro o hv hw
      obtain ⟨e, he, rfl⟩ := mem_map.mp hv
      obtain ⟨f, hf, hoffset⟩ := mem_map.mp hw
      exact offset_ne_of_objects hinv hfn hfn' hne he hf (hvpos e he)
        (hwpos f hf) hoffset.symm
  · right
    intro o hv hw
    obtain ⟨e, he, rfl⟩ := mem_map.mp hv
    obtain ⟨f, hf, hoffset⟩ := mem_map.mp hw
    have hpose := roundUp_pos (hvpos e he)
    have hposf := roundUp_pos (hwpos f hf)
    refine not_within_of_object hinv hfn he (x := e.offset) ?_
      (hspared f hf).within ?_
    · exact ⟨le_rfl, by simp only [SPunchItem.span]; omega⟩
    · exact ⟨hoffset.le, by simp only [SPunchItem.span]; omega⟩

theorem PinInv.recount (h : s.PinInv) (hinv : s.node.Inv cfg)
    {readers : OrderedMap ℕ (Reader K)} {nextReader : ℕ}
    {items : OrderedMap ℤ ReadingItem} {skip : List ℤ}
    (hs' : s' = { s with
      readers := readers
      nextReader := nextReader
      readingItems := items
      readingFreeSkipExtents := skip })
    (htickets : ∀ p ∈ readers, p.1 < nextReader) (hcounted : s'.Counts)
    (hreading : ∀ p ∈ readers, ∀ v seen, p.2.stage = .reading v seen →
      (∃ q ∈ s.readers, q.2.stage = .reading v seen) ∨
        v.Stored ∧ seen = s.data ∧ (v.HasExtents → ∃ fn, (fn, v) ∈ s.main))
    (hkeep : ∀ v ∈ s'.pins, v ∈ s.pins → s.Skips v.offset →
      s'.Skips v.offset ∧ ∀ o ∈ v.offsets,
        o ∈ s.readingFreeSkipExtents → o ∈ skip) : s'.PinInv := by
  subst hs'
  have hpins : ∀ v ∈ pins { s with readers := readers },
      (∀ e ∈ v.extents, 0 < e.len) ∧ (v ∈ s.pins ∨ ∃ fn, (fn, v) ∈ s.main) := by
    intro v hv
    obtain ⟨p, hp, seen, hstage, hext⟩ := mem_pins.mp hv
    rcases hreading p hp v seen hstage with ⟨q, hq, hstage⟩ |
      ⟨hstored, -, hobject⟩
    · have hold := mem_pins.mpr ⟨q, hq, seen, hstage, hext⟩
      exact ⟨h.pos hold, .inl hold⟩
    · exact ⟨fun e he => (aligned_of_hasExtents hstored hext e he).pos,
        .inr (hobject hext)⟩
  have hbefore : ∀ v ∈ pins { s with readers := readers }, s.Holds v :=
    fun v hv => (hpins v hv).2.elim (h.holds v) .inl
  refine ⟨htickets, hcounted, ?_, ?_, ?_, ?_⟩
  · intro p hp v seen hstage
    rcases hreading p hp v seen hstage with ⟨q, hq, hstage⟩ | ⟨hv, -⟩
    · exact h.stored q hq v seen hstage
    · exact hv
  · intro v hv
    rcases (hpins v hv).2 with hold | hobject
    · rcases h.holds v hold with hobject | ⟨hskips, hspared⟩
      · exact .inl hobject
      · obtain ⟨hskips', hskip⟩ := hkeep v hv hold hskips
        refine .inr ⟨hskips', fun e he => ?_⟩
        have hold := hspared e he
        exact ⟨hskip _ (mem_map_of_mem he) hold.skip, hold.within,
          hold.whole, hold.queued, hold.quiet⟩
    · exact .inl hobject
  · intro v hv w hw
    have hmeets : ∀ {v w fn}, v ∈ pins { s with readers := readers } →
        w ∈ pins { s with readers := readers } → (fn, v) ∈ s.main →
          v.extents = w.extents ∨ ∀ o ∈ v.offsets, o ∉ w.offsets :=
      fun hv hw hfn => ((hbefore _ hw).meets hinv hfn (hpins _ hv).1
        (hpins _ hw).1).imp_left fun heq => by rw [heq]
    rcases (hpins v hv).2 with hold | ⟨fn, hfn⟩
    · rcases (hpins w hw).2 with hold' | ⟨fn, hfn⟩
      · exact h.agree v hold w hold'
      · exact (hmeets hw hv hfn).imp Eq.symm fun hne o ho ho' => hne o ho' ho
    · exact hmeets hv hw hfn
  · intro p hp v seen hstage e he x hx
    rcases hreading p hp v seen hstage with ⟨q, hq, hstage⟩ | ⟨-, rfl, -⟩
    · exact h.seen q hq v seen hstage e he x hx
    · rfl

/-! ## Readers come -/

theorem lookup_addReadingItem (s : ReadNode K) (offset o : ℤ) :
    (s.addReadingItem offset).readingItems.lookup o =
      if o = offset then
        some { (s.readingItems.lookup offset).getD ⟨0, false⟩ with
          refs := ((s.readingItems.lookup offset).getD ⟨0, false⟩).refs + 1 }
      else s.readingItems.lookup o := by
  by_cases ho : o = offset
  · simp [addReadingItem, ho]
  · rw [if_neg ho]
    exact lookup_insert_of_ne _ _ ho

theorem skips_addReadingItem {offset o : ℤ} (h : s.Skips o) :
    (s.addReadingItem offset).Skips o := by
  obtain ⟨item, hitem, hfree⟩ := h
  by_cases ho : o = offset
  · refine ⟨{ item with refs := item.refs + 1 }, ?_, hfree⟩
    rw [lookup_addReadingItem, if_pos ho, ← ho, hitem]
    rfl
  · exact ⟨item, by rw [lookup_addReadingItem, if_neg ho, hitem], hfree⟩

theorem Counts.of_perm (h : s.Counts)
    (hitems : ∀ o, 0 ≤ o →
      s'.readingItems.lookup o = s.readingItems.lookup o)
    (hpins : s'.pins.Perm s.pins) : s'.Counts := by
  intro o ho
  rw [hitems o ho, h o ho, pinCount, pinCount, hpins.countP_eq _]

theorem Counts.addReadingItem (h : s.Counts)
    (hitems : s'.readingItems = s.readingItems)
    (hpins : s'.pins.Perm (v :: s.pins)) :
    (s'.addReadingItem v.offset).Counts := by
  intro o ho
  have hcounted := h o ho
  have hcount : (s'.addReadingItem v.offset).pinCount o =
      s.pinCount o + if v.offset = o then 1 else 0 := by
    have hperm : (s'.addReadingItem v.offset).pins.Perm (v :: s.pins) := hpins
    rw [pinCount, hperm.countP_eq _, countP_cons]
    simp [pinCount]
  rw [hcount, lookup_addReadingItem, hitems]
  by_cases heq : o = v.offset
  · subst heq
    rw [if_pos rfl, if_pos rfl, if_neg (Nat.succ_ne_zero _)]
    cases hitem : s.readingItems.lookup v.offset with
    | none =>
      rw [hitem] at hcounted
      by_cases hzero : s.pinCount v.offset = 0
      · simp [hzero]
      · simp [hzero] at hcounted
    | some item =>
      rw [hitem] at hcounted
      by_cases hzero : s.pinCount v.offset = 0
      · simp [hzero] at hcounted
      · simp only [hzero, if_false, Option.map_some,
          Option.some.injEq] at hcounted
        simp [hcounted]
  · have hne : v.offset ≠ o := fun hvo => heq hvo.symm
    rw [if_neg heq, if_neg hne, Nat.add_zero]
    exact hcounted

theorem pins_insert (hperm : (s.otherPins reader).Perm s.pins)
    (r : Reader K) (nextReader : ℕ) :
    (pins { s with
      readers := s.readers.insert reader r
      nextReader := nextReader }).Perm (r.pinned.toList ++ s.pins) :=
  (pins_of_perm (perm_insert s.readers reader r)).trans (hperm.append_left _)

theorem pins_uncounted (hperm : (s.otherPins reader).Perm s.pins)
    {nextReader : ℕ} (hstage : ∀ v seen, r.stage ≠ .reading v seen) :
    (pins { s with
      readers := s.readers.insert reader r
      nextReader := nextReader }).Perm s.pins := by
  have hpinned : r.pinned = none := by
    cases hr : r.stage with
    | reading v seen => exact absurd hr (hstage v seen)
    | _ => simp [Reader.pinned, hr]
  have hpins := pins_insert hperm r nextReader
  rwa [hpinned] at hpins

theorem PinInv.insert (h : s.PinInv) (hinv : s.node.Inv cfg)
    (hperm : (s.otherPins reader).Perm s.pins) {nextReader : ℕ}
    (hid : reader < nextReader) (hnext : s.nextReader ≤ nextReader)
    (hstage : ∀ v seen, r.stage ≠ .reading v seen) :
    PinInv { s with
      readers := s.readers.insert reader r
      nextReader := nextReader } := by
  refine h.recount hinv rfl ?_
    (h.counted.of_perm (fun _ _ => rfl) (pins_uncounted hperm hstage)) ?_
    fun _ _ _ hskips => ⟨hskips, fun _ _ ho => ho⟩
  · intro p hp
    rcases mem_insert.mp hp with rfl | ⟨hp, -⟩
    · exact hid
    · exact (h.tickets p hp).trans_le hnext
  · intro p hp v seen hp'
    rcases mem_insert.mp hp with rfl | ⟨hp, -⟩
    · exact absurd hp' (hstage v seen)
    · exact .inl ⟨p, hp, hp'⟩

theorem pin_of_hasExtents (s : ReadNode K) (reader : ℕ) (r : Reader K)
    (hext : v.HasExtents) :
    s.pin reader r v =
      (s.setStage reader r (.reading v s.data)).addReadingItem v.offset := by
  simp only [ReadNode.pin, if_pos hext]

theorem pin_of_not_hasExtents (s : ReadNode K) (reader : ℕ) (r : Reader K)
    (hext : ¬ v.HasExtents) :
    s.pin reader r v = s.setStage reader r (.reading v s.data) := by
  simp only [ReadNode.pin, if_neg hext]

theorem pins_reading (hr : (reader, r) ∈ s.readers) (hnone : r.pinned = none)
    (v : IndexValue) :
    (s.setStage reader r (.reading v s.data)).pins.Perm
      (if v.HasExtents then v :: s.pins else s.pins) := by
  have hperm := pins_insert (otherPins_of_none hr hnone)
    { r with stage := .reading v s.data } s.nextReader
  simp only [Reader.pinned] at hperm
  split
  · rename_i hext
    rwa [if_pos hext] at hperm
  · rename_i hext
    rwa [if_neg hext] at hperm

theorem PinInv.pin (h : s.PinInv) (hinv : s.node.Inv cfg)
    (hr : (reader, r) ∈ s.readers) (hnone : r.pinned = none)
    (hstored : v.Stored) (hobject : v.HasExtents → ∃ fn, (fn, v) ∈ s.main) :
    (s.pin reader r v).PinInv := by
  have hpins := pins_reading hr hnone v
  have hready : (s.pin reader r v).Counts ∧
      ∀ o, s.Skips o → (s.pin reader r v).Skips o := by
    by_cases hext : v.HasExtents
    · rw [pin_of_hasExtents s reader r hext]
      rw [if_pos hext] at hpins
      exact ⟨h.counted.addReadingItem rfl hpins,
        fun _ ho => skips_addReadingItem
          (s := s.setStage reader r (.reading v s.data)) ho⟩
    · rw [pin_of_not_hasExtents s reader r hext]
      rw [if_neg hext] at hpins
      exact ⟨h.counted.of_perm (fun _ _ => rfl) hpins, fun _ ho => ho⟩
  obtain ⟨items, heq⟩ := pin_eq s reader r v
  refine h.recount hinv heq ?_ hready.1 ?_
    fun _ _ _ hskips => ⟨hready.2 _ hskips, fun _ _ ho => ho⟩
  · intro p hp
    rcases mem_insert.mp hp with rfl | ⟨hp, -⟩
    · exact h.tickets (reader, r) hr
    · exact h.tickets p hp
  · intro p hp w seen hstage
    rcases mem_insert.mp hp with rfl | ⟨hp, -⟩
    · cases hstage
      exact .inr ⟨hstored, rfl, hobject⟩
    · exact .inl ⟨p, hp, hstage⟩

/-! ## Readers leave -/

theorem PinInv.erase (h : s.PinInv) (hinv : s.node.Inv cfg)
    {items : OrderedMap ℤ ReadingItem} {skip : List ℤ}
    (hcounted : Counts { s with
      readers := s.readers.erase reader
      readingItems := items })
    (hkeep : ∀ v ∈ s.otherPins reader, s.Skips v.offset →
      Skips { s with readingItems := items } v.offset ∧
        ∀ o ∈ v.offsets, o ∈ s.readingFreeSkipExtents → o ∈ skip) :
    PinInv { s with
      readers := s.readers.erase reader
      readingItems := items
      readingFreeSkipExtents := skip } :=
  h.recount hinv rfl (fun p hp => h.tickets p (mem_erase.mp hp).1) hcounted
    (fun p hp _ _ hstage => .inl ⟨p, (mem_erase.mp hp).1, hstage⟩)
    fun v hv _ => hkeep v hv

theorem PinInv.leave (h : s.PinInv) (hinv : s.node.Inv cfg)
    (hr : (reader, r) ∈ s.readers) (hnone : r.pinned = none) :
    (s.leave reader).PinInv :=
  h.erase hinv (h.counted.of_perm (fun _ _ => rfl)
    (otherPins_of_none hr hnone)) fun _ _ hskips => ⟨hskips, fun _ _ ho => ho⟩

theorem removeReadingItem_of_not (hv : v.Stored) (hext : ¬ v.HasExtents) :
    s.removeReadingItem v = s := by
  have hempty : v.offset = 0 ∧ v.len = 0 := by
    rcases hv with hzero | haligned
    · simpa using (List.cons.inj hzero).1
    · exact absurd
        (.inr (haligned ⟨v.offset, v.len⟩ mem_cons_self).pos) hext
  rw [removeReadingItem, if_pos hempty]

/-- What `remove_reading_item` does when `n` other readers of the object are
left. -/
structure Releases (s : ReadNode K) (v : IndexValue) (n : ℕ)
    (item : ReadingItem) (items : OrderedMap ℤ ReadingItem)
    (skip : List ℤ) : Prop where
  eq : s.removeReadingItem v =
    { s with readingItems := items, readingFreeSkipExtents := skip }
  counted : s.readingItems.lookup v.offset = some item
  own : items.lookup v.offset =
    if n = 0 then none else some { item with refs := n }
  others : ∀ o, o ≠ v.offset → items.lookup o = s.readingItems.lookup o
  skip : ∀ o, o ∈ skip ↔ o ∈ s.readingFreeSkipExtents ∧
    ¬ (n = 0 ∧ item.freeSkip = true ∧ o ∈ v.offsets)

theorem PinInv.releases (h : s.PinInv) (hr : (reader, r) ∈ s.readers)
    (hstage : r.stage = .reading v seen) (hext : v.HasExtents) :
    ∃ item items skip, s.Releases v ((s.otherPins reader).countP
      fun w => w.offset = v.offset) item items skip := by
  have hpins := pins_of_reading hr hstage hext
  have hcounted := h.counted v.offset
    (h.offset_nonneg (hpins.mem_iff.mpr mem_cons_self))
  rw [pinCount, hpins.countP_eq _,
    countP_cons_of_pos (by simp)] at hcounted
  generalize (s.otherPins reader).countP (fun w => w.offset = v.offset) = n
    at hcounted ⊢
  rw [if_neg (Nat.succ_ne_zero n)] at hcounted
  obtain ⟨item, hitem, hrefs⟩ := Option.map_eq_some_iff.mp hcounted
  have hempty : ¬ (v.offset = 0 ∧ v.len = 0) := by
    rintro ⟨hoffset, hlen⟩
    simp [IndexValue.HasExtents, hoffset, hlen] at hext
  have hpred : item.refs - 1 = n := by omega
  by_cases hlast : n = 0
  · refine ⟨item, s.readingItems.erase v.offset, if item.freeSkip then
      s.readingFreeSkipExtents.filter fun o => o ∉ v.offsets
      else s.readingFreeSkipExtents, ?_, hitem, ?_,
      fun _ ho => lookup_erase_of_ne _ ho, ?_⟩
    · simp only [removeReadingItem, if_neg hempty, hitem, hpred, hlast,
        Nat.cast_zero, le_refl, if_true]
    · simp [hlast]
    · intro o
      cases hfree : item.freeSkip with
      | false => simp
      | true => simp [hlast]
  · have hmany : ¬ (n : ℤ) ≤ 0 := by omega
    refine ⟨item, s.readingItems.insert v.offset { item with refs := n },
      s.readingFreeSkipExtents, ?_, hitem, ?_,
      fun _ ho => lookup_insert_of_ne _ _ ho, ?_⟩
    · simp only [removeReadingItem, if_neg hempty, hitem, hpred, if_neg hmany]
    · simp [hlast]
    · simp [hlast]

theorem Releases.skips {n : ℕ} {item : ReadingItem}
    {items : OrderedMap ℤ ReadingItem} {skip : List ℤ}
    (h : s.Releases v n item items skip) {o : ℤ}
    (hmany : o = v.offset → n ≠ 0) (hskips : s.Skips o) :
    Skips { s with readingItems := items } o := by
  obtain ⟨item', hitem, hfree⟩ := hskips
  by_cases ho : o = v.offset
  · subst ho
    rw [h.counted] at hitem
    cases hitem
    exact ⟨_, h.own.trans (if_neg (hmany rfl)), hfree⟩
  · exact ⟨item', (h.others o ho).trans hitem, hfree⟩

theorem countP_ne_zero {w : IndexValue} (hw : w ∈ s.otherPins reader)
    (hoffset : w.offset = v.offset) :
    (s.otherPins reader).countP (fun u => u.offset = v.offset) ≠ 0 := by
  have hpos : 0 < (s.otherPins reader).countP
      (fun u => u.offset = v.offset) :=
    countP_pos_iff.mpr ⟨w, hw, decide_eq_true hoffset⟩
  omega

theorem PinInv.finalize (h : s.PinInv) (hinv : s.node.Inv cfg)
    (hr : (reader, r) ∈ s.readers) (hstage : r.stage = .reading v seen) :
    ((s.removeReadingItem v).leave reader).PinInv := by
  by_cases hext : v.HasExtents
  · have hpins := pins_of_reading hr hstage hext
    have hv : v ∈ s.pins := hpins.mem_iff.mpr mem_cons_self
    obtain ⟨item, items, skip, hreleases⟩ := h.releases hr hstage hext
    rw [hreleases.eq]
    refine h.erase hinv ?_ ?_
    · intro o ho
      by_cases hvo : o = v.offset
      · subst hvo
        exact (congrArg (Option.map ReadingItem.refs) hreleases.own).trans
          (apply_ite _ _ _ _)
      · have hcount := h.counted o ho
        rw [pinCount, hpins.countP_eq _, countP_cons_of_neg
          (by simpa using fun hov => hvo hov.symm)] at hcount
        rw [show items.lookup o = _ from hreleases.others o hvo]
        exact hcount
    · intro w hw hskips
      refine ⟨hreleases.skips (countP_ne_zero hw) hskips, ?_⟩
      intro o ho hold
      refine (hreleases.skip o).mpr ⟨hold, ?_⟩
      rintro ⟨hlast, -, hov⟩
      rcases h.agree v hv w (mem_otherPins hr hw) with heq | hne
      · have hoffset : v.offset = w.offset :=
          congrArg SPunchItem.offset (List.cons.inj heq).1
        exact countP_ne_zero hw hoffset.symm hlast
      · exact hne o hov ho
  · rw [removeReadingItem_of_not (h.stored _ hr v seen hstage) hext]
    exact h.leave hinv hr (by simp [Reader.pinned, hstage, hext])

end

end ReadNode

end Hs5
