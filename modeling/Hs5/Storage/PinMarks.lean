import Hs5.Storage.ReadSafe

/-!
# What readers leave behind

`reading_items` has an entry for an offset only while a counted reader reads
an object whose first extent starts there, and `reading_free_skip_extents`
has only offsets of objects that were removed while a counted reader reads
them.  With the last reader both are gone.
-/

namespace Hs5

open List Cover Transition OrderedMap

variable {K P : Type} [LinearOrder K]

namespace ReadNode

/-- The marks for the search for free space and for the trim thread are those
of counted readers. -/
structure Marks (s : ReadNode K) : Prop where
  items : ∀ o, o < 0 → s.readingItems.lookup o = none
  skips : ∀ o ∈ s.readingFreeSkipExtents, ∃ v ∈ s.pins,
    o ∈ v.offsets ∧ s.Skips v.offset

section

variable {cfg : ReadConfig K P} {s s' : ReadNode K}

theorem Marks.of_same (h : s.Marks) (hitems : s'.readingItems = s.readingItems)
    (hskip : s'.readingFreeSkipExtents = s.readingFreeSkipExtents)
    (hpins : s'.pins.Perm s.pins) : s'.Marks := by
  constructor
  · rw [hitems]
    exact h.items
  · rw [hskip]
    intro o ho
    obtain ⟨v, hv, hov, hskips⟩ := h.skips o ho
    refine ⟨v, hpins.mem_iff.mpr hv, hov, ?_⟩
    simp only [Skips, hitems]
    exact hskips

/-! ## Readers come and go -/

theorem Marks.pin (h : s.Marks) {reader : ℕ} {r : Reader K}
    (hr : (reader, r) ∈ s.readers) (hnone : r.pinned = none)
    {v : IndexValue} (hstored : v.Stored) : (s.pin reader r v).Marks := by
  have hpins := pins_reading hr hnone v
  by_cases hext : v.HasExtents
  · have haligned := aligned_of_hasExtents hstored hext
    have hoffset : 0 ≤ v.offset :=
      (haligned ⟨v.offset, v.len⟩ mem_cons_self).nonneg
    rw [if_pos hext] at hpins
    rw [pin_of_hasExtents s reader r hext]
    constructor
    · intro o ho
      rw [lookup_addReadingItem, if_neg (by omega)]
      exact h.items o ho
    · intro o ho
      obtain ⟨w, hw, how, hskips⟩ := h.skips o ho
      exact ⟨w, hpins.mem_iff.mpr (mem_cons_of_mem _ hw), how,
        skips_addReadingItem
          (s := s.setStage reader r (.reading v s.data)) hskips⟩
  · rw [pin_of_not_hasExtents s reader r hext]
    rw [if_neg hext] at hpins
    exact h.of_same rfl rfl hpins

theorem Marks.finalize (h : s.Marks) (hinv : s.PinInv) {reader : ℕ}
    {r : Reader K} (hr : (reader, r) ∈ s.readers) {v : IndexValue}
    {seen : ℤ → UInt8} (hstage : r.stage = .reading v seen) :
    ((s.removeReadingItem v).leave reader).Marks := by
  by_cases hext : v.HasExtents
  · have hpins := pins_of_reading hr hstage hext
    have hv : v ∈ s.pins := hpins.mem_iff.mpr mem_cons_self
    have hoffset := hinv.offset_nonneg hv
    obtain ⟨item, items, skip, hreleases⟩ := hinv.releases hr hstage hext
    rw [hreleases.eq]
    constructor
    · intro o ho
      exact (hreleases.others o (by omega)).trans (h.items o ho)
    · intro o ho
      obtain ⟨hold, hother⟩ := (hreleases.skip o).mp ho
      obtain ⟨w, hw, how, hskips⟩ := h.skips o hold
      obtain ⟨u, hu, huw⟩ : ∃ u ∈ s.otherPins reader, u.offset = w.offset := by
        rcases mem_cons.mp (hpins.mem_iff.mp hw) with rfl | hw
        · by_contra hlast
          apply hother
          obtain ⟨item', hitem, hfree⟩ := hskips
          rw [hreleases.counted] at hitem
          cases hitem
          refine ⟨countP_eq_zero.mpr ?_, hfree, how⟩
          intro u hu huw
          exact hlast ⟨u, hu, of_decide_eq_true huw⟩
        · exact ⟨w, hw, rfl⟩
      refine ⟨u, hu, ?_, hreleases.skips (countP_ne_zero hu)
        (by rw [huw]; exact hskips)⟩
      rcases hinv.agree u (mem_otherPins hr hu) w hw with heq | hne
      · rw [IndexValue.offsets, heq]
        exact how
      · exact absurd (huw ▸ offset_mem_offsets w) (hne _ (offset_mem_offsets u))
  · rw [removeReadingItem_of_not (hinv.stored _ hr v seen hstage) hext]
    exact h.of_same rfl rfl
      (otherPins_of_none hr (by simp [Reader.pinned, hstage, hext]))

/-! ## Items -/

theorem PinInv.mem_pins_of_lookup (h : s.PinInv) (hinv : s.node.Inv cfg.node)
    {fn : K} {v : IndexValue} (hfn : (fn, v) ∈ s.main) (hext : v.HasExtents)
    {item : ReadingItem} (hitem : s.readingItems.lookup v.offset = some item) :
    v ∈ s.pins := by
  have haligned :=
    aligned_of_hasExtents (hinv.alloc.wellFormed.main (fn, v) hfn) hext
  have hcounted := h.counted v.offset
    (haligned ⟨v.offset, v.len⟩ mem_cons_self).nonneg
  have hpos : 0 < s.pinCount v.offset := by
    by_contra hzero
    rw [if_pos (by omega), hitem] at hcounted
    cases hcounted
  obtain ⟨w, hw, hoffset⟩ := countP_pos_iff.mp hpos
  have hoffset : w.offset = v.offset := by simpa using hoffset
  rcases (h.holds w hw).meets hinv hfn (fun e he => (haligned e he).pos)
    (h.pos hw) with rfl | hne
  · exact hw
  · exact absurd (hoffset ▸ offset_mem_offsets w) (hne _ (offset_mem_offsets v))

theorem Marks.skipReadingFn (h : s.Marks) (hinv : s.PinInv)
    (hnode : s.node.Inv cfg.node) (fn : K) : (s.skipReadingFn fn).Marks := by
  obtain ⟨items, skip, heq, htells⟩ := skipReadingFn_tells s fn
  rw [heq]
  constructor
  · intro o ho
    have hrefs := htells.refs o
    rw [h.items o ho] at hrefs
    exact Option.map_eq_none_iff.mp hrefs
  · intro o ho
    rcases htells.only o ho with ho | ⟨v, item, hv, hext, hitem, ho⟩
    · obtain ⟨w, hw, how, hskips⟩ := h.skips o ho
      exact ⟨w, hw, how, htells.skips _ hskips⟩
    · exact ⟨v, hinv.mem_pins_of_lookup hnode (lookup_eq_some.mp hv) hext
        hitem, ho, (htells.told v item hv hext hitem).1⟩

variable [DecidableEq P]

/-! ## Steps -/

def queuedReader (s : ReadNode K) (reader : ℕ) : Option (Reader K) := do
  let r ← s.readers.lookup reader
  match r.stage with
  | .queued => some r
  | _ => none

/-- A `ReadFragInfo` item that is run finds its key. -/
def Finds (cfg : ReadConfig K P) (s : ReadNode K) : ReadEvent K → Prop
  | .readFragInfo reader => ∀ r ∈ s.queuedReader reader,
      (getFragInfo cfg s.main r.fn r.readNewest).isSome
  | _ => True

instance (cfg : ReadConfig K P) (s : ReadNode K) (e : ReadEvent K) :
    Decidable (Finds cfg s e) := by
  rcases e with ⟨⟩ <;> dsimp only [Finds] <;> infer_instance

theorem Marks.reader (h : s.Marks) (hinv : ReadInv cfg s) {e : ReadEvent K}
    (hcurrent : Current cfg s e) (hfinds : Finds cfg s e)
    (hstep : ReaderStep cfg s e s') : s'.Marks := by
  cases hstep with
  | @prepare fn readNewest readUnsynced =>
    obtain ⟨stage, hstage, heq⟩ :=
      readPrepare_eq cfg s fn readNewest readUnsynced
    rw [heq]
    exact h.of_same rfl rfl
      (pins_uncounted (otherPins_nextReader hinv.pins) hstage)
  | snapshotNone hr hstage =>
    exact h.of_same rfl rfl
      (otherPins_of_none hr (by simp [Reader.pinned, hstage]))
  | snapshot hr hstage | requeue hr hstage =>
    exact h.of_same rfl rfl (pins_uncounted
      (otherPins_of_none hr (by simp [Reader.pinned, hstage])) (by simp))
  | @pin reader r v hr hstage hitems =>
    have hfound : s.foundValue reader = some (r, v) := by
      simp [foundValue, lookup_eq_some.mpr hr, hstage]
    obtain ⟨k, hk⟩ := mem_of_getFragInfo (hcurrent (r, v) hfound)
    exact h.pin hr (by simp [Reader.pinned, hstage])
      (hinv.trim.node.disk.wellFormed.main (k, v) hk)
  | @notFound reader r hr hstage hv =>
    have hqueued : s.queuedReader reader = some r := by
      simp [queuedReader, lookup_eq_some.mpr hr, hstage]
    have hsome := hfinds r hqueued
    rw [hv] at hsome
    cases hsome
  | @read reader r v hr hstage hv =>
    obtain ⟨k, hk⟩ := mem_of_getFragInfo hv
    exact h.pin hr (by simp [Reader.pinned, hstage])
      (hinv.trim.node.alloc.wellFormed.main (k, v) hk)
  | finalize hr hstage => exact h.finalize hinv.pins hr hstage

theorem Marks.step (h : s.Marks) (hinv : ReadInv cfg s) {e : ReadEvent K}
    (hcurrent : Current cfg s e) (hfinds : Finds cfg s e)
    (hsteps : Steps cfg s e s') : s'.Marks := by
  cases hsteps with
  | @item e node fn n hcan hnode hkey hcount =>
    have hcounted : Marks { s with
        commitItems := s.commitItems.insert (cfg.hash fn) n } :=
      ⟨h.items, h.skips⟩
    have hskip := hcounted.skipReadingFn
      (hinv.pins.of_maps rfl rfl (fun _ ht => ht) (fun _ ht => ht)
        fun _ _ _ _ _ _ => rfl) hinv.trim.node fn
    exact ⟨hskip.items, hskip.skips⟩
  | crash hnode => exact ⟨fun o _ => rfl, by simp [started]⟩
  | reader hreader => exact h.reader hinv hcurrent hfinds hreader
  | trim hstep =>
    cases hstep with
    | _ => exact ⟨h.items, h.skips⟩
  | _ => exact ⟨h.items, h.skips⟩

end

/-! ## Without readers -/

variable {s : ReadNode K}

theorem Marks.counted (h : s.Marks) (hinv : s.PinInv) (o : ℤ) :
    (s.readingItems.lookup o).map ReadingItem.refs =
      if s.pinCount o = 0 then none else some (s.pinCount o : ℤ) := by
  by_cases ho : 0 ≤ o
  · exact hinv.counted o ho
  · have hzero : s.pinCount o = 0 := by
      apply countP_eq_zero.mpr
      intro v hv heq
      have hoffset := hinv.offset_nonneg hv
      have heq : v.offset = o := by simpa using heq
      omega
    rw [if_pos hzero, h.items o (by omega)]
    rfl

theorem Marks.empty (h : s.Marks) (hinv : s.PinInv) (hpins : s.pins = []) :
    s.readingItems.entries = [] ∧ s.readingFreeSkipExtents = [] := by
  constructor
  · apply eq_nil_iff_forall_not_mem.mpr
    intro p hp
    have hitem : s.readingItems.lookup p.1 = some p.2 := lookup_eq_some.mpr hp
    have hcounted := h.counted hinv p.1
    rw [hitem, pinCount, hpins] at hcounted
    cases hcounted
  · apply eq_nil_iff_forall_not_mem.mpr
    intro o ho
    obtain ⟨v, hv, -⟩ := h.skips o ho
    rw [hpins] at hv
    cases hv

end ReadNode

end Hs5
