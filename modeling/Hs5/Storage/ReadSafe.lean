import Hs5.Storage.Pins

/-!
# Readers see the version they have opened

From the return of `read_prepare` to `read_finalize` no block of the extents
it has returned is handed out or punched, so the bytes stay as they are.
Either the object is still there, or it was removed and each of its extents is
spared: it lies in the free map, and its offset is among those that the
search for free space and the trim thread skip.
-/

namespace Hs5

open List Cover Transition OrderedMap

variable {K P : Type} [LinearOrder K]

/-! ## What a commit does to free extents -/

/-- A commit keeps the index and the free extents around the points, and hands
only the freed extents of the transaction to the trim thread. -/
structure Node.Commits (points : List ℤ) (s s' : Node K) : Prop where
  main : s'.alloc.commit.main = s.alloc.commit.main
  within : ∀ o ∈ points, ∀ lo hi, lo ≤ o → o < hi →
    s.alloc.commit.fm.Within lo hi → s'.alloc.commit.fm.Within lo hi
  trimItems : s'.alloc.commit.fm.trimItems = []
  trimQueue : ∀ t ∈ s'.trimQueue,
    t ∈ s.trimQueue ∨ t ∈ s.alloc.commit.fm.trimItems

namespace Node

variable {cfg : NodeConfig} {s s' : Node K}

theorem commits_walCommit (hinv : s.Inv cfg) (points : List ℤ)
    (hstep : s.step cfg .walCommit = some s') : Commits points s s' := by
  obtain ⟨-, halloc, -, -, -, -, htrim⟩ := step_walCommit hstep
  have hsame := CommitState.sameMaps_committed s.alloc.commit
  refine ⟨(main_walCommit hstep).2, ?_, ?_, ?_⟩
  · intro o _ lo hi _ _ hwithin
    rw [halloc]
    simpa only [Freemap.Within, hsame.fm.free] using hwithin
  · rw [halloc]
    rfl
  · intro t ht
    rw [htrim] at ht
    rcases mem_append.mp ht with ht | ht
    · exact .inl ht
    · exact .inr (mem_trimItems_of_walCommit hinv ht)

theorem commits_lmdbCommit (hinv : s.Inv cfg) {points : List ℤ}
    {rounds : List SkipExtents}
    (hrounds : ∀ skip ∈ rounds, ∀ o ∈ points, o ∈ skip.points)
    (hstep : s.step cfg (.lmdbCommit rounds) = some s') :
    Commits points s s' := by
  have hmain := (main_lmdbCommit hstep).2
  obtain ⟨-, c, hc, rfl⟩ := lmdbCommit_eq hstep
  have hkept := CommitState.doFreeMinspace_kept hinv.alloc.wellFormed
    hinv.alloc.owned_le_one hrounds hc
  have hsame := CommitState.sameMaps_committed c
  refine ⟨hmain, ?_, rfl, ?_⟩
  · intro o ho lo hi hlo hhi hwithin
    have hwithin' := hkept.keeps.within o (mem_append_right _ ho) lo hi
      hlo hhi hwithin
    simpa only [Freemap.Within, hsame.fm.free] using hwithin'
  · intro t ht
    rcases mem_append.mp ht with ht | ht
    · exact .inl ht
    · right
      rw [← hkept.keeps.trim]
      exact mem_runTrimQueue ht

end Node

namespace ReadNode

section

variable {cfg : ReadConfig K P} {s s' : ReadNode K} {node : Node K}
  {committing doTrim : Bool} {commitItems : OrderedMap ℕ ℕ}
  {items : OrderedMap ℤ ReadingItem} {skip : List ℤ}
  {trimQueue aside : List SPunchItem} {punching : Option SPunchItem}
  {data : ℤ → UInt8} {queue : List (ℤ × List UInt8)} {v : IndexValue}
  {e : AllocEvent K}

/-! ## Steps that leave the readers alone -/

theorem PinInv.of_holds (h : s.PinInv)
    (hs' : s' = ⟨node, committing, commitItems, items, skip, trimQueue,
      aside, punching, doTrim, s.readers, s.nextReader, data, queue⟩)
    (hitems : ∀ o, (items.lookup o).map ReadingItem.refs =
      (s.readingItems.lookup o).map ReadingItem.refs)
    (hholds : ∀ v ∈ s.pins, s'.Holds v)
    (hdata : ∀ v ∈ s.pins, ∀ e ∈ v.extents,
      ∀ x ∈ Set.Ico e.span.1 e.span.2, data x = s.data x) :
    s'.PinInv := by
  subst hs'
  refine ⟨h.tickets, fun o ho => (hitems o).trans (h.counted o ho),
    h.stored, hholds, h.agree, ?_⟩
  intro p hp v seen hstage e he x hx
  have hext := hasExtents_of_mem_span (h.stored p hp v seen hstage) he hx
  have hv : v ∈ s.pins := mem_pins.mpr ⟨p, hp, seen, hstage, hext⟩
  exact (hdata v hv e he x hx).trans (h.seen p hp v seen hstage e he x hx)

theorem PinInv.of_maps (h : s.PinInv)
    (hs' : s' = ⟨node, committing, commitItems, s.readingItems,
      s.readingFreeSkipExtents, trimQueue, aside, punching, doTrim,
      s.readers, s.nextReader, data, queue⟩)
    (hcommit : node.alloc.commit = s.node.alloc.commit)
    (htrim : ∀ t ∈ node.trimQueue, t ∈ s.node.trimQueue)
    (hpunching : ∀ t, punching = some t → s.punching = some t)
    (hdata : ∀ v ∈ s.pins, ∀ e ∈ v.extents,
      ∀ x ∈ Set.Ico e.span.1 e.span.2, data x = s.data x) :
    s'.PinInv := by
  refine h.of_holds hs' (fun _ => rfl) ?_ hdata
  subst hs'
  intro v hv
  rcases h.holds v hv with ⟨fn, hfn⟩ | ⟨hskips, hspared⟩
  · refine .inl ⟨fn, ?_⟩
    rw [ReadNode.main, hcommit]
    exact hfn
  · refine .inr ⟨hskips, fun e he => ?_⟩
    obtain ⟨hskip, hwithin, hwhole, hqueued, hquiet⟩ := hspared e he
    rw [ReadNode.fm, ← hcommit] at hwithin hwhole
    exact ⟨hskip, hwithin, hwhole, fun t ht => hqueued t (htrim t ht),
      fun t ht => hquiet t (hpunching t ht)⟩

/-! ## Commits -/

theorem PinInv.committed (h : s.PinInv)
    (hcommit : Node.Commits s.readingFreeSkipExtents s.node node)
    (hs' : s' = ⟨node, committing, commitItems, s.readingItems,
      s.readingFreeSkipExtents, trimQueue, aside, s.punching, doTrim,
      s.readers, s.nextReader, data, queue⟩) : ∀ v ∈ s.pins, s'.Holds v := by
  subst hs'
  intro v hv
  rcases h.holds v hv with ⟨fn, hfn⟩ | ⟨hskips, hspared⟩
  · refine .inl ⟨fn, ?_⟩
    rw [ReadNode.main, hcommit.main]
    exact hfn
  · refine .inr ⟨hskips, fun e he => ?_⟩
    obtain ⟨hskip, hwithin, hwhole, hqueued, hquiet⟩ := hspared e he
    have hround := roundUp_pos (h.pos hv e he)
    refine ⟨hskip, ?_, ?_, ?_, hquiet⟩
    · refine hcommit.within e.offset hskip _ _ le_rfl ?_ hwithin
      simp only [SPunchItem.span]
      omega
    · intro t ht
      rw [ReadNode.fm, hcommit.trimItems] at ht
      cases ht
    · intro t ht
      rcases hcommit.trimQueue t ht with ht | ht
      · exact hqueued t ht
      · exact hwhole t ht

theorem zero_of_notMem {data : ℤ → UInt8} {offset len x : ℤ}
    (hx : x ∉ Set.Ico offset (offset + len)) :
    zero data offset len x = data x :=
  if_neg hx

theorem zeroHoles_of_idle {x : ℤ}
    (hx : ∀ p ∈ node.alloc.commit.holes, x ∉ Set.Ico p.1 (p.1 + p.2)) :
    s.zeroHoles node x = s.data x := by
  have hfold : ∀ (holes : List (ℤ × ℤ)) (data : ℤ → UInt8),
      (∀ p ∈ holes, x ∉ Set.Ico p.1 (p.1 + p.2)) →
        holes.foldl (fun data p => zero data p.1 p.2) data x = data x := by
    intro holes
    induction holes with
    | nil => exact fun data _ => rfl
    | cons p holes ih =>
      intro data hall
      rw [foldl_cons, ih _ fun q hq => hall q (mem_cons_of_mem _ hq)]
      exact zero_of_notMem (hall p mem_cons_self)
  apply hfold
  intro p hp
  exact hx p (List.mem_filter.mp hp).1

theorem PinInv.walCommit (h : s.PinInv) (hinv : s.node.Inv cfg.node)
    (hnode : s.node.step cfg.node .walCommit = some node) :
    (s.pushTrim node).PinInv := by
  have hcommit := Node.commits_walCommit hinv s.readingFreeSkipExtents hnode
  exact h.of_holds rfl (fun _ => rfl) (h.committed hcommit rfl)
    fun _ _ _ _ _ _ => rfl

theorem PinInv.lmdbCommit (h : s.PinInv) (hinv : s.node.Inv cfg.node)
    {rounds : List SkipExtents} (hskip : ∀ skip ∈ rounds,
      skip.readingFreeSkipExtents = s.readingFreeSkipExtents)
    (hnode : s.node.step cfg.node (.lmdbCommit rounds) = some node)
    (htrim : TrimInv cfg { s.pushTrim node with
      committing := true
      data := s.zeroHoles node }) :
    ({ s.pushTrim node with
      committing := true
      data := s.zeroHoles node } : ReadNode K).PinInv := by
  have hpoints : ∀ skip ∈ rounds, ∀ o ∈ s.readingFreeSkipExtents,
      o ∈ skip.points := by
    intro skip hmem o ho
    rw [← hskip skip hmem] at ho
    exact mem_append_right _ ho
  have hcommit := Node.commits_lmdbCommit hinv hpoints hnode
  have hholds : ∀ v ∈ s.pins, Holds { s.pushTrim node with
      committing := true
      data := s.zeroHoles node } v := h.committed hcommit rfl
  refine h.of_holds rfl (fun _ => rfl) hholds ?_
  intro v hv e he x hx
  exact zeroHoles_of_idle ((hholds v hv).idle htrim he hx).1.holes

/-! ## Items -/

/-- What `remove_fn` tells the readers of the value of its key. -/
structure Tells (s : ReadNode K) (fn : K)
    (items : OrderedMap ℤ ReadingItem) (skip : List ℤ) : Prop where
  refs : ∀ o, (items.lookup o).map ReadingItem.refs =
    (s.readingItems.lookup o).map ReadingItem.refs
  skips : ∀ o, s.Skips o → Skips { s with readingItems := items } o
  keeps : ∀ o ∈ s.readingFreeSkipExtents, o ∈ skip
  told : ∀ v item, s.main.lookup fn = some v → v.HasExtents →
    s.readingItems.lookup v.offset = some item →
      Skips { s with readingItems := items } v.offset ∧
        ∀ o ∈ v.offsets, o ∈ skip
  only : ∀ o ∈ skip, o ∈ s.readingFreeSkipExtents ∨
    ∃ v item, s.main.lookup fn = some v ∧ v.HasExtents ∧
      s.readingItems.lookup v.offset = some item ∧ o ∈ v.offsets

theorem skipReadingFn_tells (s : ReadNode K) (fn : K) :
    ∃ items skip, s.skipReadingFn fn =
        { s with readingItems := items, readingFreeSkipExtents := skip } ∧
      s.Tells fn items skip := by
  have hnone : (∀ v item, s.main.lookup fn = some v → v.HasExtents →
      s.readingItems.lookup v.offset ≠ some item) →
        s.Tells fn s.readingItems s.readingFreeSkipExtents :=
    fun hno => ⟨fun _ => rfl, fun _ ho => ho, fun _ ho => ho,
      fun v item hv hext hitem => absurd hitem (hno v item hv hext),
      fun _ ho => .inl ho⟩
  unfold skipReadingFn
  split
  · rename_i v hv
    unfold skipReading
    split
    · rename_i hext
      split
      · rename_i hitem
        refine ⟨_, _, rfl, hnone ?_⟩
        intro w item hw _
        rw [hv] at hw
        cases hw
        simp [hitem]
      · rename_i item hitem
        have htold : Skips { s with
            readingItems := s.readingItems.insert v.offset
              { item with freeSkip := true } } v.offset :=
          ⟨_, lookup_insert_self _ _ _, rfl⟩
        refine ⟨_, _, rfl, ?_, ?_, fun o ho => mem_append_right _ ho,
          ?_, ?_⟩
        · intro o
          by_cases ho : o = v.offset
          · simp [ho, hitem]
          · simp only [lookup_insert_of_ne _ _ ho]
        · rintro o ⟨item', hitem', hfree⟩
          by_cases ho : o = v.offset
          · rw [ho]
            exact htold
          · exact ⟨item', (lookup_insert_of_ne _ _ ho).trans hitem', hfree⟩
        · intro w item' hw _ _
          rw [hv] at hw
          cases hw
          exact ⟨htold, fun o ho => mem_append_left _ ho⟩
        · intro o ho
          rcases mem_append.mp ho with ho | ho
          · exact .inr ⟨v, item, hv, hext, hitem, ho⟩
          · exact .inl ho
    · rename_i hext
      refine ⟨_, _, rfl, hnone ?_⟩
      intro w item hw hext'
      rw [hv] at hw
      cases hw
      exact absurd hext' hext
  · rename_i hv
    exact ⟨_, _, rfl, hnone fun w item hw => by simp [hv] at hw⟩

theorem PinInv.lookup (h : s.PinInv) (hv : v ∈ s.pins) :
    ∃ item, s.readingItems.lookup v.offset = some item := by
  have hcounted := h.counted v.offset (h.offset_nonneg hv)
  have hpos : 0 < s.pinCount v.offset :=
    countP_pos_iff.mpr ⟨v, hv, by simp⟩
  rw [if_neg (by omega)] at hcounted
  obtain ⟨item, hitem, -⟩ := Option.map_eq_some_iff.mp hcounted
  exact ⟨item, hitem⟩

theorem TrimInv.not_mem_trimming (h : TrimInv cfg s) {p : K × IndexValue}
    (hp : p ∈ s.main) {e : SPunchItem} (he : e ∈ p.2.extents) {x : ℤ}
    (hx : x ∈ Set.Ico e.span.1 e.span.2) {t : SPunchItem}
    (ht : t ∈ s.node.trimQueue) : x ∉ Set.Ico t.offset (t.offset + t.len) :=
  not_within_of_object h.node hp he hx (h.shielded.trimmed t ht).2

theorem canRun_reading (hcan : s.canRun e = true) :
    ∀ env, e = .findFree env → ∀ o ∈ s.readingFreeSkipExtents,
      o ∈ env.skip.points := by
  rintro env rfl o ho
  have hskip : env.skip.readingFreeSkipExtents =
      s.readingFreeSkipExtents := by
    simp only [canRun, Bool.and_eq_true, decide_eq_true_eq] at hcan
    exact hcan.2
  exact mem_append_right _ (hskip ▸ ho)

theorem preserves_of_canRun (hinv : s.node.Inv cfg.node)
    (hcan : s.canRun e = true)
    (hnode : s.node.step cfg.node (.run e) = some node) :
    CommitState.Preserves s.readingFreeSkipExtents s.node.alloc.commit
      node.alloc.commit := by
  obtain ⟨hrun, alloc, halloc, rfl⟩ := Node.step_run hnode
  exact Node.preserves_of_step hinv.alloc hrun (canRun_reading hcan) halloc

theorem Spared.run {e : SPunchItem} {readers : OrderedMap ℕ (Reader K)}
    {nextReader : ℕ} (hpos : 0 < e.len)
    (hpres : CommitState.Preserves s.readingFreeSkipExtents
      s.node.alloc.commit node.alloc.commit)
    (htrim : node.trimQueue = s.node.trimQueue) (h : s.Spared e)
    (hskip : e.offset ∈ skip) :
    Spared ⟨node, committing, commitItems, items, skip, trimQueue, aside,
      s.punching, doTrim, readers, nextReader, data, queue⟩ e := by
  refine ⟨hskip, ?_, hpres.whole _ _ h.within h.whole, ?_, h.quiet⟩
  · exact hpres.within ⟨e.offset, roundUp e.len⟩ (roundUp_pos hpos) h.skip
      h.within
  · rw [htrim]
    exact h.queued

theorem PinInv.run (h : s.PinInv) (hinv : s.node.Inv cfg.node)
    (hcan : s.canRun e = true)
    (hnode : s.node.step cfg.node (.run e) = some node)
    (hkey : itemKey e = none) : PinInv { s with node := node } := by
  have hpres := preserves_of_canRun hinv hcan hnode
  obtain ⟨-, htrim⟩ := Node.run_frame hnode
  refine h.of_holds rfl (fun _ => rfl) ?_ fun _ _ _ _ _ _ => rfl
  intro v hv
  rcases h.holds v hv with ⟨fn, hfn⟩ | ⟨hskips, hspared⟩
  · refine .inl ⟨fn, ?_⟩
    rw [ReadNode.main, Node.main_run_of_none hinv hkey hnode]
    exact hfn
  · exact .inr ⟨hskips, fun e he => (hspared e he).run (h.pos hv e he)
      hpres htrim (hspared e he).skip⟩

theorem TrimInv.spared (h : TrimInv cfg s) {p : K × IndexValue}
    (hp : p ∈ s.main) {e : SPunchItem} (he : e ∈ p.2.extents)
    {readers : OrderedMap ℕ (Reader K)} {nextReader : ℕ}
    (hwithin : node.alloc.commit.fm.Within e.span.1 e.span.2)
    (hwhole : node.alloc.commit.fm.Whole e.span.1 e.span.2)
    (hqueue : node.trimQueue = s.node.trimQueue) (hskip : e.offset ∈ skip) :
    Spared ⟨node, committing, commitItems, items, skip, trimQueue, aside,
      s.punching, doTrim, readers, nextReader, data, queue⟩ e := by
  refine ⟨hskip, hwithin, hwhole, ?_, ?_⟩
  · intro t ht hinside
    rw [hqueue] at ht
    have hpos := (h.shielded.trimmed t ht).1
    exact h.not_mem_trimming hp he ⟨hinside.1.le, hinside.2⟩ ht
      ⟨le_rfl, by omega⟩
  · intro t ht x hx
    have ht : s.punching = some t := ht
    have hmem : t ∈ s.node.trimQueue :=
      h.trims.mem_iff.mpr (by simp [ReadNode.trimming, ht])
    exact h.not_mem_trimming hp he hx hmem

theorem PinInv.item (h : s.PinInv) (htrim : TrimInv cfg s) {fn : K}
    (hcan : s.canRun e = true)
    (hnode : s.node.step cfg.node (.run e) = some node)
    (hkey : itemKey e = some fn) :
    PinInv { skipReadingFn { s with commitItems := commitItems } fn with
      node := node } := by
  obtain ⟨items, skip, heq, htells⟩ :=
    skipReadingFn_tells { s with commitItems := commitItems } fn
  have hpres := preserves_of_canRun htrim.node hcan hnode
  obtain ⟨-, hqueue⟩ := Node.run_frame hnode
  rw [heq]
  refine h.of_holds rfl htells.refs ?_ fun _ _ _ _ _ _ => rfl
  intro v hv
  rcases h.holds v hv with ⟨k, hk⟩ | ⟨hskips, hspared⟩
  · rcases hpres.removed htrim.shielded.marked (k, v) hk with hk' | hfreed
    · exact .inl ⟨k, hk'⟩
    · by_cases hfn : k = fn
      · obtain ⟨item, hitem⟩ := h.lookup hv
        obtain ⟨p, hp, seen, hstage, hext⟩ := mem_pins.mp hv
        obtain ⟨hskips, hskip⟩ := htells.told v item
          (lookup_eq_some.mpr (hfn ▸ hk)) hext hitem
        refine .inr ⟨hskips, fun e he => ?_⟩
        obtain ⟨hwithin, hwhole⟩ := hfreed e he (h.pos hv e he)
        exact htrim.spared hk he hwithin hwhole hqueue
          (hskip _ (mem_map_of_mem he))
      · refine .inl ⟨k, ?_⟩
        rw [← lookup_eq_some, ReadNode.main,
          Node.lookup_run_of_ne htrim.node hkey hfn hnode]
        exact lookup_eq_some.mpr hk
  · exact .inr ⟨htells.skips _ hskips, fun e he => Spared.run (s := s)
      (h.pos hv e he) hpres hqueue (hspared e he)
      (htells.keeps _ (hspared e he).skip)⟩

/-! ## The trim thread, writes and crashes -/

theorem Spared.start {e t : SPunchItem} (h : s.Spared e)
    (ht : t ∈ s.node.trimQueue)
    (hskip : hasPointIn s.readingFreeSkipExtents t.offset t.len = false) :
    ∀ x ∈ Set.Ico e.span.1 e.span.2,
      x ∉ Set.Ico t.offset (t.offset + t.len) := by
  intro x hx hxt
  have hnot : ¬ (t.offset ≤ e.offset ∧ e.offset < t.offset + t.len) := by
    rintro ⟨hlo, hhi⟩
    have hpoint := Freemap.hasPointIn_of_mem h.skip hlo hhi
    rw [hskip] at hpoint
    cases hpoint
  apply h.queued t ht
  simp only [SPunchItem.span, Set.mem_Ico] at hx hxt ⊢
  omega

theorem PinInv.trim (h : s.PinInv) (htrim : TrimInv cfg s) {e : ReadEvent K}
    (hstep : TrimStep s e s') : s'.PinInv := by
  cases hstep with
  | retry | putAside =>
    exact h.of_maps rfl rfl (fun _ ht => ht) (fun _ ht => ht)
      fun _ _ _ _ _ _ => rfl
  | drop =>
    exact h.of_maps rfl rfl (fun _ ht => mem_of_mem_erase ht)
      (fun _ ht => ht) fun _ _ _ _ _ _ => rfl
  | finish =>
    exact h.of_maps rfl rfl (fun _ ht => mem_of_mem_erase ht)
      (fun _ ht => nomatch ht) fun _ _ _ _ _ _ => rfl
  | @start item rest hpunching hqueue hskip =>
    have hitem : item ∈ s.node.trimQueue :=
      htrim.trims.mem_iff.mpr (by simp [ReadNode.trimming, hqueue])
    refine h.of_holds rfl (fun _ => rfl) ?_ fun _ _ _ _ _ _ => rfl
    intro v hv
    rcases h.holds v hv with hlive | ⟨hskips, hspared⟩
    · exact .inl hlive
    · right
      refine ⟨hskips, ?_⟩
      intro e he
      have hold := hspared e he
      refine ⟨hold.skip, hold.within, hold.whole, hold.queued, ?_⟩
      intro t ht
      cases ht
      exact hold.start hitem hskip

theorem writeBytes_of_notMem {data : ℤ → UInt8} {offset x : ℤ}
    {bytes : List UInt8} (hx : x ∉ Set.Ico offset (offset + bytes.length)) :
    writeBytes data offset bytes x = data x := by
  unfold writeBytes
  split
  · rename_i hle
    have hlen : bytes.length ≤ (x - offset).toNat := by
      have hge : ¬ x < offset + bytes.length := fun hlt => hx ⟨hle, hlt⟩
      omega
    rw [getElem?_eq_none hlen]
    rfl
  · rfl

theorem PinInv.writeExt (h : s.PinInv) (htrim : TrimInv cfg s)
    {e : SPunchItem} {offset : ℤ} {bytes : List UInt8}
    (he : e ∈ s.node.alloc.held) (hoffset : 0 ≤ offset)
    (hlen : offset + bytes.length ≤ roundUp e.len) :
    ({ s with data := writeBytes s.data (e.offset + offset) bytes } :
      ReadNode K).PinInv := by
  refine h.of_maps rfl rfl (fun _ ht => ht) (fun _ ht => ht) ?_
  intro v hv f hf x hx
  have hidle := ((h.holds v hv).idle htrim hf hx).1.held e he
  apply writeBytes_of_notMem
  intro hin
  apply hidle
  simp only [SPunchItem.span, Set.mem_Ico] at hin ⊢
  omega

theorem PinInv.punch (h : s.PinInv) (htrim : TrimInv cfg s)
    {item : SPunchItem} (hpunching : s.punching = some item) :
    ({ s with data := zero s.data item.offset item.len } :
      ReadNode K).PinInv := by
  refine h.of_maps rfl rfl (fun _ ht => ht) (fun _ ht => ht) ?_
  intro v hv e he x hx
  exact zero_of_notMem (((h.holds v hv).idle htrim he hx).2 item hpunching)

theorem pinInv_started (node : Node K) (nextReader : ℕ) (data : ℤ → UInt8) :
    (started node nextReader data).PinInv := by
  have hnone : ∀ p, p ∉ (started node nextReader data).readers := not_mem_empty
  have hpins : (started node nextReader data).pins = [] := rfl
  refine ⟨fun p hp => absurd hp (hnone p), fun o _ => rfl,
    fun p hp => absurd hp (hnone p), ?_, ?_, fun p hp => absurd hp (hnone p)⟩
  · simp [hpins]
  · simp [hpins]

/-! ## Readers -/

theorem readPrepare_eq (cfg : ReadConfig K P) (s : ReadNode K) (fn : K)
    (readNewest readUnsynced : Bool) :
    ∃ stage : ReadStage, (∀ v seen, stage ≠ .reading v seen) ∧
      s.readPrepare cfg fn readNewest readUnsynced = { s with
        readers := s.readers.insert s.nextReader ⟨fn, readNewest, stage⟩
        nextReader := s.nextReader + 1 } := by
  refine ⟨_, ?_, rfl⟩
  intro v seen
  split <;> simp

variable [DecidableEq P]

/-- The value that the fast path has read for a reader. -/
def foundValue (s : ReadNode K) (reader : ℕ) :
    Option (Reader K × IndexValue) := do
  let r ← s.readers.lookup reader
  match r.stage with
  | .found v => some (r, v)
  | _ => none

/-- No data is written by the data thread of the log, and when the fast path
counts a reader, the value that it has read is still the committed one. -/
def Current (cfg : ReadConfig K P) (s : ReadNode K) : ReadEvent K → Prop
  | .readPin reader => ∀ p ∈ s.foundValue reader,
      getFragInfo cfg s.node.disk.main p.1.fn p.1.readNewest = some p.2
  | .writeExt _ _ _ walWriteThread => walWriteThread = false
  | _ => True

instance (cfg : ReadConfig K P) (s : ReadNode K) (e : ReadEvent K) :
    Decidable (Current cfg s e) := by
  rcases e with ⟨⟩ <;> dsimp only [Current] <;> infer_instance

def PinsCurrent (cfg : ReadConfig K P) (s : ReadNode K) (e : ReadEvent K) :
    Prop :=
  Orderly cfg s e ∧ Current cfg s e

instance (cfg : ReadConfig K P) (s : ReadNode K) (e : ReadEvent K) :
    Decidable (PinsCurrent cfg s e) :=
  inferInstanceAs (Decidable (_ ∧ _))

theorem PinInv.reader (h : s.PinInv) (hinv : s.node.Inv cfg.node)
    (hcovered : Covered cfg s) {e : ReadEvent K} (hok : Current cfg s e)
    (hstep : ReaderStep cfg s e s') : s'.PinInv := by
  cases hstep with
  | @prepare fn readNewest readUnsynced =>
    obtain ⟨stage, hstage, heq⟩ :=
      readPrepare_eq cfg s fn readNewest readUnsynced
    rw [heq]
    exact h.insert hinv (otherPins_nextReader h) (Nat.lt_succ_self _)
      (Nat.le_succ _) hstage
  | snapshotNone hr hstage =>
    exact h.leave hinv hr (by simp [Reader.pinned, hstage])
  | snapshot hr hstage | requeue hr hstage =>
    exact h.insert hinv
      (otherPins_of_none hr (by simp [Reader.pinned, hstage]))
      (h.tickets _ hr) le_rfl (by simp)
  | @pin reader r v hr hstage hitems =>
    have hfound : s.foundValue reader = some (r, v) := by
      simp [foundValue, lookup_eq_some.mpr hr, hstage]
    have hv : getFragInfo cfg s.node.disk.main r.fn r.readNewest =
        some v := hok (r, v) hfound
    obtain ⟨k, hk⟩ := mem_of_getFragInfo hv
    refine h.pin hinv hr (by simp [Reader.pinned, hstage])
      (hinv.disk.wellFormed.main (k, v) hk) ?_
    intro hext
    rw [hcovered.getFragInfo_eq (hitems hext)] at hv
    exact mem_of_getFragInfo hv
  | notFound hr hstage =>
    have hperm := otherPins_of_none hr (by simp [Reader.pinned, hstage])
    refine h.erase hinv (h.counted.of_perm ?_ hperm) ?_
    · intro o ho
      exact lookup_insert_of_ne _ _ (by omega)
    · exact fun _ _ hskips =>
        ⟨skips_addReadingItem hskips, fun _ _ ho => ho⟩
  | @read reader r v hr hstage hv =>
    obtain ⟨k, hk⟩ := mem_of_getFragInfo hv
    exact h.pin hinv hr (by simp [Reader.pinned, hstage])
      (hinv.alloc.wellFormed.main (k, v) hk) fun _ => ⟨k, hk⟩
  | finalize hr hstage => exact h.finalize hinv hr hstage

/-! ## Every run -/

structure ReadInv (cfg : ReadConfig K P) (s : ReadNode K) : Prop where
  trim : TrimInv cfg s
  covered : Covered cfg s
  pins : s.PinInv
  direct : s.dataWriteQueue = []

theorem dataWriteQueue_of_steps {e : ReadEvent K} (hok : Current cfg s e)
    (hqueue : s.dataWriteQueue = []) (hsteps : Steps cfg s e s') :
    s'.dataWriteQueue = [] := by
  cases hsteps with
  | @item e node fn n hcan hnode hkey hcount =>
    obtain ⟨items, skip, heq⟩ := skipReadingFn_eq
      { s with commitItems := s.commitItems.insert (cfg.hash fn) n } fn
    rw [heq]
    exact hqueue
  | crash hnode => rfl
  | queueWrite => cases hok
  | dataWrite hcons =>
    rw [hqueue] at hcons
    cases hcons
  | reader hreader =>
    obtain ⟨items, skip, readers, next, rfl⟩ := hreader.frame
    exact hqueue
  | trim htrim => cases htrim <;> exact hqueue
  | _ => exact hqueue

theorem ReadInv.step (hpos : 0 < cfg.node.alloc.allocChunkSize)
    (hchunk : blockSize ∣ cfg.node.alloc.allocChunkSize)
    (h : ReadInv cfg s) {e : ReadEvent K} (hok : PinsCurrent cfg s e)
    (hsteps : Steps cfg s e s') : ReadInv cfg s' := by
  have htrim := h.trim.step hpos hchunk hok.1 hsteps
  refine ⟨htrim, h.covered.step h.trim.node hsteps, ?_,
    dataWriteQueue_of_steps hok.2 h.direct hsteps⟩
  cases hsteps with
  | enqueue | cleanCommitItems | resetWal =>
    exact h.pins.of_maps rfl rfl (fun _ ht => ht) (fun _ ht => ht)
      fun _ _ _ _ _ _ => rfl
  | run hcan hnode hkey => exact h.pins.run h.trim.node hcan hnode hkey
  | item hcan hnode hkey hcount => exact h.pins.item h.trim hcan hnode hkey
  | walCommit hidle hnode => exact h.pins.walCommit h.trim.node hnode
  | lmdbCommit hidle hskip hnode =>
    exact h.pins.lmdbCommit h.trim.node hskip hnode htrim
  | crash hnode => exact pinInv_started _ _ _
  | writeExt he hoffset hlen => exact h.pins.writeExt h.trim he hoffset hlen
  | queueWrite => cases hok.2
  | dataWrite hcons =>
    rw [h.direct] at hcons
    cases hcons
  | reader hreader => exact h.pins.reader h.trim.node h.covered hok.2 hreader
  | trim hstep => exact h.pins.trim h.trim hstep
  | punch hpunching => exact h.pins.punch h.trim hpunching

omit [DecidableEq P] in
theorem readInv_init (hpos : 0 < cfg.node.alloc.allocChunkSize)
    (hchunk : blockSize ∣ cfg.node.alloc.allocChunkSize) :
    ReadInv cfg (init cfg : ReadNode K) :=
  ⟨trimInv_init hpos hchunk, ⟨fun _ => .inl rfl, fun _ => rfl⟩,
    pinInv_started _ _ _, rfl⟩

/-- The byte is not handed out, not being punched, and as it was when
`read_prepare` returned. -/
structure Intact (s : ReadNode K) (seen : ℤ → UInt8) (x : ℤ) : Prop where
  idle : s.Idle x
  quiet : ∀ t, s.punching = some t → x ∉ Set.Ico t.offset (t.offset + t.len)
  same : s.data x = seen x

/-- Reader snapshot safety: between `read_prepare` and `read_finalize` every
byte of the returned extents stays intact, in every state of every run where
the fast path counts its readers for committed values. -/
theorem intact_of_reading (cfg : ReadConfig K P)
    (hpos : 0 < cfg.node.alloc.allocChunkSize)
    (hchunk : blockSize ∣ cfg.node.alloc.allocChunkSize) {s : ReadNode K}
    (hrun : Run (step cfg) (PinsCurrent cfg) (init cfg) s) {reader : ℕ}
    {r : Reader K} (hr : (reader, r) ∈ s.readers) {v : IndexValue}
    {seen : ℤ → UInt8} (hstage : r.stage = .reading v seen) :
    ∀ e ∈ v.extents, ∀ x ∈ Set.Ico e.span.1 e.span.2, s.Intact seen x := by
  have hinv : ReadInv cfg s := by
    apply hrun.invariant (readInv_init hpos hchunk)
    intro s e s' h hok hstep
    exact h.step hpos hchunk hok (step_steps hstep)
  intro e he x hx
  have hstored := hinv.pins.stored (reader, r) hr v seen hstage
  have hext := hasExtents_of_mem_span hstored he hx
  have hv : v ∈ s.pins := mem_pins.mpr ⟨(reader, r), hr, seen, hstage, hext⟩
  obtain ⟨hidle, hquiet⟩ := (hinv.pins.holds v hv).idle hinv.trim he hx
  exact ⟨hidle, hquiet, hinv.pins.seen (reader, r) hr v seen hstage e he x hx⟩

end

/-- An object with one byte is committed and a reader finds it there; before
the reader is counted, the object is deleted, and the deletion committed. -/
def deleteBeforePin : List (ReadEvent ℕ) :=
  [.run (.writePrepare 1), .run .prepareExt, .run .finishPrepare,
    .writeExt ⟨0, 1⟩ 0 [7] false, .enqueue 1, .run (.add 1 [⟨0, 1⟩] 0 []),
    .lmdbCommit [], .cleanCommitItems,
    .readPrepare 1 false false, .readSnapshot 0,
    .enqueue 1, .run (.del 1), .lmdbCommit [], .cleanCommitItems,
    .readPin 0, .trim, .punch]

/-- The same with the reader counted before the object is deleted. -/
def deleteAfterPin : List (ReadEvent ℕ) :=
  [.run (.writePrepare 1), .run .prepareExt, .run .finishPrepare,
    .writeExt ⟨0, 1⟩ 0 [7] false, .enqueue 1, .run (.add 1 [⟨0, 1⟩] 0 []),
    .lmdbCommit [], .cleanCommitItems,
    .readPrepare 1 false false, .readSnapshot 0, .readPin 0,
    .enqueue 1, .run (.del 1), .lmdbCommit [], .cleanCommitItems, .trim]

/-- The extents that a reader may read, and the byte it saw at an offset. -/
def opened (s : ReadNode ℕ) (reader : ℕ) (x : ℤ) :
    Option (List SPunchItem × UInt8) :=
  match (s.readers.lookup reader).map Reader.stage with
  | some (.reading v seen) => some (v.extents, seen x)
  | _ => none

theorem reading_of_opened {s : ReadNode ℕ} {reader : ℕ} {x : ℤ}
    {exts : List SPunchItem} {byte : UInt8}
    (h : s.opened reader x = some (exts, byte)) :
    ∃ r v seen, (reader, r) ∈ s.readers ∧ r.stage = .reading v seen ∧
      v.extents = exts ∧ seen x = byte := by
  unfold opened at h
  split at h
  · rename_i v seen hstage
    obtain ⟨r, hr, hstage⟩ := Option.map_eq_some_iff.mp hstage
    obtain ⟨hexts, hbyte⟩ := Prod.mk.inj (Option.some.inj h)
    exact ⟨r, v, seen, lookup_eq_some.mp hr, hstage, hexts, hbyte⟩
  · cases h

theorem intact_of_reading_deleteAfterPin :
    ∃ s r v seen, exec (guarded (step (plainReads 8192))
        (PinsCurrent (plainReads 8192))) (init (plainReads 8192))
          deleteAfterPin = some s ∧
      (0, r) ∈ s.readers ∧ r.stage = .reading v seen ∧
      v.extents = [⟨0, 1⟩] ∧ s.main.entries = [] ∧
      ∀ e ∈ v.extents, ∀ x ∈ Set.Ico e.span.1 e.span.2, s.Intact seen x := by
  obtain ⟨s, hs, hopened, hmain⟩ : ∃ s ∈ exec (guarded
      (step (plainReads 8192)) (PinsCurrent (plainReads 8192)))
        (init (plainReads 8192)) deleteAfterPin,
      s.opened 0 0 = some ([⟨0, 1⟩], 7) ∧ s.main.entries = [] := by decide
  obtain ⟨r, v, seen, hr, hstage, hexts, -⟩ := reading_of_opened hopened
  exact ⟨s, r, v, seen, hs, hr, hstage, hexts, hmain,
    intact_of_reading (plainReads 8192) (by decide) (by decide)
      (run_of_exec_guarded hs) hr hstage⟩

/-- The second look at `commit_items` misses the deletion, and the block is
punched although it is being read. -/
theorem not_intact_deleteBeforePin :
    ∃ s r v seen, exec (step (plainReads 8192)) (init (plainReads 8192))
        deleteBeforePin = some s ∧
      (0, r) ∈ s.readers ∧ r.stage = .reading v seen ∧
      v.extents = [⟨0, 1⟩] ∧ s.punching = some ⟨0, 4096⟩ ∧
      seen 0 = 7 ∧ s.data 0 = 0 ∧ ¬ s.Intact seen 0 := by
  obtain ⟨s, hs, hopened, hpunching, hdata⟩ : ∃ s ∈ exec
      (step (plainReads 8192)) (init (plainReads 8192)) deleteBeforePin,
      s.opened 0 0 = some ([⟨0, 1⟩], 7) ∧ s.punching = some ⟨0, 4096⟩ ∧
        s.data 0 = 0 := by decide
  obtain ⟨r, v, seen, hr, hstage, hexts, hbyte⟩ := reading_of_opened hopened
  refine ⟨s, r, v, seen, hs, hr, hstage, hexts, hpunching, hbyte, hdata, ?_⟩
  intro hintact
  exact hintact.quiet _ hpunching (by decide)

end ReadNode

end Hs5
