import Hs5.Storage.Recovered

/-!
# Blocks of durable objects are not reused

The durable objects are those of the last LMDB commit with the synced items of
the log applied.  An object deleted or overwritten since is still durable.
Its blocks are in the free map then, and what protects them is that the offset
of each of its extents is remembered in `curr_new_free_extents` until the next
commit: the search for free space skips the free extent around that offset,
whatever it has been joined with.  An extent is trimmed only after the commit,
and its offset is remembered until the trimming is done.
-/

namespace Hs5

open Option List Cover Transition OrderedMap CommitState AllocState

variable {K : Type} [LinearOrder K]

/-! ## Durable objects -/

def LogItem.applyMain (main : OrderedMap K IndexValue) :
    LogItem K → OrderedMap K IndexValue
  | .add fn exts lastModified md5sum =>
    main.insert fn (indexValueOf exts lastModified md5sum)
  | .del fn => main.erase fn
  | .freeExtents _ => main
  | .freemap _ => main

variable {c c' : CommitState K}

theorem CommitState.removeFn_main {fn : K} {delFromMain : Bool}
    (h : c.removeFn fn delFromMain = some c') :
    c'.main = if delFromMain then c.main.erase fn else c.main := by
  unfold removeFn at h
  split at h
  · rename_i hlookup
    cases h
    have herase : c.main.erase fn = c.main :=
      erase_eq_self (lookup_eq_none.mp hlookup)
    simp [herase]
  · obtain ⟨fm, _, rfl⟩ := map_eq_some_iff.mp h
    rfl

theorem CommitState.replayItem_main {item : LogItem K}
    (h : c.replayItem item = some c') : c'.main = item.applyMain c.main := by
  cases item with
  | add fn exts lastModified md5sum =>
    obtain ⟨c₁, hc₁, rfl⟩ := map_eq_some_iff.mp h
    have hmain := removeFn_main hc₁
    simp only [Bool.false_eq_true, if_false] at hmain
    simp [LogItem.applyMain, eraseReserved, hmain]
  | del fn =>
    have hmain := removeFn_main h
    rw [if_pos rfl] at hmain
    exact hmain
  | freeExtents exts =>
    obtain ⟨fm, _, rfl⟩ := map_eq_some_iff.mp h
    exact (sameMaps_foldl_useExt exts (c.eraseReserved exts)).main
  | freemap change =>
    cases change with
    | addFreemapWal offset len | delFreemapWal offset len =>
      obtain ⟨fm, _, rfl⟩ := map_eq_some_iff.mp h
      rfl

theorem CommitState.replayItems_main {items : List (LogItem K)}
    (h : c.replayItems items = some c') :
    c'.main = items.foldl LogItem.applyMain c.main := by
  induction items generalizing c with
  | nil =>
    cases h
    rfl
  | cons item items ih =>
    obtain ⟨c₁, hc₁, hrest⟩ := bind_eq_some_iff.mp h
    rw [ih hrest, replayItem_main hc₁, foldl_cons]

namespace Node

/-- The index that the records of a log lead to. -/
def mainAfter (s : Node K) (log : List (LogEntry K)) :
    OrderedMap K IndexValue :=
  (replayed s.disk.size.currTransid (readable log)).foldl LogItem.applyMain
    s.disk.main

/-- The objects of the last committed LMDB transaction and the synced records
of the log. -/
def durableMain (s : Node K) : OrderedMap K IndexValue :=
  s.mainAfter s.log.durable

/-- The byte belongs to an extent handed out to an upload, to a write extent
that uploads are served from, to a hole, or to an extent being trimmed. -/
def Reused (s : Node K) (x : ℤ) : Prop :=
  (∃ e ∈ s.alloc.held, x ∈ Set.Ico e.span.1 e.span.2) ∨
    x ∈ Set.Ico s.alloc.dataFileOffset s.alloc.dataFileOffsetEnd ∨
    x ∈ Set.Ico s.alloc.pendingExt.1 s.alloc.pendingExt.2 ∨
    (∃ p ∈ s.alloc.commit.holes, x ∈ Set.Ico p.1 (p.1 + p.2)) ∨
    ∃ t ∈ s.trimQueue, x ∈ Set.Ico t.offset (t.offset + t.len)

/-- No block of a durable object is handed out or punched. -/
def NoReuse (s : Node K) : Prop :=
  ∀ p ∈ s.durableMain, ∀ e ∈ p.2.extents,
    ∀ x ∈ Set.Ico e.span.1 e.span.2, ¬ s.Reused x

end Node

/-! ## What protects an extent -/

namespace CommitState

/-- The extent belongs to an object, or was freed in the open transaction. -/
def Shields (c : CommitState K) (e : SPunchItem) : Prop :=
  (∃ p ∈ c.main, e ∈ p.2.extents) ∨
    e.offset ∈ c.fm.currNewFreeExtents ∧ c.fm.Within e.span.1 e.span.2

/-- What every action of the commit thread preserves, if the search for free
space stays away from the offsets `trimming`. -/
structure Preserves (trimming : List ℤ) (c c' : CommitState K) : Prop where
  shields : ∀ e : SPunchItem, 0 < e.len → c.Shields e → c'.Shields e
  within : ∀ t : SPunchItem, 0 < t.len → t.offset ∈ trimming →
    c.fm.Within t.offset (t.offset + t.len) →
    c'.fm.Within t.offset (t.offset + t.len)
  marked : (∀ t ∈ c.fm.trimItems, c.fm.Marked t) →
    ∀ t ∈ c'.fm.trimItems, c'.fm.Marked t
  exact : c.fm.Exact → c'.fm.Exact
  whole : ∀ lo hi, c.fm.Within lo hi → c.fm.Whole lo hi → c'.fm.Whole lo hi
  removed : (∀ t ∈ c.fm.trimItems, c.fm.Marked t) → ∀ p ∈ c.main,
    p ∈ c'.main ∨ ∀ e ∈ p.2.extents, 0 < e.len →
      c'.fm.Within e.span.1 e.span.2 ∧ c'.fm.Whole e.span.1 e.span.2

theorem Preserves.of_freed {exts : List SPunchItem}
    (hfreed : Freemap.Freed c.fm exts c'.fm)
    (hmain : ∀ p ∈ c.main, p ∈ c'.main ∨ ∀ e ∈ p.2.extents, e ∈ exts)
    (trimming : List ℤ) : Preserves trimming c c' := by
  refine ⟨?_, fun t _ _ h => hfreed.within _ _ h, hfreed.marked,
    hfreed.exact, hfreed.whole, ?_⟩
  · rintro e hpos (⟨p, hp, he⟩ | ⟨hnew, hwithin⟩)
    · rcases hmain p hp with hp' | hall
      · exact .inl ⟨p, hp', he⟩
      · exact .inr (hfreed.exts e (hall e he) hpos)
    · exact .inr ⟨hfreed.newFree _ hnew, hfreed.within _ _ hwithin⟩
  · intro hmarked p hp
    rcases hmain p hp with hp' | hall
    · exact .inl hp'
    · right
      intro e he hpos
      exact ⟨(hfreed.exts e (hall e he) hpos).2,
        hfreed.wholeExts hmarked e (hall e he) hpos⟩

theorem Preserves.of_kept {trimming : List ℤ}
    (hkept : Kept (c.fm.currNewFreeExtents ++ trimming) c c') :
    Preserves trimming c c' := by
  refine ⟨?_, ?_, ?_, hkept.keeps.exact, ?_, ?_⟩
  · rintro e hpos (⟨p, hp, he⟩ | ⟨hnew, hwithin⟩)
    · exact .inl ⟨p, hkept.main ▸ hp, he⟩
    · right
      have hround := roundUp_pos hpos
      refine ⟨hkept.keeps.newFree ▸ hnew, ?_⟩
      apply hkept.keeps.within e.offset (mem_append_left _ hnew) _ _
        le_rfl ?_ hwithin
      simp only [SPunchItem.span]
      omega
  · intro t hpos htrim hwithin
    exact hkept.keeps.within t.offset (mem_append_right _ htrim) _ _
      le_rfl (by omega) hwithin
  · intro hmarked t ht
    rw [hkept.keeps.trim] at ht
    exact (hmarked t ht).kept hkept.keeps fun o ho => mem_append_left _ ho
  · intro lo hi _ hwhole t ht
    rw [hkept.keeps.trim] at ht
    exact hwhole t ht
  · intro _ p hp
    exact .inl (hkept.main ▸ hp)

theorem Preserves.of_sameMaps (hmain : c'.main = c.main) (hfm : c'.fm = c.fm)
    (trimming : List ℤ) : Preserves trimming c c' := by
  refine Preserves.of_freed (?_ : Freemap.Freed c.fm [] c'.fm) ?_ trimming
  · rw [hfm]
    exact Freemap.Freed.refl c.fm
  · intro p hp
    exact .inl (hmain ▸ hp)

theorem Shields.owned_pos {c : CommitState K} {e : SPunchItem}
    (h : c.Shields e) {x : ℤ} (hx : x ∈ Set.Ico e.span.1 e.span.2) :
    0 < multMap objectSpans c.main x + c.fm.freeMult x := by
  rcases h with ⟨p, hp, he⟩ | ⟨_, q, hq, hlo, hhi⟩
  · have hind := ind_le_mult (mem_map_of_mem (f := SPunchItem.span) he) x
    have hmult := mult_le_multMap objectSpans hp x
    rw [ind_eq_one.mpr hx] at hind
    simp only [objectSpans] at hmult
    omega
  · have hfree := Freemap.freeMult_pos hq (hlo.trans hx.1) (hx.2.trans_le hhi)
    omega

end CommitState

/-! ## The invariant -/

namespace Node

structure Shielded (cfg : NodeConfig) (s : Node K) : Prop where
  live : cfg.walMeta = true → s.alloc.commit.main = s.mainAfter s.log.entries
  stored : ∀ p ∈ s.durableMain, p.2.Stored
  durable : ∀ p ∈ s.durableMain, ∀ e ∈ p.2.extents, 0 < e.len →
    s.alloc.commit.Shields e
  marked : ∀ t ∈ s.alloc.commit.fm.trimItems, s.alloc.commit.fm.Marked t
  trimmed : ∀ t ∈ s.trimQueue, 0 < t.len ∧
    s.alloc.commit.fm.Within t.offset (t.offset + t.len)
  clear : ∀ t ∈ s.trimQueue, ∀ p ∈ s.durableMain, ∀ e ∈ p.2.extents,
    ∀ x ∈ Set.Ico e.span.1 e.span.2, x ∉ Set.Ico t.offset (t.offset + t.len)

section

variable {cfg : NodeConfig} {s s' : Node K}

theorem Shielded.noReuse (h : Shielded cfg s) (hinv : Inv cfg s) :
    s.NoReuse := by
  intro p hp e he x hx hreused
  have hpos : 0 < e.len := by
    rcases h.stored p hp with hempty | haligned
    · rw [hempty, mem_singleton] at he
      rw [he] at hx
      simp only [SPunchItem.span, roundUp_zero, Set.mem_Ico] at hx
      omega
    · exact (haligned e he).pos
  have howned := (h.durable p hp e he hpos).owned_pos hx
  have honce := hinv.alloc.once x
  simp only [AllocState.used, AllocState.settled, CommitState.owned] at honce
  rcases hreused with ⟨f, hf, hxf⟩ | hxf | hxf | ⟨q, hq, hxf⟩ | ⟨t, ht, hxf⟩
  · have hheld := ind_le_mult (mem_map_of_mem (f := SPunchItem.span) hf) x
    rw [ind_eq_one.mpr hxf] at hheld
    omega
  · rw [ind_eq_one.mpr hxf] at honce
    omega
  · rw [ind_eq_one.mpr hxf] at honce
    omega
  · have hhole := mult_le_multMap freeSpan hq x
    have hind : ind (q.1, q.1 + q.2) x = 1 := ind_eq_one.mpr hxf
    simp only [freeSpan, mult_cons, mult_nil, hind] at hhole
    omega
  · exact h.clear t ht p hp e he x hx hxf

theorem shielded_init : Shielded cfg (init cfg : Node K) := by
  have hnone : ∀ p : K × IndexValue, p ∉ (init cfg : Node K).durableMain :=
    not_mem_empty
  refine ⟨fun _ => rfl, ?_, ?_, by simp [init, AllocState.init],
    by simp [init], by simp [init]⟩
  · intro p hp
    exact absurd hp (hnone p)
  · intro p hp
    exact absurd hp (hnone p)

/-! ## Running -/

variable {e : AllocEvent K} {c : NodeCrash K}

theorem canRun_points (hrun : s.canRun e = true) :
    ∀ env, e = .findFree env → ∀ o ∈ s.trimming, o ∈ env.skip.points := by
  rintro env rfl o ho
  have hskip : env.skip.trimmingFreeSkipExtents = s.trimming := by
    simpa [canRun] using hrun
  exact mem_append_left _ (hskip ▸ ho)

theorem preserves_of_step (h : AllocState.Inv cfg.alloc s.alloc)
    (hrun : s.canRun e = true) {points : List ℤ}
    (hpoints : ∀ env, e = .findFree env → ∀ o ∈ points, o ∈ env.skip.points)
    {alloc : AllocState K} (hstep : s.alloc.step cfg.alloc e = some alloc) :
    CommitState.Preserves points s.alloc.commit alloc.commit := by
  cases step_steps hstep with
  | writePrepare | askFindFree | failPrepare | finishPrepare
  | removeExtentEnd => exact .of_sameMaps rfl rfl _
  | prepareExt | takeFindFree =>
    apply CommitState.Preserves.of_sameMaps
    · rfl
    · rfl
  | add hexts hc =>
    obtain ⟨_, hfreed, hmain⟩ := (consumed_add h hexts hc).freed
    exact .of_freed hfreed hmain _
  | @del fn c hc =>
    obtain ⟨c', hc', _, hrem, _⟩ := del_spec h.wellFormed h.owned_le_one fn
    rw [hc] at hc'
    cases hc'
    have hmain : c.main = s.alloc.commit.main.erase fn := hrem.main
    apply CommitState.Preserves.of_freed hrem.freed
    intro p hp
    by_cases hkey : p.1 = fn
    · right
      rw [← hkey, mem_extentsAt hp]
      exact fun e he => he
    · left
      have hp' : p ∈ c.main := by
        rw [hmain]
        exact mem_erase.mpr ⟨hp, hkey⟩
      exact hp'
  | freeExtents hexts hc =>
    obtain ⟨_, hfreed, hmain⟩ := (consumed_freeExtents h hexts hc).freed
    exact .of_freed hfreed hmain _
  | @findFree env _ _ _ hp hwait hr =>
    obtain ⟨_, hc, hoff, hend, _⟩ := chunked_of_asked h hp hwait
    have hkept := findFree_kept h.wellFormed
      (hoff.trans hend.symm) hc.startLe hr
    apply CommitState.Preserves.of_kept
    apply hkept.mono
    intro o ho
    rcases mem_append.mp ho with ho | ho
    · exact mem_append_left _ ho
    · exact mem_append_right _ (hpoints env rfl o ho)
  | commit => cases hrun

theorem mainAfter_append_items {log : List (LogEntry K)}
    (hlog : LogEntry.torn ∉ log) (items : List (LogItem K))
    (hprev : s.prevTransid = s.disk.size.currTransid) :
    s.mainAfter (log ++ items.map (.item s.prevTransid)) =
      items.foldl LogItem.applyMain (s.mainAfter log) := by
  have hlog' : LogEntry.torn ∉ log ++ items.map (.item s.prevTransid) := by
    simp [hlog]
  rw [mainAfter, readable_of_intact hlog', hprev, replayed_append,
    replayed_items, foldl_append, mainAfter, readable_of_intact hlog]

theorem shielded_run (hinv : Inv cfg s) (h : Shielded cfg s)
    (hstep : s.step cfg (.run e) = some s') : Shielded cfg s' := by
  obtain ⟨hrun, alloc, halloc, rfl⟩ := step_run hstep
  have hpres := preserves_of_step hinv.alloc hrun (canRun_points hrun) halloc
  have hdurable : ({ s with
      alloc := alloc
      log :=
        if cfg.walMeta then
          s.log.append ((s.logged cfg e).map (.item s.prevTransid))
        else s.log } : Node K).durableMain = s.durableMain := by
    have hlog : (if cfg.walMeta then
        s.log.append ((s.logged cfg e).map (.item s.prevTransid))
        else s.log).durable = s.log.durable := by
      split
      · exact SyncedLog.durable_append _ _
      · rfl
    simp only [durableMain, mainAfter, hlog]
  refine ⟨?_, ?_, ?_, ?_, ?_, ?_⟩
  · intro hmeta
    obtain ⟨c, hc, hsame⟩ := logged_replays hinv.alloc hrun halloc
    have hmain : alloc.commit.main =
        (s.logged cfg e).foldl LogItem.applyMain s.alloc.commit.main :=
      hsame.main.symm.trans (replayItems_main hc)
    rw [h.live hmeta, ← mainAfter_append_items hinv.intact _ hinv.prev] at hmain
    simp only [hmeta, if_true]
    exact hmain
  · rw [hdurable]
    exact h.stored
  · rw [hdurable]
    intro p hp e' he' hpos
    exact hpres.shields e' hpos (h.durable p hp e' he' hpos)
  · exact hpres.marked h.marked
  · intro t ht
    obtain ⟨hpos, hwithin⟩ := h.trimmed t ht
    exact ⟨hpos, hpres.within t hpos (mem_map_of_mem ht) hwithin⟩
  · rw [hdurable]
    exact h.clear

/-! ## Commits -/

theorem mem_runTrimQueue {trimItems : List SPunchItem} {t : SPunchItem}
    (h : t ∈ runTrimQueue cfg trimItems) : t ∈ trimItems := by
  unfold runTrimQueue at h
  split at h
  · cases h
  · exact (mem_filter.mp h).1

theorem shielded_committed (hinv : Inv cfg s)
    (hlive : cfg.walMeta = true →
      s.alloc.commit.main = s.mainAfter s.log.entries)
    (hdurable : s.durableMain = s.alloc.commit.main)
    (htrimItems : s.alloc.commit.fm.trimItems = [])
    (htrim : ∀ t ∈ s.trimQueue, 0 < t.len ∧
      s.alloc.commit.fm.Within t.offset (t.offset + t.len)) :
    Shielded cfg s := by
  refine ⟨hlive, ?_, ?_, by simp [htrimItems], htrim, ?_⟩
  · rw [hdurable]
    exact hinv.alloc.wellFormed.main
  · rw [hdurable]
    intro p hp e he _
    exact .inl ⟨p, hp, he⟩
  · rw [hdurable]
    intro t ht p hp e he x hx hxt
    obtain ⟨_, q, hq, hlo, hhi⟩ := htrim t ht
    have hfree := Freemap.freeMult_pos hq (hlo.trans hxt.1) (hxt.2.trans_le hhi)
    have hind := ind_le_mult (mem_map_of_mem (f := SPunchItem.span) he) x
    have hmult := mult_le_multMap objectSpans hp x
    have hone := hinv.alloc.owned_le_one x
    rw [ind_eq_one.mpr hx] at hind
    simp only [CommitState.owned, objectSpans] at hone hmult
    omega

theorem mem_trimItems_of_walCommit (hinv : Inv cfg s) {t : SPunchItem}
    (ht : t ∈ runTrimQueue cfg s.alloc.commit.useReserved.fm.trimItems) :
    t ∈ s.alloc.commit.fm.trimItems := by
  have hmem := mem_runTrimQueue ht
  have hdvd : ∀ e ∈ s.alloc.commit.localReserved, blockSize ∣ e.offset := by
    intro e he
    exact (hinv.alloc.held e (hinv.front.localReserved_subperm.subset he)).dvd
  obtain ⟨_, _, hfm, _⟩ := foldl_useExt hdvd s.alloc.commit
  rw [CommitState.useReserved, hfm] at hmem
  exact hmem

theorem shielded_walCommit (hinv : Inv cfg s) (hinv' : Inv cfg s')
    (h : Shielded cfg s) (hstep : s.step cfg .walCommit = some s') :
    Shielded cfg s' := by
  obtain ⟨hmeta, halloc, hdisk, _, hentries, hsynced, htrim⟩ :=
    step_walCommit hstep
  have hsame := sameMaps_committed s.alloc.commit
  have hfm : ∀ lo hi, s.alloc.commit.fm.Within lo hi →
      s'.alloc.commit.fm.Within lo hi := by
    intro lo hi hwithin
    rw [halloc]
    simpa only [Freemap.Within, hsame.fm.free] using hwithin
  have hlive : s'.alloc.commit.main = s'.mainAfter s'.log.entries := by
    have hread : readable s'.log.entries = s'.log.entries :=
      readable_of_intact hinv'.intact
    have hold := h.live hmeta
    rw [mainAfter, readable_of_intact hinv.intact] at hold
    rw [mainAfter, hread, hentries, hdisk, replayed_append, replayed_sync,
      append_nil, ← hold, halloc]
    exact hsame.main
  apply shielded_committed hinv' (fun _ => hlive)
  · rw [durableMain, hsynced, hlive]
  · rw [halloc]
    rfl
  · intro t ht
    rw [htrim] at ht
    rcases mem_append.mp ht with ht | ht
    · obtain ⟨hpos, hwithin⟩ := h.trimmed t ht
      exact ⟨hpos, hfm _ _ hwithin⟩
    · have hmarked := h.marked t (mem_trimItems_of_walCommit hinv ht)
      exact ⟨hmarked.pos, hfm _ _ hmarked.within⟩

theorem shielded_lmdbCommit (hinv : AllocState.Inv cfg.alloc s.alloc)
    (hinv' : Inv cfg s') {fromStartupWal : Bool} {rounds : List SkipExtents}
    (htrimmed : ∀ t ∈ s.trimQueue, 0 < t.len ∧
      s.alloc.commit.fm.Within t.offset (t.offset + t.len))
    (hmarked : fromStartupWal = false →
      ∀ t ∈ s.alloc.commit.fm.trimItems, s.alloc.commit.fm.Marked t)
    (hstep : s.lmdbCommit cfg fromStartupWal rounds = some s') :
    Shielded cfg s' := by
  obtain ⟨hskip, c, hc, rfl⟩ := lmdbCommit_eq hstep
  have hkept := doFreeMinspace_kept hinv.wellFormed
    hinv.owned_le_one (trimming_points hskip) hc
  have hpres := CommitState.Preserves.of_kept hkept
  have hsame := sameMaps_committed c
  have hmain : c.useReserved.committed.main = c.main := hsame.main
  have hfm : ∀ lo hi, c.fm.Within lo hi →
      c.useReserved.committed.fm.Within lo hi := by
    intro lo hi hwithin
    simpa only [Freemap.Within, hsame.fm.free] using hwithin
  apply shielded_committed hinv' (fun _ => hmain) hmain.symm rfl
  intro t ht
  have hold : ∀ t ∈ s.trimQueue, 0 < t.len ∧
      c.useReserved.committed.fm.Within t.offset (t.offset + t.len) := by
    intro t ht
    obtain ⟨hpos, hwithin⟩ := htrimmed t ht
    exact ⟨hpos, hfm _ _ (hpres.within t hpos (mem_map_of_mem ht) hwithin)⟩
  cases fromStartupWal with
  | true => exact hold t ht
  | false =>
    rcases mem_append.mp ht with ht | ht
    · exact hold t ht
    · have hmark := hpres.marked (hmarked rfl) t (mem_runTrimQueue ht)
      exact ⟨hmark.pos, hfm _ _ hmark.within⟩

/-! ## Crashes -/

theorem replay_main {commit : CommitState K}
    (h : s.replay cfg c = some commit) :
    commit.main = (s.startupItems c).foldl LogItem.applyMain
      (s.diskAfter c).main := by
  simp only [replay, bind_eq_bind, bind_eq_some_iff] at h
  obtain ⟨c₁, hc₁, c₂, hc₂, hcommit⟩ := h
  obtain ⟨fm, _, rfl⟩ := map_eq_some_iff.mp hc₁
  rw [replayItems_main hcommit, (doFreeMinspace_frame hc₂).1]
  rfl

theorem replay_trimItems {commit : CommitState K}
    (hitems : s.startupItems c = []) (h : s.replay cfg c = some commit) :
    commit.fm.trimItems = [] := by
  simp only [replay, bind_eq_bind, bind_eq_some_iff, hitems] at h
  obtain ⟨c₁, hc₁, c₂, hc₂, hcommit⟩ := h
  cases hcommit
  obtain ⟨fm, _, rfl⟩ := map_eq_some_iff.mp hc₁
  exact (doFreeMinspace_frame hc₂).2.2

theorem shielded_crash (hpos : 0 < cfg.alloc.allocChunkSize) (hinv : Inv cfg s)
    (hsafe : s.CrashSafe cfg c)
    (hstep : s.restart cfg c = some s') : Shielded cfg s' := by
  have hinv' := inv_crash hpos hinv hsafe hstep
  obtain ⟨hdisk, _⟩ := hsafe.reads hinv
  obtain ⟨commit, hreplay, hcases⟩ := restart_eq hstep
  obtain ⟨hstart, hadv⟩ := replay_startable hsafe hinv hreplay
  have hmain := replay_main hreplay
  rcases hcases with ⟨hitems, rfl⟩ | ⟨_, hcommit⟩
  · rw [hitems, hdisk] at hmain
    have hmain' : (s.started cfg c commit).alloc.commit.main = s.disk.main :=
      hmain
    have hafter : ∀ log, log <+: s.logAfter c →
        (s.started cfg c commit).mainAfter log = s.disk.main := by
      intro log hlog
      have hintact : LogEntry.torn ∉ log := fun hmem =>
        hinv.intact (hsafe.logAfter.2.subset (hlog.subset hmem))
      have hnone : replayed s.disk.size.currTransid log = [] := by
        have hbegins : replayed s.disk.size.currTransid log <+:
            replayed s.disk.size.currTransid (s.logAfter c) :=
          hlog.filterMap _
        have hread := hitems
        rw [startupItems, hsafe.readable hinv, ← hsafe.logAfter.1] at hread
        rw [hread] at hbegins
        exact prefix_nil.mp hbegins
      simp only [mainAfter, started, hdisk, readable_of_intact hintact, hnone,
        foldl_nil]
    have hlog : (s.started cfg c commit).log.durable <+: s.logAfter c :=
      List.take_prefix _ _
    apply shielded_committed hinv'
    · intro _
      rw [hmain']
      exact (hafter _ prefix_rfl).symm
    · rw [durableMain, hafter _ hlog, hmain']
    · exact replay_trimItems hitems hreplay
    · simp [started]
  · apply shielded_lmdbCommit (inv_start hpos hstart hadv).1 hinv' ?_ ?_ hcommit
    · simp [started]
    · intro hfalse
      cases hfalse

/-! ## Whole runs -/

theorem shielded_step (hpos : 0 < cfg.alloc.allocChunkSize)
    (hchunk : blockSize ∣ cfg.alloc.allocChunkSize) (hinv : Inv cfg s)
    (h : Shielded cfg s) {e : NodeEvent K} (hok : Orderly cfg s e)
    (hstep : s.step cfg e = some s') : Shielded cfg s' := by
  have hinv' := inv_step hpos hchunk hinv hok hstep
  cases e with
  | run e => exact shielded_run hinv h hstep
  | walCommit => exact shielded_walCommit hinv hinv' h hstep
  | lmdbCommit rounds =>
    exact shielded_lmdbCommit hinv.alloc hinv' h.trimmed
      (fun _ => h.marked) hstep
  | resetWal =>
    cases hstep
    exact ⟨h.live, h.stored, h.durable, h.marked, h.trimmed, h.clear⟩
  | trimmed item =>
    rw [step_trimmed hstep]
    exact ⟨h.live, h.stored, h.durable, h.marked,
      fun t ht => h.trimmed t (mem_of_mem_erase ht),
      fun t ht => h.clear t (mem_of_mem_erase ht)⟩
  | crash c =>
    exact shielded_crash hpos hinv hok (step_crash hstep).2

/-- In every state of every orderly run no block of a durable object is handed
out or punched. -/
theorem noReuse_of_run (hpos : 0 < cfg.alloc.allocChunkSize)
    (hchunk : blockSize ∣ cfg.alloc.allocChunkSize)
    (hrun : Run (step cfg) (Orderly cfg) (init cfg) s) : s.NoReuse := by
  have hboth : Inv cfg s ∧ Shielded cfg s := by
    apply hrun.invariant ⟨inv_init hpos hchunk, shielded_init⟩
    rintro s e s' ⟨hinv, h⟩ hok hstep
    exact ⟨inv_step hpos hchunk hinv hok hstep,
      shielded_step hpos hchunk hinv h hok hstep⟩
  exact hboth.2.noReuse hboth.1

end

/-- An object is uploaded, made durable and deleted; the next upload starts
before another commit. -/
def deleteAfterSync : List (NodeEvent ℕ) :=
  uploadOne ++ [.walCommit, .run (.del 1), .run (.writePrepare 1),
    .run .prepareExt]

theorem noReuse_of_run_delete :
    ∃ s, exec (guarded (step loggedNode) (Orderly loggedNode))
        (init loggedNode) deleteAfterSync = some s ∧ s.NoReuse := by
  obtain ⟨s, hs⟩ := isSome_iff_exists.mp (show (exec (guarded
    (step loggedNode) (Orderly loggedNode)) (init loggedNode)
      deleteAfterSync).isSome = true by decide)
  exact ⟨s, hs, noReuse_of_run (by decide) (by decide) (run_of_exec_guarded hs)⟩

/-- After the replay of an `Add` item behind the last `Sync` record the block
of the recovered object is handed out to the next upload. -/
theorem not_noReuse_unsynced_add :
    ∃ s, exec (step loggedNode) (init loggedNode)
        (uploadOne ++ [.crash (keeping 1), .run (.writePrepare 1),
          .run .prepareExt]) = some s ∧ ¬ s.NoReuse := by
  refine ⟨_, rfl, ?_⟩
  intro h
  apply h (1, ⟨0, 1, [], 0, []⟩) (by decide) ⟨0, 1⟩ (by decide) 0 (by decide)
  exact .inl ⟨⟨0, 1⟩, by decide, by decide⟩

end Node

end Hs5
