import Hs5.Storage.ReaderSteps

/-!
# Trimming only touches free space

Every range that the trim thread has been given lies in the free map until
`punchHole` has returned.  The ranges come from commits, which hand over
extents that were freed and not taken again; from then on the search for free
space skips them by their first byte, which stays in one free extent with the
rest of the range.
-/

namespace Hs5

open Option List Cover Transition

namespace ReadNode

variable {K P : Type} [LinearOrder K]

/-- A byte of free space: it belongs to no object, to no extent handed out to
an upload and to no write extent. -/
structure Unused (s : ReadNode K) (x : ℤ) : Prop where
  free : ∃ q ∈ s.node.alloc.commit.fm.free, x ∈ Set.Ico q.1 (q.1 + q.2)
  object : ∀ p ∈ s.main, ∀ e ∈ p.2.extents, x ∉ Set.Ico e.span.1 e.span.2
  held : ∀ e ∈ s.node.alloc.held, x ∉ Set.Ico e.span.1 e.span.2
  writeExt :
    x ∉ Set.Ico s.node.alloc.dataFileOffset s.node.alloc.dataFileOffsetEnd
  pending : x ∉ Set.Ico s.node.alloc.pendingExt.1 s.node.alloc.pendingExt.2

/-- No end of an extent is given up, and crashes are harmless. -/
def Orderly (cfg : ReadConfig K P) (s : ReadNode K) : ReadEvent K → Prop
  | .run e => s.node.alloc.KeepsExtents e
  | .crash c _ => s.node.CrashSafe cfg.node c
  | _ => True

instance (cfg : ReadConfig K P) (s : ReadNode K) (e : ReadEvent K) :
    Decidable (Orderly cfg s e) := by
  rcases e with ⟨⟩ <;> dsimp only [Orderly] <;> infer_instance

def trimming (s : ReadNode K) : List SPunchItem :=
  s.trimQueue ++ s.readingTrimExtents ++ s.punching.toList

/-- What holds in every state of an orderly run. -/
structure TrimInv (cfg : ReadConfig K P) (s : ReadNode K) : Prop where
  node : s.node.Inv cfg.node
  shielded : s.node.Shielded cfg.node
  trims : s.node.trimQueue.Perm s.trimming

section

variable {cfg : ReadConfig K P} {s s' : ReadNode K}

/-! ## Preservation -/

theorem TrimStep.trimming {e : ReadEvent K} (h : TrimStep s e s') :
    s'.node = s.node ∧ s.trimming.Perm s'.trimming ∨
      ∃ item, s.trimming.Perm (item :: s'.trimming) ∧
        s'.node = { s.node with trimQueue := s.node.trimQueue.erase item } := by
  cases h with
  | retry =>
    left
    simp [ReadNode.trimming]
  | putAside hqueue =>
    left
    refine ⟨rfl, ?_⟩
    simp only [ReadNode.trimming, hqueue, cons_append,
      append_assoc, nil_append]
    rw [← append_assoc]
    exact perm_middle.symm.trans (by simp)
  | @start item rest hpunching hqueue hskip =>
    left
    refine ⟨rfl, ?_⟩
    simp only [ReadNode.trimming, hqueue, hpunching, toList_none,
      append_nil, toList_some, cons_append]
    exact (perm_append_singleton _ _).symm
  | @drop item rest hqueue =>
    right
    exact ⟨item, by simp [ReadNode.trimming, hqueue], rfl⟩
  | @finish item ok hpunching =>
    right
    refine ⟨item, ?_, rfl⟩
    simp only [ReadNode.trimming, hpunching, toList_some,
      toList_none, append_nil]
    exact perm_append_singleton _ _

theorem trims_pushTrim {node : Node K} {new : List SPunchItem}
    (hnode : node.trimQueue = s.node.trimQueue ++ new)
    (htrims : s.node.trimQueue.Perm s.trimming) :
    node.trimQueue.Perm (s.pushTrim node).trimming := by
  have hdrop : node.trimQueue.drop s.node.trimQueue.length = new := by
    rw [hnode, drop_left]
  rw [hnode, ReadNode.trimming, pushTrim, hdrop]
  have hmove : (s.trimQueue ++ new ++ s.readingTrimExtents ++
      s.punching.toList).Perm (s.trimming ++ new) := by
    simp only [ReadNode.trimming, append_assoc]
    apply List.Perm.append_left
    rw [← append_assoc s.readingTrimExtents]
    exact perm_append_comm
  exact (htrims.append_right new).trans hmove.symm

theorem trimQueue_restart {n n' : Node K} {ncfg : NodeConfig}
    {c : NodeCrash K} (h : n.step ncfg (.crash c) = some n') :
    n'.trimQueue = [] := by
  obtain ⟨commit, -, ⟨-, rfl⟩ | ⟨-, hcommit⟩⟩ :=
    Node.restart_eq (Node.step_crash h).2
  · rfl
  · obtain ⟨-, _, -, rfl⟩ := Node.lmdbCommit_eq hcommit
    rfl

theorem TrimInv.node_step (h : TrimInv cfg s)
    (hpos : 0 < cfg.node.alloc.allocChunkSize)
    (hchunk : blockSize ∣ cfg.node.alloc.allocChunkSize) {e : NodeEvent K}
    (hok : s.node.Orderly cfg.node e)
    (hnode : s.node.step cfg.node e = some s'.node)
    (htrims : s'.node.trimQueue.Perm s'.trimming) : TrimInv cfg s' where
  node := Node.inv_step hpos hchunk h.node hok hnode
  shielded := Node.shielded_step hpos hchunk h.node h.shielded hok hnode
  trims := htrims

theorem TrimInv.step [DecidableEq P] (hpos : 0 < cfg.node.alloc.allocChunkSize)
    (hchunk : blockSize ∣ cfg.node.alloc.allocChunkSize)
    (h : TrimInv cfg s) {e : ReadEvent K} (hok : Orderly cfg s e)
    (hsteps : Steps cfg s e s') : TrimInv cfg s' := by
  cases hsteps with
  | enqueue | cleanCommitItems | writeExt | queueWrite | dataWrite | punch =>
    exact ⟨h.node, h.shielded, h.trims⟩
  | reader hreader =>
    obtain ⟨items, skip, readers, next, rfl⟩ := hreader.frame
    exact ⟨h.node, h.shielded, h.trims⟩
  | @run e node hcan hnode hkey =>
    obtain ⟨-, alloc, -, rfl⟩ := Node.step_run hnode
    exact h.node_step hpos hchunk (e := .run e) hok hnode h.trims
  | @item e node fn n hcan hnode hkey hcount =>
    obtain ⟨items, skip, heq⟩ := skipReadingFn_eq
      { s with commitItems := s.commitItems.insert (cfg.hash fn) n } fn
    refine h.node_step hpos hchunk (e := .run e) hok hnode ?_
    obtain ⟨-, alloc, -, rfl⟩ := Node.step_run hnode
    rw [heq]
    exact h.trims
  | walCommit hidle hnode =>
    refine h.node_step hpos hchunk (e := .walCommit) trivial hnode ?_
    obtain ⟨-, -, -, -, -, -, htrim⟩ := Node.step_walCommit hnode
    exact trims_pushTrim htrim h.trims
  | @lmdbCommit rounds node hidle hskip hnode =>
    refine h.node_step hpos hchunk (e := .lmdbCommit rounds) trivial hnode ?_
    obtain ⟨-, c, -, rfl⟩ := Node.lmdbCommit_eq hnode
    exact trims_pushTrim (by rfl) h.trims
  | resetWal =>
    exact h.node_step hpos hchunk (e := .resetWal) trivial rfl h.trims
  | @crash c node data hnode =>
    refine h.node_step hpos hchunk (e := .crash c) hok hnode ?_
    simp [started, ReadNode.trimming, trimQueue_restart hnode]
  | trim htrim =>
    obtain ⟨hnode, hperm⟩ | ⟨item, hperm, hnode⟩ := htrim.trimming
    · exact ⟨hnode ▸ h.node, hnode ▸ h.shielded, hnode ▸ h.trims.trans hperm⟩
    · have hmem : item ∈ s.node.trimQueue :=
        h.trims.mem_iff.mpr (hperm.mem_iff.mpr mem_cons_self)
      refine h.node_step hpos hchunk (e := .trimmed item) trivial ?_ ?_
      · simp [Node.step, hmem, hnode]
      · have herase := (h.trims.trans hperm).erase item
        rw [erase_cons_head] at herase
        rw [hnode]
        exact herase

/-! ## Every run -/

theorem trimInv_init (hpos : 0 < cfg.node.alloc.allocChunkSize)
    (hchunk : blockSize ∣ cfg.node.alloc.allocChunkSize) :
    TrimInv cfg (init cfg : ReadNode K) where
  node := Node.inv_init hpos hchunk
  shielded := Node.shielded_init
  trims := by simp [init, started, Node.init, ReadNode.trimming]

theorem unused_of_free (h : s.node.Inv cfg.node) {x : ℤ}
    {q : ℤ × ℤ} (hq : q ∈ s.node.alloc.commit.fm.free)
    (hx : x ∈ Set.Ico q.1 (q.1 + q.2)) : s.Unused x := by
  have hfree := Freemap.freeMult_pos hq hx.1 hx.2
  have honce := h.alloc.once x
  simp only [AllocState.used, AllocState.settled, CommitState.owned] at honce
  refine ⟨⟨q, hq, hx⟩, ?_, ?_, ?_, ?_⟩
  · intro p hp e he hxe
    have hind := ind_le_mult (mem_map_of_mem (f := SPunchItem.span) he) x
    have hmult := mult_le_multMap objectSpans hp x
    rw [ind_eq_one.mpr hxe] at hind
    simp only [objectSpans, ReadNode.main] at hmult
    omega
  · intro e he hxe
    have hheld := ind_le_mult (mem_map_of_mem (f := SPunchItem.span) he) x
    rw [ind_eq_one.mpr hxe] at hheld
    omega
  · intro hxe
    rw [ind_eq_one.mpr hxe] at honce
    omega
  · intro hxe
    rw [ind_eq_one.mpr hxe] at honce
    omega

/-- Trim safety: in every state of every orderly run, all bytes of the range
that the trim thread is punching are free. -/
theorem unused_of_punching [DecidableEq P] (cfg : ReadConfig K P)
    (hpos : 0 < cfg.node.alloc.allocChunkSize)
    (hchunk : blockSize ∣ cfg.node.alloc.allocChunkSize) {s : ReadNode K}
    (hrun : Run (step cfg) (Orderly cfg) (init cfg) s) {item : SPunchItem}
    (hitem : s.punching = some item) :
    ∀ x ∈ Set.Ico item.offset (item.offset + item.len), s.Unused x := by
  have hinv : TrimInv cfg s := by
    apply hrun.invariant (trimInv_init hpos hchunk)
    intro s e s' h hok hstep
    exact h.step hpos hchunk hok (step_steps hstep)
  intro x hx
  have hmem : item ∈ s.node.trimQueue :=
    hinv.trims.mem_iff.mpr (by simp [ReadNode.trimming, hitem])
  obtain ⟨-, q, hq, hlo, hhi⟩ := hinv.shielded.trimmed item hmem
  exact unused_of_free hinv.node hq ⟨hlo.trans hx.1, hx.2.trans_le hhi⟩

end

/-- Keys with a single version, without a log. -/
def plainReads (allocChunkSize : ℤ) : ReadConfig ℕ ℕ :=
  ⟨⟨⟨allocChunkSize, 0, 0⟩, false, 0⟩, id, id⟩

/-- Two uploads, of which the second needs a new write extent; the first is
deleted and its space is being trimmed. -/
def trimFirst (firstSize secondOffset : ℤ) : List (ReadEvent ℕ) :=
  ((AllocState.twoUploads firstSize secondOffset).take 8).map .run ++
    [.enqueue 1, .run (.add 1 [⟨0, firstSize⟩] 0 []),
      .enqueue 2, .run (.add 2 [⟨secondOffset, 1⟩] 0 []),
      .enqueue 1, .run (.del 1), .lmdbCommit [], .cleanCommitItems, .trim]

theorem unused_of_punching_trimFirst :
    ∃ s, exec (guarded (step (plainReads 8192)) (Orderly (plainReads 8192)))
        (init (plainReads 8192)) (trimFirst 5120 8192) = some s ∧
      s.punching = some ⟨0, 8192⟩ ∧
      ∀ x ∈ Set.Ico (0 : ℤ) (0 + 8192), s.Unused x := by
  obtain ⟨s, hs, hpunching⟩ : ∃ s ∈ exec (guarded (step (plainReads 8192))
      (Orderly (plainReads 8192))) (init (plainReads 8192))
        (trimFirst 5120 8192), s.punching = some ⟨0, 8192⟩ := by decide
  exact ⟨s, hs, hpunching, unused_of_punching (plainReads 8192) (by decide)
    (by decide) (run_of_exec_guarded hs) hpunching⟩

/-- With a chunk size that is not a multiple of the block size the range being
punched contains the extent of the second object. -/
theorem not_unused_unaligned_chunk :
    ∃ s, exec (step (plainReads 5120)) (init (plainReads 5120))
        (trimFirst 5120 5120) = some s ∧
      s.punching = some ⟨0, 8192⟩ ∧ ¬ s.Unused 5120 := by
  obtain ⟨s, hs, hpunching, hobject⟩ : ∃ s ∈ exec (step (plainReads 5120))
      (init (plainReads 5120)) (trimFirst 5120 5120),
      s.punching = some ⟨0, 8192⟩ ∧
        s.main.lookup 2 = some ⟨5120, 1, [], 0, []⟩ := by decide
  refine ⟨s, hs, hpunching, ?_⟩
  intro hunused
  exact hunused.object _ (OrderedMap.lookup_eq_some.mp hobject) ⟨5120, 1⟩
    (by decide) (by decide)

end ReadNode

end Hs5
