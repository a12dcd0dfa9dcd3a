import Hs5.Storage.NodeRun

/-!
# The allocator after recovery

After the replay and its final commit the objects, the free map and the
restored write extent are disjoint, and the truncation of the data file to the
restored size cuts no object.
-/

namespace Hs5

open Cover Transition

variable {K : Type} [LinearOrder K]

theorem Startable.object_le {c : CommitState K} {size : SizeInfo}
    {tmp : List SPunchItem} (h : Startable c size tmp)
    {p : K × IndexValue} (hp : p ∈ c.main) {e : SPunchItem}
    (he : e ∈ p.2.extents) : e.span.2 ≤ size.dataFileMaxSize := by
  rcases h.wellFormed.main p hp with hempty | haligned
  · rw [hempty, List.mem_singleton] at he
    rw [he]
    exact h.maxNonneg
  · by_contra hgt
    have hround := roundUp_pos (haligned e he).pos
    have hbelow := h.below (e.span.2 - 1) (by omega)
    have hmult := mult_le_multMap objectSpans hp (e.span.2 - 1)
    have hind := ind_le_mult (List.mem_map_of_mem (f := SPunchItem.span) he)
      (e.span.2 - 1)
    have hin : e.span.1 ≤ e.span.2 - 1 := by
      simp only [SPunchItem.span]
      omega
    rw [ind_eq_one.mpr ⟨hin, by omega⟩] at hind
    simp only [CommitState.owned, objectSpans] at hbelow hmult
    omega

namespace Node

/-- The state of the allocator after a restart: its owners are disjoint, and
all objects end before the size that the data file is truncated to. -/
def Recovered (cfg : NodeConfig) (s : Node K) (c : NodeCrash K)
    (s' : Node K) : Prop :=
  s'.alloc.Partition ∧ ∀ p ∈ s'.alloc.commit.main, ∀ e ∈ p.2.extents,
    e.span.2 ≤ (s.sizeAfter cfg c).dataFileMaxSize

section

variable {cfg : NodeConfig} {s s' : Node K} {c : NodeCrash K}

theorem restart_main {commit : CommitState K}
    (hreplay : s.replay cfg c = some commit)
    (hstep : s.restart cfg c = some s') :
    s'.alloc.commit.main = commit.main := by
  obtain ⟨commit', hreplay', hcases⟩ := restart_eq hstep
  rw [hreplay] at hreplay'
  cases hreplay'
  rcases hcases with ⟨_, rfl⟩ | ⟨_, hcommit⟩
  · rfl
  · obtain ⟨_, c₁, hc₁, rfl⟩ := lmdbCommit_eq hcommit
    exact (CommitState.sameMaps_committed c₁).main.trans
      (CommitState.doFreeMinspace_frame hc₁).1

/-- After every harmless crash of every orderly run the recovered allocator is
consistent. -/
theorem recovered_of_run (hpos : 0 < cfg.alloc.allocChunkSize)
    (hchunk : blockSize ∣ cfg.alloc.allocChunkSize)
    (hrun : Run (step cfg) (Orderly cfg) (init cfg) s)
    (hsafe : s.CrashSafe cfg c) (hstep : s.step cfg (.crash c) = some s') :
    Recovered cfg s c s' := by
  have h := inv_of_run hpos hchunk hrun
  obtain ⟨_, hrestart⟩ := step_crash hstep
  have h' := inv_crash hpos h hsafe hrestart
  obtain ⟨commit, hreplay, _⟩ := restart_eq hrestart
  obtain ⟨hstart, _⟩ := replay_startable hsafe h hreplay
  constructor
  · exact h'.alloc.partition
  · intro p hp e he
    rw [restart_main hreplay hrestart] at hp
    exact hstart.object_le hp he

end

/-- A log with metadata, and chunks of two blocks. -/
def loggedNode : NodeConfig := ⟨⟨8192, 0, 0⟩, true, 0⟩

/-- Upload of an object of one byte into the first block. -/
def uploadOne : List (NodeEvent ℕ) :=
  [.run (.writePrepare 1), .run .prepareExt, .run .finishPrepare,
    .run (.add 1 [⟨0, 1⟩] 0 [])]

/-- A crash that leaves the first `n` records. -/
def keeping (n : ℕ) : NodeCrash ℕ := ⟨[], n, false, [], []⟩

theorem recovered_of_run_synced :
    ∃ s s', exec (guarded (step loggedNode) (Orderly loggedNode))
        (init loggedNode) (uploadOne ++ [.walCommit]) = some s ∧
      s.step loggedNode (.crash (keeping 2)) = some s' ∧
      Recovered loggedNode s (keeping 2) s' := by
  obtain ⟨s, hs, hsafe, s', hstep, -⟩ : ∃ s ∈ exec (guarded (step loggedNode)
      (Orderly loggedNode)) (init loggedNode) (uploadOne ++ [.walCommit]),
      s.CrashSafe loggedNode (keeping 2) ∧
        ∃ s' ∈ s.step loggedNode (.crash (keeping 2)), True := by decide
  exact ⟨s, s', hs, hstep, recovered_of_run (by decide) (by decide)
    (run_of_exec_guarded hs) hsafe hstep⟩

/-- The `Add` item of an upload survives a crash, but no `Sync` record after it.
-/
theorem not_recovered_unsynced_add :
    ∃ s s', exec (step loggedNode) (init loggedNode) uploadOne = some s ∧
      s.step loggedNode (.crash (keeping 1)) = some s' ∧
      ¬ s'.alloc.Partition ∧
      (∃ p ∈ s'.alloc.commit.main, ∃ e ∈ p.2.extents,
        (s.sizeAfter loggedNode (keeping 1)).dataFileMaxSize < e.span.2) ∧
      ¬ Recovered loggedNode s (keeping 1) s' := by
  have hpart : ∀ s' : Node ℕ, mult s'.alloc.owners 0 = 2 →
      ¬ s'.alloc.Partition := by
    intro s' htwo h
    have hone := pairwiseDisjoint_iff.mp h.1 0
    omega
  refine ⟨_, _, rfl, rfl, hpart _ (by decide), ?_, ?_⟩
  · exact ⟨(1, ⟨0, 1, [], 0, []⟩), by decide, ⟨0, 1⟩, by decide, by decide⟩
  · exact fun h => hpart _ (by decide) h.1

end Node

end Hs5
