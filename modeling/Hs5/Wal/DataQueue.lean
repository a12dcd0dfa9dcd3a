import Hs5.Wal.DirtyBlocks
import Mathlib.Data.List.Count
import Mathlib.Data.Bool.Count

/-!
# The queue of the data thread

Counters and order of the items queued for the data thread.  The counter of a
file is the number of its items that are queued or in the hands of the data
thread, and the count of a block is the number of items covering it whose
data is not known to be written.  As long as a file is only left when no item
of the file left before is around, the queue has one of two shapes: all items
belong to the file in use, or those of the old file come first, then the
switch item, then those of the file in use.
-/

namespace Hs5

open List

/-! ## Items -/

/-- The item whose data may not be written yet. -/
def DataThread.unwritten : DataThread → List DataItem
  | .popped item => [item]
  | _ => []

/-- The item whose references are not dropped yet. -/
def DataThread.unreleased : DataThread → List DataItem
  | .popped item | .written item => [item]
  | _ => []

/-- An item that carries data of the given file. -/
def DataItem.CarriesFor (item : DataItem) (alt : Bool) : Prop :=
  item.isAlt = alt ∧ item.write.data ≠ []

namespace WalFile

variable {ι γ : Type} {w w' : WalFile ι γ}

def unwritten (w : WalFile ι γ) : List DataItem :=
  w.thread.unwritten ++ w.dataWriteQueue

def unreleased (w : WalFile ι γ) : List DataItem :=
  w.thread.unreleased ++ w.dataWriteQueue

/-- The pending counters and the reference counts are what they stand for. -/
structure Counted (w : WalFile ι γ) : Prop where
  pending : ∀ alt,
    w.pendingData alt = w.items.countP fun item => item.isAlt = alt
  refs : ∀ block,
    w.refs block = w.unreleased.countP fun item => block ∈ item.write.blocks

inductive QueueShape (w : WalFile ι γ) : Prop
  | steady (hreset : w.pendingReset = false)
      (hitems : ∀ item ∈ w.items, item.CarriesFor w.useAltFile)
      (hthread : w.thread.truncating = false) : QueueShape w
  | switching (old new : List DataItem) (hreset : w.pendingReset = true)
      (hitems : w.items = old ++ switchItem (!w.useAltFile) :: new)
      (hold : ∀ item ∈ old, item.CarriesFor (!w.useAltFile))
      (hnew : ∀ item ∈ new, item.CarriesFor w.useAltFile)
      (hthread : w.thread.truncating = true → old = []) : QueueShape w

theorem dataBlocks_nodup (off dataSize : ℕ) :
    (dataBlocks off dataSize).Nodup :=
  List.Nodup.filter _ nodup_range'

theorem count_blocks (d : DataWrite) (block : ℕ) :
    d.blocks.count block = if block ∈ d.blocks then 1 else 0 :=
  List.Nodup.count (dataBlocks_nodup _ _)

/-! ## Operations of the writers and of the commit thread -/

theorem Counted.append (h : w.Counted) (p : WalPayload ι γ) :
    (w.append p).Counted :=
  ⟨h.pending, h.refs⟩

theorem Counted.fsync (h : w.Counted) (n : ℕ) : (w.fsync n).Counted :=
  ⟨h.pending, h.refs⟩

theorem Counted.resetCurrent (h : w.Counted) (sync : Bool) :
    (w.resetCurrent sync).Counted :=
  ⟨h.pending, h.refs⟩

@[simp]
theorem items_writeDataQueued (w : WalFile ι γ) (d : DataWrite) :
    (w.writeDataQueued d).items = w.items ++ [⟨d, w.useAltFile⟩] := by
  simp [items, writeDataQueued, append]

@[simp]
theorem unreleased_writeDataQueued (w : WalFile ι γ) (d : DataWrite) :
    (w.writeDataQueued d).unreleased = w.unreleased ++ [⟨d, w.useAltFile⟩] := by
  simp [unreleased, writeDataQueued, append]

@[simp]
theorem items_switchFiles (w : WalFile ι γ) :
    w.switchFiles.items = w.items ++ [switchItem w.useAltFile] := by
  simp [items, switchFiles, resetCurrent, fsync]

@[simp]
theorem unreleased_switchFiles (w : WalFile ι γ) :
    w.switchFiles.unreleased = w.unreleased ++ [switchItem w.useAltFile] := by
  simp [unreleased, switchFiles, resetCurrent, fsync]

theorem Counted.pending_succ (h : w.Counted) (item : DataItem)
    (hitem : item.isAlt = w.useAltFile) (alt : Bool) :
    Function.update w.pendingData w.useAltFile
        (w.pendingData w.useAltFile + 1) alt =
      (w.items ++ [item]).countP fun item => item.isAlt = alt := by
  rw [countP_append, countP_singleton, ← h.pending alt]
  by_cases halt : alt = w.useAltFile
  · subst halt
    simp [hitem]
  · rw [Function.update_of_ne halt]
    simp [hitem, Ne.symm halt]

theorem Counted.writeDataQueued (h : w.Counted) (d : DataWrite) :
    (w.writeDataQueued d).Counted := by
  constructor
  · intro alt
    rw [items_writeDataQueued]
    exact h.pending_succ ⟨d, w.useAltFile⟩ rfl alt
  · intro block
    rw [unreleased_writeDataQueued, countP_append, countP_singleton,
      ← h.refs block]
    change w.refs block + d.blocks.count block = _
    rw [count_blocks]
    simp

theorem switchItem_blocks (alt : Bool) :
    (switchItem alt).write.blocks = [] := by
  change dataBlocks 0 0 = []
  decide

theorem Counted.switchFiles (h : w.Counted) : w.switchFiles.Counted := by
  constructor
  · intro alt
    rw [items_switchFiles]
    exact h.pending_succ (switchItem w.useAltFile) rfl alt
  · intro block
    rw [unreleased_switchFiles, countP_append, countP_singleton,
      switchItem_blocks, ← h.refs block]
    simp [WalFile.switchFiles, WalFile.resetCurrent, WalFile.fsync]

theorem QueueShape.congr (h : w.QueueShape) (hitems : w'.items = w.items)
    (hreset : w'.pendingReset = w.pendingReset)
    (hused : w'.useAltFile = w.useAltFile)
    (hthread : w'.thread.truncating = true → w.thread.truncating = true) :
    w'.QueueShape := by
  cases h with
  | steady h₁ h₂ h₃ =>
    refine .steady (hreset.trans h₁) ?_ ?_
    · rwa [hitems, hused]
    · cases htrunc : w'.thread.truncating with
      | false => rfl
      | true =>
        rw [hthread htrunc] at h₃
        cases h₃
  | switching old new h₁ h₂ h₃ h₄ h₅ =>
    refine .switching old new (hreset.trans h₁) ?_ ?_ ?_ ?_
    · rwa [hitems, hused]
    · rwa [hused]
    · rwa [hused]
    · intro htrunc
      exact h₅ (hthread htrunc)

theorem QueueShape.writeDataQueued (h : w.QueueShape) {d : DataWrite}
    (hd : d.data ≠ []) : (w.writeDataQueued d).QueueShape := by
  have hnew : DataItem.CarriesFor ⟨d, w.useAltFile⟩ w.useAltFile := ⟨rfl, hd⟩
  cases h with
  | steady h₁ h₂ h₃ =>
    refine .steady h₁ ?_ h₃
    intro item hitem
    rw [items_writeDataQueued, mem_append, mem_singleton] at hitem
    rcases hitem with hitem | rfl
    · exact h₂ item hitem
    · exact hnew
  | switching old new h₁ h₂ h₃ h₄ h₅ =>
    refine .switching old (new ++ [⟨d, w.useAltFile⟩]) h₁ ?_ h₃ ?_ h₅
    · rw [items_writeDataQueued, h₂, append_assoc]
      rfl
    · intro item hitem
      rw [mem_append, mem_singleton] at hitem
      rcases hitem with hitem | rfl
      · exact h₄ item hitem
      · exact hnew

theorem QueueShape.steady_of_pending (h : w.QueueShape) (hc : w.Counted)
    (hpending : w.pendingData (!w.useAltFile) = 0) :
    w.pendingReset = false ∧
      (∀ item ∈ w.items, item.CarriesFor w.useAltFile) ∧
        w.thread.truncating = false := by
  cases h with
  | steady h₁ h₂ h₃ => exact ⟨h₁, h₂, h₃⟩
  | switching old new h₁ h₂ h₃ h₄ h₅ =>
    have hcount := hc.pending (!w.useAltFile)
    rw [hpending, h₂, countP_append, countP_cons] at hcount
    simp [switchItem] at hcount

theorem QueueShape.switchFiles (h : w.QueueShape) (hc : w.Counted)
    (hpending : w.pendingData (!w.useAltFile) = 0) :
    w.switchFiles.QueueShape := by
  obtain ⟨-, hitems, hthread⟩ := h.steady_of_pending hc hpending
  refine .switching w.items [] rfl ?_ ?_ (by simp) ?_
  · rw [items_switchFiles]
    simp [WalFile.switchFiles, WalFile.resetCurrent, WalFile.fsync]
  · simpa [WalFile.switchFiles, WalFile.resetCurrent, WalFile.fsync]
      using hitems
  · intro htrunc
    have hsame : w.switchFiles.thread = w.thread := rfl
    rw [hsame, hthread] at htrunc
    cases htrunc

/-! ## Operations of the data thread -/

structure QueueInv (w : WalFile ι γ) : Prop where
  counted : w.Counted
  shape : w.QueueShape

variable {item : DataItem}

theorem Counted.releaseRefs (h : w.Counted) (hthread : w.thread = .written item)
    (hempty : item.write.data = [] → item.write.blocks = []) (block : ℕ) :
    (w.releaseRefs item).refs block =
      w.dataWriteQueue.countP fun item => block ∈ item.write.blocks := by
  have hr := h.refs block
  rw [unreleased, hthread, DataThread.unreleased, countP_append,
    countP_singleton] at hr
  by_cases hdata : item.write.data = []
  · rw [hempty hdata] at hr
    simpa [WalFile.releaseRefs, hdata] using hr
  · simp only [WalFile.releaseRefs, if_neg hdata, count_blocks, hr,
      decide_eq_true_eq]
    omega

theorem Counted.pending_pred (h : w.Counted)
    (hitems : w.items = item :: w.dataWriteQueue) (alt : Bool) :
    Function.update w.pendingData item.isAlt (w.pendingData item.isAlt - 1)
        alt = w.dataWriteQueue.countP fun item => item.isAlt = alt := by
  have hp := h.pending alt
  rw [hitems, countP_cons] at hp
  by_cases halt : alt = item.isAlt
  · subst halt
    simp [hp]
  · rw [Function.update_of_ne halt, hp]
    simp [Ne.symm halt]

theorem QueueShape.head (h : w.QueueShape)
    (hitems : w.items = item :: w.dataWriteQueue) :
    (item.write.data ≠ [] ∧ (w.pendingReset = true →
        item.isAlt = !w.useAltFile ∧
          switchItem (!w.useAltFile) ∈ w.dataWriteQueue)) ∨
      (w.pendingReset = true ∧ item = switchItem (!w.useAltFile) ∧
        ∀ item ∈ w.dataWriteQueue, item.CarriesFor w.useAltFile) := by
  cases h with
  | steady h₁ h₂ h₃ =>
    refine .inl ⟨(h₂ item (by simp [hitems])).2, ?_⟩
    intro hreset
    rw [h₁] at hreset
    cases hreset
  | switching old new h₁ h₂ h₃ h₄ h₅ =>
    rw [hitems] at h₂
    cases old with
    | nil =>
      rw [nil_append, List.cons.injEq] at h₂
      obtain ⟨rfl, hqueue⟩ := h₂
      refine .inr ⟨h₁, rfl, ?_⟩
      rwa [hqueue]
    | cons first rest =>
      rw [cons_append, List.cons.injEq] at h₂
      obtain ⟨rfl, hqueue⟩ := h₂
      have hfirst := h₃ item (by simp)
      refine .inl ⟨hfirst.2, fun _ => ⟨hfirst.1, ?_⟩⟩
      simp [hqueue]

section

variable (h : w.QueueInv)

include h

theorem QueueInv.move (hitems : w'.items = w.items)
    (hunreleased : w'.unreleased = w.unreleased)
    (hpending : w'.pendingData = w.pendingData) (hrefs : w'.refs = w.refs)
    (hreset : w'.pendingReset = w.pendingReset)
    (hused : w'.useAltFile = w.useAltFile)
    (hthread : w'.thread.truncating = true → w.thread.truncating = true) :
    w'.QueueInv := by
  refine ⟨⟨?_, ?_⟩, h.shape.congr hitems hreset hused hthread⟩
  · intro alt
    rw [hpending, hitems, h.counted.pending alt]
  · intro block
    rw [hrefs, hunreleased, h.counted.refs block]

theorem QueueInv.popItem (hs : w.popItem = some w') : w'.QueueInv := by
  obtain ⟨item, queue, hthread, hqueue, rfl⟩ := popItem_eq_some hs
  refine h.move ?_ ?_ rfl rfl rfl rfl ?_
  · rw [items, items, hthread, hqueue]
    rfl
  · rw [unreleased, unreleased, hthread, hqueue]
    rfl
  · intro htrunc
    cases htrunc

theorem QueueInv.itemWritten (hs : w.itemWritten = some w') : w'.QueueInv := by
  obtain ⟨item, hthread, rfl⟩ := itemWritten_eq_some hs
  refine h.move ?_ ?_ rfl rfl rfl rfl ?_
  · rw [items, items, hthread]
    rfl
  · rw [unreleased, unreleased, hthread]
    rfl
  · intro htrunc
    cases htrunc

theorem QueueInv.dataFileSynced
    (hs : w.dataFileSynced = some w') : w'.QueueInv := by
  obtain ⟨item, hthread, rfl⟩ := dataFileSynced_eq_some hs
  refine h.move ?_ ?_ rfl rfl rfl rfl ?_
  · rw [items, items, hthread]
    rfl
  · rw [unreleased, unreleased, hthread]
    rfl
  · intro _
    rw [hthread]
    rfl

theorem QueueInv.last_of_pending (hitems : w.items = item :: w.dataWriteQueue)
    (hlast : w.pendingData item.isAlt = 1) (hreset : w.pendingReset = true) :
    item = switchItem (!w.useAltFile) ∧
      ∀ item ∈ w.dataWriteQueue, item.CarriesFor w.useAltFile := by
  rcases h.shape.head hitems with ⟨-, hhead⟩ | ⟨-, hitem, hqueue⟩
  · obtain ⟨halt, hmem⟩ := hhead hreset
    have hcount := h.counted.pending item.isAlt
    rw [hlast, hitems, countP_cons_of_pos (by simp)] at hcount
    have hpos : 0 < w.dataWriteQueue.countP fun i => i.isAlt = item.isAlt := by
      rw [countP_pos_iff]
      exact ⟨_, hmem, by simp [switchItem, halt]⟩
    omega
  · exact ⟨hitem, hqueue⟩

theorem QueueInv.carries_of_not_last
    (hitems : w.items = item :: w.dataWriteQueue)
    (hlast : ¬ (w.pendingData item.isAlt = 1 ∧ w.pendingReset = true)) :
    item.write.data ≠ [] := by
  rcases h.shape.head hitems with ⟨hdata, -⟩ | ⟨hreset, rfl, hqueue⟩
  · exact hdata
  · refine absurd ⟨?_, hreset⟩ hlast
    rw [h.counted.pending, hitems, countP_cons_of_pos (by simp)]
    have hzero : w.dataWriteQueue.countP
        (fun i => i.isAlt = (switchItem (!w.useAltFile)).isAlt) = 0 := by
      rw [countP_eq_zero]
      intro item hitem
      simp [switchItem, (hqueue item hitem).1]
    omega

theorem QueueInv.finishItem (hs : w.finishItem = some w') : w'.QueueInv := by
  obtain ⟨item, hthread, ⟨hlast, hreset, rfl⟩ | ⟨hlast, rfl⟩⟩ :=
    finishItem_eq_some hs
  all_goals
    have hitems : w.items = item :: w.dataWriteQueue := by
      simp [items, hthread, DataThread.items]
  · obtain ⟨rfl, hqueue⟩ := h.last_of_pending hitems hlast hreset
    refine ⟨⟨?_, ?_⟩, ?_⟩
    · intro alt
      exact (h.counted.pending alt).trans (by rw [hitems]; rfl)
    · intro block
      exact h.counted.releaseRefs hthread (fun _ => switchItem_blocks _) block
    · exact .switching [] w.dataWriteQueue hreset rfl (by simp) hqueue
        (fun _ => rfl)
  · have hdata := h.carries_of_not_last hitems hlast
    refine ⟨⟨?_, ?_⟩, ?_⟩
    · intro alt
      exact h.counted.pending_pred hitems alt
    · intro block
      exact h.counted.releaseRefs hthread (fun hd => absurd hd hdata) block
    · cases h.shape with
      | steady h₁ h₂ h₃ =>
        refine .steady h₁ ?_ rfl
        intro item' hitem'
        exact h₂ item' (hitems ▸ mem_cons_of_mem _ hitem')
      | switching old new h₁ h₂ h₃ h₄ h₅ =>
        rw [hitems] at h₂
        cases old with
        | nil =>
          rw [nil_append, List.cons.injEq] at h₂
          exact absurd (by rw [h₂.1]; rfl) hdata
        | cons first rest =>
          rw [cons_append, List.cons.injEq] at h₂
          refine .switching rest new h₁ h₂.2 ?_ h₄ ?_
          · intro item' hitem'
            exact h₃ item' (mem_cons_of_mem _ hitem')
          · intro htrunc
            cases htrunc

theorem QueueInv.synced_item (htrunc : w.thread.truncating = true)
    (hthread : w.thread.items = [item]) :
    w.pendingReset = true ∧ item = switchItem (!w.useAltFile) ∧
      ∀ item ∈ w.dataWriteQueue, item.CarriesFor w.useAltFile := by
  cases h.shape with
  | steady h₁ h₂ h₃ =>
    rw [htrunc] at h₃
    cases h₃
  | switching old new h₁ h₂ h₃ h₄ h₅ =>
    obtain rfl := h₅ htrunc
    rw [items, hthread, nil_append, singleton_append,
      List.cons.injEq] at h₂
    refine ⟨h₁, h₂.1, ?_⟩
    rwa [h₂.2]

theorem QueueInv.finishSwitch
    (hs : w.finishSwitch = some w') : w'.QueueInv := by
  obtain ⟨item, hthread, rfl⟩ := finishSwitch_eq_some hs
  have hitems : w.items = item :: w.dataWriteQueue := by
    simp [items, hthread, DataThread.items]
  obtain ⟨-, -, hqueue⟩ := h.synced_item (by rw [hthread]; rfl)
    (by rw [hthread]; rfl)
  refine ⟨⟨?_, ?_⟩, .steady rfl hqueue rfl⟩
  · intro alt
    exact h.counted.pending_pred hitems alt
  · intro block
    have hqueue : w.unreleased = w.dataWriteQueue := by
      simp [unreleased, hthread, DataThread.unreleased]
    exact (h.counted.refs block).trans (by rw [hqueue]; rfl)

end

/-- `waitForWriteout` returns when no block of the range is referenced. -/
def writtenOut (w : WalFile ι γ) (off dataSize : ℕ) : Bool :=
  (dataBlocks off dataSize).all fun block => w.refs block = 0

theorem Counted.disjoint_of_writtenOut (h : w.Counted) {off dataSize : ℕ}
    (hout : w.writtenOut off dataSize = true) (hitem : item ∈ w.unreleased)
    {x : ℕ} (hx : off ≤ x ∧ x < off + dataSize) :
    ¬ (item.write.off ≤ x ∧ x < item.write.off + item.write.data.length) := by
  intro hcover
  have hrange : x / waitBlockSize ∈ dataBlocks off dataSize :=
    mem_dataBlocks_of_touches ⟨x, hx.1, hx.2, rfl⟩
  have hblock : x / waitBlockSize ∈ item.write.blocks :=
    mem_dataBlocks_of_touches ⟨x, hcover.1, hcover.2, rfl⟩
  have hzero := all_eq_true.mp hout _ hrange
  rw [decide_eq_true_eq, h.refs, countP_eq_zero] at hzero
  exact hzero item hitem (by simpa using hblock)

end WalFile

end Hs5
