import Hs5.Durability.Chains
import Hs5.Durability.Truncation

/-!
# Durable entries

An entry is durable when the data of its calls is in the data file before a
completed sync or in a synced record of a log file, and each of its items is
in the index or in such a record.  What is durable stays durable: a record is
truncated only when the data file and the index have what it contains.
-/

namespace Hs5

open WalFile

variable {cfg : WalConfig}

/-- A record with this payload is in the synced part of a file. -/
def WalFile.Synced {ι γ : Type} (w : WalFile ι γ) (p : WalPayload ι γ) : Prop :=
  ∃ alt, ∃ r ∈ (w.files alt).durable, r.payload = p

/-- A record with this payload is in the file in use. -/
def WalFile.InCurrent {ι γ : Type} (w : WalFile ι γ) (p : WalPayload ι γ) :
    Prop :=
  ∃ r ∈ w.currentFile.entries, r.payload = p

namespace Store

variable {s s' : Store} {n m : ℕ}

def DataDurable (s : Store) (d : DataWrite) : Prop :=
  Wrote s.dataFile.durable d ∨ s.wal.Synced (.dataFileData d)

/-- The data of the calls of an entry that took one of the routes is
durable. -/
def CallsDurable (s : Store) (routes : Route → Prop) (k : ℕ) : Prop :=
  ∀ entry, s.enqueued[k]? = some entry → ∀ c ∈ entry.calls,
    ∃ call, s.calls[c]? = some call ∧
      (routes call.route → s.DataDurable (call.write c))

/-- The item is in the index or in a synced record, which may be that of an
item it is linked to, or its condition did not hold. -/
def ItemDurable (s : Store) (k j : ℕ) : Prop :=
  .enqueued k j ∈ s.committed ∨ .enqueued k j ∈ s.dropped ∨
    ∃ i ≤ j, ∃ transid, s.wal.Synced (.fragInfo transid (.enqueued k i))

def ItemsDurable (s : Store) (k : ℕ) : Prop :=
  ∀ chain, s.enqueued[k]? = some (.items chain) →
    ∀ j item, chain[j]? = some item → item.action.changesIndex = true →
      s.ItemDurable k j

/-- The data and the items of the entry are durable. -/
structure EntryDurable (s : Store) (k : ℕ) : Prop where
  data : s.CallsDurable (fun _ => True) k
  items : s.ItemsDurable k

/-! ## Running syncs -/

/-- The state in which a sync of the data file and one of the log, started
when there were `n` writes and `m` records, are complete. -/
def syncedTo (s : Store) (n m : ℕ) : Store :=
  { s with dataFile := s.dataFile.sync n, wal := s.wal.fsync m }

@[simp]
theorem syncedTo_zero (s : Store) : s.syncedTo 0 0 = s := by
  simp [syncedTo]

theorem syncedTo_data (s : Store) (n : ℕ) :
    s.syncedTo n 0 = { s with dataFile := s.dataFile.sync n } := by
  simp [syncedTo]

theorem syncedTo_log (s : Store) (m : ℕ) :
    s.syncedTo 0 m = { s with wal := s.wal.fsync m } := by
  simp [syncedTo]

variable {p : WalPayload ItemId Unit} {e : Event} {d : DataWrite}

theorem synced_fsync {w : WalFile ItemId Unit} (h : w.Synced p)
    (m : ℕ) : (w.fsync m).Synced p := by
  obtain ⟨alt, r, hr, hp⟩ := h
  exact ⟨alt, r, (w.extends_fsync m alt).durable r hr, hp⟩

theorem synced_of_inCurrent {w : WalFile ItemId Unit} (h : w.InCurrent p) :
    (w.fsync w.currentFile.size).Synced p := by
  obtain ⟨r, hr, hp⟩ := h
  refine ⟨w.useAltFile, r, ?_, hp⟩
  rw [fsync_files_self]
  exact SyncedLog.durable_sync_size hr

theorem DataDurable.syncedTo (h : s.DataDurable d)
    (n m : ℕ) : (s.syncedTo n m).DataDurable d := by
  rcases h with h | h
  · exact .inl (h.mono (s.dataFile.extends_sync n).durable)
  · exact .inr (synced_fsync h m)

/-! ## Records -/

def Truncated (cfg : WalConfig) (s : Store) (p : WalPayload ItemId Unit) :
    Prop :=
  ∃ alt, TruncationPoint cfg s alt ∧ ∃ r ∈ (s.wal.files alt).entries,
    r.payload = p

theorem synced_step (hs : Steps cfg s e s')
    (hm : m = 0 ∨ ∀ reset, s.pc ≠ .lmdbReset reset)
    (h : (s.wal.fsync m).Synced p) :
    (s'.wal.fsync m).Synced p ∨ Truncated cfg s p := by
  obtain ⟨alt, r, hr, hp⟩ := h
  have hentry : r ∈ (s.wal.files alt).entries := by
    have hr' := SyncedLog.mem_of_durable hr
    by_cases halt : alt = s.wal.useAltFile
    · subst halt
      rwa [fsync_files_self] at hr'
    · obtain rfl : alt = !s.wal.useAltFile := Bool.eq_not.mpr halt
      rwa [fsync_files_not] at hr'
  cases logChange_step hs with
  | grow hgrown => exact .inl ⟨alt, r, (hgrown.fsync m alt).durable r hr, hp⟩
  | @dataThread item hthread hused hkept =>
    by_cases halt : alt = item.isAlt
    · exact .inr ⟨alt, .dataThread hthread halt, r, hentry, hp⟩
    · refine .inl ⟨alt, r, ?_, hp⟩
      have hfile := hkept alt halt
      by_cases hcur : alt = s.wal.useAltFile
      · subst hcur
        rw [fsync_files_self] at hr
        rw [← hused, fsync_files_self, WalFile.currentFile, hused, hfile]
        exact hr
      · obtain rfl : alt = !s.wal.useAltFile := Bool.eq_not.mpr hcur
        rw [fsync_files_not] at hr
        rwa [← hused, fsync_files_not, hused, hfile]
  | reset hpc hwal hcfg hused hother =>
    by_cases halt : alt = s.wal.useAltFile
    · exact .inr ⟨alt, .reset hpc hwal hcfg halt, r, hentry, hp⟩
    · obtain rfl : alt = !s.wal.useAltFile := Bool.eq_not.mpr halt
      refine .inl ⟨!s.wal.useAltFile, r, ?_, hp⟩
      rw [fsync_files_not] at hr
      rwa [← hused, fsync_files_not, hused, hother]
  | switch hpc hwal hcfg hused hleft =>
    by_cases halt : alt = s.wal.useAltFile
    · subst halt
      obtain rfl : m = 0 := hm.resolve_right fun hno => hno _ hpc
      rw [fsync_zero] at hr ⊢
      refine .inl ⟨s.wal.useAltFile, r, ?_, hp⟩
      rw [hleft]
      exact SyncedLog.durable_sync_of_durable _ hr
    · have halt : alt = !s.wal.useAltFile := Bool.eq_not.mpr halt
      exact .inr ⟨alt, .switch hpc hwal hcfg halt, r, hentry, hp⟩

theorem inCurrent_step (hs : Steps cfg s e s') (h : s.wal.InCurrent p) :
    s'.wal.InCurrent p ∨ s'.wal.Synced p ∨ Truncated cfg s p := by
  obtain ⟨r, hr, hp⟩ := h
  cases logChange_step hs with
  | grow hgrown =>
    refine .inl ⟨r, ?_, hp⟩
    rw [WalFile.currentFile, hgrown.useAltFile]
    exact (hgrown.files _).entries.subset hr
  | @dataThread item hthread hused hkept =>
    by_cases halt : s.wal.useAltFile = item.isAlt
    · exact .inr (.inr ⟨_, .dataThread hthread halt, r, hr, hp⟩)
    · refine .inl ⟨r, ?_, hp⟩
      rwa [WalFile.currentFile, hused, hkept _ halt]
  | reset hpc hwal hcfg hused hother =>
    exact .inr (.inr ⟨_, .reset hpc hwal hcfg rfl, r, hr, hp⟩)
  | switch hpc hwal hcfg hused hleft =>
    refine .inr (.inl ⟨s.wal.useAltFile, r, ?_, hp⟩)
    rw [hleft]
    exact SyncedLog.durable_sync_size hr

/-! ## Durable data and items stay durable -/

/-- Data of a call, and not data that was found in the log at start. -/
def Called (d : DataWrite) : Prop := d.call ≠ none

section

variable (hd : DataInv cfg Called s)

include hd

theorem wrote_of_truncated (hcalled : Called d)
    (h : Truncated cfg s (.dataFileData d)) : Wrote s.dataFile.durable d := by
  obtain ⟨alt, hpoint, r, hr, hp⟩ := h
  exact durable_of_point hd hpoint (mem_dataRecords.mpr ⟨r, hr, hp⟩) hcalled

theorem committed_of_truncated (hi : ItemInv s) {transid : ℤ} {item : ItemId}
    (h : Truncated cfg s (.fragInfo transid item)) : item ∈ s.committed := by
  obtain ⟨alt, hpoint, r, hr, hp⟩ := h
  exact committed_of_point hd hi hpoint
    (mem_loggedItems.mpr ⟨r, hr, transid, hp⟩)

theorem DataDurable.step (hs : Steps cfg s e s')
    (hm : m = 0 ∨ ∀ reset, s.pc ≠ .lmdbReset reset) (hcalled : Called d)
    (h : (s.syncedTo n m).DataDurable d) : (s'.syncedTo n m).DataDurable d := by
  have hdata := (grows_step hs).data
  rcases h with h | h
  · exact .inl (h.mono (hdata.sync n).durable)
  · rcases synced_step hs hm h with h | h
    · exact .inr h
    · refine .inl ((wrote_of_truncated hd hcalled h).mono ?_)
      exact fun x hx =>
        SyncedLog.durable_sync_of_durable n (hdata.durable x hx)

theorem CallsDurable.step {routes : Route → Prop} {k : ℕ} (hc : ChainInv s [])
    (hs : Steps cfg s e s')
    (hm : m = 0 ∨ ∀ reset, s.pc ≠ .lmdbReset reset) (hk : k < s.popped)
    (h : (s.syncedTo n m).CallsDurable routes k) :
    (s'.syncedTo n m).CallsDurable routes k := by
  have hgrows := grows_step hs
  intro entry hentry c hcall
  have hentry' : s.enqueued[k]? = some entry :=
    hgrows.entry (hk.trans_le hc.bound) ▸ hentry
  obtain ⟨call, hcalls, hdurable⟩ := h entry hentry' c hcall
  obtain ⟨call', hcalls', hlater⟩ := hgrows.calls c call hcalls
  refine ⟨call', hcalls', fun hroute => ?_⟩
  rw [hlater.write]
  refine DataDurable.step hd hs hm (by simp [Called, Call.write]) ?_
  exact hdurable (hlater.route ▸ hroute)

theorem ItemsDurable.step {k : ℕ} (hi : ItemInv s) (hc : ChainInv s [])
    (hs : Steps cfg s e s')
    (hm : m = 0 ∨ ∀ reset, s.pc ≠ .lmdbReset reset) (hk : k < s.popped)
    (h : (s.syncedTo n m).ItemsDurable k) :
    (s'.syncedTo n m).ItemsDurable k := by
  have hgrows := grows_step hs
  intro chain hentry j item hitem hchanges
  have hentry' : s.enqueued[k]? = some (.items chain) :=
    hgrows.entry (hk.trans_le hc.bound) ▸ hentry
  rcases h chain hentry' j item hitem hchanges with
    hi' | hi' | ⟨i, hij, transid, hrecord⟩
  · exact .inl (hgrows.committed _ hi')
  · exact .inr (.inl (hgrows.dropped _ hi'))
  · rcases synced_step hs hm hrecord with hrecord | hrecord
    · exact .inr (.inr ⟨i, hij, transid, hrecord⟩)
    · have hcommitted := committed_of_truncated hd hi hrecord
      have hj := (List.getElem?_eq_some_iff.mp hitem).1
      rcases hc.whole k i hcommitted chain hentry' j hj with hi' | hi'
      · exact .inl (hgrows.committed _ hi')
      · exact .inr (.inl (hgrows.dropped _ hi'))

theorem EntryDurable.step {k : ℕ} (hi : ItemInv s) (hc : ChainInv s [])
    (hs : Steps cfg s e s')
    (hm : m = 0 ∨ ∀ reset, s.pc ≠ .lmdbReset reset) (hk : k < s.popped)
    (h : (s.syncedTo n m).EntryDurable k) : (s'.syncedTo n m).EntryDurable k :=
  ⟨h.data.step hd hc hs hm hk, h.items.step hd hi hc hs hm hk⟩

end

end Store

end Hs5
