import Hs5.Storage.Node
import Hs5.Support.Lifting

/-!
# Replaying the log reproduces the maps

What an item does to the index, the free map and the holes depends on these
maps alone; the counters kept beside them, the write extent and the file size
have no influence.  Replaying the items a process has logged on the maps of
its last LMDB commit therefore gives the maps of its open transaction, although
the replay starts with other values of the variables and does not move the
write extent where the original did.
-/

namespace Hs5

open Lifting

/-! ## The free map -/

namespace Freemap

section SameFree

variable {fm fm' : Freemap} (h : SameFree fm fm')

include h

theorem SameFree.put (offset len : ℤ) :
    SameFree (fm.put offset len) (fm'.put offset len) := by
  constructor <;> simp [Freemap.put, h.free, h.freeLen]

theorem SameFree.account (offset len : ℤ) (used used' : Bool) :
    SameFree (fm.account offset len used)
      (fm'.account offset len used') :=
  ⟨h.free, h.freeLen⟩

theorem SameFree.delNext (next : Option (ℤ × ℤ)) :
    SameFree (fm.delNext next) (fm'.delNext next) := by
  cases next with
  | none => exact h
  | some n =>
    exact ⟨by simp [Freemap.delNext, delFree, h.free], h.freeLen⟩

theorem SameFree.delLen (offset len : ℤ) :
    Option.Rel SameFree (fm.delLen offset len) (fm'.delLen offset len) := by
  unfold Freemap.delLen
  rw [h.freeLen]
  apply rel_ite
  · exact .some ⟨h.free, by simp [eraseLen, h.freeLen]⟩
  · exact .none

theorem SameFree.delNextLen (next : Option (ℤ × ℤ)) :
    Option.Rel SameFree (fm.delNextLen next) (fm'.delNextLen next) := by
  cases next with
  | none => exact .some h
  | some n => exact h.delLen n.1 n.2

theorem SameFree.addUnmerged (offset len : ℤ) (next : Option (ℤ × ℤ)) :
    Option.Rel SameFree (fm.addUnmerged offset len next)
      (fm'.addUnmerged offset len next) :=
  rel_map (h.delNextLen next) fun _ _ h' => h'.put _ _

theorem SameFree.addToPrev (prevOffset prevLength len : ℤ)
    (next : Option (ℤ × ℤ)) :
    Option.Rel SameFree (fm.addToPrev prevOffset prevLength len next)
      (fm'.addToPrev prevOffset prevLength len next) := by
  apply rel_bind (h.delLen prevOffset prevLength)
  intro fm₁ fm₁' h₁
  exact rel_map (h₁.delNextLen next) fun _ _ h' => h'.put _ _

theorem SameFree.addWithNext (offset len : ℤ) (used used' : Bool)
    (next : Option (ℤ × ℤ)) :
    Option.Rel SameFree (fm.addWithNext offset len used next)
      (fm'.addWithNext offset len used' next) := by
  have hnext := h.delNext next
  simp only [Freemap.addWithNext]
  rw [hnext.free]
  cases (fm.delNext next).free.below offset with
  | none =>
    exact rel_map (hnext.addUnmerged offset len next)
      fun _ _ h' => h'.account _ _ _ _
  | some prev =>
    apply rel_ite (.some hnext)
    apply rel_ite
    · exact rel_map (hnext.addToPrev _ _ len next)
        fun _ _ h' => h'.account _ _ _ _
    · exact rel_map (hnext.addUnmerged offset len next)
        fun _ _ h' => h'.account _ _ _ _

theorem SameFree.addFreemapExt (offset len : ℤ) (used used' : Bool) :
    Option.Rel SameFree (fm.addFreemapExt offset len used)
      (fm'.addFreemapExt offset len used') := by
  unfold Freemap.addFreemapExt
  apply rel_ite (.some h)
  unfold addRounded
  rw [h.free]
  cases fm.free.lowerBound offset with
  | none => exact h.addWithNext offset _ used used' none
  | some next =>
    apply rel_ite (.some h)
    apply rel_ite
    · exact h.addWithNext offset _ used used' (some next)
    · exact h.addWithNext offset _ used used' none

theorem SameFree.delFreemapExt (offset len : ℤ) :
    Option.Rel SameFree (fm.delFreemapExt offset len)
      (fm'.delFreemapExt offset len) := by
  unfold Freemap.delFreemapExt
  rw [h.free, h.freeLen]
  apply rel_ite .none
  apply rel_ite
  · exact .some ⟨rfl, rfl⟩
  · exact .none

end SameFree

end Freemap

/-! ## The maps of a transaction -/

namespace CommitState

variable {K : Type} [LinearOrder K]

section Actions

variable {c c' : CommitState K} (h : SameMaps c c')

include h

theorem SameMaps.addFreemapExts (exts : List SPunchItem) :
    Option.Rel Freemap.SameFree (CommitState.addFreemapExts c.fm exts)
      (CommitState.addFreemapExts c'.fm exts) :=
  rel_foldlM (fun _ _ e hfm => hfm.addFreemapExt e.offset e.len true true)
    exts h.fm

theorem SameMaps.removeFn (fn : K) (delFromMain : Bool) :
    Option.Rel SameMaps (c.removeFn fn delFromMain)
      (c'.removeFn fn delFromMain) := by
  unfold CommitState.removeFn
  rw [h.main]
  cases c.main.lookup fn with
  | none => exact .some h
  | some v =>
    apply rel_map (h.addFreemapExts v.extents)
    intro fm fm' hfm
    exact ⟨rfl, hfm, h.holes⟩

theorem SameMaps.add (fn : K) (v : IndexValue)
    (fromStartupWal fromStartupWal' : Bool) :
    Option.Rel SameMaps (c.add fn v fromStartupWal)
      (c'.add fn v fromStartupWal') := by
  apply rel_map (h.removeFn fn false)
  intro c₁ c₁' h₁
  have hmove : ∀ (b : Bool) (c : CommitState K),
      SameMaps c (if b then c else v.extents.foldl useExt c) := by
    intro b c
    split
    · exact ⟨rfl, ⟨rfl, rfl⟩, rfl⟩
    · exact sameMaps_foldl_useExt _ _
  have h₂ := ((hmove fromStartupWal c₁).symm.trans h₁).trans
    (hmove fromStartupWal' c₁')
  refine ⟨?_, h₂.fm, h₂.holes⟩
  simp only [eraseReserved, h₂.main]

theorem SameMaps.freeExtents (exts : List SPunchItem) :
    Option.Rel SameMaps (c.freeExtents exts) (c'.freeExtents exts) := by
  apply rel_map (h.addFreemapExts exts)
  intro fm fm' hfm
  have hsame : ∀ c : CommitState K,
      SameMaps c (exts.foldl useExt (c.eraseReserved exts)) := by
    intro c
    have he : SameMaps c (c.eraseReserved exts) := ⟨rfl, ⟨rfl, rfl⟩, rfl⟩
    exact he.trans (sameMaps_foldl_useExt _ _)
  have h' := ((hsame c).symm.trans h).trans (hsame c')
  exact ⟨h'.main, ⟨hfm.free, hfm.freeLen⟩, h'.holes⟩

theorem SameMaps.applyFreemapWal (change : FreemapWal) :
    Option.Rel SameMaps (c.applyFreemapWal change)
      (c'.applyFreemapWal change) := by
  cases change with
  | addFreemapWal offset len =>
    exact rel_map (h.fm.addFreemapExt offset len false false)
      fun _ _ hfm => ⟨h.main, hfm, h.holes⟩
  | delFreemapWal offset len =>
    exact rel_map (h.fm.delFreemapExt offset len)
      fun _ _ hfm => ⟨h.main, hfm, h.holes⟩

theorem SameMaps.replayItem (item : LogItem K) :
    Option.Rel SameMaps (c.replayItem item) (c'.replayItem item) := by
  cases item with
  | add fn exts lastModified md5sum => exact h.add fn _ true true
  | del fn => exact h.removeFn fn true
  | freeExtents exts => exact h.freeExtents exts
  | freemap change => exact h.applyFreemapWal change

end Actions

theorem SameMaps.replayItems {c c' : CommitState K} (h : SameMaps c c')
    (items : List (LogItem K)) :
    Option.Rel SameMaps (c.replayItems items) (c'.replayItems items) :=
  rel_foldlM (fun _ _ item h' => h'.replayItem item) items h

end CommitState

end Hs5
