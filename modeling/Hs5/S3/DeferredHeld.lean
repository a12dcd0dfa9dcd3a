import Hs5.S3.DeferredPlaces

/-!
# Readers of multipart objects and their records

The record of an object counts its readers.  A part of an object that is being
read belongs to the object that is there, or is noted in the record.
-/

namespace Hs5.S3

open List Transition OrderedMap

namespace PartStore

variable {hash : ℤ × Bytes → ℕ} {s s' : PartStore}

/-! ## Readers and records -/

structure Held (s : PartStore) : Prop where
  tickets : ∀ p ∈ s.readers, p.1 < s.nextReader
  counted : ∀ fn,
    (s.readingMultipartObjects.lookup fn).map ReadingMultipartObject.refs =
      if s.opened.count fn = 0 then none else some (s.opened.count fn : ℤ)
  holds : ∀ p ∈ s.readers, ∀ fn v, p.2.stage = .reading fn v →
    ∀ k ∈ partsOf (fn, v), k ∈ s.partsAt fn ∨
      ∃ obj, (fn, obj) ∈ s.readingMultipartObjects ∧ k ∈ obj.delKeys
  noted : ∀ p ∈ s.readingMultipartObjects, ∀ k ∈ p.2.delKeys,
    (p.1, k) ∈ s.removed

theorem isSome_of_mem_partsOf {fn k : KeyInfo} {v : Metadata}
    (h : k ∈ partsOf (fn, v)) : v.uploadId?.isSome := by
  cases v with
  | multipartObject => rfl
  | _ => simp [partsOf] at h

theorem opened_of_reading {r : PartReader} {fn : KeyInfo} {v : Metadata}
    (hstage : r.stage = .reading fn v) :
    r.opened = if v.uploadId?.isSome then [fn] else [] := by
  cases v with
  | _ => simp [PartReader.opened, hstage, Metadata.uploadId?]

theorem mem_partsAt {fn k : KeyInfo} : k ∈ s.partsAt fn ↔
    ∃ v, s.main.lookup fn = some v ∧ k ∈ partsOf (fn, v) := by
  unfold partsAt
  cases s.main.lookup fn with
  | _ => simp

variable {p : ℕ × PartReader} {fn : KeyInfo}

theorem opened_pos (hp : p ∈ s.readers) (hopened : p.2.opened = [fn]) :
    0 < s.opened.count fn := by
  apply count_pos_iff.mpr
  exact mem_gather.mpr ⟨p, hp, by simp [hopened]⟩

theorem Held.record (h : s.Held) (hp : p ∈ s.readers)
    (hopened : p.2.opened = [fn]) :
    ∃ obj, s.readingMultipartObjects.lookup fn = some obj ∧
      obj.refs = s.opened.count fn := by
  have hpos := opened_pos hp hopened
  have hcounted := h.counted fn
  rw [if_neg (by omega)] at hcounted
  exact Option.map_eq_some_iff.mp hcounted

theorem Held.frame (h : s.Held) {committed : OrderedMap KeyInfo Metadata}
    {committing : Bool} {commitItems : OrderedMap ℕ ℤ}
    {commitQueue callbackQueue : List PartItem}
    {queueDel : OrderedMap KeyInfo Unit} {written deleted : List KeyInfo} :
    (⟨s.main, committed, committing, commitItems, commitQueue, callbackQueue,
      queueDel, s.readingMultipartObjects, s.readers, s.nextReader, written,
      s.removed, deleted⟩ : PartStore).Held :=
  ⟨h.tickets, h.counted, h.holds, h.noted⟩

theorem lookup_applyMain_of_ne {i : PartItem}
    {main : OrderedMap KeyInfo Metadata} (hne : fn ≠ i.fn) :
    (applyMain i main).lookup fn = main.lookup fn := by
  obtain ⟨fn', action⟩ := i
  cases action with
  | add v => exact lookup_insert_of_ne _ _ hne
  | del | delWithQueued => exact lookup_erase_of_ne _ hne
  | queueDel => rfl

theorem Held.run (h : s.Held) (hacc : s.Accounts) {i : PartItem}
    {callbacks queued : List PartItem} {items : OrderedMap ℕ ℤ}
    (hnone : i.action.hasCommitItem = true → s.NoneNoted i.fn)
    (hrun : ({ s with
      callbackQueue := callbacks
      commitQueue := queued
      commitItems := items } : PartStore).Runs i s') : s'.Held := by
  cases hrun with
  | queueDel => exact h.frame
  | @remove records acts _ _ hitem hgo =>
    have hother : ∀ fn ≠ i.fn, ∀ k ∈ s.partsAt fn,
        k ∈ partsAt { s with main := applyMain i s.main } fn := by
      intro fn hne k hk
      rw [mem_partsAt] at hk ⊢
      rwa [lookup_applyMain_of_ne hne]
    generalize acts.flatMap PartItem.delKeys = dels at hgo
    cases hgo with
    | deleted _ hno =>
      refine ⟨h.tickets, h.counted, ?_,
        fun p hp k hk => mem_append_left _ (h.noted p hp k hk)⟩
      intro p hp fn v hstage k hk
      refine (h.holds p hp fn v hstage k hk).imp_left fun hlive => ?_
      refine hother fn ?_ k hlive
      rintro rfl
      obtain ⟨w, hw, hkw⟩ := mem_partsAt.mp hlive
      have hopened : p.2.opened = [i.fn] := by
        rw [opened_of_reading hstage, if_pos (isSome_of_mem_partsOf hk)]
      obtain ⟨obj, hobj, -⟩ := h.record hp hopened
      cases hobj.symm.trans (hno w hw (isSome_of_mem_partsOf hkw))
    | @noted w obj hw hmulti hobj =>
      have hkeys : (PartStore.noted obj i.fn w).delKeys = partsOf (i.fn, w) :=
        noted_delKeys hmulti (hacc.ids (i.fn, w) (lookup_eq_some.mp hw))
      have hempty : obj.delKeys = [] := by
        simp [ReadingMultipartObject.delKeys, hnone hitem w hw hmulti obj hobj]
      refine ⟨h.tickets, ?_, ?_, ?_⟩
      · intro fn
        refine Eq.trans ?_ (h.counted fn)
        by_cases hfn : fn = i.fn
        · have hobj : s.readingMultipartObjects.lookup i.fn = some obj := hobj
          simp [hfn, hobj, noted_refs]
        · exact congrArg _ (lookup_insert_of_ne _ _ hfn)
      · intro p hp fn v hstage k hk
        rcases h.holds p hp fn v hstage k hk with hlive | ⟨obj', hobj', hk'⟩
        · by_cases hfn : fn = i.fn
          · right
            subst hfn
            refine ⟨PartStore.noted obj i.fn w, mem_insert.mpr (.inl rfl), ?_⟩
            obtain ⟨w', hw', hkw⟩ := mem_partsAt.mp hlive
            cases hw'.symm.trans hw
            exact hkeys ▸ hkw
          · exact .inl (hother fn hfn k hlive)
        · right
          refine ⟨obj', mem_insert.mpr (.inr ⟨hobj', ?_⟩), hk'⟩
          rintro rfl
          cases (lookup_eq_some.mpr hobj').symm.trans hobj
          rw [hempty] at hk'
          cases hk'
      · intro p hp k hk
        rcases mem_insert.mp hp with rfl | ⟨hp, -⟩
        · refine mem_append_right _ (mem_map.mpr ⟨k, ?_, rfl⟩)
          exact mem_partsAt.mpr ⟨w, hw, hkeys ▸ hk⟩
        · exact mem_append_left _ (h.noted p hp k hk)

/-! ## Readers come and go -/

theorem readers_inv (h : s.Held) (hacc : s.Accounts)
    {readers : OrderedMap ℕ PartReader} {nextReader : ℕ}
    (htickets : ∀ p ∈ readers, p.1 < nextReader)
    (hopened : ∀ fn, (gather (fun p => p.2.opened) readers).count fn =
      s.opened.count fn)
    (hrest : ∀ k, (gather (fun p => p.2.rest) readers).count k =
      s.remaining.count k)
    (hreading : ∀ p ∈ readers, ∀ fn v, p.2.stage = .reading fn v →
      p ∈ s.readers) :
    ({ s with readers := readers, nextReader := nextReader } :
        PartStore).Held ∧
      ({ s with readers := readers, nextReader := nextReader } :
        PartStore).Accounts := by
  refine ⟨⟨htickets, ?_, ?_, h.noted⟩, hacc.of_places fun k => ?_⟩
  · intro fn
    rw [opened, hopened]
    exact h.counted fn
  · intro p hp fn v hstage
    exact h.holds p (hreading p hp fn v hstage) fn v hstage
  · rw [hrest k]
    rfl

theorem readPrepare_inv (h : s.Held) (hacc : s.Accounts) (fn : KeyInfo)
    (readNewest readUnsynced : Bool) :
    (s.readPrepare hash fn readNewest readUnsynced).Held ∧
      (s.readPrepare hash fn readNewest readUnsynced).Accounts := by
  obtain ⟨stage, hstage, heq⟩ : ∃ stage : PartStage,
      (stage = .queued ∨ stage = .checked) ∧
      s.readPrepare hash fn readNewest readUnsynced = { s with
        readers := s.readers.insert s.nextReader ⟨fn, readNewest, stage⟩
        nextReader := s.nextReader + 1 } := by
    refine ⟨_, ?_, rfl⟩
    split <;> simp
  have hplain : (⟨fn, readNewest, stage⟩ : PartReader).opened = [] ∧
      (⟨fn, readNewest, stage⟩ : PartReader).rest = [] := by
    rcases hstage with rfl | rfl <;> exact ⟨rfl, rfl⟩
  have hnew : s.readers.lookup s.nextReader = none :=
    lookup_eq_none.mpr fun p hp => (h.tickets p hp).ne
  rw [heq]
  refine readers_inv h hacc ?_ ?_ ?_ ?_
  · intro p hp
    rcases mem_insert.mp hp with rfl | ⟨hp, -⟩
    · exact Nat.lt_succ_self _
    · exact Nat.lt_succ_of_lt (h.tickets p hp)
  · intro fn'
    rw [count_gather_insert_of_lookup _ hnew, hplain.1, count_nil,
      Nat.zero_add]
    rfl
  · intro k
    rw [count_gather_insert_of_lookup _ hnew, hplain.2, count_nil,
      Nat.zero_add]
    rfl
  · intro p hp fn' v hp'
    rcases mem_insert.mp hp with rfl | ⟨hp, -⟩
    · rcases hstage with rfl | rfl <;> cases hp'
    · exact hp

section

variable {reader : ℕ} {r : PartReader} (hr : (reader, r) ∈ s.readers)

include hr

theorem leave_inv (h : s.Held) (hacc : s.Accounts) (hopened : r.opened = [])
    (hrest : r.rest = []) :
    (s.leave reader).Held ∧ (s.leave reader).Accounts := by
  refine readers_inv h hacc ?_ ?_ ?_ ?_
  · exact fun p hp => h.tickets p (mem_erase.mp hp).1
  · intro fn
    rw [opened, count_gather_erase _ hr, hopened, count_nil, Nat.zero_add]
  · intro k
    rw [remaining, count_gather_erase _ hr, hrest, count_nil, Nat.zero_add]
  · exact fun p hp _ _ _ => (mem_erase.mp hp).1

/-! ## Readers are counted -/

/-- The record of one object counts `n` readers now.  What it notes stays as
long as there is a record, and is `rest` otherwise. -/
structure Recounted (s : PartStore) (fn : KeyInfo) (n : ℕ)
    (records : OrderedMap KeyInfo ReadingMultipartObject)
    (rest : List KeyInfo) : Prop where
  others : ∀ fn', fn' ≠ fn →
    records.lookup fn' = s.readingMultipartObjects.lookup fn'
  refs : (records.lookup fn).map ReadingMultipartObject.refs =
    if n = 0 then none else some (n : ℤ)
  keys : ∀ obj, records.lookup fn = some obj →
    obj.delKeys = ((s.readingMultipartObjects.lookup fn).getD {}).delKeys
  noted : ∀ k, (gather (fun p => p.2.delKeys) records).count k +
    rest.count k = s.deferred.count k

variable {n : ℕ} {records : OrderedMap KeyInfo ReadingMultipartObject}
  {rest : List KeyInfo} {stage : PartStage}

theorem Recounted.held (hre : Recounted s fn n records rest) (h : s.Held)
    (hcount : ∀ fn', s.opened.count fn' +
      ({ r with stage := stage } : PartReader).opened.count fn' =
        (if fn' = fn then n else s.opened.count fn') + r.opened.count fn')
    (hreading : ∀ fn' v, stage = .reading fn' v →
      ∀ k ∈ partsOf (fn', v), k ∈ s.partsAt fn') :
    ({ s with
      readingMultipartObjects := records
      readers := s.readers.insert reader { r with stage := stage } } :
        PartStore).Held := by
  set readers := s.readers.insert reader { r with stage := stage }
  have hopened : ∀ fn', (gather (fun p => p.2.opened) readers).count fn' =
      if fn' = fn then n else s.opened.count fn' := by
    intro fn'
    have hset : (gather (fun p => p.2.opened) readers).count fn' +
        r.opened.count fn' = s.opened.count fn' +
          ({ r with stage := stage } : PartReader).opened.count fn' :=
      count_gather_set _ hr _ fn'
    have hsum := hcount fn'
    omega
  have hsome : ∀ p ∈ readers, p.2.opened = [fn] →
      ∃ obj, records.lookup fn = some obj := by
    intro p hp hp'
    have hpos := opened_pos (s := { s with readers := readers }) hp hp'
    have hrefs := hre.refs
    rw [opened, hopened, if_pos rfl] at hpos
    rw [if_neg (by omega)] at hrefs
    obtain ⟨obj, hobj, -⟩ := Option.map_eq_some_iff.mp hrefs
    exact ⟨obj, hobj⟩
  refine ⟨?_, ?_, ?_, ?_⟩
  · intro p hp
    rcases mem_insert.mp hp with rfl | ⟨hp, -⟩
    · exact h.tickets (reader, r) hr
    · exact h.tickets p hp
  · intro fn'
    rw [opened, hopened]
    by_cases hfn : fn' = fn
    · rw [if_pos hfn, hfn]
      exact hre.refs
    · rw [if_neg hfn, ← h.counted fn', ← hre.others fn' hfn]
  · intro p hp fn' v hstage k hk
    rcases mem_insert.mp hp with rfl | ⟨hold, -⟩
    · exact .inl (hreading fn' v hstage k hk)
    · refine (h.holds p hold fn' v hstage k hk).imp_right ?_
      rintro ⟨obj, hobj, hk'⟩
      rw [← lookup_eq_some] at hobj
      by_cases hfn : fn' = fn
      · subst hfn
        obtain ⟨obj', hobj'⟩ := hsome p hp (by
          rw [opened_of_reading hstage, if_pos (isSome_of_mem_partsOf hk)])
        refine ⟨obj', lookup_eq_some.mp hobj', ?_⟩
        rw [hre.keys obj' hobj', hobj]
        exact hk'
      · exact ⟨obj, lookup_eq_some.mp ((hre.others fn' hfn).trans hobj), hk'⟩
  · rintro ⟨fn', obj⟩ hp k hk
    rw [← lookup_eq_some] at hp
    by_cases hfn : fn' = fn
    · subst hfn
      rw [hre.keys obj hp] at hk
      cases hobj : s.readingMultipartObjects.lookup fn' with
      | none => simp [hobj, ReadingMultipartObject.delKeys] at hk
      | some old =>
        rw [hobj] at hk
        exact h.noted (fn', old) (lookup_eq_some.mp hobj) k hk
    · rw [hre.others fn' hfn] at hp
      exact h.noted (fn', obj) (lookup_eq_some.mp hp) k hk

theorem Recounted.accounts (hre : Recounted s fn n records rest)
    (hacc : s.Accounts) (hold : r.rest = [])
    (hrest : ({ r with stage := stage } : PartReader).rest = rest) :
    ({ s with
      readingMultipartObjects := records
      readers := s.readers.insert reader { r with stage := stage } } :
        PartStore).Accounts := by
  refine hacc.of_places fun k => ?_
  have hset := count_gather_set (fun p => p.2.rest) hr
    { r with stage := stage } k
  have hnoted := hre.noted k
  simp only [hold, hrest, count_nil] at hset
  simp only [remaining]
  omega

end

theorem Held.recounted_self (h : s.Held) (fn : KeyInfo) :
    Recounted s fn (s.opened.count fn) s.readingMultipartObjects [] := by
  refine ⟨fun _ _ => rfl, h.counted fn, ?_, fun _ => rfl⟩
  intro obj hobj
  rw [hobj]
  rfl

theorem Held.wait (h : s.Held) {reader : ℕ} {r : PartReader}
    {stage : PartStage} (hr : (reader, r) ∈ s.readers)
    (hopened : r.opened = [])
    (hstage : ({ r with stage := stage } : PartReader).opened = [])
    (hreading : ∀ fn v, stage ≠ .reading fn v) :
    (s.setStage reader r stage).Held := by
  refine (h.recounted_self r.fn).held hr h ?_
    fun fn v heq => absurd heq (hreading fn v)
  intro fn
  rw [hopened, hstage]
  by_cases hfn : fn = r.fn
  · rw [if_pos hfn, hfn]
  · rw [if_neg hfn]

theorem noted_insert (s : PartStore) (fn : KeyInfo) (refs : ℤ) (k : KeyInfo) :
    (gather (fun p => p.2.delKeys) (s.readingMultipartObjects.insert fn
      { (s.readingMultipartObjects.lookup fn).getD {} with
        refs := refs })).count k = s.deferred.count k := by
  cases hobj : s.readingMultipartObjects.lookup fn with
  | none =>
    rw [count_gather_insert_of_lookup _ hobj]
    simp [ReadingMultipartObject.delKeys, deferred]
  | some obj =>
    have hset := count_gather_set (fun p => p.2.delKeys)
      (lookup_eq_some.mp hobj) { obj with refs := refs } k
    simpa [ReadingMultipartObject.delKeys, deferred] using hset

theorem Held.onAddReadingCallback_eq (h : s.Held) (fn : KeyInfo)
    (v : Metadata) : ∃ n records,
      s.onAddReadingCallback fn v =
        { s with readingMultipartObjects := records } ∧
      Recounted s fn n records [] ∧
      n = s.opened.count fn + if v.uploadId?.isSome then 1 else 0 := by
  cases v with
  | multipartObject md5 uploadId numParts exts m =>
    refine ⟨_, _, rfl, ⟨fun fn' hne => lookup_insert_of_ne _ _ hne, ?_, ?_,
      noted_insert s fn _⟩, rfl⟩
    · have hcounted := h.counted fn
      rw [lookup_insert_self, Option.map_some]
      cases hobj : s.readingMultipartObjects.lookup fn with
      | none => simp_all [Metadata.uploadId?]
      | some obj => simp_all [Metadata.uploadId?]
    · intro obj hobj
      rw [lookup_insert_self] at hobj
      cases hobj
      rfl
  | _ => exact ⟨_, _, rfl, h.recounted_self fn, rfl⟩

/-- What `removeReadingMultipartObject` does for a counted reader. -/
theorem Held.removeReadingMultipartObject_eq (h : s.Held) (hp : p ∈ s.readers)
    (hopened : p.2.opened = [fn]) {s₁ : PartStore} {rest : List KeyInfo}
    (hremove : s.removeReadingMultipartObject fn = (s₁, rest)) :
    ∃ n records, s₁ = { s with readingMultipartObjects := records } ∧
      Recounted s fn n records rest ∧ s.opened.count fn = n + 1 := by
  obtain ⟨n, hn⟩ : ∃ n, s.opened.count fn = n + 1 :=
    Nat.exists_eq_succ_of_ne_zero (opened_pos hp hopened).ne'
  obtain ⟨obj, hobj, hrefs⟩ := h.record hp hopened
  have hpred : obj.refs - 1 = n := by omega
  simp only [removeReadingMultipartObject, hobj, hpred] at hremove
  by_cases hzero : n = 0
  · rw [if_neg (by omega)] at hremove
    cases hremove
    refine ⟨n, _, rfl, ⟨fun fn' hne => lookup_erase_of_ne _ hne, ?_, ?_, ?_⟩,
      hn⟩
    · rw [lookup_erase_self, if_pos hzero]
      rfl
    · intro obj' hobj'
      rw [lookup_erase_self] at hobj'
      cases hobj'
    · intro k
      rw [deferred, count_gather_erase _ (lookup_eq_some.mp hobj) k,
        Nat.add_comm]
  · rw [if_pos (by omega)] at hremove
    cases hremove
    refine ⟨n, _, rfl, ⟨fun fn' hne => lookup_insert_of_ne _ _ hne, ?_, ?_, ?_⟩,
      hn⟩
    · rw [lookup_insert_self, if_neg hzero]
      rfl
    · intro obj' hobj'
      rw [lookup_insert_self] at hobj'
      cases hobj'
      rw [hobj]
      rfl
    · intro k
      have hsame := noted_insert s fn n k
      rw [hobj] at hsame
      exact hsame

end PartStore

end Hs5.S3
