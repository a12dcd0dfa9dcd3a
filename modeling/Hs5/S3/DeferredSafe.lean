import Hs5.S3.DeferredHeld

/-!
# Parts are deleted once, and not while they are read

Parts are at one place each, and those of objects that are being read are with
the object or in the record of its readers.  So they are not deleted, and
nothing is left behind when the last reader has gone.
-/

namespace Hs5.S3

open List Transition OrderedMap

namespace PartStore

variable {hash : ℤ × Bytes → ℕ} {s s' : PartStore}

/-! ## What `commit_items` says about the last LMDB commit -/

/-- Entries of `commit_items` cover the difference to the last LMDB commit. -/
structure Covered (hash : ℤ × Bytes → ℕ) (s : PartStore) : Prop where
  items : ∀ k, s.committed.lookup k = s.main.lookup k ∨
    (s.commitItems.lookup (hash k.commonPrefix)).isSome
  committing : s.committing = true → s.committed = s.main

theorem Covered.run (h : Covered hash s) (hidle : s.committing = false)
    {i : PartItem} {callbacks queued : List PartItem}
    (hrun : ({ s with
      callbackQueue := callbacks
      commitQueue := queued
      commitItems := countItem hash (-1) i s.commitItems } :
        PartStore).Runs i s') : Covered hash s' := by
  cases hrun with
  | queueDel =>
    exact ⟨fun k => (h.items k).imp_right (isSome_countItem (-1) i),
      h.committing⟩
  | remove hitem hgo hacts hitems =>
    constructor
    · intro k
      by_cases hk : k = i.fn
      · right
        rw [hk]
        exact hitems _ (by simp [countItem, hitem])
      · change s.committed.lookup k = (applyMain i s.main).lookup k ∨ _
        rw [lookup_applyMain_of_ne hk]
        exact (h.items k).imp_right fun hsome =>
          hitems _ (isSome_countItem (-1) i hsome)
    · intro hcommitting
      cases hidle.symm.trans hcommitting

theorem covered_enqueue (h : Covered hash s) (i : PartItem) :
    Covered hash (s.enqueue hash i) :=
  ⟨fun k => (h.items k).imp_right (isSome_countItem 1 i), h.committing⟩

theorem Covered.findFragInfo_eq (h : Covered hash s) {fn : KeyInfo}
    (hnone : s.commitItems.lookup (hash fn.commonPrefix) = none)
    (readNewest : Bool) :
    findFragInfo KeyInfo.commonPrefix s.committed fn readNewest =
      findFragInfo KeyInfo.commonPrefix s.main fn readNewest := by
  apply findFragInfo_congr
  intro k hk
  rcases h.items k with heq | hsome
  · exact heq
  · rw [hk, hnone] at hsome
    cases hsome

/-! ## Every run -/

def next (s : PartStore) : Option PartItem := s.queue.head?

/-- The object that the fast path has read for a reader. -/
def foundObject (s : PartStore) (reader : ℕ) :
    Option (PartReader × KeyInfo × Metadata) := do
  let r ← s.readers.lookup reader
  match r.stage with
  | .found fn v => some (r, fn, v)
  | _ => none

/-- Objects have parts of their own, only one version of an object is removed
while it is read, and the fast path counts readers of committed objects. -/
def Careful (s : PartStore) : PartEvent → Prop
  | .put fn v => ((partsOf (fn, v)).Nodup ∧
      ∀ k ∈ partsOf (fn, v), k ∉ s.written) ∧ v.uploadId? ≠ some (-1)
  | .process => ∀ i ∈ s.next, i.action.hasCommitItem = true → s.NoneNoted i.fn
  | .readPin reader => ∀ p ∈ s.foundObject reader,
      findFragInfo KeyInfo.commonPrefix s.committed p.1.fn p.1.readNewest =
        some p.2
  | _ => True

instance (s : PartStore) (fn : KeyInfo) : Decidable (s.NoneNoted fn) :=
  inferInstanceAs (Decidable (∀ v ∈ s.main.lookup fn, _ → _))

instance (s : PartStore) (e : PartEvent) : Decidable (s.Careful e) := by
  rcases e with ⟨⟩ <;> dsimp only [Careful] <;> infer_instance

/-- Parts of objects that are being read stay, and those of removed versions
are deleted once nobody reads the object any more. -/
structure PartsSafe (s : PartStore) : Prop where
  kept : ∀ p ∈ s.readers, ∀ fn v, p.2.stage = .reading fn v →
    ∀ k ∈ partsOf (fn, v), k ∉ s.deleted ∧ k ∉ s.deletions
  once : ∀ p ∈ s.removed, (∀ q ∈ s.readers, q.2.opened ≠ [p.1]) →
    p.2 ∉ s.remaining → (s.deleted ++ s.deletions).count p.2 = 1

theorem two_le_count_snd {l : List (KeyInfo × KeyInfo)}
    {fn fn' k : KeyInfo} (h : (fn, k) ∈ l) (h' : (fn', k) ∈ l)
    (hne : fn' ≠ fn) : 2 ≤ (l.map Prod.snd).count k := by
  have hperm := (perm_cons_erase h).map Prod.snd
  have hother : (fn', k) ∈ l.erase (fn, k) :=
    (mem_erase_of_ne (by simp [hne])).mpr h'
  have hpos : 0 < ((l.erase (fn, k)).map Prod.snd).count k :=
    count_pos_iff.mpr (mem_map.mpr ⟨(fn', k), hother, rfl⟩)
  rw [hperm.count_eq, map_cons, count_cons_self]
  omega

theorem partsSafe (h : s.Held) (hacc : s.Accounts) : s.PartsSafe := by
  have hwritten : ∀ k, s.written.count k ≤ 1 :=
    nodup_iff_count_le_one.mp hacc.own
  have hpartKey : ∀ k, 0 < s.live.count k + s.removedParts.count k →
      IsPartKey k := by
    intro k hk
    apply hacc.partKeys k
    have honce := hacc.once k
    exact count_pos_iff.mp (by omega)
  constructor
  · intro p hp fn v hstage k hk
    have hboth : s.deleted.count k + s.deletions.count k = 0 := by
      have honce := hacc.once k
      have hone := hwritten k
      rcases h.holds p hp fn v hstage k hk with hlive | ⟨obj, hobj, hk'⟩
      · have hpos : 0 < s.live.count k := by
          rw [live_count s fn k]
          have := count_pos_iff.mpr hlive
          omega
        have hacc := hacc.account k (hpartKey k (by omega))
        omega
      · have hpos : 0 < s.deferred.count k :=
          count_pos_iff.mpr (mem_gather.mpr ⟨_, hobj, hk'⟩)
        have hmem : k ∈ s.removedParts :=
          mem_map.mpr ⟨(fn, k), h.noted _ hobj k hk', rfl⟩
        have hremoved := count_pos_iff.mpr hmem
        have hacc := hacc.account k (hpartKey k (by omega))
        omega
    constructor
    · exact count_eq_zero.mp (by omega)
    · exact count_eq_zero.mp (by omega)
  · rintro ⟨fn, k⟩ hp hnobody hrest
    have hmem : k ∈ s.removedParts := mem_map.mpr ⟨(fn, k), hp, rfl⟩
    have hpos := count_pos_iff.mpr hmem
    have honce := hacc.once k
    have hone := hwritten k
    have haccount := hacc.account k (hpartKey k (by omega))
    have hremaining : s.remaining.count k = 0 := count_eq_zero.mpr hrest
    have hdeferred : s.deferred.count k = 0 := by
      apply count_eq_zero.mpr
      intro hk
      obtain ⟨⟨fn', obj⟩, hobj, hk'⟩ := mem_gather.mp hk
      have hne : fn' ≠ fn := by
        rintro rfl
        have hcounted := h.counted fn'
        rw [lookup_eq_some.mpr hobj] at hcounted
        by_cases hzero : s.opened.count fn' = 0
        · simp [hzero] at hcounted
        · obtain ⟨q, hq, hmem⟩ := mem_gather.mp
            (count_pos_iff.mp (Nat.pos_of_ne_zero hzero))
          refine hnobody q hq ?_
          simp only [PartReader.opened] at hmem ⊢
          split at hmem
          · simp only [mem_singleton] at hmem
            rw [hmem]
          · cases hmem
      have hnoted := h.noted (fn', obj) hobj k hk'
      have htwo := two_le_count_snd hp hnoted hne
      simp only [removedParts] at hpos honce haccount
      omega
    have hsum : s.deleted.count k + s.deletions.count k = 1 := by omega
    rw [count_append]
    exact hsum

structure Inv (hash : ℤ × Bytes → ℕ) (s : PartStore) : Prop where
  accounts : s.Accounts
  held : s.Held
  covered : Covered hash s

theorem Inv.pin (h : Inv hash s) {reader : ℕ} {r : PartReader}
    (hr : (reader, r) ∈ s.readers) (hopened : r.opened = [])
    (hrest : r.rest = []) {p : KeyInfo × Metadata}
    (hlive : p.2.uploadId?.isSome → p ∈ s.main) :
    Inv hash (s.pin reader r p) := by
  obtain ⟨fn, v⟩ := p
  obtain ⟨n, records, heq, hre, hn⟩ := h.held.onAddReadingCallback_eq fn v
  rw [PartStore.pin, heq]
  refine ⟨hre.accounts hr h.accounts hrest rfl, hre.held hr h.held ?_ ?_,
    h.covered.items, h.covered.committing⟩
  · intro fn'
    rw [hopened, opened_of_reading rfl, hn]
    by_cases hfn : fn' = fn
    · subst hfn
      split <;> simp
    · split <;> simp [Ne.symm hfn]
  · intro fn' w heq k hk
    cases heq
    have hmem := hlive (isSome_of_mem_partsOf hk)
    exact mem_partsAt.mpr ⟨v, lookup_eq_some.mpr hmem, hk⟩

theorem Inv.step (h : Inv hash s) {e : PartEvent} (hok : s.Careful e)
    (hsteps : Steps hash s e s') : Inv hash s' := by
  cases hsteps with
  | @put fn v hbucket =>
    have hcovered := covered_enqueue h.covered ⟨fn, .add v⟩
    refine ⟨h.accounts.enqueue ⟨fn, .add v⟩ rfl ?_ ?_
      (fun _ _ => Nat.zero_add _) ?_,
      h.held.frame, hcovered.items, hcovered.committing⟩
    · exact nodup_append.mpr ⟨h.accounts.own, hok.1.1,
        fun a ha b hb hab => hok.1.2 b hb (hab ▸ ha)⟩
    · intro k hk
      rcases mem_append.mp hk with hk | hk
      · exact h.accounts.partKeys k hk
      · exact isPartKey_of_mem_partsOf hbucket hk
    · rintro w ⟨⟩
      exact hok.2
  | @putPart fn md5 m =>
    refine ⟨h.accounts.enqueue ⟨fn, .add (.object md5 m)⟩
      (append_nil _).symm h.accounts.own h.accounts.partKeys
      (fun _ _ => Nat.zero_add _) ?_, h.held.frame, covered_enqueue h.covered _⟩
    rintro w ⟨⟩
    simp [Metadata.uploadId?]
  | @delete fn hbucket =>
    refine ⟨h.accounts.enqueue ⟨fn, .del⟩ (append_nil _).symm
      h.accounts.own h.accounts.partKeys ?_ (by simp), h.held.frame,
      covered_enqueue h.covered _⟩
    intro k hk
    have hne : fn ≠ k := by
      rintro rfl
      simp only [isObjectBucket] at hbucket
      simp only [IsPartKey] at hk
      omega
    rw [PartItem.delKeys, count_eq_zero.mpr (by simpa using hne.symm),
      Nat.zero_add]
    rfl
  | @process i callbacks queued hidle hqueue =>
    have hnone := hok i (by simp [next, hqueue])
    have hrun := runItem_runs hash { s with
      callbackQueue := callbacks
      commitQueue := queued
      commitItems := countItem hash (-1) i s.commitItems } i
    exact ⟨h.accounts.run hqueue hnone hrun,
      h.held.run h.accounts hnone hrun, h.covered.run hidle hrun⟩
  | lmdbCommit =>
    exact ⟨h.accounts.of_places fun _ => rfl, h.held.frame,
      fun _ => .inl rfl, fun _ => rfl⟩
  | cleanCommitItems hcommitting =>
    have heq := h.covered.committing hcommitting
    exact ⟨h.accounts.of_places fun _ => rfl, h.held.frame,
      fun k => .inl (congrArg (fun m => m.lookup k) heq), fun _ => heq⟩
  | readPrepare =>
    obtain ⟨hheld, haccounts⟩ := readPrepare_inv h.held h.accounts _ _ _
    exact ⟨haccounts, hheld, h.covered.items, h.covered.committing⟩
  | leave hr hopened hrest =>
    obtain ⟨hheld, haccounts⟩ := leave_inv hr h.held h.accounts hopened hrest
    exact ⟨haccounts, hheld, h.covered.items, h.covered.committing⟩
  | @wait _ reader r stage hr hopened hrest hstage hreading =>
    exact ⟨(h.held.recounted_self r.fn).accounts hr h.accounts hrest hstage.2,
      h.held.wait hr hopened hstage.1 hreading, h.covered.items,
      h.covered.committing⟩
  | @pin reader r fn v hr hstage hitems =>
    refine h.pin hr (by simp [PartReader.opened, hstage])
      (by simp [PartReader.rest, hstage]) ?_
    intro hmulti
    have hfound : s.foundObject reader = some (r, fn, v) := by
      simp [foundObject, lookup_eq_some.mpr hr, hstage]
    have hcurrent := hok (r, fn, v) hfound
    have hv : v ≠ .tombstone := by
      rintro rfl
      cases hmulti
    rw [h.covered.findFragInfo_eq (hitems hv)] at hcurrent
    exact mem_of_findFragInfo hcurrent
  | read hr hstage hp =>
    exact h.pin hr (by simp [PartReader.opened, hstage])
      (by simp [PartReader.rest, hstage]) fun _ => mem_of_findFragInfo hp
  | @finalize reader r fn v rest s₁ hr hstage hopened hremove =>
    obtain ⟨n, records, rfl, hre, hn⟩ :=
      h.held.removeReadingMultipartObject_eq hr hopened hremove
    refine ⟨hre.accounts hr h.accounts (by simp [PartReader.rest, hstage]) rfl,
      hre.held hr h.held ?_ (by simp), h.covered.items, h.covered.committing⟩
    intro fn'
    rw [hopened]
    by_cases hfn : fn' = fn
    · subst hfn
      simp [hn, PartReader.opened]
    · simp [hfn, Ne.symm hfn, PartReader.opened]
  | @delPart reader r k rest hr hstage =>
    have hcovered := covered_enqueue h.covered ⟨k, .delWithQueued⟩
    have hheld : (s.setStage reader r (.deleting rest)).Held :=
      h.held.wait hr (by simp [PartReader.opened, hstage]) rfl (by simp)
    exact ⟨h.accounts.delPart hr hstage, hheld.frame, hcovered.items,
      hcovered.committing⟩

theorem inv_init (hash : ℤ × Bytes → ℕ) : Inv hash init := by
  refine ⟨⟨fun k _ => rfl, fun k => le_rfl, nodup_nil, ?_, ?_, ?_⟩,
    ⟨?_, fun fn => rfl, ?_, ?_⟩, fun k => .inl rfl, fun _ => rfl⟩
  · simp [init]
  · simp [init]
  · simp [init, queue]
  · simp [init]
  · simp [init]
  · simp [init]

/-- An object and a multipart version of it with one part. -/
def exampleKey : KeyInfo := ⟨1, [0x61], 0⟩

def version (uploadId : ℤ) : Metadata :=
  .multipartObject [] uploadId 1 [⟨1, 1, 1⟩] ⟨none, false⟩

/-- A version is read while another one takes its place. -/
def overwrittenOnce : List PartEvent :=
  [.put exampleKey (version 1), .process,
    .readPrepare exampleKey false true, .readFragInfo 0,
    .put exampleKey (version 2), .process, .process]

/-- The reader leaves and deletes what is noted. -/
def lastReader : List PartEvent :=
  [.finalizeMultiPart 0, .delPart 0, .delPart 0, .process]

end PartStore

end Hs5.S3
