import Hs5.S3.Pending

/-!
# Conditional writes

A request can ask that its write is carried out only if the entry it replaces
meets some conditions.  The commit thread checks them when it takes the item
off the queue, and what is linked to the item runs on a queue of its own.
This module shows that check and write are one atomic step nevertheless: the
items of a chain run directly one after the other, and the entry that was
checked is the one that is replaced.  So of several writes that ask for the
object not to exist at most one succeeds, unless it is deleted in between.
-/

namespace Hs5.S3

open List Transition

/-! ## Check and write are atomic -/

variable {main : OrderedMap KeyInfo Entry} {q : Queued Task}
  {m : Option MatchInfo} {pending : List Item} {i : Item} {t : Taken}

theorem Item.lookup_applyMain_of_ne {k : KeyInfo} (h : k ≠ i.fn)
    (main : OrderedMap KeyInfo Entry) :
    (i.applyMain main).lookup k = main.lookup k := by
  ext e
  rw [OrderedMap.lookup_eq_some, OrderedMap.lookup_eq_some]
  exact mem_applyMain_of_ne h

/-- The items that requests put on the commit queue. -/
inductive Item.Requested (cfg : Config) : Item → Prop
  | object {fn : KeyInfo} {v : Entry} (hfn : Written cfg fn)
      (hv : v.md5sum ≠ .tombstone) : Item.Requested cfg ⟨fn, .add v⟩
  | marker {fn : KeyInfo} (hfn : Written cfg fn)
      (hversioned : cfg.withVersioning fn.bucketId = true) :
      Item.Requested cfg ⟨fn, .add tombstone⟩
  | part {fn : KeyInfo} {v : Entry}
      (hfn : isPartialUploadsBucket fn.bucketId ∨ isPartsBucket fn.bucketId) :
      Item.Requested cfg ⟨fn, .add v⟩
  | addPart {fn : KeyInfo} {parts : List PartExt}
      (hfn : isPartialUploadsBucket fn.bucketId) :
      Item.Requested cfg ⟨fn, .modifyData parts⟩
  | complete {fn : KeyInfo} (hfn : isPartialUploadsBucket fn.bucketId) :
      Item.Requested cfg ⟨fn, .delNoCallback⟩
  | abort {fn : KeyInfo} (hfn : isPartialUploadsBucket fn.bucketId) :
      Item.Requested cfg ⟨fn, .del⟩
  | delete {fn : KeyInfo} (hfn : isObjectBucket fn.bucketId) :
      Item.Requested cfg ⟨fn, .del⟩
  | modifyMetadata {fn : KeyInfo} {param : ModifyParam}
      (hfn : isObjectBucket fn.bucketId) :
      Item.Requested cfg ⟨fn, .modifyMetadata param⟩
  | freeExtents {exts : List SPunchItem} :
      Item.Requested cfg { action := .freeExtents exts }

theorem Task.Formed.requested {cfg : Config} {task : Task}
    (h : task.Formed cfg) {now : ℤ} {c : Chain}
    (hchain : task.chain cfg now = some (c, m)) :
    ∀ i ∈ c.items, i.Requested cfg := by
  cases h with
  | putObject hfn =>
    obtain ⟨⟩ := hchain
    simpa [Chain.items] using Item.Requested.object hfn (by simp)
  | @createMultipartUpload bucketId key uploadId _ _ _ hbucket =>
    obtain ⟨⟩ := hchain
    have hupload := isPartialUploadsBucket_uploadKey key uploadId hbucket
    simpa [Chain.items] using Item.Requested.part (.inl hupload)
  | @putObjectPart bucketId key uploadId partNumber _ _ _ hbucket =>
    obtain ⟨⟩ := hchain
    have hupload := isPartialUploadsBucket_uploadKey key uploadId hbucket
    have hparts := isPartsBucket_partKey uploadId partNumber hupload
    simp only [Chain.items, mem_cons, not_mem_nil, or_false,
      forall_eq_or_imp, forall_eq]
    exact ⟨Item.Requested.part (.inr hparts), Item.Requested.addPart hupload⟩
  | @completeMultipartUpload bucketId key uploadId _ toRead _ _ _ _ _ hfn =>
    cases toRead with
    | nil =>
      obtain ⟨⟩ := hchain
      have hupload := isPartialUploadsBucket_uploadKey key uploadId hfn.object
      simp only [Chain.items, mem_cons, not_mem_nil, or_false,
        forall_eq_or_imp, forall_eq]
      exact ⟨Item.Requested.complete hupload,
        Item.Requested.object hfn (by simp [completedObject])⟩
    | cons n toRead => cases hchain
  | @abortMultipartUpload bucketId key uploadId hbucket =>
    obtain ⟨⟩ := hchain
    have hupload := isPartialUploadsBucket_uploadKey key uploadId hbucket
    simpa [Chain.items] using Item.Requested.abort hupload
  | deleteMarker hfn hversioned =>
    obtain ⟨⟩ := hchain
    simpa [Chain.items] using Item.Requested.marker hfn hversioned
  | deleteVersion hfn =>
    obtain ⟨⟩ := hchain
    simpa [Chain.items] using Item.Requested.delete hfn
  | modifyMetadata hfn =>
    obtain ⟨⟩ := hchain
    simpa [Chain.items] using Item.Requested.modifyMetadata hfn

theorem Queued.Formed.requested {cfg : Config}
    (h : q.Formed cfg) : ∀ i ∈ q.chain.items, i.Requested cfg := by
  cases h with
  | request htask hchain => exact htask.requested hchain
  | freeExtents => simpa [Chain.items] using Item.Requested.freeExtents

theorem Item.Requested.not_deletion {cfg : Config} (h : i.Requested cfg) :
    ¬ (i.action = .del ∧ isPartsBucket i.fn.bucketId) := by
  rintro ⟨hdel, hparts⟩
  cases h with
  | abort hfn => exact not_isPartialUploadsBucket_of_isPartsBucket hparts hfn
  | delete hfn => exact not_isObjectBucket_of_isPartsBucket hparts hfn
  | _ => simp at hdel

/-- An item was checked and run without anything in between. -/
structure Taken.Atomic (t : Taken) (pending : List Item) : Prop where
  /-- It was run if and only if its conditions were met. -/
  verdict : t.run ≠ [] ↔ Store.passes t.checked t.queued = true
  /-- All that is linked to it has run after it, or is the next to run. -/
  together : t.run ≠ [] → t.queued.chain.items <+: t.items ++ pending
  /-- Each item of the chain met the entries on which the conditions were
  checked. -/
  unchanged : ∀ i before, (i, before) ∈ t.run → i ∈ t.queued.chain.items →
    ∀ k : KeyInfo, k.commonPrefix = i.fn.commonPrefix →
      before.lookup k = t.checked.lookup k

theorem Taken.Sound.mem_items {cfg : Config} (h : t.Sound cfg pending)
    (hi : i ∈ t.items ++ pending) :
    i ∈ t.queued.chain.items ∨
      (i.action = .del ∧ isPartsBucket i.fn.bucketId) := by
  obtain ⟨-, hrun, hnone⟩ | ⟨-, -, deletions, heq, hdel⟩ := h.outcome
  · simp [items, hrun, hnone] at hi
  · rw [heq] at hi
    rcases mem_append.mp hi with hi | hi
    · exact .inl hi
    · exact .inr (hdel i hi)

theorem Meets.unchanged {cfg : Config}
    {checked main : OrderedMap KeyInfo Entry}
    {run : List (Item × OrderedMap KeyInfo Entry)}
    {pending deletions : List Item} (hq : q.Formed cfg)
    (hmeets : Meets checked run main)
    (heq : run.map Prod.fst ++ pending = q.chain.items ++ deletions)
    (hdel : ∀ i ∈ deletions, i.action = .del ∧ isPartsBucket i.fn.bucketId)
    {before : OrderedMap KeyInfo Entry} (hi : (i, before) ∈ run)
    (hchain : i ∈ q.chain.items) {k : KeyInfo}
    (hk : k.commonPrefix = i.fn.commonPrefix) :
    before.lookup k = checked.lookup k := by
  have hnot : i ∉ deletions := fun h =>
    (hq.requested i hchain).not_deletion (hdel i h)
  have hformed := hq.chain
  cases run with
  | nil => simp at hi
  | cons p run =>
    obtain ⟨j, before₀⟩ := p
    obtain ⟨rfl, hmeets⟩ := hmeets
    rcases mem_cons.mp hi with heq' | hi
    · rw [(Prod.mk.inj heq').2]
    · have hmem : i ∈ run.map Prod.fst := mem_map_of_mem hi
      obtain ⟨chain, m, request⟩ := q
      simp only at hformed hchain heq
      cases hformed with
      | alone =>
        simp only [Chain.items, map_cons, cons_append,
          nil_append, List.cons.injEq] at heq
        exact absurd (heq.2 ▸ mem_append_left _ hmem) hnot
      | @linked root linked _ _ _ hbucket =>
        simp only [Chain.items, map_cons, cons_append,
          nil_append, List.cons.injEq] at heq
        obtain ⟨rfl, heq⟩ := heq
        cases run with
        | nil => simp at hi
        | cons p run =>
          simp only [map_cons, cons_append, List.cons.injEq] at heq
          rcases mem_cons.mp hi with rfl | hi
          · obtain rfl : i = linked := heq.1
            rw [hmeets.1]
            apply Item.lookup_applyMain_of_ne
            rintro rfl
            exact hbucket (congrArg Prod.fst hk)
          · have hmem : i ∈ run.map Prod.fst := mem_map_of_mem hi
            exact absurd (heq.2 ▸ mem_append_left _ hmem) hnot

theorem Taken.Sound.atomic {cfg : Config} (h : t.Sound cfg pending)
    (hmeets : Meets t.checked t.run main) : t.Atomic pending := by
  obtain ⟨hfail, hrun, -⟩ | ⟨hpass, hrun, deletions, heq, hdel⟩ := h.outcome
  · refine ⟨by simp [hfail, hrun], fun hne => absurd hrun hne, ?_⟩
    simp [hrun]
  · refine ⟨by simp [hpass, hrun], fun _ => ⟨deletions, heq.symm⟩, ?_⟩
    intro i before hi hchain k hk
    exact hmeets.unchanged h.formed heq hdel hi hchain hk

/-! ## Writes that ask for the object not to exist -/

/-- The item writes to a key under the condition `If-None-Match: *`. -/
def Queued.Creates (q : Queued Task) (fn : KeyInfo) : Prop :=
  (∃ m, q.matchInfo = some m ∧ star ∈ m.ifNoneMatch) ∧
    ∃ v, ⟨fn, .add v⟩ ∈ q.chain.items

def Exists (fn : KeyInfo) (main : OrderedMap KeyInfo Entry) : Prop :=
  ∃ e, main.lookup fn = some e ∧ e.md5sum ≠ .tombstone

theorem onMatchCallback_star {m : MatchInfo} {e : Entry}
    (hstar : star ∈ m.ifNoneMatch) (he : e.md5sum ≠ .tombstone) :
    (onMatchCallback m e).isMatch = false := by
  have hnegative : ∀ etag now, m.negative etag now = true := by
    intro etag now
    have hne : m.ifNoneMatch ≠ [] := ne_nil_of_mem hstar
    simp only [MatchInfo.negative, if_pos hne, any_eq_true]
    exact ⟨star, hstar, etagMatches_star etag⟩
  simp [onMatchCallback, he, hnegative]

theorem addProtectedCheck_direct (cfg : Config) (bucketId : ℤ)
    (bypassGovernance : Bool) (now : ℤ) (h : Direct m) :
    Direct (addProtectedCheck cfg bucketId bypassGovernance now m) := by
  intro m' hm'
  unfold addProtectedCheck at hm'
  split at hm'
  · cases hm'
    cases m with
    | none => exact ⟨rfl, rfl⟩
    | some m => exact h m rfl
  · exact h m' hm'

/-- What the conditions of a write are on: the newest version if the write
makes a new one, else the entry that it replaces. -/
structure Checks (cfg : Config) (fn : KeyInfo) (m : MatchInfo)
    (root : KeyInfo) : Prop where
  versioned : cfg.withVersioning fn.bucketId = true →
    m.readFn = some fn ∧ m.readNewest = true
  unversioned : cfg.withVersioning fn.bucketId = false →
    m.readFn.getD root = fn ∧ m.readNewest = false

theorem writeMatch_checks {cfg : Config} {fn : KeyInfo} {now : ℤ}
    {m' : MatchInfo} (hfn : Written cfg fn) (hm : Direct m)
    (h : writeMatch cfg fn now m = some m') :
    Checks cfg fn m' fn := by
  unfold writeMatch at h
  constructor
  · intro hversioned
    have hne : fn.version ≠ 0 := (hfn.versioned hversioned).ne'
    simp only [hversioned, if_true, if_pos hne, Option.map_eq_some_iff] at h
    obtain ⟨m₀, -, rfl⟩ := h
    exact ⟨rfl, rfl⟩
  · intro hunversioned
    have hzero := hfn.unversioned hunversioned
    simp only [hunversioned, hzero, ne_eq, not_true_eq_false,
      if_false, Bool.false_eq_true] at h
    have hdirect := addProtectedCheck_direct cfg _ false now hm m' h
    exact ⟨by rw [hdirect.1, Option.getD_none], hdirect.2⟩

theorem Queued.Formed.checks {cfg : Config} (h : q.Formed cfg) {fn : KeyInfo}
    {v : Entry} {m : MatchInfo} (hadd : ⟨fn, .add v⟩ ∈ q.chain.items)
    (hobject : isObjectBucket fn.bucketId) (hm : q.matchInfo = some m) :
    Checks cfg fn m q.chain.item.fn := by
  cases h with
  | freeExtents => simp at hm
  | @request task now c m' htask hchain =>
    simp only at hm hadd
    subst hm
    cases htask with
    | putObject hfn hdirect =>
      simp only [Task.chain, Option.some.injEq, Prod.mk.injEq] at hchain
      obtain ⟨rfl, hmatch⟩ := hchain
      simp only [Chain.items, mem_singleton, Item.mk.injEq] at hadd
      obtain ⟨rfl, -⟩ := hadd
      exact writeMatch_checks hfn hdirect hmatch
    | @completeMultipartUpload _ _ _ _ toRead _ _ _ _ _ hfn hid hdirect =>
      cases toRead with
      | cons n toRead => cases hchain
      | nil =>
        simp only [Task.chain, Option.some.injEq, Prod.mk.injEq,
          Option.map_eq_some_iff] at hchain
        obtain ⟨rfl, m₀, hmatch, rfl⟩ := hchain
        simp only [Chain.items, mem_cons, Item.mk.injEq,
          reduceCtorEq, and_false, false_or, not_mem_nil, or_false] at hadd
        obtain ⟨rfl, -⟩ := hadd
        have hchecks := writeMatch_checks hfn hdirect hmatch
        exact ⟨fun hv => ⟨rfl, (hchecks.versioned hv).2⟩,
          fun hv => ⟨rfl, (hchecks.unversioned hv).2⟩⟩
    | deleteMarker hfn hversioned =>
      simp only [Task.chain, Option.some.injEq, Prod.mk.injEq,
        Option.map_eq_some_iff] at hchain
      obtain ⟨rfl, m₀, -, rfl⟩ := hchain
      simp only [Chain.items, mem_singleton, Item.mk.injEq] at hadd
      obtain ⟨rfl, -⟩ := hadd
      refine ⟨fun _ => ⟨rfl, rfl⟩, fun hv => ?_⟩
      rw [hversioned] at hv
      simp at hv
    | deleteVersion =>
      simp only [Task.chain, Option.some.injEq, Prod.mk.injEq] at hchain
      obtain ⟨rfl, -⟩ := hchain
      simp [Chain.items] at hadd
    | _ => cases hchain

theorem Queued.Formed.not_passes {cfg : Config} (h : q.Formed cfg)
    {fn : KeyInfo} (hcreates : q.Creates fn)
    (hobject : isObjectBucket fn.bucketId)
    (hunversioned : cfg.withVersioning fn.bucketId = false)
    (hmain : Exists fn main) :
    Store.passes main q = false := by
  obtain ⟨⟨m, hm, hstar⟩, v, hadd⟩ := hcreates
  obtain ⟨e, he, hnot⟩ := hmain
  obtain ⟨hread, hnewest⟩ := (h.checks hadd hobject hm).unversioned hunversioned
  simp [Store.passes, hm, fragInfoMatches, hnewest, hread, he,
    onMatchCallback_star hstar hnot]

theorem setObjMetadata_ne_tombstone {md5sum : Metadata} (m : ObjMetadata)
    (h : md5sum ≠ .tombstone) : md5sum.setObjMetadata m ≠ .tombstone := by
  cases md5sum with
  | tombstone => exact absurd rfl h
  | _ => simp [Metadata.setObjMetadata]

theorem Item.Requested.exists_applyMain {cfg : Config} (h : i.Requested cfg)
    {fn : KeyInfo} (hobject : isObjectBucket fn.bucketId)
    (hunversioned : cfg.withVersioning fn.bucketId = false)
    (hi : i ≠ ⟨fn, .del⟩)
    (hmain : Exists fn main) : Exists fn (i.applyMain main) := by
  by_cases hfn : fn = i.fn
  · subst hfn
    obtain ⟨e, he, hnot⟩ := hmain
    have hinsert : ∀ v, ((main.insert i.fn v).lookup i.fn) = some v := by
      intro v
      rw [OrderedMap.lookup_eq_some]
      simp
    cases h with
    | object hfn hv => exact ⟨_, hinsert _, hv⟩
    | marker hfn hversioned =>
      rw [hversioned] at hunversioned
      simp at hunversioned
    | part hfn =>
      rcases hfn with hfn | hfn
      · exact absurd hfn (not_isPartialUploadsBucket_of_isObjectBucket hobject)
      · exact absurd hobject (not_isObjectBucket_of_isPartsBucket hfn)
    | addPart hfn | complete hfn =>
      exact absurd hfn (not_isPartialUploadsBucket_of_isObjectBucket hobject)
    | abort hfn => exact absurd rfl hi
    | delete hfn => exact absurd rfl hi
    | @modifyMetadata fn param hfn =>
      simp only [applyMain, he]
      split
      · exact ⟨e, he, hnot⟩
      · rename_i hmodify
        obtain ⟨m, rfl⟩ := onModifyMetadataCallback_ok hmodify
        exact ⟨_, hinsert _, setObjMetadata_ne_tombstone m hnot⟩
    | freeExtents => exact ⟨e, he, hnot⟩
  · obtain ⟨e, he, hnot⟩ := hmain
    exact ⟨e, by rw [lookup_applyMain_of_ne hfn, he], hnot⟩

theorem Chain.Formed.eq_of_fn_eq {c : Chain} (h : c.Formed) {i j : Item}
    (hi : i ∈ c.items) (hj : j ∈ c.items) (hfn : i.fn = j.fn) : i = j := by
  cases h with
  | alone =>
    simp only [Chain.items, mem_singleton] at hi hj
    rw [hi, hj]
  | linked _ _ _ hbucket =>
    simp only [Chain.items, mem_cons, not_mem_nil, or_false] at hi hj
    rcases hi with rfl | rfl <;> rcases hj with rfl | rfl
    · rfl
    · exact absurd (congrArg KeyInfo.bucketId hfn) hbucket
    · exact absurd (congrArg KeyInfo.bucketId hfn).symm hbucket
    · rfl

theorem exists_applyMain_of_deletion
    (hi : i.action = .del ∧ isPartsBucket i.fn.bucketId) {fn : KeyInfo}
    (hobject : isObjectBucket fn.bucketId)
    (hmain : Exists fn main) : Exists fn (i.applyMain main) := by
  obtain ⟨e, he, hnot⟩ := hmain
  refine ⟨e, ?_, hnot⟩
  rw [Item.lookup_applyMain_of_ne _, he]
  rintro rfl
  exact not_isObjectBucket_of_isPartsBucket hi.2 hobject

section Creates

variable {cfg : Config} {fn : KeyInfo} (hobject : isObjectBucket fn.bucketId)
  (hunversioned : cfg.withVersioning fn.bucketId = false)

include hobject hunversioned

theorem Taken.Sound.exists_applyMain (h : t.Sound cfg pending)
    (hdel : ⟨fn, .del⟩ ∉ t.items) :
    ∀ i ∈ t.items, ∀ main, Exists fn main → Exists fn (i.applyMain main) := by
  intro i hi main hmain
  rcases h.mem_items (mem_append_left _ hi) with hchain | hparts
  · refine (h.formed.requested i hchain).exists_applyMain hobject
      hunversioned ?_ hmain
    rintro rfl
    exact hdel hi
  · exact exists_applyMain_of_deletion hparts hobject hmain

theorem Taken.Sound.exists_of_add (h : t.Sound cfg [])
    (hmeets : Meets t.checked t.run main) (hrun : t.run ≠ []) {v : Entry}
    (hadd : ⟨fn, .add v⟩ ∈ t.queued.chain.items) : Exists fn main := by
  have hdel : ⟨fn, .del⟩ ∉ t.items := by
    intro hdel
    rcases h.mem_items (mem_append_left _ hdel) with hchain | hparts
    · simpa using h.formed.chain.eq_of_fn_eq hadd hchain rfl
    · exact not_isObjectBucket_of_isPartsBucket hparts.2 hobject
  have hv : v.md5sum ≠ .tombstone := by
    have hrequested := h.formed.requested _ hadd
    generalize hi : (⟨fn, .add v⟩ : Item) = i at hrequested
    cases hrequested with
    | object hfn hv =>
      obtain ⟨rfl, hv'⟩ := Item.mk.inj hi
      rw [Action.add.inj hv']
      exact hv
    | marker hfn hversioned =>
      obtain ⟨rfl, -⟩ := Item.mk.inj hi
      rw [hversioned] at hunversioned
      simp at hunversioned
    | part hfn =>
      obtain ⟨rfl, -⟩ := Item.mk.inj hi
      rcases hfn with hfn | hfn
      · exact absurd hfn (not_isPartialUploadsBucket_of_isObjectBucket hobject)
      · exact absurd hobject (not_isObjectBucket_of_isPartsBucket hfn)
    | _ => simp at hi
  have hmem : ⟨fn, .add v⟩ ∈ t.items := by
    obtain ⟨-, hnone, -⟩ | ⟨-, -, deletions, heq, -⟩ := h.outcome
    · exact absurd hnone hrun
    · rw [append_nil] at heq
      rw [heq]
      exact mem_append_left _ hadd
  obtain ⟨⟨i, before⟩, hi, hfst⟩ := mem_map.mp hmem
  simp only at hfst
  subst hfst
  obtain ⟨r₁, r₂, hsplit⟩ := append_of_mem hi
  rw [hsplit] at hmeets
  have hafter : Exists fn ((⟨fn, .add v⟩ : Item).applyMain before) := by
    refine ⟨v, ?_, hv⟩
    rw [OrderedMap.lookup_eq_some]
    simp [Item.applyMain]
  refine hmeets.after.preserves hafter fun i hi => ?_
  apply h.exists_applyMain hobject hunversioned hdel
  simp only [Taken.items, hsplit, map_append, map_cons,
    mem_append, mem_cons]
  exact .inr (.inr hi)

/-- Of two writes that ask for the object not to exist, one fails, unless the
object is deleted in between. -/
theorem deleted_between {past l₁ l₂ l₃ : List Taken} {t₁ t₂ : Taken}
    (hlinear : Leads OrderedMap.empty past main)
    (hpast : past = l₁ ++ t₁ :: (l₂ ++ t₂ :: l₃)) (ht₁ : t₁.queued.Formed cfg)
    (hsound : ∀ t ∈ l₂ ++ t₂ :: l₃, t.Sound cfg [])
    (hcreates₁ : t₁.queued.Creates fn)
    (hpass₁ : Store.passes t₁.checked t₁.queued = true)
    (hcreates₂ : t₂.queued.Creates fn) (hrun₂ : t₂.run ≠ []) :
    ∃ t ∈ l₂, ⟨fn, .del⟩ ∈ t.items := by
  by_contra hnone
  have hnone : ∀ t ∈ l₂, ⟨fn, .del⟩ ∉ t.items := by simpa using hnone
  subst hpast
  obtain ⟨_, -, -, hlinear⟩ := hlinear.split
  obtain ⟨mid, hl₂, hmeets, -⟩ := hlinear.split
  obtain ⟨v, hadd⟩ := hcreates₂.2
  have hmid : Exists fn mid :=
    (hsound t₂ (by simp)).exists_of_add hobject hunversioned hmeets hrun₂ hadd
  have hchecked : Exists fn t₁.checked := by
    refine hl₂.preserves hmid fun t ht => ?_
    exact (hsound t (mem_append_left _ ht)).exists_applyMain hobject
      hunversioned (hnone t ht)
  rw [ht₁.not_passes hcreates₁ hobject hunversioned hchecked] at hpass₁
  simp at hpass₁

end Creates

/-! ## Every run -/

namespace History

structure Good (cfg : Config) (h : History) : Prop where
  inv : h.Inv cfg
  counted : h.server.store.Counted
  balanced : h.Balanced

theorem good_init (cfg : Config) : Good cfg init where
  inv := inv_init cfg
  counted := fun _ => rfl
  balanced := fun _ => rfl

theorem good_of_run {cfg : Config} {h : History}
    (hrun : Run (step cfg) anyStep init h) : h.Good cfg := by
  refine hrun.invariant (good_init cfg) ?_
  intro h ev h' hgood _ hstep
  have hrec := step_recorded hstep
  exact
    { inv := hgood.inv.step hrec
      counted := hrec.steps.counted hgood.counted
      balanced := hgood.balanced.step hgood.inv hrec }

/-- The items on the callback queue that belong to an item of the past. -/
def pendingOf (h : History) (newer : List Taken) : List Item :=
  if newer = [] then h.server.store.pendingCallbacks else []

theorem Inv.sound_of_append {cfg : Config} {h : History} (hinv : h.Inv cfg)
    {newer older : List Taken} (hpast : h.past = newer ++ t :: older) :
    t.Sound cfg (h.pendingOf newer) := by
  cases newer with
  | nil => exact hinv.latest t older hpast
  | cons t₀ newer =>
    exact hinv.older t₀ (newer ++ t :: older) hpast t (by simp)

theorem Good.store_of_fail {cfg : Config} {h h' : History} (hgood : h.Good cfg)
    {rest : List (Queued Task)} (hidle : h.server.store.callbackQueue = [])
    (hqueue : h.server.store.commitQueue = q :: rest)
    (hfail : Store.passes h.server.store.main q = false)
    (hstep : h.step cfg .process = some h') :
    h'.server.store = { h.server.store with
      commitQueue := rest
      commitItems := fun name => commitItemCount name
        (rest.flatMap fun q => q.chain.items) } := by
  have hrec := step_recorded hstep
  have hcounted := hrec.steps.counted hgood.counted
  obtain ⟨c, cs, hcallback, -⟩ | ⟨q', rest', -, hqueue', hround⟩ :=
    hrec.steps.process
  · simp [hidle] at hcallback
  · rw [hqueue] at hqueue'
    obtain ⟨rfl, rfl⟩ := List.cons.inj hqueue'
    obtain ⟨hpass, -⟩ | ⟨-, hmain, hfm, hcallbacks, hcommit⟩ := hround
    · simp [hfail] at hpass
    · have hitems : h'.server.store.commitItems = fun name =>
          (commitItemCount name (rest.flatMap fun q => q.chain.items) : ℤ) := by
        funext name
        rw [hcounted name, Store.pendingItems, hcallbacks, hidle, hcommit]
        rfl
      generalize h'.server.store = store at hmain hfm hcallbacks hcommit hitems
      obtain ⟨main, fm, commitQueue, callbackQueue, commitItems⟩ := store
      simp only at hmain hfm hcallbacks hcommit hitems
      rw [hmain, hfm, hcallbacks, hcommit, hitems]

def twoCreates : List Event :=
  [.putObject 1 [97] [⟨4096, 10⟩] 0 [1] ⟨none, false⟩ { ifNoneMatch := star },
    .putObject 1 [97] [⟨8192, 10⟩] 0 [2] ⟨none, false⟩
      { ifNoneMatch := star },
    .queue 0 0, .queue 1 0, .process, .process]

end History

end Hs5.S3
