import Hs5.S3.Steps

/-!
# Well-formed servers

Objects, upload records and parts live in buckets of their own, and requests
only ever write entries of the kind that belongs to the bucket.  The callback
queue holds either a single item that was linked to the last item of the
commit queue, or deletions of parts.  Both hold in every run.
-/

namespace Hs5.S3

open List OrderedMap

/-! ## Entries -/

def isPartsBucket (bucketId : ℤ) : Prop := bucketId % 4 = 3

variable {main : OrderedMap KeyInfo Entry} {bucketId : ℤ} {cfg : Config}
  {ev : Event} {c : Chain}

theorem isPartialUploadsBucket_uploadKey (key : Bytes) (uploadId : ℤ)
    (h : isObjectBucket bucketId) :
    isPartialUploadsBucket (uploadKey bucketId key uploadId).bucketId := by
  simp only [isObjectBucket, isPartialUploadsBucket, uploadKey,
    getPartialUploadsBucket] at h ⊢
  omega

theorem isPartsBucket_partKey (uploadId partNumber : ℤ)
    (h : isPartialUploadsBucket bucketId) :
    isPartsBucket (partKey bucketId uploadId partNumber).bucketId := by
  simp only [isPartsBucket, isPartialUploadsBucket, partKey] at h ⊢
  omega

theorem isPartsBucket_getPartsBucket (h : isObjectBucket bucketId) :
    isPartsBucket (getPartsBucket bucketId) := by
  simp only [isPartsBucket, isObjectBucket, getPartsBucket] at h ⊢
  omega

theorem not_isPartialUploadsBucket_of_isObjectBucket
    (h : isObjectBucket bucketId) : ¬ isPartialUploadsBucket bucketId := by
  simp only [isPartialUploadsBucket, isObjectBucket] at h ⊢
  omega

theorem not_isPartialUploadsBucket_of_isPartsBucket
    (h : isPartsBucket bucketId) : ¬ isPartialUploadsBucket bucketId := by
  simp only [isPartialUploadsBucket, isPartsBucket] at h ⊢
  omega

theorem not_isObjectBucket_of_isPartsBucket
    (h : isPartsBucket bucketId) : ¬ isObjectBucket bucketId := by
  simp only [isObjectBucket, isPartsBucket] at h ⊢
  omega

def Metadata.Fits (bucketId : ℤ) : Metadata → Prop
  | .object _ _ => isObjectBucket bucketId ∨ isPartsBucket bucketId
  | .multipartObject _ _ _ _ _ => isObjectBucket bucketId
  | .tombstone => isObjectBucket bucketId
  | .upload _ _ _ => isPartialUploadsBucket bucketId

def MainFits (main : OrderedMap KeyInfo Entry) : Prop :=
  ∀ p ∈ main, p.2.md5sum.Fits p.1.bucketId

theorem deleteActions_parts (hmain : MainFits main) {fn : KeyInfo} {j : Item}
    (h : j ∈ deleteActions main fn) :
    j.action = .del ∧ isPartsBucket j.fn.bucketId := by
  obtain ⟨e, he, hdel, hfn⟩ := mem_deleteActions h
  have hfits := hmain _ he
  refine ⟨hdel, ?_⟩
  unfold onDeleteCallback partKeys at hfn
  split at hfn
  · rename_i hbucket
    split at hfn
    · obtain ⟨n, -, hn⟩ := mem_map.mp hfn
      rw [← hn]
      exact isPartsBucket_partKey fn.version n hbucket
    · simp at hfn
  · split at hfn
    · rename_i heq
      simp only [heq, Metadata.Fits] at hfits
      obtain ⟨n, -, hn⟩ := mem_map.mp hfn
      rw [← hn]
      exact isPartsBucket_getPartsBucket hfits
    · simp at hfn

theorem deleteActions_of_isPartsBucket (hmain : MainFits main) {fn : KeyInfo}
    (h : isPartsBucket fn.bucketId) : deleteActions main fn = [] := by
  unfold deleteActions
  split
  · rfl
  · rename_i e hlook
    have hfits := hmain _ (lookup_eq_some.mp hlook)
    have hnot := not_isObjectBucket_of_isPartsBucket h
    have hcallback : onDeleteCallback fn e.md5sum = [] := by
      unfold onDeleteCallback
      rw [if_neg (not_isPartialUploadsBucket_of_isPartsBucket h)]
      split
      · rename_i heq
        simp only [heq, Metadata.Fits] at hfits
        exact absurd hfits hnot
      · rfl
    simp [hcallback]

/-! ## Items -/

/-- An item writes what belongs into its bucket. -/
def Item.Formed (i : Item) : Prop :=
  match i.action with
  | .add v => v.md5sum.Fits i.fn.bucketId
  | _ => True

theorem onModifyCallback_fits {md5sum : Metadata} (parts : List PartExt)
    (h : md5sum.Fits bucketId) :
    (onModifyCallback md5sum parts).Fits bucketId := by
  unfold onModifyCallback
  split
  · exact h
  · exact h

theorem setObjMetadata_fits {md5sum : Metadata} (m : ObjMetadata)
    (h : md5sum.Fits bucketId) : (md5sum.setObjMetadata m).Fits bucketId := by
  cases md5sum <;> exact h

theorem onModifyMetadataCallback_ok {md5sum md5sum' : Metadata}
    {param : ModifyParam}
    (h : onModifyMetadataCallback md5sum param = .ok md5sum') :
    ∃ m, md5sum' = md5sum.setObjMetadata m := by
  unfold onModifyMetadataCallback at h
  split at h
  · cases h
  · split at h
    · exact ⟨_, (Except.ok.inj h).symm⟩
    · obtain ⟨_, -, h⟩ := bind_eq_ok h
      obtain ⟨_, -, h⟩ := bind_eq_ok h
      exact ⟨_, (Except.ok.inj h).symm⟩

theorem Item.Formed.mainFits {i : Item} (h : i.Formed)
    (hmain : MainFits main) : MainFits (i.applyMain main) := by
  intro p hp
  by_cases hkey : p.1 = i.fn
  · unfold applyMain at hp
    split at hp
    · rename_i v hadd
      rcases mem_insert.mp hp with rfl | ⟨-, hne⟩
      · simpa [Item.Formed, hadd] using h
      · exact absurd hkey hne
    · exact absurd hkey (mem_erase.mp hp).2
    · exact absurd hkey (mem_erase.mp hp).2
    · split at hp
      · exact hmain p hp
      · rename_i hlook
        rcases mem_insert.mp hp with rfl | ⟨-, hne⟩
        · exact onModifyCallback_fits _ (hmain _ (lookup_eq_some.mp hlook))
        · exact absurd hkey hne
    · split at hp
      · exact hmain p hp
      · rename_i hlook
        split at hp
        · exact hmain p hp
        · rename_i hmodify
          obtain ⟨m, rfl⟩ := onModifyMetadataCallback_ok hmodify
          rcases mem_insert.mp hp with rfl | ⟨-, hne⟩
          · exact setObjMetadata_fits _ (hmain _ (lookup_eq_some.mp hlook))
          · exact absurd hkey hne
    · exact hmain p hp
  · exact hmain p ((mem_applyMain_of_ne hkey).mp hp)

/-- The items that requests link to others: the object of a completion and
the part that an upload record gets. -/
inductive Item.Links : Item → Prop
  | add {fn : KeyInfo} {uploadId : ℤ} {read : List (ℤ × ℤ)} {md5 : Bytes}
      {objMetadata : ObjMetadata} {lastModified : ℤ}
      (hfn : isObjectBucket fn.bucketId) :
      Item.Links ⟨fn, .add (completedObject uploadId read md5 objMetadata
        lastModified)⟩
  | modifyData {fn : KeyInfo} {size partNumber : ℤ}
      (hfn : isPartialUploadsBucket fn.bucketId) :
      Item.Links ⟨fn, .modifyData [⟨size, partNumber, 1⟩]⟩

theorem Item.Links.formed {i : Item} (h : i.Links) : i.Formed := by
  cases h with
  | add hfn => exact hfn
  | modifyData hfn => trivial

/-- At most one item is linked to an item.  It is in another bucket then, and
the item itself asks for no deletions. -/
inductive Chain.Formed : Chain → Prop
  | alone {i : Item} (hi : i.Formed) : Chain.Formed ⟨i, []⟩
  | linked {i j : Item} (hi : i.Formed) (hj : j.Links)
      (hcallbacks : i.action = .delNoCallback ∨ isPartsBucket i.fn.bucketId)
      (hbucket : i.fn.bucketId ≠ j.fn.bucketId) : Chain.Formed ⟨i, [j]⟩

theorem Chain.Formed.item (h : c.Formed) : c.item.Formed := by
  cases h with
  | alone hi => exact hi
  | linked hi => exact hi

/-! ## Requests -/

/-- The key that a request writes an object to: a bucket with versioning gets
a new version. -/
structure Written (cfg : Config) (fn : KeyInfo) : Prop where
  object : isObjectBucket fn.bucketId
  versioned : cfg.withVersioning fn.bucketId = true → 0 < fn.version
  unversioned : cfg.withVersioning fn.bucketId = false → fn.version = 0

/-- Conditions of a request are on the entry that it concerns. -/
def Direct (m : Option MatchInfo) : Prop :=
  ∀ m', m = some m' → m'.readFn = none ∧ m'.readNewest = false

/-- What is known of a request from its start. -/
inductive Task.Formed (cfg : Config) : Task → Prop
  | putObject {fn : KeyInfo} {extents : List SPunchItem} {lastModified : ℤ}
      {md5 : Bytes} {objMetadata : ObjMetadata} {m : Option MatchInfo}
      (hfn : Written cfg fn) (hm : Direct m) :
      Task.Formed cfg
        (.putObject fn ⟨extents, lastModified, .object md5 objMetadata⟩ m)
  | createMultipartUpload {bucketId : ℤ} {key : Bytes} {uploadId : ℤ}
      {nonce : Bytes} {objMetadata : ObjMetadata} {lastModified : ℤ}
      (hbucket : isObjectBucket bucketId) :
      Task.Formed cfg
        (.createMultipartUpload (uploadKey bucketId key uploadId)
          ⟨[⟨0, 0⟩], lastModified, .upload nonce objMetadata []⟩)
  | putObjectPart {bucketId : ℤ} {key : Bytes} {uploadId partNumber : ℤ}
      {extents : List SPunchItem} {lastModified : ℤ} {md5 : Bytes}
      (hbucket : isObjectBucket bucketId) (hid : 0 < uploadId)
      (hpart : 0 < partNumber ∧ partNumber ≤ 10000) :
      Task.Formed cfg
        (.putObjectPart (uploadKey bucketId key uploadId) partNumber
          ⟨extents, lastModified, .object md5 ⟨none, false⟩⟩)
  | completeMultipartUpload {bucketId : ℤ} {key : Bytes}
      {uploadId version : ℤ} {toRead : List ℤ} {read : List (ℤ × ℤ)}
      {md5 : Bytes} {objMetadata : ObjMetadata} {lastModified : ℤ}
      {m : Option MatchInfo} (hfn : Written cfg ⟨bucketId, key, version⟩)
      (hid : 0 < uploadId) (hm : Direct m) :
      Task.Formed cfg
        (.completeMultipartUpload (uploadKey bucketId key uploadId)
          ⟨bucketId, key, version⟩ toRead read md5 objMetadata lastModified m)
  | abortMultipartUpload {bucketId : ℤ} {key : Bytes} {uploadId : ℤ}
      (hbucket : isObjectBucket bucketId) (hid : 0 < uploadId) :
      Task.Formed cfg (.abortMultipartUpload (uploadKey bucketId key uploadId))
  | deleteMarker {fn : KeyInfo} {m : Option MatchInfo} (hfn : Written cfg fn)
      (hversioned : cfg.withVersioning fn.bucketId = true) :
      Task.Formed cfg (.deleteMarker fn m)
  | deleteVersion {fn : KeyInfo} {m : Option MatchInfo}
      {bypassGovernance : Bool} (hfn : isObjectBucket fn.bucketId) :
      Task.Formed cfg (.deleteVersion fn m bypassGovernance)
  | modifyMetadata {fn : KeyInfo} {param : ModifyParam}
      (hfn : isObjectBucket fn.bucketId) :
      Task.Formed cfg (.modifyMetadata fn param)

theorem Task.Formed.chain {task : Task} (h : task.Formed cfg) {now : ℤ}
    {m : Option MatchInfo}
    (hchain : task.chain cfg now = some (c, m)) : c.Formed := by
  cases h with
  | putObject hfn =>
    obtain ⟨⟩ := hchain
    exact Chain.Formed.alone (.inl hfn.object)
  | createMultipartUpload hbucket =>
    obtain ⟨⟩ := hchain
    exact Chain.Formed.alone (isPartialUploadsBucket_uploadKey _ _ hbucket)
  | @putObjectPart bucketId key uploadId partNumber _ _ _ hbucket =>
    obtain ⟨⟩ := hchain
    have hupload := isPartialUploadsBucket_uploadKey key uploadId hbucket
    have hparts := isPartsBucket_partKey uploadId partNumber hupload
    exact Chain.Formed.linked (.inr hparts)
      (Item.Links.modifyData hupload) (.inr hparts) (by simp)
  | @completeMultipartUpload _ _ _ _ toRead _ _ _ _ _ hfn =>
    cases toRead with
    | nil =>
      obtain ⟨⟩ := hchain
      exact Chain.Formed.linked trivial (Item.Links.add hfn.object)
        (.inl rfl) (by simp [uploadKey, getPartialUploadsBucket])
    | cons n toRead => cases hchain
  | abortMultipartUpload hbucket hid | deleteVersion hfn | modifyMetadata hfn =>
    obtain ⟨⟩ := hchain
    exact Chain.Formed.alone trivial
  | deleteMarker hfn =>
    obtain ⟨⟩ := hchain
    exact Chain.Formed.alone hfn.object

theorem Server.written_drawVersion {s : Server} {b : ℤ} (key : Bytes)
    (hobject : isObjectBucket b) (hversion : 0 ≤ s.currVersion) :
    Written cfg ⟨b, key, (s.drawVersion cfg b).2⟩ := by
  refine ⟨hobject, ?_, ?_⟩
  · intro hversioned
    simp only at hversioned
    simp only [drawVersion, hversioned, if_true]
    omega
  · intro hversioned
    simp only at hversioned
    simp [drawVersion, hversioned]

theorem Server.Opens.formed {s s₁ : Server} {task : Task}
    (h : Server.Opens cfg s ev s₁ task) (hbucket : ev.bucketId? = some bucketId)
    (hobject : isObjectBucket bucketId) (hversion : 0 ≤ s.currVersion) :
    task.Formed cfg := by
  have hmodified : ∀ {b key version fn},
      s.modifiedKey cfg b key version = some fn → fn.bucketId = b := by
    intro b key version fn hfn
    unfold Server.modifiedKey at hfn
    split at hfn
    · obtain ⟨p, hp, rfl⟩ := Option.map_eq_some_iff.mp hfn
      have hbegins : p.1.commonPrefix = KeyInfo.commonPrefix ⟨b, key, 0⟩ := by
        simpa using find?_some hp
      exact congrArg Prod.fst hbegins
    · cases hfn
      rfl
  cases h with
  | putObject =>
    cases hbucket
    exact Task.Formed.putObject (s.written_drawVersion _ hobject hversion)
      fun _ => parseMatchInfo_some
  | createMultipartUpload hid =>
    cases hbucket
    exact Task.Formed.createMultipartUpload hobject
  | putObjectPart hid hpart =>
    cases hbucket
    exact Task.Formed.putObjectPart hobject hid hpart
  | completeMultipartUpload hid =>
    cases hbucket
    exact Task.Formed.completeMultipartUpload
      (s.written_drawVersion _ hobject hversion) hid
      fun _ => parseMatchInfo_some
  | abortMultipartUpload hid =>
    cases hbucket
    exact Task.Formed.abortMultipartUpload hobject hid
  | deleteMarker hversioned =>
    cases hbucket
    exact Task.Formed.deleteMarker
      (s.written_drawVersion _ hobject hversion) hversioned
  | deleteVersion =>
    cases hbucket
    exact Task.Formed.deleteVersion hobject
  | putObjectLegalHold _ hfn | putObjectRetention _ hfn =>
    cases hbucket
    exact Task.Formed.modifyMetadata (hmodified hfn ▸ hobject)

/-! ## Queues -/

/-- An item of the commit queue comes from a request, or returns extents. -/
inductive Queued.Formed (cfg : Config) : Queued Task → Prop
  | request {task : Task} {now : ℤ} {c : Chain} {m : Option MatchInfo}
      (htask : task.Formed cfg) (hchain : task.chain cfg now = some (c, m)) :
      Queued.Formed cfg ⟨c, m, some task⟩
  | freeExtents {exts : List SPunchItem} :
      Queued.Formed cfg ⟨⟨{ action := .freeExtents exts }, []⟩, none, none⟩

theorem Queued.Formed.chain {q : Queued Task}
    (h : q.Formed cfg) : q.chain.Formed := by
  cases h with
  | request htask hchain => exact htask.chain hchain
  | freeExtents => exact Chain.Formed.alone trivial

inductive CallbacksFormed : List Chain → Prop
  | deletions {fns : List KeyInfo}
      (hfns : ∀ fn ∈ fns, isPartsBucket fn.bucketId) :
      CallbacksFormed (fns.map fun fn => single ⟨fn, .del⟩)
  | linked {i : Item} (hi : i.Links) : CallbacksFormed [single i]

theorem CallbacksFormed.nil : CallbacksFormed [] :=
  @CallbacksFormed.deletions [] (by simp)

theorem callbacksFormed_callbacks (hmain : MainFits main) (i : Item) :
    CallbacksFormed ((i.callbacks main).map single) := by
  have hparts : ∀ j ∈ i.callbacks main,
      j.action = .del ∧ isPartsBucket j.fn.bucketId :=
    fun j hj => deleteActions_parts hmain (Item.mem_callbacks hj)
  have heq : (i.callbacks main).map single =
      ((i.callbacks main).map Item.fn).map fun fn => single ⟨fn, .del⟩ := by
    rw [map_map]
    apply map_congr_left
    intro j hj
    rw [Function.comp_apply, ← (hparts j hj).1]
  rw [heq]
  apply CallbacksFormed.deletions
  intro fn hfn
  obtain ⟨j, hj, rfl⟩ := mem_map.mp hfn
  exact (hparts j hj).2

theorem Chain.Formed.callbacksFormed (h : c.Formed) (hmain : MainFits main) :
    CallbacksFormed (c.next ++ (c.item.callbacks main).map single) := by
  cases h with
  | alone hi => exact callbacksFormed_callbacks hmain _
  | @linked i j hi hj hcallbacks hbucket =>
    have hnone : i.callbacks main = [] := by
      rcases hcallbacks with hdel | hparts
      · simp [Item.callbacks, hdel]
      · unfold Item.callbacks
        split
        · exact deleteActions_of_isPartsBucket hmain hparts
        · exact deleteActions_of_isPartsBucket hmain hparts
        · rfl
    simpa [Chain.next, hnone, single] using CallbacksFormed.linked hj

theorem CallbacksFormed.head {rest : List Chain}
    (h : CallbacksFormed (c :: rest)) :
    c.item.Formed ∧ c.linked = [] ∧
      ((rest = [] ∧ c.item.Links) ∨
        CallbacksFormed rest ∧ c.item.action = .del ∧
          isPartsBucket c.item.fn.bucketId) := by
  generalize hl : c :: rest = l at h
  cases h with
  | @deletions fns hfns =>
    cases fns with
    | nil => simp at hl
    | cons fn fns =>
      simp only [map_cons, List.cons.injEq] at hl
      obtain ⟨rfl, rfl⟩ := hl
      refine ⟨trivial, rfl, .inr ⟨?_, rfl, hfns fn (by simp)⟩⟩
      exact CallbacksFormed.deletions fun fn' hfn' =>
        hfns fn' (mem_cons_of_mem _ hfn')
  | linked hi =>
    simp only [List.cons.injEq] at hl
    obtain ⟨rfl, rfl⟩ := hl
    exact ⟨hi.formed, rfl, .inl ⟨rfl, hi⟩⟩

/-! ## Servers -/

namespace Server

structure Formed (cfg : Config) (s : Server) : Prop where
  main : MainFits s.store.main
  requests : ∀ r ∈ s.requests, r.2.Formed cfg
  queued : ∀ q ∈ s.store.commitQueue, q.Formed cfg
  callbacks : CallbacksFormed s.store.callbackQueue
  currVersion : 0 ≤ s.currVersion

theorem formed_init (cfg : Config) : Formed cfg init where
  main := by
    intro p hp
    exact absurd hp (not_mem_empty p)
  requests := by
    intro r hr
    exact absurd hr (not_mem_empty r)
  queued := by simp [init]
  callbacks := CallbacksFormed.nil
  currVersion := le_refl _

theorem Opens.store_eq {s s₁ : Server} {task : Task}
    (h : Opens cfg s ev s₁ task) :
    s₁.store = s.store ∧ s₁.requests = s.requests ∧
      s₁.nextTicket = s.nextTicket ∧ s₁.refused = s.refused := by
  have hdraw : ∀ b, (s.drawVersion cfg b).1.store = s.store ∧
      (s.drawVersion cfg b).1.requests = s.requests ∧
      (s.drawVersion cfg b).1.nextTicket = s.nextTicket ∧
      (s.drawVersion cfg b).1.refused = s.refused := by
    intro b
    unfold drawVersion
    split
    · exact ⟨rfl, rfl, rfl, rfl⟩
    · exact ⟨rfl, rfl, rfl, rfl⟩
  cases h with
  | putObject | completeMultipartUpload | deleteMarker => exact hdraw _
  | _ => exact ⟨rfl, rfl, rfl, rfl⟩

@[simp] theorem refuse_store (s : Server) (task : Task) :
    (s.refuse task).store = s.store := rfl

@[simp] theorem refuse_requests (s : Server) (task : Task) :
    (s.refuse task).requests = s.requests := rfl

@[simp] theorem refuse_currVersion (s : Server) (task : Task) :
    (s.refuse task).currVersion = s.currVersion := rfl

@[simp] theorem refuse_currPartid (s : Server) (task : Task) :
    (s.refuse task).currPartid = s.currPartid := rfl

@[simp] theorem refuse_refused (s : Server) (task : Task) :
    (s.refuse task).refused = s.refused ++ task.unused := rfl

theorem le_drawVersion (s : Server) (cfg : Config) (b : ℤ) :
    s.currVersion ≤ (s.drawVersion cfg b).1.currVersion ∧
      (s.drawVersion cfg b).1.currPartid = s.currPartid := by
  unfold drawVersion
  split
  · exact ⟨by simp, rfl⟩
  · exact ⟨le_refl _, rfl⟩

theorem Steps.counters_le {s s' : Server} (h : Steps cfg s ev s') :
    s.currVersion ≤ s'.currVersion ∧ s.currPartid ≤ s'.currPartid := by
  cases h with
  | start hbucket hobject hopen =>
    cases hopen with
    | putObject | completeMultipartUpload | deleteMarker =>
      have hdraw := s.le_drawVersion cfg
      exact ⟨(hdraw _).1, (hdraw _).2.ge⟩
    | createMultipartUpload =>
      exact ⟨le_refl _, by simp [Server.start]⟩
    | _ => exact ⟨le_refl _, le_refl _⟩
  | giveUp => simp
  | dropped _ _ _ _ hs' =>
    subst hs'
    split
    · simp
    · exact ⟨le_refl _, le_refl _⟩
  | _ => exact ⟨le_refl _, le_refl _⟩

theorem Formed.step {s s' : Server} (h : s.Formed cfg)
    (hstep : Steps cfg s ev s') : s'.Formed cfg := by
  have hversion := h.currVersion.trans hstep.counters_le.1
  cases hstep with
  | start hbucket hobject hopen =>
    obtain ⟨hstore, hrequests, -, -⟩ := hopen.store_eq
    constructor
    · simpa [Server.start, hstore] using h.main
    · intro r hr
      rcases mem_insert.mp hr with rfl | ⟨hr, -⟩
      · exact hopen.formed hbucket hobject h.currVersion
      · exact h.requests r (hrequests ▸ hr)
    · simpa [Server.start, hstore] using h.queued
    · simpa [Server.start, hstore] using h.callbacks
    · exact hversion
  | @readPart ticket upload object n toRead read md5 objMetadata
      lastModified m e hrequest hpart =>
    refine ⟨h.main, ?_, h.queued, h.callbacks, hversion⟩
    intro r hr
    rcases mem_insert.mp hr with rfl | ⟨hr, -⟩
    · have htask := h.requests _ hrequest
      generalize htoRead : n :: toRead = toRead' at htask
      cases htask with
      | completeMultipartUpload hfn hid hm =>
        exact Task.Formed.completeMultipartUpload hfn hid hm
    · exact h.requests r hr
  | queue hrequest hchain =>
    refine ⟨h.main, ?_, ?_, h.callbacks, hversion⟩
    · intro r hr
      exact h.requests r (mem_erase.mp hr).1
    · intro q hq
      rcases mem_append.mp hq with hq | hq
      · exact h.queued q hq
      · rw [mem_singleton.mp hq]
        exact Queued.Formed.request (h.requests _ hrequest) hchain
  | giveUp hrequest =>
    constructor
    · simpa using h.main
    · intro r hr
      rw [refuse_requests] at hr
      exact h.requests r (mem_erase.mp hr).1
    · simpa using h.queued
    · simpa using h.callbacks
    · exact hversion
  | @callback c rest store hqueue hran =>
    have hhead := h.callbacks
    rw [hqueue] at hhead
    obtain ⟨hitem, hlinked, hrest⟩ := hhead.head
    have hcallbacks := hran.callbackQueue
    simp only [Store.popCallback_callbackQueue, Chain.next, hlinked,
      append_nil] at hcallbacks
    refine ⟨?_, h.requests, ?_, ?_, hversion⟩
    · rw [hran.main]
      exact hitem.mainFits h.main
    · rw [hran.commitQueue]
      exact h.queued
    · rw [hcallbacks]
      rcases hrest with ⟨rfl, -⟩ | ⟨hrest, hdel, hparts⟩
      · exact callbacksFormed_callbacks h.main _
      · have hnone : c.item.callbacks s.store.main = [] := by
          simp [Item.callbacks, hdel,
            deleteActions_of_isPartsBucket h.main hparts]
        simpa [hnone] using hrest
  | @passed q rest store hcallback hqueue hpass hran =>
    have hq := h.queued q (by simp [hqueue])
    refine ⟨?_, h.requests, ?_, ?_, hversion⟩
    · rw [hran.main]
      exact hq.chain.item.mainFits h.main
    · rw [hran.commitQueue]
      intro q' hq'
      exact h.queued q' (by simp_all)
    · rw [hran.callbackQueue]
      simpa [hcallback] using hq.chain.callbacksFormed h.main
  | @dropped q rest m s' hcallback hqueue hm hfail hs' =>
    have hs'formed : s'.Formed cfg := by
      subst hs'
      refine ⟨h.main, h.requests, ?_, h.callbacks, h.currVersion⟩
      intro q' hq'
      exact h.queued q' (by simp_all)
    split
    · constructor
      · simpa using hs'formed.main
      · simpa using hs'formed.requests
      · simpa using hs'formed.queued
      · simpa using hs'formed.callbacks
      · simpa using hs'formed.currVersion
    · exact hs'formed
  | freeExtents hexts =>
    refine ⟨h.main, h.requests, ?_, h.callbacks, hversion⟩
    intro q hq
    rcases mem_append.mp hq with hq | hq
    · exact h.queued q hq
    · rw [mem_singleton.mp hq]
      exact Queued.Formed.freeExtents

end Server

end Hs5.S3
