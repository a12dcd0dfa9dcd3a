import Hs5.S3.Formed

/-!
# What a server stores and is going to store

An entry is looked at only as far as ids go: its key, and the upload that the
parts of an object belong to.  A server names such an entry if its main map
has it, if an item on a queue adds it, or if a request is going to queue such
an item.  A step of the server names nothing new, except what a request that
starts is going to store.
-/

namespace Hs5.S3

open List OrderedMap

@[simp] theorem Metadata.uploadId?_setObjMetadata (m : ObjMetadata)
    (md5sum : Metadata) :
    (md5sum.setObjMetadata m).uploadId? = md5sum.uploadId? := by
  cases md5sum <;> rfl

@[simp] theorem uploadId?_onModifyCallback (md5sum : Metadata)
    (parts : List PartExt) :
    (onModifyCallback md5sum parts).uploadId? = md5sum.uploadId? := by
  unfold onModifyCallback
  split
  · rfl
  · rfl

abbrev Ids := KeyInfo × Option ℤ

def idsOf (p : KeyInfo × Entry) : Ids := (p.1, p.2.md5sum.uploadId?)

def mainAdds (main : OrderedMap KeyInfo Entry) : List Ids :=
  main.entries.map idsOf

variable {main : OrderedMap KeyInfo Entry}

theorem mem_mainAdds {x : Ids} :
    x ∈ mainAdds main ↔ ∃ p ∈ main, idsOf p = x :=
  mem_map

/-! ## Items and requests -/

def Item.adds (i : Item) : List Ids :=
  match i.action with
  | .add v => [idsOf (i.fn, v)]
  | _ => []

def Chain.adds (c : Chain) : List Ids :=
  c.item.adds ++ c.linked.flatMap Item.adds

def Task.adds : Task → List Ids
  | putObject fn v _ => [idsOf (fn, v)]
  | createMultipartUpload fn v => [idsOf (fn, v)]
  | putObjectPart upload partNumber v =>
    [idsOf (partKey upload.bucketId upload.version partNumber, v)]
  | completeMultipartUpload upload object _ _ _ _ _ _ =>
    [(object, some upload.version)]
  | deleteMarker fn _ => [(fn, none)]
  | abortMultipartUpload _ | deleteVersion _ _ _ | modifyMetadata _ _ => []

theorem mem_adds_of_mem_applyMain {i : Item} {x : Ids}
    (h : x ∈ mainAdds (i.applyMain main)) : x ∈ mainAdds main ∨ x ∈ i.adds := by
  obtain ⟨p, hp, rfl⟩ := mem_mainAdds.mp h
  have hold : p ∈ main → idsOf p ∈ mainAdds main := fun hp =>
    mem_mainAdds.mpr ⟨p, hp, rfl⟩
  have hchanged : ∀ {e e' : Entry}, main.lookup i.fn = some e →
      e'.md5sum.uploadId? = e.md5sum.uploadId? →
      p ∈ main.insert i.fn e' → idsOf p ∈ mainAdds main := by
    intro e e' hlook hsame hp
    rcases mem_insert.mp hp with rfl | ⟨hp, -⟩
    · refine mem_mainAdds.mpr ⟨_, lookup_eq_some.mp hlook, ?_⟩
      simp [idsOf, hsame]
    · exact hold hp
  unfold Item.applyMain at hp
  split at hp
  · rename_i v hadd
    rcases mem_insert.mp hp with rfl | ⟨hp, -⟩
    · exact .inr (by simp [Item.adds, hadd])
    · exact .inl (hold hp)
  · exact .inl (hold (mem_erase.mp hp).1)
  · exact .inl (hold (mem_erase.mp hp).1)
  · split at hp
    · exact .inl (hold hp)
    · rename_i e hlook
      exact .inl (hchanged hlook (by simp) hp)
  · split at hp
    · exact .inl (hold hp)
    · rename_i e hlook
      split at hp
      · exact .inl (hold hp)
      · rename_i hmodify
        obtain ⟨m, rfl⟩ := onModifyMetadataCallback_ok hmodify
        exact .inl (hchanged hlook (by simp) hp)
  · exact .inl (hold hp)

theorem adds_callbacks {i j : Item}
    (h : j ∈ i.callbacks main) : (single j).adds = [] := by
  obtain ⟨-, -, hdel, -⟩ := mem_deleteActions (Item.mem_callbacks h)
  simp [Chain.adds, Item.adds, single, hdel]

theorem adds_next {c c' : Chain} {x : Ids} (hc' : c' ∈ c.next)
    (h : x ∈ c'.adds) : x ∈ c.adds := by
  obtain ⟨i, linked⟩ := c
  cases linked with
  | nil => simp [Chain.next] at hc'
  | cons j linked =>
    simp only [Chain.next, mem_singleton] at hc'
    subst hc'
    exact mem_append_right _ h

theorem Task.adds_chain {cfg : Config} {task : Task} {now : ℤ} {c : Chain}
    {m : Option MatchInfo} (h : task.chain cfg now = some (c, m)) :
    c.adds = task.adds := by
  cases task with
  | completeMultipartUpload upload object toRead =>
    cases toRead with
    | nil =>
      obtain ⟨⟩ := h
      rfl
    | cons n toRead => cases h
  | putObject | createMultipartUpload | putObjectPart | abortMultipartUpload
  | deleteMarker | deleteVersion | modifyMetadata =>
    obtain ⟨⟩ := h
    rfl

/-! ## Servers -/

namespace Server

def adds (s : Server) : List Ids :=
  mainAdds s.store.main ++ (s.requests.entries.flatMap fun r => r.2.adds) ++
    (s.store.commitQueue.flatMap fun q => q.chain.adds) ++
    s.store.callbackQueue.flatMap Chain.adds

theorem mem_adds {s : Server} {x : Ids} :
    x ∈ s.adds ↔ x ∈ mainAdds s.store.main ∨
      (∃ r ∈ s.requests, x ∈ r.2.adds) ∨
      (∃ q ∈ s.store.commitQueue, x ∈ q.chain.adds) ∨
      ∃ c ∈ s.store.callbackQueue, x ∈ c.adds := by
  simp only [adds, mem_append, mem_flatMap, or_assoc, mem_def]

section Members

variable {s : Server} {x : Ids}

theorem mem_adds_of_main (h : x ∈ mainAdds s.store.main) : x ∈ s.adds :=
  mem_adds.mpr (.inl h)

theorem mem_adds_of_request {r : ℕ × Task} (hr : r ∈ s.requests)
    (h : x ∈ r.2.adds) : x ∈ s.adds :=
  mem_adds.mpr (.inr (.inl ⟨r, hr, h⟩))

theorem mem_adds_of_queued {q : Queued Task} (hq : q ∈ s.store.commitQueue)
    (h : x ∈ q.chain.adds) : x ∈ s.adds :=
  mem_adds.mpr (.inr (.inr (.inl ⟨q, hq, h⟩)))

theorem mem_adds_of_callback {c : Chain} (hc : c ∈ s.store.callbackQueue)
    (h : x ∈ c.adds) : x ∈ s.adds :=
  mem_adds.mpr (.inr (.inr (.inr ⟨c, hc, h⟩)))

end Members

/-- Running an item names nothing but what the item adds. -/
theorem mem_adds_of_ran {s : Server} {store store' : Store Task} {c : Chain}
    {x : Ids} (hran : store.Ran c store')
    (h : x ∈ Server.adds { s with store := store' }) :
    x ∈ Server.adds { s with store := store } ∨ x ∈ c.adds := by
  rcases mem_adds.mp h with hx | ⟨r, hr, hx⟩ | ⟨q, hq, hx⟩ | ⟨c', hc', hx⟩
  · rw [hran.main] at hx
    rcases mem_adds_of_mem_applyMain hx with hx | hx
    · exact .inl (mem_adds_of_main hx)
    · exact .inr (mem_append_left _ hx)
  · exact .inl (mem_adds_of_request hr hx)
  · rw [hran.commitQueue] at hq
    exact .inl (mem_adds_of_queued hq hx)
  · rw [hran.callbackQueue] at hc'
    rcases mem_append.mp hc' with hc' | hc'
    · rcases mem_append.mp hc' with hc' | hc'
      · exact .inl (mem_adds_of_callback hc' hx)
      · exact .inr (adds_next hc' hx)
    · obtain ⟨j, hj, rfl⟩ := mem_map.mp hc'
      simp [adds_callbacks hj] at hx

theorem mem_adds_of_subset {s : Server} {store : Store Task} {x : Ids}
    (h : x ∈ Server.adds { s with store := store })
    (hmain : store.main = s.store.main)
    (hqueue : store.commitQueue ⊆ s.store.commitQueue)
    (hcallbacks : store.callbackQueue ⊆ s.store.callbackQueue) :
    x ∈ s.adds := by
  rcases mem_adds.mp h with hx | ⟨r, hr, hx⟩ | ⟨q, hq, hx⟩ | ⟨c, hc, hx⟩
  · rw [hmain] at hx
    exact mem_adds_of_main hx
  · exact mem_adds_of_request hr hx
  · exact mem_adds_of_queued (hqueue hq) hx
  · exact mem_adds_of_callback (hcallbacks hc) hx

theorem mem_adds_of_enqueue {s : Server} {q : Queued Task} {x : Ids}
    (h : x ∈ Server.adds { s with store := s.store.enqueue q }) :
    x ∈ s.adds ∨ x ∈ q.chain.adds := by
  rcases mem_adds.mp h with hx | ⟨r, hr, hx⟩ | ⟨q', hq', hx⟩ | ⟨c, hc, hx⟩
  · exact .inl (mem_adds_of_main hx)
  · exact .inl (mem_adds_of_request hr hx)
  · rcases mem_append.mp hq' with hq' | hq'
    · exact .inl (mem_adds_of_queued hq' hx)
    · obtain rfl := mem_singleton.mp hq'
      exact .inr hx
  · exact .inl (mem_adds_of_callback hc hx)

theorem mem_adds_of_requests {s : Server} {requests : OrderedMap ℕ Task}
    {x : Ids} (h : x ∈ Server.adds { s with requests := requests }) :
    x ∈ s.adds ∨ ∃ r ∈ requests, x ∈ r.2.adds := by
  rcases mem_adds.mp h with hx | hx | ⟨q, hq, hx⟩ | ⟨c, hc, hx⟩
  · exact .inl (mem_adds_of_main hx)
  · exact .inr hx
  · exact .inl (mem_adds_of_queued hq hx)
  · exact .inl (mem_adds_of_callback hc hx)

theorem mem_adds_of_erase {s : Server} {ticket : ℕ} {x : Ids}
    (h : x ∈ Server.adds
      { s with requests := s.requests.erase ticket }) : x ∈ s.adds := by
  rcases mem_adds_of_requests h with hx | ⟨r, hr, hx⟩
  · exact hx
  · exact mem_adds_of_request (mem_erase.mp hr).1 hx

theorem Steps.mem_adds {cfg : Config} {s s' : Server} {ev : Event} {x : Ids}
    (hstep : Steps cfg s ev s') (h : x ∈ s'.adds) :
    x ∈ s.adds ∨ ∃ bucketId s₁ task, ev.bucketId? = some bucketId ∧
      isObjectBucket bucketId ∧ Opens cfg s ev s₁ task ∧
      s' = s₁.start task ∧ x ∈ task.adds := by
  cases hstep with
  | @start ev bucketId s₁ task hbucket hobject hopen =>
    obtain ⟨hstore, hrequests, -, -⟩ := hopen.store_eq
    rcases Server.mem_adds.mp h with
      hx | ⟨r, hr, hx⟩ | ⟨q, hq, hx⟩ | ⟨c, hc, hx⟩
    · rw [Server.start, hstore] at hx
      exact .inl (mem_adds_of_main hx)
    · rcases mem_insert.mp hr with rfl | ⟨hr, -⟩
      · exact .inr ⟨bucketId, s₁, task, hbucket, hobject, hopen, rfl, hx⟩
      · rw [hrequests] at hr
        exact .inl (mem_adds_of_request hr hx)
    · rw [Server.start, hstore] at hq
      exact .inl (mem_adds_of_queued hq hx)
    · rw [Server.start, hstore] at hc
      exact .inl (mem_adds_of_callback hc hx)
  | readPart hrequest hpart =>
    left
    rcases mem_adds_of_requests h with hx | ⟨r, hr, hx⟩
    · exact hx
    · rcases mem_insert.mp hr with rfl | ⟨hr, -⟩
      · exact mem_adds_of_request hrequest hx
      · exact mem_adds_of_request hr hx
  | @queue ticket now task chain matchInfo hrequest hchain =>
    left
    rcases mem_adds_of_enqueue
        (s := { s with requests := s.requests.erase ticket }) h with hx | hx
    · exact mem_adds_of_erase hx
    · rw [Task.adds_chain hchain] at hx
      exact mem_adds_of_request hrequest hx
  | giveUp hrequest => exact .inl (mem_adds_of_erase h)
  | callback hqueue hran =>
    left
    rcases mem_adds_of_ran hran h with hx | hx
    · refine mem_adds_of_subset hx rfl (List.Subset.refl _) ?_
      rw [hqueue]
      exact subset_cons_self _ _
    · refine mem_adds_of_callback ?_ hx
      rw [hqueue]
      exact mem_cons_self
  | passed hcallback hqueue hpass hran =>
    left
    rcases mem_adds_of_ran hran h with hx | hx
    · refine mem_adds_of_subset hx rfl ?_ (List.Subset.refl _)
      rw [hqueue]
      exact subset_cons_self _ _
    · refine mem_adds_of_queued ?_ hx
      rw [hqueue]
      exact mem_cons_self
  | @dropped q rest m s' hcallback hqueue hm hfail hs' =>
    left
    have hx : x ∈ s'.adds := by
      revert h
      split
      · exact id
      · exact id
    subst hs'
    refine mem_adds_of_subset hx rfl ?_ (List.Subset.refl _)
    rw [hqueue]
    exact subset_cons_self _ _
  | @freeExtents index exts hexts =>
    left
    rcases mem_adds_of_enqueue
        (s := { s with refused := s.refused.eraseIdx index }) h with hx | hx
    · exact hx
    · simp [Chain.adds, Item.adds] at hx

end Server

end Hs5.S3
