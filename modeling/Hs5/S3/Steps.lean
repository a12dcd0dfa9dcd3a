import Hs5.S3.Server

/-!
# What a step of the server does

`Server.Steps` lists the ways in which a step can go, each with the facts that
the code has checked on the way.  The invariants of later modules are proved
by cases over this list.
-/

namespace Hs5.S3

open Option

namespace Server

/-- The upload record that a request has found. -/
def HasUpload (s : Server) (upload : KeyInfo) : Prop :=
  ∃ e nonce objMetadata parts, (upload, e) ∈ s.store.main ∧
    e.md5sum = .upload nonce objMetadata parts

theorem hasUpload_of_readUpload {s : Server} {upload : KeyInfo}
    {nonce : Bytes} {objMetadata : ObjMetadata}
    (h : s.readUpload upload nonce = some objMetadata) :
    s.HasUpload upload := by
  unfold readUpload at h
  split at h
  · rename_i hlook
    exact ⟨_, _, _, _, OrderedMap.lookup_eq_some.mp hlook, rfl⟩
  · simp at h

/-- How a request starts: the server once its numbers are drawn, and what the
request is about to do. -/
inductive Opens (cfg : Config) (s : Server) : Event → Server → Task → Prop
  | putObject {bucketId key extents lastModified md5 objMetadata headers} :
      Opens cfg s
        (.putObject bucketId key extents lastModified md5 objMetadata headers)
        (s.drawVersion cfg bucketId).1
        (.putObject ⟨bucketId, key, (s.drawVersion cfg bucketId).2⟩
          ⟨storedExtents extents, lastModified, .object md5 objMetadata⟩
          (parseMatchInfo headers false false))
  | createMultipartUpload {bucketId key nonce objMetadata lastModified}
      (hid : s.currPartid + 1 < 2 ^ 63) :
      Opens cfg s
        (.createMultipartUpload bucketId key nonce objMetadata lastModified)
        { s with currPartid := s.currPartid + 1 }
        (.createMultipartUpload (uploadKey bucketId key (s.currPartid + 1))
          ⟨[⟨0, 0⟩], lastModified, .upload nonce objMetadata []⟩)
  | putObjectPart {bucketId key uploadId nonce partNumber extents
      lastModified md5}
      (hid : 0 < uploadId) (hpart : 0 < partNumber ∧ partNumber ≤ 10000)
      (hupload : s.HasUpload (uploadKey bucketId key uploadId)) :
      Opens cfg s
        (.putObjectPart bucketId key uploadId nonce partNumber extents
          lastModified md5) s
        (.putObjectPart (uploadKey bucketId key uploadId) partNumber
          ⟨storedExtents extents, lastModified, .object md5 ⟨none, false⟩⟩)
  | completeMultipartUpload {bucketId key uploadId nonce parts md5
      objMetadata lastModified headers}
      (hid : 0 < uploadId) (hparts : parts.Pairwise (· < ·))
      (hupload : s.HasUpload (uploadKey bucketId key uploadId)) :
      Opens cfg s
        (.completeMultipartUpload bucketId key uploadId nonce parts md5
          lastModified headers)
        (s.drawVersion cfg bucketId).1
        (.completeMultipartUpload (uploadKey bucketId key uploadId)
          ⟨bucketId, key, (s.drawVersion cfg bucketId).2⟩ parts [] md5
          objMetadata lastModified (parseMatchInfo headers false false))
  | abortMultipartUpload {bucketId key uploadId nonce} (hid : 0 < uploadId)
      (hupload : s.HasUpload (uploadKey bucketId key uploadId)) :
      Opens cfg s (.abortMultipartUpload bucketId key uploadId nonce) s
        (.abortMultipartUpload (uploadKey bucketId key uploadId))
  | deleteMarker {bucketId key headers bypassGovernance}
      (hversioned : cfg.withVersioning bucketId = true) :
      Opens cfg s (.deleteObject bucketId key 0 headers bypassGovernance)
        (s.drawVersion cfg bucketId).1
        (.deleteMarker ⟨bucketId, key, (s.drawVersion cfg bucketId).2⟩
          (parseMatchInfo headers true true))
  | deleteVersion {bucketId key version headers bypassGovernance} :
      Opens cfg s (.deleteObject bucketId key version headers bypassGovernance)
        s
        (.deleteVersion ⟨bucketId, key, version⟩
          (parseMatchInfo headers true true) bypassGovernance)
  | putObjectLegalHold {bucketId key version legalHold fn}
      (hlock : cfg.objectLockEnabled bucketId = true)
      (hfn : s.modifiedKey cfg bucketId key version = some fn) :
      Opens cfg s (.putObjectLegalHold bucketId key version legalHold) s
        (.modifyMetadata fn (.legalHold legalHold))
  | putObjectRetention {bucketId key version data now param fn}
      (hparam : finalizePutObjectRetention data now
        (cfg.objectLockEnabled bucketId) = .ok param)
      (hfn : s.modifiedKey cfg bucketId key version = some fn) :
      Opens cfg s (.putObjectRetention bucketId key version data now) s
        (.modifyMetadata fn (.retention param))

theorem startRequest_opens {cfg : Config} {s s' : Server} {ev : Event}
    (h : s.startRequest cfg ev = some s') :
    ∃ s₁ task, Opens cfg s ev s₁ task ∧ s' = s₁.start task := by
  unfold startRequest at h
  split at h
  · cases h
    exact ⟨_, _, Opens.putObject, rfl⟩
  · simp only [ite_none_right_eq_some, Option.some.injEq] at h
    obtain ⟨hid, rfl⟩ := h
    exact ⟨_, _, Opens.createMultipartUpload hid, rfl⟩
  · simp only [ite_none_right_eq_some, Option.some.injEq] at h
    obtain ⟨⟨hid, hlo, hhi, hupload⟩, rfl⟩ := h
    obtain ⟨_, hread⟩ := isSome_iff_exists.mp hupload
    exact ⟨_, _, Opens.putObjectPart hid ⟨hlo, hhi⟩
      (hasUpload_of_readUpload hread), rfl⟩
  · simp only [ite_none_right_eq_some, map_eq_some_iff] at h
    obtain ⟨⟨hid, hparts⟩, objMetadata, hread, rfl⟩ := h
    exact ⟨_, _, Opens.completeMultipartUpload hid hparts
      (hasUpload_of_readUpload hread), rfl⟩
  · simp only [ite_none_right_eq_some, Option.some.injEq] at h
    obtain ⟨⟨hid, hupload⟩, rfl⟩ := h
    obtain ⟨_, hread⟩ := isSome_iff_exists.mp hupload
    exact ⟨_, _, Opens.abortMultipartUpload hid
      (hasUpload_of_readUpload hread), rfl⟩
  · split at h
    · rename_i hversion
      obtain ⟨hversioned, rfl⟩ := hversion
      simp only [ite_none_right_eq_some, Option.some.injEq] at h
      obtain ⟨-, rfl⟩ := h
      exact ⟨_, _, Opens.deleteMarker hversioned, rfl⟩
    · cases h
      exact ⟨_, _, Opens.deleteVersion, rfl⟩
  · simp only [ite_none_right_eq_some, map_eq_some_iff] at h
    obtain ⟨hlock, fn, hfn, rfl⟩ := h
    exact ⟨_, _, Opens.putObjectLegalHold hlock hfn, rfl⟩
  · split at h
    · simp at h
    · rename_i hparam
      obtain ⟨fn, hfn, rfl⟩ := map_eq_some_iff.mp h
      exact ⟨_, _, Opens.putObjectRetention hparam hfn, rfl⟩
  · simp at h

inductive Steps (cfg : Config) (s : Server) : Event → Server → Prop
  | start {ev bucketId s₁ task} (hbucket : ev.bucketId? = some bucketId)
      (hobject : isObjectBucket bucketId) (hopen : Opens cfg s ev s₁ task) :
      Steps cfg s ev (s₁.start task)
  | readPart {ticket upload object n toRead read md5 objMetadata lastModified
      m e}
      (hrequest : (ticket, .completeMultipartUpload upload object
        (n :: toRead) read md5 objMetadata lastModified m) ∈ s.requests)
      (hpart : (partKey upload.bucketId upload.version n, e) ∈ s.store.main) :
      Steps cfg s (.readPart ticket)
        { s with
          requests := s.requests.insert ticket
            (.completeMultipartUpload upload object toRead
              (read ++ [(n, e.totalLen)]) md5 objMetadata lastModified m) }
  | queue {ticket now task chain matchInfo}
      (hrequest : (ticket, task) ∈ s.requests)
      (hchain : task.chain cfg now = some (chain, matchInfo)) :
      Steps cfg s (.queue ticket now)
        { s with
          requests := s.requests.erase ticket
          store := s.store.enqueue ⟨chain, matchInfo, some task⟩ }
  | giveUp {ticket task} (hrequest : (ticket, task) ∈ s.requests) :
      Steps cfg s (.giveUp ticket)
        ({ s with requests := s.requests.erase ticket }.refuse task)
  | callback {c rest store} (hqueue : s.store.callbackQueue = c :: rest)
      (hran : (s.store.popCallback c rest).Ran c store) :
      Steps cfg s .process { s with store := store }
  | passed {q rest store} (hcallback : s.store.callbackQueue = [])
      (hqueue : s.store.commitQueue = q :: rest)
      (hpass : Store.passes s.store.main q = true)
      (hran : (s.store.popQueued q rest).Ran q.chain store) :
      Steps cfg s .process { s with store := store }
  | dropped {q rest m s'} (hcallback : s.store.callbackQueue = [])
      (hqueue : s.store.commitQueue = q :: rest) (hm : q.matchInfo = some m)
      (hfail :
        (fragInfoMatches s.store.main q.chain.item.fn m).isMatch = false)
      (hs' : s' = { s with
        store :=
          { s.store.popQueued q rest with
            commitItems := countItems (-1) q.chain.linked
              (s.store.popQueued q rest).commitItems } }) :
      Steps cfg s .process
        (match q.request with
        | some task => s'.refuse task
        | none => s')
  | freeExtents {index exts} (hexts : s.refused[index]? = some exts) :
      Steps cfg s (.freeExtents index)
        { s with
          refused := s.refused.eraseIdx index
          store := s.store.enqueue
            ⟨⟨{ action := .freeExtents exts }, []⟩, none, none⟩ }

theorem process_steps {cfg : Config} {s s' : Server}
    (h : s.process = some s') : Steps cfg s .process s' := by
  obtain ⟨⟨store, out⟩, hprocess, rfl⟩ := map_eq_some_iff.mp h
  obtain ⟨hqueue, hran⟩ | ⟨hcallback, hqueue, hpass, hran, hans⟩ |
    ⟨hcallback, hqueue, hm, hfail⟩ := Store.process_round hprocess
  · exact Steps.callback hqueue hran
  · rename_i q rest ans
    have hsame : Server.answer { s with store := store } q ans =
        { s with store := store } := by
      unfold answer
      split
      · rename_i result hreq
        rw [if_pos (hans result rfl)]
      · rfl
    simp only [hsame]
    exact Steps.passed hcallback hqueue hpass hran
  · rename_i q rest m
    have hstep : Steps cfg s .process _ :=
      Steps.dropped hcallback hqueue hm hfail rfl
    cases hreq : q.request with
    | none => simpa [answer, hreq] using hstep
    | some task => simpa [answer, hreq, hfail] using hstep

theorem step_steps {cfg : Config} {s s' : Server} {ev : Event}
    (h : s.step cfg ev = some s') : Steps cfg s ev s' := by
  unfold step at h
  split at h
  · rename_i ticket
    unfold readPart at h
    split at h
    · rename_i hlook
      obtain ⟨e, he, rfl⟩ := map_eq_some_iff.mp h
      exact Steps.readPart (OrderedMap.lookup_eq_some.mp hlook)
        (OrderedMap.lookup_eq_some.mp he)
    · simp at h
  · unfold queue at h
    split at h
    · simp at h
    · rename_i task hlook
      obtain ⟨⟨chain, matchInfo⟩, hchain, rfl⟩ := map_eq_some_iff.mp h
      exact Steps.queue (OrderedMap.lookup_eq_some.mp hlook) hchain
  · obtain ⟨task, hlook, rfl⟩ := map_eq_some_iff.mp h
    exact Steps.giveUp (OrderedMap.lookup_eq_some.mp hlook)
  · exact process_steps h
  · obtain ⟨exts, hexts, rfl⟩ := map_eq_some_iff.mp h
    exact Steps.freeExtents hexts
  · simp only [ite_none_right_eq_some] at h
    obtain ⟨⟨bucketId, hbucket, hobject⟩, h⟩ := h
    obtain ⟨s₁, task, hopen, rfl⟩ := startRequest_opens h
    exact Steps.start hbucket hobject hopen

end Server

end Hs5.S3
