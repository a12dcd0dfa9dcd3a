import Hs5.S3.Buckets
import Hs5.S3.FreshIds

/-!
# Buckets do not share ids

The ids of different buckets are different, and nothing has the ids of a
bucket when it is created.  In one process this is so because ids count up.
Where the next id is set from the table again, it can be the id of a bucket
that was deleted.  Then it matters what the deletion has left: it only looks
for objects, and not for upload records, parts, items on their way or requests
that are about to store something.  Nothing is left over in runs where there
is none of these when the row of a bucket is removed.
-/

namespace Hs5.S3

open List Transition OrderedMap

/-! ## What nodes name -/

variable {bucketId : ℤ} {x : Ids}

namespace ServerNode

/-- All that the node stores, has stored in LMDB or in the log, or is going to
store. -/
def names (s : ServerNode) : List Ids :=
  s.server.adds ++ mainAdds s.index.main ++
    (s.stale ++ s.log).flatMap LogRecord.adds

theorem mem_names {s : ServerNode} :
    x ∈ s.names ↔ x ∈ s.server.adds ∨ x ∈ mainAdds s.index.main ∨
      ∃ r, (r ∈ s.stale ∨ r ∈ s.log) ∧ x ∈ r.adds := by
  simp only [names, mem_append, mem_flatMap, or_assoc]

theorem mem_names_of_record {s : ServerNode} {r : LogRecord}
    (hr : r ∈ s.stale ∨ r ∈ s.log) (h : x ∈ r.adds) : x ∈ s.names :=
  mem_names.mpr (.inr (.inr ⟨r, hr, h⟩))

theorem mem_names_of_recovered {s : ServerNode} {survivors : ℕ}
    {q : Queued Task} (hq : q ∈ s.recovered survivors)
    (h : x ∈ q.chain.adds) : x ∈ s.names := by
  obtain ⟨r, hr, hx⟩ := mem_adds_of_recovered hq h
  refine mem_names_of_record ?_ hx
  rcases mem_append.mp hr with hr | hr
  · exact .inl (mem_of_mem_take hr)
  · exact .inr (mem_of_mem_take hr)

theorem Steps.mem_names {s s' : ServerNode} {e : NodeEvent}
    (hstep : Steps s e s') (h : x ∈ s'.names) :
    x ∈ s.names ∨ ∃ cfg ev bucketId s₁ task, e = .server cfg ev ∧
      ev.bucketId? = some bucketId ∧ Server.Opens cfg s.server ev s₁ task ∧
      x ∈ task.adds := by
  have hserver : x ∈ s.server.adds → x ∈ s.names := fun hx =>
    ServerNode.mem_names.mpr (.inl hx)
  have hindex : x ∈ mainAdds s.index.main → x ∈ s.names := fun hx =>
    ServerNode.mem_names.mpr (.inr (.inl hx))
  rcases ServerNode.mem_names.mp h with hx | hx | ⟨r, hr, hx⟩
  · cases hstep with
    | @server cfg ev server hran =>
      obtain hold | ⟨bucketId, s₁, task, hbucket, -, hopen, -, hnew⟩ :=
        hran.mem_adds hx
      · exact .inl (hserver hold)
      · exact .inr ⟨cfg, ev, bucketId, s₁, task, rfl, hbucket, hopen, hnew⟩
    | del =>
      rcases Server.mem_adds_of_enqueue hx with hx | hx
      · exact .inl (hserver hx)
      · simp [Chain.adds, Item.adds] at hx
    | process hfront hran hlog =>
      obtain hold | ⟨bucketId, s₁, task, hbucket, -⟩ :=
        (hran plainBuckets).mem_adds hx
      · exact .inl (hserver hold)
      · cases hbucket
    | walCommit | lmdbCommit | resetLog => exact .inl (hserver hx)
    | restart =>
      rcases Server.mem_adds.mp hx with
        hx | ⟨r, hr, -⟩ | ⟨q, hq, hx⟩ | ⟨c, hc, -⟩
      · exact .inl (hindex hx)
      · exact absurd hr (not_mem_empty r)
      · exact .inl (mem_names_of_recovered hq hx)
      · cases hc
  · left
    cases hstep with
    | lmdbCommit => exact hserver (Server.mem_adds_of_main hx)
    | server | del | process | walCommit | resetLog | restart =>
      exact hindex hx
  · left
    have hrecord : r ∈ s.stale ∨ r ∈ s.log → x ∈ s.names := fun hr =>
      mem_names_of_record hr hx
    cases hstep with
    | @process c m server log startupWalItems hfront hran hlog =>
      rcases hlog with rfl | rfl
      · exact hrecord hr
      · rw [mem_append, mem_singleton, ← or_assoc] at hr
        rcases hr with hr | rfl
        · exact hrecord hr
        · exact hserver (mem_adds_of_front hfront hx)
    | walCommit =>
      rw [mem_append, mem_singleton, ← or_assoc] at hr
      rcases hr with hr | rfl
      · exact hrecord hr
      · cases hx
    | lmdbCommit =>
      rcases hr with hr | hr
      · exact hrecord (mem_append.mp hr)
      · cases hr
    | resetLog =>
      rcases hr with hr | hr
      · cases hr
      · exact hrecord (.inr hr)
    | restart =>
      rcases hr with hr | hr
      · exact hrecord (.inl (mem_of_mem_take hr))
      · exact hrecord (.inr (mem_of_mem_take hr))
    | server => exact hrecord hr
    | del => exact hrecord hr

end ServerNode

theorem Server.Opens.bucketIds {cfg : Config} {s s₁ : Server} {ev : Event}
    {task : Task} (h : Server.Opens cfg s ev s₁ task)
    (hbucket : ev.bucketId? = some bucketId) (hx : x ∈ task.adds) :
    x.1.bucketId ∈ bucketIds bucketId := by
  cases h with
  | putObject | completeMultipartUpload | deleteMarker =>
    cases hbucket
    obtain rfl := mem_singleton.mp hx
    exact mem_cons_self
  | createMultipartUpload =>
    cases hbucket
    obtain rfl := mem_singleton.mp hx
    exact mem_cons_of_mem _ mem_cons_self
  | putObjectPart =>
    cases hbucket
    obtain rfl := mem_singleton.mp hx
    simp [S3.bucketIds, idsOf, partKey, uploadKey, getPartialUploadsBucket,
      getPartsBucket, add_assoc]
  | abortMultipartUpload | deleteVersion | putObjectLegalHold
  | putObjectRetention => cases hx

/-! ## The table and the maps -/

theorem disjoint_bucketIds {a b : ℤ} (ha : isObjectBucket a)
    (hb : isObjectBucket b) (hne : a ≠ b) :
    List.Disjoint (bucketIds a) (bucketIds b) := by
  intro i hia hib
  simp only [bucketIds, getPartialUploadsBucket, getPartsBucket,
    mem_cons, not_mem_nil, or_false] at hia hib
  simp only [isObjectBucket] at ha hb
  omega

namespace Buckets

theorem lookup_insertNew {κ ν : Type} [LinearOrder κ] {m : OrderedMap κ ν}
    {k k' : κ} {v v' : ν} (h : (insertNew m k v).lookup k' = some v') :
    m.lookup k' = some v' ∨ (k = k' ∧ v = v') := by
  unfold insertNew at h
  split at h
  · exact .inl h
  · rcases mem_insert.mp (lookup_eq_some.mp h) with heq | ⟨hmem, -⟩
    · exact .inr ⟨(congrArg Prod.fst heq).symm, (congrArg Prod.snd heq).symm⟩
    · exact .inl (lookup_eq_some.mpr hmem)

theorem lookup_foldl_insertNew {α κ ν : Type} [LinearOrder κ] (key : α → κ)
    (value : α → ν) {rows : List α} {m : OrderedMap κ ν} {k : κ} {v : ν}
    (h : (rows.foldl (fun m row => insertNew m (key row) (value row)) m).lookup
      k = some v) :
    m.lookup k = some v ∨ ∃ row ∈ rows, key row = k ∧ value row = v := by
  induction rows generalizing m with
  | nil => exact .inl h
  | cons row rows ih =>
    rcases ih h with hm | ⟨row', hrow', heq⟩
    · rcases lookup_insertNew hm with hm | heq
      · exact .inl hm
      · exact .inr ⟨row, mem_cons_self, heq⟩
    · exact .inr ⟨row', mem_cons_of_mem _ hrow', heq⟩

/-- The maps show rows of the table, and the next id is above all ids. -/
structure Inv (b : Buckets) : Prop where
  ids : ∀ row ∈ b.rows, isObjectBucket row.1 ∧ row.1 < b.currMaxId
  next : isObjectBucket b.currMaxId
  nodup : (b.rows.map Prod.fst).Nodup
  buckets : ∀ name id, b.buckets.lookup name = some id → (id, name) ∈ b.rows
  bucketNames : ∀ id name, b.bucketNames.lookup id = some name →
    (id, name) ∈ b.rows

variable {b : Buckets}

theorem inv_refreshBucketCache
    (hids : ∀ row ∈ b.rows, isObjectBucket row.1)
    (hnext : b.rows = [] → isObjectBucket b.currMaxId)
    (hnodup : (b.rows.map Prod.fst).Nodup) : b.refreshBucketCache.Inv where
  ids row hrow := by
    refine ⟨hids row hrow, ?_⟩
    have hmem : row.1 ∈ b.rows.map Prod.fst := mem_map_of_mem hrow
    simp only [refreshBucketCache]
    split
    · rename_i hmax
      rw [max?_eq_none_iff.mp hmax] at hmem
      cases hmem
    · rename_i maxId hmax
      have hle := (max?_eq_some_iff.mp hmax).2 _ hmem
      omega
  next := by
    simp only [refreshBucketCache]
    split
    · rename_i hmax
      exact hnext (map_eq_nil_iff.mp (max?_eq_none_iff.mp hmax))
    · rename_i maxId hmax
      obtain ⟨row, hrow, rfl⟩ :=
        mem_map.mp (max?_eq_some_iff.mp hmax).1
      have hobject := hids row hrow
      simp only [isObjectBucket] at hobject ⊢
      omega
  nodup := hnodup
  buckets name id h := by
    rcases lookup_foldl_insertNew Prod.snd Prod.fst h with h | ⟨row, hrow, heq⟩
    · cases h
    · obtain ⟨rfl, rfl⟩ := heq
      exact hrow
  bucketNames id name h := by
    rcases lookup_foldl_insertNew Prod.fst Prod.snd h with h | ⟨row, hrow, heq⟩
    · cases h
    · obtain ⟨rfl, rfl⟩ := heq
      exact hrow

theorem Inv.refresh (h : b.Inv) : b.refreshBucketCache.Inv :=
  inv_refreshBucketCache (fun row hrow => (h.ids row hrow).1)
    (fun _ => h.next) h.nodup

theorem Inv.restart (h : b.Inv) : b.restart.Inv := by
  have hone : isObjectBucket 1 := by decide
  exact inv_refreshBucketCache (fun row hrow => (h.ids row hrow).1)
    (fun _ => hone) h.nodup

theorem inv_init : init.Inv := by
  apply inv_refreshBucketCache
  · simp
  · exact fun _ => by decide
  · simp

theorem addBucket_cases (h : b.Inv) (name : BucketName) :
    (b.addBucket name).1 = b ∨
      (b.buckets.lookup name = none ∧
        (b.addBucket name).1 =
          { rows := b.rows ++ [(b.currMaxId, name)]
            buckets := insertNew b.buckets name b.currMaxId
            bucketNames := insertNew b.bucketNames b.currMaxId name
            currMaxId := b.currMaxId + 4 }) := by
  unfold addBucket
  split
  · exact .inl rfl
  · rename_i hnone
    have hnew : b.currMaxId ∉ b.rows.map Prod.fst := by
      intro hmem
      obtain ⟨row, hrow, heq⟩ := mem_map.mp hmem
      exact absurd heq (h.ids row hrow).2.ne
    rw [if_neg hnew]
    exact .inr ⟨by simpa using hnone, rfl⟩

theorem Inv.addBucket (h : b.Inv) (name : BucketName) :
    (b.addBucket name).1.Inv := by
  obtain heq | ⟨hnone, heq⟩ := addBucket_cases h name
  · rw [heq]
    exact h
  · rw [heq]
    refine ⟨?_, ?_, ?_, ?_, ?_⟩
    · intro row hrow
      rcases mem_append.mp hrow with hrow | hrow
      · obtain ⟨hobject, hlt⟩ := h.ids row hrow
        exact ⟨hobject, hlt.trans (by simp)⟩
      · obtain rfl := mem_singleton.mp hrow
        exact ⟨h.next, by simp⟩
    · have hobject := h.next
      simp only [isObjectBucket] at hobject ⊢
      omega
    · rw [map_append, nodup_append]
      refine ⟨h.nodup, by simp, ?_⟩
      intro id hid id' hid'
      obtain ⟨row, hrow, rfl⟩ := mem_map.mp hid
      obtain rfl := mem_singleton.mp hid'
      exact (h.ids row hrow).2.ne
    · intro name' id hlook
      rcases lookup_insertNew hlook with hold | ⟨rfl, rfl⟩
      · exact mem_append_left _ (h.buckets name' id hold)
      · exact mem_append_right _ mem_cons_self
    · intro id name' hlook
      rcases lookup_insertNew hlook with hold | ⟨rfl, rfl⟩
      · exact mem_append_left _ (h.bucketNames id name' hold)
      · exact mem_append_right _ mem_cons_self

theorem Inv.deleteBucket (h : b.Inv) {b' : Buckets}
    (hdelete : b.deleteBucket bucketId = some b') :
    b'.Inv ∧ b'.rows = b.rows.filter fun row => row.1 ≠ bucketId := by
  obtain ⟨name, hname, rfl⟩ := Option.map_eq_some_iff.mp hdelete
  have hrow := h.bucketNames bucketId name hname
  have hsub : (b.rows.filter fun row => row.1 ≠ bucketId).Sublist b.rows :=
    filter_sublist
  refine ⟨⟨?_, h.next, h.nodup.sublist (hsub.map _), ?_, ?_⟩, rfl⟩
  · exact fun row hrow => h.ids row (hsub.subset hrow)
  · intro name' id hlook
    obtain ⟨hmem, hne⟩ := mem_erase.mp (lookup_eq_some.mp hlook)
    have hrow' := h.buckets name' id (lookup_eq_some.mpr hmem)
    refine mem_filter.mpr ⟨hrow', ?_⟩
    rw [decide_eq_true_iff]
    intro (hid : id = bucketId)
    subst hid
    have heq := inj_on_of_nodup_map h.nodup hrow' hrow rfl
    exact hne (congrArg Prod.snd heq)
  · intro id name' hlook
    obtain ⟨hmem, hne⟩ := mem_erase.mp (lookup_eq_some.mp hlook)
    exact mem_filter.mpr
      ⟨h.bucketNames id name' (lookup_eq_some.mpr hmem), by simpa using hne⟩

end Buckets

/-! ## Servers with buckets -/

namespace BucketServer

variable {walWriteMeta : Bool} {s s' : BucketServer}

/-- The row of a bucket is removed when nothing is stored or going to be
stored under its ids. -/
def Vacant (s : BucketServer) : BucketEvent → Prop
  | .finishDelete bucketId =>
    ∀ x ∈ s.node.names, x.1.bucketId ∉ bucketIds bucketId
  | _ => True

instance (s : BucketServer) (e : BucketEvent) : Decidable (s.Vacant e) := by
  rcases e with ⟨⟩ <;> dsimp only [BucketServer.Vacant] <;> infer_instance

/-- All that the node names belongs to a bucket of the table. -/
structure Inv (s : BucketServer) : Prop where
  buckets : s.buckets.Inv
  owned : ∀ x ∈ s.node.names, ∃ row ∈ s.buckets.rows,
    x.1.bucketId ∈ bucketIds row.1

theorem inv_init : Inv init := by
  refine ⟨Buckets.inv_init, ?_⟩
  intro x hx
  cases hx

theorem Inv.node (h : Inv s) {e : NodeEvent} {node : ServerNode}
    (hrunning : ∀ cfg ev, e = .server cfg ev → ev.bucketId? = none)
    (hstep : s.node.Steps e node) : Inv { s with node := node } := by
  refine ⟨h.buckets, ?_⟩
  intro x hx
  obtain hold | ⟨cfg, ev, bucketId, s₁, task, he, hbucket, -⟩ :=
    hstep.mem_names hx
  · exact h.owned x hold
  · rw [hrunning cfg ev he] at hbucket
    cases hbucket

theorem Inv.request (h : Inv s) {cfg : Config} {bucket : BucketName}
    {ev : Event} {node : ServerNode}
    (hlook : s.buckets.buckets.lookup bucket = some bucketId)
    (hev : ev.bucketId? = some bucketId)
    (hstep : s.node.Steps (.server cfg ev) node) :
    Inv { s with node := node } := by
  refine ⟨h.buckets, ?_⟩
  intro x hx
  obtain hold | ⟨cfg', ev', bucketId', s₁, task, he, hbucket, hopen, hnew⟩ :=
    hstep.mem_names hx
  · exact h.owned x hold
  · cases he
    rw [hev] at hbucket
    cases hbucket
    exact ⟨_, h.buckets.buckets bucket bucketId hlook, hopen.bucketIds hev hnew⟩

theorem Inv.finishDelete (h : Inv s) (hok : s.Vacant (.finishDelete bucketId))
    (deletions : List ℤ) :
    Inv { s with
      buckets := (s.buckets.deleteBucket bucketId).getD s.buckets
      deletions := deletions } := by
  cases hdelete : s.buckets.deleteBucket bucketId with
  | none => exact ⟨h.buckets, h.owned⟩
  | some b =>
    obtain ⟨hinv, hrows⟩ := h.buckets.deleteBucket hdelete
    refine ⟨hinv, ?_⟩
    intro x hx
    obtain ⟨row, hrow, hid⟩ := h.owned x hx
    refine ⟨row, ?_, hid⟩
    rw [Option.getD_some, hrows, mem_filter]
    refine ⟨hrow, ?_⟩
    rw [decide_eq_true_iff]
    intro (heq : row.1 = bucketId)
    rw [heq] at hid
    exact hok x hx hid

theorem Inv.step (h : Inv s) {e : BucketEvent} (hok : s.Vacant e)
    (hstep : step walWriteMeta s e = some s') : Inv s' := by
  cases e with
  | request cfg bucket ev =>
    simp only [BucketServer.step] at hstep
    split at hstep
    · cases hstep
    · rename_i bucketId hlook
      simp only [Option.ite_none_right_eq_some, Option.map_eq_some_iff] at hstep
      obtain ⟨hev, node, hnode, rfl⟩ := hstep
      exact h.request hlook hev (ServerNode.step_steps hnode)
  | node e =>
    simp only [BucketServer.step, Option.ite_none_right_eq_some,
      Option.map_eq_some_iff] at hstep
    obtain ⟨hrunning, node, hnode, rfl⟩ := hstep
    refine h.node ?_ (ServerNode.step_steps hnode)
    rintro cfg ev rfl
    simpa [NodeEvent.running] using hrunning
  | createBucket bucket =>
    simp only [BucketServer.step, Option.ite_none_right_eq_some,
      Option.some.injEq] at hstep
    obtain ⟨-, rfl⟩ := hstep
    refine ⟨h.buckets.addBucket bucket, ?_⟩
    intro x hx
    obtain ⟨row, hrow, hid⟩ := h.owned x hx
    refine ⟨row, ?_, hid⟩
    obtain heq | ⟨-, heq⟩ := Buckets.addBucket_cases h.buckets bucket
    · rw [heq]
      exact hrow
    · rw [heq]
      exact mem_append_left _ hrow
  | deleteBucket bucket =>
    simp only [BucketServer.step] at hstep
    split at hstep
    · cases hstep
    · simp only [Option.ite_none_left_eq_some, Option.some.injEq] at hstep
      obtain ⟨-, rfl⟩ := hstep
      exact ⟨h.buckets, h.owned⟩
  | apiDeleteBucket bucket =>
    obtain ⟨bucketId, -, rfl⟩ := Option.map_eq_some_iff.mp hstep
    exact ⟨h.buckets, h.owned⟩
  | finishDelete bucketId =>
    simp only [BucketServer.step, Option.ite_none_right_eq_some,
      Option.some.injEq] at hstep
    obtain ⟨-, rfl⟩ := hstep
    exact h.finishDelete hok _
  | setBucketPublic =>
    cases hstep
    exact ⟨h.buckets.refresh, h.owned⟩
  | restart survivors =>
    cases hstep
    have hnode := h.node (e := .restart survivors) (by simp)
      (ServerNode.Steps.restart)
    exact ⟨h.buckets.restart, hnode.owned⟩

/-! ## Isolation -/

/-- Buckets have no ids in common, and under the ids that a new bucket gets
nothing is stored or going to be stored. -/
structure Isolated (walWriteMeta : Bool) (s : BucketServer) : Prop where
  disjoint : s.buckets.rows.Pairwise fun a b =>
    List.Disjoint (bucketIds a.1) (bucketIds b.1)
  fresh : ∀ bucket s' bucketId, s.buckets.buckets.lookup bucket = none →
    step walWriteMeta s (.createBucket bucket) = some s' →
    s'.buckets.buckets.lookup bucket = some bucketId →
    ∀ x ∈ s'.node.names, x.1.bucketId ∉ bucketIds bucketId

theorem Inv.isolated (h : Inv s) : s.Isolated walWriteMeta where
  disjoint := by
    have hne := pairwise_map.mp h.buckets.nodup
    refine hne.imp_of_mem ?_
    intro a b ha hb hab
    exact disjoint_bucketIds (h.buckets.ids a ha).1 (h.buckets.ids b hb).1 hab
  fresh bucket s' bucketId hnone hstep hlook x hx hid := by
    simp only [BucketServer.step, Option.ite_none_right_eq_some,
      Option.some.injEq] at hstep
    obtain ⟨-, rfl⟩ := hstep
    obtain heq | ⟨-, heq⟩ := Buckets.addBucket_cases h.buckets bucket
    · rw [heq, hnone] at hlook
      cases hlook
    · rw [heq] at hlook
      rcases Buckets.lookup_insertNew hlook with hold | ⟨-, rfl⟩
      · rw [hnone] at hold
        cases hold
      · obtain ⟨row, hrow, hid'⟩ := h.owned x hx
        obtain ⟨hobject, hlt⟩ := h.buckets.ids row hrow
        exact disjoint_bucketIds hobject h.buckets.next hlt.ne hid' hid

/-- Buckets are isolated in every state of every run where nothing is left of
a bucket when its row is removed. -/
theorem isolated_of_run (walWriteMeta : Bool)
    (hrun : Run (step walWriteMeta) Vacant init s) :
    s.Isolated walWriteMeta := by
  have hinv : Inv s := by
    apply hrun.invariant inv_init
    intro s e s' h hok hstep
    exact h.step hok hstep
  exact hinv.isolated

/-! ## Runs -/

def firstBucket : BucketName := ⟨ascii "aaa"⟩

def secondBucket : BucketName := ⟨ascii "bbb"⟩

def startUploadInBucket : List BucketEvent :=
  [.createBucket firstBucket,
    .request plainBuckets firstBucket
      (.createMultipartUpload 1 [65] [9] ⟨none, false⟩ 0),
    .node (.server plainBuckets (.queue 0 0)), .node .process,
    .node .lmdbCommit, .node .resetLog]

/-- The row of a bucket is removed, and a new process starts. -/
def deleteAndRestart : List BucketEvent :=
  [.deleteBucket firstBucket, .finishDelete 1, .restart 0]

def abortAndDelete : List BucketEvent :=
  startUploadInBucket ++
    [.request plainBuckets firstBucket (.abortMultipartUpload 1 [65] 1 [9]),
      .node (.server plainBuckets (.queue 1 0)), .node .process,
      .node .lmdbCommit, .node .resetLog] ++
    deleteAndRestart ++ [.createBucket secondBucket]

theorem isolated_of_run_abortAndDelete :
    ∃ s, exec (guarded (step true) Vacant) init abortAndDelete = some s ∧
      s.buckets.rows = [(1, secondBucket)] ∧ s.Isolated true := by
  obtain ⟨s, hs, hrows⟩ : ∃ s ∈ exec (guarded (step true) Vacant) init
      abortAndDelete, s.buckets.rows = [(1, secondBucket)] := by
    decide +kernel
  exact ⟨s, hs, hrows, isolated_of_run true (run_of_exec_guarded hs)⟩

def deleteWithUpload : List BucketEvent :=
  startUploadInBucket ++ deleteAndRestart

/-- The next bucket has the upload of the deleted one. -/
theorem not_isolated_deleteWithUpload :
    ∃ s s', exec (step true) init deleteWithUpload = some s ∧
      step true s (.createBucket secondBucket) = some s' ∧
      s'.buckets.buckets.lookup secondBucket = some 1 ∧
      (s'.node.server.store.main.lookup (uploadKey 1 [65] 1)).isSome = true ∧
      ¬ s.Isolated true := by
  obtain ⟨s, hs, hnone, s', hs', hlook, hupload⟩ :
      ∃ s ∈ exec (step true) init deleteWithUpload,
      s.buckets.buckets.lookup secondBucket = none ∧
        ∃ s' ∈ step true s (.createBucket secondBucket),
          s'.buckets.buckets.lookup secondBucket = some 1 ∧
          (s'.node.server.store.main.lookup
            (uploadKey 1 [65] 1)).isSome = true := by decide +kernel
  refine ⟨s, s', hs, hs', hlook, hupload, ?_⟩
  intro hisolated
  obtain ⟨e, he⟩ := Option.isSome_iff_exists.mp hupload
  have hmain : idsOf (uploadKey 1 [65] 1, e) ∈
      mainAdds s'.node.server.store.main :=
    mem_mainAdds.mpr ⟨_, lookup_eq_some.mp he, rfl⟩
  have hmem : idsOf (uploadKey 1 [65] 1, e) ∈ s'.node.names :=
    ServerNode.mem_names.mpr (.inl (Server.mem_adds_of_main hmain))
  refine hisolated.fresh _ s' 1 hnone hs' hlook _ hmem ?_
  exact mem_cons_of_mem _ mem_cons_self

end BucketServer

end Hs5.S3
