import Hs5.S3.Adds
import Hs5.S3.Restarts
import Mathlib.Data.List.MinMax

/-!
# Buckets

The table of buckets is in an SQL database, next to the storage.  Each process
keeps two maps of it in memory, by name and by id, and the id that the next
bucket gets.  Ids count in steps of four; the two ids after the one of a bucket
are those of its upload records and of its parts.  When the maps are read from
the database again, at the start of a process and after a change of public
permissions, the next id is set from the largest one that the table has.
-/

namespace Hs5.S3

open OrderedMap

/-! ## Names -/

structure BucketName where
  bytes : Bytes
  deriving DecidableEq

instance : LinearOrder BucketName :=
  LinearOrder.lift' (fun name => name.bytes.map UInt8.toNat) fun a b h => by
    have hbytes : Function.Injective (List.map UInt8.toNat) :=
      List.map_injective_iff.mpr fun _ _ => UInt8.toNat.inj
    cases a
    cases b
    exact congrArg BucketName.mk (hbytes h)

def reservedStarts : List Bytes :=
  [ascii "xn--", ascii "sthree-", ascii "amzn-s3-demo-"]

def reservedEnds : List Bytes :=
  [ascii "-s3alias", ascii "--ol-s3", ascii ".mrap", ascii "--x-s3",
    ascii "--table-s3"]

def isLowerOrDigit (c : UInt8) : Bool :=
  (0x61 ≤ c && c ≤ 0x7a) || (0x30 ≤ c && c ≤ 0x39)

/-- The characters after the first one; no two periods follow each other. -/
def validAfter (lastPeriod : Bool) : Bytes → Bool
  | [] => true
  | [c] => isLowerOrDigit c
  | c :: name =>
    if c = 0x2e then !lastPeriod && validAfter true name
    else (isLowerOrDigit c || c == 0x2d) && validAfter false name

def isValidBucketName (name : Bytes) : Bool :=
  3 ≤ name.length && name.length ≤ 63 &&
    !reservedStarts.any (·.isPrefixOf name) &&
    !reservedEnds.any (·.isSuffixOf name) &&
    match name with
    | [] => true
    | c :: name => isLowerOrDigit c && validAfter false name

/-! ## The table and the maps in memory -/

structure Buckets where
  /-- the table `buckets` -/
  rows : List (ℤ × BucketName)
  buckets : OrderedMap BucketName ℤ
  bucketNames : OrderedMap ℤ BucketName
  currMaxId : ℤ

/-- The ids of a bucket: its objects, its upload records and its parts. -/
def bucketIds (id : ℤ) : List ℤ :=
  [id, getPartialUploadsBucket id, getPartsBucket id]

namespace Buckets

/-- `std::map::insert`, which keeps an entry that is there. -/
def insertNew {κ ν : Type} [LinearOrder κ] (m : OrderedMap κ ν) (k : κ)
    (v : ν) : OrderedMap κ ν :=
  if (m.lookup k).isSome then m else m.insert k v

def refreshBucketCache (b : Buckets) : Buckets where
  rows := b.rows
  buckets := b.rows.foldl (fun m row => insertNew m row.2 row.1) empty
  bucketNames := b.rows.foldl (fun m row => insertNew m row.1 row.2) empty
  currMaxId :=
    match (b.rows.map Prod.fst).max? with
    | none => b.currMaxId
    | some maxId => maxId + 4

def restart (b : Buckets) : Buckets := refreshBucketCache
    { rows := b.rows, buckets := empty, bucketNames := empty, currMaxId := 1 }

def init : Buckets := restart ⟨[], empty, empty, 1⟩

/-- `addBucket` with `failIfAlreadyExists`: the id of the new bucket, or
nothing if there is one with the name. -/
def addBucket (b : Buckets) (name : BucketName) : Buckets × Option ℤ :=
  if (b.buckets.lookup name).isSome then (b, none)
  else
    let id := b.currMaxId
    let b := { b with currMaxId := id + 4 }
    if id ∈ b.rows.map Prod.fst then (b, none)
    else
      ({ b with
        rows := b.rows ++ [(id, name)]
        buckets := insertNew b.buckets name id
        bucketNames := insertNew b.bucketNames id name }, some id)

def deleteBucket (b : Buckets) (bucketId : ℤ) : Option Buckets :=
  (b.bucketNames.lookup bucketId).map fun name =>
    { b with
      rows := b.rows.filter fun row => row.1 ≠ bucketId
      buckets := b.buckets.erase name
      bucketNames := b.bucketNames.erase bucketId }

end Buckets

/-! ## Servers with buckets -/

structure BucketServer where
  node : ServerNode
  buckets : Buckets
  /-- buckets that are about to be deleted -/
  deletions : List ℤ

inductive BucketEvent where
  /-- a request for an object in some bucket -/
  | request (cfg : Config) (bucket : BucketName) (ev : Event)
  /-- requests that run already, and the commit thread -/
  | node (e : NodeEvent)
  | createBucket (bucket : BucketName)
  /-- the bucket is found empty -/
  | deleteBucket (bucket : BucketName)
  /-- a deletion through the API -/
  | apiDeleteBucket (bucket : BucketName)
  | finishDelete (bucketId : ℤ)
  | setBucketPublic
  | restart (survivors : ℕ)

/-- The event does not start a request for an object, nor a process. -/
def NodeEvent.running : NodeEvent → Bool
  | .server _ ev => ev.bucketId?.isNone
  | .restart _ => false
  | .del _ | .process | .walCommit | .lmdbCommit | .resetLog => true

namespace BucketServer

variable (walWriteMeta : Bool)

/-- The last LMDB commit has an object in the bucket. -/
def hasObjects (s : BucketServer) (bucketId : ℤ) : Bool :=
  s.node.index.main.entries.any fun p => p.1.bucketId = bucketId

def step (s : BucketServer) : BucketEvent → Option BucketServer
  | .request cfg bucket ev =>
    match s.buckets.buckets.lookup bucket with
    | none => none
    | some bucketId =>
      if ev.bucketId? = some bucketId then
        (s.node.step walWriteMeta (.server cfg ev)).map fun node =>
          { s with node := node }
      else none
  | .node e =>
    if e.running then
      (s.node.step walWriteMeta e).map fun node => { s with node := node }
    else none
  | .createBucket bucket =>
    if isValidBucketName bucket.bytes then
      some { s with buckets := (s.buckets.addBucket bucket).1 }
    else none
  | .deleteBucket bucket =>
    match s.buckets.buckets.lookup bucket with
    | none => none
    | some bucketId =>
      if s.hasObjects bucketId then none
      else some { s with deletions := s.deletions ++ [bucketId] }
  | .apiDeleteBucket bucket =>
    (s.buckets.buckets.lookup bucket).map fun bucketId =>
      { s with deletions := s.deletions ++ [bucketId] }
  | .finishDelete bucketId =>
    if bucketId ∈ s.deletions then
      some { s with
        buckets := (s.buckets.deleteBucket bucketId).getD s.buckets
        deletions := s.deletions.erase bucketId }
    else none
  | .setBucketPublic =>
    some { s with buckets := s.buckets.refreshBucketCache }
  | .restart survivors =>
    some ⟨s.node.restart survivors, s.buckets.restart, []⟩

def init : BucketServer := ⟨ServerNode.init, Buckets.init, []⟩

end BucketServer

end Hs5.S3
