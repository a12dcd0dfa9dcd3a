import Hs5.S3.Process
import Hs5.Storage.CommitItems

/-!
# Reads and the items on their way

A write returns as soon as its item is on the commit queue.  `read_prepare`
and `check_existence` therefore look first whether `commit_items` has an entry
for the key.  If there is none they read the last LMDB commit; otherwise they
put an item on the commit queue themselves, and the commit thread reads its
open transaction for them when it comes to that item.
-/

namespace Hs5.S3

open OrderedMap

/-! ## Items -/

/-- The actions that change the main map, and those for the deletion of parts
of an object that is being read. -/
inductive WriteAction where
  | request (a : Action)
  | delWithQueued
  | queueDel
  deriving DecidableEq

namespace WriteAction

def hasCommitItem : WriteAction → Bool
  | request a => a.hasCommitItem
  | delWithQueued => true
  | queueDel => false

def needsWrite : WriteAction → Bool
  | request (.delNoCallback) | request (.modifyData _) => false
  | request _ | delWithQueued | queueDel => true

def mutates : WriteAction → Bool
  | request (.freeExtents _) | queueDel => false
  | request _ | delWithQueued => true

def isModifyData : WriteAction → Bool
  | request (.modifyData _) => true
  | _ => false

end WriteAction

structure Write where
  fn : KeyInfo
  action : WriteAction
  deriving DecidableEq

/-- An item with the items linked to it, and the conditions of a request. -/
structure WriteChain where
  item : Write
  linked : List Write := []
  matchInfo : Option MatchInfo := none
  deriving DecidableEq

namespace Write

def applyMain (i : Write) (main : OrderedMap KeyInfo Entry) :
    OrderedMap KeyInfo Entry :=
  match i.action with
  | .request a => Item.applyMain ⟨i.fn, a⟩ main
  | .delWithQueued => main.erase i.fn
  | .queueDel => main

/-- The deletions that the item asks for; they wait for the readers of the
object that is removed. -/
def callbacks (i : Write) (main : OrderedMap KeyInfo Entry)
    (isReading : Bool) : List Write :=
  let deletions :=
    match i.action with
    | .request a => Item.callbacks ⟨i.fn, a⟩ main
    | .delWithQueued => deleteActions main i.fn
    | .queueDel => []
  deletions.map fun j =>
    ⟨j.fn, if isReading then .queueDel else .request .del⟩

end Write

namespace WriteChain

def items (c : WriteChain) : List Write := c.item :: c.linked

/-- What requests put on the commit queue: a single item, a part with the
change of its upload record, or the end of an upload with its object. -/
def fromRequest (c : WriteChain) : Bool :=
  match c.item.action, c.linked with
  | _, [] => true
  | .request (.add _), [⟨_, .request (.modifyData _)⟩] => true
  | .request .delNoCallback, [⟨_, .request (.add _)⟩] => true
  | _, _ => false

/-- What becomes the next item of the callback queue once the item runs. -/
def next (c : WriteChain) : List WriteChain :=
  match c.linked with
  | [] => []
  | i :: linked => [⟨i, linked, none⟩]

end WriteChain

/-- Numbers and keys of the changes that the items make. -/
def WriteChain.changes (seq : ℕ) (c : WriteChain) : List (ℕ × KeyInfo) :=
  (c.items.filter fun i => i.action.mutates).map fun i => (seq, i.fn)

inductive QueueEntry where
  | write (seq : ℕ) (c : WriteChain)
  /-- a `ReadFragInfo` item -/
  | read (reader : ℕ)

namespace QueueEntry

def items : QueueEntry → List Write
  | write _ c => c.items
  | read _ => []

def changes : QueueEntry → List (ℕ × KeyInfo)
  | write seq c => c.changes seq
  | read _ => []

end QueueEntry

/-! ## State -/

structure ReadFlags where
  readNewest : Bool := false
  skipAddReading : Bool := false
  addReadingCallback : Bool := false
  readUnsynced : Bool := false
  deriving DecidableEq

abbrev FragResult := Option (KeyInfo × Entry)

inductive ReadCallStage where
  /-- `commit_items` has no entry -/
  | checked
  /-- the entry was read from the last LMDB commit -/
  | found (p : KeyInfo × Entry)
  /-- a `ReadFragInfo` item is queued -/
  | queued
  | done (result : FragResult)
  deriving DecidableEq

/-- A call of `read_prepare` or `check_existence`, with the number of the next
item and the number of states so far when it started. -/
structure ReadCall where
  fn : KeyInfo
  flags : ReadFlags
  since : ℕ
  start : ℕ
  stage : ReadCallStage

/-- What the main map has been, and the numbers and keys of the changes that
were on their way. -/
structure Moment where
  main : OrderedMap KeyInfo Entry
  pending : List (ℕ × KeyInfo)

structure UnsyncedStore where
  main : OrderedMap KeyInfo Entry
  /-- the last LMDB commit -/
  committed : OrderedMap KeyInfo Entry
  commitQueue : List QueueEntry
  callbackQueue : List (ℕ × WriteChain)
  commitItems : OrderedMap ℕ ℤ
  /-- an LMDB commit is done and `commit_items` not cleaned yet -/
  committing : Bool
  /-- items that were logged since the last LMDB commit -/
  log : List WriteChain
  /-- items from the log that were not run yet -/
  startupWalItems : ℕ
  readers : OrderedMap ℕ ReadCall
  nextReader : ℕ
  nextSeq : ℕ
  /-- hashes of keys that `ModifyData` items concern which were run since the
  last LMDB commit -/
  modified : List ℕ
  past : List Moment

inductive UnsyncedEvent where
  | enqueue (c : WriteChain)
  /-- one round of the commit thread; the flag says whether an object that is
  removed is being read -/
  | process (isReading : Bool)
  | lmdbCommit
  | cleanCommitItems
  /-- a new process, and how much of the log it finds -/
  | restart (survivors : ℕ)
  | readPrepare (fn : KeyInfo) (flags : ReadFlags)
  | readSnapshot (reader : ℕ)
  | readPin (reader : ℕ)

namespace UnsyncedStore

/-! ## Counting -/

variable (hash : ℤ × Bytes → ℕ)

/-- Change the counts for some items by `d` each. -/
def countWrites (d : ℤ) (items : List Write) (counts : OrderedMap ℕ ℤ) :
    OrderedMap ℕ ℤ :=
  items.foldl (fun counts i =>
    if i.action.hasCommitItem then
      counts.insert (hash i.fn.commonPrefix)
        ((counts.lookup (hash i.fn.commonPrefix)).getD 0 + d)
    else counts)
    counts

def pendingItems (s : UnsyncedStore) : List Write :=
  (s.callbackQueue.flatMap fun p => p.2.items) ++
    s.commitQueue.flatMap QueueEntry.items

def pendingChanges (s : UnsyncedStore) : List (ℕ × KeyInfo) :=
  (s.callbackQueue.flatMap fun p => p.2.changes p.1) ++
    s.commitQueue.flatMap QueueEntry.changes

def note (s : UnsyncedStore) : UnsyncedStore :=
  { s with past := s.past ++ [⟨s.main, s.pendingChanges⟩] }

/-! ## The commit thread -/

/-- `queue_linked` and the count for the item itself, then the item goes to
the end of the queue. -/
def enqueue (s : UnsyncedStore) (c : WriteChain) : UnsyncedStore :=
  { s with
    commitQueue := s.commitQueue ++ [.write s.nextSeq c]
    commitItems := countWrites hash 1 c.items s.commitItems
    nextSeq := s.nextSeq + 1 }

/-- Run an item whose conditions are met: the item linked to it goes to the
callback queue first. -/
def runChain (s : UnsyncedStore) (seq : ℕ) (c : WriteChain)
    (isReading : Bool) : UnsyncedStore :=
  let otherActions := c.item.callbacks s.main isReading
  { s with
    main := c.item.applyMain s.main
    callbackQueue := s.callbackQueue ++ (c.next.map fun c => (seq, c)) ++
      otherActions.map fun i => (s.nextSeq, ⟨i, [], none⟩)
    commitItems := countWrites hash 1 otherActions s.commitItems
    nextSeq := s.nextSeq + 1
    modified :=
      if c.item.action.isModifyData then
        hash c.item.fn.commonPrefix :: s.modified
      else s.modified }

def passes (main : OrderedMap KeyInfo Entry) (c : WriteChain) : Bool :=
  c.matchInfo.all fun m => (fragInfoMatches main c.item.fn m).isMatch

def writeLog (s : UnsyncedStore) (c : WriteChain) : UnsyncedStore :=
  if c.item.action.needsWrite then { s with log := s.log ++ [c] } else s

def readFragInfo (s : UnsyncedStore) (reader : ℕ) : UnsyncedStore :=
  match s.readers.lookup reader with
  | none => s
  | some r =>
    { s with
      readers := s.readers.insert reader
        { r with
          stage := .done (findFragInfo KeyInfo.commonPrefix s.main r.fn
            r.flags.readNewest) } }

/-- One round of the commit thread.  The callback queue is served first;
items from the log are not logged again. -/
def process (s : UnsyncedStore) (isReading : Bool) : Option UnsyncedStore :=
  if s.committing then none
  else
    match s.callbackQueue, s.commitQueue with
    | (seq, c) :: rest, _ =>
      let s := { s with
        callbackQueue := rest
        commitItems := countWrites hash (-1) [c.item] s.commitItems }
      some ((s.writeLog c).runChain hash seq c isReading)
    | [], .write seq c :: rest =>
      let fromStartupWal := s.startupWalItems ≠ 0
      let s := { s with
        commitQueue := rest
        commitItems := countWrites hash (-1) [c.item] s.commitItems
        startupWalItems := s.startupWalItems - 1 }
      let s := if fromStartupWal then s else s.writeLog c
      if passes s.main c then some (s.runChain hash seq c isReading)
      else some { s with
        commitItems := countWrites hash (-1) c.linked s.commitItems }
    | [], .read reader :: rest =>
      some ({ s with commitQueue := rest }.readFragInfo reader)
    | [], [] => none

/-- A new process counts the items that it finds in the log, and not those
linked to them. -/
def restart (s : UnsyncedStore) (survivors : ℕ) : UnsyncedStore :=
  let items := s.log.take survivors
  { s with
    main := s.committed
    commitQueue := items.map fun c => .write s.nextSeq c
    callbackQueue := []
    commitItems := countWrites hash 1 (items.map WriteChain.item) empty
    committing := false
    log := items
    startupWalItems := items.length
    readers := empty
    nextSeq := s.nextSeq + 1
    modified := [] }

/-! ## Reads -/

def onItsWay (s : UnsyncedStore) (fn : KeyInfo) : Bool :=
  (s.commitItems.lookup (hash fn.commonPrefix)).isSome

def setStage (s : UnsyncedStore) (reader : ℕ) (r : ReadCall)
    (stage : ReadCallStage) : UnsyncedStore :=
  { s with readers := s.readers.insert reader { r with stage := stage } }

/-- A `ReadFragInfo` item goes to the end of the queue. -/
def queueRead (s : UnsyncedStore) (reader : ℕ) (r : ReadCall) :
    UnsyncedStore :=
  { s.setStage reader r .queued with
    commitQueue := s.commitQueue ++ [.read reader] }

def readPrepare (s : UnsyncedStore) (fn : KeyInfo) (flags : ReadFlags) :
    UnsyncedStore :=
  let r : ReadCall := ⟨fn, flags, s.nextSeq, s.past.length, .checked⟩
  let s' := { s with nextReader := s.nextReader + 1 }
  if flags.readUnsynced ∨ s.onItsWay hash fn then
    s'.queueRead s.nextReader r
  else s'.setStage s.nextReader r .checked

def hasExtents (e : Entry) : Bool :=
  e.extents.head?.any fun ext => ext.offset ≠ 0 ∨ 0 < ext.len

/-- Whether `read_prepare` looks at `commit_items` again, to count the
reader. -/
def looksAgain (flags : ReadFlags) (e : Entry) : Bool :=
  if hasExtents e then !flags.skipAddReading
  else flags.addReadingCallback && e.md5sum ≠ .tombstone

def readSnapshot (s : UnsyncedStore) (reader : ℕ) : Option UnsyncedStore := do
  let r ← s.readers.lookup reader
  match r.stage with
  | .checked =>
    match findFragInfo KeyInfo.commonPrefix s.committed r.fn
        r.flags.readNewest with
    | none => some (s.setStage reader r (.done none))
    | some p =>
      if looksAgain r.flags p.2 then
        some (s.setStage reader r (.found p))
      else some (s.setStage reader r (.done (some p)))
  | _ => none

def readPin (s : UnsyncedStore) (reader : ℕ) : Option UnsyncedStore := do
  let r ← s.readers.lookup reader
  match r.stage with
  | .found p =>
    if s.onItsWay hash r.fn then some (s.queueRead reader r)
    else some (s.setStage reader r (.done (some p)))
  | _ => none

/-! ## Steps -/

def act (s : UnsyncedStore) : UnsyncedEvent → Option UnsyncedStore
  | .enqueue c => if c.fromRequest then some (s.enqueue hash c) else none
  | .process isReading => s.process hash isReading
  | .lmdbCommit =>
    if s.committing ∨ s.startupWalItems ≠ 0 then none
    else some { s with
      committed := s.main
      committing := true
      log := []
      modified := [] }
  | .cleanCommitItems =>
    if s.committing then
      some { s with
        committing := false
        commitItems := s.commitItems.filter fun p => p.2 ≠ 0 }
    else none
  | .restart survivors => some (s.restart hash survivors)
  | .readPrepare fn flags => some (s.readPrepare hash fn flags)
  | .readSnapshot reader => s.readSnapshot reader
  | .readPin reader => s.readPin hash reader

def step (s : UnsyncedStore) (e : UnsyncedEvent) : Option UnsyncedStore :=
  (s.act hash e).map note

def init : UnsyncedStore where
  main := empty
  committed := empty
  commitQueue := []
  callbackQueue := []
  commitItems := empty
  committing := false
  log := []
  startupWalItems := 0
  readers := empty
  nextReader := 0
  nextSeq := 0
  modified := []
  past := [⟨empty, []⟩]

end UnsyncedStore

end Hs5.S3
