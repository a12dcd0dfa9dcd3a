import Hs5.S3.Metadata
import Hs5.Storage.Commit

/-!
# Items on the commit queue

Requests change the main map only through items that they put on the commit
queue.  The commit thread takes one item at a time.  Items that come out of
an item, the one linked to it and the deletions that a callback asks for, go
to a queue of their own, which is served first.
-/

namespace Hs5.S3

open CommitState (addFreemapExts)

inductive Action where
  | add (v : Entry)
  | del
  | delNoCallback
  | modifyData (addParts : List PartExt)
  | modifyMetadata (param : ModifyParam)
  | freeExtents (exts : List SPunchItem)
  deriving DecidableEq

def Action.hasCommitItem : Action → Bool
  | .add _ | .del | .delNoCallback | .modifyMetadata _ => true
  | .modifyData _ | .freeExtents _ => false

/-- `SFragInfo` without links.  Freeing extents concerns no key. -/
structure Item where
  fn : KeyInfo := ⟨0, [], 0⟩
  action : Action
  deriving DecidableEq

/-- An item with the chain of items linked to it. -/
structure Chain where
  item : Item
  linked : List Item := []
  deriving DecidableEq

/-- An item of the commit queue, with the request that put it there. -/
structure Queued (ρ : Type) where
  chain : Chain
  matchInfo : Option MatchInfo
  request : Option ρ
  deriving DecidableEq

structure Store (ρ : Type) where
  main : OrderedMap KeyInfo Entry
  fm : Freemap
  commitQueue : List (Queued ρ)
  callbackQueue : List Chain
  commitItems : ℤ × Bytes → ℤ

inductive Answer where
  | matched (result : MatchResult)
  | modified (error : Option ModifyError)
  deriving DecidableEq

/-- Change the counts for some items by `d` each. -/
def countItems (d : ℤ) (items : List Item) (counts : ℤ × Bytes → ℤ) :
    ℤ × Bytes → ℤ :=
  items.foldl (fun counts i =>
    if i.action.hasCommitItem then
      Function.update counts i.fn.commonPrefix (counts i.fn.commonPrefix + d)
    else counts)
    counts

/-- The entry of the newest version of an object, whichever version the key
has: `get_frag_info` with `read_newest` positions the cursor at the largest
version. -/
def newest (main : OrderedMap KeyInfo Entry) (fn : KeyInfo) :
    Option (KeyInfo × Entry) :=
  main.entries.find? fun p =>
    p.1.commonPrefix = fn.commonPrefix

def fragInfoMatches (main : OrderedMap KeyInfo Entry) (fn : KeyInfo)
    (m : MatchInfo) : MatchResult :=
  let currInfo :=
    if m.readFn.isSome ∧ m.readNewest then
      (newest main (m.readFn.getD fn)).map Prod.snd
    else main.lookup (m.readFn.getD fn)
  match currInfo with
  | none => m.setNotFound
  | some e => onMatchCallback m e

namespace Store

variable {ρ : Type}

/-- `queue_linked` and the count for the item itself, then the item goes to
the end of the queue. -/
def enqueue (s : Store ρ) (q : Queued ρ) : Store ρ :=
  { s with
    commitQueue := s.commitQueue ++ [q]
    commitItems := countItems 1 (q.chain.item :: q.chain.linked) s.commitItems }

def removeFn (s : Store ρ) (fn : KeyInfo)
    (delFromMain callCallback : Bool) : Option (Store ρ) :=
  match s.main.lookup fn with
  | none => some s
  | some e =>
    let otherActions : List Item :=
      if callCallback then
        (onDeleteCallback fn e.md5sum).map fun fn => ⟨fn, .del⟩
      else []
    (addFreemapExts s.fm e.extents).map fun fm =>
      { s with
        main := if delFromMain then s.main.erase fn else s.main
        fm := fm
        callbackQueue := s.callbackQueue ++ otherActions.map fun i => ⟨i, []⟩
        commitItems := countItems 1 otherActions s.commitItems }

/-- What the commit thread does for one item, by its action. -/
def runItem (s : Store ρ) (i : Item) : Option (Store ρ × Option Answer) :=
  match i.action with
  | .add v =>
    (s.removeFn i.fn false true).map fun s =>
      ({ s with main := s.main.insert i.fn v }, none)
  | .del => (s.removeFn i.fn true true).map fun s => (s, none)
  | .delNoCallback => (s.removeFn i.fn true false).map fun s => (s, none)
  | .modifyData addParts =>
    match s.main.lookup i.fn with
    | none => some (s, none)
    | some e =>
      let e := { e with md5sum := onModifyCallback e.md5sum addParts }
      some ({ s with main := s.main.insert i.fn e }, none)
  | .modifyMetadata param =>
    match s.main.lookup i.fn with
    | none => some (s, some (.modified (some .notFound)))
    | some e =>
      match onModifyMetadataCallback e.md5sum param with
      | .error err => some (s, some (.modified (some err)))
      | .ok md5sum =>
        some ({ s with
          main := s.main.insert i.fn { e with md5sum := md5sum } },
          some (.modified none))
  | .freeExtents exts =>
    (addFreemapExts s.fm exts).map fun fm =>
      ({ s with fm := { fm with trimItems := s.fm.trimItems } }, none)

/-- Run an item whose conditions are met: the item linked to it goes to the
callback queue first. -/
def runChain (s : Store ρ) (c : Chain) :
    Option (Store ρ × Option Answer) :=
  let s :=
    match c.linked with
    | [] => s
    | i :: linked =>
      { s with callbackQueue := s.callbackQueue ++ [Chain.mk i linked] }
  s.runItem c.item

/-- Take an item off the commit queue: check its conditions and run it, or
drop it with all that is linked to it. -/
def runQueued (s : Store ρ) (q : Queued ρ) :
    Option (Store ρ × Option Answer) :=
  match q.matchInfo with
  | none => s.runChain q.chain
  | some m =>
    let result := fragInfoMatches s.main q.chain.item.fn m
    if result.isMatch then
      (s.runChain q.chain).map fun r => (r.1, some (.matched result))
    else
      some ({ s with
        commitItems := countItems (-1) q.chain.linked s.commitItems },
        some (.matched result))

/-- One round of the commit thread: the store it leaves and, for an item of
the commit queue, the item and what its request is told. -/
def process (s : Store ρ) :
    Option (Store ρ × Option (Queued ρ × Option Answer)) :=
  match s.callbackQueue with
  | c :: rest =>
    let s :=
      { s with
        callbackQueue := rest
        commitItems := countItems (-1) [c.item] s.commitItems }
    (s.runChain c).map fun r => (r.1, none)
  | [] =>
    match s.commitQueue with
    | [] => none
    | q :: rest =>
      let s :=
        { s with
          commitQueue := rest
          commitItems := countItems (-1) [q.chain.item] s.commitItems }
      (s.runQueued q).map fun r => (r.1, some (q, r.2))

end Store

end Hs5.S3
