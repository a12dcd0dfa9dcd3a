import Hs5.Storage.Extent

/-!
# Items of the commit queue

The data types that clients of the storage put on its commit queue and that
the log stores.  An item may be linked to further items, which are applied
after it; a condition on the current object can be attached to an item, but
the log supports this for the first item of a chain only.
-/

namespace Hs5

inductive FragAction where
  | add
  | del
  | delNoCallback
  | commit
  | findFree
  | addNoDelOld
  | delOld
  | restoreOld
  | emptyQueue
  | readFragInfo
  | readFragInfoWithoutParsing
  | freeExtents
  | resetDelLog
  | getDiskId
  | queueDel
  | unqueueDel
  | delWithQueued
  | resetDelQueue
  | assertDelQueueEmpty
  | delFreemapWal
  | addFreemapWal
  | modifyData
  | modifyMetadata
  deriving DecidableEq

def FragAction.needsWrite : FragAction → Bool
  | .add | .del | .delOld | .delWithQueued | .queueDel | .unqueueDel
  | .restoreOld | .freeExtents | .delFreemapWal | .addFreemapWal
  | .modifyMetadata => true
  | _ => false

namespace FragAction

def all : List FragAction :=
  [add, del, delNoCallback, commit, findFree, addNoDelOld, delOld, restoreOld,
    emptyQueue, readFragInfo, readFragInfoWithoutParsing, freeExtents,
    resetDelLog, getDiskId, queueDel, unqueueDel, delWithQueued,
    resetDelQueue, assertDelQueueEmpty, delFreemapWal, addFreemapWal,
    modifyData, modifyMetadata]

def toUChar (action : FragAction) : UInt8 := UInt8.ofNat (all.idxOf action)

/-- The action of a character; no character above the last action is ever
written. -/
def ofUChar (c : UInt8) : Option FragAction := all[c.toNat]?

@[simp]
theorem ofUChar_toUChar (action : FragAction) :
    ofUChar action.toUChar = some action := by
  cases action <;> decide

end FragAction

/-- `MatchInfo`, without the fields in which the outcome is reported. -/
structure MatchInfo where
  readFn : Option Bytes
  ifMatch : List Bytes
  ifNoneMatch : List Bytes
  ifModifiedSince : Option ℤ
  ifUnmodifiedSince : Option ℤ
  protectedCheckTime : ℤ
  readNewest : Bool
  checkProtected : Bool
  bypassGovernance : Bool
  deriving DecidableEq

/-- `SFragInfo` without the items linked to it. -/
structure FragItem where
  action : FragAction
  fn : Bytes
  offset : ℤ
  len : ℤ
  lastModified : ℤ
  md5sum : Bytes
  extraExts : List SPunchItem
  matchInfo : Option MatchInfo
  deriving DecidableEq

/-- `SFragInfo`: an item and the chain of items behind `linked`. -/
structure FragInfo where
  item : FragItem
  linked : List FragItem
  deriving DecidableEq

end Hs5
