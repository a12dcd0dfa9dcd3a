import Hs5.Support.SyncedLog
import Hs5.Support.Transition
import Hs5.Wal.Recovery

/-!
# Crashes and restarts of the log

The two log files as bytes, over any number of process lifetimes.  A process
appends records, syncs, resets the file in use and changes files; a crash may
lose everything that no completed sync covers and may leave arbitrary bytes
at the end of a file, and the next process opens what it finds.
-/

namespace Hs5

open Transition

/-! ## Files -/

/-- A part of a file: a record, or bytes that a crash left behind. -/
inductive Chunk where
  | record (r : WalRecord FragInfo CommitInfo)
  | torn (bytes : Bytes)
  deriving DecidableEq

def Chunk.isTorn : Chunk → Bool
  | .record _ => false
  | .torn _ => true

def Chunk.bytes (fmt : WalFormat) : Chunk → Bytes
  | .record r => encodeRecord fmt r
  | .torn bytes => bytes

def chunkBytes (fmt : WalFormat) (chunks : List Chunk) : Bytes :=
  chunks.flatMap (Chunk.bytes fmt)

/-- The records of a file up to the first bytes that are none. -/
def wholeRecords : List Chunk → List (WalRecord FragInfo CommitInfo)
  | .record r :: chunks => r :: wholeRecords chunks
  | _ => []

def recordsOf (chunks : List Chunk) : List (WalRecord FragInfo CommitInfo) :=
  chunks.filterMap fun
    | .record r => some r
    | .torn _ => none

/-- A log file and its contents before truncations that are not durable; a
sync makes these durable together with what it covers. -/
structure LogFile where
  old : List (List Chunk)
  log : SyncedLog Chunk
  unsynced : old ≠ [] → log.synced = 0

namespace LogFile

def empty : LogFile := ⟨[], .unsynced [], fun _ => rfl⟩

def push (f : LogFile) (r : WalRecord FragInfo CommitInfo) : LogFile :=
  { f with log := f.log.push (.record r) }

def sync (f : LogFile) (n : ℕ) : LogFile :=
  ⟨[], f.log.sync n, fun h => absurd rfl h⟩

def truncate (f : LogFile) : LogFile :=
  ⟨f.log.entries :: f.old, .unsynced [], fun _ => rfl⟩

end LogFile

/-! ## The log object and its files -/

structure LogNode where
  files : Bool → LogFile
  useAltFile : Bool
  seqNo : ℤ
  pendingReset : Bool
  /-- what the constructor of the storage has read -/
  recovered : ReadResult

/-- The results of reading one file and then another one. -/
def ReadResult.append (ret ret' : ReadResult) : ReadResult where
  items := ret.items ++ ret'.items
  writes := ret.writes ++ ret'.writes
  commitInfo := ret'.commitInfo <|> ret.commitInfo

namespace LogNode

def modify (n : LogNode) (alt : Bool) (f : LogFile → LogFile) : LogNode :=
  { n with files := Function.update n.files alt (f (n.files alt)) }

def append (n : LogNode) (p : WalPayload FragInfo CommitInfo) : LogNode :=
  n.modify n.useAltFile fun f => f.push ⟨n.seqNo, p⟩

/-- `reset` of the file in use, up to its sync. -/
def reset (n : LogNode) : LogNode :=
  { n.modify n.useAltFile fun f => f.truncate.push ⟨n.seqNo + 1, .init⟩ with
    seqNo := n.seqNo + 1 }

/-- `switchFiles` up to the sync of the new file. -/
def switchFiles (n : LogNode) : LogNode := reset
    { n.modify n.useAltFile fun f => f.sync f.log.size with
      useAltFile := !n.useAltFile
      pendingReset := true }

/-- The data thread truncates the file that was left. -/
def finishSwitch (n : LogNode) : LogNode :=
  { n.modify (!n.useAltFile) LogFile.truncate with pendingReset := false }

def content (fmt : WalFormat) (n : LogNode) (alt : Bool) : Bytes :=
  chunkBytes fmt (n.files alt).log.entries

def created (fmt : WalFormat) (files : Bool → LogFile) : Option LogNode :=
  (openFiles fmt fun alt => chunkBytes fmt (files alt).log.entries).map
    fun (useAltFile, seqNo) =>
      let n : LogNode := ⟨files, useAltFile, seqNo, false, ⟨[], [], none⟩⟩
      if n.content fmt useAltFile = [] then n.reset else n

/-- The constructor of the storage reads the file not in use and then the one
in use. -/
def readBoth (fmt : WalFormat) (transid : ℤ) (n : LogNode) : Option LogNode := do
  let older ← readFile fmt transid false n.seqNo (n.content fmt !n.useAltFile)
  let newer ← readFile fmt transid false older.seqNo
    (n.content fmt n.useAltFile)
  some { n with seqNo := newer.seqNo, recovered := older.ret.append newer.ret }

/-- A new process; `none` where it does not get through. -/
def restart (fmt : WalFormat) (transid : ℤ) (files : Bool → LogFile) :
    Option LogNode :=
  (created fmt files).bind (readBoth fmt transid)

def start (fmt : WalFormat) (transid : ℤ) : Option LogNode :=
  restart fmt transid fun _ => .empty

end LogNode

/-! ## Crashes -/

/-- What a crash does to a file: which content is left, how many of its
chunks, and the bytes behind them. -/
structure FileCrash where
  source : Option ℕ
  survivors : ℕ
  tail : Bytes

/-- What a crash does to both files, and the transaction that the index has
afterwards. -/
structure Crash where
  file : Bool → FileCrash
  transid : ℤ

/-- The content of a file that the crash leaves something of. -/
def LogFile.base (f : LogFile) (c : FileCrash) : List Chunk :=
  match c.source with
  | none => f.log.entries
  | some i => f.old.getD i []

def LogFile.left (f : LogFile) (c : FileCrash) : List Chunk :=
  (f.base c).take c.survivors ++ if c.tail = [] then [] else [.torn c.tail]

/-- The file after a crash; what was synced before still is. -/
def LogFile.crash (f : LogFile) (c : FileCrash) : LogFile where
  old := []
  log :=
    { entries := f.left c
      synced := min f.log.synced (f.left c).length
      synced_le := min_le_right _ _ }
  unsynced := fun h => absurd rfl h

/-- The bytes that stay behind new ones when only their truncation is
lost. -/
def LogFile.overlaid (fmt : WalFormat) (f : LogFile) (c : FileCrash) : Prop :=
  ∃ old ∈ f.old, c.tail =
    (chunkBytes fmt old).drop
      (chunkBytes fmt ((f.base c).take c.survivors)).length
  deriving Decidable

/-- The crashes that can happen: an old content comes back only if its
truncation is not durable, everything synced survives, and the bytes behind
the last record are no record, or the rest of an old content. -/
def LogFile.CanCrash (fmt : WalFormat) (f : LogFile) (c : FileCrash) : Prop :=
  (c.source = none → f.log.synced ≤ c.survivors) ∧
  (∀ i ∈ c.source, i < f.old.length) ∧
  (c.tail = [] ∨
    ((f.base c).take c.survivors).getLast?.all (fun ch => !ch.isTorn) = true ∧
      (¬ ChecksumValid fmt c.tail ∨ f.overlaid fmt c))
  deriving Decidable

namespace LogNode

inductive Event where
  | append (p : WalPayload FragInfo CommitInfo)
  | sync (alt : Bool) (n : ℕ)
  | reset
  | switchFiles
  | finishSwitch
  | crash (c : Crash)

def step (fmt : WalFormat) (n : LogNode) : Event → Option LogNode
  | .append p => if p = .init then none else some (n.append p)
  | .sync alt k => some (n.modify alt fun f => f.sync k)
  | .reset => some n.reset
  | .switchFiles => if n.pendingReset then none else some n.switchFiles
  | .finishSwitch => if n.pendingReset then some n.finishSwitch else none
  | .crash c =>
    if ∀ alt, (n.files alt).CanCrash fmt (c.file alt) then
      restart fmt c.transid fun alt => (n.files alt).crash (c.file alt)
    else none

/-- The condition under which the log survives: nothing is appended behind
torn bytes, records are within the limits and numbers in their range, the
bytes that a crash leaves have a size field of at least four and are no rest
of an old content, and the alternate file has no torn header next to a primary
file. -/
def Ok (fmt : WalFormat) (n : LogNode) : Event → Prop
  | .append p =>
    (∀ ch ∈ (n.files n.useAltFile).log.entries, ch.isTorn = false) ∧
      RecordFits fmt ⟨n.seqNo, p⟩
  | .reset => IsInt64 (n.seqNo + 1)
  | .switchFiles => IsInt64 (n.seqNo + 1)
  | .crash c =>
    (∀ alt, ¬ ChecksumValid fmt (c.file alt).tail ∧
      SizeFieldOk (c.file alt).tail) ∧
    (((n.files true).left (c.file true)).head?.any Chunk.isTorn = true →
      (n.files false).left (c.file false) = [])
  | _ => True

instance (fmt : WalFormat) (n : LogNode) (e : Event) :
    Decidable (n.Ok fmt e) := by
  rcases e with ⟨⟩ <;> dsimp only [Ok] <;> infer_instance

end LogNode

end Hs5
