import Hs5.S3.Steps
import Hs5.S3.UnsyncedReads

/-!
# Restarts of the server

The server over any number of process lifetimes.  The commit thread works in
an open LMDB transaction, and LMDB keeps what its last commit had.  With
metadata in the log, it also writes every item that it takes to the log, and a
commit is then only a record at the end of the log.  The log is reset right
after an LMDB commit.
-/

namespace Hs5.S3

open Option OrderedMap

structure Counters where
  transid : ℤ
  currPartid : ℤ
  currVersion : ℤ
  deriving DecidableEq

/-- A record of the log: an item with the number of its transaction, or a
commit. -/
inductive LogRecord where
  | fragInfo (transid : ℤ) (chain : Chain) (matchInfo : Option MatchInfo)
  | sync (info : Counters)
  deriving DecidableEq

namespace LogRecord

/-- The item of a record, if it belongs to the transaction. -/
def item? (transid : ℤ) : LogRecord → Option (Queued Task)
  | fragInfo transid' chain matchInfo =>
    if transid' = transid then some ⟨chain, matchInfo, none⟩ else none
  | sync _ => none

def sync? : LogRecord → Option Counters
  | fragInfo _ _ _ => none
  | sync info => some info

end LogRecord

def lastSync (log : List LogRecord) : Option Counters :=
  (log.filterMap LogRecord.sync?).getLast?

structure Index where
  main : OrderedMap KeyInfo Entry
  fm : Freemap
  counters : Counters

structure ServerNode where
  server : Server
  prevTransid : ℤ
  currTransid : ℤ
  index : Index
  /-- records from before the last LMDB commit -/
  stale : List LogRecord
  /-- records since the last LMDB commit -/
  log : List LogRecord
  /-- an LMDB commit is done and the log not reset yet -/
  committing : Bool
  /-- items from the log that were not run yet -/
  startupWalItems : ℕ

inductive NodeEvent where
  /-- requests, with the settings of buckets at the time -/
  | server (cfg : Config) (ev : Event)
  /-- `SingleFileStorage::del` for a key -/
  | del (fn : KeyInfo)
  | process
  | walCommit
  | lmdbCommit
  | resetLog
  /-- a new process, and how many records it finds -/
  | restart (survivors : ℕ)

/-- The item that the commit thread takes next. -/
def Store.front {ρ : Type} (s : Store ρ) : Option (Chain × Option MatchInfo) :=
  match s.callbackQueue with
  | c :: _ => some (c, none)
  | [] => s.commitQueue.head?.map fun q => (q.chain, q.matchInfo)

def newCounters : Counters := ⟨1, 0, 0⟩

namespace ServerNode

def counters (s : ServerNode) : Counters :=
  ⟨s.currTransid, s.server.currPartid, s.server.currVersion⟩

def getNextPartid (s : ServerNode) : ℤ := s.server.currPartid + 1

def getNextVersion (s : ServerNode) : ℤ := s.server.currVersion + 1

variable (walWriteMeta : Bool)

/-- The commit thread takes an item and logs it, unless it comes from the
log. -/
def process (s : ServerNode) : Option ServerNode := do
  if s.committing then none
  let (c, m) ← s.server.store.front
  let server ← s.server.process
  let fromQueue := s.server.store.callbackQueue.isEmpty
  let fromStartupWal := fromQueue && s.startupWalItems != 0
  let logs := walWriteMeta && !fromStartupWal &&
    WriteAction.needsWrite (.request c.item.action)
  some { s with
    server := server
    log := if logs then s.log ++ [.fragInfo s.prevTransid c m] else s.log
    startupWalItems :=
      if fromQueue then s.startupWalItems - 1 else s.startupWalItems }

/-- The records that a crash leaves of those since the last LMDB commit. -/
def left (s : ServerNode) (survivors : ℕ) : List LogRecord :=
  s.log.take (survivors - s.stale.length)

def survived (s : ServerNode) (survivors : ℕ) : List LogRecord :=
  s.stale.take survivors ++ s.left survivors

def recovered (s : ServerNode) (survivors : ℕ) : List (Queued Task) :=
  (s.survived survivors).filterMap (LogRecord.item? s.index.counters.transid)

def recoveredCounters (s : ServerNode) (survivors : ℕ) : Counters :=
  (lastSync (s.survived survivors)).getD s.index.counters

def restart (s : ServerNode) (survivors : ℕ) : ServerNode :=
  let items := s.recovered survivors
  let counters := s.recoveredCounters survivors
  { server :=
      { store :=
          { main := s.index.main
            fm := s.index.fm
            commitQueue := items
            callbackQueue := []
            commitItems :=
              countItems 1 (items.map fun q => q.chain.item) fun _ => 0 }
        currVersion := counters.currVersion
        currPartid := counters.currPartid
        requests := empty
        nextTicket := s.server.nextTicket
        refused := [] }
    prevTransid := s.index.counters.transid
    currTransid := counters.transid
    index := s.index
    stale := s.stale.take survivors
    log := s.left survivors
    committing := false
    startupWalItems := items.length }

/-- Whether the commit thread can commit: items of the callback queue and
those from the log come first. -/
def canCommit (s : ServerNode) : Bool :=
  !s.committing && s.startupWalItems == 0 &&
    s.server.store.callbackQueue.isEmpty

def step (s : ServerNode) : NodeEvent → Option ServerNode
  | .server cfg ev =>
    if ev = .process then none
    else (s.server.step cfg ev).map fun server => { s with server := server }
  | .del fn =>
    some { s with
      server := { s.server with
        store := s.server.store.enqueue ⟨⟨⟨fn, .del⟩, []⟩, none, none⟩ } }
  | .process => s.process walWriteMeta
  | .walCommit =>
    if walWriteMeta ∧ s.canCommit then
      some { s with log := s.log ++ [.sync s.counters] }
    else none
  | .lmdbCommit =>
    if s.canCommit then
      some { s with
        index := ⟨s.server.store.main, s.server.store.fm, s.counters⟩
        prevTransid := s.currTransid
        currTransid := s.currTransid + 1
        stale := s.stale ++ s.log
        log := []
        committing := true }
    else none
  | .resetLog =>
    if s.committing then some { s with stale := [], committing := false }
    else none
  | .restart survivors => some (s.restart survivors)

def init : ServerNode where
  server := Server.init
  prevTransid := newCounters.transid
  currTransid := newCounters.transid
  index :=
    { main := empty
      fm := Server.init.store.fm
      counters := newCounters }
  stale := []
  log := []
  committing := false
  startupWalItems := 0

/-! ## What a step does -/

inductive Steps (s : ServerNode) : NodeEvent → ServerNode → Prop
  | server {cfg ev server} (hstep : Server.Steps cfg s.server ev server) :
      Steps s (.server cfg ev) { s with server := server }
  | del {fn} :
      Steps s (.del fn) { s with
        server := { s.server with
          store := s.server.store.enqueue ⟨⟨⟨fn, .del⟩, []⟩, none, none⟩ } }
  | process {c m server log startupWalItems}
      (hfront : s.server.store.front = some (c, m))
      (hstep : ∀ cfg, Server.Steps cfg s.server .process server)
      (hlog : log = s.log ∨ log = s.log ++ [.fragInfo s.prevTransid c m]) :
      Steps s .process { s with
        server := server, log := log, startupWalItems := startupWalItems }
  | walCommit : Steps s .walCommit { s with log := s.log ++ [.sync s.counters] }
  | lmdbCommit :
      Steps s .lmdbCommit { s with
        index := ⟨s.server.store.main, s.server.store.fm, s.counters⟩
        prevTransid := s.currTransid
        currTransid := s.currTransid + 1
        stale := s.stale ++ s.log
        log := []
        committing := true }
  | resetLog : Steps s .resetLog { s with stale := [], committing := false }
  | restart {survivors} : Steps s (.restart survivors) (s.restart survivors)

variable {walWriteMeta}

theorem process_steps {s s' : ServerNode}
    (h : s.process walWriteMeta = some s') : Steps s .process s' := by
  unfold process at h
  split at h
  · simp at h
  · simp only [bind_eq_bind, bind_eq_some_iff] at h
    obtain ⟨⟨c, m⟩, hfront, server, hserver, h⟩ := h
    cases h
    refine Steps.process hfront (fun cfg => Server.process_steps hserver) ?_
    split
    · exact .inr rfl
    · exact .inl rfl

theorem step_steps {s s' : ServerNode} {e : NodeEvent}
    (h : s.step walWriteMeta e = some s') : Steps s e s' := by
  cases e with
  | server cfg ev =>
    simp only [step, ite_none_left_eq_some, map_eq_some_iff] at h
    obtain ⟨-, server, hserver, rfl⟩ := h
    exact Steps.server (Server.step_steps hserver)
  | del fn =>
    cases h
    exact Steps.del
  | process => exact process_steps h
  | walCommit =>
    simp only [step, ite_none_right_eq_some, Option.some.injEq] at h
    obtain ⟨-, rfl⟩ := h
    exact Steps.walCommit
  | lmdbCommit =>
    simp only [step, ite_none_right_eq_some, Option.some.injEq] at h
    obtain ⟨-, rfl⟩ := h
    exact Steps.lmdbCommit
  | resetLog =>
    simp only [step, ite_none_right_eq_some, Option.some.injEq] at h
    obtain ⟨-, rfl⟩ := h
    exact Steps.resetLog
  | restart survivors =>
    cases h
    exact Steps.restart

end ServerNode

end Hs5.S3
