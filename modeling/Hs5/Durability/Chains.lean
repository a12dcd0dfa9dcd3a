import Hs5.Durability.ItemInv
import Hs5.Durability.Progress

/-!
# Entries and the items of their chains

The commit thread takes the first item of an entry from the commit queue and
the items linked to it from the callback queue.  It begins a commit only when
the callback queue is empty, so that a transaction of the index contains all
items of an entry or none.
-/

namespace Hs5

open List

variable {cfg : WalConfig}

variable {linked : List Work} {chain : List Item} {work : Work}

theorem mem_workOf {k j : ℕ} (hj : j < chain.length) :
    ∃ work ∈ workOf k chain, work.id = .enqueued k j := by
  refine ⟨_, getElem_mem (n := j) (by simpa [workOf] using hj), ?_⟩
  simp [workOf]

theorem drop_workOf_eq_cons {k p : ℕ}
    (h : (workOf k chain).drop p = work :: linked) :
    (∃ item, chain[p]? = some item ∧
      work = ⟨.enqueued k p, item.action.needsWrite⟩) ∧
      linked = (workOf k chain).drop (p + 1) := by
  constructor
  · have hhead : ((workOf k chain).drop p)[0]? = some work := by rw [h]; rfl
    rw [getElem?_drop, Nat.add_zero, workOf, getElem?_mapIdx] at hhead
    obtain ⟨item, hitem, rfl⟩ := Option.map_eq_some_iff.mp hhead
    exact ⟨item, hitem, rfl⟩
  · rw [← tail_drop, h]
    rfl

namespace Store

variable {s s' : Store}

/-! ## The invariant -/

def Waits (s : Store) (id : ItemId) : Prop :=
  ∃ chain ∈ s.callbackQueue, ∃ work ∈ chain, work.id = id

/-- A chain to be worked on is the rest of the chain of an entry, with its
first items in the open transaction, or contains no items of clients. -/
inductive QueuedChain (s : Store) : List Work → Prop
  | other {chain : List Work}
      (hother : ∀ work ∈ chain, ∀ k j, work.id ≠ .enqueued k j) :
      QueuedChain s chain
  | rest {k p : ℕ} {chain : List Item}
      (hentry : s.enqueued[k]? = some (.items chain)) (hpopped : k < s.popped)
      (hdone : ∀ i < p, .enqueued k i ∈ s.openTxn) :
      QueuedChain s ((workOf k chain).drop p)

theorem QueuedChain.mono {chain : List Work} (h : QueuedChain s chain)
    (henqueued : s.enqueued <+: s'.enqueued) (hpopped : s.popped ≤ s'.popped)
    (hopen : ∀ id ∈ s.openTxn, id ∈ s'.openTxn) : QueuedChain s' chain := by
  cases h with
  | other hother => exact .other hother
  | rest hentry hk hdone =>
    refine .rest ?_ (hk.trans_le hpopped) fun i hi => hopen _ (hdone i hi)
    obtain ⟨rest, hrest⟩ := henqueued
    rw [← hrest]
    exact getElem?_append_left
      (List.getElem?_eq_some_iff.mp hentry).1 ▸ hentry

theorem queuedChain_nil (s : Store) : QueuedChain s [] :=
  .other fun _ hwork => absurd hwork not_mem_nil

/-- Where the items of the entries are.  `hand` is the chain that the commit
thread has taken up. -/
structure ChainInv (s : Store) (hand : List Work) : Prop where
  held : QueuedChain s hand
  queue : ∀ chain ∈ s.callbackQueue, QueuedChain s chain
  /-- no item of an entry that was taken from the queue is forgotten -/
  taken : ∀ k chain, s.enqueued[k]? = some (.items chain) → k < s.popped →
    ∀ j < chain.length, .enqueued k j ∈ s.committed ∨
      .enqueued k j ∈ s.openTxn ∨ .enqueued k j ∈ s.dropped ∨
      s.Waits (.enqueued k j) ∨ ∃ work ∈ hand, work.id = .enqueued k j
  processed : ∀ k j, .enqueued k j ∈ s.committed ∨
    .enqueued k j ∈ s.openTxn → k < s.popped
  order : ∀ k i j, .enqueued k j ∈ s.openTxn → i < j → .enqueued k i ∈ s.openTxn
  /-- the index has all items of an entry or none -/
  whole : ∀ k i, .enqueued k i ∈ s.committed →
    ∀ chain, s.enqueued[k]? = some (.items chain) → ∀ j < chain.length,
      .enqueued k j ∈ s.committed ∨ .enqueued k j ∈ s.dropped
  quiet : s.pc ≠ .idle → s.callbackQueue = []
  bound : s.popped ≤ s.enqueued.length
  pending : ∀ cur, cur ∈ s.pendingCommits ∨ cur ∈ s.pc.cur → cur < s.popped
  returned : ∀ entry ∈ s.enqueued, ∀ c ∈ entry.calls,
    ∃ call, s.calls[c]? = some call ∧ call.stage = .returned

theorem ChainInv.taken_nil (h : ChainInv s []) {k j : ℕ}
    (hentry : s.enqueued[k]? = some (.items chain)) (hk : k < s.popped)
    (hj : j < chain.length) :
    .enqueued k j ∈ s.committed ∨ .enqueued k j ∈ s.openTxn ∨
      .enqueued k j ∈ s.dropped ∨ s.Waits (.enqueued k j) := by
  simpa using h.taken k chain hentry hk j hj

theorem ChainInv.no_hand (h : ChainInv s []) {k j : ℕ}
    (hentry : s.enqueued[k]? = some (.items chain)) (hk : k < s.popped)
    (hj : j < chain.length) (hbusy : s.pc ≠ .idle) :
    .enqueued k j ∈ s.committed ∨ .enqueued k j ∈ s.openTxn ∨
      .enqueued k j ∈ s.dropped := by
  have hnot : ¬ s.Waits (.enqueued k j) := by
    simp [Waits, h.quiet hbusy]
  simpa [hnot] using h.taken_nil hentry hk hj

theorem ChainInv.returned_of_grows {hand : List Work} (h : ChainInv s hand)
    (hgrows : Grows s s') {entry : Entry} (hentry : entry ∈ s.enqueued) {c : ℕ}
    (hc : c ∈ entry.calls) :
    ∃ call, s'.calls[c]? = some call ∧ call.stage = .returned := by
  obtain ⟨call, hcall, hstage⟩ := h.returned entry hentry c hc
  obtain ⟨call', hcall', hlater⟩ := hgrows.calls c call hcall
  exact ⟨call', hcall', hlater.returned hstage⟩

theorem ChainInv.frame (h : ChainInv s []) (hgrows : Grows s s')
    (henqueued : s'.enqueued = s.enqueued) (hpopped : s'.popped = s.popped)
    (hqueue : s'.callbackQueue = s.callbackQueue)
    (hcommitted : s'.committed = s.committed) (hopen : s'.openTxn = s.openTxn)
    (hdropped : s'.dropped = s.dropped)
    (hquiet : s'.pc ≠ .idle → s.callbackQueue = [])
    (hpending : ∀ cur, cur ∈ s'.pendingCommits ∨ cur ∈ s'.pc.cur →
      cur ∈ s.pendingCommits ∨ cur ∈ s.pc.cur) : ChainInv s' [] where
  held := queuedChain_nil _
  queue := by
    intro chain hchain
    rw [hqueue] at hchain
    exact (h.queue chain hchain).mono hgrows.enqueued hgrows.popped
      fun id hid => hopen ▸ hid
  taken := by
    intro k chain hentry hk j hj
    rw [henqueued] at hentry
    rw [hpopped] at hk
    simp only [Waits, hqueue, hcommitted, hopen, hdropped]
    exact h.taken k chain hentry hk j hj
  processed := by
    rw [hcommitted, hopen, hpopped]
    exact h.processed
  order := by
    rw [hopen]
    exact h.order
  whole := by
    rw [hcommitted, henqueued, hdropped]
    exact h.whole
  quiet := by
    rw [hqueue]
    exact hquiet
  bound := by
    rw [hpopped, henqueued]
    exact h.bound
  pending := by
    intro cur hcur
    rw [hpopped]
    exact h.pending cur (hpending cur hcur)
  returned := by
    intro entry hentry c hc
    rw [henqueued] at hentry
    exact h.returned_of_grows hgrows hentry hc

/-! ## Steps -/

variable {callbacks : List (List (ℕ × Bool))} {freemap : List ℕ}
  {startup : Bool} {matched : Bool} {logOk : Bool}

theorem openTxn_applyWork {k j : ℕ} :
    .enqueued k j ∈ (s.applyWork cfg startup (work :: linked) matched callbacks
      freemap logOk).openTxn ↔
      .enqueued k j ∈ s.openTxn ∨ work.id = .enqueued k j := by
  simp only [applyWork, mem_append, mem_cons]
  have hfreemap : .enqueued k j ∉ (if matched && cfg.walFile &&
      cfg.walWriteMeta then freemap.map ItemId.derived else []) := by
    split <;> simp
  rw [or_iff_left hfreemap, eq_comm (a := work.id)]

theorem waits_or_dropped_applyWork {work w : Work} (hw : w ∈ linked) :
    w.id ∈ (s.applyWork cfg startup (work :: linked) matched callbacks freemap
        logOk).dropped ∨
      (s.applyWork cfg startup (work :: linked) matched callbacks freemap
        logOk).Waits w.id := by
  cases matched with
  | false =>
    refine .inl (mem_append_right _ ?_)
    exact mem_map.mpr ⟨w, mem_cons_of_mem _ hw, rfl⟩
  | true =>
    have hne : linked ≠ [] := ne_nil_of_mem hw
    refine .inr ⟨linked, ?_, w, hw, rfl⟩
    simp [applyWork, hne]

theorem queue_applyWork {chain : List Work}
    (h : chain ∈ (s.applyWork cfg startup (work :: linked) matched callbacks
      freemap logOk).callbackQueue) :
    chain ∈ s.callbackQueue ∨ chain = linked ∨
      ∀ w ∈ chain, ∀ k j, w.id ≠ .enqueued k j := by
  simp only [applyWork] at h
  split at h
  · rw [mem_append, mem_append] at h
    rcases h with h | h | h
    · exact .inl h
    · refine .inr (.inl ?_)
      split at h
      · cases h
      · exact mem_singleton.mp h
    · obtain ⟨items, -, rfl⟩ := mem_map.mp h
      refine .inr (.inr fun w hw k j => ?_)
      obtain ⟨_, -, rfl⟩ := mem_map.mp hw
      simp
  · exact .inl h

theorem ChainInv.applyWork {hand : List Work} (h : ChainInv s hand)
    (hpc : s.pc = .idle) (startup matched : Bool)
    (callbacks : List (List (ℕ × Bool))) (freemap : List ℕ) (logOk : Bool) :
    ChainInv (s.applyWork cfg startup hand matched callbacks freemap
      logOk) [] := by
  cases hand with
  | nil => exact h
  | cons work linked =>
  have hgrows := grows_applyWork cfg s startup (work :: linked) matched
    callbacks freemap logOk
  have hopen : ∀ id ∈ s.openTxn, id ∈ (s.applyWork cfg startup
      (work :: linked) matched callbacks freemap logOk).openTxn :=
    fun id hid => mem_append_left _ hid
  have hlinked : QueuedChain (s.applyWork cfg startup (work :: linked) matched
      callbacks freemap logOk) linked := by
    generalize hhand : work :: linked = hand at *
    cases h.held with
    | other hother =>
      refine .other fun w hw => hother w ?_
      rw [← hhand]
      exact mem_cons_of_mem _ hw
    | @rest k p chain hentry hk hdone =>
      obtain ⟨⟨item, -, rfl⟩, rfl⟩ := drop_workOf_eq_cons hhand.symm
      have hentry' := hgrows.entry (hk.trans_le h.bound) ▸ hentry
      refine .rest hentry' (hk.trans_le hgrows.popped) ?_
      intro i hi
      rcases Nat.lt_succ_iff_lt_or_eq.mp hi with hi | rfl
      · exact hopen _ (hdone i hi)
      · rw [← hhand]
        exact openTxn_applyWork.mpr (.inr rfl)
  have hwork : ∀ k j, work.id = .enqueued k j →
      k < s.popped ∧ ∀ i < j, .enqueued k i ∈ s.openTxn := by
    intro k j hid
    generalize hhand : work :: linked = hand at *
    cases h.held with
    | other hother =>
      exact absurd hid (hother work (hhand ▸ mem_cons_self) k j)
    | rest hentry hk hdone =>
      obtain ⟨⟨item, -, rfl⟩, -⟩ := drop_workOf_eq_cons hhand.symm
      obtain ⟨rfl, rfl⟩ := ItemId.enqueued.inj hid
      exact ⟨hk, hdone⟩
  refine ⟨queuedChain_nil _, ?_, ?_, ?_, ?_, ?_, ?_, h.bound, h.pending, h.returned⟩
  · intro chain hchain
    rcases queue_applyWork hchain with hchain | rfl | hother
    · exact (h.queue chain hchain).mono hgrows.enqueued hgrows.popped hopen
    · exact hlinked
    · exact .other hother
  · intro k chain hentry hk j hj
    rcases h.taken k chain hentry hk j hj with hi | hi | hi | hi | hi
    · exact .inl hi
    · exact .inr (.inl (hopen _ hi))
    · exact .inr (.inr (.inl (hgrows.dropped _ hi)))
    · obtain ⟨q, hq, hwaits⟩ := hi
      refine .inr (.inr (.inr (.inl ⟨q, ?_, hwaits⟩)))
      simp only [Store.applyWork]
      split
      · exact mem_append_left _ hq
      · exact hq
    · obtain ⟨w, hw, hid⟩ := hi
      rw [← hid]
      rcases mem_cons.mp hw with rfl | hw
      · rw [hid]
        exact .inr (.inl (openTxn_applyWork.mpr (.inr hid)))
      · rcases waits_or_dropped_applyWork hw with hd | hd
        · exact .inr (.inr (.inl hd))
        · exact .inr (.inr (.inr (.inl hd)))
  · rintro k j (hi | hi)
    · exact h.processed k j (.inl hi)
    · rcases openTxn_applyWork.mp hi with hi | hi
      · exact h.processed k j (.inr hi)
      · exact (hwork k j hi).1
  · intro k i j hi hij
    rcases openTxn_applyWork.mp hi with hi | hi
    · exact hopen _ (h.order k i j hi hij)
    · exact hopen _ ((hwork k j hi).2 i hij)
  · intro k i hi chain hentry j hj
    exact (h.whole k i hi chain hentry j hj).imp_right (hgrows.dropped _)
  · exact fun hno => absurd hpc hno

section

variable (h : ChainInv s [])

include h

theorem ChainInv.process
    (hs : Steps cfg s (.process matched callbacks freemap logOk) s') :
    ChainInv s' [] := by
  cases hs with
  | @processCallback _ _ _ _ chain rest hpc hqueue =>
    apply ChainInv.applyWork
    case hpc => exact hpc
    have hmem : ∀ q, q ∈ s.callbackQueue ↔ q = chain ∨ q ∈ rest := by
      simp [hqueue]
    refine ⟨(h.queue chain ((hmem _).mpr (.inl rfl))).mono
      (List.prefix_refl _) le_rfl fun _ hid => hid, ?_, ?_, h.processed,
      h.order, h.whole, fun hno => absurd hpc hno, h.bound, h.pending,
      h.returned⟩
    · intro q hq
      exact (h.queue q ((hmem q).mpr (.inr hq))).mono (List.prefix_refl _)
        le_rfl fun _ hid => hid
    · intro k items hentry hk j hj
      refine (h.taken_nil hentry hk hj).imp_right (.imp_right (.imp_right ?_))
      rintro ⟨q, hq, hwaits⟩
      rcases (hmem q).mp hq with rfl | hq
      · exact .inr hwaits
      · exact .inl ⟨q, hq, hwaits⟩
  | processStartup hpc hqueue =>
    apply ChainInv.applyWork
    case hpc => exact hpc
    refine ⟨.other (by simp), ?_, ?_, h.processed, h.order, h.whole, h.quiet,
      h.bound, h.pending, h.returned⟩
    · simp [hqueue]
    · intro k items hentry hk j hj
      exact (h.taken_nil hentry hk hj).imp_right (.imp_right (.imp_right .inl))
  | processEntry hpc hqueue hentry =>
    apply ChainInv.applyWork
    case hpc => exact hpc
    have hlt : s.popped < s.enqueued.length :=
      (List.getElem?_eq_some_iff.mp hentry).1
    refine ⟨.rest (p := 0) hentry (Nat.lt_succ_self _) ?_, ?_, ?_, ?_,
      h.order, h.whole, h.quiet, hlt, ?_, h.returned⟩
    · exact fun i hi => absurd hi (Nat.not_lt_zero i)
    · simp [hqueue]
    · intro k items hentry' hk j hj
      rcases Nat.lt_succ_iff_lt_or_eq.mp hk with hk | rfl
      · exact (h.taken_nil hentry' hk hj).imp_right
          (.imp_right (.imp_right .inl))
      · obtain rfl := Entry.items.inj
          (Option.some.inj (hentry'.symm.trans hentry))
        exact .inr (.inr (.inr (.inr (mem_workOf hj))))
    · exact fun k j hi => (h.processed k j hi).trans (Nat.lt_succ_self _)
    · exact fun cur hcur => (h.pending cur hcur).trans (Nat.lt_succ_self _)

theorem ChainInv.commitStep (hs : CommitStep cfg s s') : ChainInv s' [] := by
  have hf := commitFrame_commitStep hs
  have hgrows := grows_step (e := .commitStep true) (.commitStep hs)
  have hempty := h.quiet hf.busy
  have hpending : ∀ cur, cur ∈ s'.pendingCommits ∨ cur ∈ s'.pc.cur →
      cur ∈ s.pendingCommits ∨ cur ∈ s.pc.cur := by
    rintro cur (hcur | hcur)
    · exact .inl (hf.pending cur hcur)
    · exact .inr (hf.cur cur hcur)
  rcases hf.items with ⟨hcommitted, hopen⟩ | ⟨hcommitted, hopen⟩
  · exact h.frame hgrows hf.enqueued hf.popped hf.callbackQueue hcommitted
      hopen hf.dropped (fun _ => hempty) hpending
  have hall : ∀ k chain, s.enqueued[k]? = some (.items chain) → k < s.popped →
      ∀ j < chain.length, .enqueued k j ∈ s'.committed ∨
        .enqueued k j ∈ s'.dropped := by
    intro k chain hentry hk j hj
    rw [hcommitted, hf.dropped, mem_append, or_assoc]
    exact h.no_hand hentry hk hj hf.busy
  refine ⟨queuedChain_nil _, ?_, ?_, ?_, ?_, ?_, ?_, ?_, ?_, ?_⟩
  · intro chain hchain
    rw [hf.callbackQueue, hempty] at hchain
    cases hchain
  · intro k chain hentry hk j hj
    rw [hf.enqueued] at hentry
    rw [hf.popped] at hk
    rcases hall k chain hentry hk j hj with hi | hi
    · exact .inl hi
    · exact .inr (.inr (.inl hi))
  · intro k j hi
    rw [hcommitted, hopen, mem_append] at hi
    rw [hf.popped]
    rcases hi with hi | hi
    · exact h.processed k j hi
    · cases hi
  · intro k i j hi
    rw [hopen] at hi
    cases hi
  · intro k i hi chain hentry j hj
    rw [hf.enqueued] at hentry
    rw [hcommitted, mem_append] at hi
    exact hall k chain hentry (h.processed k i hi) j hj
  · rw [hf.callbackQueue]
    exact fun _ => hempty
  · rw [hf.popped, hf.enqueued]
    exact h.bound
  · intro cur hcur
    rw [hf.popped]
    exact h.pending cur (hpending cur hcur)
  · intro entry hentry c hc
    rw [hf.enqueued] at hentry
    exact h.returned_of_grows hgrows hentry hc

theorem ChainInv.enqueue {entry : Entry} (hcalls : ∀ c ∈ entry.calls,
      ∃ call, s.calls[c]? = some call ∧ call.stage = .returned) :
    ChainInv { s with enqueued := s.enqueued ++ [entry] } [] := by
  have hold : ∀ {k : ℕ} {e : Entry}, k < s.popped →
      (s.enqueued ++ [entry])[k]? = some e → s.enqueued[k]? = some e := by
    intro k e hk he
    rwa [getElem?_append_left (hk.trans_le h.bound)] at he
  refine ⟨queuedChain_nil _, ?_, ?_, h.processed, h.order,
    ?_, h.quiet, ?_, h.pending, ?_⟩
  · intro chain hchain
    exact (h.queue chain hchain).mono (prefix_append _ _) le_rfl
      fun _ hid => hid
  · intro k chain hentry hk
    exact h.taken k chain (hold hk hentry) hk
  · intro k i hi chain hentry
    exact h.whole k i hi chain (hold (h.processed k i (.inl hi)) hentry)
  · exact h.bound.trans (by simp)
  · intro e he
    rcases mem_append.mp he with he | he
    · exact h.returned e he
    · rw [mem_singleton.mp he]
      exact hcalls

theorem ChainInv.takeCommit {kind : CommitKind}
    (hentry : s.enqueued[s.popped]? = some (.commit kind)) :
    ChainInv { s with
      popped := s.popped + 1
      pendingCommits := s.pendingCommits ++ [s.popped] } [] := by
  refine ⟨queuedChain_nil _, ?_, ?_, ?_, h.order, h.whole,
    h.quiet, (List.getElem?_eq_some_iff.mp hentry).1, ?_, h.returned⟩
  · intro chain hchain
    exact (h.queue chain hchain).mono (List.prefix_refl _) (Nat.le_succ _)
      fun _ hid => hid
  · intro k chain hentry' hk j hj
    rcases Nat.lt_succ_iff_lt_or_eq.mp hk with hk | rfl
    · exact h.taken k chain hentry' hk j hj
    · have hno : some (Entry.items chain) = some (.commit kind) :=
        hentry'.symm.trans hentry
      cases hno
  · exact fun k j hi => (h.processed k j hi).trans (Nat.lt_succ_self _)
  · rintro cur (hcur | hcur)
    · rcases mem_append.mp hcur with hcur | hcur
      · exact (h.pending cur (.inl hcur)).trans (Nat.lt_succ_self _)
      · rw [mem_singleton.mp hcur]
        exact Nat.lt_succ_self _
    · exact (h.pending cur (.inr hcur)).trans (Nat.lt_succ_self _)

theorem ChainInv.step {e : Event} (hs : Steps cfg s e s') :
    ChainInv s' [] := by
  have hgrows := grows_step hs
  by_cases he : e.background = true
  · have hsame := sameCommit_step he hs
    refine h.frame hgrows hsame.enqueued hsame.popped hsame.callbackQueue
      hsame.committed hsame.openTxn hsame.dropped ?_ ?_
    · rw [hsame.pc]
      exact h.quiet
    · rw [hsame.pc, hsame.pendingCommits]
      exact fun _ hcur => hcur
  have hbegun : ∀ {cur rest}, s.pendingCommits = cur :: rest →
      ∀ c, c ∈ rest ∨ c ∈ some cur → c ∈ s.pendingCommits ∨ c ∈ s.pc.cur := by
    rintro cur rest hpending c (hc | hc)
    · simp [hpending, hc]
    · simp [hpending, Option.some.inj hc]
  cases hs with
  | enqueue hcalls => exact h.enqueue hcalls
  | processCallback hpc hqueue => exact h.process (.processCallback hpc hqueue)
  | processStartup hpc hqueue hstartup =>
    exact h.process (.processStartup hpc hqueue hstartup)
  | processEntry hpc hqueue hentry =>
    exact h.process (.processEntry hpc hqueue hentry)
  | takeCommit _ _ _ hentry => exact h.takeCommit hentry
  | skipCommit hpc hqueue =>
    refine h.frame hgrows rfl rfl rfl rfl rfl rfl (fun _ => hqueue) ?_
    rintro c (hc | hc)
    · cases hc
    · exact .inr hc
  | beginWalCommit _ hqueue hpending | beginLmdbCommit _ hqueue hpending =>
    exact h.frame hgrows rfl rfl rfl rfl rfl rfl (fun _ => hqueue)
      (hbegun hpending)
  | beginStartupCommit _ hqueue =>
    refine h.frame hgrows rfl rfl rfl rfl rfl rfl (fun _ => hqueue) ?_
    rintro c (hc | hc)
    · exact .inl hc
    · cases hc
  | commitStep hs => exact h.commitStep hs
  | _ => exact absurd rfl he

end

theorem chainInv_initial (disk : Disk) (wal : WalFile ItemId Unit) :
    ChainInv (initial cfg disk wal) [] := by
  refine ⟨queuedChain_nil _, ?_, ?_, ?_, ?_, ?_, ?_, ?_, ?_, ?_⟩ <;>
    simp [initial, CommitPc.cur]

end Store

end Hs5
