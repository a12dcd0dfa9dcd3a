import Hs5.S3.Formed

/-!
# The history of the commit thread

To speak about what happened in a run, a server is followed together with a
record of the items that the commit thread has taken off the commit queue:
the main map on which the conditions of the item were checked, and every item
that was run because of it, each with the main map that it met.
-/

namespace Hs5.S3

open List Transition

def Chain.items (c : Chain) : List Item := c.item :: c.linked

/-! ## Recording -/

/-- An item that was taken off the commit queue, the main map at that time,
and the items that were run because of it, if its conditions were met. -/
structure Taken where
  queued : Queued Task
  checked : OrderedMap KeyInfo Entry
  run : List (Item × OrderedMap KeyInfo Entry)

namespace Taken

def items (t : Taken) : List Item := t.run.map Prod.fst

def start (main : OrderedMap KeyInfo Entry) (q : Queued Task) : Taken :=
  ⟨q, main, if Store.passes main q then [(q.chain.item, main)] else []⟩

def next (t : Taken) (main : OrderedMap KeyInfo Entry) (i : Item) : Taken :=
  { t with run := t.run ++ [(i, main)] }

@[simp] theorem next_queued (t : Taken) (main : OrderedMap KeyInfo Entry)
    (i : Item) : (t.next main i).queued = t.queued := rfl

@[simp] theorem next_checked (t : Taken) (main : OrderedMap KeyInfo Entry)
    (i : Item) : (t.next main i).checked = t.checked := rfl

@[simp] theorem items_next (t : Taken) (main : OrderedMap KeyInfo Entry)
    (i : Item) : (t.next main i).items = t.items ++ [i] := by
  simp [items, next]

end Taken

/-- A server with its past, the last item first, and the requests that were
given up. -/
structure History where
  server : Server
  past : List Taken
  gaveUp : List Task

def record (store : Store Task) (past : List Taken) : List Taken :=
  match store.callbackQueue with
  | c :: _ =>
    match past with
    | t :: past => t.next store.main c.item :: past
    | [] => []
  | [] =>
    match store.commitQueue with
    | q :: _ => Taken.start store.main q :: past
    | [] => past

variable {main main' : OrderedMap KeyInfo Entry} {cfg : Config} {h h' : History}
  {ev : Event}

namespace History

def step (cfg : Config) (h : History) (ev : Event) : Option History :=
  (h.server.step cfg ev).map fun s =>
    match ev with
    | .process => { h with server := s, past := record h.server.store h.past }
    | .giveUp ticket =>
      { h with
        server := s
        gaveUp := h.gaveUp ++ (h.server.requests.lookup ticket).toList }
    | _ => { h with server := s }

def init : History := ⟨Server.init, [], []⟩

/-- The items that were run, in their order, each with the map it met. -/
def ran (h : History) : List (Item × OrderedMap KeyInfo Entry) :=
  h.past.reverse.flatMap Taken.run

def applied (h : History) : List Item := h.past.reverse.flatMap Taken.items

theorem applied_eq (h : History) : h.applied = h.ran.map Prod.fst := by
  simp only [applied, ran, map_flatMap]
  rfl

structure Recorded (cfg : Config) (h : History) (ev : Event)
    (h' : History) : Prop where
  steps : Server.Steps cfg h.server ev h'.server
  past : h'.past =
    if ev = .process then record h.server.store h.past else h.past
  gaveUp : ∀ ticket, ev = .giveUp ticket → h'.gaveUp = h.gaveUp ++
    (h.server.requests.lookup ticket).toList
  gaveUp_eq : (∀ ticket, ev ≠ .giveUp ticket) → h'.gaveUp = h.gaveUp

theorem step_recorded
    (hstep : h.step cfg ev = some h') : h.Recorded cfg ev h' := by
  obtain ⟨s, hs, rfl⟩ := Option.map_eq_some_iff.mp hstep
  have hsteps := Server.step_steps hs
  split
  · exact ⟨hsteps, by simp, by simp, by simp⟩
  · exact ⟨hsteps, by simp, by simp, by simp⟩
  · rename_i hprocess hgaveUp
    constructor
    · exact hsteps
    · rw [if_neg (by simpa using hprocess)]
    · intro ticket hev
      exact absurd hev (by simpa using hgaveUp ticket)
    · exact fun _ => rfl

end History

/-! ## Linear histories -/

/-- The items were run one after the other, from the first map to the
second. -/
def Meets (main : OrderedMap KeyInfo Entry) :
    List (Item × OrderedMap KeyInfo Entry) → OrderedMap KeyInfo Entry → Prop
  | [], main' => main' = main
  | (i, before) :: run, main' =>
    before = main ∧ Meets (i.applyMain main) run main'

theorem Meets.snoc {run : List (Item × OrderedMap KeyInfo Entry)}
    (h : Meets main run main') (i : Item) :
    Meets main (run ++ [(i, main')]) (i.applyMain main') := by
  induction run generalizing main with
  | nil =>
    obtain rfl := h
    exact ⟨rfl, rfl⟩
  | cons p run ih => exact ⟨h.1, ih h.2⟩

/-- The items taken, the last of them first, lead from the first map to the
second. -/
def Leads (main : OrderedMap KeyInfo Entry) :
    List Taken → OrderedMap KeyInfo Entry → Prop
  | [], main' => main' = main
  | t :: past, main' => Meets t.checked t.run main' ∧ Leads main past t.checked

theorem Meets.preserves {P : OrderedMap KeyInfo Entry → Prop}
    {run : List (Item × OrderedMap KeyInfo Entry)} (h : Meets main run main')
    (hmain : P main)
    (hrun : ∀ i ∈ run.map Prod.fst, ∀ m, P m → P (i.applyMain m)) :
    P main' := by
  induction run generalizing main with
  | nil => exact h ▸ hmain
  | cons p run ih =>
    apply ih h.2
    · exact hrun p.1 (by simp) main hmain
    · intro i hi
      exact hrun i (mem_cons_of_mem _ hi)

theorem Meets.after {r₁ r₂ : List (Item × OrderedMap KeyInfo Entry)} {i : Item}
    {before : OrderedMap KeyInfo Entry}
    (h : Meets main (r₁ ++ (i, before) :: r₂) main') :
    Meets (i.applyMain before) r₂ main' := by
  induction r₁ generalizing main with
  | nil => exact h.1 ▸ h.2
  | cons p r₁ ih => exact ih h.2

theorem Leads.split {l₁ l₂ : List Taken} (h : Leads main (l₁ ++ l₂) main') :
    ∃ mid, Leads mid l₁ main' ∧ Leads main l₂ mid := by
  induction l₁ generalizing main' with
  | nil => exact ⟨main', rfl, h⟩
  | cons t l₁ ih =>
    obtain ⟨mid, hmid, hrest⟩ := ih h.2
    exact ⟨mid, ⟨h.1, hmid⟩, hrest⟩

theorem Leads.preserves {P : OrderedMap KeyInfo Entry → Prop}
    {past : List Taken} (h : Leads main past main') (hmain : P main)
    (hpast : ∀ t ∈ past, ∀ i ∈ t.items, ∀ m, P m → P (i.applyMain m)) :
    P main' := by
  induction past generalizing main' with
  | nil => exact h ▸ hmain
  | cons t past ih =>
    have hchecked := ih h.2 fun t' ht' => hpast t' (mem_cons_of_mem _ ht')
    exact h.1.preserves hchecked (hpast t (by simp))

/-- What an item of the commit queue has led to so far, with the items that
are still on the callback queue. -/
structure Taken.Sound (cfg : Config) (t : Taken) (pending : List Item) :
    Prop where
  formed : t.queued.Formed cfg
  outcome :
    (Store.passes t.checked t.queued = false ∧ t.run = [] ∧ pending = []) ∨
      (Store.passes t.checked t.queued = true ∧ t.run ≠ [] ∧
        ∃ deletions : List Item,
          t.items ++ pending = t.queued.chain.items ++ deletions ∧
          ∀ i ∈ deletions, i.action = .del ∧ isPartsBucket i.fn.bucketId)

def Store.pendingCallbacks {ρ : Type} (s : Store ρ) : List Item :=
  s.callbackQueue.map Chain.item

namespace History

structure Inv (cfg : Config) (h : History) : Prop where
  formed : h.server.Formed cfg
  linear : Leads OrderedMap.empty h.past h.server.store.main
  pending : h.server.store.callbackQueue ≠ [] → h.past ≠ []
  latest : ∀ t past, h.past = t :: past →
    t.Sound cfg h.server.store.pendingCallbacks
  older : ∀ t past, h.past = t :: past → ∀ t' ∈ past, t'.Sound cfg []

theorem inv_init (cfg : Config) : Inv cfg init where
  formed := Server.formed_init cfg
  linear := rfl
  pending := by simp [init, Server.init]
  latest := by simp [init]
  older := by simp [init]

theorem Inv.sound {h : History} (hinv : h.Inv cfg)
    (hidle : h.server.store.callbackQueue = []) :
    ∀ t ∈ h.past, t.Sound cfg [] := by
  intro t ht
  cases hpast : h.past with
  | nil => simp [hpast] at ht
  | cons t₀ past =>
    rw [hpast] at ht
    rcases mem_cons.mp ht with rfl | ht
    · simpa [Store.pendingCallbacks, hidle] using hinv.latest t past hpast
    · exact hinv.older t₀ past hpast t ht

end History

theorem Server.Steps.client {s s' : Server} (h : Server.Steps cfg s ev s')
    (hev : ev ≠ .process) :
    s'.store.main = s.store.main ∧ s'.store.fm = s.store.fm ∧
      s'.store.callbackQueue = s.store.callbackQueue := by
  cases h with
  | start hbucket hobject hopen =>
    have hstore := hopen.store_eq.1
    simp [Server.start, hstore]
  | giveUp hrequest => simp
  | callback | passed | dropped => exact absurd rfl hev
  | _ => exact ⟨rfl, rfl, rfl⟩

theorem Server.Steps.process {s s' : Server}
    (h : Server.Steps cfg s .process s') :
    (∃ c rest, s.store.callbackQueue = c :: rest ∧
        (s.store.popCallback c rest).Ran c s'.store) ∨
      ∃ q rest, s.store.callbackQueue = [] ∧
        s.store.commitQueue = q :: rest ∧
        ((Store.passes s.store.main q = true ∧
            (s.store.popQueued q rest).Ran q.chain s'.store) ∨
          (Store.passes s.store.main q = false ∧
            s'.store.main = s.store.main ∧ s'.store.fm = s.store.fm ∧
            s'.store.callbackQueue = s.store.callbackQueue ∧
            s'.store.commitQueue = rest)) := by
  cases h with
  | start hbucket => simp [Event.bucketId?] at hbucket
  | callback hqueue hran => exact .inl ⟨_, _, hqueue, hran⟩
  | passed hidle hqueue hpass hran =>
    exact .inr ⟨_, _, hidle, hqueue, .inl ⟨hpass, hran⟩⟩
  | @dropped q rest m s₁ hidle hqueue hm hfail hs₁ =>
    refine .inr ⟨q, rest, hidle, hqueue, .inr ⟨?_, ?_⟩⟩
    · simp [Store.passes, hm, hfail]
    · subst hs₁
      split
      · simp
      · exact ⟨rfl, rfl, rfl, rfl⟩

@[simp] theorem item_comp_single : Chain.item ∘ single = id := rfl

theorem Chain.Formed.next_items {c : Chain} (h : c.Formed) :
    c.next.map Chain.item = c.linked := by
  cases h with
  | alone hi => rfl
  | linked hi hj => rfl

theorem callbacks_parts {main : OrderedMap KeyInfo Entry}
    (hmain : MainFits main) (i : Item) :
    ∀ j ∈ i.callbacks main, j.action = .del ∧ isPartsBucket j.fn.bucketId :=
  fun _ hj => deleteActions_parts hmain (Item.mem_callbacks hj)

namespace Taken

theorem sound_start {q : Queued Task} {main : OrderedMap KeyInfo Entry}
    (hq : q.Formed cfg) (hmain : MainFits main)
    (hpass : Store.passes main q = true) :
    (start main q).Sound cfg
      (q.chain.linked ++ q.chain.item.callbacks main) := by
  refine ⟨hq, .inr ⟨hpass, ?_, q.chain.item.callbacks main, ?_,
    callbacks_parts hmain _⟩⟩
  · simp [start, hpass]
  · simp [start, items, hpass, Chain.items]

theorem Sound.next {t : Taken} {i : Item} {pending : List Item}
    (h : t.Sound cfg (i :: pending)) (main : OrderedMap KeyInfo Entry)
    {more : List Item}
    (hmore : ∀ j ∈ more, j.action = .del ∧ isPartsBucket j.fn.bucketId) :
    (t.next main i).Sound cfg (pending ++ more) := by
  obtain ⟨-, -, hnone⟩ | ⟨hpass, -, deletions, heq, hdel⟩ := h.outcome
  · simp at hnone
  · refine ⟨h.formed, .inr ⟨hpass, ?_, deletions ++ more, ?_, ?_⟩⟩
    · simp [Taken.next]
    · calc (t.next main i).items ++ (pending ++ more)
          = (t.items ++ i :: pending) ++ more := by simp
        _ = t.queued.chain.items ++ (deletions ++ more) := by
          rw [heq, append_assoc]
    · intro j hj
      rcases mem_append.mp hj with hj | hj
      · exact hdel j hj
      · exact hmore j hj

end Taken

namespace History

theorem Inv.take {q : Queued Task} {rest : List (Queued Task)}
    (hinv : h.Inv cfg) (hformed : h'.server.Formed cfg)
    (hidle : h.server.store.callbackQueue = [])
    (hqueue : h.server.store.commitQueue = q :: rest)
    (hpast : h'.past = record h.server.store h.past)
    (hmeets : Meets h.server.store.main
      (Taken.start h.server.store.main q).run h'.server.store.main)
    (hsound : (Taken.start h.server.store.main q).Sound cfg
      h'.server.store.pendingCallbacks) : h'.Inv cfg := by
  have hrecord : h'.past = Taken.start h.server.store.main q :: h.past := by
    rw [hpast]
    simp [record, hidle, hqueue]
  constructor
  · exact hformed
  · rw [hrecord]
    exact ⟨hmeets, hinv.linear⟩
  · simp [hrecord]
  · intro t past heq
    rw [hrecord] at heq
    obtain ⟨rfl, rfl⟩ := List.cons.inj heq
    exact hsound
  · intro t past heq
    rw [hrecord] at heq
    obtain ⟨rfl, rfl⟩ := List.cons.inj heq
    exact hinv.sound hidle

theorem Inv.callback {c : Chain} {rest : List Chain} (hinv : h.Inv cfg)
    (hformed : h'.server.Formed cfg)
    (hqueue : h.server.store.callbackQueue = c :: rest)
    (hran : (h.server.store.popCallback c rest).Ran c h'.server.store)
    (hpast : h'.past = record h.server.store h.past) : h'.Inv cfg := by
  obtain ⟨t, past, hold⟩ :=
    exists_cons_of_ne_nil (hinv.pending (by simp [hqueue]))
  have hrecord : h'.past = t.next h.server.store.main c.item :: past := by
    rw [hpast]
    simp [record, hqueue, hold]
  have hlinear := hinv.linear
  rw [hold] at hlinear
  have hlinked : c.linked = [] := by
    have hhead := hinv.formed.callbacks
    rw [hqueue] at hhead
    exact hhead.head.2.1
  have hpending : h'.server.store.pendingCallbacks =
      rest.map Chain.item ++ c.item.callbacks h.server.store.main := by
    rw [Store.pendingCallbacks, hran.callbackQueue]
    simp [Chain.next, hlinked]
  have hsound := hinv.latest t past hold
  rw [Store.pendingCallbacks, hqueue, map_cons] at hsound
  constructor
  · exact hformed
  · rw [hrecord, hran.main]
    exact ⟨hlinear.1.snoc c.item, hlinear.2⟩
  · simp [hrecord]
  · intro t' past' heq
    rw [hrecord] at heq
    obtain ⟨rfl, rfl⟩ := List.cons.inj heq
    rw [hpending]
    exact hsound.next _ (callbacks_parts hinv.formed.main _)
  · intro t' past' heq
    rw [hrecord] at heq
    obtain ⟨rfl, rfl⟩ := List.cons.inj heq
    exact hinv.older t past hold

theorem Inv.step (hinv : h.Inv cfg)
    (hrec : h.Recorded cfg ev h') : h'.Inv cfg := by
  have hformed := hinv.formed.step hrec.steps
  have hpast := hrec.past
  by_cases hev : ev = .process
  · subst hev
    rw [if_pos rfl] at hpast
    obtain ⟨c, rest, hqueue, hran⟩ | ⟨q, rest, hidle, hqueue, hround⟩ :=
      hrec.steps.process
    · exact hinv.callback hformed hqueue hran hpast
    · have hq : q.Formed cfg := hinv.formed.queued q (by simp [hqueue])
      refine hinv.take hformed hidle hqueue hpast ?_ ?_
      · rcases hround with ⟨hpass, hran⟩ | ⟨hfail, hmain, -⟩
        · simp [Taken.start, hpass, Meets, hran.main]
        · simp [Taken.start, hfail, Meets, hmain]
      · rcases hround with ⟨hpass, hran⟩ | ⟨hfail, -, -, hcallbacks, -⟩
        · have hpending : h'.server.store.pendingCallbacks =
              q.chain.linked ++ q.chain.item.callbacks h.server.store.main := by
            rw [Store.pendingCallbacks, hran.callbackQueue]
            simp [hidle, hq.chain.next_items]
          rw [hpending]
          exact Taken.sound_start hq hinv.formed.main hpass
        · refine ⟨hq, .inl ⟨hfail, ?_, ?_⟩⟩
          · simp [Taken.start, hfail]
          · simp [Store.pendingCallbacks, hcallbacks, hidle]
  · rw [if_neg hev] at hpast
    obtain ⟨hmain, -, hcallbacks⟩ := hrec.steps.client hev
    constructor
    · exact hformed
    · rw [hmain, hpast]
      exact hinv.linear
    · rw [hcallbacks, hpast]
      exact hinv.pending
    · rw [Store.pendingCallbacks, hcallbacks, hpast]
      exact hinv.latest
    · rw [hpast]
      exact hinv.older

/-- The item that the next round of the commit thread runs, if any. -/
def nextItem (h : History) : Option Item :=
  match h.server.store.callbackQueue, h.server.store.commitQueue with
  | c :: _, _ => some c.item
  | [], q :: _ =>
    if Store.passes h.server.store.main q then some q.chain.item else none
  | [], [] => none

theorem Recorded.process (hrec : h.Recorded cfg .process h')
    (hinv : h.Inv cfg) :
    h'.server.store.main = (h.nextItem.elim h.server.store.main
        fun i => i.applyMain h.server.store.main) ∧
      h'.ran = h.ran ++
        h.nextItem.toList.map fun i => (i, h.server.store.main) := by
  have hpast := hrec.past
  rw [if_pos rfl] at hpast
  obtain ⟨c, rest, hqueue, hran⟩ | ⟨q, rest, hidle, hqueue, hround⟩ :=
    hrec.steps.process
  · obtain ⟨t, past, hold⟩ :=
      exists_cons_of_ne_nil (hinv.pending (by simp [hqueue]))
    have hnext : h.nextItem = some c.item := by simp [nextItem, hqueue]
    constructor
    · simp [hnext, hran.main]
    · simp [hnext, ran, hpast, record, hqueue, hold, Taken.next]
  · obtain ⟨hpass, hran⟩ | ⟨hfail, hmain, -⟩ := hround
    · have hnext : h.nextItem = some q.chain.item := by
        simp [nextItem, hidle, hqueue, hpass]
      constructor
      · simp [hnext, hran.main]
      · simp [hnext, ran, hpast, record, hidle, hqueue, Taken.start, hpass]
    · have hnext : h.nextItem = none := by
        simp [nextItem, hidle, hqueue, hfail]
      constructor
      · simp [hnext, hmain]
      · simp [hnext, ran, hpast, record, hidle, hqueue, Taken.start, hfail]

theorem Recorded.client (hrec : h.Recorded cfg ev h') (hev : ev ≠ .process) :
    h'.server.store.main = h.server.store.main ∧ h'.ran = h.ran ∧
      h'.past = h.past := by
  have hpast := hrec.past
  rw [if_neg hev] at hpast
  exact ⟨(hrec.steps.client hev).1, by simp [ran, hpast], hpast⟩

end History

end Hs5.S3
