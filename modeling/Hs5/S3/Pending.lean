import Hs5.S3.History
import Mathlib.Data.List.Perm.Basic
import Mathlib.Tactic.Ring

/-!
# Accounts of the commit queue

Two accounts are kept along every run.  The storage counts the items on their
way for every object name, and the counts are right at any time, also after
an item was dropped with all that is linked to it.  And every write that came
to nothing returns its extents exactly once: they are waiting to be returned,
on the commit queue, or freed.
-/

namespace Hs5.S3

open List

/-! ## Items on their way -/

/-- How many of the items count for an object name. -/
def commitItemCount (name : ℤ × Bytes) (items : List Item) : ℕ :=
  items.countP fun i =>
    i.action.hasCommitItem && decide (i.fn.commonPrefix = name)

@[simp] theorem commitItemCount_append (name : ℤ × Bytes)
    (l₁ l₂ : List Item) :
    commitItemCount name (l₁ ++ l₂) =
      commitItemCount name l₁ + commitItemCount name l₂ :=
  countP_append

theorem commitItemCount_cons (name : ℤ × Bytes) (i : Item)
    (items : List Item) :
    commitItemCount name (i :: items) =
      commitItemCount name [i] + commitItemCount name items :=
  commitItemCount_append name [i] items

theorem commitItemCount_items (name : ℤ × Bytes) (c : Chain) :
    commitItemCount name c.items =
      commitItemCount name [c.item] + commitItemCount name c.linked :=
  commitItemCount_cons name c.item c.linked

theorem countItems_apply (d : ℤ) (items : List Item)
    (counts : ℤ × Bytes → ℤ) (name : ℤ × Bytes) :
    countItems d items counts name =
      counts name + d * commitItemCount name items := by
  induction items generalizing counts with
  | nil => simp [countItems, commitItemCount]
  | cons i items ih =>
    have hcons : countItems d (i :: items) counts =
        countItems d items (countItems d [i] counts) := rfl
    rw [hcons, ih, commitItemCount_cons]
    have hone : countItems d [i] counts name =
        counts name + d * commitItemCount name [i] := by
      by_cases hcommit : i.action.hasCommitItem = true
      · by_cases hname : i.fn.commonPrefix = name
        · subst hname
          simp [countItems, commitItemCount, hcommit]
        · simp [countItems, commitItemCount, hcommit, hname,
            Function.update_of_ne (Ne.symm hname)]
      · simp [countItems, commitItemCount, hcommit]
    rw [hone]
    push_cast
    ring

variable {cfg : Config} {c : Chain}

namespace Store

variable {ρ : Type}

def pendingItems (s : Store ρ) : List Item :=
  s.callbackQueue.flatMap Chain.items ++
    s.commitQueue.flatMap fun q => q.chain.items

def Counted (s : Store ρ) : Prop :=
  ∀ name, s.commitItems name = commitItemCount name s.pendingItems

theorem counted_enqueue {s : Store ρ} (h : s.Counted) (q : Queued ρ) :
    (s.enqueue q).Counted := by
  intro name
  have hold := h name
  simp only [enqueue, pendingItems, countItems_apply, flatMap_append,
    flatMap_singleton, commitItemCount_append] at hold ⊢
  rw [hold, Chain.items]
  push_cast
  ring

theorem Ran.counted {s s' : Store ρ} (h : s.Ran c s')
    (hcount : ∀ name, s.commitItems name =
      commitItemCount name s.pendingItems + commitItemCount name c.linked) :
    s'.Counted := by
  intro name
  have hnext : c.next.flatMap Chain.items = c.linked := by
    unfold Chain.next
    split
    · rename_i hlinked
      simp [hlinked]
    · rename_i i linked hlinked
      simp [hlinked, Chain.items]
  have hsingle : ∀ l : List Item, (l.map single).flatMap Chain.items = l := by
    intro l
    simp [flatMap_map, single, Chain.items]
  rw [h.commitItems, countItems_apply, hcount]
  simp only [pendingItems, h.callbackQueue, h.commitQueue,
    flatMap_append, commitItemCount_append, hnext, hsingle]
  push_cast
  ring

theorem counted_drop {s : Store ρ} {q : Queued ρ} {rest : List (Queued ρ)}
    (h : s.Counted) (hqueue : s.commitQueue = q :: rest) :
    ({ s.popQueued q rest with
        commitItems := countItems (-1) q.chain.linked
          (s.popQueued q rest).commitItems } : Store ρ).Counted := by
  intro name
  have hold := h name
  simp only [pendingItems, hqueue, flatMap_cons,
    commitItemCount_append, commitItemCount_items] at hold
  simp only [pendingItems, popQueued, countItems_apply, hold,
    commitItemCount_append]
  push_cast
  ring

end Store

theorem Server.Steps.counted {s s' : Server} {ev : Event}
    (h : Server.Steps cfg s ev s') (hs : s.store.Counted) :
    s'.store.Counted := by
  cases h with
  | start hbucket hobject hopen =>
    have hstore := hopen.store_eq.1
    simpa [Server.start, hstore] using hs
  | readPart => exact hs
  | queue hrequest hchain | freeExtents hexts =>
    exact Store.counted_enqueue hs _
  | giveUp => exact hs
  | @callback c rest store hqueue hran =>
    apply hran.counted
    intro name
    have hold := hs name
    simp only [Store.pendingItems, hqueue, flatMap_cons,
      commitItemCount_append, commitItemCount_items] at hold
    simp only [Store.popCallback, countItems_apply, hold,
      Store.pendingItems, commitItemCount_append]
    push_cast
    ring
  | @passed q rest store hidle hqueue hpass hran =>
    apply hran.counted
    intro name
    have hold := hs name
    simp only [Store.pendingItems, hqueue, flatMap_cons,
      commitItemCount_append, commitItemCount_items] at hold
    simp only [Store.popQueued, countItems_apply, hold,
      Store.pendingItems, commitItemCount_append]
    push_cast
    ring
  | dropped hidle hqueue hm hfail hs' =>
    subst hs'
    have hdrop := Store.counted_drop hs hqueue
    split
    · exact hdrop
    · exact hdrop

/-! ## Extents of writes that came to nothing -/

/-- The extents that an item returns for a request. -/
def Item.returned (i : Item) : List (List SPunchItem) :=
  match i.action with
  | .freeExtents exts => [exts]
  | _ => []

/-- The extents of a write whose conditions failed. -/
def Taken.failed (t : Taken) : List (List SPunchItem) :=
  match t.run, t.queued.request with
  | [], some task => task.unused
  | _, _ => []

namespace History

/-- The extents that have to be returned: of writes whose conditions failed,
and of requests that were given up. -/
def failed (h : History) : List (List SPunchItem) :=
  h.past.flatMap Taken.failed ++ h.gaveUp.flatMap Task.unused

/-- The extents that have been returned, that are on the commit queue to be
returned, and that are waiting for that. -/
def returned (h : History) : List (List SPunchItem) :=
  h.applied.flatMap Item.returned ++
    (h.server.store.commitQueue.flatMap fun q => q.chain.item.returned) ++
    h.server.refused

/-- Everything that has to be returned is accounted for exactly once. -/
def Balanced (h : History) : Prop :=
  ∀ exts, h.returned.count exts = h.failed.count exts

end History

theorem Task.returned_chain {task : Task} {now : ℤ} {m : Option MatchInfo}
    (h : task.chain cfg now = some (c, m)) : c.item.returned = [] := by
  unfold Task.chain at h
  split at h
  · obtain ⟨rfl, -⟩ := Prod.mk.inj (Option.some.inj h)
    rfl
  · obtain ⟨rfl, -⟩ := Prod.mk.inj (Option.some.inj h)
    rfl
  · obtain ⟨rfl, -⟩ := Prod.mk.inj (Option.some.inj h)
    rfl
  · obtain ⟨rfl, -⟩ := Prod.mk.inj (Option.some.inj h)
    rfl
  · simp at h
  · obtain ⟨rfl, -⟩ := Prod.mk.inj (Option.some.inj h)
    rfl
  · obtain ⟨rfl, -⟩ := Prod.mk.inj (Option.some.inj h)
    rfl
  · obtain ⟨rfl, -⟩ := Prod.mk.inj (Option.some.inj h)
    rfl
  · obtain ⟨rfl, -⟩ := Prod.mk.inj (Option.some.inj h)
    rfl

theorem Queued.Formed.returned {q : Queued Task} {m : MatchInfo}
    (h : q.Formed cfg) (hm : q.matchInfo = some m) :
    q.chain.item.returned = [] := by
  cases h with
  | request htask hchain => exact Task.returned_chain hchain
  | freeExtents => simp at hm

theorem CallbacksFormed.returned {rest : List Chain}
    (h : CallbacksFormed (c :: rest)) : c.item.returned = [] := by
  obtain ⟨-, -, ⟨-, hlinks⟩ | ⟨-, hdel, -⟩⟩ := h.head
  · generalize c.item = i at hlinks
    cases hlinks with
    | add hfn => rfl
    | modifyData hfn => rfl
  · simp [Item.returned, hdel]

namespace History

variable {h h' : History}

section

variable (hbal : h.Balanced)

include hbal

theorem Balanced.of_count (hstep : ∀ exts,
      h'.returned.count exts + h.failed.count exts =
        h.returned.count exts + h'.failed.count exts) : h'.Balanced := by
  intro exts
  have hold := hbal exts
  have hnew := hstep exts
  omega

theorem Balanced.client {ev : Event} (hrec : h.Recorded cfg ev h')
    (hev : ev ≠ .process) : h'.Balanced := by
  apply hbal.of_count
  intro exts
  obtain ⟨s, past, gaveUp⟩ := h
  obtain ⟨s', past', gaveUp'⟩ := h'
  obtain ⟨hsteps, hpast, hgave, hgaveEq⟩ := hrec
  simp only at hsteps hpast hgave hgaveEq
  rw [if_neg hev] at hpast
  subst hpast
  cases hsteps with
  | start hbucket hobject hopen =>
    obtain ⟨hstore, -, -, hrefused⟩ := hopen.store_eq
    have hsame := hgaveEq (by
      rintro ticket rfl
      simp [Event.bucketId?] at hbucket)
    simp [returned, failed, applied, Server.start, hstore, hrefused, hsame]
  | readPart =>
    simp [returned, failed, applied, hgaveEq]
  | queue hrequest hchain =>
    simp [returned, failed, applied, hgaveEq, Store.enqueue,
      Task.returned_chain hchain]
  | @giveUp ticket task hrequest =>
    have hlook := OrderedMap.lookup_eq_some.mpr hrequest
    have hgave := hgave ticket rfl
    rw [hlook] at hgave
    simp only [returned, failed, applied, Server.refuse, hgave,
      Option.toList_some, flatMap_append, flatMap_singleton,
      count_append]
    omega
  | callback | passed | dropped => exact absurd rfl hev
  | @freeExtents index exts' hexts =>
    obtain ⟨hlt, hget⟩ := List.getElem?_eq_some_iff.mp hexts
    have hperm := (List.getElem_cons_eraseIdx_perm hlt).count_eq exts
    have hsame := hgaveEq (by simp)
    rw [hget, count_cons] at hperm
    simp only [returned, failed, applied, Store.enqueue, hsame,
      flatMap_append, flatMap_singleton, count_append,
      Item.returned, count_singleton]
    omega

theorem Balanced.callback {rest : List Chain} (hinv : h.Inv cfg)
    (hqueue : h.server.store.callbackQueue = c :: rest)
    (hcommit : h'.server.store.commitQueue = h.server.store.commitQueue)
    (hrefused : h'.server.refused = h.server.refused)
    (hpast : h'.past = record h.server.store h.past)
    (hgave : h'.gaveUp = h.gaveUp) : h'.Balanced := by
  apply hbal.of_count
  intro exts
  obtain ⟨t, past, hold⟩ :=
    exists_cons_of_ne_nil (hinv.pending (by simp [hqueue]))
  have hrecord : h'.past = t.next h.server.store.main c.item :: past := by
    rw [hpast]
    simp [record, hqueue, hold]
  have hnone : c.item.returned = [] := by
    apply CallbacksFormed.returned
    rw [← hqueue]
    exact hinv.formed.callbacks
  have hrun : t.run ≠ [] := by
    obtain ⟨-, -, hempty⟩ | ⟨-, hrun, -⟩ := (hinv.latest t past hold).outcome
    · simp [Store.pendingCallbacks, hqueue] at hempty
    · exact hrun
  have hfailed : (t.next h.server.store.main c.item).failed = t.failed := by
    obtain ⟨p, run, heq⟩ := exists_cons_of_ne_nil hrun
    simp [Taken.failed, Taken.next, heq]
  simp [returned, failed, applied, hrecord, hold, hcommit, hrefused, hgave,
    hnone, hfailed]

theorem Balanced.take {q : Queued Task} {rest : List (Queued Task)}
    (hidle : h.server.store.callbackQueue = [])
    (hqueue : h.server.store.commitQueue = q :: rest)
    (hcommit : h'.server.store.commitQueue = rest)
    (hpast : h'.past = record h.server.store h.past)
    (hgave : h'.gaveUp = h.gaveUp)
    (hrefused : h'.server.refused = h.server.refused ++
      (Taken.start h.server.store.main q).failed)
    (hitems : ((Taken.start h.server.store.main q).items.flatMap
      Item.returned) = q.chain.item.returned) : h'.Balanced := by
  apply hbal.of_count
  intro exts
  have hrecord : h'.past = Taken.start h.server.store.main q :: h.past := by
    rw [hpast]
    simp [record, hidle, hqueue]
  simp only [returned, failed, applied, hrecord, hqueue, hcommit, hrefused,
    hgave, reverse_cons, flatMap_append, flatMap_cons,
    flatMap_nil, append_nil, hitems, count_append]
  omega

theorem Balanced.step {ev : Event} (hinv : h.Inv cfg)
    (hrec : h.Recorded cfg ev h') : h'.Balanced := by
  by_cases hev : ev = .process
  · subst hev
    have hpast := hrec.past
    rw [if_pos rfl] at hpast
    have hgave := hrec.gaveUp_eq (by simp)
    have hsteps := hrec.steps
    generalize hs' : h'.server = s' at hsteps
    cases hsteps with
    | start hbucket => simp [Event.bucketId?] at hbucket
    | callback hqueue hran =>
      apply hbal.callback hinv hqueue _ _ hpast hgave
      · rw [hs', hran.commitQueue]
        rfl
      · rw [hs']
    | @passed q rest store hidle hqueue hpass hran =>
      apply hbal.take hidle hqueue _ hpast hgave
      · simp [hs', Taken.failed, Taken.start, hpass]
      · simp [Taken.items, Taken.start, hpass]
      · rw [hs', hran.commitQueue]
        rfl
    | @dropped q rest m s₁ hidle hqueue hm hfail hs₁ =>
      have hfail' : Store.passes h.server.store.main q = false := by
        simp [Store.passes, hm, hfail]
      have hnone := (hinv.formed.queued q (by simp [hqueue])).returned hm
      apply hbal.take hidle hqueue _ hpast hgave
      · rw [hs', hs₁]
        cases hreq : q.request with
        | none | some task => simp [Taken.failed, Taken.start, hfail', hreq]
      · simp [Taken.items, Taken.start, hfail', hnone]
      · rw [hs', hs₁]
        split
        · rfl
        · rfl
  · exact hbal.client hrec hev

end

end History

end Hs5.S3
