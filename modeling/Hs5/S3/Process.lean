import Hs5.S3.CommitQueue

/-!
# What one round of the commit thread does

An item has three effects: on the main map, on the free map and on the
callback queue.  Each is a function of the item and of the main map it meets,
and a round of the commit thread is one of three things: it runs an item of
the callback queue, it runs an item of the commit queue whose conditions are
met, or it drops such an item.  Later modules only use this description.
-/

namespace Hs5.S3

open Option

open CommitState (addFreemapExts)

/-! ## The effects of an item -/

/-- The deletions that come with removing the entry at a key. -/
def deleteActions (main : OrderedMap KeyInfo Entry) (fn : KeyInfo) :
    List Item :=
  match main.lookup fn with
  | none => []
  | some e => (onDeleteCallback fn e.md5sum).map fun fn => ⟨fn, .del⟩

def extentsAt (main : OrderedMap KeyInfo Entry) (fn : KeyInfo) :
    List SPunchItem :=
  match main.lookup fn with
  | none => []
  | some e => e.extents

theorem mem_deleteActions {main : OrderedMap KeyInfo Entry} {fn : KeyInfo}
    {j : Item} (h : j ∈ deleteActions main fn) :
    ∃ e, (fn, e) ∈ main ∧ j.action = .del ∧
      j.fn ∈ onDeleteCallback fn e.md5sum := by
  unfold deleteActions at h
  split at h
  · simp at h
  · rename_i e hlook
    obtain ⟨fn', hfn, rfl⟩ := List.mem_map.mp h
    exact ⟨e, OrderedMap.lookup_eq_some.mp hlook, rfl, hfn⟩

namespace Item

def applyMain (i : Item) (main : OrderedMap KeyInfo Entry) :
    OrderedMap KeyInfo Entry :=
  match i.action with
  | .add v => main.insert i.fn v
  | .del | .delNoCallback => main.erase i.fn
  | .modifyData addParts =>
    match main.lookup i.fn with
    | none => main
    | some e =>
      main.insert i.fn
        { e with md5sum := onModifyCallback e.md5sum addParts }
  | .modifyMetadata param =>
    match main.lookup i.fn with
    | none => main
    | some e =>
      match onModifyMetadataCallback e.md5sum param with
      | .error _ => main
      | .ok md5sum => main.insert i.fn { e with md5sum := md5sum }
  | .freeExtents _ => main

def callbacks (i : Item) (main : OrderedMap KeyInfo Entry) : List Item :=
  match i.action with
  | .add _ | .del => deleteActions main i.fn
  | _ => []

def freed (i : Item) (main : OrderedMap KeyInfo Entry) : List SPunchItem :=
  match i.action with
  | .add _ | .del | .delNoCallback => extentsAt main i.fn
  | .freeExtents exts => exts
  | _ => []

theorem mem_applyMain_of_ne {i : Item} {main : OrderedMap KeyInfo Entry}
    {p : KeyInfo × Entry} (h : p.1 ≠ i.fn) :
    p ∈ i.applyMain main ↔ p ∈ main := by
  have hne : ∀ v, p ≠ (i.fn, v) := fun v heq => h (congrArg Prod.fst heq)
  unfold applyMain
  split
  · simp [h, hne]
  · simp [h]
  · simp [h]
  · split
    · rfl
    · simp [h, hne]
  · split
    · rfl
    · split
      · rfl
      · simp [h, hne]
  · rfl

theorem mem_callbacks {i j : Item} {main : OrderedMap KeyInfo Entry}
    (h : j ∈ i.callbacks main) : j ∈ deleteActions main i.fn := by
  unfold callbacks at h
  split at h
  · exact h
  · exact h
  · simp at h

end Item

/-! ## Running an item -/

/-- What becomes the next item of the callback queue once the item runs. -/
def Chain.next (c : Chain) : List Chain :=
  match c.linked with
  | [] => []
  | i :: linked => [⟨i, linked⟩]

def single (i : Item) : Chain := ⟨i, []⟩

variable {ρ : Type}

/-- The store after an item with its links has run. -/
structure Store.Ran (s : Store ρ) (c : Chain) (s' : Store ρ) : Prop where
  main : s'.main = c.item.applyMain s.main
  callbackQueue : s'.callbackQueue =
    s.callbackQueue ++ c.next ++ (c.item.callbacks s.main).map single
  commitQueue : s'.commitQueue = s.commitQueue
  commitItems : s'.commitItems =
    countItems 1 (c.item.callbacks s.main) s.commitItems
  fm : (addFreemapExts s.fm (c.item.freed s.main)).map (·.free) =
    some s'.fm.free

namespace Store

/-- What `removeFn` does, with the deletions that it asks for. -/
structure Removed (s : Store ρ) (fn : KeyInfo) (delFromMain : Bool)
    (otherActions : List Item) (s' : Store ρ) : Prop where
  main : s'.main = if delFromMain then s.main.erase fn else s.main
  callbackQueue : s'.callbackQueue = s.callbackQueue ++ otherActions.map single
  commitQueue : s'.commitQueue = s.commitQueue
  commitItems : s'.commitItems = countItems 1 otherActions s.commitItems
  fm : (addFreemapExts s.fm (extentsAt s.main fn)).map (·.free) =
    some s'.fm.free

theorem removeFn_removed {s s' : Store ρ} {fn : KeyInfo}
    {delFromMain callCallback : Bool}
    (h : s.removeFn fn delFromMain callCallback = some s') :
    s.Removed fn delFromMain
      (if callCallback then deleteActions s.main fn else []) s' := by
  unfold removeFn at h
  cases hlook : s.main.lookup fn with
  | none =>
    simp only [hlook, Option.some.injEq] at h
    subst h
    have herase : s.main.erase fn = s.main :=
      OrderedMap.erase_eq_self (OrderedMap.lookup_eq_none.mp hlook)
    constructor <;>
      simp [deleteActions, extentsAt, hlook, herase, countItems, addFreemapExts]
  | some e =>
    simp only [hlook] at h
    obtain ⟨fm, hfm, rfl⟩ := map_eq_some_iff.mp h
    constructor
    · rfl
    · cases callCallback <;> simp [deleteActions, hlook, single]
    · rfl
    · cases callCallback <;> simp [deleteActions, hlook]
    · simp [extentsAt, hlook, hfm]

theorem runItem_ran {s s' : Store ρ} {i : Item} {ans : Option Answer}
    (h : s.runItem i = some (s', ans)) : s.Ran ⟨i, []⟩ s' := by
  obtain ⟨fn, action⟩ := i
  cases action with
  | add v =>
    obtain ⟨s₁, hs₁, heq⟩ := map_eq_some_iff.mp h
    cases heq
    have hrem := removeFn_removed hs₁
    exact
      { main := by simp [Item.applyMain, hrem.main]
        callbackQueue := by
          simpa [Chain.next, Item.callbacks] using hrem.callbackQueue
        commitQueue := hrem.commitQueue
        commitItems := hrem.commitItems
        fm := hrem.fm }
  | del | delNoCallback =>
    obtain ⟨s₁, hs₁, heq⟩ := map_eq_some_iff.mp h
    cases heq
    have hrem := removeFn_removed hs₁
    exact
      { main := hrem.main
        callbackQueue := by
          simpa [Chain.next, Item.callbacks] using hrem.callbackQueue
        commitQueue := hrem.commitQueue
        commitItems := hrem.commitItems
        fm := hrem.fm }
  | modifyData addParts =>
    simp only [runItem] at h
    split at h <;> cases h <;>
      constructor <;>
      simp_all [Item.applyMain, Item.callbacks, Item.freed, Chain.next,
        countItems, addFreemapExts]
  | modifyMetadata param =>
    simp only [runItem] at h
    split at h
    · cases h
      constructor <;>
        simp_all [Item.applyMain, Item.callbacks, Item.freed, Chain.next,
          countItems, addFreemapExts]
    · split at h <;> cases h <;>
        constructor <;>
        simp_all [Item.applyMain, Item.callbacks, Item.freed, Chain.next,
          countItems, addFreemapExts]
  | freeExtents exts =>
    obtain ⟨fm, hfm, heq⟩ := map_eq_some_iff.mp h
    cases heq
    constructor <;>
      simp_all [Item.applyMain, Item.callbacks, Item.freed, Chain.next,
        countItems]

theorem runChain_ran {s s' : Store ρ} {c : Chain} {ans : Option Answer}
    (h : s.runChain c = some (s', ans)) : s.Ran c s' := by
  obtain ⟨i, linked⟩ := c
  cases linked with
  | nil => exact runItem_ran h
  | cons j linked =>
    have hran := runItem_ran (s := { s with
      callbackQueue := s.callbackQueue ++ [Chain.mk j linked] }) h
    exact
      { main := hran.main
        callbackQueue := by
          simpa [Chain.next] using hran.callbackQueue
        commitQueue := hran.commitQueue
        commitItems := hran.commitItems
        fm := hran.fm }

/-! ## A round of the commit thread -/

/-- The store without the first item of the callback queue. -/
def popCallback (s : Store ρ) (c : Chain) (rest : List Chain) : Store ρ :=
  { s with
    callbackQueue := rest
    commitItems := countItems (-1) [c.item] s.commitItems }

/-- The store without the first item of the commit queue. -/
def popQueued (s : Store ρ) (q : Queued ρ) (rest : List (Queued ρ)) :
    Store ρ :=
  { s with
    commitQueue := rest
    commitItems := countItems (-1) [q.chain.item] s.commitItems }

section Pop

variable (s : Store ρ) (c : Chain) (cs : List Chain) (q : Queued ρ)
  (qs : List (Queued ρ))

@[simp] theorem popCallback_main : (s.popCallback c cs).main = s.main := rfl

@[simp] theorem popCallback_fm : (s.popCallback c cs).fm = s.fm := rfl

@[simp] theorem popCallback_callbackQueue :
    (s.popCallback c cs).callbackQueue = cs := rfl

@[simp] theorem popCallback_commitQueue :
    (s.popCallback c cs).commitQueue = s.commitQueue := rfl

@[simp] theorem popQueued_main : (s.popQueued q qs).main = s.main := rfl

@[simp] theorem popQueued_fm : (s.popQueued q qs).fm = s.fm := rfl

@[simp] theorem popQueued_callbackQueue :
    (s.popQueued q qs).callbackQueue = s.callbackQueue := rfl

@[simp] theorem popQueued_commitQueue :
    (s.popQueued q qs).commitQueue = qs := rfl

@[simp] theorem enqueue_main : (s.enqueue q).main = s.main := rfl

@[simp] theorem enqueue_fm : (s.enqueue q).fm = s.fm := rfl

@[simp] theorem enqueue_callbackQueue :
    (s.enqueue q).callbackQueue = s.callbackQueue := rfl

@[simp] theorem enqueue_commitQueue :
    (s.enqueue q).commitQueue = s.commitQueue ++ [q] := rfl

end Pop

def passes (main : OrderedMap KeyInfo Entry) (q : Queued ρ) : Bool :=
  q.matchInfo.all fun m => (fragInfoMatches main q.chain.item.fn m).isMatch

/-- The three things that a round of the commit thread can be. -/
inductive Round (s : Store ρ) : Store ρ →
    Option (Queued ρ × Option Answer) → Prop
  | callback {c rest s'} (hqueue : s.callbackQueue = c :: rest)
      (hran : (s.popCallback c rest).Ran c s') : Round s s' none
  | passed {q rest s' ans} (hcallback : s.callbackQueue = [])
      (hqueue : s.commitQueue = q :: rest) (hpass : passes s.main q = true)
      (hran : (s.popQueued q rest).Ran q.chain s')
      (hans : ∀ r, ans = some (.matched r) → r.isMatch = true) :
      Round s s' (some (q, ans))
  | dropped {q rest m} (hcallback : s.callbackQueue = [])
      (hqueue : s.commitQueue = q :: rest) (hm : q.matchInfo = some m)
      (hfail : (fragInfoMatches s.main q.chain.item.fn m).isMatch = false) :
      Round s
        { s.popQueued q rest with
          commitItems := countItems (-1) q.chain.linked
            (s.popQueued q rest).commitItems }
        (some (q, some (.matched (fragInfoMatches s.main q.chain.item.fn m))))

theorem runItem_not_matched {s s' : Store ρ} {i : Item} {r : MatchResult} :
    s.runItem i ≠ some (s', some (.matched r)) := by
  intro h
  unfold runItem at h
  split at h
  · simp at h
  · simp at h
  · simp at h
  · split at h <;> simp at h
  · split at h
    · simp at h
    · split at h <;> simp at h
  · simp at h

theorem process_round {s s' : Store ρ}
    {out : Option (Queued ρ × Option Answer)}
    (h : s.process = some (s', out)) : s.Round s' out := by
  unfold process at h
  split at h
  · rename_i c rest hqueue
    obtain ⟨⟨s₁, ans⟩, hrun, heq⟩ := map_eq_some_iff.mp h
    cases heq
    exact Round.callback hqueue (runChain_ran hrun)
  · rename_i hcallback
    split at h
    · simp at h
    · rename_i q rest hqueue
      obtain ⟨⟨s₁, ans⟩, hrun, heq⟩ := map_eq_some_iff.mp h
      cases heq
      simp only [runQueued] at hrun
      split at hrun
      · rename_i hm
        refine Round.passed hcallback hqueue ?_ (runChain_ran hrun) ?_
        · simp [passes, hm]
        · rintro r rfl
          exact absurd hrun runItem_not_matched
      · rename_i m hm
        split at hrun
        · rename_i hmatch
          obtain ⟨⟨s₂, ans₂⟩, hchain, heq⟩ := map_eq_some_iff.mp hrun
          cases heq
          refine Round.passed hcallback hqueue ?_ (runChain_ran hchain) ?_
          · simpa [passes, hm] using hmatch
          · intro r hr
            cases hr
            exact hmatch
        · rename_i hmatch
          cases hrun
          exact Round.dropped hcallback hqueue hm (by simpa using hmatch)

end Store

end Hs5.S3
