import Mathlib.Data.List.Basic
import Mathlib.Data.Nat.Notation

/-!
# Readers of token sequences

A reader consumes an initial part of a list of tokens or fails.  `Reads p ts a`
says that `p` recognises exactly the tokens `ts`, whatever follows them, and
returns `a`; a serializer is inverted by a reader if the reader reads every
serialized value.  The rules below follow the structure of a reader written
with `do`.
-/

abbrev Parser (τ : Type) := StateT (List τ) Option

namespace Parser

open List

variable {τ α β : Type}

def token : Parser τ τ
  | [] => none
  | t :: ts => some (t, ts)

def takeN (n : ℕ) : Parser τ (List τ) := fun ts =>
  if n ≤ ts.length then some (ts.take n, ts.drop n) else none

def remaining : Parser τ (List τ) := fun ts => some (ts, [])

def times (n : ℕ) (p : Parser τ α) : Parser τ (List α) :=
  match n with
  | 0 => pure []
  | n + 1 => do
      let a ← p
      let as ← times n p
      pure (a :: as)

/-- `p` consumes exactly `ts` and returns `a`. -/
def Reads (p : Parser τ α) (ts : List τ) (a : α) : Prop :=
  ∀ rest, p (ts ++ rest) = some (a, rest)

theorem reads_pure (a : α) : Reads (pure a : Parser τ α) [] a := fun _ => rfl

@[simp]
theorem token_cons (t : τ) (ts : List τ) : token (t :: ts) = some (t, ts) :=
  rfl

theorem reads_token (t : τ) : Reads token [t] t := fun _ => rfl

theorem reads_takeN (ts : List τ) : Reads (takeN ts.length) ts ts := by
  intro rest
  simp [takeN]

variable {p : Parser τ α} {f : α → Parser τ β} {ts ts' : List τ} {a : α}

theorem run_bind (h : p ts = some (a, ts')) : (p >>= f) ts = f a ts' := by
  change (p ts).bind (fun r => f r.1 r.2) = f a ts'
  rw [h]
  rfl

theorem bind_of_none (h : p ts = none) : (p >>= f) ts = none := by
  change (p ts).bind (fun r => f r.1 r.2) = none
  rw [h]
  rfl

theorem Reads.bind {ts us : List τ} {b : β} (hp : Reads p ts a)
    (hf : Reads (f a) us b) : Reads (p >>= f) (ts ++ us) b := by
  intro rest
  rw [append_assoc, run_bind (hp (us ++ rest))]
  exact hf rest

theorem Reads.bind_pure {f : α → β} {ts : List τ}
    (hp : Reads p ts a) : Reads (p >>= fun a => pure (f a)) ts (f a) := by
  have h := hp.bind (f := fun a => pure (f a)) (reads_pure (f a))
  rwa [append_nil] at h

theorem Reads.bind_done {ts : List τ} {b : β} (hp : Reads p ts a)
    (hf : f a = pure b) : Reads (p >>= f) ts b := by
  intro rest
  rw [run_bind (hp rest), hf]
  rfl

theorem Reads.run_eq {ts : List τ}
    (hp : Reads p ts a) : p ts = some (a, []) := by
  have h := hp []
  rwa [append_nil] at h

theorem reads_times {encode : α → List τ} (as : List α)
    (h : ∀ a ∈ as, Reads p (encode a) a) :
    Reads (times as.length p) (as.flatMap encode) as := by
  induction as with
  | nil => exact reads_pure []
  | cons a as ih =>
    rw [flatMap_cons]
    refine (h a (mem_cons_self ..)).bind ?_
    exact (ih fun b hb => h b (mem_cons_of_mem _ hb)).bind_pure

/-! ## Fields that a flag selects -/

/-- A field that is there if `b` is set. -/
def field (b : Bool) (p : Parser τ α) : Parser τ (Option α) :=
  if b then do
    let a ← p
    pure (some a)
  else pure none

theorem field_bind_of_none {f : Option α → Parser τ β} (h : p ts = none)
    (b : Bool) : (field b p >>= f) ts = if b then none else f none ts := by
  cases b with
  | false => rfl
  | true => exact bind_of_none (bind_of_none h)

theorem reads_field_map {p : Parser τ β} {b : Bool} {o : Option α}
    {encode : α → List τ} {g : α → β} (hb : b = o.isSome)
    (h : ∀ a ∈ o, Reads p (encode a) (g a)) :
    Reads (field b p) (o.elim [] encode) (o.map g) := by
  subst hb
  cases o with
  | none => exact reads_pure none
  | some a => exact (h a rfl).bind_pure

theorem reads_field {p : Parser τ α} {b : Bool} {o : Option α}
    {encode : α → List τ} (hb : b = o.isSome)
    (h : ∀ a ∈ o, Reads p (encode a) a) :
    Reads (field b p) (o.elim [] encode) o := by
  have hmap := reads_field_map (g := id) hb h
  rwa [Option.map_id] at hmap

/-! ## How much a reader consumes -/

/-- `p` consumes at least `k` tokens. -/
def Consumes (k : ℕ) (p : Parser τ α) : Prop :=
  ∀ ts a ts', p ts = some (a, ts') → ts'.length + k ≤ ts.length

theorem bind_eq_some {b : β} (h : (p >>= f) ts = some (b, ts')) :
    ∃ a us, p ts = some (a, us) ∧ f a us = some (b, ts') := by
  obtain ⟨⟨a, us⟩, hp, hf⟩ := Option.bind_eq_some_iff.mp h
  exact ⟨a, us, hp, hf⟩

theorem consumes_pure (a : α) : Consumes 0 (pure a : Parser τ α) := by
  intro ts b ts' h
  cases h
  exact Nat.le_refl _

theorem consumes_token : Consumes 1 (token : Parser τ τ) := by
  intro ts a ts' h
  cases ts with
  | nil => cases h
  | cons t ts =>
    cases h
    exact Nat.le_refl _

theorem Consumes.mono {j k : ℕ} (h : Consumes k p)
    (hjk : j ≤ k) : Consumes j p := by
  intro ts a ts' hp
  have := h ts a ts' hp
  omega

theorem Consumes.bind {j k : ℕ} (hp : Consumes j p)
    (hf : ∀ a, Consumes k (f a)) : Consumes (j + k) (p >>= f) := by
  intro ts b ts' h
  obtain ⟨a, us, hpa, hfa⟩ := bind_eq_some h
  have hfirst := hp _ _ _ hpa
  have hsecond := hf a _ _ _ hfa
  omega

theorem Consumes.times {k n : ℕ} (hp : Consumes k p) {as : List α}
    (h : times n p ts = some (as, ts')) :
    ts'.length + k * as.length ≤ ts.length := by
  induction n generalizing ts as with
  | zero =>
    cases h
    exact Nat.le_refl _
  | succ n ih =>
    obtain ⟨a, us, hpa, hrest⟩ := bind_eq_some h
    obtain ⟨as', vs, htimes, hpure⟩ := bind_eq_some hrest
    cases hpure
    have hfirst := hp _ _ _ hpa
    have hothers := ih htimes
    rw [length_cons, Nat.mul_succ]
    omega

end Parser
