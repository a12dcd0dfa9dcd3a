import Mathlib.Data.List.Sort
import Mathlib.Order.Defs.LinearOrder

/-!
# Finite ordered maps with cursor access

`OrderedMap κ ν` is a finite map whose entries are listed in increasing key
order; the order is a field, so a list that is not strictly sorted is not a
map.  Besides point access it offers the two cursor movements of an ordered
key-value store: `lowerBound` finds the first entry at or after a key and
`below` the last entry before it.  Every operation is characterised by
membership of entries, which is the form proofs use.
-/

/-- A finite map listed in strictly increasing key order. -/
structure OrderedMap (κ ν : Type*) [LinearOrder κ] where
  entries : List (κ × ν)
  sorted : entries.Pairwise fun a b => a.1 < b.1
  deriving DecidableEq

namespace OrderedMap

open List

variable {κ ν : Type*} [LinearOrder κ]

instance : Membership (κ × ν) (OrderedMap κ ν) := ⟨fun m p => p ∈ m.entries⟩

instance [DecidableEq ν] (p : κ × ν) (m : OrderedMap κ ν) :
    Decidable (p ∈ m) :=
  inferInstanceAs (Decidable (p ∈ m.entries))

variable {m : OrderedMap κ ν} {k : κ} {p : κ × ν}

theorem mem_def :
    p ∈ m ↔ p ∈ m.entries := Iff.rfl

def empty : OrderedMap κ ν := ⟨[], List.Pairwise.nil⟩

@[simp] theorem not_mem_empty (p : κ × ν) :
    p ∉ (empty : OrderedMap κ ν) := not_mem_nil

def lookup (m : OrderedMap κ ν) (k : κ) : Option ν :=
  (m.entries.find? fun p => p.1 = k).map Prod.snd

/-- The first entry at or after `k`. -/
def lowerBound (m : OrderedMap κ ν) (k : κ) : Option (κ × ν) :=
  m.entries.find? fun p => k ≤ p.1

/-- The last entry before `k`. -/
def below (m : OrderedMap κ ν) (k : κ) : Option (κ × ν) :=
  (m.entries.filter fun p => p.1 < k).getLast?

/-- Remove the entry at `k`, if any. -/
def erase (m : OrderedMap κ ν) (k : κ) : OrderedMap κ ν :=
  ⟨m.entries.filter fun p => p.1 ≠ k, m.sorted.filter _⟩

/-- Store `v` at `k`, replacing an entry that is already there. -/
def insert (m : OrderedMap κ ν) (k : κ) (v : ν) : OrderedMap κ ν :=
  ⟨(m.entries.filter fun p => p.1 < k) ++
      (k, v) :: (m.entries.filter fun p => k < p.1), by
    rw [pairwise_append, pairwise_cons]
    refine ⟨m.sorted.filter _, ⟨?_, m.sorted.filter _⟩, ?_⟩
    · intro p hp
      simpa using (mem_filter.mp hp).2
    · intro a ha b hb
      have hak : a.1 < k := by simpa using (mem_filter.mp ha).2
      rcases mem_cons.mp hb with rfl | hb
      · exact hak
      · have hkb : k < b.1 := by simpa using (mem_filter.mp hb).2
        exact hak.trans hkb⟩

def filter (m : OrderedMap κ ν) (keep : κ × ν → Bool) : OrderedMap κ ν :=
  ⟨m.entries.filter keep, m.sorted.filter _⟩

/-! ## Membership -/

theorem eq_of_mem {p q : κ × ν} (hp : p ∈ m) (hq : q ∈ m)
    (hkey : p.1 = q.1) : p = q := by
  by_contra hne
  have hlt : ∀ l : List (κ × ν), l.Pairwise (fun a b => a.1 < b.1) →
      p ∈ l → q ∈ l → False := by
    intro l hl
    induction hl with
    | nil => simp
    | @cons a l ha _ ih =>
      intro hpl hql
      rcases mem_cons.mp hpl with rfl | hpl'
      · rcases mem_cons.mp hql with rfl | hql'
        · exact hne rfl
        · exact absurd hkey (ha q hql').ne
      · rcases mem_cons.mp hql with rfl | hql'
        · exact absurd hkey (ha p hpl').ne'
        · exact ih hpl' hql'
  exact hlt m.entries m.sorted hp hq

@[simp] theorem mem_erase : p ∈ m.erase k ↔ p ∈ m ∧ p.1 ≠ k := by
  simp [mem_def, erase]

@[simp] theorem mem_insert {v : ν} :
    p ∈ m.insert k v ↔ p = (k, v) ∨ (p ∈ m ∧ p.1 ≠ k) := by
  simp only [mem_def, insert, mem_append, mem_cons,
    mem_filter, decide_eq_true_eq, ne_iff_lt_or_gt]
  tauto

@[simp] theorem mem_filter
    {keep : κ × ν → Bool} : p ∈ m.filter keep ↔ p ∈ m ∧ keep p = true := by
  simp [mem_def, filter]

theorem erase_eq_self (h : ∀ p ∈ m, p.1 ≠ k) : m.erase k = m := by
  have hentries : (m.erase k).entries = m.entries := by
    apply filter_eq_self.mpr
    intro p hp
    simpa using h p hp
  cases m
  simpa [erase] using hentries

@[simp] theorem insert_erase (m : OrderedMap κ ν) (k : κ) (v : ν) :
    (m.erase k).insert k v = m.insert k v := by
  simp only [insert, erase, filter_filter, mk.injEq]
  congr 1
  · apply filter_congr
    intro p _
    by_cases h : p.1 < k
    · simp [h, h.ne]
    · simp [h]
  · congr 1
    apply filter_congr
    intro p _
    by_cases h : k < p.1
    · simp [h, h.ne']
    · simp [h]

theorem perm_erase {v : ν} (h : (k, v) ∈ m) :
    m.entries.Perm ((k, v) :: (m.erase k).entries) := by
  have hkeep : ∀ l : List (κ × ν), l.Pairwise (fun a b => a.1 < b.1) →
      (k, v) ∈ l → l.Perm ((k, v) :: l.filter fun p => p.1 ≠ k) := by
    intro l hl
    induction hl with
    | nil => simp
    | @cons a l ha _ ih =>
      intro hmem
      rcases mem_cons.mp hmem with rfl | hmem'
      · have hall : (l.filter fun p => p.1 ≠ k) = l := by
          apply filter_eq_self.mpr
          intro p hp
          simpa using (ha p hp).ne'
        rw [filter_cons_of_neg (by simp), hall]
      · have hak : a.1 ≠ k := (ha _ hmem').ne
        have hfilter : ((a :: l).filter fun p => p.1 ≠ k) =
            a :: l.filter fun p => p.1 ≠ k := by simp [hak]
        rw [hfilter]
        exact ((ih hmem').cons a).trans (List.Perm.swap _ _ _)
  exact hkeep m.entries m.sorted h

theorem perm_insert (m : OrderedMap κ ν) (k : κ) (v : ν) :
    (m.insert k v).entries.Perm ((k, v) :: (m.erase k).entries) := by
  have hsplit : (m.erase k).entries.Perm
      ((m.entries.filter fun p => p.1 < k) ++
        m.entries.filter fun p => k < p.1) := by
    have h := (filter_append_perm (fun p => decide (p.1 < k))
      (m.erase k).entries).symm
    refine h.trans (List.Perm.of_eq ?_)
    simp only [erase, filter_filter]
    congr 1
    · apply filter_congr
      intro p _
      simpa using fun h : p.1 < k => h.ne
    · apply filter_congr
      intro p _
      have hiff : ¬ p.1 < k ∧ p.1 ≠ k ↔ k < p.1 :=
        ⟨fun h => lt_of_le_of_ne (not_lt.mp h.1) h.2.symm,
          fun h => ⟨h.le.not_gt, h.ne'⟩⟩
      rw [Bool.eq_iff_iff, Bool.and_eq_true, Bool.not_eq_true',
        decide_eq_false_iff_not, decide_eq_true_iff, decide_eq_true_iff]
      exact hiff
  exact perm_middle.trans (hsplit.symm.cons _)

theorem lookup_eq_some {v : ν} :
    m.lookup k = some v ↔ (k, v) ∈ m := by
  constructor
  · intro h
    obtain ⟨p, hp, rfl⟩ := Option.map_eq_some_iff.mp h
    have hk : p.1 = k := by simpa using find?_some hp
    exact hk ▸ mem_of_find?_eq_some hp
  · intro h
    cases hf : m.entries.find? fun p => p.1 = k with
    | none =>
      have := find?_eq_none.mp hf (k, v) h
      simp at this
    | some p =>
      have hk : p.1 = k := by simpa using find?_some hf
      have hpv := eq_of_mem (mem_of_find?_eq_some hf) h hk
      simp [lookup, hf, hpv]

theorem lookup_eq_none :
    m.lookup k = none ↔ ∀ p ∈ m, p.1 ≠ k := by
  simp [lookup, mem_def]

theorem ext_mem {m m' : OrderedMap κ ν} (h : ∀ p, p ∈ m ↔ p ∈ m') :
    m = m' := by
  have hnodup : ∀ m : OrderedMap κ ν, m.entries.Nodup := fun m =>
    m.sorted.imp fun hlt heq => absurd (congrArg Prod.fst heq) hlt.ne
  have hperm : m.entries.Perm m'.entries :=
    (perm_ext_iff_of_nodup (hnodup m) (hnodup m')).mpr h
  have heq := hperm.eq_of_pairwise
    (fun a b _ _ hab hba => absurd hab hba.not_gt) m.sorted m'.sorted
  cases m
  cases m'
  simpa using heq

theorem lookup_congr {m m' : OrderedMap κ ν}
    (h : ∀ v, (k, v) ∈ m ↔ (k, v) ∈ m') : m.lookup k = m'.lookup k := by
  apply Option.ext
  intro v
  rw [lookup_eq_some, lookup_eq_some, h]

@[simp] theorem lookup_empty (k : κ) :
    (empty : OrderedMap κ ν).lookup k = none := rfl

@[simp] theorem lookup_insert_self (m : OrderedMap κ ν) (k : κ) (v : ν) :
    (m.insert k v).lookup k = some v := by
  simp [lookup_eq_some]

theorem lookup_insert_of_ne (m : OrderedMap κ ν) {k k' : κ} (v : ν)
    (h : k' ≠ k) : (m.insert k v).lookup k' = m.lookup k' := by
  apply lookup_congr
  simp [h]

@[simp] theorem lookup_erase_self (m : OrderedMap κ ν) (k : κ) :
    (m.erase k).lookup k = none := by
  simp [lookup_eq_none]

theorem lookup_erase_of_ne (m : OrderedMap κ ν) {k k' : κ} (h : k' ≠ k) :
    (m.erase k).lookup k' = m.lookup k' := by
  apply lookup_congr
  simp [h]

/-! ## Cursor movements -/

theorem lowerBound_some (h : m.lowerBound k = some p) :
    p ∈ m ∧ k ≤ p.1 ∧ ∀ q ∈ m, k ≤ q.1 → p.1 ≤ q.1 := by
  obtain ⟨hk, l₁, l₂, heq, hbefore⟩ := find?_eq_some_iff_append.mp h
  have hmem : p ∈ m := mem_of_find?_eq_some h
  refine ⟨hmem, by simpa using hk, ?_⟩
  intro q hq hkq
  have hsorted := m.sorted
  rw [heq, pairwise_append, pairwise_cons] at hsorted
  rw [mem_def, heq, mem_append, mem_cons] at hq
  rcases hq with hq | rfl | hq
  · have hnot := hbefore q hq
    simp only [Bool.not_eq_eq_eq_not, Bool.not_true,
      decide_eq_false_iff_not] at hnot
    exact absurd hkq hnot
  · exact le_rfl
  · exact (hsorted.2.1.1 q hq).le

theorem lowerBound_none (h : m.lowerBound k = none) : ∀ q ∈ m, q.1 < k := by
  intro q hq
  have hnot := find?_eq_none.mp h q hq
  simpa using hnot

theorem below_some (h : m.below k = some p) :
    p ∈ m ∧ p.1 < k ∧ ∀ q ∈ m, q.1 < k → q.1 ≤ p.1 := by
  have hne := ne_nil_of_mem (mem_of_getLast? h)
  have hmem := mem_filter.mp (mem_of_getLast? h)
  refine ⟨hmem.1, by simpa using hmem.2, ?_⟩
  intro q hq hqk
  have hlast := dropLast_append_getLast? p h
  have hsorted := m.sorted.filter (fun p => decide (p.1 < k))
  have hqf : q ∈ m.entries.filter fun p => p.1 < k :=
    mem_filter.mpr ⟨hq, by simpa using hqk⟩
  rw [← hlast, mem_append, mem_singleton] at hqf
  rw [← hlast, pairwise_append] at hsorted
  rcases hqf with hqf | rfl
  · exact (hsorted.2.2 q hqf p (mem_singleton.mpr rfl)).le
  · exact le_rfl

theorem below_none (h : m.below k = none) : ∀ q ∈ m, k ≤ q.1 := by
  intro q hq
  have hnil := getLast?_eq_none_iff.mp h
  have hnot := filter_eq_nil_iff.mp hnil q hq
  simpa using hnot

end OrderedMap
