import Hs5.Data.VarInt
import Hs5.Support.Glob
import Mathlib.Data.List.TakeWhile

/-!
# Matching resources

`resourceMatch` decides whether a resource is in the language of a pattern of a
policy.  It goes through both, and comes back to the last star of the pattern
when they differ: the star then stands for one more character.
-/

namespace Hs5.Auth

open List Glob

def wildcards : Wildcards UInt8 where
  star := 42
  any := 63
  star_ne_any := by decide

/-! ## The loop -/

/-- The variables of `resourceMatch`: what is left of the pattern and of the
resource, and, once a star was met, what follows it and the rest of the
resource that was tried with it last. -/
structure MatchState where
  p : Bytes
  r : Bytes
  star : Option (Bytes × Bytes)

inductive MatchStep where
  | next (s : MatchState)
  | done (result : Bool)

/-- Go back to the last star, which stands for one more character. -/
def MatchState.goBack (s : MatchState) : MatchStep :=
  match s.star with
  | some (q, m) => .next ⟨q, m.tail, some (q, m.tail)⟩
  | none => .done false

/-- One pass of the loop, or, behind the resource, the end of the function. -/
def matchStep (s : MatchState) : MatchStep :=
  match s.r with
  | [] => .done ((s.p.dropWhile fun d => d = wildcards.star).isEmpty)
  | c :: r =>
    match s.p with
    | [] => s.goBack
    | d :: p =>
      if d = wildcards.any ∨ d = c then .next ⟨p, r, s.star⟩
      else if d = wildcards.star then .next ⟨p, c :: r, some (p, c :: r)⟩
      else s.goBack

def resourceMatchLoop : ℕ → MatchState → Option Bool
  | 0, _ => none
  | fuel + 1, s =>
    match matchStep s with
    | .next s => resourceMatchLoop fuel s
    | .done result => some result

/-- Passes that are enough for a pattern and a resource of these lengths. -/
def matchFuel (pattern resource : ℕ) : ℕ :=
  (pattern + 1 + resource) * (pattern + 1) + pattern + 1

def resourceMatch (policyResource resource : Bytes) : Bool :=
  (resourceMatchLoop (matchFuel policyResource.length resource.length)
    ⟨policyResource, resource, none⟩).getD false

/-! ## One pass -/

section Step

variable {s : MatchState}

theorem matchStep_cases (s : MatchState) :
    (s.r = [] ∧ matchStep s =
      .done ((s.p.dropWhile fun d => d = wildcards.star).isEmpty)) ∨
    (∃ d p c r, s.p = d :: p ∧ s.r = c :: r ∧ Fits wildcards d c ∧
      matchStep s = .next ⟨p, r, s.star⟩) ∨
    (∃ p, s.p = wildcards.star :: p ∧ s.r ≠ [] ∧
      matchStep s = .next ⟨p, s.r, some (p, s.r)⟩) ∨
    (s.r ≠ [] ∧ ¬ Matches wildcards s.p s.r ∧ matchStep s = s.goBack) := by
  obtain ⟨p, r, star⟩ := s
  rcases r with _ | ⟨c, r⟩
  · exact .inl ⟨rfl, rfl⟩
  · rcases p with _ | ⟨d, p⟩
    · exact .inr (.inr (.inr ⟨by simp, by simp, rfl⟩))
    · by_cases hfits : d = wildcards.any ∨ d = c
      · refine .inr (.inl ⟨d, p, c, r, rfl, rfl, hfits, ?_⟩)
        simp only [matchStep, if_pos hfits]
      · by_cases hstar : d = wildcards.star
        · refine .inr (.inr (.inl ⟨p, by rw [hstar], by simp, ?_⟩))
          simp only [matchStep, if_neg hfits, if_pos hstar]
        · refine .inr (.inr (.inr ⟨by simp, ?_, ?_⟩))
          · exact fun h => hfits ((matches_cons hstar).mp h).1
          · simp only [matchStep, if_neg hfits, if_neg hstar]

theorem goBack_cases (s : MatchState) :
    (s.star = none ∧ s.goBack = .done false) ∨
      ∃ q m, s.star = some (q, m) ∧
        s.goBack = .next ⟨q, m.tail, some (q, m.tail)⟩ := by
  rcases hstar : s.star with _ | ⟨q, m⟩
  · exact .inl ⟨rfl, by rw [MatchState.goBack, hstar]⟩
  · exact .inr ⟨q, m, rfl, by rw [MatchState.goBack, hstar]⟩

theorem next_cases {s' : MatchState} (h : matchStep s = .next s') :
    (∃ d p c r, s.p = d :: p ∧ s.r = c :: r ∧ Fits wildcards d c ∧
      s' = ⟨p, r, s.star⟩) ∨
    (∃ p, s.p = wildcards.star :: p ∧ s.r ≠ [] ∧
      s' = ⟨p, s.r, some (p, s.r)⟩) ∨
    (s.r ≠ [] ∧ ¬ Matches wildcards s.p s.r ∧ ∃ q m, s.star = some (q, m) ∧
      s' = ⟨q, m.tail, some (q, m.tail)⟩) := by
  rcases matchStep_cases s with ⟨-, heq⟩ | ⟨d, p, c, r, hsp, hsr, hfits, heq⟩ |
    ⟨p, hsp, hsr, heq⟩ | ⟨hsr, hnot, heq⟩
  · rw [heq] at h
    exact absurd h (by simp)
  · rw [heq, MatchStep.next.injEq] at h
    exact .inl ⟨d, p, c, r, hsp, hsr, hfits, h.symm⟩
  · rw [heq, MatchStep.next.injEq] at h
    exact .inr (.inl ⟨p, hsp, hsr, h.symm⟩)
  · rw [heq] at h
    rcases goBack_cases s with ⟨-, hback⟩ | ⟨q, m, hstar, hback⟩
    · rw [hback] at h
      exact absurd h (by simp)
    · rw [hback, MatchStep.next.injEq] at h
      exact .inr (.inr ⟨hsr, hnot, q, m, hstar, h.symm⟩)

theorem done_cases {result : Bool} (h : matchStep s = .done result) :
    (s.r = [] ∧
      result = (s.p.dropWhile fun d => d = wildcards.star).isEmpty) ∨
    (¬ Matches wildcards s.p s.r ∧ s.star = none ∧ result = false) := by
  rcases matchStep_cases s with ⟨hsr, heq⟩ | ⟨d, p, c, r, -, -, -, heq⟩ |
    ⟨p, -, -, heq⟩ | ⟨-, hnot, heq⟩
  · rw [heq, MatchStep.done.injEq] at h
    exact .inl ⟨hsr, h.symm⟩
  · rw [heq] at h
    exact absurd h (by simp)
  · rw [heq] at h
    exact absurd h (by simp)
  · rw [heq] at h
    rcases goBack_cases s with ⟨hstar, hback⟩ | ⟨q, m, -, hback⟩
    · rw [hback, MatchStep.done.injEq] at h
      exact .inr ⟨hnot, hstar, h.symm⟩
    · rw [hback] at h
      exact absurd h (by simp)

theorem isEmpty_dropWhile_star (p : Bytes) :
    (p.dropWhile fun d => d = wildcards.star).isEmpty = true ↔
      Matches wildcards p [] := by
  rw [matches_empty, List.isEmpty_iff, List.dropWhile_eq_nil_iff]
  simp

end Step

/-! ## The loop returns -/

/-- How far a state is in a pattern and a resource of these lengths. -/
structure Within (pattern resource : ℕ) (s : MatchState) : Prop where
  p_le : s.p.length ≤ pattern
  r_le : s.r.length ≤ resource
  star_le : ∀ q m, s.star = some (q, m) →
    s.p.length ≤ q.length ∧ q.length ≤ pattern ∧
      s.r.length ≤ m.length ∧ m.length ≤ resource

/-- How often the loop can still meet a star or go back to one. -/
def jumps (pattern resource : ℕ) (s : MatchState) : ℕ :=
  match s.star with
  | none => pattern + 1 + resource
  | some (q, m) => q.length + m.length

/-- Between two jumps the rest of the pattern gets shorter. -/
def matchVariant (pattern resource : ℕ) (s : MatchState) : ℕ :=
  jumps pattern resource s * (pattern + 1) + s.p.length

section Returns

variable {pattern resource : ℕ} {s s' : MatchState}

theorem matchVariant_lt_of_jump (h : Within pattern resource s')
    (hjump : jumps pattern resource s' < jumps pattern resource s) :
    matchVariant pattern resource s' < matchVariant pattern resource s := by
  have hmul := Nat.mul_le_mul_right (pattern + 1) hjump
  have hle := h.p_le
  rw [Nat.succ_mul] at hmul
  unfold matchVariant
  omega

theorem matchStep_variant (h : Within pattern resource s)
    (hstep : matchStep s = .next s') :
    Within pattern resource s' ∧
      matchVariant pattern resource s' < matchVariant pattern resource s := by
  have hp := h.p_le
  have hr := h.r_le
  rcases next_cases hstep with ⟨d, p, c, r, hsp, hsr, -, rfl⟩ |
    ⟨p, hsp, hsr, rfl⟩ | ⟨hsr, -, q, m, hstar, rfl⟩
  · rw [hsp] at hp
    rw [hsr] at hr
    simp only [length_cons] at hp hr
    refine ⟨⟨by simp only; omega, by simp only; omega, ?_⟩, ?_⟩
    · intro q m hstar
      have hle := h.star_le q m hstar
      rw [hsp, hsr] at hle
      simp only [length_cons] at hle ⊢
      omega
    · have hjumps : jumps pattern resource ⟨p, r, s.star⟩ =
          jumps pattern resource s := rfl
      unfold matchVariant
      rw [hjumps, hsp]
      simp
  · rw [hsp] at hp
    simp only [length_cons] at hp
    have hwithin : Within pattern resource ⟨p, s.r, some (p, s.r)⟩ := by
      refine ⟨by simp only; omega, hr, ?_⟩
      rintro q m ⟨⟩
      simp only
      omega
    refine ⟨hwithin, matchVariant_lt_of_jump hwithin ?_⟩
    unfold jumps
    rcases hstar : s.star with _ | ⟨q, m⟩
    · simp only
      omega
    · have hle := h.star_le q m hstar
      rw [hsp] at hle
      simp only [length_cons] at hle ⊢
      omega
  · have hle := h.star_le q m hstar
    have hpos : 0 < s.r.length := length_pos_iff.mpr hsr
    have hwithin : Within pattern resource ⟨q, m.tail, some (q, m.tail)⟩ := by
      refine ⟨hle.2.1, by simp only [length_tail]; omega, ?_⟩
      rintro q' m' ⟨⟩
      simp only [length_tail]
      omega
    refine ⟨hwithin, matchVariant_lt_of_jump hwithin ?_⟩
    unfold jumps
    simp only [hstar, length_tail]
    omega

theorem resourceMatchLoop_returns {fuel : ℕ} (h : Within pattern resource s)
    (hfuel : matchVariant pattern resource s < fuel) :
    ∃ result, resourceMatchLoop fuel s = some result := by
  induction fuel generalizing s with
  | zero => omega
  | succ fuel ih =>
    unfold resourceMatchLoop
    rcases hstep : matchStep s with s' | result
    · obtain ⟨hwithin, hlt⟩ := matchStep_variant h hstep
      exact ih hwithin (by omega)
    · exact ⟨result, rfl⟩

theorem resourceMatch_returns (policyResource resource : Bytes) :
    resourceMatchLoop (matchFuel policyResource.length resource.length)
        ⟨policyResource, resource, none⟩ =
      some (resourceMatch policyResource resource) := by
  have hwithin : Within policyResource.length resource.length
      ⟨policyResource, resource, none⟩ :=
    ⟨Nat.le_refl _, Nat.le_refl _, by simp⟩
  obtain ⟨result, hresult⟩ := resourceMatchLoop_returns hwithin
    (show _ < matchFuel policyResource.length resource.length from
      Nat.lt_succ_self _)
  simp only [resourceMatch, hresult, Option.getD_some]

end Returns

/-! ## What the loop decides -/

/-- What is left of the pattern matches the rest of the resource, or what
follows the last star matches a later rest of it. -/
def Accepts (s : MatchState) : Prop :=
  Matches wildcards s.p s.r ∨
    ∃ q m, s.star = some (q, m) ∧ ∃ k, Matches wildcards q (m.drop (k + 1))

/-- Since the last star, letters of the pattern have met as many letters of the
resource, and no star was taken for a letter. -/
def Tracks (s : MatchState) : Prop :=
  ∀ q m, s.star = some (q, m) → ∃ seg, q = seg ++ s.p ∧
    wildcards.star ∉ seg ∧ seg.length ≤ m.length ∧ m.drop seg.length = s.r

/-- The current characters are not both a star. -/
def NoStarMet (s : MatchState) : Prop :=
  ∀ p r, s.p = wildcards.star :: p → s.r ≠ wildcards.star :: r

section Decides

variable {s s' : MatchState} {result : Bool}

/-- Going back to the last star tries all that is left to try. -/
theorem accepts_goBack (hr : ¬ Matches wildcards s.p s.r) {q m : Bytes}
    (hstar : s.star = some (q, m)) :
    Accepts s ↔ Accepts ⟨q, m.tail, some (q, m.tail)⟩ := by
  constructor
  · rintro (h | ⟨q', m', hstar', k, hk⟩)
    · exact absurd h hr
    · obtain ⟨rfl, rfl⟩ := Prod.mk.inj
        (Option.some.inj (hstar.symm.trans hstar'))
      rw [← drop_tail] at hk
      rcases k with _ | k
      · exact .inl hk
      · exact .inr ⟨q, m.tail, rfl, k, hk⟩
  · rintro (h | ⟨q', m', hstar', k, hk⟩)
    · exact .inr ⟨q, m, hstar, 0, by rwa [← drop_tail]⟩
    · obtain ⟨rfl, rfl⟩ := Prod.mk.inj (Option.some.inj hstar')
      rw [drop_tail] at hk
      exact .inr ⟨q, m, hstar, k + 1, hk⟩

theorem accepts_of_next (hstep : matchStep s = .next s') (h : Accepts s') :
    Accepts s := by
  rcases next_cases hstep with ⟨d, p, c, r, hsp, hsr, hfits, rfl⟩ |
    ⟨p, hsp, -, rfl⟩ | ⟨-, hnot, q, m, hstar, rfl⟩
  · rcases h with h | h
    · refine .inl ?_
      rw [hsp, hsr]
      by_cases hd : d = wildcards.star
      · rw [hd]
        exact matches_star.mpr ⟨1, h⟩
      · exact (matches_cons hd).mpr ⟨hfits, h⟩
    · exact .inr h
  · refine .inl ?_
    rw [hsp, matches_star]
    rcases h with h | ⟨q, m, hstar, k, hk⟩
    · exact ⟨0, h⟩
    · obtain ⟨rfl, rfl⟩ := Prod.mk.inj (Option.some.inj hstar)
      exact ⟨k + 1, hk⟩
  · exact (accepts_goBack hnot hstar).mpr h

theorem accepts_of_done (hstep : matchStep s = .done true) : Accepts s := by
  rcases done_cases hstep with ⟨hsr, hresult⟩ | ⟨-, -, hresult⟩
  · refine .inl ?_
    rw [hsr]
    exact (isEmpty_dropWhile_star s.p).mp hresult.symm
  · exact absurd hresult (by simp)

/-- What the letters since the last star have matched is not tried again at a
later place: a star behind them accepts all of that, too. -/
theorem Tracks.matches_star (h : Tracks s) {p : Bytes}
    (hsp : s.p = wildcards.star :: p) (haccepts : Accepts s) :
    Matches wildcards (wildcards.star :: p) s.r := by
  rcases haccepts with hmatch | ⟨q, m, hstar, k, hk⟩
  · rwa [hsp] at hmatch
  · obtain ⟨seg, rfl, hseg, -, hdrop⟩ := h q m hstar
    rw [hsp] at hk
    have hmatch := Matches.of_append_star hseg hk
    rwa [hdrop] at hmatch

theorem Tracks.matches_end (h : Tracks s) (hsr : s.r = [])
    (haccepts : Accepts s) : Matches wildcards s.p [] := by
  rcases haccepts with hmatch | ⟨q, m, hstar, k, hk⟩
  · rwa [hsr] at hmatch
  · obtain ⟨seg, rfl, hseg, hlen, hdrop⟩ := h q m hstar
    rw [hsr, drop_eq_nil_iff] at hdrop
    obtain ⟨hle, hmatch⟩ := Matches.drop_of_append hseg hk
    rw [length_drop] at hle
    rw [drop_drop, drop_eq_nil_of_le (by omega)] at hmatch
    exact hmatch

theorem NoStarMet.ne_star (hno : NoStarMet s) {d c : UInt8} {p r : Bytes}
    (hsp : s.p = d :: p) (hsr : s.r = c :: r) (hfits : Fits wildcards d c) :
    d ≠ wildcards.star := by
  rintro rfl
  rcases hfits with hany | rfl
  · exact wildcards.star_ne_any hany
  · exact hno p r hsp hsr

theorem accepts_next (htracks : Tracks s) (hno : NoStarMet s)
    (hstep : matchStep s = .next s') (h : Accepts s) : Accepts s' := by
  rcases next_cases hstep with ⟨d, p, c, r, hsp, hsr, hfits, rfl⟩ |
    ⟨p, hsp, -, rfl⟩ | ⟨-, hnot, q, m, hstar, rfl⟩
  · rcases h with h | h
    · rw [hsp, hsr] at h
      exact .inl ((matches_cons (hno.ne_star hsp hsr hfits)).mp h).2
    · exact .inr h
  · obtain ⟨k, hk⟩ := matches_star.mp (htracks.matches_star hsp h)
    rcases k with _ | k
    · exact .inl hk
    · exact .inr ⟨p, s.r, rfl, k, hk⟩
  · exact (accepts_goBack hnot hstar).mp h

theorem accepts_done (htracks : Tracks s)
    (hstep : matchStep s = .done result) (h : Accepts s) : result = true := by
  rcases done_cases hstep with ⟨hsr, hresult⟩ | ⟨hnot, hnone, -⟩
  · rw [hresult]
    exact (isEmpty_dropWhile_star s.p).mpr (htracks.matches_end hsr h)
  · rcases h with h | ⟨q, m, hstar, -⟩
    · exact absurd h hnot
    · rw [hnone] at hstar
      exact absurd hstar (by simp)

theorem tracks_next (htracks : Tracks s) (hno : NoStarMet s)
    (hstep : matchStep s = .next s') : Tracks s' := by
  rcases next_cases hstep with ⟨d, p, c, r, hsp, hsr, hfits, rfl⟩ |
    ⟨p, -, -, rfl⟩ | ⟨-, -, q, m, -, rfl⟩
  · intro q m hstar
    obtain ⟨seg, hq, hseg, hlen, hdrop⟩ := htracks q m hstar
    rw [hsr] at hdrop
    have hlt : seg.length < m.length := by
      by_contra hge
      rw [drop_eq_nil_of_le (by omega)] at hdrop
      exact absurd hdrop (by simp)
    have hd := hno.ne_star hsp hsr hfits
    refine ⟨seg ++ [d], ?_, by simp [hseg, hd.symm], by simp; omega, ?_⟩
    · rw [hq, hsp, append_assoc, singleton_append]
    · rw [length_append, ← drop_drop, hdrop]
      rfl
  · rintro q m ⟨⟩
    exact ⟨[], rfl, by simp, by simp, rfl⟩
  · rintro q' m' ⟨⟩
    exact ⟨[], rfl, by simp, by simp, rfl⟩

end Decides

/-! ## The whole loop -/

/-- What the pattern has before a star is matched by nothing that the resource
has before a `*`. -/
def StarApart (policyResource resource : Bytes) : Prop :=
  ∀ u v x y, policyResource = u ++ wildcards.star :: v →
    resource = x ++ wildcards.star :: y → ¬ Matches wildcards u x

/-- Not both the pattern and the resource have the character `*`. -/
def StarFree (policyResource resource : Bytes) : Prop :=
  wildcards.star ∉ policyResource ∨ wildcards.star ∉ resource
  deriving Decidable

/-- What lies before the current characters, and before those that were tried
with the last star, matches. -/
structure Along (policyResource resource : Bytes) (s : MatchState) :
    Prop where
  here : ∃ u x, policyResource = u ++ s.p ∧ resource = x ++ s.r ∧
    Matches wildcards u x
  star : ∀ q m, s.star = some (q, m) → ∃ u x, policyResource = u ++ q ∧
    resource = x ++ m ∧ ∀ z, Matches wildcards u (x ++ z)

section Loop

variable {policyResource resource : Bytes} {s s' : MatchState}

theorem StarFree.starApart (h : StarFree policyResource resource) :
    StarApart policyResource resource := by
  intro u v x y hu hx _
  rcases h with h | h
  · exact h (by rw [hu]; simp)
  · exact h (by rw [hx]; simp)

/-- For a pattern with one star only its own place in the resource counts. -/
theorem starApart_of_head {u v : Bytes} (hu : wildcards.star ∉ u)
    (hv : wildcards.star ∉ v)
    (h : (resource.drop u.length).head? ≠ some wildcards.star) :
    StarApart (u ++ wildcards.star :: v) resource := by
  intro u' v' x y hpattern hx hmatch
  obtain ⟨rfl, -, -⟩ := (append_cons_inj_of_notMem hu hv).mp hpattern
  rw [← append_nil u] at hmatch
  obtain ⟨hle, hrest⟩ := Matches.drop_of_append hu hmatch
  rw [matches_nil, drop_eq_nil_iff] at hrest
  have hlen : x.length = u.length := by omega
  rw [hx, ← hlen, drop_left] at h
  exact h rfl

theorem Along.noStarMet (h : Along policyResource resource s)
    (hapart : StarApart policyResource resource) : NoStarMet s := by
  intro p r hp hr
  obtain ⟨u, x, hu, hx, hmatch⟩ := h.here
  rw [hp] at hu
  rw [hr] at hx
  exact hapart u p x r hu hx hmatch

theorem matches_of_fits {d c : UInt8} (h : Fits wildcards d c) :
    Matches wildcards [d] [c] := by
  by_cases hd : d = wildcards.star
  · rw [hd]
    exact matches_singleton_star _
  · exact (matches_cons hd).mpr ⟨h, matches_nil.mpr rfl⟩

theorem Along.next (h : Along policyResource resource s)
    (hstep : matchStep s = .next s') : Along policyResource resource s' := by
  obtain ⟨u, x, hu, hx, hmatch⟩ := h.here
  rcases next_cases hstep with ⟨d, p, c, r, hsp, hsr, hfits, rfl⟩ |
    ⟨p, hsp, -, rfl⟩ | ⟨-, -, q, m, hstar, rfl⟩
  · refine ⟨⟨u ++ [d], x ++ [c], ?_, ?_,
      hmatch.append (matches_of_fits hfits)⟩, h.star⟩
    · rw [hu, hsp, append_assoc, singleton_append]
    · rw [hx, hsr, append_assoc, singleton_append]
  · have hall : ∀ z, Matches wildcards (u ++ [wildcards.star]) (x ++ z) :=
      fun z => hmatch.append (matches_singleton_star z)
    have hpattern : policyResource = u ++ [wildcards.star] ++ p := by
      rw [hu, hsp, append_assoc, singleton_append]
    refine ⟨⟨_, x, hpattern, hx, by simpa using hall []⟩, ?_⟩
    rintro q m ⟨⟩
    exact ⟨_, x, hpattern, hx, hall⟩
  · obtain ⟨u, x, hu, hx, hall⟩ := h.star q m hstar
    have htail : resource = x ++ m.take 1 ++ m.tail := by
      rw [hx, append_assoc, ← drop_one, take_append_drop]
    have hlater : ∀ z, Matches wildcards u (x ++ m.take 1 ++ z) := by
      intro z
      rw [append_assoc]
      exact hall _
    refine ⟨⟨u, _, hu, htail, by simpa using hlater []⟩, ?_⟩
    rintro q' m' ⟨⟩
    exact ⟨u, _, hu, htail, hlater⟩

theorem resourceMatchLoop_sound {fuel : ℕ}
    (h : resourceMatchLoop fuel s = some true) : Accepts s := by
  induction fuel generalizing s with
  | zero => simp [resourceMatchLoop] at h
  | succ fuel ih =>
    unfold resourceMatchLoop at h
    rcases hstep : matchStep s with s' | result
    · simp only [hstep] at h
      exact accepts_of_next hstep (ih h)
    · simp only [hstep, Option.some.injEq] at h
      rw [h] at hstep
      exact accepts_of_done hstep

theorem resourceMatchLoop_complete {fuel : ℕ} {result : Bool}
    (hapart : StarApart policyResource resource)
    (halong : Along policyResource resource s) (htracks : Tracks s)
    (haccepts : Accepts s) (h : resourceMatchLoop fuel s = some result) :
    result = true := by
  induction fuel generalizing s with
  | zero => simp [resourceMatchLoop] at h
  | succ fuel ih =>
    unfold resourceMatchLoop at h
    have hno := halong.noStarMet hapart
    rcases hstep : matchStep s with s' | result'
    · simp only [hstep] at h
      exact ih (halong.next hstep) (tracks_next htracks hno hstep)
        (accepts_next htracks hno hstep haccepts) h
    · simp only [hstep, Option.some.injEq] at h
      rw [← h]
      exact accepts_done htracks hstep haccepts

theorem matches_of_resourceMatch
    (h : resourceMatch policyResource resource = true) :
    Matches wildcards policyResource resource := by
  have hreturns := resourceMatch_returns policyResource resource
  rw [h] at hreturns
  rcases resourceMatchLoop_sound hreturns with hmatch | ⟨q, m, hstar, -⟩
  · exact hmatch
  · exact absurd hstar (by simp)

theorem resourceMatch_of_starApart (hapart : StarApart policyResource resource)
    (h : Matches wildcards policyResource resource) :
    resourceMatch policyResource resource = true := by
  have halong : Along policyResource resource
      ⟨policyResource, resource, none⟩ :=
    ⟨⟨[], [], rfl, rfl, matches_nil.mpr rfl⟩, by simp⟩
  have htracks : Tracks ⟨policyResource, resource, none⟩ := by
    intro q m hstar
    exact absurd hstar (by simp)
  exact resourceMatchLoop_complete hapart halong htracks (.inl h)
    (resourceMatch_returns policyResource resource)

theorem resourceMatch_of_matches (hfree : StarFree policyResource resource)
    (h : Matches wildcards policyResource resource) :
    resourceMatch policyResource resource = true :=
  resourceMatch_of_starApart hfree.starApart h

theorem resourceMatchLoop_letters {u p r : Bytes} {fuel : ℕ} {result : Bool}
    (hu : wildcards.star ∉ u) (hle : u.length ≤ r.length)
    (h : resourceMatchLoop fuel ⟨u ++ p, r, none⟩ = some result) :
    (result = false ∧ ¬ Matches wildcards (u ++ p) r) ∨
      ∃ fuel', resourceMatchLoop fuel' ⟨p, r.drop u.length, none⟩ =
        some result := by
  induction u generalizing r fuel with
  | nil => exact .inr ⟨fuel, h⟩
  | cons d u ih =>
    rw [mem_cons, not_or] at hu
    have hd : d ≠ wildcards.star := Ne.symm hu.1
    rcases r with _ | ⟨c, r⟩
    · exact absurd hle (by simp)
    · rcases fuel with _ | fuel
      · exact absurd h (by simp [resourceMatchLoop])
      · by_cases hfits : d = wildcards.any ∨ d = c
        · simp only [resourceMatchLoop, matchStep, cons_append, hfits,
            if_true] at h
          rcases ih hu.2 (Nat.le_of_succ_le_succ hle) h with
            ⟨hfalse, hnot⟩ | hrest
          · refine .inl ⟨hfalse, fun hmatch => hnot ?_⟩
            exact ((matches_cons hd).mp hmatch).2
          · exact .inr hrest
        · simp only [resourceMatchLoop, matchStep, cons_append, hfits,
            hd, if_false, MatchState.goBack, Option.some.injEq] at h
          exact .inl ⟨h.symm, fun hmatch =>
            hfits ((matches_cons hd).mp hmatch).1⟩

theorem resourceMatch_star_met {u v y : Bytes} (hu : wildcards.star ∉ u)
    (hv : wildcards.star ∉ v)
    (hy : resource.drop u.length = wildcards.star :: y) :
    resourceMatch (u ++ wildcards.star :: v) resource = true ↔
      Matches wildcards (u ++ wildcards.star :: v) resource ∧
        Matches wildcards v y := by
  have hle : u.length ≤ resource.length := by
    by_contra hlt
    rw [drop_eq_nil_of_le (by omega)] at hy
    exact absurd hy (by simp)
  have hmet : ∀ {fuel result}, resourceMatchLoop fuel
      ⟨wildcards.star :: v, wildcards.star :: y, none⟩ = some result →
        ∃ fuel', resourceMatchLoop fuel' ⟨v, y, none⟩ = some result := by
    intro fuel result h
    rcases fuel with _ | fuel
    · exact absurd h (by simp [resourceMatchLoop])
    · simp only [resourceMatchLoop, matchStep, or_true, if_true] at h
      exact ⟨fuel, h⟩
  have hreturns := resourceMatch_returns (u ++ wildcards.star :: v) resource
  have hletters := resourceMatchLoop_letters hu hle hreturns
  rw [hy] at hletters
  constructor
  · intro h
    refine ⟨matches_of_resourceMatch h, ?_⟩
    rcases hletters with ⟨hfalse, -⟩ | ⟨fuel, hrest⟩
    · exact absurd (hfalse.symm.trans h) (by simp)
    · rw [h] at hrest
      obtain ⟨fuel', hrest⟩ := hmet hrest
      rcases resourceMatchLoop_sound hrest with hmatch | ⟨q, m, hstar, -⟩
      · exact hmatch
      · exact absurd hstar (by simp)
  · rintro ⟨hmatch, hrest⟩
    rcases hletters with ⟨-, hnot⟩ | ⟨fuel, hloop⟩
    · exact absurd hmatch hnot
    · obtain ⟨fuel', hloop⟩ := hmet hloop
      have halong : Along v y ⟨v, y, none⟩ :=
        ⟨⟨[], [], rfl, rfl, matches_nil.mpr rfl⟩, by simp⟩
      have htracks : Tracks ⟨v, y, none⟩ := by
        intro q m hstar
        exact absurd hstar (by simp)
      exact resourceMatchLoop_complete (StarFree.starApart (.inl hv)) halong
        htracks (.inl hrest) hloop

/-- Exactly what is accepted for a pattern with one star. -/
theorem resourceMatch_single {u v : Bytes} (hu : wildcards.star ∉ u)
    (hv : wildcards.star ∉ v) :
    resourceMatch (u ++ wildcards.star :: v) resource = true ↔
      Matches wildcards (u ++ wildcards.star :: v) resource ∧
        ∀ y, resource.drop u.length = wildcards.star :: y →
          Matches wildcards v y := by
  by_cases hhead : (resource.drop u.length).head? = some wildcards.star
  · obtain ⟨y, hy⟩ := head?_eq_some_iff.mp hhead
    rw [resourceMatch_star_met hu hv hy]
    refine and_congr_right fun _ => ⟨fun h y' hy' => ?_, fun h => h y hy⟩
    obtain rfl := (List.cons.inj (hy.symm.trans hy')).2
    exact h
  · have hapart := starApart_of_head hu hv hhead
    refine ⟨fun h => ⟨matches_of_resourceMatch h, fun y hy => ?_⟩,
      fun h => resourceMatch_of_starApart hapart h.1⟩
    rw [hy] at hhead
    exact absurd rfl hhead

end Loop

end Hs5.Auth
