import Jstring.Lib.MaxSuffix

/-!
# Shifts of the two-way matcher

The reasons why the matcher may skip positions of the text, free of any
loop. The word is `x` of length `l`, the text is `y`, both as indexed
letters, and `Matches x l y h` says that `x` stands in `y` at `h`.

Everything rests on `Critical x l c`: at the cut `c` every repetition is
a period of the word. Between two positions at which the word might
stand, whatever is known to match at the first one is repeated by the
second (`localRep_of_matches`). Hence

- `not_matches_of_right`: a mismatch at `k ≥ c` behind a matched part
  `[c, k)` rules out the next `k - c + 1` positions;
- `not_matches_of_left`: a matched right part rules out every position
  nearer than the shortest period;
- `not_matches_of_prefix`: after a shift by the period, a last letter
  that is not the word's rules out the whole known prefix.

`period_le_of_repeats`/`period_le_of_not_repeats` are the two outcomes of
the periodicity test, and bound the shift after a mismatch on the left.
-/

namespace Words

variable {α : Type*} {x y : Nat → α} {l c h p : Nat}

/-- Every repetition across the cut `c` reaches beyond the left part and
is a period of the whole word. -/
def Critical (x : Nat → α) (l c : Nat) : Prop :=
  ∀ r, 0 < r → LocalRep x l c r → c < r ∧ Period x l r

theorem Critical.congr (hxy : ∀ i < l, x i = y i) (h : Critical x l c) : Critical y l c := by
  intro r hr hrep
  obtain ⟨hc, hper⟩ := h r hr (hrep.congr fun i hi => (hxy i hi).symm)
  exact ⟨hc, hper.congr hxy⟩

theorem critical_of_maxSuf {lt : α → α → Prop} (hasymm : ∀ a b, lt a b → ¬lt b a)
    {c' : Nat} (hc : MaxSuf lt x l c) (hc' : MaxSuf (fun a b => lt b a) x l c')
    (hle : c' ≤ c) : Critical x l c :=
  fun _ hr hrep => ⟨hrep.lt_of_maxSuf hasymm hc hr, hrep.period hasymm hc hc' hle hr⟩

theorem Critical.lt_period (hcrit : Critical x l c) {r : Nat} (hr : 0 < r)
    (hper : Period x l r) : c < r :=
  (hcrit r hr (hper.localRep c)).1

/-! ## The periodicity test -/

section Test

variable {lt : α → α → Prop} (hirr : ∀ a, ¬lt a a)
  (hdom : Dominant lt (fun i => x (c + i)) p) (hp : p ≤ l - c)
  (hper : Period (fun i => x (c + i)) (l - c) p)

include hirr hdom hp in
theorem le_of_period {r : Nat} (hr : 0 < r) (h : Period x l r) : p ≤ r :=
  hdom.le_period hirr hp hr fun i hi => by
    have := h (c + i) (by omega)
    rwa [Nat.add_assoc] at this

include hper in
/-- The left part repeats at the period of the right one: so does the
whole word. -/
theorem period_of_repeats (hrep : ∀ i < c, x i = x (i + p)) : Period x l p := by
  intro i hi
  by_cases hic : i < c
  · exact hrep i hic
  · have := hper (i - c) (by omega)
    simpa only [show c + (i - c) = i by omega, show c + (i - c + p) = i + p by omega] using this

include hirr hdom hp hper in
/-- The left part does not: every period of the word is longer than
either part. -/
theorem le_period_of_not_repeats (hcrit : Critical x l c) (hp0 : 0 < p)
    (hrep : ¬∀ i < c, x i = x (i + p)) {r : Nat} (hr : 0 < r) (h : Period x l r) :
    c < r ∧ l - c < r := by
  refine ⟨hcrit.lt_period hr h, ?_⟩
  induction r using Nat.strong_induction_on with
  | _ r ih =>
      by_contra hle
      have hpr := le_of_period hirr hdom hp hr h
      by_cases heq : r = p
      · subst heq
        exact hrep fun i hi => h i (by omega)
      · -- a longer period would leave a shorter one across the cut
        have hloc : LocalRep x l c (r - p) := by
          intro i hi hci hil
          have hv := hper (i + (r - p) - c) (by omega)
          simp only [show c + (i + (r - p) - c) = i + (r - p) by omega,
            show c + (i + (r - p) - c + p) = i + r by omega] at hv
          rw [h i (by omega), hv]
        have := ih (r - p) (by omega) (by omega) (hcrit (r - p) (by omega) hloc).2
        omega

end Test

/-! ## Positions ruled out -/

/-- The word `x` of length `l` stands in `y` at `h`. -/
def Matches (x : Nat → α) (l : Nat) (y : Nat → α) (h : Nat) : Prop :=
  ∀ i < l, y (h + i) = x i

/-- The letters `[a, b)` of `x` match `y` at `h`. -/
def MatchesOn (x : Nat → α) (y : Nat → α) (h a b : Nat) : Prop :=
  ∀ i, a ≤ i → i < b → y (h + i) = x i

theorem MatchesOn.mono {a b a' b' : Nat} (hm : MatchesOn x y h a b) (ha : a ≤ a')
    (hb : b' ≤ b) : MatchesOn x y h a' b' :=
  fun i hi hib => hm i (by omega) (by omega)

theorem MatchesOn.append {a b d : Nat} (hm : MatchesOn x y h a b)
    (hm' : MatchesOn x y h b d) : MatchesOn x y h a d := by
  intro i hi hid
  by_cases hib : i < b
  · exact hm i hi hib
  · exact hm' i (by omega) hid

/-- What matched at `h` is repeated by a match `s` further. -/
theorem localRep_of_matches {s k : Nat} (hm : MatchesOn x y h c k) (hk : c + s ≤ k ∨ l ≤ k)
    (hocc : Matches x l y (h + s)) : LocalRep x l c s := by
  intro i hi hci hil
  have h1 := hocc i (by omega)
  rw [show h + s + i = h + (i + s) by omega, hm (i + s) hci (by omega)] at h1
  exact h1.symm

section Ruled

variable (hcrit : Critical x l c)
include hcrit

theorem not_matches_of_right {k s : Nat} (hm : MatchesOn x y h c k) (hk : k < l)
    (hck : c ≤ k) (hne : y (h + k) ≠ x k) (hs : s ≤ k - c) : ¬Matches x l y (h + s) := by
  intro hocc
  rcases Nat.eq_zero_or_pos s with rfl | hpos
  · exact hne (hocc k hk)
  · have hper := (hcrit s hpos (localRep_of_matches hm (Or.inl (by omega)) hocc)).2
    have h1 := hocc (k - s) (by omega)
    rw [show h + s + (k - s) = h + k by omega, hper (k - s) (by omega),
      Nat.sub_add_cancel (by omega)] at h1
    exact hne h1

theorem not_matches_of_left {P s : Nat} (hm : MatchesOn x y h c l)
    (hP : ∀ r, 0 < r → Period x l r → P ≤ r) (h0 : 0 < s) (hs : s < P) :
    ¬Matches x l y (h + s) := by
  intro hocc
  have := hP s h0 (hcrit s h0 (localRep_of_matches hm (Or.inr (Nat.le_refl l)) hocc)).2
  omega

theorem not_matches_of_prefix {P s : Nat} (hm : MatchesOn x y h c l)
    (hP : Period x l P) (hlast : y (h + P + (l - 1)) ≠ x (l - 1)) (hs : s + P < l) :
    ¬Matches x l y (h + P + s) := by
  intro hocc
  rcases Nat.eq_zero_or_pos s with rfl | hpos
  · exact hlast (hocc (l - 1) (by omega))
  have hocc' : Matches x l y (h + (s + P)) := by
    rwa [show h + (s + P) = h + P + s by omega]
  have hper := (hcrit (s + P) (by omega)
    (localRep_of_matches hm (Or.inr (Nat.le_refl l)) hocc')).2
  -- both periods send the last letter to the same place
  have h1 := hper (l - 1 - (s + P)) (by omega)
  have h2 := hP (l - 1 - (s + P)) (by omega)
  have h3 := hocc (l - 1 - s) (by omega)
  rw [show l - 1 - (s + P) + (s + P) = l - 1 by omega] at h1
  rw [show l - 1 - (s + P) + P = l - 1 - s by omega] at h2
  rw [show h + P + s + (l - 1 - s) = h + P + (l - 1) by omega] at h3
  exact hlast (by rw [h3, ← h2, h1])

/-- After a shift by a period the prefix it leaves is known to match. -/
theorem matchesOn_shift {P : Nat} (hP0 : 0 < P) (hm : MatchesOn x y h c l)
    (hP : Period x l P) : MatchesOn x y (h + P) 0 (l - P) := by
  intro i _ hi
  have hcP := hcrit.lt_period hP0 hP
  have := hm (P + i) (by omega) (by omega)
  rw [← Nat.add_assoc] at this
  rw [this, Nat.add_comm P i, hP i (by omega)]

end Ruled

end Words
