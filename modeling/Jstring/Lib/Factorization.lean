import Mathlib.Tactic

/-!
# Periods, maximal suffixes and the critical factorization

Combinatorics on words, for words given as an indexed family of letters
`x : Nat → α` cut at a length `l`. Everything is pointwise, so the
arguments are index arithmetic.

- `Period`: the word repeats at distance `r`;
- `LocalRep`: it repeats at distance `r` *across* the cut `c` - the
  letters before the cut whose partner lies at or after it;
- `SufLt`/`MaxSuf`: the lexicographic order on suffixes (a proper prefix
  is smaller) and the position of the maximal one.

The headline is `LocalRep.period`: at the cut made by the maximal
suffix - the shorter of the two one gets from a letter order and from
its reverse - every repetition across the cut is a period of the whole
word and reaches beyond the left part. The alphabet order enters only
as an asymmetric relation.
-/

namespace Words

variable {α : Type*}

/-- The word `x` of length `l` has period `r`. -/
def Period (x : Nat → α) (l r : Nat) : Prop :=
  ∀ i, i + r < l → x i = x (i + r)

/-- `x` repeats at distance `r` across the cut `c`: letters left of the
cut agree with their partner at or right of it. -/
def LocalRep (x : Nat → α) (l c r : Nat) : Prop :=
  ∀ i, i < c → c ≤ i + r → i + r < l → x i = x (i + r)

theorem Period.congr {x y : Nat → α} {l r : Nat} (hxy : ∀ i < l, x i = y i)
    (h : Period x l r) : Period y l r := by
  intro i hi
  rw [← hxy i (by omega), ← hxy (i + r) hi]
  exact h i hi

theorem LocalRep.congr {x y : Nat → α} {l c r : Nat} (hxy : ∀ i < l, x i = y i)
    (h : LocalRep x l c r) : LocalRep y l c r := by
  intro i hc hr hi
  rw [← hxy i (by omega), ← hxy (i + r) hi]
  exact h i hc hr hi

theorem Period.localRep {x : Nat → α} {l r : Nat} (h : Period x l r) (c : Nat) :
    LocalRep x l c r :=
  fun i _ _ hl => h i hl

/-! ## The suffix order -/

/-- The suffix of `x` at `s` is lexicographically below the one at `t`:
they agree for `m` letters and then `s` ends or has the lower letter. -/
def SufLt (lt : α → α → Prop) (x : Nat → α) (l s t : Nat) : Prop :=
  ∃ m, (∀ k < m, x (s + k) = x (t + k)) ∧ t + m < l ∧
    (s + m = l ∨ (s + m < l ∧ lt (x (s + m)) (x (t + m))))

theorem SufLt.asymm {lt : α → α → Prop} (hasymm : ∀ a b, lt a b → ¬lt b a)
    {x : Nat → α} {l s t : Nat} (h : SufLt lt x l s t) : ¬SufLt lt x l t s := by
  rintro ⟨m', heq', hs', hor'⟩
  obtain ⟨m, heq, ht, hor⟩ := h
  -- the two first differences must sit at the same distance
  rcases Nat.lt_trichotomy m m' with hlt | rfl | hgt
  · rcases hor with hend | ⟨-, hl⟩
    · omega
    · rw [heq' m hlt] at hl
      exact hasymm _ _ hl hl
  · rcases hor with hend | ⟨-, hl⟩
    · omega
    · rcases hor' with hend' | ⟨-, hl'⟩
      · omega
      · exact hasymm _ _ hl hl'
  · rcases hor' with hend' | ⟨-, hl'⟩
    · omega
    · rw [heq m' hgt] at hl'
      exact hasymm _ _ hl' hl'

/-- Every other suffix of `x` is below the one at `c`. -/
def MaxSuf (lt : α → α → Prop) (x : Nat → α) (l c : Nat) : Prop :=
  c < l ∧ ∀ s < l, s ≠ c → SufLt lt x l s c

/-! ## The critical factorization -/

section Critical

variable {lt : α → α → Prop} (hasymm : ∀ a b, lt a b → ¬lt b a)
include hasymm

/-- A repetition across the cut of a maximal suffix is longer than the
left part: otherwise the suffix starting `r` letters earlier would
compare to the maximal one as the maximal one compares to its own tail. -/
theorem LocalRep.lt_of_maxSuf {x : Nat → α} {l c r : Nat}
    (hc : MaxSuf lt x l c) (hr : 0 < r) (h : LocalRep x l c r) : c < r := by
  by_contra hle
  obtain ⟨m, heq, hm, hor⟩ := hc.2 (c - r) (by have := hc.1; omega) (by omega)
  rcases hor with hend | ⟨-, hlt⟩
  · omega
  · have hrm : r ≤ m := by
      by_contra hmr
      rw [h (c - r + m) (by omega) (by omega) (by omega),
        show c - r + m + r = c + m by omega] at hlt
      exact hasymm _ _ hlt hlt
    refine (hc.2 (c + r) (by omega) (by omega)).asymm hasymm
      ⟨m - r, fun k hk => ?_, by omega, Or.inr ⟨by omega, ?_⟩⟩
    · have := heq (r + k) (by omega)
      rwa [show c - r + (r + k) = c + k by omega,
        show c + (r + k) = c + r + k by omega] at this
    · rwa [show c - r + m = c + (m - r) by omega,
        show c + m = c + r + (m - r) by omega] at hlt

/-- **Critical factorization.** Let `c` and `c'` be the cuts of the
maximal suffixes for a letter order and for its reverse, `c' ≤ c`. Then
every repetition across `c` is a period of the whole word. -/
theorem LocalRep.period {x : Nat → α} {l c c' r : Nat}
    (hc : MaxSuf lt x l c) (hc' : MaxSuf (fun a b => lt b a) x l c')
    (hle : c' ≤ c) (hr : 0 < r) (h : LocalRep x l c r) : Period x l r := by
  have hcr : c < r := h.lt_of_maxSuf hasymm hc hr
  intro i hi
  by_cases hic : i < c
  · exact h i hic (by omega) hi
  -- right of the cut: the suffix at `c + r` is a prefix of the one at `c`
  obtain ⟨m, heq, hm, hor⟩ := hc.2 (c + r) (by omega) (by omega)
  have hend : c + r + m = l := by
    rcases hor with hend | ⟨hlt, hlow⟩
    · exact hend
    · -- a first difference would put `c' + r` above `c'` in the reverse order
      refine absurd (hc'.2 (c' + r) (by omega) (by omega)) (SufLt.asymm
        (fun a b hab => hasymm b a hab) ⟨c - c' + m, fun k hk => ?_, by omega,
          Or.inr ⟨by omega, ?_⟩⟩)
      · by_cases hkc : c' + k < c
        · rw [show c' + r + k = c' + k + r by omega]
          exact h (c' + k) hkc (by omega) (by omega)
        · have := heq (c' + k - c) (by omega)
          rw [show c + (c' + k - c) = c' + k by omega,
            show c + r + (c' + k - c) = c' + r + k by omega] at this
          exact this.symm
      · rw [show c' + (c - c' + m) = c + m by omega,
          show c' + r + (c - c' + m) = c + r + m by omega]
        exact hlow
  have := heq (i - c) (by omega)
  rw [show c + r + (i - c) = i + r by omega, show c + (i - c) = i by omega] at this
  exact this.symm

end Critical

end Words
