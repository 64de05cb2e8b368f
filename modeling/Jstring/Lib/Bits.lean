import Mathlib.Tactic

/-!
# Walking the set bits of a mask

A vector comparison leaves one bit for each lane (`ofLanes`). They are visited
from the lowest set bit up with `TZCNT` and `BLSR` (`tz`, `blsr`), the
highest is found with `LZCNT` (`lz`), and `POPCNT` counts them
(`popcnt`). The lemmas say which bit each one finds, what `blsr` leaves
behind (`getLsbD_blsr`) and which lanes are counted (`popcnt_ofLanes`).
-/

namespace Bits

variable {w : Nat} {m : BitVec w}

/-- The mask with the bit of each lane given. -/
def ofLanes (f : Nat → Bool) : (w : Nat) → BitVec w
  | 0 => 0#0
  | w + 1 => BitVec.cons (f w) (ofLanes f w)

theorem getLsbD_ofLanes (f : Nat → Bool) : ∀ (w i : Nat),
    (ofLanes f w).getLsbD i = (decide (i < w) && f i)
  | 0, i => by simp [ofLanes]
  | w + 1, i => by
      rw [ofLanes, BitVec.getLsbD_cons, getLsbD_ofLanes f w i]
      by_cases h : i = w
      · subst h; simp
      · rw [if_neg h]
        have hlt : i < w + 1 ↔ i < w := by omega
        simp only [hlt]

/-- The index of the lowest set bit, the width when there is none. -/
def tz (m : BitVec w) : Nat := m.ctz.toNat

/-- The lowest set bit cleared. -/
def blsr (m : BitVec w) : BitVec w := m &&& (m - 1#w)

/-- How many bits there are above the highest set bit, the width when
there is none. -/
def lz (m : BitVec w) : Nat := m.clz.toNat

/-- The number of set bits. -/
def popcnt (m : BitVec w) : Nat := (List.range w).countP m.getLsbD

theorem getLsbD_tz (hm : m ≠ 0#w) : m.getLsbD (tz m) = true :=
  BitVec.getLsbD_true_ctz_of_ne_zero hm

theorem getLsbD_of_lt_tz {i : Nat} (hi : i < tz m) : m.getLsbD i = false :=
  BitVec.getLsbD_false_of_lt_ctz hi

theorem tz_lt (hm : m ≠ 0#w) : tz m < w := BitVec.lt_of_getLsbD (getLsbD_tz hm)

theorem lz_lt (hm : m ≠ 0#w) : lz m < w := by
  have := BitVec.clz_lt_iff_ne_zero.mpr hm
  rwa [BitVec.lt_def, BitVec.natCast_eq_ofNat, BitVec.toNat_ofNat,
    Nat.mod_eq_of_lt Nat.lt_two_pow_self] at this

theorem getLsbD_lz (hm : m ≠ 0#w) : m.getLsbD (w - 1 - lz m) = true :=
  BitVec.getLsbD_true_clz_of_ne_zero (Nat.lt_of_le_of_lt (Nat.zero_le _) (lz_lt hm)) hm

theorem getLsbD_of_lz_lt {i : Nat} (hi : w - 1 - lz m < i) : m.getLsbD i = false := by
  rw [← BitVec.testBit_toNat]
  have hlt := @BitVec.toNat_lt_two_pow_sub_clz w m
  exact Nat.testBit_lt_two_pow (Nat.lt_of_lt_of_le hlt
    (Nat.pow_le_pow_right Nat.two_pos (show w - lz m ≤ i by omega)))

theorem popcnt_ofLanes (f : Nat → Bool) (w : Nat) :
    popcnt (ofLanes f w) = (List.range w).countP f := by
  refine List.countP_congr fun i hi => ?_
  rw [getLsbD_ofLanes, Bool.and_eq_true, decide_eq_true_eq]
  exact and_iff_right (List.mem_range.mp hi)

/-- Below its lowest set bit `k` a number and its predecessor are all
zeros and all ones; above it they agree. -/
theorem testBit_pred {a k i : Nat} (hk : a.testBit k = true)
    (hlow : ∀ j < k, a.testBit j = false) :
    (a.testBit i && (a - 1).testBit i) = (a.testBit i && decide (i ≠ k)) := by
  obtain ⟨q, rfl⟩ : ∃ q, a = 2 ^ k * (2 * q + 1) := by
    have hmod : a % 2 ^ k = 0 := by
      refine Nat.eq_of_testBit_eq fun j => ?_
      rw [Nat.testBit_mod_two_pow, Nat.zero_testBit]
      by_cases hj : j < k
      · rw [hlow j hj, Bool.and_false]
      · simp [hj]
    have hodd : a / 2 ^ k % 2 = 1 := by
      simpa [Nat.testBit_eq_decide_div_mod_eq] using hk
    have hdiv := Nat.div_add_mod a (2 ^ k)
    refine ⟨a / 2 ^ k / 2, ?_⟩
    rw [show 2 * (a / 2 ^ k / 2) + 1 = a / 2 ^ k by omega]
    omega
  have hpos : 0 < 2 ^ k := Nat.two_pow_pos k
  have hpred : 2 ^ k * (2 * q + 1) - 1 = 2 ^ k * (2 * q) + (2 ^ k - 1) := by
    rw [Nat.mul_add]; omega
  rw [hpred, Nat.testBit_two_pow_mul_add _ (by omega), Nat.testBit_two_pow_mul]
  rcases Nat.lt_trichotomy i k with hlt | rfl | hgt
  · simp [hlt]
  · simp
  · rw [if_neg (by omega)]
    obtain ⟨j, rfl⟩ : ∃ j, i = k + (j + 1) := ⟨i - k - 1, by omega⟩
    rw [show k + (j + 1) - k = j + 1 by omega]
    simp [Nat.testBit_succ, Nat.mul_add_div]

theorem getLsbD_blsr (hm : m ≠ 0#w) (i : Nat) :
    (blsr m).getLsbD i = (m.getLsbD i && decide (i ≠ tz m)) := by
  have hpos : 0 < m.toNat := by
    refine Nat.pos_of_ne_zero fun h => hm ?_
    exact BitVec.eq_of_toNat_eq (by simpa using h)
  have hw : 0 < w := Nat.lt_of_le_of_lt (Nat.zero_le _) (tz_lt hm)
  have hsub : (m - 1#w).toNat = m.toNat - 1 := by
    have h1 : (1#w).toNat = 1 := by
      rw [BitVec.toNat_ofNat, Nat.mod_eq_of_lt (Nat.one_lt_two_pow (by omega))]
    rw [BitVec.toNat_sub_of_le (by rw [BitVec.le_def, h1]; exact hpos), h1]
  rw [blsr, BitVec.getLsbD_and]
  simp only [← BitVec.testBit_toNat, hsub]
  exact testBit_pred (by rw [BitVec.testBit_toNat]; exact getLsbD_tz hm)
    fun j hj => by rw [BitVec.testBit_toNat]; exact getLsbD_of_lt_tz hj

end Bits
