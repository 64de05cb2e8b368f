import Mathlib.Tactic

/-!
# A zero byte in a word

The word-at-a-time test `(x - ONES) & ~x & HIGHS`: subtracting one from
each byte sets the high bit of a zero byte, unless a borrow reaches it
from below - which only a lower zero byte can send. `hasZero_of_byte` is
the direction a scanning loop needs: a word with a zero byte is never
skipped. `hasZero_eq_false` is the other one. `leWord_xor` turns a search
for any other byte into one for zero.
-/

namespace Bits

/-- `(size_t)-1 / UCHAR_MAX`. -/
def ones : UInt64 := 72340172838076673

/-- `ONES * (UCHAR_MAX / 2 + 1)`. -/
def highs : UInt64 := 9259542123273814144

/-- `HASZERO(x)`. -/
def hasZero (x : UInt64) : Bool := (x - ones) &&& ~~~x &&& highs != 0

/-- The word with the given bytes, the first one lowest. -/
def leNat (f : Nat → UInt8) : Nat :=
  (f 0).toNat + 256 * ((f 1).toNat + 256 * ((f 2).toNat + 256 * ((f 3).toNat + 256 *
    ((f 4).toNat + 256 * ((f 5).toNat + 256 * ((f 6).toNat + 256 * (f 7).toNat))))))

def leWord (f : Nat → UInt8) : UInt64 := UInt64.ofNat (leNat f)

theorem digit_lt {b r R : Nat} (hb : b < 256) (hr : r < R) : b + 256 * r < 256 * R := by omega

theorem leNat_lt (f : Nat → UInt8) : leNat f < 2 ^ 64 :=
  digit_lt (f 0).toNat_lt (digit_lt (f 1).toNat_lt (digit_lt (f 2).toNat_lt
    (digit_lt (f 3).toNat_lt (digit_lt (f 4).toNat_lt (digit_lt (f 5).toNat_lt
      (digit_lt (f 6).toNat_lt (f 7).toNat_lt))))))

theorem leWord_toNat (f : Nat → UInt8) : (leWord f).toNat = leNat f := by
  rw [leWord, UInt64.toNat_ofNat', Nat.mod_eq_of_lt (leNat_lt f)]

theorem xor_digit {b c r s : Nat} (hb : b < 256) (hc : c < 256) :
    (b + 256 * r) ^^^ (c + 256 * s) = (b ^^^ c) + 256 * (r ^^^ s) := by
  have hbc : b ^^^ c < 2 ^ 8 := Nat.xor_lt_two_pow hb hc
  refine Nat.eq_of_testBit_eq fun i => ?_
  rw [show (256 : Nat) = 2 ^ 8 by norm_num] at *
  rw [Nat.testBit_xor, Nat.add_comm b, Nat.add_comm c, Nat.add_comm (b ^^^ c),
    Nat.testBit_two_pow_mul_add _ hb, Nat.testBit_two_pow_mul_add _ hc,
    Nat.testBit_two_pow_mul_add _ hbc]
  by_cases hi : i < 8
  · simp only [hi, if_true, Nat.testBit_xor]
  · simp only [hi, if_false, Nat.testBit_xor]

/-- Looking for `c` is looking for zero after `^ (ONES * c)`. -/
theorem leWord_xor (f : Nat → UInt8) (c : UInt8) :
    leWord f ^^^ (ones * c.toUInt64) = leWord fun i => f i ^^^ c := by
  have hc := c.toNat_lt
  have hones : (ones * c.toUInt64).toNat = leNat fun _ => c := by
    rw [UInt64.toNat_mul, UInt8.toNat_toUInt64, show ones.toNat = 72340172838076673 from rfl]
    simp only [leNat]
    omega
  apply UInt64.toNat_inj.mp
  rw [UInt64.toNat_xor, hones, leWord_toNat, leWord_toNat]
  unfold leNat
  simp only [xor_digit (UInt8.toNat_lt _) hc, UInt8.toNat_xor]

theorem testBit_not (x : UInt64) {j : Nat} (hj : j < 64) :
    (~~~x).toNat.testBit j = !x.toNat.testBit j := by
  have hcomp : UInt64.size - 1 - x.toNat = 2 ^ 64 - (x.toNat + 1) := by
    simp only [UInt64.size]
    omega
  rw [UInt64.toNat_not, hcomp, Nat.testBit_two_pow_sub_succ x.toNat_lt, decide_eq_true hj,
    Bool.true_and]

theorem hasZero_of_bit {x : UInt64} {i : Nat} (hi : i < 8)
    (hsub : (x - ones).toNat / 2 ^ (8 * i + 7) % 2 = 1)
    (hx : x.toNat / 2 ^ (8 * i + 7) % 2 = 0) : hasZero x = true := by
  rw [hasZero, bne_iff_ne]
  intro h
  have hbit := congrArg (fun w => w.toNat.testBit (8 * i + 7)) h
  have hhigh : highs.toNat.testBit (8 * i + 7) = true := by
    obtain rfl | rfl | rfl | rfl | rfl | rfl | rfl | rfl :
      i = 0 ∨ i = 1 ∨ i = 2 ∨ i = 3 ∨ i = 4 ∨ i = 5 ∨ i = 6 ∨ i = 7 := by omega
    all_goals decide
  have hnot : (~~~x).toNat.testBit (8 * i + 7) = true := by
    rw [testBit_not x (by omega), Nat.testBit_eq_decide_div_mod_eq, hx]
    rfl
  simp only [UInt64.toNat_and, Nat.testBit_and, hhigh, hnot, Bool.and_true, UInt64.toNat_zero,
    Nat.zero_testBit] at hbit
  rw [Nat.testBit_eq_decide_div_mod_eq, hsub] at hbit
  simp at hbit

/-- A digit is subtracted on its own if the digits below it need no borrow. -/
theorem sub_digit {P x o m : Nat} (hP : 0 < P) (hlow : o % P ≤ x % P) (ho : o / P < 256 * m) :
    (x + (P * (256 * m) - o)) % (P * (256 * m)) / P % 256 = (x / P + (256 * m - o / P)) % 256 := by
  have hx := Nat.div_add_mod x P
  have hone := Nat.div_add_mod o P
  have hle : P * (o / P) + P ≤ P * (256 * m) := Nat.mul_le_mul_left P ho
  have hlt := Nat.mod_lt x hP
  have hsum : x + (P * (256 * m) - o) = x % P - o % P + P * (x / P + (256 * m - o / P)) := by
    rw [Nat.mul_add, Nat.mul_sub]
    omega
  rw [hsum, Nat.mod_mul_right_div_self, Nat.mod_mul_right_mod, Nat.add_mul_div_left _ _ hP,
    Nat.div_eq_of_lt (by omega), Nat.zero_add]

/-- The bytes of the word, and of the word with all ones: nothing is borrowed below a byte if
none of the bytes there is zero. -/
theorem leNat_byte {f : Nat → UInt8} {i : Nat} (hi : i < 8) :
    leNat f / 2 ^ (8 * i) % 256 = (f i).toNat ∧
      ((∀ j < i, 0 < (f j).toNat) → ones.toNat % 2 ^ (8 * i) ≤ leNat f % 2 ^ (8 * i)) := by
  have h0 := (f 0).toNat_lt
  have h1 := (f 1).toNat_lt
  have h2 := (f 2).toNat_lt
  have h3 := (f 3).toNat_lt
  have h4 := (f 4).toNat_lt
  have h5 := (f 5).toNat_lt
  have h6 := (f 6).toNat_lt
  have h7 := (f 7).toNat_lt
  rw [show ones.toNat = 72340172838076673 from rfl]
  unfold leNat
  obtain rfl | rfl | rfl | rfl | rfl | rfl | rfl | rfl :
    i = 0 ∨ i = 1 ∨ i = 2 ∨ i = 3 ∨ i = 4 ∨ i = 5 ∨ i = 6 ∨ i = 7 := by omega
  all_goals
    refine ⟨by omega, fun hpos => ?_⟩
    have p0 := hpos 0
    have p1 := hpos 1
    have p2 := hpos 2
    have p3 := hpos 3
    have p4 := hpos 4
    have p5 := hpos 5
    have p6 := hpos 6
    omega

/-- The high bit of a byte, in the word and after the subtraction, if no byte below it
sends a borrow. -/
theorem high_bits {f : Nat → UInt8} {i : Nat} (hi : i < 8) (hpos : ∀ j < i, 0 < (f j).toNat) :
    (leWord f).toNat / 2 ^ (8 * i + 7) % 2 = (f i).toNat / 128 ∧
      (leWord f - ones).toNat / 2 ^ (8 * i + 7) % 2 = ((f i).toNat + 255) % 256 / 128 := by
  obtain ⟨hbyte, hlow⟩ := @leNat_byte f i hi
  have hsplit : ∀ x, x / 2 ^ (8 * i + 7) % 2 = x / 2 ^ (8 * i) % 256 / 128 := fun x => by
    rw [Nat.pow_add, ← Nat.div_div_eq_div_mul]
    omega
  have hones : ones.toNat / 2 ^ (8 * i) < 256 * 2 ^ (8 * (7 - i)) ∧
      (256 * 2 ^ (8 * (7 - i)) - ones.toNat / 2 ^ (8 * i)) % 256 = 255 := by
    have hall : ∀ i < 8, ones.toNat / 2 ^ (8 * i) < 256 * 2 ^ (8 * (7 - i)) ∧
      (256 * 2 ^ (8 * (7 - i)) - ones.toNat / 2 ^ (8 * i)) % 256 = 255 := by decide
    exact hall i hi
  have hword : 2 ^ (8 * i) * (256 * 2 ^ (8 * (7 - i))) = 2 ^ 64 := by
    rw [show (256 : Nat) = 2 ^ 8 from rfl, ← Nat.pow_add, ← Nat.pow_add]
    congr 1
    omega
  have hsub := @sub_digit (2 ^ (8 * i)) (leNat f) ones.toNat _ (Nat.two_pow_pos _) (hlow hpos)
    hones.1
  rw [hword] at hsub
  rw [hsplit, hsplit, UInt64.toNat_sub, leWord_toNat, hbyte, Nat.add_comm (2 ^ 64 - _), hsub]
  refine ⟨rfl, ?_⟩
  have := hones.2
  omega

/-- A word with a zero byte passes the test. -/
theorem hasZero_of_byte {f : Nat → UInt8} {i : Nat} (hi : i < 8) (h0 : f i = 0) :
    hasZero (leWord f) = true := by
  induction i using Nat.strong_induction_on with
  | _ i ih =>
      by_cases hlow : ∃ j < i, f j = 0
      · obtain ⟨j, hj, hj0⟩ := hlow
        exact ih j hj (by omega) hj0
      · have hpos : ∀ j < i, 0 < (f j).toNat := fun j hj =>
          Nat.pos_of_ne_zero fun h => hlow ⟨j, hj, UInt8.toNat_inj.mp h⟩
        obtain ⟨hword, hsub⟩ := high_bits hi hpos
        rw [h0] at hword hsub
        exact hasZero_of_bit hi hsub hword

theorem highs_testBit {j : Nat} (h : highs.toNat.testBit j = true) : ∃ i < 8, j = 8 * i + 7 := by
  have hlt : j < 64 := by
    by_contra hge
    rw [Nat.testBit_lt_two_pow (Nat.lt_of_lt_of_le highs.toNat_lt
      (Nat.pow_le_pow_right Nat.two_pos (Nat.not_lt.mp hge)))] at h
    cases h
  have hall : ∀ j < 64, highs.toNat.testBit j = true → j % 8 = 7 := by decide
  have := hall j hlt h
  exact ⟨j / 8, by omega, by omega⟩

/-- The test is exact: without a zero byte no borrow starts, and a byte
that keeps its high bit after the subtraction had it before. -/
theorem hasZero_eq_false {f : Nat → UInt8} (h : ∀ i < 8, f i ≠ 0) : hasZero (leWord f) = false := by
  rw [hasZero, bne_eq_false_iff_eq, ← UInt64.toNat_inj]
  refine Nat.eq_of_testBit_eq fun j => ?_
  rw [UInt64.toNat_and, Nat.testBit_and, UInt64.toNat_and, Nat.testBit_and, UInt64.toNat_zero,
    Nat.zero_testBit]
  by_contra hne
  simp only [Bool.not_eq_false, Bool.and_eq_true] at hne
  obtain ⟨⟨hsub, hnot⟩, hhigh⟩ := hne
  obtain ⟨i, hi, rfl⟩ := highs_testBit hhigh
  have hpos : ∀ j < 8, 0 < (f j).toNat := fun j hj =>
    Nat.pos_of_ne_zero fun h0 => h j hj (UInt8.toNat_inj.mp h0)
  obtain ⟨hword, hborrow⟩ := high_bits hi fun j hj => hpos j (by omega)
  rw [testBit_not _ (by omega), Nat.testBit_eq_decide_div_mod_eq, hword, Bool.not_eq_true',
    decide_eq_false_iff_not] at hnot
  rw [Nat.testBit_eq_decide_div_mod_eq, decide_eq_true_eq, hborrow] at hsub
  have hbyte := (f i).toNat_lt
  have hbyte0 := hpos i hi
  omega

/-- No byte of a word that fails the test is zero. -/
theorem ne_zero_of_hasZero {f : Nat → UInt8} (h : hasZero (leWord f) = false) {i : Nat}
    (hi : i < 8) : f i ≠ 0 := by
  intro h0
  rw [hasZero_of_byte hi h0] at h
  cases h

/-- No byte of a word that fails the test for `c` is `c`. -/
theorem ne_of_hasZero_xor {f : Nat → UInt8} {c : UInt8}
    (h : hasZero (leWord f ^^^ (ones * c.toUInt64)) = false) {i : Nat} (hi : i < 8) : f i ≠ c := by
  rw [leWord_xor] at h
  exact fun hc => ne_zero_of_hasZero h hi (UInt8.xor_eq_zero_iff.mpr hc)

end Bits
