import Mathlib.Tactic

/-!
# Sets of small numbers as words of bits

The numbers below `k * w` as `k` words of `w` bits each, number `i`
being bit `i % w` of word `i / w`. A number is a `Fin (k * w)`, so
neither the word nor the bit is ever out of range. `mem_empty` and
`mem_insert` are all a user needs: membership is that of the numbers put
in.
-/

namespace Bits

/-- `k` words of `w` bits. -/
abbrev Bitset (w k : Nat) := Vector (BitVec w) k

namespace Bitset

variable {w k : Nat}

/-- The word of number `i`. -/
def word (s : Bitset w k) (i : Fin (k * w)) : BitVec w := s[i.divNat]

/-- The bit of number `i` in its word. -/
def bit (i : Fin (k * w)) : BitVec w := 1#w <<< (i.val % w)

def empty : Bitset w k := Vector.replicate k 0#w

def insert (s : Bitset w k) (i : Fin (k * w)) : Bitset w k :=
  s.set i.divNat (s.word i ||| bit i) i.divNat.isLt

def mem (s : Bitset w k) (i : Fin (k * w)) : Bool := s.word i &&& bit i != 0#w

theorem bit_lt (i : Fin (k * w)) : i.val % w < w := i.modNat.isLt

theorem getLsbD_bit (i : Fin (k * w)) (b : Nat) :
    (bit i).getLsbD b = decide (i.val % w = b) := by
  rw [bit, ← BitVec.twoPow_eq, BitVec.getLsbD_twoPow, decide_eq_true (bit_lt i), Bool.true_and]

theorem mem_eq_getLsbD (s : Bitset w k) (i : Fin (k * w)) :
    s.mem i = (s.word i).getLsbD (i.val % w) := by
  rw [mem, bit, ← BitVec.twoPow_eq, BitVec.and_twoPow]
  cases hb : (s.word i).getLsbD (i.val % w) with
  | true =>
      rw [if_pos rfl, bne_iff_ne, BitVec.twoPow_eq]
      intro h0
      have hset := getLsbD_bit i (i.val % w)
      rw [bit, h0, BitVec.getLsbD_zero, decide_eq_true rfl] at hset
      cases hset
  | false => rw [if_neg Bool.false_ne_true, bne_self_eq_false]

@[simp] theorem mem_empty (i : Fin (k * w)) : (empty : Bitset w k).mem i = false := by
  simp [mem_eq_getLsbD, word, empty]

/-- A number is its word and its bit. -/
theorem eq_of_divNat {i j : Fin (k * w)} (hd : i.divNat = j.divNat)
    (hm : i.val % w = j.val % w) : i = j := by
  have hdiv : i.val / w = j.val / w := congrArg Fin.val hd
  rw [Fin.ext_iff, ← Nat.div_add_mod i.val w, hdiv, hm, Nat.div_add_mod]

theorem word_insert (s : Bitset w k) (i j : Fin (k * w)) :
    (s.insert i).word j = if i.divNat = j.divNat then s.word j ||| bit i else s.word j := by
  simp only [word, insert, Fin.getElem_fin, Vector.getElem_set, Fin.val_inj]
  by_cases h : i.divNat = j.divNat
  · simp only [h]
  · simp only [if_neg h]

/-- Putting a number in adds that number and no other. -/
@[simp] theorem mem_insert (s : Bitset w k) (i j : Fin (k * w)) :
    (s.insert i).mem j = (s.mem j || i == j) := by
  rw [mem_eq_getLsbD, mem_eq_getLsbD, word_insert]
  by_cases hd : i.divNat = j.divNat
  · rw [if_pos hd, BitVec.getLsbD_or, getLsbD_bit]
    congr 1
    rw [Bool.eq_iff_iff, decide_eq_true_iff, beq_iff_eq]
    exact ⟨eq_of_divNat hd, fun h => by rw [h]⟩
  · have hij : (i == j) = false := beq_eq_false_iff_ne.mpr fun h => hd (by rw [h])
    rw [if_neg hd, hij, Bool.or_false]

/-- The word just written is not empty. -/
theorem word_insert_self_ne_zero (s : Bitset w k) (i : Fin (k * w)) :
    (s.insert i).word i ≠ 0#w := by
  intro h0
  have hmem : (s.insert i).mem i = true := by simp
  rw [mem, h0] at hmem
  simp at hmem

end Bitset

end Bits
