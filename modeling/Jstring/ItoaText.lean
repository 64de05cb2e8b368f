import Jstring.Itoa

/-!
# The text of an integer

What `jstr_ulltoa_p` and `jstr_lltoa_p` write is the canonical text of
their number, in every base: a sign before the digits of a negative
number, and digits below the base that give the magnitude back, with no
zero in front of them.

- `Canonical`: that text, said of its bytes and not of the division chain;
- `lltoa_canonical`: both encoders write it and return the address of its
  terminator.
-/

namespace Jstr

open Numeral

/-- The value of a digit: `0` to `9`, then the lowercase letters. -/
def digitVal (c : UInt8) : Option Nat :=
  if 48 ≤ c.toNat ∧ c.toNat ≤ 57 then some (c.toNat - 48)
  else if 97 ≤ c.toNat ∧ c.toNat ≤ 122 then some (c.toNat - 87)
  else none

/-- The bytes `t` are the digits `ds`, and those the numeral of `n`. -/
structure CanonicalDigits (base n : Nat) (t : Bytes) (ds : List Nat) : Prop where
  vals : t.map digitVal = ds.map some
  below : ∀ d ∈ ds, d < base
  nonempty : ds ≠ []
  noLeadingZero : ds.head? = some 0 → ds = [0]
  value : horner base 0 ds = n

/-- The canonical text of a number. -/
def Canonical (base : Nat) (n : Int) (t : Bytes) : Prop :=
  ∃ digits ds, t = (if n < 0 then 45 :: digits else digits) ∧
    CanonicalDigits base n.natAbs digits ds

section Texts

variable {base : Nat}

theorem digitVal_itoaDigit {d : Nat} (h : d < 36) : digitVal (itoaDigit d) = some d := by
  have hall : ∀ d < 36, digitVal (itoaDigit d) = some d := by decide
  exact hall d h

theorem canonicalDigits_numeral (hb : 2 ≤ base) (hb' : base ≤ 36) (n : Nat) :
    CanonicalDigits base n (numeral base n) (lsd base n).reverse where
  vals := by
    rw [numeral, digitChrs, ← List.map_reverse, List.map_map]
    refine List.map_congr_left fun d hd => digitVal_itoaDigit ?_
    have := lsd_lt (by omega) (List.mem_reverse.mp hd)
    omega
  below := fun d hd => lsd_lt (by omega) (List.mem_reverse.mp hd)
  nonempty := by
    rw [ne_eq, List.reverse_eq_nil_iff]
    exact lsd_ne_nil base n
  noLeadingZero := fun h => by
    rw [List.head?_reverse] at h
    rw [lsd_getLast base n h]
    rfl
  value := horner_lsd base n

theorem canonical_signed (hb : 2 ≤ base) (hb' : base ≤ 36) (n : Int) :
    Canonical base n (signed (numeral base) n) :=
  ⟨_, _, rfl, canonicalDigits_numeral hb hb' n.natAbs⟩

theorem inRange_zero {b : Blk} {p n : Nat} (h : b.InRange p n) : b.InRange p 0 := by
  obtain ⟨hlo, hhi⟩ := h
  exact ⟨hlo, by omega⟩

/-- Wherever there is room for it, `f` writes the string `t`, nothing else, and
returns the address of its terminator. -/
def Writes (f : Blk → Nat → Run (Blk × Nat)) (t : Bytes) : Prop :=
  ∀ (b : Blk) (p : Nat), b.InRange p (t.length + 1) →
    f b p = .ok (b.put p (t ++ [0]), p + t.length)

theorem writes_of_eq {f : Blk → Nat → Run (Blk × Nat)} {t : Bytes}
    (h : ∀ (b : Blk) (p : Nat), b.InRange p 0 → f b p = writtenAt b p t) : Writes f t :=
  fun b p hroom => (h b p (inRange_zero hroom)).trans (if_pos hroom)

/-- The encoders write the canonical text. -/
theorem lltoa_canonical (hb : 2 ≤ base) (hb' : base ≤ 36) :
    (∀ number : Nat, number < 2 ^ 64 → ∃ t, Canonical base number t ∧
      Writes (fun b buf => ulltoaP b buf number base) t) ∧
    (∀ number : Int, -2 ^ 63 ≤ number → number < 2 ^ 63 → ∃ t, Canonical base number t ∧
      Writes (fun b buf => lltoaP b buf number base) t) := by
  constructor
  · refine fun number hn => ⟨_, canonical_signed hb hb' number, writes_of_eq fun b p hin => ?_⟩
    rw [signed, if_neg (by omega), Int.natAbs_natCast]
    exact ulltoaP_eq hb hn hin
  · exact fun number hlo hhi => ⟨_, canonical_signed hb hb' number, writes_of_eq fun b p hin =>
      signedP_eq (encoder_eq none hb) ⟨hlo, by omega⟩ hin⟩

/-- Base 16. -/
theorem lltoa_canonical_hex :
    (∀ number : Nat, number < 2 ^ 64 → ∃ t, Canonical 16 number t ∧
      Writes (fun b buf => ulltoaP b buf number 16) t) ∧
    (∀ number : Int, -2 ^ 63 ≤ number → number < 2 ^ 63 → ∃ t, Canonical 16 number t ∧
      Writes (fun b buf => lltoaP b buf number 16) t) :=
  @lltoa_canonical 16 (by decide) (by decide)

end Texts

end Jstr
