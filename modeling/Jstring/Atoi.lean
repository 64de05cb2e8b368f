import Jstring.ItoaText

/-!
# Reading integers

The decoders at the end of `include/itoa.h`, and what they make of the
texts of the encoders in base 10. An unsigned number is read back. So is
a signed one that is not negative; behind a sign the first byte read as a
digit is the sign again, and the last digit is not read, so that nothing
negative is ever returned.

- `atou_numeral`, `atoi_numeral`: the digits of a number, read;
- `atoi_sign`: what is returned behind a sign;
- `ato_toa_iff`: the round trip.
-/

namespace Jstr

open Numeral

/-! ## The decoders -/

/-- A `char`, which is signed. -/
def schar (c : UInt8) : Int := if c.toNat < 128 then c.toNat else c.toNat - 256

/-- A number in the unsigned type of `bits` bits. -/
def toUnsigned (bits : Nat) (n : Int) : Nat := (n % 2 ^ bits).toNat

/-- The numbers of the signed type of `bits` bits. -/
def FitsSigned (bits : Nat) (n : Int) : Prop := -2 ^ (bits - 1) ≤ n ∧ n < 2 ^ (bits - 1)

instance (bits : Nat) (n : Int) : Decidable (FitsSigned bits n) :=
  inferInstanceAs (Decidable (_ ∧ _))

/-- The loop of the unsigned decoders, with `sz` bytes to read. -/
def atouLoop (bits : Nat) (b : Blk) : Nat → Nat → Nat → Run Nat
  | 0, _, n => .ok n
  | sz + 1, s, n => do
    let c ← b.read s
    atouLoop bits b sz (s + 1) ((n * 10 + toUnsigned bits (schar c - 48)) % 2 ^ bits)

/-- `JSTR_INTERNAL_DEFINE_ATOU`, for a type of `bits` bits. -/
def atouBits (bits : Nat) (b : Blk) (s : Nat) : Nat → Run Nat
  | 0 => .ok 0
  | sz + 1 => do
    let c ← b.read s
    atouLoop bits b sz (s + 1) (toUnsigned bits (schar c - 48))

/-- `jstr_atou_len`. -/
def atouLen (b : Blk) (s sz : Nat) : Run Nat := atouBits 32 b s sz

/-- `jstr_atoul_len`. -/
def atoulLen (b : Blk) (s sz : Nat) : Run Nat := atouBits 64 b s sz

/-- `jstr_atoull_len`. -/
def atoullLen (b : Blk) (s sz : Nat) : Run Nat := atouBits 64 b s sz

/-- The loop of the signed decoders. An overflow is undefined, and there is
no number then. -/
def atoiLoop (bits : Nat) (b : Blk) : Nat → Nat → Int → Run (Option Int)
  | 0, _, n => .ok (some n)
  | sz + 1, s, n => do
    let c ← b.read s
    if FitsSigned bits (n * 10) ∧ FitsSigned bits (n * 10 + (schar c - 48)) then
      atoiLoop bits b sz (s + 1) (n * 10 + (schar c - 48))
    else .ok none

/-- `JSTR_INTERNAL_DEFINE_ATOI`, for a type of `bits` bits. Behind the test
for the sign, `*s++` is the sign. -/
def atoiBits (bits : Nat) (b : Blk) (s : Nat) : Nat → Run (Option Int)
  | 0 => .ok (some 0)
  | sz + 1 => do
    let c ← b.read s
    if c = 45 then
      if sz = 0 then .ok (some 0)
      else do
        let c ← b.read s
        atoiLoop bits b (sz - 1) (s + 1) (-(schar c - 48))
    else atoiLoop bits b sz (s + 1) (schar c - 48)

/-- `jstr_atoi_len`. -/
def atoiLen (b : Blk) (s sz : Nat) : Run (Option Int) := atoiBits 32 b s sz

/-- `jstr_atol_len`. -/
def atolLen (b : Blk) (s sz : Nat) : Run (Option Int) := atoiBits 64 b s sz

/-- `jstr_atoll_len`. -/
def atollLen (b : Blk) (s sz : Nat) : Run (Option Int) := atoiBits 64 b s sz

/-- The decoder of the type. -/
def ato (b : Blk) (s sz : Nat) : IntTy → Run (Option Int)
  | .unsignedInt => return some (← atouLen b s sz)
  | .unsignedLong => return some (← atoulLen b s sz)
  | .unsignedLongLong => return some (← atoullLen b s sz)
  | .int => atoiLen b s sz
  | .long => atolLen b s sz
  | .longLong => atollLen b s sz

/-- The encoder of the type. -/
def toaP (b : Blk) (buf : Nat) (v : Int) (base : Nat) : IntTy → Run (Blk × Nat)
  | .unsignedInt => utoaP b buf v.toNat base
  | .unsignedLong => ultoaP b buf v.toNat base
  | .unsignedLongLong => ulltoaP b buf v.toNat base
  | .int => itoaP b buf v base
  | .long => ltoaP b buf v base
  | .longLong => lltoaP b buf v base

/-! ## Digits, read -/

section Read

variable {bits s sz : Nat} {b : Blk}

theorem schar_itoaDigit {d : Nat} (h : d < 10) : schar (itoaDigit d) - 48 = d := by
  have hall : ∀ d < 10, schar (itoaDigit d) - 48 = d := by decide
  exact hall d h

theorem toUnsigned_of_lt {d : Nat} (h : d < 2 ^ bits) : toUnsigned bits d = d := by
  rw [toUnsigned, Int.emod_eq_of_lt (by omega) (by exact_mod_cast h), Int.toNat_natCast]

/-- As the value does not exceed the type at the end, it does nowhere. -/
theorem atouLoop_digits (hbits : 4 ≤ bits) : ∀ (ds : List Nat) {s n : Nat},
    b.At s (ds.map itoaDigit) → (∀ d ∈ ds, d < 10) → horner 10 n ds < 2 ^ bits →
    atouLoop bits b ds.length s n = .ok (horner 10 n ds)
  | [], _, _, _, _, _ => rfl
  | d :: ds, s, n, hat, hds, hlt => by
      obtain ⟨hread, hrest⟩ := Blk.read_cons hat
      have hd := hds d List.mem_cons_self
      have hpow : 2 ^ 4 ≤ 2 ^ bits := Nat.pow_le_pow_right (by decide) hbits
      rw [horner_cons] at hlt ⊢
      have hnext : n * 10 + d < 2 ^ bits := lt_of_le_of_lt (le_horner (by decide) ds _) hlt
      rw [List.length_cons, atouLoop, hread]
      simp only [bind, Except.bind]
      rw [schar_itoaDigit hd, toUnsigned_of_lt (by omega), Nat.mod_eq_of_lt hnext]
      exact atouLoop_digits hbits ds hrest (fun d h => hds d (List.mem_cons_of_mem _ h)) hlt

theorem atoiLoop_digits : ∀ (ds : List Nat) {s n : Nat},
    b.At s (ds.map itoaDigit) → (∀ d ∈ ds, d < 10) → horner 10 n ds < 2 ^ (bits - 1) →
    atoiLoop bits b ds.length s n = .ok (some (horner 10 n ds))
  | [], _, _, _, _, _ => rfl
  | d :: ds, s, n, hat, hds, hlt => by
      obtain ⟨hread, hrest⟩ := Blk.read_cons hat
      have hd := hds d List.mem_cons_self
      rw [horner_cons] at hlt ⊢
      have hnext : n * 10 + d < 2 ^ (bits - 1) := lt_of_le_of_lt (le_horner (by decide) ds _) hlt
      have hcast : ((n * 10 + d : Nat) : Int) < 2 ^ (bits - 1) := by exact_mod_cast hnext
      rw [List.length_cons, atoiLoop, hread]
      simp only [bind, Except.bind]
      rw [schar_itoaDigit hd, if_pos ⟨⟨by omega, by omega⟩, by omega, by omega⟩]
      exact atoiLoop_digits ds hrest (fun d h => hds d (List.mem_cons_of_mem _ h)) hlt

theorem numeral_digits (n : Nat) :
    ∃ ds : List Nat, numeral 10 n = ds.map itoaDigit ∧ (∀ d ∈ ds, d < 10) ∧ horner 10 0 ds = n := by
  refine ⟨(lsd 10 n).reverse, ?_, fun d hd => ?_, horner_lsd 10 n⟩
  · rw [numeral, digitChrs, List.map_reverse]
  · exact lsd_lt (by decide) (List.mem_reverse.mp hd)

/-- The unsigned decoders read a numeral back. -/
theorem atou_numeral {n : Nat} (hbits : 4 ≤ bits) (hn : n < 2 ^ bits)
    (hat : b.At s (numeral 10 n)) : atouBits bits b s (numeral 10 n).length = .ok n := by
  obtain ⟨ds, hds, hlt, hval⟩ := numeral_digits n
  rw [hds] at hat ⊢
  rw [List.length_map]
  cases ds with
  | nil => rw [← hval]; rfl
  | cons d ds =>
      obtain ⟨hread, hrest⟩ := Blk.read_cons hat
      have hd := hlt d List.mem_cons_self
      have hpow : 2 ^ 4 ≤ 2 ^ bits := Nat.pow_le_pow_right (by decide) hbits
      rw [horner_cons, Nat.zero_mul, Nat.zero_add] at hval
      rw [List.length_cons, atouBits, hread]
      simp only [bind, Except.bind]
      rw [schar_itoaDigit hd, toUnsigned_of_lt (by omega), atouLoop_digits hbits ds hrest
        (fun d h => hlt d (List.mem_cons_of_mem _ h)) (by omega), hval]

/-- So do the signed ones, as it does not begin with a sign. -/
theorem atoi_numeral {n : Nat} (hn : n < 2 ^ (bits - 1)) (hat : b.At s (numeral 10 n)) :
    atoiBits bits b s (numeral 10 n).length = .ok (some n) := by
  obtain ⟨ds, hds, hlt, hval⟩ := numeral_digits n
  rw [hds] at hat ⊢
  rw [List.length_map]
  cases ds with
  | nil => rw [← hval]; rfl
  | cons d ds =>
      obtain ⟨hread, hrest⟩ := Blk.read_cons hat
      have hd := hlt d List.mem_cons_self
      have hsign : itoaDigit d ≠ 45 := by
        have hall : ∀ d < 10, itoaDigit d ≠ 45 := by decide
        exact hall d hd
      rw [horner_cons, Nat.zero_mul, Nat.zero_add] at hval
      rw [List.length_cons, atoiBits, hread]
      simp only [bind, Except.bind]
      rw [if_neg hsign, schar_itoaDigit hd, atoiLoop_digits ds hrest
        (fun d h => hlt d (List.mem_cons_of_mem _ h)) (by omega), hval]

/-- Digits behind a number that is not negative give no negative one. -/
theorem atoiLoop_nonneg : ∀ (ds : List Nat) {s sz : Nat} {n : Int},
    b.At s (ds.map itoaDigit) → (∀ d ∈ ds, d < 10) → sz ≤ ds.length → 0 ≤ n →
    ∃ r, atoiLoop bits b sz s n = .ok r ∧ ∀ v ∈ r, 0 ≤ v
  | _, _, 0, n, _, _, _, hn => ⟨some n, rfl, fun v hv => by
      cases hv
      exact hn⟩
  | [], _, sz + 1, _, _, _, hsz, _ => absurd hsz (Nat.not_succ_le_zero sz)
  | d :: ds, s, sz + 1, n, hat, hds, hsz, hn => by
      obtain ⟨hread, hrest⟩ := Blk.read_cons hat
      have hd := hds d List.mem_cons_self
      rw [List.length_cons] at hsz
      rw [atoiLoop, hread]
      simp only [bind, Except.bind]
      rw [schar_itoaDigit hd]
      split
      · exact atoiLoop_nonneg ds hrest (fun d h => hds d (List.mem_cons_of_mem _ h)) (by omega)
          (by omega)
      · exact ⟨none, rfl, nofun⟩

/-- Behind a sign the value read is not negative, or it overflows: the sign is
taken for the digit -3 and negated. -/
theorem atoi_sign {ds : List Nat} (hat : b.At s (45 :: ds.map itoaDigit))
    (hds : ∀ d ∈ ds, d < 10) :
    ∃ r, atoiBits bits b s (ds.length + 1) = .ok r ∧ ∀ v ∈ r, 0 ≤ v := by
  obtain ⟨hread, hrest⟩ := Blk.read_cons hat
  rw [atoiBits, hread]
  simp only [bind, Except.bind, if_true]
  split
  · exact ⟨some 0, rfl, fun v hv => by
      cases hv
      exact Int.le_refl 0⟩
  · exact atoiLoop_nonneg ds hrest hds (Nat.sub_le _ _) (by decide)

end Read

/-! ## The round trip -/

section RoundTrip

variable {ty : IntTy} {v : Int}

/-- The encoder writes the text. -/
theorem toaP_eq {b : Blk} {p : Nat} (hv : ty.Has v)
    (hroom : b.InRange p ((toaText none 10 v).length + 1)) :
    toaP b p v 10 ty
      = .ok (b.put p (toaText none 10 v ++ [0]), p + (toaText none 10 v).length) := by
  have hin := inRange_zero hroom
  rw [← show writtenAt b p (toaText none 10 v) = _ from if_pos hroom]
  rw [IntTy.Has] at hv
  by_cases hty : ty.isSigned
  · rw [if_pos hty] at hv
    have hfit : FitsUll v := by
      cases ty <;> simp only [IntTy.bits] at hv <;> exact ⟨by omega, by omega⟩
    have hrun := signedP_eq (encoder_eq none (show 2 ≤ 10 by decide)) hfit hin
    cases ty <;> first | exact absurd hty Bool.false_ne_true | exact hrun
  · rw [if_neg hty] at hv
    have hfit : v.toNat < 18446744073709551616 := by
      cases ty <;> simp only [IntTy.bits] at hv <;> omega
    have hrun := @ulltoaP_eq b p 10 v.toNat (by decide) hfit hin
    have htext : toaText none 10 v = numeral 10 v.toNat := by
      rw [toaText, signed, if_neg (by omega), show v.natAbs = v.toNat by omega]
      rfl
    rw [htext]
    cases ty <;> first | exact absurd rfl hty | exact hrun

/-- What is read of the text of a number: the number, or if it is negative
something else. -/
theorem ato_text {b : Blk} {s : Nat} (hv : ty.Has v) (hat : b.At s (toaText none 10 v)) :
    ∃ r, ato b s (toaText none 10 v).length ty = .ok r ∧ (r = some v ↔ 0 ≤ v) := by
  rw [IntTy.Has] at hv
  by_cases hneg : v < 0
  · have hty : ty.isSigned := by
      by_contra h
      rw [if_neg h] at hv
      omega
    obtain ⟨ds, hds, hlt, -⟩ := numeral_digits v.natAbs
    have htext : toaText none 10 v = 45 :: ds.map itoaDigit := by
      rw [toaText, signed, if_pos hneg, ← hds]
      rfl
    rw [htext] at hat ⊢
    obtain ⟨r, hrun, hr⟩ := @atoi_sign ty.bits s b _ hat hlt
    rw [List.length_cons, List.length_map]
    refine ⟨r, ?_, iff_of_false (fun h => ?_) (by omega)⟩
    · cases ty <;> first | exact absurd hty Bool.false_ne_true | exact hrun
    · have := hr v h
      omega
  · obtain ⟨n, rfl⟩ := Int.eq_ofNat_of_zero_le (show 0 ≤ v by omega)
    have htext : toaText none 10 (n : Int) = numeral 10 n := by
      rw [toaText, signed, if_neg hneg, Int.natAbs_natCast]
      rfl
    rw [htext] at hat ⊢
    refine ⟨some n, ?_, iff_of_true rfl (by omega)⟩
    by_cases hty : ty.isSigned
    · rw [if_pos hty] at hv
      have hrun := @atoi_numeral ty.bits s b n (by exact_mod_cast hv.2) hat
      cases ty <;> first | exact absurd hty Bool.false_ne_true | exact hrun
    · rw [if_neg hty] at hv
      have hrun := @atou_numeral ty.bits s b n (by cases ty <;> decide) (by exact_mod_cast hv.2) hat
      cases ty <;> first | exact absurd rfl hty | skip
      all_goals
        simp only [IntTy.bits] at hrun
        simp only [ato, atouLen, atoulLen, atoullLen, hrun]
        rfl

/-- The round trip, for the six types: wherever there is room the encoder
writes, and the decoder reads the number back exactly if it is not negative. -/
theorem ato_toa_iff {b : Blk} {p : Nat} (hv : ty.Has v)
    (hroom : b.InRange p ((toaText none 10 v).length + 1)) :
    ∃ b' e, toaP b p v 10 ty = .ok (b', e) ∧
      (ato b' p (e - p) ty = .ok (some v) ↔ 0 ≤ v) := by
  have hat := (@Memory.Block.at_put _ b p (toaText none 10 v ++ [0]) (by
    rw [List.length_append]
    exact hroom)).left
  obtain ⟨r, hrun, hr⟩ := ato_text hv hat
  refine ⟨_, _, toaP_eq hv hroom, ?_⟩
  rw [Nat.add_sub_cancel_left, hrun, Except.ok.injEq]
  exact hr

/-- 120 in an `int`. -/
theorem ato_toa_iff_120 :
    ∃ b' e, toaP ⟨64, List.replicate 8 1⟩ 64 120 10 .int = .ok (b', e) ∧
      (ato b' 64 (e - 64) .int = .ok (some 120) ↔ (0 : Int) ≤ 120) :=
  ato_toa_iff ⟨by decide, by decide⟩ (by decide)

/-- `"-12"` is read as 31. -/
theorem not_ato_toa_neg :
    ¬∀ (ty : IntTy) (v : Int) (b b' : Blk) (p e : Nat), ty.Has v →
      toaP b p v 10 ty = .ok (b', e) → ato b' p (e - p) ty = .ok (some v) := by
  intro h
  have hrun : toaP ⟨64, List.replicate 8 1⟩ 64 (-12) 10 .int
      = .ok (⟨64, [45, 49, 50, 0, 1, 1, 1, 1]⟩, 67) := rfl
  have hread : ato ⟨64, [45, 49, 50, 0, 1, 1, 1, 1]⟩ 64 (67 - 64) .int = .ok (some 31) := by
    decide
  have := h .int (-12) _ _ 64 67 ⟨by decide, by decide⟩ hrun
  rw [hread] at this
  exact absurd this (by decide)

end RoundTrip

end Jstr
