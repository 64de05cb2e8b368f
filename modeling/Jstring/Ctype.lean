import Jstring.Mem

/-!
# ASCII letters and digits

`jstr_isalpha`, `jstr_isdigit`, `jstr_tolower` and `jstr_toupper` of
`include/internal/musl/ctype.h`, on the `unsigned char` they cut their
argument to. The byte arithmetic wraps as the `unsigned` arithmetic of
the macros does. `tolower_eq_iff` and `tolower_eq_iff_of_not` say which
bytes fold together.
-/

namespace Jstr

/-- `jstr_isalpha`. -/
def isalpha (c : UInt8) : Bool := (c ||| 32) - 97 < 26

/-- `jstr_isdigit`. -/
def isdigit (c : UInt8) : Bool := c - 48 < 10

/-- `jstr_tolower`. -/
def tolower (c : UInt8) : UInt8 := c ||| (if c - 65 < 26 then 32 else 0)

/-- `jstr_toupper`. -/
def toupper (c : UInt8) : UInt8 := c &&& (if c - 97 < 26 then 0x5f else 0xff)

theorem forall_byte {P : UInt8 → Prop} (h : ∀ n : Fin 256, P (UInt8.ofFin n)) (c : UInt8) :
    P c := h c.toFin

theorem isalpha_iff (c : UInt8) : isalpha c = true ↔
    65 ≤ c.toNat ∧ c.toNat ≤ 90 ∨ 97 ≤ c.toNat ∧ c.toNat ≤ 122 :=
  forall_byte (P := fun c => isalpha c = true ↔
    65 ≤ c.toNat ∧ c.toNat ≤ 90 ∨ 97 ≤ c.toNat ∧ c.toNat ≤ 122) (by decide +kernel) c

theorem tolower_toNat (c : UInt8) : (tolower c).toNat =
    if 65 ≤ c.toNat ∧ c.toNat ≤ 90 then c.toNat + 32 else c.toNat :=
  forall_byte (P := fun c => (tolower c).toNat =
    if 65 ≤ c.toNat ∧ c.toNat ≤ 90 then c.toNat + 32 else c.toNat) (by decide +kernel) c

theorem toupper_toNat (c : UInt8) : (toupper c).toNat =
    if 97 ≤ c.toNat ∧ c.toNat ≤ 122 then c.toNat - 32 else c.toNat :=
  forall_byte (P := fun c => (toupper c).toNat =
    if 97 ≤ c.toNat ∧ c.toNat ≤ 122 then c.toNat - 32 else c.toNat) (by decide +kernel) c

/-- The bytes that fold to the same as `c` are its two cases, which are
one when it is no letter. -/
theorem tolower_eq_iff (c x : UInt8) :
    tolower x = tolower c ↔ x = tolower c ∨ x = toupper c := by
  have h1 := tolower_toNat x
  have h2 := tolower_toNat c
  have h3 := toupper_toNat c
  simp only [← UInt8.toNat_inj]
  split at h1 <;> split at h2 <;> split at h3 <;> omega

/-- Only the byte itself folds to the same as a byte that is no letter. -/
theorem tolower_eq_iff_of_not {c : UInt8} (hc : ¬isalpha c = true) (x : UInt8) :
    tolower x = tolower c ↔ x = c := by
  rw [isalpha_iff] at hc
  have h1 := tolower_toNat x
  have h2 := tolower_toNat c
  simp only [← UInt8.toNat_inj]
  split at h1 <;> split at h2 <;> omega

theorem tolower_tolower (c : UInt8) : tolower (tolower c) = tolower c := by
  have h1 := tolower_toNat c
  have h2 := tolower_toNat (tolower c)
  rw [← UInt8.toNat_inj]
  split at h1 <;> split at h2 <;> omega

theorem toupper_tolower (c : UInt8) : toupper (tolower c) = toupper c := by
  have h1 := tolower_toNat c
  have h2 := toupper_toNat (tolower c)
  have h3 := toupper_toNat c
  rw [← UInt8.toNat_inj]
  split at h1 <;> split at h2 <;> split at h3 <;> omega

theorem tolower_eq_zero {c : UInt8} : tolower c = 0 ↔ c = 0 :=
  @tolower_eq_iff_of_not 0 (by decide) c

theorem toupper_eq_zero {c : UInt8} : toupper c = 0 ↔ c = 0 := by
  have h := toupper_toNat c
  simp only [← UInt8.toNat_inj, UInt8.toNat_zero]
  split at h <;> omega

end Jstr
