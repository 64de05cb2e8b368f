import Mathlib.Tactic

/-!
# Windows packed into one number

`pack x i n` is the number whose base-256 digits are the `n` bytes of `x`
from index `i` on, the first one highest. A window slides by one byte
with one multiplication, one addition and one reduction (`pack_slide`),
and two packed windows are equal exactly when the bytes are
(`pack_inj`): comparing the numbers compares the windows.
-/

namespace Words

/-- The bytes `x i, …, x (i + n - 1)` as the base-256 digits of a number. -/
def pack (x : Nat → UInt8) (i : Nat) : Nat → Nat
  | 0 => 0
  | n + 1 => pack x i n * 256 + (x (i + n)).toNat

variable {x y : Nat → UInt8} {i j : Nat}

theorem pack_lt (x : Nat → UInt8) (i : Nat) : ∀ n, pack x i n < 256 ^ n
  | 0 => Nat.one_pos
  | n + 1 => by
      have := pack_lt x i n
      have := (x (i + n)).toNat_lt
      rw [pack, Nat.pow_succ]
      omega

theorem pack_head (x : Nat → UInt8) (i : Nat) : ∀ n,
    pack x i (n + 1) = (x i).toNat * 256 ^ n + pack x (i + 1) n
  | 0 => by simp [pack]
  | n + 1 => by
      rw [pack, pack_head x i n, pack, Nat.pow_succ, Nat.add_mul, Nat.mul_assoc,
        Nat.add_assoc, show i + (n + 1) = i + 1 + n by omega]

/-- Sliding the window by one byte. -/
theorem pack_slide (x : Nat → UInt8) (i n : Nat) :
    (pack x i n * 256 + (x (i + n)).toNat) % 256 ^ n = pack x (i + 1) n := by
  rw [← pack, pack_head, Nat.add_comm, Nat.add_mul_mod_self_right,
    Nat.mod_eq_of_lt (pack_lt x (i + 1) n)]

theorem pack_inj : ∀ {n : Nat}, pack x i n = pack y j n ↔ ∀ k < n, x (i + k) = y (j + k)
  | 0 => by simp [pack]
  | n + 1 => by
      have hx := (x (i + n)).toNat_lt
      have hy := (y (j + n)).toNat_lt
      rw [pack, pack]
      constructor
      · intro h k hk
        rcases Nat.lt_succ_iff_lt_or_eq.mp hk with hlt | rfl
        · exact pack_inj.mp (by omega) k hlt
        · exact UInt8.toNat_inj.mp (by omega)
      · intro h
        rw [pack_inj.mpr fun k hk => h k (by omega), h n (Nat.lt_succ_self n)]

end Words
