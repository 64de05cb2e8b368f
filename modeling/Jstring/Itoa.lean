import Jstring.Reserve
import Jstring.Lib.Numeral

/-!
# Writing integers

`include/itoa.h`: the encoders, which write the digits of a number from
the least significant one on and then reverse them, and the wrappers,
which reserve what a bound on the digits says first.

- `numeral`, `sepNumeral`, `signed`: the texts;
- `ulltoaP_eq`, `ulltoaThousepP_eq`, `signedP_eq`: the encoders write
  them, or leave the block if it is too small;
- `itoa_iff`: when the wrappers have reserved enough.
-/

namespace Jstr

open Numeral

/-! ## The encoders -/

/-- `jstr_internal_itoa_digit`. -/
def itoaDigit (d : Nat) : UInt8 := UInt8.ofNat (if d < 10 then 48 + d else 97 + d - 10)

/-- `LOOP_BASE`. The constants of the `switch` it is used in are the base. -/
def loopBase (base : Nat) : Nat → Blk → Nat → Nat → Run (Blk × Nat)
  | 0, _, _, _ => .error .diverge
  | fuel + 1, b, buf, number => do
    let b ← b.write buf [itoaDigit (number % base)]
    let number := number / base
    if number ≠ 0 then loopBase base fuel b (buf + 1) number else .ok (b, buf + 1)

/-- The loop that reverses what is between `start` and `buf`. -/
def reverseLoop : Nat → Blk → Nat → Nat → Run Blk
  | 0, _, _, _ => .error .diverge
  | fuel + 1, b, start, buf =>
    if start < buf then do
      let c ← b.read start
      let d ← b.read buf
      let b ← b.write start [d]
      let b ← b.write buf [c]
      reverseLoop fuel b (start + 1) (buf - 1)
    else .ok b

/-- The end of both encoders: the terminator, and the reversal. -/
def finishDigits (b : Blk) (start e : Nat) : Run (Blk × Nat) := do
  let b ← b.write e [0]
  let b ← reverseLoop (e - start + 1) b start (e - 1)
  .ok (b, e)

/-- `jstr_ulltoa_p`. No number has more than 64 digits. -/
def ulltoaP (b : Blk) (buf number base : Nat) : Run (Blk × Nat) :=
  if base = 10 ∧ number ≤ 9 then do
    let b ← b.write buf [UInt8.ofNat (number + 48)]
    let b ← b.write (buf + 1) [0]
    .ok (b, buf + 1)
  else do
    let (b, e) ← loopBase base 64 b buf number
    finishDigits b buf e

/-- The loop of `jstr_ulltoa_thousep_p`; `n` digits are behind the last
separator. -/
def convLoop (base : Nat) (separator : UInt8) : Nat → Blk → Nat → Nat → Nat → Run (Blk × Nat)
  | 0, _, _, _, _ => .error .diverge
  | fuel + 1, b, buf, number, n => do
    let b ← b.write buf [itoaDigit (number % base)]
    let number := number / base
    if number = 0 then .ok (b, buf + 1)
    else if n + 1 ≠ 3 then convLoop base separator fuel b (buf + 1) number (n + 1)
    else do
      let b ← b.write (buf + 1) [separator]
      convLoop base separator fuel b (buf + 2) number 0

/-- `jstr_ulltoa_thousep_p`. -/
def ulltoaThousepP (b : Blk) (buf number base : Nat) (separator : UInt8) : Run (Blk × Nat) :=
  if number ≤ 999 then ulltoaP b buf number base
  else do
    let (b, e) ← convLoop base separator 64 b buf number 0
    finishDigits b buf e

/-- A number as `unsigned long long`. -/
def toUll (number : Int) : Nat := (number % 18446744073709551616).toNat

/-- The sign, and the magnitude left to `f`. -/
def signedP (f : Blk → Nat → Nat → Run (Blk × Nat)) (b : Blk) (buf : Nat) (number : Int) :
    Run (Blk × Nat) :=
  if number < 0 then do
    let b ← b.write buf [45]
    f b (buf + 1) (subSz 0 (toUll number))
  else f b buf (toUll number)

/-- `jstr_lltoa_p`. -/
def lltoaP (b : Blk) (buf : Nat) (number : Int) (base : Nat) : Run (Blk × Nat) :=
  signedP (fun b buf number => ulltoaP b buf number base) b buf number

/-- `jstr_lltoa_thousep_p`. -/
def lltoaThousepP (b : Blk) (buf : Nat) (number : Int) (base : Nat) (separator : UInt8) :
    Run (Blk × Nat) :=
  signedP (fun b buf number => ulltoaThousepP b buf number base separator) b buf number

/-! The encoders of the narrower types are these four. -/

/-- `jstr_ultoa_p`. -/
def ultoaP (b : Blk) (buf number base : Nat) : Run (Blk × Nat) := ulltoaP b buf number base

/-- `jstr_utoa_p`. -/
def utoaP (b : Blk) (buf number base : Nat) : Run (Blk × Nat) := ulltoaP b buf number base

/-- `jstr_ltoa_p`. -/
def ltoaP (b : Blk) (buf : Nat) (number : Int) (base : Nat) : Run (Blk × Nat) :=
  lltoaP b buf number base

/-- `jstr_itoa_p`. -/
def itoaP (b : Blk) (buf : Nat) (number : Int) (base : Nat) : Run (Blk × Nat) :=
  lltoaP b buf number base

/-- `jstr_ultoa_thousep_p`. -/
def ultoaThousepP (b : Blk) (buf number base : Nat) (separator : UInt8) : Run (Blk × Nat) :=
  ulltoaThousepP b buf number base separator

/-- `jstr_utoa_thousep_p`. -/
def utoaThousepP (b : Blk) (buf number base : Nat) (separator : UInt8) : Run (Blk × Nat) :=
  ulltoaThousepP b buf number base separator

/-- `jstr_ltoa_thousep_p`. -/
def ltoaThousepP (b : Blk) (buf : Nat) (number : Int) (base : Nat) (separator : UInt8) :
    Run (Blk × Nat) :=
  lltoaThousepP b buf number base separator

/-- `jstr_itoa_thousep_p`. -/
def itoaThousepP (b : Blk) (buf : Nat) (number : Int) (base : Nat) (separator : UInt8) :
    Run (Blk × Nat) :=
  lltoaThousepP b buf number base separator

/-! ## The bound on the digits -/

/-- The loop of the bound: the greatest `l2` with `1 << l2` at most `base`. -/
def log2Loop (bits base : Nat) : Nat → Nat → Nat
  | 0, l2 => l2
  | fuel + 1, l2 =>
    if 1 <<< (l2 + 1) ≤ base ∧ l2 < bits then log2Loop bits base fuel (l2 + 1) else l2

/-- `l2` of the bound. -/
def digitBits (bits base : Nat) : Nat :=
  match base with
  | 2 => 1
  | 8 => 3
  | 10 => 3
  | 16 => 4
  | base =>
    let l2 := log2Loop bits base bits 0
    if l2 = 0 then 1 else l2

/-- `JSTR_INTERNAL_DEFINE_ITOA_COUNTUDIGITS`, for a type of `bits` bits. The
number itself is not looked at. -/
def countudigits (bits : Nat) (isThousep : Bool) (base : Nat) : Nat :=
  let dmax := bits / digitBits bits base + 1
  dmax + if isThousep then dmax / 3 else 0

/-- `jstr_internal_itoa_countudigits_utoa`. -/
def countudigitsUtoa (base : Nat) : Nat := countudigits 32 false base

/-- `jstr_internal_itoa_countudigits_ultoa`. -/
def countudigitsUltoa (base : Nat) : Nat := countudigits 64 false base

/-- `jstr_internal_itoa_countudigits_ulltoa`. -/
def countudigitsUlltoa (base : Nat) : Nat := countudigits 64 false base

/-- `jstr_internal_itoa_countudigits_utoa_thousep`. -/
def countudigitsUtoaThousep (base : Nat) : Nat := countudigits 32 true base

/-- `jstr_internal_itoa_countudigits_ultoa_thousep`. -/
def countudigitsUltoaThousep (base : Nat) : Nat := countudigits 64 true base

/-- `jstr_internal_itoa_countudigits_ulltoa_thousep`. -/
def countudigitsUlltoaThousep (base : Nat) : Nat := countudigits 64 true base

/-! ## The calls -/

/-- The shape of all twelve: `JSTR_INTERNAL_itoa_chk_base`, the reserve, the
encoder. -/
def toaSafe (al : Alloc) (j : JstrTy) (base count : Nat) (f : Blk → Nat → Run (Blk × Nat)) :
    Run (RetTy × JstrTy) :=
  if base < 2 ∨ base > 36 then .ok (.err, j)
  else growBy al j count fun b sz => f b (b.addr + sz)

section Calls

variable (al : Alloc) (j : JstrTy)

/-- `jstr_utoa`. -/
def utoa (number base : Nat) : Run (RetTy × JstrTy) :=
  toaSafe al j base (countudigitsUtoa base) fun b s => utoaP b s number base

/-- `jstr_ultoa`. -/
def ultoa (number base : Nat) : Run (RetTy × JstrTy) :=
  toaSafe al j base (countudigitsUltoa base) fun b s => ultoaP b s number base

/-- `jstr_ulltoa`. -/
def ulltoa (number base : Nat) : Run (RetTy × JstrTy) :=
  toaSafe al j base (countudigitsUlltoa base) fun b s => ulltoaP b s number base

/-- `jstr_itoa`. -/
def itoa (number : Int) (base : Nat) : Run (RetTy × JstrTy) :=
  toaSafe al j base (countudigitsUtoa base) fun b s => itoaP b s number base

/-- `jstr_ltoa`. -/
def ltoa (number : Int) (base : Nat) : Run (RetTy × JstrTy) :=
  toaSafe al j base (countudigitsUltoa base) fun b s => ltoaP b s number base

/-- `jstr_lltoa`. -/
def lltoa (number : Int) (base : Nat) : Run (RetTy × JstrTy) :=
  toaSafe al j base (countudigitsUlltoa base) fun b s => lltoaP b s number base

/-- `jstr_utoa_thousep`. -/
def utoaThousep (number base : Nat) (separator : UInt8) : Run (RetTy × JstrTy) :=
  toaSafe al j base (countudigitsUtoaThousep base)
    fun b s => utoaThousepP b s number base separator

/-- `jstr_ultoa_thousep`. -/
def ultoaThousep (number base : Nat) (separator : UInt8) : Run (RetTy × JstrTy) :=
  toaSafe al j base (countudigitsUltoaThousep base)
    fun b s => ultoaThousepP b s number base separator

/-- `jstr_ulltoa_thousep`. -/
def ulltoaThousep (number base : Nat) (separator : UInt8) : Run (RetTy × JstrTy) :=
  toaSafe al j base (countudigitsUlltoaThousep base)
    fun b s => ulltoaThousepP b s number base separator

/-- `jstr_itoa_thousep`. -/
def itoaThousep (number : Int) (base : Nat) (separator : UInt8) : Run (RetTy × JstrTy) :=
  toaSafe al j base (countudigitsUtoaThousep base)
    fun b s => itoaThousepP b s number base separator

/-- `jstr_ltoa_thousep`. -/
def ltoaThousep (number : Int) (base : Nat) (separator : UInt8) : Run (RetTy × JstrTy) :=
  toaSafe al j base (countudigitsUltoaThousep base)
    fun b s => ltoaThousepP b s number base separator

/-- `jstr_lltoa_thousep`. -/
def lltoaThousep (number : Int) (base : Nat) (separator : UInt8) : Run (RetTy × JstrTy) :=
  toaSafe al j base (countudigitsUlltoaThousep base)
    fun b s => lltoaThousepP b s number base separator

end Calls

/-- The types the calls are made for. -/
inductive IntTy where
  | unsignedInt
  | unsignedLong
  | unsignedLongLong
  | int
  | long
  | longLong
  deriving DecidableEq, Repr

namespace IntTy

def bits : IntTy → Nat
  | unsignedInt | int => 32
  | unsignedLong | unsignedLongLong | long | longLong => 64

def isSigned : IntTy → Bool
  | unsignedInt | unsignedLong | unsignedLongLong => false
  | int | long | longLong => true

/-- The values of the type. -/
def Has (ty : IntTy) (v : Int) : Prop :=
  if ty.isSigned then -2 ^ (ty.bits - 1) ≤ v ∧ v < 2 ^ (ty.bits - 1) else 0 ≤ v ∧ v < 2 ^ ty.bits

end IntTy

/-- The call for the type, with a separator or without. -/
def toa (al : Alloc) (j : JstrTy) (v : Int) (base : Nat) : IntTy → Option UInt8 →
    Run (RetTy × JstrTy)
  | .unsignedInt, none => utoa al j v.toNat base
  | .unsignedLong, none => ultoa al j v.toNat base
  | .unsignedLongLong, none => ulltoa al j v.toNat base
  | .int, none => itoa al j v base
  | .long, none => ltoa al j v base
  | .longLong, none => lltoa al j v base
  | .unsignedInt, some separator => utoaThousep al j v.toNat base separator
  | .unsignedLong, some separator => ultoaThousep al j v.toNat base separator
  | .unsignedLongLong, some separator => ulltoaThousep al j v.toNat base separator
  | .int, some separator => itoaThousep al j v base separator
  | .long, some separator => ltoaThousep al j v base separator
  | .longLong, some separator => lltoaThousep al j v base separator

/-! ## The texts -/

/-- The digits of `n`, as they are written first. -/
def digitChrs (base n : Nat) : Bytes := (lsd base n).map itoaDigit

/-- The numeral of `n`. -/
def numeral (base n : Nat) : Bytes := (digitChrs base n).reverse

/-- The numeral of `n`, with separators if it is greater than 999. -/
def sepNumeral (sep : UInt8) (base n : Nat) : Bytes :=
  if n ≤ 999 then numeral base n else (groups sep 0 (digitChrs base n)).reverse

/-- The sign of a number before the text of its magnitude. -/
def signed (text : Nat → Bytes) (n : Int) : Bytes :=
  if n < 0 then 45 :: text n.natAbs else text n.natAbs

/-- The text of a value, with a separator or without. -/
def toaText (sep : Option UInt8) (base : Nat) (v : Int) : Bytes :=
  signed (sep.elim (numeral base) fun sep => sepNumeral sep base) v

/-! ## What is written -/

/-- What writing `l` at `p` byte by byte comes to. -/
def emitted (b : Blk) (p : Nat) (l : Bytes) : Run (Blk × Nat) :=
  if b.InRange p l.length then .ok (b.put p l, p + l.length) else .error .bounds

section Emit

variable {b : Blk} {p base number : Nat} {done l m : Bytes} {sep : UInt8}

/-- The next bytes. -/
theorem write_emitted (hl : l ≠ []) (hin : b.InRange p done.length) :
    Blk.write (b.put p done) (p + done.length) l
      = if b.InRange p (done ++ l).length then .ok (b.put p (done ++ l)) else .error .bounds := by
  have hlen : (done ++ l).length = done.length + l.length := List.length_append
  rw [hlen]
  by_cases h : b.InRange p (done.length + l.length)
  · rw [if_pos h, Blk.write_put h]
  · rw [if_neg h, Blk.write, if_neg hl, if_neg]
    rintro ⟨-, hhi⟩
    rw [Memory.Block.put_addr, Memory.Block.put_size] at hhi
    exact h ⟨hin.1, by omega⟩

theorem emitted_of_not (h : ¬b.InRange p done.length) : emitted b p (done ++ l) = .error .bounds := by
  rw [emitted, if_neg]
  rintro ⟨hlo, hhi⟩
  rw [List.length_append] at hhi
  exact h ⟨hlo, by omega⟩

theorem digitChrs_of_lt (h : number < base) : digitChrs base number = [itoaDigit number] := by
  rw [digitChrs, lsd_of_lt h]
  rfl

theorem digitChrs_step (hb : 1 < base) (h : base ≤ number) :
    digitChrs base number = itoaDigit (number % base) :: digitChrs base (number / base) := by
  rw [digitChrs, digitChrs, lsd_step hb h]
  rfl

/-- `fuel` digits suffice for a number below `base ^ fuel`. -/
theorem loopBase_eq (hb : 1 < base) : ∀ (fuel : Nat) {number : Nat} {done : Bytes},
    number < base ^ fuel → b.InRange p done.length →
    (number ≠ 0 ∨ 0 < fuel) → loopBase base fuel (b.put p done) (p + done.length) number
      = emitted b p (done ++ digitChrs base number) := by
  intro fuel
  induction fuel with
  | zero =>
      intro number done hlt _ hne
      rw [Nat.pow_zero] at hlt
      omega
  | succ fuel ih =>
      intro number done hlt hin _
      have hdiv : number / base < base ^ fuel := by
        rw [Nat.pow_succ, Nat.mul_comm] at hlt
        exact Nat.div_lt_of_lt_mul hlt
      rw [loopBase, write_emitted (List.cons_ne_nil _ []) hin]
      by_cases hnext : b.InRange p (done ++ [itoaDigit (number % base)]).length
      · rw [if_pos hnext]
        simp only [bind, Except.bind]
        rcases Nat.lt_or_ge number base with hsmall | hlarge
        · rw [if_neg (not_not.mpr (Nat.div_eq_of_lt hsmall)), digitChrs_of_lt hsmall,
            Nat.mod_eq_of_lt hsmall]
          rw [Nat.mod_eq_of_lt hsmall] at hnext
          rw [emitted, if_pos hnext, List.length_append]
          rfl
        · have hne : number / base ≠ 0 := by
            have := Nat.div_pos hlarge (by omega)
            omega
          have hrest := ih hdiv hnext (.inl hne)
          rw [List.length_append, List.append_assoc] at hrest
          rw [if_pos hne, digitChrs_step hb hlarge]
          exact hrest
      · have hsplit : ∃ l, digitChrs base number = [itoaDigit (number % base)] ++ l := by
          rcases Nat.lt_or_ge number base with hsmall | hlarge
          · exact ⟨[], by rw [digitChrs_of_lt hsmall, Nat.mod_eq_of_lt hsmall]; rfl⟩
          · exact ⟨_, digitChrs_step hb hlarge⟩
        obtain ⟨l, hl⟩ := hsplit
        rw [if_neg hnext, hl, ← List.append_assoc, emitted_of_not hnext]
        rfl

/-- The same with separators, `n` digits being behind the last. -/
theorem convLoop_eq (hb : 1 < base) : ∀ (fuel : Nat) {number n : Nat} {done : Bytes},
    number < base ^ fuel → b.InRange p done.length → n < 3 →
    (number ≠ 0 ∨ 0 < fuel) → convLoop base sep fuel (b.put p done) (p + done.length) number n
      = emitted b p (done ++ groups sep n (digitChrs base number)) := by
  intro fuel
  induction fuel with
  | zero =>
      intro number n done hlt _ _ hne
      rw [Nat.pow_zero] at hlt
      omega
  | succ fuel ih =>
      intro number n done hlt hin hn _
      have hdiv : number / base < base ^ fuel := by
        rw [Nat.pow_succ, Nat.mul_comm] at hlt
        exact Nat.div_lt_of_lt_mul hlt
      rw [convLoop, write_emitted (List.cons_ne_nil _ []) hin]
      rcases Nat.lt_or_ge number base with hsmall | hlarge
      · rw [digitChrs_of_lt hsmall, Nat.mod_eq_of_lt hsmall, groups]
        by_cases hnext : b.InRange p (done ++ [itoaDigit number]).length
        · rw [if_pos hnext]
          simp only [bind, Except.bind]
          rw [if_pos (Nat.div_eq_of_lt hsmall), emitted, if_pos hnext, List.length_append]
          rfl
        · rw [if_neg hnext, emitted, if_neg hnext]
          rfl
      have hne : number / base ≠ 0 := by
        have := Nat.div_pos hlarge (by omega)
        omega
      have hrest : digitChrs base (number / base) ≠ [] := by
        rw [digitChrs, ne_eq, List.map_eq_nil_iff]
        exact lsd_ne_nil base _
      rw [digitChrs_step hb hlarge, groups_cons sep _ hrest]
      generalize itoaDigit (number % base) = c
      have hlen : p + done.length + 1 = p + (done ++ [c]).length := by
        rw [List.length_append]
        rfl
      by_cases hnext : b.InRange p (done ++ [c]).length
      · rw [if_pos hnext]
        simp only [bind, Except.bind]
        rw [if_neg hne, hlen]
        by_cases hthird : n + 1 = 3
        · rw [if_neg (not_not.mpr hthird), if_pos hthird,
            write_emitted (List.cons_ne_nil _ []) hnext]
          by_cases hsep : b.InRange p (done ++ [c] ++ [sep]).length
          · have h := @ih (number / base) 0 _ hdiv hsep (by omega) (.inl hne)
            simp only [List.length_append, List.append_assoc, List.cons_append,
              List.nil_append] at hsep
            simp only [List.length_append, List.append_assoc, List.cons_append,
              List.nil_append] at h
            simp only [List.length_append, List.append_assoc, List.cons_append,
              List.nil_append, Nat.add_assoc, if_pos hsep]
            exact h
          · rw [if_neg hsep, List.append_cons done c, List.append_cons (done ++ [c]) sep,
              emitted_of_not hsep]
        · have h := @ih (number / base) (n + 1) _ hdiv hnext (by omega) (.inl hne)
          rw [if_pos hthird, if_neg hthird, h, List.append_assoc]
          rfl
      · rw [if_neg hnext]
        have happ : ∀ l, done ++ c :: l = done ++ [c] ++ l := fun l => List.append_cons done c l
        rw [happ, emitted_of_not hnext]
        rfl

/-! ## The reversal -/

theorem read_mid {x y : Bytes} {c : UInt8} (hin : b.InRange p (x ++ [c] ++ y).length) :
    Blk.read (b.put p (x ++ [c] ++ y)) (p + x.length) = .ok c :=
  Blk.read_eq (Memory.Block.at_put hin).left.right

theorem write_mid {x y : Bytes} {c d : UInt8} (hin : b.InRange p (x ++ [c] ++ y).length) :
    Blk.write (b.put p (x ++ [c] ++ y)) (p + x.length) [d] = .ok (b.put p (x ++ [d] ++ y)) := by
  have hd : (b.put p (x ++ [c] ++ y)).InRange (p + x.length) [d].length :=
    (Memory.Block.at_put hin).left.right.inRange
  rw [Blk.write_eq hd,
    Memory.Block.put_put_mid b p (show [d].length = [c].length from rfl)]

/-- What is between `start` and `buf`, both included, is reversed. -/
theorem reverseLoop_eq : ∀ (fuel : Nat) {x m y : Bytes}, m.length < 2 * fuel →
    b.InRange p (x ++ m ++ y).length →
    reverseLoop fuel (b.put p (x ++ m ++ y)) (p + x.length) (p + x.length + m.length - 1)
      = .ok (b.put p (x ++ m.reverse ++ y)) := by
  intro fuel
  induction fuel with
  | zero => exact fun hf _ => absurd hf (Nat.not_lt_zero _)
  | succ fuel ih =>
      intro x m y hf hin
      rw [reverseLoop]
      rcases m with _ | ⟨c, m⟩
      · rw [List.length_nil, if_neg (by omega)]
        rfl
      rcases List.eq_nil_or_concat m with rfl | ⟨m, d, rfl⟩
      · rw [List.length_singleton, if_neg (by omega)]
        rfl
      rw [List.concat_eq_append] at hf hin ⊢
      have hm : (c :: (m ++ [d])).length = m.length + 2 := by
        rw [List.length_cons, List.length_append]
        rfl
      rw [hm] at hf ⊢
      -- the contents, with each of the two ends singled out
      have hfirst : x ++ c :: (m ++ [d]) ++ y = x ++ [c] ++ (m ++ [d] ++ y) := by simp
      have hlast : x ++ c :: (m ++ [d]) ++ y = x ++ [c] ++ m ++ [d] ++ y := by simp
      have hswap : x ++ [d] ++ (m ++ [d] ++ y) = x ++ [d] ++ m ++ [d] ++ y := by simp
      have hend : p + x.length + (m.length + 2) - 1 = p + (x ++ [d] ++ m).length := by
        simp only [List.length_append, List.length_singleton]
        omega
      have hend' : p + (x ++ [d] ++ m).length = p + (x ++ [c] ++ m).length := by
        simp only [List.length_append, List.length_singleton]
      have hin₁ : b.InRange p (x ++ [c] ++ (m ++ [d] ++ y)).length := hfirst ▸ hin
      have hin₂ : b.InRange p (x ++ [c] ++ m ++ [d] ++ y).length := hlast ▸ hin
      have hin₃ : b.InRange p (x ++ [d] ++ m ++ [d] ++ y).length := by
        simp only [List.length_append, List.length_singleton] at hin₂ ⊢
        exact hin₂
      have hrest := @ih (x ++ [d]) m (c :: y) (by omega) (by
        simp only [List.length_append, List.length_cons] at hin₂ ⊢
        rwa [Nat.add_comm y.length 1, ← Nat.add_assoc])
      have hstart : p + x.length + 1 = p + (x ++ [d]).length := by
        rw [List.length_append]
        rfl
      have hbuf : p + (x ++ [d] ++ m).length - 1 = p + (x ++ [d]).length + m.length - 1 := by
        rw [List.length_append, Nat.add_assoc]
      rw [if_pos (by omega), hend, hfirst, read_mid hin₁]
      simp only [bind, Except.bind]
      rw [← hfirst, hlast, hend', read_mid hin₂]
      simp only
      rw [← hlast, hfirst, write_mid hin₁]
      simp only
      rw [hswap, ← hend', write_mid hin₃]
      simp only
      rw [hstart, hbuf]
      rw [List.append_cons, List.append_assoc _ [c]] at hrest
      simp only [List.append_assoc, List.cons_append, List.nil_append] at hrest ⊢
      rw [hrest]
      simp

/-- What the encoders come to: `l` and a terminator at `p`. -/
def writtenAt (b : Blk) (p : Nat) (l : Bytes) : Run (Blk × Nat) :=
  if b.InRange p (l.length + 1) then .ok (b.put p (l ++ [0]), p + l.length) else .error .bounds

theorem finishDigits_eq (hin : b.InRange p l.length) :
    finishDigits (b.put p l) p (p + l.length) = writtenAt b p l.reverse := by
  rw [finishDigits, write_emitted (List.cons_ne_nil _ []) hin, writtenAt, List.length_reverse]
  have hlen : (l ++ [0]).length = l.length + 1 := List.length_append
  rw [hlen]
  by_cases hroom : b.InRange p (l.length + 1)
  · have hrev := @reverseLoop_eq b p (p + l.length - p + 1) [] l [0] (by omega) (by
      rw [List.nil_append, hlen]
      exact hroom)
    simp only [List.nil_append, List.length_nil, Nat.add_zero] at hrev
    rw [if_pos hroom, if_pos hroom]
    simp only [bind, Except.bind, hrev]
  · rw [if_neg hroom, if_neg hroom]
    rfl

/-- The digits or the terminator do not fit. -/
theorem emitted_finish (b : Blk) (p : Nat) (l : Bytes) :
    (do
      let (b', e) ← emitted b p l
      finishDigits b' p e) = writtenAt b p l.reverse := by
  rw [emitted]
  by_cases hroom : b.InRange p l.length
  · rw [if_pos hroom]
    exact finishDigits_eq hroom
  · rw [if_neg hroom, writtenAt, List.length_reverse, if_neg fun h => hroom ⟨h.1, by
      have := h.2
      omega⟩]
    rfl

/-! ## The encoders -/

theorem lt_pow_of_lt_ull (hb : 2 ≤ base) (hn : number < 18446744073709551616) :
    number < base ^ 64 :=
  lt_of_lt_of_le hn (Nat.pow_le_pow_left hb 64)

/-- `jstr_ulltoa_p` writes the numeral. -/
theorem ulltoaP_eq (hb : 2 ≤ base) (hn : number < 18446744073709551616) (hin : b.InRange p 0) :
    ulltoaP b p number base = writtenAt b p (numeral base number) := by
  rw [ulltoaP]
  split
  · rename_i hsmall
    obtain ⟨rfl, hle⟩ := hsmall
    have hnum : numeral 10 number = [UInt8.ofNat (number + 48)] := by
      rw [numeral, digitChrs_of_lt (show number < 10 by omega), itoaDigit,
        if_pos (show number < 10 by omega), Nat.add_comm]
      rfl
    rw [hnum, writtenAt, Blk.write, if_neg (List.cons_ne_nil _ [])]
    by_cases hone : b.InRange p [UInt8.ofNat (number + 48)].length
    · have hnul := @write_emitted b p _ [0] (List.cons_ne_nil _ []) hone
      rw [List.length_append, List.length_singleton] at hnul
      rw [if_pos hone]
      simp only [bind, Except.bind, hnul, List.length_singleton]
      by_cases htwo : b.InRange p (1 + 1)
      · rw [if_pos htwo, if_pos htwo]
      · rw [if_neg htwo, if_neg htwo]
    · rw [if_neg hone, if_neg fun h => hone ⟨h.1, by
        have := h.2
        omega⟩]
      rfl
  · have hloop := @loopBase_eq b p base (by omega) 64 number [] (lt_pow_of_lt_ull hb hn) hin
      (.inr (by decide))
    rw [Blk.put_nil, List.nil_append] at hloop
    simp only [List.length_nil, Nat.add_zero] at hloop
    rw [hloop]
    exact emitted_finish b p _

/-- `jstr_ulltoa_thousep_p` writes it with separators. -/
theorem ulltoaThousepP_eq (hb : 2 ≤ base) (hn : number < 18446744073709551616)
    (hin : b.InRange p 0) :
    ulltoaThousepP b p number base sep = writtenAt b p (sepNumeral sep base number) := by
  rw [ulltoaThousepP, sepNumeral]
  split
  · exact ulltoaP_eq hb hn hin
  · have hloop := @convLoop_eq b p base sep (by omega) 64 number 0 [] (lt_pow_of_lt_ull hb hn) hin
      (by decide) (.inr (by decide))
    rw [Blk.put_nil, List.nil_append] at hloop
    simp only [List.length_nil, Nat.add_zero] at hloop
    rw [hloop]
    exact emitted_finish b p _

/-- The numbers of a `long long`, or of an `unsigned long long`. -/
def FitsUll (n : Int) : Prop := -9223372036854775808 ≤ n ∧ n < 18446744073709551616

theorem toUll_of_nonneg {n : Int} (h0 : 0 ≤ n) (hn : FitsUll n) : toUll n = n.natAbs := by
  have := hn.2
  rw [toUll]
  omega

theorem subSz_toUll {n : Int} (h0 : n < 0) (hn : FitsUll n) :
    subSz 0 (toUll n) = n.natAbs := by
  have := hn.1
  rw [subSz, toUll]
  split <;> omega

theorem natAbs_lt {n : Int} (hn : FitsUll n) : n.natAbs < 18446744073709551616 := by
  obtain ⟨hlo, hhi⟩ := hn
  omega

/-- The sign is written, and the magnitude behind it. -/
theorem signedP_eq {f : Blk → Nat → Nat → Run (Blk × Nat)} {text : Nat → Bytes} {n : Int}
    (hf : ∀ (b : Blk) (p number : Nat), number < 18446744073709551616 → b.InRange p 0 →
      f b p number = writtenAt b p (text number))
    (hn : FitsUll n) (hin : b.InRange p 0) :
    signedP f b p n = writtenAt b p (signed text n) := by
  rw [signedP, signed]
  split
  · rename_i hneg
    rw [Blk.write, if_neg (List.cons_ne_nil _ []), writtenAt]
    by_cases hone : b.InRange p ([45] : Bytes).length
    · rw [if_pos hone]
      simp only [bind, Except.bind]
      obtain ⟨hlo, hhi⟩ := hone
      rw [List.length_singleton] at hhi
      have hin' : Memory.Block.InRange (b.put p [45]) (p + 1) 0 := by
        rw [Memory.Block.InRange, Memory.Block.put_addr, Memory.Block.put_size]
        omega
      rw [subSz_toUll hneg hn, hf _ _ _ (natAbs_lt hn) hin', writtenAt]
      have hput := Memory.Block.put_append b p [45] (text n.natAbs ++ [0])
      rw [List.length_singleton] at hput
      have hrange : Memory.Block.InRange (b.put p [45]) (p + 1) ((text n.natAbs).length + 1) ↔
          b.InRange p ((text n.natAbs).length + 1 + 1) := by
        rw [Memory.Block.InRange, Memory.Block.InRange, Memory.Block.put_addr,
          Memory.Block.put_size]
        omega
      have hlen : p + 1 + (text n.natAbs).length = p + ((text n.natAbs).length + 1) := by omega
      rw [hput, hlen, List.length_cons]
      by_cases hroom : b.InRange p ((text n.natAbs).length + 1 + 1)
      · rw [if_pos hroom, if_pos (hrange.mpr hroom)]
        rfl
      · rw [if_neg hroom, if_neg fun h => hroom (hrange.mp h)]
    · rw [if_neg hone, if_neg fun h => hone ⟨h.1, by
        have := h.2
        rw [List.length_singleton]
        omega⟩]
      rfl
  · rename_i hpos
    rw [toUll_of_nonneg (by omega) hn, hf _ _ _ (natAbs_lt hn) hin]

/-- The encoder of the unsigned types. -/
def encoder (sep : Option UInt8) (base : Nat) (b : Blk) (buf number : Nat) : Run (Blk × Nat) :=
  match sep with
  | none => ulltoaP b buf number base
  | some sep => ulltoaThousepP b buf number base sep

theorem encoder_eq (sep : Option UInt8) (hb : 2 ≤ base) (b : Blk) (p number : Nat)
    (hn : number < 18446744073709551616) (hin : b.InRange p 0) :
    encoder sep base b p number
      = writtenAt b p ((sep.elim (numeral base) fun sep => sepNumeral sep base) number) := by
  cases sep with
  | none => exact ulltoaP_eq hb hn hin
  | some sep => exact ulltoaThousepP_eq hb hn hin

/-- Behind the base check all the calls are `growBy`, with what writes the
text of the value. -/
theorem toa_eq {ty : IntTy} {sep : Option UInt8} {v : Int} (al : Alloc) (j : JstrTy)
    (hv : ty.Has v) (hb : 2 ≤ base) (hb' : base ≤ 36) :
    ∃ f, toa al j v base ty sep = growBy al j (countudigits ty.bits sep.isSome base) f ∧
      ∀ b sz, sz ≤ b.size → f b sz = writtenAt b (b.addr + sz) (toaText sep base v) := by
  have hchk : ¬(base < 2 ∨ base > 36) := by omega
  have hin : ∀ (b : Blk) (sz : Nat), sz ≤ b.size → b.InRange (b.addr + sz) 0 :=
    fun b sz h => ⟨Nat.le_add_right _ _, by omega⟩
  rw [IntTy.Has] at hv
  by_cases hty : ty.isSigned
  · rw [if_pos hty] at hv
    refine ⟨fun b sz => signedP (encoder sep base) b (b.addr + sz) v, ?_, fun b sz h =>
      signedP_eq (encoder_eq sep hb) ?_ (hin b sz h)⟩
    · cases ty <;> first | exact absurd hty Bool.false_ne_true | skip
      all_goals cases sep <;> exact if_neg hchk
    · cases ty <;> first | exact absurd hty Bool.false_ne_true | skip
      all_goals
        simp only [IntTy.bits] at hv
        exact ⟨by omega, by omega⟩
  · rw [if_neg hty] at hv
    have habs : v.toNat = v.natAbs := by omega
    have hfit : v.toNat < 18446744073709551616 := by
      cases ty <;> first | exact absurd rfl hty | skip
      all_goals
        simp only [IntTy.bits] at hv
        omega
    refine ⟨fun b sz => encoder sep base b (b.addr + sz) v.toNat, ?_, fun b sz h => ?_⟩
    · cases ty <;> first | exact absurd rfl hty | skip
      all_goals cases sep <;> exact if_neg hchk
    · rw [toaText, signed, if_neg (by omega), ← habs]
      exact encoder_eq sep hb b _ _ hfit (hin b sz h)

end Emit

/-! ## How many bytes -/

section Count

variable {ty : IntTy} {sep : Option UInt8} {base : Nat} {v : Int}

theorem length_numeral (base n : Nat) : (numeral base n).length = (lsd base n).length := by
  rw [numeral, digitChrs, List.length_reverse, List.length_map]

theorem length_sepNumeral (sep : UInt8) (base n : Nat) : (sepNumeral sep base n).length
    = (lsd base n).length + if n ≤ 999 then 0 else ((lsd base n).length - 1) / 3 := by
  rw [sepNumeral]
  split
  · rw [length_numeral, Nat.add_zero]
  · have hne : digitChrs base n ≠ [] := by
      rw [digitChrs, ne_eq, List.map_eq_nil_iff]
      exact lsd_ne_nil base n
    rw [List.length_reverse, length_groups sep (by decide) hne, Nat.zero_add, digitChrs,
      List.length_map]

/-- The sign, the digits, the separators. -/
theorem length_toaText (sep : Option UInt8) (base : Nat) (v : Int) :
    (toaText sep base v).length = (if v < 0 then 1 else 0) + (lsd base v.natAbs).length
      + if sep.isSome ∧ ¬v.natAbs ≤ 999 then ((lsd base v.natAbs).length - 1) / 3 else 0 := by
  have hmag : ((sep.elim (numeral base) fun sep => sepNumeral sep base) v.natAbs).length
      = (lsd base v.natAbs).length
        + if sep.isSome ∧ ¬v.natAbs ≤ 999 then ((lsd base v.natAbs).length - 1) / 3 else 0 := by
    cases sep with
    | none => exact length_numeral base _
    | some sep =>
        rw [Option.elim_some, length_sepNumeral]
        by_cases h : v.natAbs ≤ 999
        · rw [if_pos h, if_neg fun h' => h'.2 h]
        · rw [if_neg h, if_pos ⟨rfl, h⟩]
  rw [toaText, signed]
  by_cases h : v < 0
  · rw [if_pos h, if_pos h, List.length_cons, hmag]
    omega
  · rw [if_neg h, if_neg h, hmag, Nat.zero_add]

/-- No base accepted has less than one bit to a digit, or more than five. -/
theorem digitBits_spec (ty : IntTy) (hb : 2 ≤ base) (hb' : base ≤ 36) :
    1 ≤ digitBits ty.bits base ∧ digitBits ty.bits base ≤ 5 ∧
      2 ^ digitBits ty.bits base ≤ base := by
  have hall : ∀ bits ∈ [32, 64], ∀ base < 37, 2 ≤ base →
      1 ≤ digitBits bits base ∧ digitBits bits base ≤ 5 ∧ 2 ^ digitBits bits base ≤ base := by
    decide
  exact hall ty.bits (by cases ty <;> decide) base (by omega) hb

/-- A negative number with all the digits the bound allows for. -/
def FullNegative (ty : IntTy) (base : Nat) (v : Int) : Prop :=
  v < 0 ∧ base ^ (ty.bits / digitBits ty.bits base) ≤ v.natAbs

theorem natAbs_lt_two_pow (hv : ty.Has v) : v.natAbs < 2 ^ ty.bits := by
  cases ty <;> simp [IntTy.Has, IntTy.isSigned, IntTy.bits] at hv ⊢ <;> omega

theorem natAbs_le_of_neg (hv : ty.Has v) (hneg : v < 0) : v.natAbs ≤ 2 ^ (ty.bits - 1) := by
  cases ty <;> simp [IntTy.Has, IntTy.isSigned, IntTy.bits] at hv ⊢ <;> omega

/-- There are no more digits than the bound says. -/
theorem lsd_length_le_dmax (hv : ty.Has v) (hb : 2 ≤ base) (hb' : base ≤ 36) :
    (lsd base v.natAbs).length ≤ ty.bits / digitBits ty.bits base + 1 := by
  obtain ⟨h1, -, hpow⟩ := digitBits_spec ty hb hb'
  have hle := lsd_length_le h1 hpow (natAbs_lt_two_pow hv)
  have : (ty.bits - 1) / digitBits ty.bits base ≤ ty.bits / digitBits ty.bits base :=
    Nat.div_le_div_right (Nat.sub_le _ _)
  omega

/-- The text is within the bound, if it is not that of such a number. -/
theorem length_toaText_le (hv : ty.Has v) (hb : 2 ≤ base) (hb' : base ≤ 36)
    (h : ¬FullNegative ty base v) :
    (toaText sep base v).length ≤ countudigits ty.bits sep.isSome base := by
  have hdmax := lsd_length_le_dmax hv hb hb'
  rw [length_toaText, countudigits]
  generalize hd : ty.bits / digitBits ty.bits base = d at hdmax ⊢
  have hsign : (if v < 0 then 1 else 0) + (lsd base v.natAbs).length ≤ d + 1 := by
    split
    · rename_i hneg
      have hlt : v.natAbs < base ^ d := by
        by_contra hge
        exact h ⟨hneg, by rw [hd]; omega⟩
      have hpos : 0 < d := by
        obtain ⟨h1, h5, -⟩ := digitBits_spec ty hb hb'
        rw [← hd]
        exact Nat.div_pos (by cases ty <;> simp only [IntTy.bits] at h5 ⊢ <;> omega) h1
      have := (lsd_length_le_iff (by omega) hpos).mpr hlt
      omega
    · omega
  by_cases hsep : sep.isSome ∧ ¬v.natAbs ≤ 999
  · rw [if_pos hsep, if_pos hsep.1]
    omega
  · rw [if_neg hsep]
    omega

/-- The text of such a number is longer by its sign. -/
theorem length_toaText_full (hv : ty.Has v) (hb : 2 ≤ base) (hb' : base ≤ 36)
    (h : FullNegative ty base v) :
    (toaText sep base v).length = countudigits ty.bits sep.isSome base + 1 := by
  obtain ⟨hneg, hpow⟩ := h
  obtain ⟨h1, h5, hbase⟩ := digitBits_spec ty hb hb'
  have hdmax := lsd_length_le_dmax hv hb hb'
  -- as the digits do not fill the word evenly, a digit is of three bits or five
  have hbits : digitBits ty.bits base * (ty.bits / digitBits ty.bits base) ≤ ty.bits - 1 := by
    rw [← Nat.pow_le_pow_iff_right (show 1 < 2 by decide), Nat.pow_mul]
    exact le_trans (Nat.pow_le_pow_left hbase _) (le_trans hpow (natAbs_le_of_neg hv hneg))
  have hbig : 2 ^ 27 ≤ v.natAbs := by
    refine le_trans ?_ (le_trans (Nat.pow_le_pow_left hbase _) hpow)
    rw [← Nat.pow_mul]
    refine Nat.pow_le_pow_right (by decide) ?_
    have := Nat.div_add_mod ty.bits (digitBits ty.bits base)
    have := Nat.mod_lt ty.bits h1
    have : 32 ≤ ty.bits := by cases ty <;> decide
    omega
  have hthird : ty.bits / digitBits ty.bits base / 3
      = (ty.bits / digitBits ty.bits base + 1) / 3 ∧ 0 < ty.bits / digitBits ty.bits base := by
    generalize digitBits ty.bits base = l at *
    cases ty <;> simp only [IntTy.bits] at hbits ⊢ <;> interval_cases l <;> omega
  rw [length_toaText, countudigits]
  generalize hd : ty.bits / digitBits ty.bits base = d at *
  have hlen : (lsd base v.natAbs).length = d + 1 := by
    have : ¬(lsd base v.natAbs).length ≤ d := by
      rw [lsd_length_le_iff (by omega) hthird.2]
      omega
    omega
  rw [hlen, if_pos hneg]
  by_cases hsep : sep.isSome
  · rw [if_pos ⟨hsep, by omega⟩, if_pos hsep]
    omega
  · rw [if_neg fun h => hsep h.1, if_neg hsep]
    omega

/-! ## The calls -/

/-- When all that a call writes is within the capacity: if the room is
granted, the text of the value is not one byte longer than the bound, or that
byte is there. A length that wraps in the request reserves nothing. -/
def ToaMeets (al : Alloc) (j : JstrTy) (ty : IntTy) (sep : Option UInt8) (base : Nat) (v : Int) :
    Prop :=
  Granted al j (addSz (addSz j.size (countudigits ty.bits sep.isSome base)) 1) →
    if j.size + countudigits ty.bits sep.isSome base + 1 ≤ sizeMax then
      FullNegative ty base v → j.size + countudigits ty.bits sep.isSome base + 2
        ≤ capAfter j.capacity (j.size + countudigits ty.bits sep.isSome base + 1)
    else j.size + (toaText sep base v).length + 1 ≤ j.capacity

/-- The rule for `growBy` whose body writes `l` behind the content. -/
theorem growBy_writtenAt_iff {al : Alloc} {j : JstrTy} {t l : Bytes} {n : Nat}
    {f : Blk → Nat → Run (Blk × Nat)} (hc : Content j t) (hcap : j.capacity ≤ sizeMax)
    (hn : j.size = 0 → 0 < addSz (addSz j.size n) 1)
    (hf : ∀ b sz, sz ≤ b.size → f b sz = writtenAt b (b.addr + sz) l) :
    Safe j (fun j' => Str j' (t ++ l)) (growBy al j n f) ↔
      (Granted al j (addSz (addSz j.size n) 1) →
        j.size + l.length + 1 ≤ capAfter j.capacity (addSz (addSz j.size n) 1)) := by
  rw [growBy]
  by_cases hgr : Granted al j (addSz (addSz j.size n) 1)
  swap
  · exact iff_of_true (safe_refused (reserve_refused hgr)) fun h => absurd h hgr
  rw [imp_iff_right hgr]
  obtain ⟨j', b, hr, hd, hb, hafter, hsz, -, hat⟩ := hgr.content hc hn hcap
  have hin := hat.inRange.2
  rw [hr, ← hafter, ← hb, hc.size]
  simp only [orErr, JstrTy.deref, hd, bind, Except.bind]
  rw [hsz, hf b t.length (by omega), writtenAt]
  by_cases hroom : t.length + l.length + 1 ≤ b.size
  · have hst : Stores b (t ++ l) (b.put (b.addr + t.length) (l ++ [0])) := stores_back hat hroom
    have hstr := hst.str hb
    rw [if_pos ⟨Nat.le_add_right _ _, by omega⟩]
    simp only [Nat.add_assoc, subSz_eq (Nat.le_add_right b.addr _), Nat.add_sub_cancel_left]
    rw [List.length_append] at hstr
    exact iff_of_true hstr (by omega)
  · rw [if_neg fun h => hroom (by have := h.2; omega)]
    exact iff_of_false (not_safe_error (by decide)) hroom

/-- Unless the room is refused, a call appends the text of its value and a
terminator, all of it within the capacity, exactly under `ToaMeets`; and the
bytes are as many as were reserved exactly if the value is not a full negative
one. -/
theorem toa_iff {j : JstrTy} {t : Bytes} (al : Alloc) (sep : Option UInt8) (hc : Content j t)
    (hcap : j.capacity ≤ sizeMax) (hv : ty.Has v) (hb : 2 ≤ base) (hb' : base ≤ 36) :
    (Safe j (fun j' => Str j' (t ++ toaText sep base v)) (toa al j v base ty sep) ↔
        ToaMeets al j ty sep base v) ∧
      ((toaText sep base v).length + 1 ≤ countudigits ty.bits sep.isSome base + 1 ↔
        ¬FullNegative ty base v) := by
  have hshort : (toaText sep base v).length ≤ countudigits ty.bits sep.isSome base ↔
      ¬FullNegative ty base v := by
    refine ⟨fun h hfull => ?_, length_toaText_le hv hb hb'⟩
    rw [length_toaText_full hv hb hb' hfull] at h
    omega
  have hlong : FullNegative ty base v →
      (toaText sep base v).length = countudigits ty.bits sep.isSome base + 1 :=
    length_toaText_full hv hb hb'
  refine ⟨?_, by rw [← hshort]; omega⟩
  obtain ⟨f, hrun, hf⟩ := @toa_eq base ty sep v al j hv hb hb'
  have hlarge : countudigits ty.bits sep.isSome base < 100 := by
    have : ty.bits / digitBits ty.bits base ≤ ty.bits := Nat.div_le_self _ _
    have : ty.bits ≤ 64 := by cases ty <;> decide
    rw [countudigits]
    split <;> omega
  rw [hrun, ToaMeets]
  generalize countudigits ty.bits sep.isSome base = c at *
  have hsize := hc.size_le
  have hreq : addSz (addSz j.size c) 1 = (j.size + c + 1) % 18446744073709551616 := by
    rw [addSz, addSz]
    omega
  rw [growBy_writtenAt_iff hc hcap (by omega) hf]
  refine imp_congr_right fun hgr => ?_
  by_cases hfit : j.size + c + 1 ≤ sizeMax
  · have hw : addSz (addSz j.size c) 1 = j.size + c + 1 := by
      simp only [sizeMax] at hfit
      omega
    have hle := hgr.le_capAfter
    rw [hw] at hle
    rw [if_pos hfit, hw]
    by_cases hfull : FullNegative ty base v
    · have hlen := hlong hfull
      rw [imp_iff_right hfull]
      omega
    · have hlen := hshort.mpr hfull
      exact iff_of_true (by omega) fun h => absurd h hfull
  · have hw : addSz (addSz j.size c) 1 ≤ j.capacity := by
      simp only [sizeMax] at hfit hcap
      omega
    rw [if_neg hfit, capAfter, if_pos hw]

/-- 255 in base 16, without separators. -/
theorem toa_iff_ff :
    (Safe .init (fun j' => Str j' ([] ++ toaText none 16 255))
          (toa (Alloc.filling 64 0) .init 255 16 .int none) ↔
        ToaMeets (Alloc.filling 64 0) .init .int none 16 255) ∧
      ((toaText none 16 255).length + 1 ≤ countudigits IntTy.int.bits false 16 + 1 ↔
        ¬FullNegative .int 16 255) :=
  @toa_iff .int 16 255 .init [] (Alloc.filling 64 0) none (.inl ⟨rfl, rfl⟩) (by decide)
    ⟨by decide, by decide⟩ (by decide) (by decide)

/-- The least `int` in base 8 takes 13 bytes with its terminator; 12 are
reserved behind 12 letters in a block of 24. -/
theorem not_toa_min :
    ¬Safe ⟨some ⟨64, List.replicate 12 97 ++ List.replicate 12 0⟩, 12, 24⟩
        (fun j' => Str j' (List.replicate 12 97 ++ toaText none 8 (-2147483648)))
        (toa (Alloc.filling 4096 0) ⟨some ⟨64, List.replicate 12 97 ++ List.replicate 12 0⟩, 12, 24⟩
          (-2147483648) 8 .int none) := by
  have hrun : toa (Alloc.filling 4096 0)
      ⟨some ⟨64, List.replicate 12 97 ++ List.replicate 12 0⟩, 12, 24⟩ (-2147483648) 8 .int none
      = .error .bounds := rfl
  rw [hrun]
  exact not_safe_error (by decide)

end Count

end Jstr
