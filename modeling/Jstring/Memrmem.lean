import Jstring.StrstrLt8
import Jstring.Memrchr

/-!
# The last occurrence of a string

`jstr_memrmem`: the last place where the needle's first byte stands cuts
the haystack, then the windows of `include/internal/musl/strstr-lt8.h`
slide down from there, the byte let in at each step being the lowest.

- `packDown_slide`, `packDown_inj`: what one step of the word is, and that
  equal words are equal windows;
- `memrmemLt8_spec`, `memrmemMore_spec`: the two window searches;
- `memrmem_iff`: the search, and when its length is cut.

The search for eight bytes and more takes the length in an `unsigned int`.
-/

namespace Jstr

open Words

/-! ## The windows -/

/-- The first loop of `jstr_internal_memrmem_lt8`: `n` bytes of both strings,
from their ends down. -/
def lt8LoadBack (mem : Mem) : Nat → Nat → Nat → UInt64 → UInt64 → UInt64 × UInt64
  | 0, _, _, hw, nw => (hw, nw)
  | n + 1, hs, ne, hw, nw =>
    lt8LoadBack mem n (hs - 1) (ne - 1) (shiftIn hw (mem (hs - 1))) (shiftIn nw (mem (ne - 1)))

/-- The second loop, with `n` more positions; `hs` is where the window
begins. -/
def slideBack (mem : Mem) (mask nw : UInt64) : Nat → Nat → UInt64 → Nat × UInt64
  | 0, hs, hw => (hs, hw)
  | n + 1, hs, hw =>
    if hw ≠ nw then slideBack mem mask nw n (hs - 1) (shiftIn hw (mem (hs - 1)) &&& mask)
    else (hs, hw)

/-- `jstr_internal_memrmem_lt8`. -/
def memrmemLt8 (mem : Mem) (hs hsLen ne neLen : Nat) : Option Nat :=
  let mask := lt8Mask neLen
  let (hw, nw) := lt8LoadBack mem neLen (hs + hsLen) (ne + neLen) 0 0
  let nw := nw &&& mask
  let (h, hw) := slideBack mem mask nw (hsLen - neLen) (hs + hsLen - neLen) (hw &&& mask)
  if hw = nw then some h else none

/-- Eight bytes, the first one lowest. -/
def leU64 (mem : Mem) (p : Nat) : UInt64 :=
  (mem (p + 7)).toUInt64 <<< 56 ||| (mem (p + 6)).toUInt64 <<< 48
    ||| (mem (p + 5)).toUInt64 <<< 40 ||| (mem (p + 4)).toUInt64 <<< 32
    ||| (mem (p + 3)).toUInt64 <<< 24 ||| (mem (p + 2)).toUInt64 <<< 16
    ||| (mem (p + 1)).toUInt64 <<< 8 ||| (mem p).toUInt64

/-- The loop of `jstr_internal_memrmem_8more`, and the test behind it. -/
def moreLoop (mem : Mem) (nw : UInt64) (ne neLen : Nat) : Nat → Nat → UInt64 → Option Nat
  | 0, hs, hw =>
    if hw = nw ∧ memcmpEq mem (hs + 8) (ne + 8) (neLen - 8) then some hs else none
  | n + 1, hs, hw =>
    if hw = nw ∧ memcmpEq mem (hs + 8) (ne + 8) (neLen - 8) then some hs
    else moreLoop mem nw ne neLen n (hs - 1) (shiftIn hw (mem (hs - 1)))

/-- `jstr_internal_memrmem_8more`. With the length cut below that of the
needle, the first window begins below the haystack. -/
def memrmem8more (mem : Mem) (hs hsLen ne neLen : Nat) : Run (Option Nat) :=
  let hsLen := hsLen % 4294967296
  if hsLen < neLen then .error .bounds
  else
    let h := hs + (hsLen - neLen)
    .ok (moreLoop mem (leU64 mem ne) ne neLen (hsLen - neLen) h (leU64 mem h))

/-- `jstr_memrmem`. -/
def memrmem (cfg : Build) (mem : Mem) (hs hsLen ne neLen : Nat) : Run (Option Nat) :=
  if neLen = 0 then .ok (some (hs + hsLen))
  else if hsLen < neLen then .ok none
  else do
    match ← memrchr cfg mem hs (mem ne) (hsLen - neLen + 1) with
    | none => .ok none
    | some p =>
      if neLen = 1 then .ok (some p)
      else
        let hsLen := subSz (p + neLen) hs
        if neLen < 8 then .ok (memrmemLt8 mem hs hsLen ne neLen)
        else memrmem8more mem hs hsLen ne neLen

/-- `jstr_strrstr_len`. -/
def strrstrLen (cfg : Build) (mem : Mem) (hs hsLen ne neLen : Nat) : Run (Option Nat) :=
  memrmem cfg mem hs hsLen ne neLen

/-! ## A window that slides down -/

/-- The `n` bytes at `a`, the first one lowest. -/
def packDown (mem : Mem) (a n : Nat) : Nat := pack (fun i => mem (a + n - 1 - i)) 0 n

section Windows

variable {mem : Mem} {hs ne a c n : Nat}

theorem packDown_lt (mem : Mem) (a n : Nat) : packDown mem a n < 256 ^ n := pack_lt _ _ _

/-- The window one byte down. -/
theorem packDown_slide (mem : Mem) (a n : Nat) (ha : 0 < a) :
    (packDown mem a n * 256 + (mem (a - 1)).toNat) % 256 ^ n = packDown mem (a - 1) n := by
  have h := pack_slide (fun i => mem (a + n - 1 - i)) 0 n
  rw [Nat.zero_add, show a + n - 1 - n = a - 1 by omega] at h
  rw [packDown, h, packDown, pack_inj]
  intro k hk
  show mem (a + n - 1 - (0 + 1 + k)) = mem (a - 1 + n - 1 - (0 + k))
  rw [show a + n - 1 - (0 + 1 + k) = a - 1 + n - 1 - (0 + k) by omega]

/-- The window one byte longer at its beginning. -/
theorem packDown_succ (mem : Mem) (a n : Nat) (ha : 0 < a) :
    packDown mem (a - 1) (n + 1) = packDown mem a n * 256 + (mem (a - 1)).toNat := by
  have hsame : pack (fun i => mem (a - 1 + (n + 1) - 1 - i)) 0 n = packDown mem a n := by
    rw [packDown, pack_inj]
    intro k hk
    show mem (a - 1 + (n + 1) - 1 - (0 + k)) = mem (a + n - 1 - (0 + k))
    rw [show a - 1 + (n + 1) - 1 = a + n - 1 by omega]
  rw [packDown, pack, hsame, Nat.zero_add, show a - 1 + (n + 1) - 1 - n = a - 1 by omega]

theorem packDown_inj : packDown mem a n = packDown mem c n ↔
    ∀ k < n, mem (a + k) = mem (c + k) := by
  rw [packDown, packDown, pack_inj]
  constructor
  · intro h k hk
    have := h (n - 1 - k) (by omega)
    simp only [Nat.zero_add] at this
    rwa [show a + n - 1 - (n - 1 - k) = a + k by omega,
      show c + n - 1 - (n - 1 - k) = c + k by omega] at this
  · intro h k hk
    have := h (n - 1 - k) (by omega)
    simp only [Nat.zero_add]
    rwa [show a + n - 1 - k = a + (n - 1 - k) by omega,
      show c + n - 1 - k = c + (n - 1 - k) by omega]

/-- The needle stands where the windows are equal. -/
theorem standsAt_iff_packDown {hl i : Nat} (hi : i + n ≤ hl) :
    StandsAt id mem hs hl ne n i ↔ packDown mem (hs + i) n = packDown mem ne n := by
  rw [packDown_inj, StandsAt, and_iff_right hi]
  rfl

/-! ## Less than eight bytes -/

/-- What the first loop has loaded of one of the strings. -/
theorem lt8LoadBack_toNat (mem : Mem) : ∀ (n i : Nat) {hs ne : Nat} {hw nw : UInt64},
    n ≤ hs → n ≤ ne → hw.toNat = packDown mem hs i % 2 ^ 64 →
    nw.toNat = packDown mem ne i % 2 ^ 64 →
    (lt8LoadBack mem n hs ne hw nw).1.toNat = packDown mem (hs - n) (i + n) % 2 ^ 64 ∧
      (lt8LoadBack mem n hs ne hw nw).2.toNat = packDown mem (ne - n) (i + n) % 2 ^ 64
  | 0, _, _, _, _, _, _, _, hh, hn => ⟨hh, hn⟩
  | n + 1, i, hs, ne, hw, nw, hhs, hne, hh, hn => by
      have hstep : ∀ {w : UInt64} {p : Nat}, 0 < p → w.toNat = packDown mem p i % 2 ^ 64 →
          (shiftIn w (mem (p - 1))).toNat = packDown mem (p - 1) (i + 1) % 2 ^ 64 := by
        intro w p hp hw
        rw [shiftIn_toNat, hw, packDown_succ mem p i hp]
        simp [Nat.add_mod, Nat.mul_mod]
      have h := lt8LoadBack_toNat mem n (i + 1) (show n ≤ hs - 1 by omega)
        (show n ≤ ne - 1 by omega) (hstep (by omega) hh) (hstep (by omega) hn)
      rw [show hs - (n + 1) = hs - 1 - n by omega, show ne - (n + 1) = ne - 1 - n by omega,
        show i + (n + 1) = i + 1 + n by omega]
      exact h

theorem and_lt8Mask_packDown {w : UInt64} (h0 : 0 < n) (h8 : n ≤ 8)
    (hw : w.toNat = packDown mem a n % 2 ^ 64) : (w &&& lt8Mask n).toNat = packDown mem a n :=
  and_lt8Mask_pack h0 h8 hw

/-- The last of the first `m + 1` positions. -/
theorem slideBack_rightmost {nw : UInt64} {hl : Nat} (h0 : 0 < n) (h8 : n ≤ 8)
    (hnw : nw.toNat = packDown mem ne n) : ∀ (m : Nat) {hw : UInt64},
    m + n ≤ hl → hw.toNat = packDown mem (hs + m) n →
    (∀ i, m < i → ¬StandsAt id mem hs hl ne n i) →
    ∃ r, (match slideBack mem (lt8Mask n) nw m (hs + m) hw with
        | (h, hw) => if hw = nw then some h else none) = r.map (hs + ·) ∧
      Rightmost (StandsAt id mem hs hl ne n) r
  | m, hw, hml, hval, hmiss => by
      by_cases heq : hw = nw
      · refine ⟨some m, ?_, (standsAt_iff_packDown hml).mpr (by rw [← hval, heq, hnw]), hmiss⟩
        cases m with
        | zero =>
            rw [slideBack]
            exact if_pos heq
        | succ m =>
            rw [slideBack, if_neg (not_not.mpr heq)]
            exact if_pos heq
      · have hnot : ¬StandsAt id mem hs hl ne n m := fun h =>
          heq (UInt64.toNat_inj.mp (by rw [hval, hnw]; exact (standsAt_iff_packDown hml).mp h))
        cases m with
        | zero =>
            refine ⟨none, ?_, fun i => ?_⟩
            · rw [slideBack]
              exact if_neg heq
            · cases i with
              | zero => exact hnot
              | succ i => exact hmiss (i + 1) (Nat.succ_pos i)
        | succ m =>
            rw [slideBack, if_pos heq]
            have hstep : (shiftIn hw (mem (hs + m)) &&& lt8Mask n).toNat
                = packDown mem (hs + m) n := by
              rw [(rolling_shiftIn h0 h8).step, hval]
              exact packDown_slide mem (hs + (m + 1)) n (Nat.succ_pos _)
            refine slideBack_rightmost h0 h8 hnw m (by omega) hstep fun i hi => ?_
            rcases Nat.lt_or_eq_of_le hi with hlt | rfl
            · exact hmiss i hlt
            · exact hnot

theorem memrmemLt8_spec {hl : Nat} (h0 : 0 < n) (h8 : n ≤ 8) (hle : n ≤ hl) :
    ∃ r, memrmemLt8 mem hs hl ne n = r.map (hs + ·) ∧
      Rightmost (StandsAt id mem hs hl ne n) r := by
  obtain ⟨hhw, hnw⟩ := @lt8LoadBack_toNat mem n 0 (hs + hl) (ne + n) 0 0 (by omega) (by omega)
    rfl rfl
  rw [Nat.zero_add, show hs + hl - n = hs + (hl - n) by omega] at hhw
  rw [Nat.zero_add, Nat.add_sub_cancel] at hnw
  obtain ⟨r, hr, hright⟩ := slideBack_rightmost h0 h8 (and_lt8Mask_packDown h0 h8 hnw) (hl - n)
    (show hl - n + n ≤ hl by omega) (and_lt8Mask_packDown h0 h8 hhw)
    (fun i hi h => by have := h.1; omega)
  refine ⟨r, ?_, hright⟩
  rw [← hr, memrmemLt8, show hs + hl - n = hs + (hl - n) by omega]

/-! ## Eight bytes and more -/

/-- A byte let in above `k` bits. -/
theorem or_shiftLeft_toNat {lo : UInt64} {x : UInt8} {k : Nat} (hk : k ≤ 56)
    (hlo : lo.toNat < 2 ^ k) : (x.toUInt64 <<< UInt64.ofNat k ||| lo).toNat
      = x.toNat * 2 ^ k + lo.toNat := by
  have hx := x.toNat_lt
  have hpow : 2 ^ k ≤ 2 ^ 56 := Nat.pow_le_pow_right (by decide) hk
  have hmul : x.toNat * 2 ^ k < 2 ^ 64 :=
    calc x.toNat * 2 ^ k < 2 ^ 8 * 2 ^ k := Nat.mul_lt_mul_of_pos_right hx (Nat.two_pow_pos k)
      _ ≤ 2 ^ 8 * 2 ^ 56 := Nat.mul_le_mul_left _ hpow
  rw [UInt64.toNat_or, UInt64.toNat_shiftLeft, UInt8.toNat_toUInt64, UInt64.toNat_ofNat',
    show k % 2 ^ 64 % 64 = k by omega, Nat.shiftLeft_eq, Nat.mod_eq_of_lt hmul, Nat.mul_comm,
    ← Nat.two_pow_add_eq_or_of_lt hlo]

/-- The next byte up. -/
theorem packDown_top (mem : Mem) (p j : Nat) :
    packDown mem p (j + 1) = (mem (p + j)).toNat * 256 ^ j + packDown mem p j := by
  rw [packDown, pack_head, Nat.zero_add, show p + (j + 1) - 1 - 0 = p + j by omega, packDown]
  congr 1
  rw [pack_inj]
  intro k hk
  show mem (p + (j + 1) - 1 - (1 + k)) = mem (p + j - 1 - (0 + k))
  rw [show p + (j + 1) - 1 - (1 + k) = p + j - 1 - (0 + k) by omega]

theorem packDown_or {p j : Nat} {lo : UInt64} (hj : j ≤ 7) (hlo : lo.toNat = packDown mem p j) :
    ((mem (p + j)).toUInt64 <<< UInt64.ofNat (8 * j) ||| lo).toNat = packDown mem p (j + 1) := by
  have hpow : 256 ^ j = 2 ^ (8 * j) := (Nat.pow_mul 2 8 j).symm
  have hlt := packDown_lt mem p j
  rw [or_shiftLeft_toNat (by omega) (by rw [hlo, ← hpow]; exact hlt), packDown_top, hlo, hpow]

theorem leU64_toNat (mem : Mem) (p : Nat) : (leU64 mem p).toNat = packDown mem p 8 := by
  have h1 : (mem p).toUInt64.toNat = packDown mem p 1 := by
    rw [packDown_top, UInt8.toNat_toUInt64, Nat.pow_zero, Nat.mul_one]
    rfl
  have h2 := packDown_or (show 1 ≤ 7 by decide) h1
  have h3 := packDown_or (show 2 ≤ 7 by decide) h2
  have h4 := packDown_or (show 3 ≤ 7 by decide) h3
  have h5 := packDown_or (show 4 ≤ 7 by decide) h4
  have h6 := packDown_or (show 5 ≤ 7 by decide) h5
  have h7 := packDown_or (show 6 ≤ 7 by decide) h6
  have h8 := packDown_or (show 7 ≤ 7 by decide) h7
  rw [← h8, leU64]
  simp only [UInt64.or_assoc]
  rfl

/-- What is compared at a position: the first eight bytes as words, and the
rest. -/
theorem standsAt_iff_more {hl i : Nat} {hw nw : UInt64} (h8 : 8 ≤ n) (hi : i + n ≤ hl)
    (hhw : hw.toNat = packDown mem (hs + i) 8) (hnw : nw.toNat = packDown mem ne 8) :
    (hw = nw ∧ memcmpEq mem (hs + i + 8) (ne + 8) (n - 8) = true) ↔
      StandsAt id mem hs hl ne n i := by
  rw [← UInt64.toNat_inj, hhw, hnw, packDown_inj, memcmpEq_iff, StandsAt, and_iff_right hi]
  constructor
  · rintro ⟨hlow, hhigh⟩ k hk
    by_cases hk8 : k < 8
    · exact hlow k hk8
    · have := hhigh (k - 8) (by omega)
      rwa [show hs + i + 8 + (k - 8) = hs + i + k by omega,
        show ne + 8 + (k - 8) = ne + k by omega] at this
  · exact fun h => ⟨fun k hk => h k (by omega), fun k hk => by
      have := h (8 + k) (by omega)
      simpa only [id, Nat.add_assoc] using this⟩

theorem moreLoop_rightmost {nw : UInt64} {hl : Nat} (h8 : 8 ≤ n)
    (hnw : nw.toNat = packDown mem ne 8) : ∀ (m : Nat) {hw : UInt64},
    m + n ≤ hl → hw.toNat = packDown mem (hs + m) 8 →
    (∀ i, m < i → ¬StandsAt id mem hs hl ne n i) →
    ∃ r, moreLoop mem nw ne n m (hs + m) hw = r.map (hs + ·) ∧
      Rightmost (StandsAt id mem hs hl ne n) r
  | m, hw, hml, hval, hmiss => by
      have hiff := standsAt_iff_more h8 hml hval hnw
      by_cases hit : StandsAt id mem hs hl ne n m
      · refine ⟨some m, ?_, hit, hmiss⟩
        cases m <;> rw [moreLoop, if_pos (hiff.mpr hit)] <;> rfl
      · cases m with
        | zero =>
            refine ⟨none, ?_, fun i => ?_⟩
            · rw [moreLoop, if_neg fun h => hit (hiff.mp h)]
              rfl
            · cases i with
              | zero => exact hit
              | succ i => exact hmiss (i + 1) (Nat.succ_pos i)
        | succ m =>
            have hstep : (shiftIn hw (mem (hs + m))).toNat = packDown mem (hs + m) 8 := by
              rw [shiftIn_toNat, hval]
              exact packDown_slide mem (hs + (m + 1)) 8 (Nat.succ_pos _)
            rw [moreLoop, if_neg fun h => hit (hiff.mp h)]
            refine moreLoop_rightmost h8 hnw m (by omega) hstep fun i hi => ?_
            rcases Nat.lt_or_eq_of_le hi with hlt | rfl
            · exact hmiss i hlt
            · exact hit

/-- What is found in the part of the haystack that the length left covers. -/
theorem memrmem8more_spec {hl : Nat} (h8 : 8 ≤ n) (hn : n ≤ hl % 2 ^ 32) :
    ∃ r, memrmem8more mem hs hl ne n = .ok (r.map (hs + ·)) ∧
      Rightmost (StandsAt id mem hs (hl % 2 ^ 32) ne n) r := by
  obtain ⟨r, hr, hright⟩ := moreLoop_rightmost h8 (leU64_toNat mem ne) (hl % 2 ^ 32 - n)
    (show hl % 2 ^ 32 - n + n ≤ hl % 2 ^ 32 by omega) (leU64_toNat mem (hs + (hl % 2 ^ 32 - n)))
    (fun i hi h => by have := h.1; omega)
  exact ⟨r, (if_neg (Nat.not_lt.mpr hn)).trans (congrArg Except.ok hr), hright⟩

end Windows

/-! ## The search -/

/-- Where the needle could begin, its first byte stands last at `k`. -/
def LastHead (HS NE : Bytes) (k : Nat) : Prop :=
  Rightmost (fun i => i + NE.length ≤ HS.length ∧ HS[i]? = NE[0]?) (some k)

/-- The length up to the end of a needle that begins there, as an `unsigned int`
holds it, still covers a needle, and all the needles there are. With less than eight
bytes it is not cut. -/
def MoreReaches (HS NE : Bytes) : Prop :=
  8 ≤ NE.length → ∀ k, LastHead HS NE k →
    NE.length ≤ (k + NE.length) % 2 ^ 32 ∧
      ∀ i, OccursAt NE HS i → i + NE.length ≤ (k + NE.length) % 2 ^ 32

section Search

variable {mem : Mem} {hs ne : Nat} {HS NE : Bytes}

theorem standsAt_iff_occursAt (hh : MemAt mem hs HS) (hn : MemAt mem ne NE) (i : Nat) :
    StandsAt id mem hs HS.length ne NE.length i ↔ OccursAt NE HS i := by
  have := @standsAt_iff id mem hs ne HS NE hh hn i
  rwa [List.map_id, List.map_id] at this

/-- In a shorter haystack there are the same needles, if they all fit. -/
theorem standsAt_shorter {hl hl' n i : Nat} (hle : hl' ≤ hl)
    (hfit : StandsAt id mem hs hl ne n i → i + n ≤ hl') :
    StandsAt id mem hs hl' ne n i ↔ StandsAt id mem hs hl ne n i :=
  ⟨fun h => ⟨by have := h.1; omega, h.2⟩, fun h => ⟨hfit h, h.2⟩⟩

/-- The byte search looks where the needle could begin. -/
theorem hitAt_iff (hh : MemAt mem hs HS) (hn : MemAt mem ne NE) (h0 : 0 < NE.length)
    (hle : NE.length ≤ HS.length) (i : Nat) :
    HitAt mem hs (mem ne) (HS.length - NE.length + 1) i ↔
      i + NE.length ≤ HS.length ∧ HS[i]? = NE[0]? := by
  have hhead := hn.getElem? h0
  rw [Nat.add_zero] at hhead
  constructor
  · rintro ⟨hi, hc⟩
    exact ⟨by omega, by rw [hh.getElem? (by omega), hhead, hc]⟩
  · rintro ⟨hi, hc⟩
    rw [hh.getElem? (by omega), hhead, Option.some.injEq] at hc
    exact ⟨by omega, hc⟩

theorem occursAt_head {i : Nat} (h0 : 0 < NE.length) (h : OccursAt NE HS i) :
    i + NE.length ≤ HS.length ∧ HS[i]? = NE[0]? :=
  ⟨h.1, h.2 0 h0⟩

/-- With eight bytes and more, after the length is cut. -/
theorem memrmem8more_reaches {hl : Nat} (hh : MemAt mem hs HS) (hn : MemAt mem ne NE)
    (h8 : 8 ≤ NE.length) (hle : hl ≤ HS.length) :
    (∃ r, memrmem8more mem hs hl ne NE.length = .ok (r.map (hs + ·)) ∧
      Rightmost (OccursAt NE HS) r) ↔
      NE.length ≤ hl % 2 ^ 32 ∧ ∀ i, OccursAt NE HS i → i + NE.length ≤ hl % 2 ^ 32 := by
  constructor
  · rintro ⟨r, hr, hright⟩
    have hcut : NE.length ≤ hl % 2 ^ 32 := by
      by_contra hlt
      rw [show memrmem8more mem hs hl ne NE.length = .error .bounds from
        if_pos (Nat.not_le.mp hlt)] at hr
      cases hr
    refine ⟨hcut, fun i hi => ?_⟩
    obtain ⟨r', hr', hright'⟩ := @memrmem8more_spec mem hs ne NE.length hl h8 hcut
    rw [hr', Except.ok.injEq] at hr
    have hsame : r' = r := Option.map_injective (fun a b h => by simpa using h) hr
    subst hsame
    cases r' with
    | none => exact absurd hi (hright i)
    | some j =>
        have hij : i ≤ j := by
          by_contra hlt
          exact hright.2 i (by omega) hi
        have := hright'.1.1
        omega
  · rintro ⟨hcut, hall⟩
    obtain ⟨r, hr, hright⟩ := @memrmem8more_spec mem hs ne NE.length hl h8 hcut
    refine ⟨r, hr, Rightmost.congr (fun i => ?_) hright⟩
    rw [← standsAt_iff_occursAt hh hn]
    refine standsAt_shorter ((Nat.mod_le _ _).trans hle) fun h => ?_
    exact hall i ((standsAt_iff_occursAt hh hn i).mp h)

/-- Behind the byte search, with `k` for its result. -/
theorem memrmem_some {cfg : Build} {k : Nat} (hh : MemAt mem hs HS) (hn : MemAt mem ne NE)
    (h0 : 0 < NE.length) (hk : LastHead HS NE k)
    (hrun : memrchr cfg mem hs (mem ne) (HS.length - NE.length + 1) = .ok (some (hs + k))) :
    (∃ r, memrmem cfg mem hs HS.length ne NE.length = .ok (r.map (hs + ·)) ∧
      Rightmost (OccursAt NE HS) r) ↔ MoreReaches HS NE := by
  have hkn : k + NE.length ≤ HS.length := hk.1.1
  have hlen : subSz (hs + k + NE.length) hs = k + NE.length := by
    rw [subSz_eq (by omega)]
    omega
  rw [memrmem, if_neg (by omega), if_neg (by omega), hrun]
  simp only [bind, Except.bind, hlen]
  by_cases h1 : NE.length = 1
  · rw [if_pos h1]
    refine iff_of_true ⟨some k, rfl, (standsAt_iff_occursAt hh hn k).mp ⟨hkn, fun i hi => ?_⟩, ?_⟩
      (fun h8 => by omega)
    · have hhead := hn.getElem? h0
      have hc := hk.1.2
      rw [hh.getElem? (by omega), hhead, Option.some.injEq] at hc
      rw [show i = 0 by omega]
      exact hc
    · exact fun i hi h => hk.2 i hi (occursAt_head h0 h)
  · rw [if_neg h1]
    by_cases h8 : NE.length < 8
    · rw [if_pos h8]
      obtain ⟨r, hr, hright⟩ := @memrmemLt8_spec mem hs ne NE.length (k + NE.length) h0 (by omega)
        (by omega)
      refine iff_of_true ⟨r, by rw [hr], Rightmost.congr (fun i => ?_) hright⟩ fun h => by omega
      rw [← standsAt_iff_occursAt hh hn]
      refine standsAt_shorter hkn fun hi => ?_
      have hik : i ≤ k := by
        by_contra hlt
        exact hk.2 i (by omega) (occursAt_head h0 ((standsAt_iff_occursAt hh hn i).mp hi))
      omega
    · rw [if_neg h8, memrmem8more_reaches hh hn (Nat.not_lt.mp h8) hkn]
      constructor
      · rintro hreach - k' hk'
        obtain rfl : k = k' := Option.some.inj (hk.unique hk')
        exact hreach
      · exact fun hreach => hreach (Nat.not_lt.mp h8) k hk

/-- The last occurrence is found exactly if the length left reaches. -/
theorem memrmem_reaches (cfg : Build) (hpos : 0 < hs) (hh : MemAt mem hs HS)
    (hn : MemAt mem ne NE) :
    (∃ r, memrmem cfg mem hs HS.length ne NE.length = .ok (r.map (hs + ·)) ∧
      Rightmost (OccursAt NE HS) r) ↔ MoreReaches HS NE := by
  rcases Nat.eq_zero_or_pos NE.length with h0 | h0
  · have hnil : NE = [] := List.length_eq_zero_iff.mp h0
    rw [memrmem, if_pos h0]
    refine iff_of_true ⟨some HS.length, rfl, ?_, fun i hi h => ?_⟩ fun h8 => by omega
    · rw [hnil]
      exact ⟨Nat.le_refl _, fun k hk => absurd hk (Nat.not_lt_zero k)⟩
    · have := h.1
      omega
  rcases Nat.lt_or_ge HS.length NE.length with hlt | hle
  · rw [memrmem, if_neg (by omega), if_pos hlt]
    refine iff_of_true ⟨none, rfl, fun i h => ?_⟩ fun _ k hk => ?_
    · have := h.1
      omega
    · have := hk.1.1
      omega
  obtain ⟨r, hr, hright⟩ := @memrchr_rightmost mem hs (HS.length - NE.length + 1) (mem ne) cfg hpos
  replace hright := Rightmost.congr (hitAt_iff hh hn h0 hle) hright
  cases r with
  | none =>
      rw [memrmem, if_neg (by omega), if_neg (by omega), hr]
      refine iff_of_true ⟨none, rfl, fun i h => hright i (occursAt_head h0 h)⟩ fun _ k hk => ?_
      exact absurd hk.1 (hright k)
  | some k => exact memrmem_some hh hn h0 hright hr

end Search

end Jstr
