import Jstring.Lib.Packed
import Jstring.Libc

/-!
# Packed-window searches for short needles

`include/internal/musl/strstr-lt8.h`: the needle and a window of the
haystack are kept as one machine word each, the window slides one byte at
a time. `canon` is `JSTR_INTERNAL_STRSTR234_CANON`. The template gives

- `_lt8` on a `uint64_t` cut by a mask, for needles of one to eight
  bytes, delimited by a length (`memmemLt8`) or by the terminator
  (`strstrLt8`);
- `2` on a `uint16_t`, for needles of two bytes (`memmem2`, `strstr2`).

All four keep one invariant, `Rolling`: the word is the `Words.pack` of
the bytes under the window, and one step of the word is one step of the
window. Two words are then equal exactly when the needle stands there.
-/

namespace Jstr

open Words

/-! ## Machine words as windows -/

/-- `hw << 8 | c` in `uint64_t`. -/
def shiftIn (hw : UInt64) (c : UInt8) : UInt64 := hw <<< 8 ||| c.toUInt64

/-- `hw << 8 | c` in `uint16_t`. -/
def shiftIn16 (hw : UInt16) (c : UInt8) : UInt16 := hw <<< 8 ||| c.toUInt16

/-- `(uint64_t)-1 >> ((sizeof(uint64_t) - ne_len) << 3)`. -/
def lt8Mask (neLen : Nat) : UInt64 := (-1 : UInt64) >>> ((8 - UInt64.ofNat neLen) <<< 3)

theorem shiftIn_toNat (hw : UInt64) (c : UInt8) :
    (shiftIn hw c).toNat = (hw.toNat * 256 + c.toNat) % 2 ^ 64 := by
  have hc := c.toNat_lt
  have h1 : hw.toNat * 256 % 2 ^ 64 = 2 ^ 8 * (hw.toNat % 2 ^ 56) := by omega
  rw [shiftIn, UInt64.toNat_or, UInt64.toNat_shiftLeft]
  simp only [UInt64.reduceToNat, Nat.reduceMod, UInt8.toNat_toUInt64, Nat.shiftLeft_eq,
    Nat.reducePow] at *
  rw [h1, ← Nat.two_pow_add_eq_or_of_lt (show c.toNat < 2 ^ 8 from hc)]
  omega

theorem shiftIn16_toNat (hw : UInt16) (c : UInt8) :
    (shiftIn16 hw c).toNat = (hw.toNat * 256 + c.toNat) % 2 ^ 16 := by
  have hc := c.toNat_lt
  have h1 : hw.toNat * 256 % 2 ^ 16 = 2 ^ 8 * (hw.toNat % 2 ^ 8) := by omega
  rw [shiftIn16, UInt16.toNat_or, UInt16.toNat_shiftLeft]
  simp only [UInt16.reduceToNat, Nat.reduceMod, UInt8.toNat_toUInt16, Nat.shiftLeft_eq,
    Nat.reducePow] at *
  rw [h1, ← Nat.two_pow_add_eq_or_of_lt (show c.toNat < 2 ^ 8 from hc)]
  omega

theorem and_lt8Mask (hw : UInt64) {n : Nat} (h0 : 0 < n) (h8 : n ≤ 8) :
    (hw &&& lt8Mask n).toNat = hw.toNat % 256 ^ n := by
  have hmask : (lt8Mask n).toNat = 2 ^ (8 * n) - 1 := by
    obtain rfl | rfl | rfl | rfl | rfl | rfl | rfl | rfl :
      n = 1 ∨ n = 2 ∨ n = 3 ∨ n = 4 ∨ n = 5 ∨ n = 6 ∨ n = 7 ∨ n = 8 := by omega
    all_goals rfl
  rw [UInt64.toNat_and, hmask, Nat.and_two_pow_sub_one_eq_mod, Nat.pow_mul]

/-- The mask cuts the loaded word to the window. -/
theorem and_lt8Mask_pack {w : UInt64} {x : Nat → UInt8} {n : Nat} (h0 : 0 < n) (h8 : n ≤ 8)
    (hw : w.toNat = pack x 0 n % 2 ^ 64) : (w &&& lt8Mask n).toNat = pack x 0 n := by
  rw [and_lt8Mask _ h0 h8, hw, Nat.mod_mod_of_dvd, Nat.mod_eq_of_lt (pack_lt _ _ _)]
  rw [show (2 : Nat) ^ 64 = 256 ^ 8 by norm_num]
  exact Nat.pow_dvd_pow 256 h8

/-- `step` moves a word of type `W` as a window of `n` bytes moves. -/
structure Rolling {W : Type} (n : Nat) (val : W → Nat) (step : W → UInt8 → W) : Prop where
  inj : ∀ {a b}, val a = val b → a = b
  step : ∀ w c, val (step w c) = (val w * 256 + c.toNat) % 256 ^ n

theorem rolling_shiftIn {n : Nat} (h0 : 0 < n) (h8 : n ≤ 8) :
    Rolling n UInt64.toNat fun hw c => shiftIn hw c &&& lt8Mask n where
  inj := UInt64.toNat_inj.mp
  step := by
    intro w c
    rw [and_lt8Mask _ h0 h8, shiftIn_toNat, Nat.mod_mod_of_dvd]
    rw [show (2 : Nat) ^ 64 = 256 ^ 8 by norm_num]
    exact Nat.pow_dvd_pow 256 h8

theorem rolling_shiftIn16 : Rolling 2 UInt16.toNat shiftIn16 where
  inj := UInt16.toNat_inj.mp
  step := shiftIn16_toNat

theorem Rolling.slide {W : Type} {n : Nat} {val : W → Nat} {step : W → UInt8 → W}
    (h : Rolling n val step) {y : Nat → UInt8} {i : Nat} {w : W} (hw : val w = pack y i n) :
    val (step w (y (i + n))) = pack y (i + 1) n := by
  rw [h.step, hw, pack_slide]

/-! ## Delimited by a length -/

/-- The first loop of `_lt8`: `n` bytes of both strings. -/
def lt8Load (canon : UInt8 → UInt8) (mem : Mem) :
    Nat → Nat → Nat → UInt64 → UInt64 → UInt64 × UInt64
  | 0, _, _, hw, nw => (hw, nw)
  | n + 1, hs, ne, hw, nw =>
    lt8Load canon mem n (hs + 1) (ne + 1) (shiftIn hw (canon (mem hs)))
      (shiftIn nw (canon (mem ne)))

/-- The second loop, with `n` more positions: slide while the window is not
the needle. Returns the end of the window and its word. -/
def slide {W : Type} [DecidableEq W] (step : W → UInt8 → W) (canon : UInt8 → UInt8)
    (mem : Mem) (nw : W) : Nat → Nat → W → Nat × W
  | 0, hs, hw => (hs, hw)
  | n + 1, hs, hw =>
    if hw ≠ nw then slide step canon mem nw n (hs + 1) (step hw (canon (mem hs)))
    else (hs, hw)

/-- `jstr_internal_memmem_lt8`, `jstr_internal_memcasemem_lt8`. -/
def memmemLt8 (canon : UInt8 → UInt8) (mem : Mem) (hs hsLen ne neLen : Nat) : Option Nat :=
  let mask := lt8Mask neLen
  let (hw, nw) := lt8Load canon mem neLen hs ne 0 0
  let nw := nw &&& mask
  let (h, hw) := slide (fun hw c => shiftIn hw c &&& mask) canon mem nw
    (subSz hsLen neLen) (hs + neLen) (hw &&& mask)
  if hw = nw then some (h - neLen) else none

/-- `jstr_internal_memmem2`, `jstr_internal_memcasemem2`. The test inside
the loop of the source repeats the loop condition. -/
def memmem2 (canon : UInt8 → UInt8) (mem : Mem) (hs hsLen ne : Nat) : Option Nat :=
  let nw := shiftIn16 (shiftIn16 0 (canon (mem ne))) (canon (mem (ne + 1)))
  let hw := shiftIn16 (shiftIn16 0 (canon (mem hs))) (canon (mem (hs + 1)))
  let (h, hw) := slide shiftIn16 canon mem nw (subSz hsLen 2) (hs + 2) hw
  if hw = nw then some (h - 2) else none

section Length

variable {canon : UInt8 → UInt8} {mem : Mem} {hs ne : Nat}

theorem lt8Load_toNat : ∀ (n i : Nat) (hw nw : UInt64),
    hw.toNat = pack (letters canon mem hs) 0 i % 2 ^ 64 →
    nw.toNat = pack (letters canon mem ne) 0 i % 2 ^ 64 →
    (lt8Load canon mem n (hs + i) (ne + i) hw nw).1.toNat
        = pack (letters canon mem hs) 0 (i + n) % 2 ^ 64 ∧
      (lt8Load canon mem n (hs + i) (ne + i) hw nw).2.toNat
        = pack (letters canon mem ne) 0 (i + n) % 2 ^ 64
  | 0, _, _, _, hh, hn => ⟨hh, hn⟩
  | n + 1, i, hw, nw, hh, hn => by
      have := lt8Load_toNat n (i + 1) (shiftIn hw (canon (mem (hs + i))))
        (shiftIn nw (canon (mem (ne + i))))
        (by rw [shiftIn_toNat, hh, pack, Nat.zero_add]; simp [Nat.add_mod, Nat.mul_mod])
        (by rw [shiftIn_toNat, hn, pack, Nat.zero_add]; simp [Nat.add_mod, Nat.mul_mod])
      rwa [Nat.add_right_comm] at this

theorem standsAt_iff_pack {hl n i : Nat} (hi : i + n ≤ hl) :
    StandsAt canon mem hs hl ne n i
      ↔ pack (letters canon mem hs) i n = pack (letters canon mem ne) 0 n := by
  rw [pack_inj]
  simp only [StandsAt, letters, Nat.zero_add, Nat.add_assoc, hi, true_and]

variable {W : Type} [DecidableEq W] {n : Nat} {val : W → Nat} {step : W → UInt8 → W}

/-- Where the second loop stops. -/
theorem slide_spec (hroll : Rolling n val step) {nw : W} : ∀ (m i : Nat) (hw : W),
    val hw = pack (letters canon mem hs) i n →
    ∃ j hw', slide step canon mem nw m (hs + (i + n)) hw = (hs + (j + n), hw') ∧
      i ≤ j ∧ j ≤ i + m ∧ val hw' = pack (letters canon mem hs) j n ∧
      (∀ k, i ≤ k → k < j → pack (letters canon mem hs) k n ≠ val nw) ∧
      (j < i + m → hw' = nw)
  | 0, i, hw, hval =>
      ⟨i, hw, rfl, Nat.le_refl i, Nat.le_refl i, hval, fun k h1 h2 => by omega,
        fun h => absurd h (Nat.lt_irrefl i)⟩
  | m + 1, i, hw, hval => by
      rw [slide]
      by_cases heq : hw = nw
      · rw [if_neg (not_not_intro heq)]
        exact ⟨i, hw, rfl, Nat.le_refl i, by omega, hval, fun k h1 h2 => by omega,
          fun _ => heq⟩
      · rw [if_pos heq]
        obtain ⟨j, hw', hrun, h1, h2, h3, h4, h5⟩ :=
          slide_spec hroll m (i + 1) (step hw (letters canon mem hs (i + n))) (hroll.slide hval)
        refine ⟨j, hw', ?_, by omega, by omega, h3, fun k hk hkj => ?_, fun h => h5 (by omega)⟩
        · rw [← hrun, Nat.add_right_comm i 1 n]; rfl
        · rcases Nat.lt_or_eq_of_le hk with hlt | rfl
          · exact h4 k hlt hkj
          · rw [← hval]; exact fun h => heq (hroll.inj h)

theorem slide_leftmost (hroll : Rolling n val step) {nw hw : W} {hl : Nat} (hn : n ≤ hl)
    (hval : val hw = pack (letters canon mem hs) 0 n)
    (hnw : val nw = pack (letters canon mem ne) 0 n) :
    ∃ r, (match slide step canon mem nw (subSz hl n) (hs + n) hw with
        | (h, hw) => if hw = nw then some (h - n) else none) = r.map (hs + ·) ∧
      Leftmost (StandsAt canon mem hs hl ne n) r := by
  obtain ⟨j, hw', hrun, -, hj, hval', hmiss, hstop⟩ :=
    @slide_spec canon mem hs W _ n val step hroll nw (hl - n) 0 hw hval
  rw [Nat.zero_add] at hrun hj hstop
  rw [subSz_eq hn, hrun]
  have hmiss' : ∀ k < j, ¬StandsAt canon mem hs hl ne n k := fun k hk h =>
    hmiss k (Nat.zero_le k) hk (by rw [hnw]; exact (standsAt_iff_pack h.1).mp h)
  by_cases heq : hw' = nw
  · refine ⟨some j, ?_, (standsAt_iff_pack (by omega)).mpr ?_, hmiss'⟩
    · simp only [if_pos heq, Option.map_some]
      rw [← Nat.add_assoc, Nat.add_sub_cancel]
    · rw [← hval', heq, hnw]
  · refine ⟨none, by simp only [if_neg heq, Option.map_none], fun k hk => ?_⟩
    have hjeq : j = hl - n := by
      by_contra hne
      exact heq (hstop (by omega))
    rcases Nat.lt_or_ge k j with hlt | hge
    · exact hmiss' k hlt hk
    · have hkj : k = j := by have := hk.1; omega
      subst hkj
      exact heq (hroll.inj (by rw [hval', hnw]; exact (standsAt_iff_pack hk.1).mp hk))

theorem memmemLt8_spec {HS NE : Bytes} (hh : MemAt mem hs HS) (hn : MemAt mem ne NE)
    (h0 : 0 < NE.length) (h8 : NE.length ≤ 8) (hle : NE.length ≤ HS.length) :
    memmemLt8 canon mem hs HS.length ne NE.length
      = (search (NE.map canon) (HS.map canon)).map (hs + ·) := by
  obtain ⟨hhw, hnw⟩ := @lt8Load_toNat canon mem hs ne NE.length 0 0 0 rfl rfl
  rw [Nat.zero_add] at hhw hnw
  obtain ⟨r, hr, hleft⟩ := slide_leftmost (rolling_shiftIn h0 h8) hle
    (and_lt8Mask_pack h0 h8 hhw) (and_lt8Mask_pack h0 h8 hnw)
  rw [search_of_leftmost hh hn hleft, ← hr]
  rfl

theorem pair_toNat (canon : UInt8 → UInt8) (mem : Mem) (p : Nat) :
    (shiftIn16 (shiftIn16 0 (canon (mem p))) (canon (mem (p + 1)))).toNat
      = pack (letters canon mem p) 0 2 := by
  have := (canon (mem p)).toNat_lt
  have := (canon (mem (p + 1))).toNat_lt
  simp only [shiftIn16_toNat, pack, letters, UInt16.reduceToNat, Nat.zero_add, Nat.add_zero]
  omega

theorem memmem2_spec {HS NE : Bytes} (hh : MemAt mem hs HS) (hn : MemAt mem ne NE)
    (h2 : NE.length = 2) (hle : 2 ≤ HS.length) :
    memmem2 canon mem hs HS.length ne
      = (search (NE.map canon) (HS.map canon)).map (hs + ·) := by
  obtain ⟨r, hr, hleft⟩ := slide_leftmost rolling_shiftIn16 hle
    (pair_toNat canon mem hs) (pair_toNat canon mem ne)
  rw [← h2] at hleft
  rw [search_of_leftmost hh hn hleft, ← hr]
  rfl

end Length

/-! ## Delimited by the terminator -/

/-- The first loop of `_lt8` on C strings: to the end of the needle, or
nothing when the haystack ends before. -/
def lt8LoadEol (canon : UInt8 → UInt8) (mem : Mem) :
    Nat → Nat → Nat → UInt64 → UInt64 → Run (Option (Nat × UInt64 × UInt64))
  | 0, _, _, _, _ => .error .diverge
  | fuel + 1, hs, ne, hw, nw =>
    if mem ne = 0 then .ok (some (hs, hw, nw))
    else if mem hs = 0 then .ok none
    else
      lt8LoadEol canon mem fuel (hs + 1) (ne + 1) (shiftIn hw (canon (mem hs)))
        (shiftIn nw (canon (mem ne)))

/-- The second loop of `_lt8` on C strings. -/
def slideEol (canon : UInt8 → UInt8) (mem : Mem) (mask nw : UInt64) :
    Nat → Nat → UInt64 → Run (Nat × UInt64)
  | 0, _, _ => .error .diverge
  | fuel + 1, hs, hw =>
    if hw ≠ nw ∧ mem hs ≠ 0 then
      slideEol canon mem mask nw fuel (hs + 1) (shiftIn hw (canon (mem hs)) &&& mask)
    else .ok (hs, hw)

/-- `jstr_internal_strcasestr_lt8`. -/
def strstrLt8 (canon : UInt8 → UInt8) (mem : Mem) (hs ne neLen : Nat) : Run (Option Nat) := do
  match ← lt8LoadEol canon mem (sizeMax + 1) hs ne 0 0 with
  | none => return none
  | some (h, hw, nw) =>
    let mask := lt8Mask neLen
    let nw := nw &&& mask
    let (h, hw) ← slideEol canon mem mask nw (sizeMax + 1) h (hw &&& mask)
    return if hw = nw then some (h - neLen) else none

/-- The loop of `jstr_internal_strcasestr2`: `h` points at the last byte of
the window. -/
def slide2Eol (canon : UInt8 → UInt8) (mem : Mem) (nw : UInt16) :
    Nat → Nat → UInt16 → Run Nat
  | 0, _, _ => .error .diverge
  | fuel + 1, h, hw =>
    if mem h ≠ 0 ∧ hw ≠ nw then
      slide2Eol canon mem nw fuel (h + 1) (shiftIn16 hw (canon (mem (h + 1))))
    else .ok h

/-- `jstr_internal_strcasestr2`. The first two bytes of the haystack are
loaded before any of them is looked at; the loop ends inside the address
space. -/
def strstr2 (canon : UInt8 → UInt8) (mem : Mem) (hs ne : Nat) : Run (Option Nat) := do
  let nw := shiftIn16 (shiftIn16 0 (canon (mem ne))) (canon (mem (ne + 1)))
  let hw := shiftIn16 (shiftIn16 0 (canon (mem hs))) (canon (mem (hs + 1)))
  let h ← slide2Eol canon mem nw (sizeMax - hs) (hs + 1) hw
  return if mem h ≠ 0 then some (h - 1) else none

section Eol

variable {canon : UInt8 → UInt8} {mem : Mem} {hs ne : Nat}

theorem lt8LoadEol_spec {HS NE : Bytes} (hh : CStr mem hs HS) (hn : CStr mem ne NE) :
    ∀ (fuel i : Nat) (hw nw : UInt64), i ≤ HS.length → i ≤ NE.length → NE.length < fuel + i →
      lt8LoadEol canon mem fuel (hs + i) (ne + i) hw nw
        = .ok (if NE.length ≤ HS.length then
            some (hs + NE.length, lt8Load canon mem (NE.length - i) (hs + i) (ne + i) hw nw)
          else none)
  | 0, i, _, _, _, hin, hf => by omega
  | fuel + 1, i, hw, nw, hih, hin, hf => by
      rw [lt8LoadEol]
      rcases Nat.lt_or_eq_of_le hin with hlt | rfl
      · rw [if_neg (hn.ne_zero hlt)]
        rcases Nat.lt_or_eq_of_le hih with hlt' | rfl
        · rw [if_neg (hh.ne_zero hlt'), Nat.add_assoc, Nat.add_assoc,
            lt8LoadEol_spec hh hn fuel (i + 1) _ _ hlt' hlt (by omega),
            show NE.length - i = NE.length - (i + 1) + 1 by omega]
          rfl
        · rw [if_pos hh.nul, if_neg (by omega)]
      · rw [if_pos hn.nul, if_pos hih, Nat.sub_self]
        rfl

/-- Where the loop on C strings stops: as the one with a length does. -/
theorem slideEol_eq {HS : Bytes} (hh : CStr mem hs HS) {mask nw : UInt64} :
    ∀ (fuel i : Nat) (hw : UInt64), i ≤ HS.length → HS.length < fuel + i →
      slideEol canon mem mask nw fuel (hs + i) hw
        = .ok (slide (fun hw c => shiftIn hw c &&& mask) canon mem nw
            (HS.length - i) (hs + i) hw)
  | 0, i, _, hi, hf => by omega
  | fuel + 1, i, hw, hi, hf => by
      rw [slideEol]
      rcases Nat.lt_or_eq_of_le hi with hlt | rfl
      · rw [show HS.length - i = HS.length - (i + 1) + 1 by omega, slide]
        by_cases heq : hw = nw
        · rw [if_neg (fun h => h.1 heq), if_neg (not_not_intro heq)]
        · rw [if_pos ⟨heq, hh.ne_zero hlt⟩, if_pos heq, Nat.add_assoc,
            slideEol_eq hh fuel (i + 1) _ hlt (by omega)]
      · rw [if_neg (fun h => h.2 hh.nul), Nat.sub_self]
        rfl

theorem strstrLt8_spec {HS NE : Bytes} (hh : CStr mem hs HS) (hn : CStr mem ne NE)
    (h0 : 0 < NE.length) (h8 : NE.length ≤ 8) :
    strstrLt8 canon mem hs ne NE.length
      = .ok ((search (NE.map canon) (HS.map canon)).map (hs + ·)) := by
  have hfits := hn.fits
  have hload := @lt8LoadEol_spec canon mem hs ne HS NE hh hn (sizeMax + 1) 0 0 0
    (Nat.zero_le _) (Nat.zero_le _) (by omega)
  rw [strstrLt8]
  simp only [Nat.add_zero, Nat.sub_zero] at hload
  rw [hload]
  by_cases hle : NE.length ≤ HS.length
  · rw [if_pos hle]
    have hfits' := hh.fits
    have hslide := @memmemLt8_spec canon mem hs ne HS NE hh.bytes hn.bytes h0 h8 hle
    rw [memmemLt8, subSz_eq hle] at hslide
    simp only [bind, Except.bind, pure, Except.pure]
    rw [slideEol_eq hh (sizeMax + 1) NE.length _ hle (by omega), ← hslide]
  · rw [if_neg hle, search_of_length_lt (by simpa using hle)]
    rfl

/-- The bytes from the second one on decide where the loop stops. -/
theorem slide2Eol_spec {hl : Nat} (hne : ∀ i, 0 < i → i < hl → mem (hs + i) ≠ 0)
    (h0 : mem (hs + hl) = 0) {nw : UInt16} :
    ∀ (fuel i : Nat) (hw : UInt16), i < hl → hl ≤ fuel + i →
      hw.toNat = pack (letters canon mem hs) i 2 →
      ∃ j, slide2Eol canon mem nw fuel (hs + (i + 1)) hw = .ok (hs + (j + 1)) ∧ i ≤ j ∧ j < hl ∧
        (∀ k, i ≤ k → k < j → pack (letters canon mem hs) k 2 ≠ nw.toNat) ∧
        (j + 1 < hl → pack (letters canon mem hs) j 2 = nw.toNat)
  | 0, i, _, hi, hf, _ => by omega
  | fuel + 1, i, hw, hi, hf, hval => by
      rw [slide2Eol]
      by_cases hstop : mem (hs + (i + 1)) ≠ 0 ∧ hw ≠ nw
      · rw [if_pos hstop]
        have hi1 : i + 1 < hl := by
          by_contra hge
          exact hstop.1 (by rw [show i + 1 = hl by omega]; exact h0)
        obtain ⟨j, hrun, h1, h2, h3, h4⟩ := slide2Eol_spec hne h0 fuel (i + 1)
          (shiftIn16 hw (letters canon mem hs (i + 2))) hi1 (by omega)
          (rolling_shiftIn16.slide hval)
        refine ⟨j, hrun, by omega, h2, fun k hk hkj => ?_, h4⟩
        rcases Nat.lt_or_eq_of_le hk with hlt | rfl
        · exact h3 k hlt hkj
        · rw [← hval]; exact fun h => hstop.2 (UInt16.toNat_inj.mp h)
      · rw [if_neg hstop]
        refine ⟨i, rfl, Nat.le_refl i, hi, fun k h1 h2 => by omega, fun hlt => ?_⟩
        have heq : hw = nw := by
          by_contra hne'
          exact hstop ⟨hne (i + 1) (Nat.succ_pos i) hlt, hne'⟩
        rw [← hval, heq]

/-- The loop stops behind bytes other than NUL. -/
theorem slide2Eol_stop {nw : UInt16} : ∀ {fuel h h' : Nat} {hw : UInt16},
    slide2Eol canon mem nw fuel h hw = .ok h' →
      h ≤ h' ∧ h' < h + fuel ∧ ∀ a, h ≤ a → a < h' → mem a ≠ 0
  | 0, _, _, _, hrun => by cases hrun
  | fuel + 1, h, h', hw, hrun => by
      rw [slide2Eol] at hrun
      by_cases hgo : mem h ≠ 0 ∧ hw ≠ nw
      · rw [if_pos hgo] at hrun
        obtain ⟨h1, h2, h3⟩ := slide2Eol_stop hrun
        refine ⟨by omega, by omega, fun a ha hah => ?_⟩
        rcases Nat.lt_or_eq_of_le ha with hlt | rfl
        · exact h3 a hlt hah
        · exact hgo.1
      · rw [if_neg hgo] at hrun
        cases hrun
        exact ⟨Nat.le_refl h, by omega, fun a h1 h2 => by omega⟩

/-- The haystack may be anything that ends at a NUL, its first byte
included. -/
theorem strstr2_spec {HS NE : Bytes} (hh : MemAt mem hs HS) (hpos : 0 < HS.length)
    (hne : ∀ i, 0 < i → i < HS.length → mem (hs + i) ≠ 0)
    (h0 : mem (hs + HS.length) = 0) (hfits : hs + HS.length ≤ sizeMax) (hn : MemAt mem ne NE)
    (h2 : NE.length = 2) :
    strstr2 canon mem hs ne
      = .ok ((search (NE.map canon) (HS.map canon)).map (hs + ·)) := by
  obtain ⟨j, hrun, -, hj, hmiss, hstop⟩ := @slide2Eol_spec canon mem hs HS.length hne h0
    (shiftIn16 (shiftIn16 0 (canon (mem ne))) (canon (mem (ne + 1))))
    (sizeMax - hs) 0 _ hpos (by omega) (pair_toNat canon mem hs)
  rw [pair_toNat] at hmiss hstop
  have hmiss' : ∀ k < j, ¬StandsAt canon mem hs HS.length ne 2 k := fun k hk h =>
    hmiss k (Nat.zero_le k) hk ((standsAt_iff_pack h.1).mp h)
  simp only [strstr2, Nat.zero_add] at hrun ⊢
  rw [hrun]
  simp only [bind, Except.bind, pure, Except.pure]
  by_cases hend : j + 1 < HS.length
  · have hleft : Leftmost (StandsAt canon mem hs HS.length ne NE.length) (some j) := by
      rw [h2]
      exact ⟨(standsAt_iff_pack (by omega)).mpr (hstop hend), hmiss'⟩
    rw [search_of_leftmost hh hn hleft, if_pos (hne (j + 1) (Nat.succ_pos j) hend)]
    simp only [Option.map_some]
    rfl
  · have hleft : Leftmost (StandsAt canon mem hs HS.length ne NE.length) none := by
      rw [h2]
      exact fun k hk => hmiss' k (by have := hk.1; omega) hk
    rw [search_of_leftmost hh hn hleft, show j + 1 = HS.length by omega, if_neg (not_not_intro h0)]
    rfl

end Eol

end Jstr
