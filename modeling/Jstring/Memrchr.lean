import Jstring.Config
import Jstring.Lib.HasZero

/-!
# The last occurrence of a byte

`jstr_memrchr` of `include/string.h` and what it dispatches to: the C
library, the vectors of `include/internal/simd.h`, the word-at-a-time loop of
`include/internal/musl/stdstring.h`. All of them find the rightmost
occurrence (`memrchr_rightmost`).

Cursors that move down are kept where the part still to be searched ends,
so that they never go below the start of the address space.
-/

namespace Jstr

open Words Bits

/-! ## The loops -/

/-- `memrchr(s, c, n)` of the C library; also
`for (; n--; p--) if (*p == c) return p;` with `p` at `s + n - 1`. -/
def libcMemrchr (mem : Mem) (s : Nat) (c : UInt8) : Nat → Option Nat
  | 0 => none
  | n + 1 => if mem (s + n) = c then some (s + n) else libcMemrchr mem s c n

/-- The byte loop down to a word boundary: on the left what is returned,
on the right how many bytes are left. -/
def memrchrAlign (mem : Mem) (s : Nat) (c : UInt8) : Nat → Option Nat ⊕ Nat
  | 0 => if s % 8 ≠ 0 then .inl none else .inr 0
  | n + 1 =>
    if (s + (n + 1)) % 8 ≠ 0 then
      if mem (s + n) = c then .inl (some (s + n)) else memrchrAlign mem s c n
    else .inr (n + 1)

/-- The word loop: how many bytes are left below the words without
`k`'s byte. -/
def memrchrWords (mem : Mem) (s : Nat) (k : UInt64) : Nat → Nat
  | n + 8 =>
    if !hasZero ((leWord fun i => mem (s + n + i)) ^^^ k) then memrchrWords mem s k n else n + 8
  | n => n

/-- `jstr_internal_memrchr_musl`. -/
def memrchrMusl (cfg : Build) (mem : Mem) (s : Nat) (c : UInt8) (n : Nat) : Option Nat :=
  if cfg.haveAttrMayAlias then
    match memrchrAlign mem s c n with
    | .inl r => r
    | .inr n =>
      if n ≥ 8 ∧ mem (s + n - 1) ≠ c then
        libcMemrchr mem s c (memrchrWords mem s (ones * c.toUInt64) n)
      else libcMemrchr mem s c n
  else libcMemrchr mem s c n

/-- The loop of `jstr_internal_simd_memrchr`, the next block ending at
`e`. -/
def memrchrBlocks (V : Nat) (mem : Mem) (s : Nat) (c : UInt8) : Nat → Nat → Run (Option Nat)
  | 0, _ => .error .diverge
  | fuel + 1, e =>
    if e ≥ s then
      let p := e - V
      let m := cmpeq8Mask V (loadu mem p) (setone8 c)
      if m ≠ 0#V then
        let i := V - 1 - lz m
        .ok (if p + i ≥ s then some (p + i) else none)
      else memrchrBlocks V mem s c fuel p
    else .ok none

/-- `jstr_internal_simd_memrchr`. The last block may reach past the range, by
`off` bytes, whose lanes are shifted out. -/
def simdMemrchr (V : Nat) (mem : Mem) (s : Nat) (c : UInt8) (n : Nat) : Run (Option Nat) :=
  if n = 0 then .ok none
  else
    let e := alignUp (s + n) V
    let off := e - (s + n)
    let p := e - V
    let m := cmpeq8Mask V (loadu mem p) (setone8 c) <<< off
    if m ≠ 0#V then
      let i := V - 1 - lz m
      .ok (if p + i - off ≥ s then some (p + i - off) else none)
    else memrchrBlocks V mem s c (n + 1) p

/-- `jstr_memrchr`. -/
def memrchr (cfg : Build) (mem : Mem) (s : Nat) (c : UInt8) (n : Nat) : Run (Option Nat) :=
  if cfg.haveMemrchr && !cfg.test then .ok (libcMemrchr mem s c n)
  else
    match cfg.memrchrSimd with
    | some v => simdMemrchr v.bytes mem s c n
    | none => .ok (memrchrMusl cfg mem s c n)

/-! ## What they find -/

variable {mem : Mem} {s n : Nat} {c : UInt8}

/-- `c` is the byte at offset `i` of the range. -/
def HitAt (mem : Mem) (s : Nat) (c : UInt8) (n i : Nat) : Prop := i < n ∧ mem (s + i) = c

theorem libcMemrchr_rightmost (mem : Mem) (s : Nat) (c : UInt8) : ∀ n : Nat,
    ∃ r, libcMemrchr mem s c n = r.map (s + ·) ∧ Rightmost (HitAt mem s c n) r
  | 0 => ⟨none, rfl, fun i h => absurd h.1 (Nat.not_lt_zero i)⟩
  | n + 1 => by
      rw [libcMemrchr]
      by_cases hc : mem (s + n) = c
      · exact ⟨some n, by rw [if_pos hc]; rfl, ⟨Nat.lt_succ_self n, hc⟩,
          fun j hj h => absurd h.1 (by omega)⟩
      · obtain ⟨r, hr, hright⟩ := libcMemrchr_rightmost mem s c n
        have hiff : ∀ i, HitAt mem s c (n + 1) i ↔ HitAt mem s c n i := by
          refine fun i => ⟨fun h => ⟨?_, h.2⟩, fun h => ⟨by have := h.1; omega, h.2⟩⟩
          rcases Nat.lt_or_eq_of_le (Nat.le_of_lt_succ h.1) with hlt | rfl
          · exact hlt
          · exact absurd h.2 hc
        exact ⟨r, by rw [if_neg hc, hr], by
          rwa [show HitAt mem s c (n + 1) = HitAt mem s c n from funext fun i => propext (hiff i)]⟩

/-- The bytes from offset `m` on are misses. -/
def MissFrom (mem : Mem) (s : Nat) (c : UInt8) (n m : Nat) : Prop :=
  ∀ i, m ≤ i → i < n → mem (s + i) ≠ c

/-- What is right of the misses can be left out. -/
theorem libcMemrchr_eq_of_miss {m : Nat} (hmiss : MissFrom mem s c n m) (hmn : m ≤ n) :
    libcMemrchr mem s c m = libcMemrchr mem s c n := by
  induction n with
  | zero => rw [Nat.le_zero.mp hmn]
  | succ n ih =>
      rcases Nat.lt_or_eq_of_le hmn with hlt | rfl
      · rw [libcMemrchr, if_neg (hmiss n (by omega) (Nat.lt_succ_self n))]
        exact ih (fun i hmi hin => hmiss i hmi (by omega)) (by omega)
      · rfl

theorem memrchrAlign_spec : ∀ n : Nat,
    match memrchrAlign mem s c n with
    | .inl r => r = libcMemrchr mem s c n
    | .inr m => m ≤ n ∧ MissFrom mem s c n m
  | 0 => by
      rw [memrchrAlign]
      split
      · rename_i r h
        split at h
        · cases h
          rfl
        · cases h
      · rename_i m h
        split at h
        · cases h
        · cases h
          exact ⟨Nat.le_refl 0, fun i _ hi => absurd hi (Nat.not_lt_zero i)⟩
  | n + 1 => by
      rw [memrchrAlign]
      by_cases h8 : (s + (n + 1)) % 8 ≠ 0
      · rw [if_pos h8]
        by_cases hc : mem (s + n) = c
        · rw [if_pos hc]
          simp only [libcMemrchr, if_pos hc]
        · rw [if_neg hc]
          have ih := memrchrAlign_spec n
          rcases hr : memrchrAlign mem s c n with r | m
          · rw [hr] at ih
            simp only [libcMemrchr, if_neg hc]
            exact ih
          · rw [hr] at ih
            refine ⟨Nat.le_succ_of_le ih.1, fun i hmi hin => ?_⟩
            rcases Nat.lt_or_eq_of_le (Nat.le_of_lt_succ hin) with hlt | rfl
            · exact ih.2 i hmi hlt
            · exact hc
      · rw [if_neg h8]
        exact ⟨Nat.le_refl _, fun i hmi hin => by omega⟩

theorem memrchrWords_spec (mem : Mem) (s : Nat) (c : UInt8) (n : Nat) :
    memrchrWords mem s (ones * c.toUInt64) n ≤ n ∧
      MissFrom mem s c n (memrchrWords mem s (ones * c.toUInt64) n) := by
  induction n using Nat.strong_induction_on with
  | _ n ih =>
      rcases Nat.lt_or_ge n 8 with hlt | hge
      · have hstop : memrchrWords mem s (ones * c.toUInt64) n = n := by
          rw [memrchrWords]
          rintro m rfl
          omega
        rw [hstop]
        exact ⟨Nat.le_refl n, fun i hmi hin => by omega⟩
      · obtain ⟨m, rfl⟩ : ∃ m, n = m + 8 := ⟨n - 8, by omega⟩
        rw [memrchrWords]
        split
        · rename_i hz
          rw [leWord_xor, Bool.not_eq_true'] at hz
          obtain ⟨hle, hmiss⟩ := ih m (by omega)
          refine ⟨by omega, fun i hmi hin => ?_⟩
          by_cases him : i < m
          · exact hmiss i hmi him
          · intro hic
            have hlane : (fun j => mem (s + m + j) ^^^ c) (i - m) = 0 := by
              show mem (s + m + (i - m)) ^^^ c = 0
              rw [show s + m + (i - m) = s + i by omega]
              exact UInt8.xor_eq_zero_iff.mpr hic
            rw [hasZero_of_byte (show i - m < 8 by omega) hlane] at hz
            cases hz
        · exact ⟨Nat.le_refl _, fun i hmi hin => by omega⟩

theorem memrchrMusl_eq (cfg : Build) : memrchrMusl cfg mem s c n = libcMemrchr mem s c n := by
  rw [memrchrMusl]
  split
  · have halign := @memrchrAlign_spec mem s c n
    rcases hr : memrchrAlign mem s c n with r | m
    · rw [hr] at halign
      exact halign
    · rw [hr] at halign
      simp only
      split
      · obtain ⟨hle, hmiss⟩ := memrchrWords_spec mem s c m
        rw [libcMemrchr_eq_of_miss hmiss hle, libcMemrchr_eq_of_miss halign.2 halign.1]
      · exact libcMemrchr_eq_of_miss halign.2 halign.1
  · rfl

/-! ## Vectors -/

section Simd

variable {V : Nat}

/-- The highest hit at or below the end of the range, against its start. -/
theorem rightmost_hit {a : Nat} (ha : mem a = c) (hlt : a < s + n)
    (hmiss : ∀ x, a < x → x < s + n → mem x ≠ c) :
    ∃ r, (if a ≥ s then some a else none) = r.map (s + ·) ∧ Rightmost (HitAt mem s c n) r := by
  by_cases hs : a ≥ s
  · refine ⟨some (a - s), ?_, ⟨by omega, ?_⟩, fun j hj h => hmiss (s + j) (by omega) ?_ h.2⟩
    · rw [if_pos hs, Option.map_some, Nat.add_sub_cancel' hs]
    · rw [Nat.add_sub_cancel' hs]
      exact ha
    · exact Nat.add_lt_add_left h.1 s
  · refine ⟨none, by rw [if_neg hs]; rfl, fun i h => hmiss (s + i) (by omega) ?_ h.2⟩
    exact Nat.add_lt_add_left h.1 s

theorem alignUp_spec (hV : 0 < V) (q : Nat) :
    V ∣ alignUp q V ∧ q ≤ alignUp q V ∧ alignUp q V < q + V := by
  have hlt := Nat.mod_lt (q + V - 1) hV
  have hle := Nat.mod_le (q + V - 1) V
  rw [alignUp, alignDown]
  exact ⟨Nat.dvd_sub_mod _, by omega, by omega⟩

/-- Below `e` block by block. A block that reaches below the range is the
last one. -/
theorem memrchrBlocks_spec (hV : 0 < V) (hs : 0 < s) : ∀ (fuel e : Nat), V ∣ e → e ≤ s + n →
    e < s + fuel → (∀ x, e ≤ x → x < s + n → mem x ≠ c) →
    ∃ r, memrchrBlocks V mem s c (fuel + 1) e = .ok (r.map (s + ·)) ∧
      Rightmost (HitAt mem s c n) r := by
  have hnone : ∀ fuel e, e < s → (∀ x, e ≤ x → x < s + n → mem x ≠ c) →
      ∃ r, memrchrBlocks V mem s c (fuel + 1) e = .ok (r.map (s + ·)) ∧
        Rightmost (HitAt mem s c n) r := by
    intro fuel e hes hmiss
    rw [memrchrBlocks, if_neg (by omega)]
    exact ⟨none, rfl, fun i h => hmiss (s + i) (by omega) (Nat.add_lt_add_left h.1 s) h.2⟩
  intro fuel
  induction fuel with
  | zero => exact fun e _ _ hf hmiss => hnone 0 e (by omega) hmiss
  | succ fuel ih =>
      intro e hdvd hen hf hmiss
      by_cases hes : e ≥ s
      · have hVe : V ≤ e := Nat.le_of_dvd (by omega) hdvd
        have hmask : ∀ i, (cmpeq8Mask V (loadu mem (e - V)) (setone8 c)).getLsbD i = true ↔
            i < V ∧ mem (e - V + i) = c := fun i => by
          rw [getLsbD_cmpeq8Mask, Bool.and_eq_true, decide_eq_true_eq, beq_iff_eq, loadu, setone8]
        rw [memrchrBlocks, if_pos hes]
        by_cases h0 : cmpeq8Mask V (loadu mem (e - V)) (setone8 c) = 0#V
        · simp only [h0, ne_eq, not_true_eq_false, if_false]
          refine ih (e - V) (Nat.dvd_sub hdvd (Nat.dvd_refl V)) (by omega) (by omega) ?_
          intro x hxe hx hxc
          by_cases hxe' : e ≤ x
          · exact hmiss x hxe' hx hxc
          · have hbit := (hmask (x - (e - V))).mpr
              ⟨by omega, by rwa [show e - V + (x - (e - V)) = x by omega]⟩
            rw [h0] at hbit
            simp at hbit
        · obtain ⟨hlane, hhit⟩ := (hmask _).mp (getLsbD_lz h0)
          simp only [ne_eq, h0, not_false_eq_true, if_true]
          generalize hi : V - 1 - lz (cmpeq8Mask V (loadu mem (e - V)) (setone8 c)) = i at *
          obtain ⟨r, hr, hright⟩ := @rightmost_hit mem s n c (e - V + i) hhit (by omega) (by
            intro x hax hx hxc
            by_cases hxe : e ≤ x
            · exact hmiss x hxe hx hxc
            · have hbit := (hmask (x - (e - V))).mpr
                ⟨by omega, by rwa [show e - V + (x - (e - V)) = x by omega]⟩
              rw [getLsbD_of_lz_lt (by omega)] at hbit
              cases hbit)
          exact ⟨r, by rw [hr], hright⟩
      · exact hnone (fuel + 1) e (by omega) hmiss

/-- The lanes of the last block, those behind the range shifted out. -/
theorem getLsbD_lastMask {q e : Nat} (i : Nat) :
    (cmpeq8Mask V (loadu mem (e - V)) (setone8 c) <<< (e - q)).getLsbD i = true ↔
      e - q ≤ i ∧ i < V ∧ mem (e - V + i - (e - q)) = c := by
  rw [BitVec.getLsbD_shiftLeft, getLsbD_cmpeq8Mask, loadu, setone8]
  simp only [Bool.and_eq_true, decide_eq_true_eq, Bool.not_eq_true', decide_eq_false_iff_not,
    beq_iff_eq]
  constructor
  · rintro ⟨⟨hiV, hoff⟩, -, hc⟩
    exact ⟨by omega, hiV, by rwa [Nat.add_sub_assoc (by omega)]⟩
  · rintro ⟨hoff, hiV, hc⟩
    exact ⟨⟨hiV, by omega⟩, by omega, by rwa [← Nat.add_sub_assoc hoff]⟩

/-- The lane of an address of the last block. -/
theorem lastMask_of_hit {q e x : Nat} (hq : q ≤ e) (hVe : V ≤ e) (hx : e - V ≤ x) (hxq : x < q)
    (hxc : mem x = c) :
    (cmpeq8Mask V (loadu mem (e - V)) (setone8 c) <<< (e - q)).getLsbD (x + (e - q) - (e - V))
      = true :=
  (getLsbD_lastMask _).mpr ⟨by omega, by omega, by
    rwa [show e - V + (x + (e - q) - (e - V)) - (e - q) = x by omega]⟩

theorem lastMask_eq_zero {q e : Nat} (hq : q ≤ e) (hVe : V ≤ e) :
    cmpeq8Mask V (loadu mem (e - V)) (setone8 c) <<< (e - q) = 0#V ↔
      ∀ x, e - V ≤ x → x < q → mem x ≠ c := by
  constructor
  · intro h0 x hx hxq hxc
    have hbit := lastMask_of_hit hq hVe hx hxq hxc
    rw [h0] at hbit
    simp at hbit
  · intro hmiss
    refine BitVec.eq_of_getLsbD_eq fun i hi => ?_
    rw [BitVec.getLsbD_zero, ← Bool.not_eq_true, getLsbD_lastMask]
    rintro ⟨hoff, -, hc⟩
    exact hmiss _ (by omega) (by omega) hc

theorem simdMemrchr_spec (hV : 0 < V) (hs : 0 < s) :
    ∃ r, simdMemrchr V mem s c n = .ok (r.map (s + ·)) ∧ Rightmost (HitAt mem s c n) r := by
  rw [simdMemrchr]
  by_cases hn : n = 0
  · exact ⟨none, if_pos hn, fun i h => by have := h.1; omega⟩
  rw [if_neg hn]
  obtain ⟨hdvd, hle, hlt⟩ := alignUp_spec hV (s + n)
  have hVe : V ≤ alignUp (s + n) V := Nat.le_of_dvd (by omega) hdvd
  simp only
  generalize alignUp (s + n) V = e at *
  have hmask := @getLsbD_lastMask mem c V (s + n) e
  have hzero := @lastMask_eq_zero mem c V (s + n) e hle hVe
  have hbit := @lastMask_of_hit mem c V (s + n) e
  generalize cmpeq8Mask V (loadu mem (e - V)) (setone8 c) <<< (e - (s + n)) = m at *
  by_cases h0 : m = 0#V
  · simp only [h0, ne_eq, not_true_eq_false, if_false]
    exact memrchrBlocks_spec hV hs n (e - V) (Nat.dvd_sub hdvd (Nat.dvd_refl V)) (by omega)
      (by omega) (hzero.mp h0)
  · obtain ⟨hoff, hlane, hhit⟩ := (hmask _).mp (getLsbD_lz h0)
    simp only [ne_eq, h0, not_false_eq_true, if_true]
    obtain ⟨r, hr, hright⟩ := @rightmost_hit mem s n c _ hhit (by omega) (by
      intro x hax hx hxc
      have := hbit hle hVe (show e - V ≤ x by omega) hx hxc
      rw [getLsbD_of_lz_lt (by omega)] at this
      cases this)
    exact ⟨r, by rw [hr], hright⟩

end Simd

/-- Whatever the build picks, the last occurrence is found. No object is at
the null pointer. -/
theorem memrchr_rightmost (cfg : Build) (hs : 0 < s) :
    ∃ r, memrchr cfg mem s c n = .ok (r.map (s + ·)) ∧ Rightmost (HitAt mem s c n) r := by
  obtain ⟨r, hr, hright⟩ := libcMemrchr_rightmost mem s c n
  rw [memrchr]
  split
  · exact ⟨r, by rw [hr], hright⟩
  · cases cfg.memrchrSimd with
    | some v => exact simdMemrchr_spec v.bytes_pos hs
    | none => exact ⟨r, by simp only [memrchrMusl_eq, hr], hright⟩

end Jstr
