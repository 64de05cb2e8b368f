import Jstring.Lib.Shift
import Jstring.TwoWay

/-!
# What the two-way compilation computes

`Compiled x t c`: the table `t` is right for the letters `x`, with the
cut at `c` - the byte set and the shift table know every letter's last
place, the cut is critical, and the global period and the memory fit.

Two loops carry it: `filled_fillLoop` (one letter entered at a time) and
`maxSuffixLoop_spec`, which runs the `Words.Scan` invariant to the end of
the needle. `compiled_compFactor` assembles the table from them.
-/

namespace Jstr

open Words

/-- The table is right for the first `n` letters of `x`. -/
structure Filled (x : Nat → UInt8) (t : TwowayTy) (n : Nat) : Prop where
  byteset : ∀ a, t.byteset a = true ↔ ∃ i < n, x i = a
  lt_shift : ∀ i < n, i < t.shift (x i)
  shift_le : ∀ i < n, t.shift (x i) ≤ n

theorem Filled.fill {x : Nat → UInt8} {t : TwowayTy} {n : Nat} (h : Filled x t n) :
    Filled x (t.fill (x n) n) (n + 1) where
  byteset := by
    intro a
    simp only [TwowayTy.fill, Bool.or_eq_true, decide_eq_true_eq, h.byteset]
    constructor
    · rintro (rfl | ⟨i, hi, rfl⟩)
      · exact ⟨n, Nat.lt_succ_self n, rfl⟩
      · exact ⟨i, by omega, rfl⟩
    · rintro ⟨i, hi, rfl⟩
      rcases Nat.lt_succ_iff_lt_or_eq.mp hi with hlt | rfl
      · exact Or.inr ⟨i, hlt, rfl⟩
      · exact Or.inl rfl
  lt_shift := by
    intro i hi
    simp only [TwowayTy.fill]
    split
    · exact hi
    · rename_i hne
      have hin : i ≠ n := fun h => hne (by rw [h])
      exact h.lt_shift i (by omega)
  shift_le := by
    intro i hi
    simp only [TwowayTy.fill]
    split
    · exact Nat.le_refl _
    · rename_i hne
      have hin : i ≠ n := fun h => hne (by rw [h])
      exact Nat.le_succ_of_le (h.shift_le i (by omega))

theorem filled_fillLoop {canon : UInt8 → UInt8} {mem : Mem} {ne : Nat} :
    ∀ (n i : Nat) (t : TwowayTy), Filled (letters canon mem ne) t i →
      Filled (letters canon mem ne) (fillLoop canon mem ne n i t) (i + n)
  | 0, _, _, h => h
  | n + 1, i, t, h => by
      have := filled_fillLoop n (i + 1) (t.fill (canon (mem (ne + i))) i) h.fill
      rwa [Nat.add_right_comm] at this

/-! ## The maximal suffix loop -/

section MaxSuffix

variable {lower : UInt8 → UInt8 → Bool} {x : Nat → UInt8} {len : Nat}

/-- What the loop leaves behind: the maximal suffix and its period. -/
structure Suffix (lower : UInt8 → UInt8 → Bool) (x : Nat → UInt8) (len c p : Nat) :
    Prop where
  max : MaxSuf (fun a b => lower a b = true) x len c
  pos : 0 < p
  le : p ≤ len - c
  per : Period (fun i => x (c + i)) (len - c) p
  dom : Dominant (fun a b => lower a b = true) (fun i => x (c + i)) p

variable (htrans : ∀ a b c, lower a b = true → lower b c = true → lower a c = true)
  (htotal : ∀ a b, lower a b = false → a ≠ b → lower b a = true)
include htrans htotal

theorem maxSuffixLoop_scan : ∀ (fuel : Nat) {c j k p : Nat},
    Scan (fun a b => lower a b = true) x len c j k p → 2 * len ≤ fuel + c + j + k →
    ∃ c' p' : Nat, maxSuffixLoop lower x len fuel ((c : Int) - 1) j k p
        = .ok ((c' : Int) - 1, p') ∧ Suffix lower x len c' p' := by
  intro fuel
  induction fuel with
  | zero =>
      intro c j k p h hfuel
      have hle := h.le
      have hcj := h.cj
      have hk := h.kpos
      have hp := h.p_le
      refine ⟨c, p, ?_, h.done (by omega), by have := h.kp; omega, by omega, ?_, h.dom⟩
      · rw [maxSuffixLoop, if_neg (by omega)]
      · have := h.per
        rwa [show j + k - c = len - c by omega] at this
  | succ fuel ih =>
      intro c j k p h hfuel
      have hle := h.le
      have hcj := h.cj
      have hk := h.kpos
      have hkp := h.kp
      have hp := h.p_le
      rw [maxSuffixLoop]
      by_cases hl : j + k < len
      · rw [if_pos hl]
        have hidx : ((c : Int) - 1 + k).toNat = c + (k - 1) := by omega
        simp only [hidx]
        cases hlow : lower (x (j + k)) (x (c + (k - 1))) with
        | true =>
            rw [if_pos rfl, show ((j : Int) + k - (c - 1)).toNat = j + k + 1 - c by omega]
            exact ih (h.lower htrans hl hlow) (by omega)
        | false =>
            rw [if_neg Bool.false_ne_true]
            by_cases heq : x (c + (k - 1)) = x (j + k)
            · rw [if_pos heq]
              by_cases hkp' : k = p
              · rw [if_pos hkp']
                exact ih (h.equalFull hl heq hkp') (by omega)
              · rw [if_neg hkp']
                exact ih (h.equalShort hl heq hkp') (by omega)
            · rw [if_neg heq]
              have hgt := htotal _ _ hlow (Ne.symm heq)
              have := ih (h.restart htrans hl hgt) (by omega)
              rwa [show ((j + 1 : Nat) : Int) - 1 = j by omega] at this
      · rw [if_neg hl]
        refine ⟨c, p, rfl, h.done (by omega), by omega, by omega, ?_, h.dom⟩
        have := h.per
        rwa [show j + k - c = len - c by omega] at this

/-- The loop as `_comp` starts it. -/
theorem maxSuffixLoop_spec (hlen : 0 < len) :
    ∃ c p : Nat, maxSuffixLoop lower x len (2 * len) (-1) 0 1 1 = .ok ((c : Int) - 1, p) ∧
      Suffix lower x len c p :=
  maxSuffixLoop_scan htrans htotal (2 * len) (Scan.start hlen) (by omega)

end MaxSuffix

theorem byteLt_trans : ∀ a b c : UInt8,
    decide (a < b) = true → decide (b < c) = true → decide (a < c) = true := by
  simp only [decide_eq_true_eq]
  exact fun a b c => UInt8.lt_trans

theorem byteLt_total : ∀ a b : UInt8,
    decide (a < b) = false → a ≠ b → decide (b < a) = true := by
  simp only [decide_eq_true_eq, decide_eq_false_iff_not]
  exact fun a b h hne => UInt8.lt_of_le_of_ne (UInt8.not_lt.mp h) hne.symm

theorem byteLt_asymm : ∀ a b : UInt8, decide (a < b) = true → ¬decide (b < a) = true := by
  simp only [decide_eq_true_eq]
  exact fun a b => UInt8.lt_asymm

/-! ## The compiled table -/

/-- The table is right for a needle with letters `x`, cut at `c`. -/
structure Compiled (x : Nat → UInt8) (t : TwowayTy) (c : Nat) : Prop where
  filled : Filled x t t.needleLen
  suffix : t.suffix + 1 = c
  cut : c < t.needleLen
  crit : Critical x t.needleLen c
  pos : 0 < t.globalPeriod
  period_le : ∀ r, 0 < r → Period x t.needleLen r → t.globalPeriod ≤ r
  memory : t.memory0 = 0 ∨
    Period x t.needleLen t.globalPeriod ∧ t.memory0 = t.needleLen - t.globalPeriod

/-- Only the letters of the needle count. -/
theorem Compiled.congr {x y : Nat → UInt8} {t : TwowayTy} {c : Nat}
    (hxy : ∀ i < t.needleLen, x i = y i) (h : Compiled x t c) : Compiled y t c where
  filled := by
    refine ⟨fun a => (h.filled.byteset a).trans ?_, fun i hi => ?_, fun i hi => ?_⟩
    · exact exists_congr fun i => and_congr_right fun hi => by rw [hxy i hi]
    · rw [← hxy i hi]
      exact h.filled.lt_shift i hi
    · rw [← hxy i hi]
      exact h.filled.shift_le i hi
  suffix := h.suffix
  cut := h.cut
  crit := h.crit.congr hxy
  pos := h.pos
  period_le r hr hper := h.period_le r hr (hper.congr fun i hi => (hxy i hi).symm)
  memory := h.memory.imp_right fun hm => ⟨hm.1.congr hxy, hm.2⟩

theorem Compiled.period_le_length {x : Nat → UInt8} {t : TwowayTy} {c : Nat}
    (h : Compiled x t c) : t.globalPeriod ≤ t.needleLen :=
  h.period_le _ (by have := h.cut; omega) fun i hi => by omega

/-- The comparison function decides whether a part of the needle repeats
its beginning. -/
def CmpOk (canon : UInt8 → UInt8) (cmp : Mem → Nat → Nat → Nat → Bool) (mem : Mem)
    (ne len : Nat) : Prop :=
  ∀ q n, q + n ≤ len → (cmp mem ne (ne + q) n = true ↔
    ∀ i < n, canon (mem (ne + i)) = canon (mem (ne + q + i)))

/-- The factorization chosen from the two maximal suffixes, tested for
periodicity. -/
theorem compiled_of_suffix {canon : UInt8 → UInt8} {cmp : Mem → Nat → Nat → Nat → Bool}
    {mem : Mem} {ne : Nat} {t : TwowayTy} {lower : UInt8 → UInt8 → Bool} {c p : Nat}
    (hirr : ∀ a, ¬lower a a = true)
    (hcmp : CmpOk canon cmp mem ne t.needleLen)
    (ht : Filled (letters canon mem ne) t t.needleLen)
    (hs : Suffix lower (letters canon mem ne) t.needleLen c p)
    (hcrit : Critical (letters canon mem ne) t.needleLen c) :
    Compiled (letters canon mem ne) (compPeriodic cmp mem ne t ((c : Int) - 1) p)
      c := by
  have hcut := hs.max.1
  have hc : ((c : Int) - 1 + 1).toNat = c := by omega
  have hrep : cmp mem ne (ne + p) c = true ↔
      ∀ i < c, canon (mem (ne + i)) = canon (mem (ne + (i + p))) := by
    have := hs.le
    rw [hcmp p c (by omega)]
    simp only [show ∀ i, ne + p + i = ne + (i + p) by intro i; omega]
  rw [compPeriodic, hc]
  cases hb : cmp mem ne (ne + p) c with
  | true =>
      have hper : Period (letters canon mem ne) t.needleLen p :=
        period_of_repeats hs.per (hrep.mp hb)
      exact {
        filled := ⟨ht.byteset, ht.lt_shift, ht.shift_le⟩
        suffix := by simp
        cut := hcut
        crit := hcrit
        pos := hs.pos
        period_le := fun r => le_of_period hirr hs.dom hs.le
        memory := Or.inr ⟨hper, rfl⟩ }
  | false =>
      have hnot : ¬∀ i < c, canon (mem (ne + i)) = canon (mem (ne + (i + p))) := by
        rw [← hrep, hb]; exact Bool.false_ne_true
      exact {
        filled := ⟨ht.byteset, ht.lt_shift, ht.shift_le⟩
        suffix := by simp
        cut := hcut
        crit := hcrit
        pos := by simp only [Bool.not_false, if_true]; omega
        period_le := fun r hr h => by
          have := le_period_of_not_repeats hirr hs.dom hs.le hs.per hcrit hs.pos hnot hr h
          simp only [Bool.not_false, if_true]
          omega
        memory := Or.inl rfl }

theorem compPeriodic_needleLen (cmp : Mem → Nat → Nat → Nat → Bool) (mem : Mem) (ne : Nat)
    (t : TwowayTy) (suffix : Int) (period : Nat) :
    (compPeriodic cmp mem ne t suffix period).needleLen = t.needleLen := by
  unfold compPeriodic; split <;> rfl

theorem compiled_compFactor {canon : UInt8 → UInt8} {cmp : Mem → Nat → Nat → Nat → Bool}
    {mem : Mem} {ne : Nat} {t : TwowayTy}
    (hcmp : CmpOk canon cmp mem ne t.needleLen)
    (hpos : 0 < t.needleLen)
    (ht : Filled (letters canon mem ne) t t.needleLen) :
    ∃ t' c, compFactor canon cmp mem ne t = .ok t' ∧ t'.needleLen = t.needleLen ∧
      Compiled (letters canon mem ne) t' c := by
  have hirr : ∀ a : UInt8, ¬decide (a < a) = true := fun a h => byteLt_asymm a a h h
  obtain ⟨c, p, hrun, hs⟩ := maxSuffixLoop_spec byteLt_trans byteLt_total hpos
  obtain ⟨c', p', hrun', hs'⟩ := maxSuffixLoop_spec
    (fun a b c hab hbc => byteLt_trans c b a hbc hab)
    (fun a b hab hne => byteLt_total b a hab hne.symm) hpos
  have hfactor : compFactor canon cmp mem ne t
      = if (c' : Int) - 1 + 1 > (c : Int) - 1 + 1 then
          .ok (compPeriodic cmp mem ne t (c' - 1) p')
        else .ok (compPeriodic cmp mem ne t (c - 1) p) := by
    rw [compFactor, hrun, hrun']; rfl
  -- the larger cut is critical, the smaller one witnesses it
  by_cases hle : c < c'
  · refine ⟨_, c', hfactor.trans (if_pos (by omega)), compPeriodic_needleLen .., ?_⟩
    exact compiled_of_suffix hirr hcmp ht hs'
      (critical_of_maxSuf (fun a b hab => byteLt_asymm b a hab) hs'.max hs.max hle.le)
  · refine ⟨_, c, hfactor.trans (if_neg (by omega)), compPeriodic_needleLen .., ?_⟩
    exact compiled_of_suffix hirr hcmp ht hs
      (critical_of_maxSuf byteLt_asymm hs.max hs'.max (Nat.not_lt.mp hle))

theorem muslComp_spec {canon : UInt8 → UInt8} {cmp : Mem → Nat → Nat → Nat → Bool}
    {mem : Mem} {ne n : Nat}
    (hcmp : CmpOk canon cmp mem ne n)
    (hpos : 0 < n) (t : TwowayTy) :
    ∃ t' c, muslComp canon cmp mem t ne n = .ok t' ∧ t'.needleLen = n ∧
      Compiled (letters canon mem ne) t' c := by
  have ht := filled_fillLoop n 0 { t with byteset := fun _ => false }
    (⟨by simp, by simp, by simp⟩ : Filled (letters canon mem ne) _ 0)
  rw [Nat.zero_add] at ht
  exact compiled_compFactor hcmp hpos ⟨ht.byteset, ht.lt_shift, ht.shift_le⟩

theorem fillLoopEol_eq {canon : UInt8 → UInt8} {mem : Mem} {ne n : Nat}
    (h0 : mem (ne + n) = 0) :
    ∀ (fuel i : Nat) (t : TwowayTy), (∀ j, i ≤ j → j < n → mem (ne + j) ≠ 0) → i ≤ n →
      n < fuel + i →
      fillLoopEol canon mem ne fuel i t
        = .ok { fillLoop canon mem ne (n - i) i t with needleLen := n }
  | 0, i, t, _, hin, hf => by omega
  | fuel + 1, i, t, hne, hin, hf => by
      rw [fillLoopEol]
      rcases Nat.lt_or_eq_of_le hin with hlt | rfl
      · rw [if_neg (hne i (Nat.le_refl i) hlt), fillLoopEol_eq h0 fuel (i + 1) _
          (fun j hij => hne j (by omega)) hlt (by omega),
          show n - i = n - (i + 1) + 1 by omega]
        rfl
      · rw [if_pos h0, Nat.sub_self]
        rfl

theorem muslCompEol_spec {canon : UInt8 → UInt8} {cmp : Mem → Nat → Nat → Nat → Bool}
    {mem : Mem} {ne : Nat} {NE : Bytes}
    (hcmp : CmpOk canon cmp mem ne NE.length)
    (hne : CStr mem ne NE) (hpos : 0 < NE.length) (t : TwowayTy) :
    ∃ t' c, muslCompEol canon cmp mem t ne = .ok t' ∧ t'.needleLen = NE.length ∧
      Compiled (letters canon mem ne) t' c := by
  have hfits := hne.fits
  rw [muslCompEol, fillLoopEol_eq hne.nul (sizeMax + 1) 0 _ (fun j _ => hne.ne_zero)
    (Nat.zero_le _) (by omega), Nat.sub_zero]
  exact muslComp_spec hcmp hpos t

theorem compEol_spec {canon : UInt8 → UInt8} {cmp : Mem → Nat → Nat → Nat → Bool}
    {mem : Mem} {ne : Nat} {NE : Bytes} (hcmp : CmpOk canon cmp mem ne NE.length)
    (hn : CStr mem ne NE) (t : TwowayTy) :
    ∃ t', compEol canon cmp mem t ne = .ok t' ∧ t'.needleLen = NE.length ∧
      (NE.length > 2 → ∃ c, Compiled (letters canon mem ne) t' c) := by
  have hzero := hn.eq_zero_iff (Nat.zero_le NE.length)
  rw [Nat.add_zero] at hzero
  rw [compEol]
  by_cases h0 : mem ne = 0
  · have := hzero.mp h0
    exact ⟨_, if_pos h0, this, fun h => by omega⟩
  rw [if_neg h0]
  have hpos : 0 < NE.length := by
    have hne : ¬0 = NE.length := fun h => h0 (hzero.mpr h)
    omega
  by_cases h1 : mem (ne + 1) = 0
  · have := (hn.eq_zero_iff hpos).mp h1
    exact ⟨_, if_pos h1, this, fun h => by omega⟩
  rw [if_neg h1]
  have hpos' : 2 ≤ NE.length := by
    have hne : ¬1 = NE.length := fun h => h1 ((hn.eq_zero_iff hpos).mpr h)
    omega
  by_cases h2 : mem (ne + 2) = 0
  · have := (hn.eq_zero_iff hpos').mp h2
    exact ⟨_, if_pos h2, this, fun h => by omega⟩
  rw [if_neg h2]
  obtain ⟨t', c, hcomp, hlen, ht⟩ := muslCompEol_spec hcmp hn hpos t
  exact ⟨t', hcomp, hlen, fun _ => ⟨c, ht⟩⟩

end Jstr
