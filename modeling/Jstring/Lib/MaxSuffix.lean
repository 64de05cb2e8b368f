import Jstring.Lib.Factorization

/-!
# Scanning for the maximal suffix

What a left-to-right scan for the maximal suffix has to know about the
part `y` of the word it has read behind its candidate:

- `Dominant lt y p`: every proper suffix of the first `p` letters loses
  against the word itself at a letter inside those `p`;
- `Period y n p`: the `n` letters read repeat them.

One lemma for each way the next letter can compare with the letter one
period earlier: a lower one makes everything read dominant
(`Dominant.extend`), an equal one extends the period
(`Period.extend`), a higher one sends the candidate behind the last
full repetition (`sufLt_restart`). `maxSuf_of_dominant` is the end of
the scan.
-/

namespace Words

variable {α : Type*} {lt : α → α → Prop} {y : Nat → α} {n p : Nat}

/-! ## Letters of a periodic word -/

theorem Period.mod_eq (h : Period y n p) (hp : 0 < p) {i : Nat} (hi : i < n) :
    y i = y (i % p) := by
  induction i using Nat.strong_induction_on with
  | _ i ih =>
      by_cases hip : i < p
      · rw [Nat.mod_eq_of_lt hip]
      · have hstep := h (i - p) (by omega)
        rw [Nat.sub_add_cancel (by omega)] at hstep
        have hmod : i % p = (i - p) % p := Nat.mod_eq_sub_mod (by omega)
        rw [← hstep, hmod]
        exact ih (i - p) (by omega) (by omega)

theorem Period.extend (h : Period y n p) (hp : 0 < p) (heq : p ≤ n → y n = y (n % p)) :
    Period y (n + 1) p := by
  intro i hi
  by_cases hin : i + p < n
  · exact h i hin
  · have hn : n = i + p := by omega
    subst hn
    rw [heq (Nat.le_add_left p i), h.mod_eq hp (by omega), Nat.add_mod_right]

/-! ## Dominant words -/

/-- Each proper suffix of the first `p` letters of `y` has its first
difference from `y` inside them, and the lower letter there. -/
def Dominant (lt : α → α → Prop) (y : Nat → α) (p : Nat) : Prop :=
  ∀ t, 0 < t → t < p → ∃ m, t + m < p ∧ (∀ i < m, y (t + i) = y i) ∧
    lt (y (t + m)) (y m)

theorem dominant_one (lt : α → α → Prop) (y : Nat → α) : Dominant lt y 1 :=
  fun t h0 h1 => by omega

/-- A dominant word has no shorter period. -/
theorem Dominant.le_period (hirr : ∀ a, ¬lt a a) (hd : Dominant lt y p) {t : Nat}
    (hpn : p ≤ n) (h0 : 0 < t) (ht : Period y n t) : p ≤ t := by
  by_contra hlt
  obtain ⟨m, hm, -, hlow⟩ := hd t h0 (by omega)
  rw [Nat.add_comm, ← ht m (by omega)] at hlow
  exact hirr _ hlow

/-- A suffix of the letters read, against the whole: it is a repetition
of it, or the two have a first difference, inside one period. -/
theorem Dominant.suffix (hd : Dominant lt y p) (h : Period y n p) (hp : 0 < p) (t : Nat) :
    (t % p = 0 ∧ ∀ i, t + i < n → y (t + i) = y i) ∨
    ∃ m, t % p + m < p ∧ (∀ i < m, t + i < n → y (t + i) = y i) ∧
      (t + m < n → lt (y (t + m)) (y m)) ∧
      (∀ i < m, y (t % p + i) = y i) ∧ lt (y (t % p + m)) (y m) := by
  have hmod : ∀ i, t % p + i < p → t + i < n → y (t + i) = y (t % p + i) := by
    intro i hi hn
    rw [h.mod_eq hp hn, Nat.add_mod, Nat.mod_eq_of_lt (show i < p by omega),
      Nat.mod_eq_of_lt hi]
  rcases Nat.eq_zero_or_pos (t % p) with h0 | hpos
  · refine Or.inl ⟨h0, fun i hi => ?_⟩
    rw [h.mod_eq hp hi, h.mod_eq hp (show i < n by omega), Nat.add_mod, h0, Nat.zero_add,
      Nat.mod_mod]
  · obtain ⟨m, hm, heq, hlow⟩ := hd (t % p) hpos (Nat.mod_lt t hp)
    refine Or.inr ⟨m, hm, fun i hi hn => ?_, fun hn => ?_, heq, hlow⟩
    · rw [hmod i (by omega) hn, heq i hi]
    · rw [hmod m hm hn]; exact hlow

section Scan

variable (htrans : ∀ a b c, lt a b → lt b c → lt a c)
include htrans

/-- The next letter is lower than the one a period earlier: everything
read, with that letter, is dominant. -/
theorem Dominant.extend (hd : Dominant lt y p) (h : Period y n p) (hp : 0 < p)
    (hlow : lt (y n) (y (n % p))) : Dominant lt y (n + 1) := by
  intro t h0 ht
  rcases hd.suffix h hp t with ⟨hz, heq⟩ | ⟨m, hm, heq, hlt, heq', hl⟩
  · refine ⟨n - t, by omega, fun i hi => heq i (by omega), ?_⟩
    rw [show t + (n - t) = n by omega, h.mod_eq hp (show n - t < n by omega)]
    have hmod : n % p = (n - t) % p := by
      conv_lhs => rw [show n = t + (n - t) by omega, Nat.add_mod, hz, Nat.zero_add,
        Nat.mod_mod]
    rw [← hmod]; exact hlow
  · by_cases hmn : t + m < n
    · exact ⟨m, by omega, fun i hi => heq i hi (by omega), hlt hmn⟩
    · refine ⟨n - t, by omega, fun i hi => heq i (by omega) (by omega), ?_⟩
      have hmod : n % p = t % p + (n - t) := by
        conv_lhs => rw [show n = t + (n - t) by omega, Nat.add_mod,
          Nat.mod_eq_of_lt (show n - t < p by omega), Nat.mod_eq_of_lt (by omega)]
      rw [show t + (n - t) = n by omega]
      rw [hmod] at hlow
      by_cases hm' : n - t = m
      · rw [hm'] at hlow ⊢; exact htrans _ _ _ hlow hl
      · rw [← heq' (n - t) (by omega)]; exact hlow

/-- The letter `z` after the last full repetition (which ends at `d`) is
higher than the one it would repeat: every suffix starting before `d`
loses against the one at `d` at that letter or earlier. -/
theorem Dominant.lt_restart (hd : Dominant lt y p) (h : Period y n p) (hp : 0 < p)
    {d : Nat} (hdvd : p ∣ d) (hdn : d ≤ n) (hnd : n < d + p)
    (hhigh : lt (y (n % p)) (y n)) {t : Nat} (ht : t < d) :
    ∃ m, d + m ≤ n ∧ (∀ i < m, y (t + i) = y (d + i)) ∧ lt (y (t + m)) (y (d + m)) := by
  obtain ⟨q, rfl⟩ := hdvd
  have hbase : ∀ i, p * q + i < n → y (p * q + i) = y i := by
    intro i hi
    rw [h.mod_eq hp hi, h.mod_eq hp (show i < n by omega), Nat.mul_add_mod]
  have hnp : n % p = n - p * q := by
    conv_lhs => rw [show n = p * q + (n - p * q) by omega, Nat.mul_add_mod,
      Nat.mod_eq_of_lt (show n - p * q < p by omega)]
  have hlast : y (p * q + (n - p * q)) = y n := by rw [show p * q + (n - p * q) = n by omega]
  rw [hnp] at hhigh
  rcases hd.suffix h hp t with ⟨-, heq⟩ | ⟨m, hm, heq, hlt, -⟩
  · refine ⟨n - p * q, by omega, fun i hi => ?_, ?_⟩
    · rw [heq i (by omega), hbase i (by omega)]
    · rw [heq _ (by omega), hlast]; exact hhigh
  · rcases Nat.lt_trichotomy m (n - p * q) with hlt' | rfl | hgt
    · refine ⟨m, by omega, fun i hi => ?_, ?_⟩
      · rw [heq i hi (by omega), hbase i (by omega)]
      · rw [hbase m (by omega)]; exact hlt (by omega)
    · refine ⟨n - p * q, by omega, fun i hi => ?_, ?_⟩
      · rw [heq i hi (by omega), hbase i (by omega)]
      · rw [hlast]; exact htrans _ _ _ (hlt (by omega)) hhigh
    · refine ⟨n - p * q, by omega, fun i hi => ?_, ?_⟩
      · rw [heq i (by omega) (by omega), hbase i (by omega)]
      · rw [heq _ hgt (by omega), hlast]; exact hhigh

omit htrans in
/-- At the end of the word every later suffix is below the candidate. -/
theorem Dominant.sufLt {x : Nat → α} {c : Nat} (hd : Dominant lt (fun i => x (c + i)) p)
    (h : Period (fun i => x (c + i)) n p) (hp : 0 < p) {t : Nat} (h0 : 0 < t) (ht : t < n) :
    SufLt lt x (c + n) (c + t) c := by
  simp only [SufLt, Nat.add_assoc]
  rcases hd.suffix h hp t with ⟨-, heq⟩ | ⟨m, hm, heq, hlt, -⟩
  · exact ⟨n - t, fun k hk => heq k (by omega), by omega, Or.inl (by omega)⟩
  · by_cases hmn : t + m < n
    · exact ⟨m, fun k hk => heq k hk (by omega), by omega, Or.inr ⟨by omega, hlt hmn⟩⟩
    · exact ⟨n - t, fun k hk => heq k (by omega) (by omega), by omega, Or.inl (by omega)⟩

theorem SufLt.trans {x : Nat → α} {l s t u : Nat} (h : SufLt lt x l s t)
    (h' : SufLt lt x l t u) : SufLt lt x l s u := by
  obtain ⟨m, heq, ht, hor⟩ := h
  obtain ⟨m', heq', hu, hor'⟩ := h'
  rcases Nat.lt_trichotomy m m' with hlt | rfl | hgt
  · refine ⟨m, fun k hk => (heq k hk).trans (heq' k (by omega)), by omega, ?_⟩
    rw [← heq' m hlt]; exact hor
  · rcases hor' with hend | ⟨-, hl'⟩
    · omega
    · exact ⟨m, fun k hk => (heq k hk).trans (heq' k hk), by omega,
        hor.imp_right fun ⟨hs, hl⟩ => ⟨hs, htrans _ _ _ hl hl'⟩⟩
  · rcases hor' with hend | ⟨hm', hl'⟩
    · omega
    · refine ⟨m', fun k hk => (heq k (by omega)).trans (heq' k hk), by omega, Or.inr ⟨?_, ?_⟩⟩
      · rcases hor with hend | ⟨hs, -⟩
        · omega
        · omega
      · rw [heq m' hgt]; exact hl'

end Scan

/-! ## The scan -/

/-- The state of the scan: the candidate `c`, the last full repetition
ending at `j + 1`, `k - 1` further letters matched, the period `p`. -/
structure Scan (lt : α → α → Prop) (x : Nat → α) (l c j k p : Nat) : Prop where
  kpos : 0 < k
  kp : k ≤ p
  cj : c ≤ j
  le : j + k ≤ l
  dvd : p ∣ j + 1 - c
  per : Period (fun i => x (c + i)) (j + k - c) p
  dom : Dominant lt (fun i => x (c + i)) p
  below : ∀ s < c, SufLt lt x l s c

namespace Scan

variable {x : Nat → α} {l c j k : Nat}

theorem start (hl : 0 < l) : Scan lt x l 0 0 1 1 where
  kpos := Nat.one_pos
  kp := Nat.le_refl 1
  cj := Nat.le_refl 0
  le := hl
  dvd := Nat.one_dvd _
  per := fun i hi => by omega
  dom := dominant_one lt _
  below := fun s hs => absurd hs (Nat.not_lt_zero s)

theorem p_le (h : Scan lt x l c j k p) : p ≤ j + 1 - c :=
  Nat.le_of_dvd (by have := h.cj; omega) h.dvd

/-- The letter one period earlier is the one the scan compares with. -/
theorem mod_eq (h : Scan lt x l c j k p) : (j + k - c) % p = k - 1 := by
  obtain ⟨q, hq⟩ := h.dvd
  have hk := h.kpos
  have hkp := h.kp
  have hcj := h.cj
  rw [show j + k - c = p * q + (k - 1) by omega, Nat.mul_add_mod,
    Nat.mod_eq_of_lt (by omega)]

theorem next (h : Scan lt x l c j k p) : c + (j + k - c) = j + k := by
  have := h.cj; omega

section

variable (htrans : ∀ a b c, lt a b → lt b c → lt a c)
include htrans

theorem lower (h : Scan lt x l c j k p) (hl : j + k < l)
    (hlt : lt (x (j + k)) (x (c + (k - 1)))) :
    Scan lt x l c (j + k) 1 (j + k + 1 - c) where
  kpos := Nat.one_pos
  kp := by have := h.cj; omega
  cj := by have := h.cj; omega
  le := hl
  dvd := dvd_rfl
  per := fun i hi => by omega
  dom := by
    have := h.dom.extend htrans h.per (Nat.lt_of_lt_of_le h.kpos h.kp)
      (by rw [h.mod_eq, h.next]; exact hlt)
    rwa [show j + k - c + 1 = j + k + 1 - c by have := h.cj; omega] at this
  below := h.below

theorem restart (h : Scan lt x l c j k p) (hl : j + k < l)
    (hgt : lt (x (c + (k - 1))) (x (j + k))) : Scan lt x l (j + 1) (j + 1) 1 1 where
  kpos := Nat.one_pos
  kp := Nat.le_refl 1
  cj := Nat.le_refl _
  le := by have := h.kpos; omega
  dvd := Nat.one_dvd _
  per := fun i hi => by omega
  dom := dominant_one lt _
  below := by
    have hcj := h.cj
    have hk := h.kpos
    have hkp := h.kp
    -- from the candidate on, everything before `j + 1` loses against it
    have hwin : ∀ s, c ≤ s → s < j + 1 → SufLt lt x l s (j + 1) := by
      intro s hs hsj
      obtain ⟨m, hm, heq, hlow⟩ := h.dom.lt_restart htrans h.per (by omega) h.dvd
        (by omega) (by omega) (by rw [h.mod_eq, h.next]; exact hgt) (show s - c < j + 1 - c by omega)
      simp only [← Nat.add_assoc, show c + (s - c) = s by omega,
        show c + (j + 1 - c) = j + 1 by omega] at heq hlow
      exact ⟨m, heq, by omega, Or.inr ⟨by omega, hlow⟩⟩
    intro s hs
    by_cases hsc : s < c
    · exact (h.below s hsc).trans htrans (hwin c (Nat.le_refl c) (by omega))
    · exact hwin s (by omega) hs

end

theorem extend_per (h : Scan lt x l c j k p) (heq : x (c + (k - 1)) = x (j + k)) :
    Period (fun i => x (c + i)) (j + k + 1 - c) p := by
  have := h.per.extend (Nat.lt_of_lt_of_le h.kpos h.kp)
    (fun _ => by rw [h.mod_eq, h.next]; exact heq.symm)
  rwa [show j + k - c + 1 = j + k + 1 - c by have := h.cj; omega] at this

theorem equalFull (h : Scan lt x l c j k p) (hl : j + k < l)
    (heq : x (c + (k - 1)) = x (j + k)) (hkp : k = p) : Scan lt x l c (j + p) 1 p where
  kpos := Nat.one_pos
  kp := by have := h.kpos; omega
  cj := by have := h.cj; omega
  le := by omega
  dvd := by
    rw [show j + p + 1 - c = j + 1 - c + p by have := h.cj; omega]
    exact Nat.dvd_add h.dvd dvd_rfl
  per := by subst hkp; exact h.extend_per heq
  dom := h.dom
  below := h.below

theorem equalShort (h : Scan lt x l c j k p) (hl : j + k < l)
    (heq : x (c + (k - 1)) = x (j + k)) (hkp : k ≠ p) : Scan lt x l c j (k + 1) p where
  kpos := Nat.succ_pos k
  kp := by have := h.kp; omega
  cj := h.cj
  le := hl
  dvd := h.dvd
  per := h.extend_per heq
  dom := h.dom
  below := h.below

/-- At the end of the word the candidate is its maximal suffix. -/
theorem done (h : Scan lt x l c j k p) (hl : l ≤ j + k) : MaxSuf lt x l c := by
  have hle := h.le
  have hk := h.kpos
  have hkp := h.kp
  have hp := h.p_le
  refine ⟨by omega, fun s hs hne => ?_⟩
  by_cases hsc : s < c
  · exact h.below s hsc
  · have := h.dom.sufLt h.per (by omega) (show 0 < s - c by omega) (by omega)
    rwa [h.next, show c + (s - c) = s by omega, show j + k = l by omega] at this

end Scan

end Words
