import Jstring.Cmpeq

/-!
# The order of strings without regard to case

The sign of `jstr_strcasecmp`, `jstr_strncasecmp` and `jstr_strcasecmp_len` of
`include/stdstring.h`. All three return the difference of the first bytes
that differ once folded, where the terminator counts as a byte (`difference`),
so their sign is that of the lexicographic order of the folded texts, and the
arguments exchanged give the negated value: the three are comparators a sort
may be given (`casecmp_orders`).
-/

namespace Jstr

/-- The loop of `jstr_strcasecmp_len`:
`while (n-- && !(ret = tolower(*p1++) - tolower(*p2++))) {}`. -/
def casecmpLenLoop (mem : Mem) : Int → Nat → Nat → Nat → Int
  | ret, 0, _, _ => ret
  | _, n + 1, p1, p2 =>
    let ret := diff mem p1 p2
    if ret = 0 then casecmpLenLoop mem ret n (p1 + 1) (p2 + 1) else ret

/-- `jstr_strcasecmp_len`. -/
def strcasecmpLen (mem : Mem) (s1 s2 n : Nat) : Run Int := .ok (casecmpLenLoop mem 0 n s1 s2)

/-! ## Three-way comparison of texts -/

/-- The difference of the first bytes that differ, the end of a text counted
as the byte 0. -/
def difference : Bytes → Bytes → Int
  | [], [] => 0
  | [], b :: _ => -b.toNat
  | a :: _, [] => a.toNat
  | a :: l, b :: m => if a = b then difference l m else a.toNat - b.toNat

theorem difference_swap : ∀ l m : Bytes, difference m l = -difference l m
  | [], [] => rfl
  | [], b :: _ => (Int.neg_neg _).symm
  | a :: _, [] => rfl
  | a :: l, b :: m => by
      rw [difference, difference]
      by_cases hab : a = b
      · rw [if_pos hab, if_pos hab.symm, difference_swap l m]
      · rw [if_neg hab, if_neg (Ne.symm hab), Int.neg_sub]

/-- Without the byte 0 the texts are ordered as the sign says. -/
theorem difference_sign : ∀ {l m : Bytes}, 0 ∉ l → 0 ∉ m →
    (difference l m < 0 ↔ l < m) ∧ (difference l m = 0 ↔ l = m)
  | [], [], _, _ => ⟨iff_of_false (Int.lt_irrefl 0) (List.not_lt_nil _), iff_of_true rfl rfl⟩
  | [], b :: m, _, hm => by
      have hb : b.toNat ≠ 0 := fun h =>
        hm (List.mem_cons.mpr (.inl (UInt8.toNat_inj.mp h).symm))
      rw [difference]
      exact ⟨iff_of_true (by omega) (List.nil_lt_cons b m), iff_of_false (by omega) (by simp)⟩
  | a :: l, [], hl, _ => by
      have ha : a.toNat ≠ 0 := fun h =>
        hl (List.mem_cons.mpr (.inl (UInt8.toNat_inj.mp h).symm))
      rw [difference]
      exact ⟨iff_of_false (by omega) (List.not_lt_nil _), iff_of_false (by omega) (by simp)⟩
  | a :: l, b :: m, hl, hm => by
      rw [difference, List.cons_lt_cons_iff, List.cons.injEq]
      by_cases hab : a = b
      · obtain ⟨hlt, heq⟩ := difference_sign (fun h => hl (List.mem_cons_of_mem a h))
          fun h => hm (List.mem_cons_of_mem b h)
        rw [if_pos hab, hlt, heq]
        refine ⟨⟨fun h => .inr ⟨hab, h⟩, fun h => ?_⟩, (and_iff_right hab).symm⟩
        exact h.elim (fun h => absurd (hab ▸ h) (UInt8.lt_irrefl _)) And.right
      · have hne : a.toNat ≠ b.toNat := fun h => hab (UInt8.toNat_inj.mp h)
        rw [if_neg hab, UInt8.lt_iff_toNat_lt]
        refine ⟨⟨fun h => .inl (by omega), fun h => ?_⟩, iff_of_false (by omega) fun h => hab h.1⟩
        exact h.elim (fun h => by omega) fun h => absurd h.1 hab

/-! ## The loops -/

section Loops

variable {mem : Mem}

theorem CStr.folded_nul {p : Nat} (h : CStr mem p []) : (tolower (mem p)).toNat = 0 := by
  have hnul : mem p = 0 := h.nul
  rw [hnul]
  rfl

theorem CStr.folded_head {p : Nat} {a : UInt8} {l : Bytes} (h : CStr mem p (a :: l)) :
    tolower (mem p) = tolower a ∧ (tolower a).toNat ≠ 0 := by
  refine ⟨by rw [h.head], fun h0 => h.head_ne (tolower_eq_zero.mp ?_)⟩
  exact UInt8.toNat_inj.mp h0

theorem casecmpLoop_eq : ∀ {l1 l2 : Bytes} {fuel p1 p2 : Nat}, CStr mem p1 l1 →
    CStr mem p2 l2 → l1.length < fuel →
      casecmpLoop mem fuel p1 p2 = .ok (difference (folded l1) (folded l2))
  | _, _, 0, _, _, _, _, hf => absurd hf (Nat.not_lt_zero _)
  | [], [], fuel + 1, p1, p2, h1, h2, _ => by
      rw [casecmpLoop, if_neg fun hc => hc.2 h1.nul, diff, h1.folded_nul, h2.folded_nul]
      rfl
  | [], b :: l2, fuel + 1, p1, p2, h1, h2, _ => by
      rw [casecmpLoop, if_neg fun hc => hc.2 h1.nul, diff, h1.folded_nul, h2.folded_head.1]
      exact congrArg _ (Int.zero_sub _)
  | a :: l1, [], fuel + 1, p1, p2, h1, h2, _ => by
      rw [casecmpLoop, if_neg fun hc => h1.diff_nil h2 hc.1, diff, h1.folded_head.1,
        h2.folded_nul]
      exact congrArg _ (Int.sub_zero _)
  | a :: l1, b :: l2, fuel + 1, p1, p2, h1, h2, hf => by
      have hdiff := h1.diff_cons h2
      rw [casecmpLoop, folded_cons, folded_cons, difference]
      by_cases hab : tolower a = tolower b
      · rw [if_pos hab, if_pos ⟨hdiff.mpr hab, h1.head ▸ h1.head_ne⟩]
        exact casecmpLoop_eq h1.tail h2.tail (Nat.lt_of_succ_lt_succ hf)
      · rw [if_neg hab, if_neg fun hc => hab (hdiff.mp hc.1), diff, h1.head, h2.head]

theorem ncasecmpLoop_eq : ∀ {l1 l2 : Bytes} {n p1 p2 : Nat}, CStr mem p1 l1 → CStr mem p2 l2 →
    ncasecmpLoop mem 0 n p1 p2 = difference ((folded l1).take n) ((folded l2).take n)
  | _, _, 0, _, _, _, _ => by
      rw [List.take_zero, List.take_zero]
      rfl
  | [], [], n + 1, p1, p2, h1, h2 => by
      rw [ncasecmpLoop, if_neg fun hc => hc.2 h1.nul, diff, h1.folded_nul, h2.folded_nul]
      rfl
  | [], b :: l2, n + 1, p1, p2, h1, h2 => by
      rw [ncasecmpLoop, if_neg fun hc => hc.2 h1.nul, diff, h1.folded_nul, h2.folded_head.1]
      exact Int.zero_sub _
  | a :: l1, [], n + 1, p1, p2, h1, h2 => by
      rw [ncasecmpLoop, if_neg fun hc => h1.diff_nil h2 hc.1, diff, h1.folded_head.1,
        h2.folded_nul]
      exact Int.sub_zero _
  | a :: l1, b :: l2, n + 1, p1, p2, h1, h2 => by
      have hdiff := h1.diff_cons h2
      rw [ncasecmpLoop, folded_cons, folded_cons, List.take_succ_cons, List.take_succ_cons,
        difference]
      by_cases hab : tolower a = tolower b
      · rw [if_pos hab, if_pos ⟨hdiff.mpr hab, h1.head ▸ h1.head_ne⟩, hdiff.mpr hab,
          ncasecmpLoop_eq h1.tail h2.tail]
      · rw [if_neg hab, if_neg fun hc => hab (hdiff.mp hc.1), diff, h1.head, h2.head]

/-- Where one of the strings has as many bytes, the terminator need not be looked for. -/
theorem casecmpLenLoop_eq_ncasecmpLoop : ∀ {l1 l2 : Bytes} {n p1 p2 : Nat}, CStr mem p1 l1 →
    CStr mem p2 l2 → n ≤ max l1.length l2.length → ∀ ret,
      casecmpLenLoop mem ret n p1 p2 = ncasecmpLoop mem ret n p1 p2
  | _, _, 0, _, _, _, _, _, _ => rfl
  | [], [], n + 1, _, _, _, _, hn, _ => absurd hn (Nat.not_succ_le_zero n)
  | [], b :: l2, n + 1, p1, p2, h1, h2, _, ret => by
      have hne : diff mem p1 p2 ≠ 0 := by
        have := h2.diff_nil h1
        rw [diff] at this ⊢
        omega
      rw [casecmpLenLoop, ncasecmpLoop, if_neg hne, if_neg fun hc => hne hc.1]
  | a :: l1, [], n + 1, p1, p2, h1, h2, _, ret => by
      have hne := h1.diff_nil h2
      rw [casecmpLenLoop, ncasecmpLoop, if_neg hne, if_neg fun hc => hne hc.1]
  | a :: l1, b :: l2, n + 1, p1, p2, h1, h2, hn, ret => by
      have hnul : mem p1 ≠ 0 := h1.head ▸ h1.head_ne
      have ih := @casecmpLenLoop_eq_ncasecmpLoop l1 l2 n _ _ h1.tail h2.tail (by
        rw [List.length_cons, List.length_cons] at hn
        omega)
      rw [casecmpLenLoop, ncasecmpLoop]
      by_cases hdiff : diff mem p1 p2 = 0
      · rw [if_pos hdiff, if_pos ⟨hdiff, hnul⟩, ih]
      · rw [if_neg hdiff, if_neg fun hc => hdiff hc.1]

end Loops

/-! ## The comparators -/

/-- Two calls, with the arguments one way and the other: the values are each
other's negation, and the sign of the first is the order of the texts. -/
def Compares (r r' : Run Int) (l m : Bytes) : Prop :=
  ∃ v, r = .ok v ∧ r' = .ok (-v) ∧ (v < 0 ↔ l < m) ∧ (v = 0 ↔ l = m) ∧ (0 < v ↔ m < l)

theorem compares_difference {l m : Bytes} (hl : 0 ∉ l) (hm : 0 ∉ m) :
    Compares (.ok (difference l m)) (.ok (difference m l)) l m := by
  obtain ⟨hlt, heq⟩ := difference_sign hl hm
  have hgt := (difference_sign hm hl).1
  rw [difference_swap l m] at hgt
  refine ⟨_, rfl, by rw [difference_swap l m], hlt, heq, ?_⟩
  rw [← hgt]
  omega

theorem not_mem_folded {mem : Mem} {s : Nat} {l : Bytes} (h : CStr mem s l) : 0 ∉ folded l := by
  rw [folded, List.mem_map]
  rintro ⟨x, hx, h0⟩
  exact h.nonzero (tolower_eq_zero.mp h0 ▸ hx)

/-- The comparators order the folded texts, all of them or as many bytes as they are given;
the one that does not look for the terminator is the one that does, as long as one of the
strings has as many bytes. -/
theorem casecmp_orders {mem : Mem} {s1 s2 : Nat} {l1 l2 : Bytes} (h1 : CStr mem s1 l1)
    (h2 : CStr mem s2 l2) (n : Nat) :
    Compares (strcasecmp mem s1 s2) (strcasecmp mem s2 s1) (folded l1) (folded l2) ∧
      Compares (strncasecmp mem s1 s2 n) (strncasecmp mem s2 s1 n) ((folded l1).take n)
        ((folded l2).take n) ∧
      (n ≤ max l1.length l2.length → strcasecmpLen mem s1 s2 n = strncasecmp mem s1 s2 n) := by
  have hn1 := not_mem_folded h1
  have hn2 := not_mem_folded h2
  have hfit1 := h1.fits
  have hfit2 := h2.fits
  refine ⟨?_, ?_, fun hn => congrArg _ (casecmpLenLoop_eq_ncasecmpLoop h1 h2 hn 0)⟩
  · rw [strcasecmp, strcasecmp, casecmpLoop_eq h1 h2 (by omega), casecmpLoop_eq h2 h1 (by omega)]
    exact compares_difference hn1 hn2
  · rw [strncasecmp, strncasecmp, ncasecmpLoop_eq h1 h2, ncasecmpLoop_eq h2 h1]
    exact compares_difference (fun h => hn1 (List.mem_of_mem_take h))
      fun h => hn2 (List.mem_of_mem_take h)

/-- "ab" and "A". -/
theorem casecmp_orders_ab :
    Compares (strcasecmp (memOf [97, 98, 0, 65, 0]) 0 3) (strcasecmp (memOf [97, 98, 0, 65, 0]) 3 0)
        (folded [97, 98]) (folded [65]) ∧
      Compares (strncasecmp (memOf [97, 98, 0, 65, 0]) 0 3 2)
        (strncasecmp (memOf [97, 98, 0, 65, 0]) 3 0 2) ((folded [97, 98]).take 2)
        ((folded [65]).take 2) ∧
      (2 ≤ max ([97, 98] : Bytes).length ([65] : Bytes).length →
        strcasecmpLen (memOf [97, 98, 0, 65, 0]) 0 3 2
          = strncasecmp (memOf [97, 98, 0, 65, 0]) 0 3 2) :=
  casecmp_orders cstr_ab cstr_A 2

end Jstr
