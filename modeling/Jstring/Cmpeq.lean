import Jstring.Libc
import Jstring.Atoi

/-!
# Comparing two strings

The comparison loops of `include/stdstring.h`, in their own bodies (not the
C library's): `jstr_strcmpeq_loop`, `jstr_strcasecmpeq_loop`, `jstr_strcasecmpeq`,
`jstr_strncasecmpeq`, `jstr_strcasecmp` and `jstr_strncasecmp`. What counts is
whether the result is 0 (`ZeroIff`).

The last two decide equality of the folded strings. The `eq` loops look
at one byte of one string behind the loop and so decide whether one
string is a prefix of the other: the second of the first
(`cmpeqLoop_spec`), or, with a bound, the first of the second
(`ncasecmpeq_spec`). They are right exactly on pairs where that prefix is
not a proper one (`cmpeq_right_iff`).
-/

namespace Jstr

/-! ## The loops -/

/-- `while (fold(*p1) == fold(*p2++) && *p1++) {}`: where `p2` is left. -/
def cmpeqLoop (canon : UInt8 → UInt8) (mem : Mem) : Nat → Nat → Nat → Run Nat
  | 0, _, _ => .error .diverge
  | fuel + 1, p1, p2 =>
    if canon (mem p1) = canon (mem p2) ∧ mem p1 ≠ 0 then cmpeqLoop canon mem fuel (p1 + 1) (p2 + 1)
    else .ok (p2 + 1)

/-- `jstr_strcasecmpeq_loop`. -/
def strcasecmpeqLoop (mem : Mem) (s1 s2 : Nat) : Run Int := do
  let p2 ← cmpeqLoop tolower mem (sizeMax + 1) s1 s2
  return (mem (p2 - 1)).toNat

/-- `jstr_strcasecmpeq`. -/
def strcasecmpeq (mem : Mem) (s1 s2 : Nat) : Run Int := do
  let p2 ← cmpeqLoop tolower mem (sizeMax + 1) s1 s2
  return (mem (p2 - 1)).toNat

/-- `jstr_strcmpeq_loop`. The bytes are signed. -/
def strcmpeqLoop (mem : Mem) (s1 s2 : Nat) : Run Int := do
  let p2 ← cmpeqLoop id mem (sizeMax + 1) s1 s2
  return schar (mem (p2 - 1))

/-- `tolower(*p1) - tolower(*p2)`. -/
def diff (mem : Mem) (p1 p2 : Nat) : Int := (tolower (mem p1)).toNat - (tolower (mem p2)).toNat

/-- `while (!(ret = tolower(*p1) - tolower(*p2++)) && *p1++) {}`. -/
def casecmpLoop (mem : Mem) : Nat → Nat → Nat → Run Int
  | 0, _, _ => .error .diverge
  | fuel + 1, p1, p2 =>
    let ret := diff mem p1 p2
    if ret = 0 ∧ mem p1 ≠ 0 then casecmpLoop mem fuel (p1 + 1) (p2 + 1) else .ok ret

/-- `jstr_strcasecmp`. -/
def strcasecmp (mem : Mem) (s1 s2 : Nat) : Run Int := casecmpLoop mem (sizeMax + 1) s1 s2

/-- `while (n-- && !(ret = tolower(*p1) - tolower(*p2++)) && *p1++) {}`. -/
def ncasecmpLoop (mem : Mem) : Int → Nat → Nat → Nat → Int
  | ret, 0, _, _ => ret
  | _, n + 1, p1, p2 =>
    let ret := diff mem p1 p2
    if ret = 0 ∧ mem p1 ≠ 0 then ncasecmpLoop mem ret n (p1 + 1) (p2 + 1) else ret

/-- `jstr_strncasecmp`. -/
def strncasecmp (mem : Mem) (s1 s2 n : Nat) : Run Int := .ok (ncasecmpLoop mem 0 n s1 s2)

/-- `for (; tolower(*p1) == tolower(*p2++) && *p1 && n; ++p1, --n) {}`:
`p1` and `n`. -/
def ncasecmpeqLoop (mem : Mem) : Nat → Nat → Nat → Nat × Nat
  | 0, p1, _ => (p1, 0)
  | n + 1, p1, p2 =>
    if tolower (mem p1) = tolower (mem p2) ∧ mem p1 ≠ 0 then
      ncasecmpeqLoop mem n (p1 + 1) (p2 + 1)
    else (p1, n + 1)

/-- `jstr_strncasecmpeq`. -/
def strncasecmpeq (mem : Mem) (s1 s2 n : Nat) : Run Int :=
  if n = 0 then .ok 0
  else
    let (p1, n) := ncasecmpeqLoop mem n s1 s2
    .ok (if mem p1 ≠ 0 ∧ n ≠ 0 then 1 else 0)

/-! ## What they decide -/

/-- A comparison comes to an end, with 0 exactly when `P`. -/
def ZeroIff (r : Run Int) (P : Prop) : Prop := ∃ v, r = .ok v ∧ (v = 0 ↔ P)

/-- A comparison that decides `P` decides `Q` when the two are the same. -/
theorem ZeroIff.congr_iff {r : Run Int} {P Q : Prop} (h : ZeroIff r P) :
    ZeroIff r Q ↔ (P ↔ Q) := by
  obtain ⟨v, hv, hP⟩ := h
  constructor
  · rintro ⟨w, hw, hQ⟩
    cases hv.symm.trans hw
    exact hP.symm.trans hQ
  · exact fun hPQ => ⟨v, hv, hP.trans hPQ⟩

/-- The string with each byte folded. -/
def folded (l : Bytes) : Bytes := l.map tolower

@[simp] theorem folded_nil : folded [] = [] := rfl

@[simp] theorem folded_cons (b : UInt8) (l : Bytes) : folded (b :: l) = tolower b :: folded l := rfl

theorem tolower_eq_tolower_zero {x : UInt8} : tolower x = tolower 0 ↔ x = 0 := tolower_eq_zero

variable {mem : Mem}

/-- Behind the loop `p2[-1]` is NUL when the second string was used up, all
of it equal. By recursion on both strings, as the loop goes. -/
theorem cmpeqLoop_spec {canon : UInt8 → UInt8} (hcanon : ∀ x, canon x = 0 ↔ x = 0) :
    ∀ {l1 l2 : Bytes} {fuel p1 p2 : Nat}, CStr mem p1 l1 → CStr mem p2 l2 → l1.length < fuel →
      ∃ q, cmpeqLoop canon mem fuel p1 p2 = .ok (q + 1) ∧
        (mem q = 0 ↔ l2.map canon <+: l1.map canon)
  | _, _, 0, _, _, _, _, hf => absurd hf (Nat.not_lt_zero _)
  | [], l2, fuel + 1, p1, p2, h1, h2, _ => by
      have hnul : mem p1 = 0 := h1.nul
      refine ⟨p2, by rw [cmpeqLoop, if_neg fun hc => hc.2 hnul], ?_⟩
      cases l2 with
      | nil => exact iff_of_true h2.nul (List.prefix_refl _)
      | cons b l2 => exact iff_of_false (h2.head ▸ h2.head_ne) (by simp)
  | a :: l1, [], fuel + 1, p1, p2, h1, h2, _ => by
      have hnul : mem p2 = 0 := h2.nul
      refine ⟨p2, ?_, iff_of_true hnul List.nil_prefix⟩
      rw [cmpeqLoop, if_neg]
      rintro ⟨heq, hne⟩
      rw [hnul, (hcanon 0).mpr rfl] at heq
      exact hne ((hcanon _).mp heq)
  | a :: l1, b :: l2, fuel + 1, p1, p2, h1, h2, hf => by
      rw [cmpeqLoop, h1.head, h2.head]
      by_cases hab : canon a = canon b
      · obtain ⟨q, hr, hq⟩ := cmpeqLoop_spec hcanon h1.tail h2.tail (Nat.lt_of_succ_lt_succ hf)
        refine ⟨q, by rw [if_pos ⟨hab, h1.head_ne⟩, hr], ?_⟩
        rw [hq, List.map_cons, List.map_cons, List.cons_prefix_cons]
        exact (and_iff_right hab.symm).symm
      · refine ⟨p2, if_neg fun hc => hab hc.1, iff_of_false (h2.head ▸ h2.head_ne) ?_⟩
        rw [List.map_cons, List.map_cons, List.cons_prefix_cons]
        exact fun hp => hab hp.1.symm

theorem diff_eq_zero {p1 p2 : Nat} : diff mem p1 p2 = 0 ↔ tolower (mem p1) = tolower (mem p2) := by
  rw [diff, ← UInt8.toNat_inj]
  omega

/-- Before the end of both, the next bytes decide. -/
theorem CStr.diff_cons {p1 p2 : Nat} {a b : UInt8} {l1 l2 : Bytes} (h1 : CStr mem p1 (a :: l1))
    (h2 : CStr mem p2 (b :: l2)) : diff mem p1 p2 = 0 ↔ tolower a = tolower b := by
  rw [diff_eq_zero, h1.head, h2.head]

theorem CStr.diff_nil {p1 p2 : Nat} {a : UInt8} {l1 : Bytes} (h1 : CStr mem p1 (a :: l1))
    (h2 : CStr mem p2 []) : diff mem p1 p2 ≠ 0 := by
  have hnul : mem p2 = 0 := h2.nul
  rw [Ne, diff_eq_zero, hnul, h1.head]
  exact fun h0 => h1.head_ne (tolower_eq_zero.mp h0)

theorem casecmpLoop_spec : ∀ {l1 l2 : Bytes} {fuel p1 p2 : Nat}, CStr mem p1 l1 →
    CStr mem p2 l2 → l1.length < fuel →
      ZeroIff (casecmpLoop mem fuel p1 p2) (folded l1 = folded l2)
  | _, _, 0, _, _, _, _, hf => absurd hf (Nat.not_lt_zero _)
  | [], l2, fuel + 1, p1, p2, h1, h2, _ => by
      have hnul : mem p1 = 0 := h1.nul
      refine ⟨diff mem p1 p2, by rw [casecmpLoop, if_neg fun hc => hc.2 hnul], ?_⟩
      rw [diff_eq_zero, hnul, eq_comm, tolower_eq_tolower_zero]
      cases l2 with
      | nil => exact iff_of_true h2.nul rfl
      | cons b l2 => exact iff_of_false (h2.head ▸ h2.head_ne) (by simp)
  | a :: l1, [], fuel + 1, p1, p2, h1, h2, _ => by
      have hne := h1.diff_nil h2
      refine ⟨diff mem p1 p2, ?_, iff_of_false hne (by simp)⟩
      rw [casecmpLoop]
      exact if_neg fun hc => hne hc.1
  | a :: l1, b :: l2, fuel + 1, p1, p2, h1, h2, hf => by
      have hdiff := h1.diff_cons h2
      rw [casecmpLoop]
      by_cases hab : tolower a = tolower b
      · obtain ⟨v, hr, hv⟩ := casecmpLoop_spec h1.tail h2.tail (Nat.lt_of_succ_lt_succ hf)
        refine ⟨v, ?_, ?_⟩
        · exact (if_pos ⟨hdiff.mpr hab, h1.head ▸ h1.head_ne⟩).trans hr
        · rw [hv, folded_cons, folded_cons, List.cons.injEq]
          exact (and_iff_right hab).symm
      · refine ⟨diff mem p1 p2, if_neg fun hc => hab (hdiff.mp hc.1), ?_⟩
        rw [hdiff, folded_cons, folded_cons, List.cons.injEq]
        exact iff_of_false hab fun h => hab h.1

theorem ncasecmpLoop_spec : ∀ {l1 l2 : Bytes} {n p1 p2 : Nat}, CStr mem p1 l1 →
    CStr mem p2 l2 →
      (ncasecmpLoop mem 0 n p1 p2 = 0 ↔ (folded l1).take n = (folded l2).take n)
  | _, _, 0, _, _, _, _ => by simp [ncasecmpLoop]
  | [], l2, n + 1, p1, p2, h1, h2 => by
      have hnul : mem p1 = 0 := h1.nul
      rw [ncasecmpLoop, if_neg fun hc => hc.2 hnul, diff_eq_zero, hnul, eq_comm,
        tolower_eq_tolower_zero]
      cases l2 with
      | nil => exact iff_of_true h2.nul rfl
      | cons b l2 => exact iff_of_false (h2.head ▸ h2.head_ne) (by simp)
  | a :: l1, [], n + 1, p1, p2, h1, h2 => by
      have hne := h1.diff_nil h2
      rw [ncasecmpLoop, if_neg fun hc => hne hc.1]
      exact iff_of_false hne (by simp)
  | a :: l1, b :: l2, n + 1, p1, p2, h1, h2 => by
      have hdiff := h1.diff_cons h2
      rw [ncasecmpLoop, folded_cons, folded_cons, List.take_succ_cons, List.take_succ_cons,
        List.cons.injEq]
      by_cases hab : tolower a = tolower b
      · rw [if_pos ⟨hdiff.mpr hab, h1.head ▸ h1.head_ne⟩, hdiff.mpr hab,
          ncasecmpLoop_spec h1.tail h2.tail]
        exact (and_iff_right hab).symm
      · rw [if_neg fun hc => hab (hdiff.mp hc.1), hdiff]
        exact iff_of_false hab fun h => hab h.1

/-- The loop stops inside both strings only at a difference. -/
theorem ncasecmpeqLoop_spec : ∀ {l1 l2 : Bytes} {n p1 p2 : Nat}, CStr mem p1 l1 →
    CStr mem p2 l2 →
      ((mem (ncasecmpeqLoop mem n p1 p2).1 ≠ 0 ∧ (ncasecmpeqLoop mem n p1 p2).2 ≠ 0) ↔
        ¬(folded l1).take n <+: (folded l2).take n)
  | _, _, 0, _, _, _, _ => by simp [ncasecmpeqLoop]
  | [], l2, n + 1, p1, p2, h1, _ => by
      have hnul : mem p1 = 0 := h1.nul
      rw [ncasecmpeqLoop, if_neg fun hc => hc.2 hnul]
      simp [hnul]
  | a :: l1, [], n + 1, p1, p2, h1, h2 => by
      have hnul : mem p2 = 0 := h2.nul
      rw [ncasecmpeqLoop, if_neg]
      · refine iff_of_true ⟨?_, Nat.succ_ne_zero n⟩ (by simp)
        exact h1.head ▸ h1.head_ne
      · rintro ⟨heq, hne⟩
        rw [hnul] at heq
        exact hne (tolower_eq_zero.mp heq)
  | a :: l1, b :: l2, n + 1, p1, p2, h1, h2 => by
      rw [ncasecmpeqLoop, h1.head, h2.head, folded_cons, folded_cons, List.take_succ_cons,
        List.take_succ_cons, List.cons_prefix_cons]
      by_cases hab : tolower a = tolower b
      · rw [if_pos ⟨hab, h1.head_ne⟩, ncasecmpeqLoop_spec h1.tail h2.tail]
        exact not_congr (and_iff_right hab).symm
      · rw [if_neg fun hc => hab hc.1]
        refine iff_of_true ⟨?_, Nat.succ_ne_zero n⟩ fun h => hab h.1
        exact h1.head ▸ h1.head_ne

/-! ## When they are right -/

theorem schar_eq_zero {x : UInt8} : schar x = 0 ↔ x = 0 := by
  have hx := x.toNat_lt
  rw [schar, ← UInt8.toNat_inj, UInt8.toNat_zero]
  split <;> omega

variable {s1 s2 : Nat} {l1 l2 : Bytes}

theorem cmpeqLoop_from (h1 : CStr mem s1 l1) (h2 : CStr mem s2 l2) {canon : UInt8 → UInt8}
    (hcanon : ∀ x, canon x = 0 ↔ x = 0) :
    ∃ q, cmpeqLoop canon mem (sizeMax + 1) s1 s2 = .ok (q + 1) ∧
      (mem q = 0 ↔ l2.map canon <+: l1.map canon) := by
  have hfits := h1.fits
  exact cmpeqLoop_spec hcanon h1 h2 (by omega)

theorem strcmpeqLoop_spec (h1 : CStr mem s1 l1) (h2 : CStr mem s2 l2) :
    ZeroIff (strcmpeqLoop mem s1 s2) (l2 <+: l1) := by
  obtain ⟨q, hr, hq⟩ := @cmpeqLoop_from mem s1 s2 l1 l2 h1 h2 id fun _ => Iff.rfl
  rw [List.map_id, List.map_id] at hq
  exact ⟨schar (mem q), by rw [strcmpeqLoop, hr]; rfl, schar_eq_zero.trans hq⟩

theorem strcasecmpeqLoop_spec (h1 : CStr mem s1 l1) (h2 : CStr mem s2 l2) :
    ZeroIff (strcasecmpeqLoop mem s1 s2) (folded l2 <+: folded l1) := by
  obtain ⟨q, hr, hq⟩ := @cmpeqLoop_from mem s1 s2 l1 l2 h1 h2 tolower fun _ => tolower_eq_zero
  refine ⟨(mem q).toNat, by rw [strcasecmpeqLoop, hr]; rfl, ?_⟩
  rw [folded, folded, ← hq, ← UInt8.toNat_inj]
  exact Int.natCast_eq_zero

theorem strcasecmpeq_eq_loop (mem : Mem) (s1 s2 : Nat) :
    strcasecmpeq mem s1 s2 = strcasecmpeqLoop mem s1 s2 := rfl

theorem strncasecmpeq_spec (h1 : CStr mem s1 l1) (h2 : CStr mem s2 l2) (n : Nat) :
    ZeroIff (strncasecmpeq mem s1 s2 n) ((folded l1).take n <+: (folded l2).take n) := by
  rw [strncasecmpeq]
  by_cases hn : n = 0
  · exact ⟨0, if_pos hn, by simp [hn]⟩
  · rw [if_neg hn]
    refine ⟨_, rfl, ?_⟩
    have hspec := @ncasecmpeqLoop_spec mem l1 l2 n s1 s2 h1 h2
    by_cases hin : mem (ncasecmpeqLoop mem n s1 s2).1 ≠ 0 ∧ (ncasecmpeqLoop mem n s1 s2).2 ≠ 0
    · rw [if_pos hin]
      exact iff_of_false (by decide) (hspec.mp hin)
    · rw [if_neg hin]
      exact iff_of_true rfl (Classical.not_not.mp (mt hspec.mpr hin))

theorem strcasecmp_spec (h1 : CStr mem s1 l1) (h2 : CStr mem s2 l2) :
    ZeroIff (strcasecmp mem s1 s2) (folded l1 = folded l2) := by
  have hfits := h1.fits
  exact casecmpLoop_spec h1 h2 (by omega)

theorem strncasecmp_spec (h1 : CStr mem s1 l1) (h2 : CStr mem s2 l2) (n : Nat) :
    ZeroIff (strncasecmp mem s1 s2 n) ((folded l1).take n = (folded l2).take n) :=
  ⟨_, rfl, ncasecmpLoop_spec h1 h2⟩

/-- A prefix that is shorter. -/
def ProperPrefix (l m : Bytes) : Prop := l <+: m ∧ l ≠ m

instance (l m : Bytes) : Decidable (ProperPrefix l m) := inferInstanceAs (Decidable (_ ∧ _))

/-- To decide whether `l` is a prefix of `m` is to decide whether they are
equal, but for a proper prefix. -/
theorem ZeroIff.eq_iff_of_leading {r : Run Int} {l m : Bytes} (h : ZeroIff r (l <+: m)) :
    ZeroIff r (m = l) ↔ ¬ProperPrefix l m := by
  rw [h.congr_iff, ProperPrefix]
  constructor
  · rintro hiff ⟨hp, hne⟩
    exact hne (hiff.mp hp).symm
  · intro hno
    constructor
    · intro hp
      by_contra hne
      exact hno ⟨hp, Ne.symm hne⟩
    · rintro rfl
      exact List.prefix_refl _

/-- Exactly when the `eq` comparators decide equality, as `jstr_strcasecmp` and
`jstr_strncasecmp` always do: not when the second string is a proper prefix
of the first, or, within the bound, the first of the second. -/
theorem cmpeq_right_iff (h1 : CStr mem s1 l1) (h2 : CStr mem s2 l2) (n : Nat) :
    (ZeroIff (strcmpeqLoop mem s1 s2) (l1 = l2) ↔ ¬ProperPrefix l2 l1) ∧
      (ZeroIff (strcasecmpeqLoop mem s1 s2) (folded l1 = folded l2) ↔
        ¬ProperPrefix (folded l2) (folded l1)) ∧
      (ZeroIff (strcasecmpeq mem s1 s2) (folded l1 = folded l2) ↔
        ¬ProperPrefix (folded l2) (folded l1)) ∧
      (ZeroIff (strncasecmpeq mem s1 s2 n) ((folded l1).take n = (folded l2).take n) ↔
        ¬ProperPrefix ((folded l1).take n) ((folded l2).take n)) ∧
      ZeroIff (strcasecmp mem s1 s2) (folded l1 = folded l2) ∧
      ZeroIff (strncasecmp mem s1 s2 n) ((folded l1).take n = (folded l2).take n) := by
  have hcase := (strcasecmpeqLoop_spec h1 h2).eq_iff_of_leading
  refine ⟨(strcmpeqLoop_spec h1 h2).eq_iff_of_leading, hcase, ?_, ?_, strcasecmp_spec h1 h2,
    strncasecmp_spec h1 h2 n⟩
  · rw [strcasecmpeq_eq_loop]
    exact hcase
  · rw [eq_comm]
    exact (strncasecmpeq_spec h1 h2 n).eq_iff_of_leading

theorem cstr_ab : CStr (memOf [97, 98, 0, 65, 0]) 0 [97, 98] :=
  ⟨by decide, by decide, by decide, by decide⟩

theorem cstr_A : CStr (memOf [97, 98, 0, 65, 0]) 3 [65] :=
  ⟨by decide, by decide, by decide, by decide⟩

/-- "ab" and "A". -/
theorem cmpeq_right_iff_ab :
    (ZeroIff (strcmpeqLoop (memOf [97, 98, 0, 65, 0]) 0 3) (([97, 98] : Bytes) = [65]) ↔
        ¬ProperPrefix [65] [97, 98]) ∧
      (ZeroIff (strcasecmpeqLoop (memOf [97, 98, 0, 65, 0]) 0 3) (folded [97, 98] = folded [65]) ↔
        ¬ProperPrefix (folded [65]) (folded [97, 98])) ∧
      (ZeroIff (strcasecmpeq (memOf [97, 98, 0, 65, 0]) 0 3) (folded [97, 98] = folded [65]) ↔
        ¬ProperPrefix (folded [65]) (folded [97, 98])) ∧
      (ZeroIff (strncasecmpeq (memOf [97, 98, 0, 65, 0]) 0 3 2)
          ((folded [97, 98]).take 2 = (folded [65]).take 2) ↔
        ¬ProperPrefix ((folded [97, 98]).take 2) ((folded [65]).take 2)) ∧
      ZeroIff (strcasecmp (memOf [97, 98, 0, 65, 0]) 0 3) (folded [97, 98] = folded [65]) ∧
      ZeroIff (strncasecmp (memOf [97, 98, 0, 65, 0]) 0 3 2)
        ((folded [97, 98]).take 2 = (folded [65]).take 2) :=
  cmpeq_right_iff cstr_ab cstr_A 2

/-- "ab" and "A" come out equal, "A" and "ab" do not; within two bytes it is
the other way round. -/
theorem not_cmpeq_right :
    ¬∀ (mem : Mem) (s1 s2 : Nat) (l1 l2 : Bytes) (n : Nat), CStr mem s1 l1 → CStr mem s2 l2 →
      ZeroIff (strcmpeqLoop mem s1 s2) (l1 = l2) ∧
        ZeroIff (strcasecmpeqLoop mem s1 s2) (folded l1 = folded l2) ∧
        ZeroIff (strcasecmpeq mem s1 s2) (folded l1 = folded l2) ∧
        ZeroIff (strncasecmpeq mem s1 s2 n) ((folded l1).take n = (folded l2).take n) := by
  intro hall
  obtain ⟨v, hv, hzero⟩ := (hall _ 0 3 _ _ 2 cstr_ab cstr_A).2.1
  have hres : strcasecmpeqLoop (memOf [97, 98, 0, 65, 0]) 0 3 = .ok 0 := by decide
  cases hres.symm.trans hv
  exact absurd (hzero.mp rfl) (by decide)

end Jstr
