import Mathlib.Data.Nat.Digits.Lemmas
import Mathlib.Tactic

/-!
# Numerals

The digits of a number as a program emits them: least significant first,
and one digit for zero (`lsd`); and a separator put behind every third
letter that another one follows (`groups`).

- `lsd_step`: what one division yields;
- `lsd_length_le_iff`, `lsd_length_le`: how many digits there are;
- `horner_lsd`: the digits read back from the most significant one on;
- `length_groups`: how many letters with the separators;
- `grouped`: the same numeral from its first letter on, the separators
  counted from its last (`getElem?_reverse_grouped`).
-/

namespace Numeral

/-- The digits of `n` in base `b`, least significant first. Zero has one. -/
def lsd (b n : Nat) : List Nat := if n = 0 then [0] else Nat.digits b n

variable {b n k l : Nat}

theorem lsd_of_lt (h : n < b) : lsd b n = [n] := by
  rw [lsd]
  split
  · rename_i h0
    rw [h0]
  · rename_i h0
    exact Nat.digits_of_lt b n h0 h

theorem lsd_step (hb : 1 < b) (h : b ≤ n) : lsd b n = n % b :: lsd b (n / b) := by
  have hdiv : n / b ≠ 0 := by
    have := Nat.div_pos h (by omega)
    omega
  rw [lsd, lsd, if_neg (by omega), if_neg hdiv, Nat.digits_def' hb (by omega)]

theorem lsd_ne_nil (b n : Nat) : lsd b n ≠ [] := by
  rw [lsd]
  split
  · exact List.cons_ne_nil 0 []
  · rename_i h0
    exact Nat.digits_ne_nil_iff_ne_zero.mpr h0

theorem lsd_length_le_iff (hb : 1 < b) (hk : 0 < k) : (lsd b n).length ≤ k ↔ n < b ^ k := by
  rw [lsd]
  split
  · rename_i h0
    rw [h0, List.length_singleton]
    exact iff_of_true hk (Nat.pow_pos (by omega))
  · exact Nat.digits_length_le_iff hb n

/-- A number of `w` bits has one digit for every `l` bits at most, if a digit
has at least `l`. -/
theorem lsd_length_le (hl : 0 < l) (hb : 2 ^ l ≤ b) (hn : n < 2 ^ k) :
    (lsd b n).length ≤ (k - 1) / l + 1 := by
  have hb1 : 1 < b := lt_of_lt_of_le (Nat.one_lt_two_pow (by omega)) hb
  rw [lsd_length_le_iff hb1 (Nat.succ_pos _)]
  have hexp : k ≤ l * ((k - 1) / l + 1) := by
    have := Nat.div_add_mod (k - 1) l
    have := Nat.mod_lt (k - 1) hl
    rw [Nat.mul_add, Nat.mul_one]
    omega
  calc n < 2 ^ k := hn
    _ ≤ 2 ^ (l * ((k - 1) / l + 1)) := Nat.pow_le_pow_right (by omega) hexp
    _ = (2 ^ l) ^ ((k - 1) / l + 1) := Nat.pow_mul 2 l _
    _ ≤ b ^ ((k - 1) / l + 1) := Nat.pow_le_pow_left hb _

theorem lsd_lt (hb : 1 < b) {d : Nat} (h : d ∈ lsd b n) : d < b := by
  rw [lsd] at h
  split at h
  · rw [List.mem_singleton.mp h]
    omega
  · exact Nat.digits_lt_base hb h

/-- The most significant digit is zero in the numeral of zero only. -/
theorem lsd_getLast (b n : Nat) (h : (lsd b n).getLast? = some 0) : lsd b n = [0] := by
  by_cases h0 : n = 0
  · rw [lsd, if_pos h0]
  · rw [lsd, if_neg h0] at h
    have hne : Nat.digits b n ≠ [] := Nat.digits_ne_nil_iff_ne_zero.mpr h0
    rw [List.getLast?_eq_getLast_of_ne_nil hne, Option.some.injEq] at h
    exact absurd h (Nat.getLast_digit_ne_zero b h0)

/-- The value of digits read from the most significant one on, `n` being the
value of those before. -/
def horner (b n : Nat) (l : List Nat) : Nat := l.foldl (fun n d => n * b + d) n

@[simp] theorem horner_nil (b n : Nat) : horner b n [] = n := rfl

@[simp] theorem horner_cons (b n d : Nat) (l : List Nat) :
    horner b n (d :: l) = horner b (n * b + d) l := rfl

theorem horner_append (b n : Nat) (l m : List Nat) :
    horner b n (l ++ m) = horner b (horner b n l) m := List.foldl_append

/-- No digit makes the value less. -/
theorem le_horner (hb : 0 < b) : ∀ (l : List Nat) (n : Nat), n ≤ horner b n l
  | [], n => Nat.le_refl n
  | d :: l, n =>
      calc n ≤ n * b := Nat.le_mul_of_pos_right n hb
        _ ≤ n * b + d := Nat.le_add_right _ _
        _ ≤ horner b n (d :: l) := le_horner hb l _

theorem horner_reverse (b : Nat) (l : List Nat) : horner b 0 l.reverse = Nat.ofDigits b l := by
  induction l with
  | nil => rfl
  | cons d l ih =>
      rw [List.reverse_cons, horner_append, ih, horner_cons, horner_nil, Nat.ofDigits_cons,
        Nat.mul_comm, Nat.add_comm]

theorem horner_lsd (b n : Nat) : horner b 0 (lsd b n).reverse = n := by
  rw [horner_reverse, lsd]
  split
  · rename_i h0
    rw [h0]
    rfl
  · exact Nat.ofDigits_digits b n

variable {α : Type*}

/-- `sep` behind every third letter, `i` letters of a group being there
already, but not behind the last. -/
def groups (sep : α) : Nat → List α → List α
  | _, [] => []
  | _, [a] => [a]
  | i, a :: c :: s =>
    if i + 1 = 3 then a :: sep :: groups sep 0 (c :: s) else a :: groups sep (i + 1) (c :: s)

theorem groups_cons (sep a : α) {i : Nat} {s : List α} (h : s ≠ []) : groups sep i (a :: s)
    = a :: if i + 1 = 3 then sep :: groups sep 0 s else groups sep (i + 1) s := by
  cases s with
  | nil => exact absurd rfl h
  | cons c s =>
      rw [groups]
      split <;> rfl

theorem length_groups (sep : α) {s : List α} : ∀ {i : Nat}, i < 3 → s ≠ [] →
    (groups sep i s).length = s.length + (i + s.length - 1) / 3 := by
  induction s with
  | nil => exact fun _ h => absurd rfl h
  | cons a s ih =>
      intro i hi _
      cases s with
      | nil =>
          simp only [groups, List.length_singleton]
          omega
      | cons c s =>
          rw [groups]
          split
          · rw [List.length_cons, List.length_cons, ih (by omega) (List.cons_ne_nil c s)]
            simp only [List.length_cons]
            omega
          · rw [List.length_cons, ih (by omega) (List.cons_ne_nil c s)]
            simp only [List.length_cons]
            omega

/-! ## From the left -/

/-- `sep` behind every letter that a multiple of three letters, but not none,
is still to follow. -/
def grouped (sep : α) : List α → List α
  | [] => []
  | a :: s => a :: if s ≠ [] ∧ s.length % 3 = 0 then sep :: grouped sep s else grouped sep s

theorem groups_append_singleton (sep a : α) {s : List α} (hs : s ≠ []) : ∀ {i : Nat}, i < 3 →
    groups sep i (s ++ [a])
      = groups sep i s ++ if (i + s.length) % 3 = 0 then [sep, a] else [a] := by
  induction s with
  | nil => exact absurd rfl hs
  | cons c s ih =>
      intro i hi
      rw [List.cons_append, groups_cons sep c (List.append_ne_nil_of_right_ne_nil s
        (List.cons_ne_nil a [])), List.length_cons]
      by_cases hnil : s = []
      · rw [hnil]
        by_cases h3 : i + 1 = 3
        · rw [if_pos h3, if_pos (by rw [List.length_nil]; omega)]
          rfl
        · rw [if_neg h3, if_neg (by rw [List.length_nil]; omega)]
          rfl
      · rw [groups_cons sep c hnil]
        by_cases h3 : i + 1 = 3
        · have hmod : (i + (s.length + 1)) % 3 = (0 + s.length) % 3 := by omega
          rw [if_pos h3, if_pos h3, ih hnil (by decide), hmod]
          rfl
        · have hmod : (i + (s.length + 1)) % 3 = (i + 1 + s.length) % 3 := by omega
          rw [if_neg h3, if_neg h3, ih hnil (by omega), hmod]
          rfl

/-- The letters written from the last on, reversed. -/
theorem reverse_groups_reverse (sep : α) (s : List α) :
    (groups sep 0 s.reverse).reverse = grouped sep s := by
  induction s with
  | nil => rfl
  | cons a s ih =>
      rw [grouped, ← ih, List.reverse_cons]
      by_cases hs : s = []
      · rw [hs, if_neg fun h => h.1 rfl]
        rfl
      · rw [groups_append_singleton sep a (fun h => hs (List.reverse_eq_nil_iff.mp h)) (by decide),
          List.reverse_append, Nat.zero_add, List.length_reverse]
        by_cases h3 : s.length % 3 = 0
        · rw [if_pos h3, if_pos ⟨hs, h3⟩]
          rfl
        · rw [if_neg h3, if_neg fun h => h3 h.2]
          rfl

theorem length_grouped (sep : α) (s : List α) :
    (grouped sep s).length = s.length + (s.length - 1) / 3 := by
  induction s with
  | nil => simp [grouped]
  | cons a s ih =>
      rw [grouped, List.length_cons, List.length_cons]
      split
      · rename_i h
        have := List.length_pos_iff.mpr h.1
        rw [List.length_cons, ih]
        omega
      · rename_i h
        by_cases hs : s = []
        · rw [hs]
          simp [grouped]
        · have := List.length_pos_iff.mpr hs
          have : s.length % 3 ≠ 0 := fun h3 => h ⟨hs, h3⟩
          rw [ih]
          omega

/-- Counted from the last letter, every fourth one is the separator. -/
theorem getElem?_reverse_grouped (sep : α) (s : List α) {i : Nat}
    (hi : i < (grouped sep s).length) : (grouped sep s).reverse[i]?
      = if i % 4 = 3 then some sep else s.reverse[i - i / 4]? := by
  induction s with
  | nil => exact absurd hi (Nat.not_lt_zero i)
  | cons a s ih =>
      have hlen := length_grouped sep s
      rw [length_grouped, List.length_cons] at hi
      have hrev : (grouped sep (a :: s)).reverse = (grouped sep s).reverse
          ++ if s ≠ [] ∧ s.length % 3 = 0 then [sep, a] else [a] := by
        rw [grouped, List.reverse_cons]
        split
        · rw [List.reverse_cons, List.append_assoc]
          rfl
        · rfl
      rw [hrev, List.reverse_cons]
      by_cases hlt : i < (grouped sep s).length
      · rw [List.getElem?_append_left (by rwa [List.length_reverse]), ih hlt]
        split
        · rfl
        · rw [List.getElem?_append_left (by rw [List.length_reverse]; omega)]
      · rw [List.getElem?_append_right (by rw [List.length_reverse]; omega), List.length_reverse]
        by_cases h3 : s ≠ [] ∧ s.length % 3 = 0
        · have := List.length_pos_iff.mpr h3.1
          rw [if_pos h3]
          by_cases hfirst : i = (grouped sep s).length
          · rw [if_pos (by omega), hfirst, Nat.sub_self]
            rfl
          · rw [if_neg (by omega), List.getElem?_append_right (by rw [List.length_reverse]; omega),
              List.length_reverse, show i - (grouped sep s).length = 1 by omega,
              show i - i / 4 - s.length = 0 by omega]
            rfl
        · have hs : s = [] ∨ s.length % 3 ≠ 0 ∧ 0 < s.length := by
            by_cases hs : s = []
            · exact .inl hs
            · exact .inr ⟨fun h => h3 ⟨hs, h⟩, List.length_pos_iff.mpr hs⟩
          have hpos : s.length = 0 ∨ s.length % 3 ≠ 0 ∧ 0 < s.length :=
            hs.imp_left (by rintro rfl; rfl)
          rw [if_neg h3, if_neg (by omega),
            List.getElem?_append_right (by rw [List.length_reverse]; omega), List.length_reverse,
            show i - (grouped sep s).length = 0 by omega,
            show i - i / 4 - s.length = 0 by omega]

theorem head?_grouped (sep : α) (s : List α) : (grouped sep s).head? = s.head? := by
  cases s with
  | nil => rfl
  | cons a s => rw [grouped]; rfl

theorem filter_grouped [DecidableEq α] (sep : α) (s : List α) (h : sep ∉ s) :
    (grouped sep s).filter (· ≠ sep) = s := by
  induction s with
  | nil => rfl
  | cons a s ih =>
      rw [List.mem_cons, not_or] at h
      have ha : a ≠ sep := fun heq => h.1 heq.symm
      rw [grouped, List.filter_cons_of_pos (by simpa using ha)]
      split
      · rw [List.filter_cons_of_neg (by simp), ih h.2]
      · rw [ih h.2]

/-- Up to three letters in front of a multiple of three. -/
theorem grouped_append (sep : α) {s t : List α} (hs : s.length ≤ 3) (ht : t.length % 3 = 0) :
    grouped sep (s ++ t) = s ++ (if s ≠ [] ∧ t ≠ [] then [sep] else []) ++ grouped sep t := by
  match s with
  | [] => simp
  | [a] => by_cases h : t = [] <;> simp [grouped, h, ht]
  | [a, c] =>
      have h1 : (t.length + 1) % 3 ≠ 0 := by omega
      by_cases h : t = [] <;> simp [grouped, h, ht, h1]
  | [a, c, d] =>
      have h1 : (t.length + 1) % 3 ≠ 0 := by omega
      have h2 : (t.length + 1 + 1) % 3 ≠ 0 := by omega
      by_cases h : t = [] <;> simp [grouped, h, ht, h1, h2]
  | a :: c :: d :: e :: s =>
      simp only [List.length_cons] at hs
      omega

theorem grouped_of_le (sep : α) {s : List α} (hs : s.length ≤ 3) : grouped sep s = s := by
  have h := grouped_append sep hs (show ([] : List α).length % 3 = 0 from rfl)
  rwa [List.append_nil, if_neg fun h => h.2 rfl, List.append_nil, grouped, List.append_nil] at h

/-- From the left: the incomplete group, a separator behind it if there is one, and the
groups of three. -/
theorem exists_firstGroup (sep : α) {s : List α} (hs : 4 ≤ s.length) :
    ∃ t u, s = t ++ u ∧ t.length = s.length % 3 ∧ u.length = s.length - s.length % 3 ∧
      grouped sep s = t ++ (if t ≠ [] then [sep] else []) ++ grouped sep u := by
  have ht : (s.take (s.length % 3)).length = s.length % 3 := by
    rw [List.length_take, Nat.min_eq_left (Nat.mod_le _ _)]
  have hu : (s.drop (s.length % 3)).length = s.length - s.length % 3 := List.length_drop
  have hsplit := grouped_append sep (show (s.take (s.length % 3)).length ≤ 3 by omega)
    (show (s.drop (s.length % 3)).length % 3 = 0 by omega)
  have hne : s.drop (s.length % 3) ≠ [] := fun h => by
    rw [h, List.length_nil] at hu
    omega
  rw [List.take_append_drop] at hsplit
  refine ⟨_, _, (List.take_append_drop _ _).symm, ht, hu, hsplit.trans ?_⟩
  by_cases hnil : s.take (s.length % 3) = []
  · rw [if_neg fun h => h.1 hnil, if_neg (not_not.mpr hnil)]
  · rw [if_pos ⟨hnil, hne⟩, if_pos hnil]

end Numeral
