import Mathlib.Tactic

/-!
# Leftmost occurrences

The reference semantics of substring search, on lists: `OccursAt` says
where a text occurs, `search` is the leftmost occurrence as a plain scan,
and `search_eq_some_iff`/`search_eq_none_iff` reduce the scan to the
pointwise predicate. `Leftmost` and `Rightmost` state the same of any
predicate on offsets, `first` is the earlier of two results.
-/

namespace Words

variable {α : Type*}

/-! ## Occurrences -/

/-- `ne` occurs in `hs` at offset `i`. -/
def OccursAt (ne hs : List α) (i : Nat) : Prop :=
  i + ne.length ≤ hs.length ∧ ∀ k < ne.length, hs[i + k]? = ne[k]?

theorem occursAt_iff_isPrefix {ne hs : List α} {i : Nat} :
    OccursAt ne hs i ↔ i ≤ hs.length ∧ ne <+: hs.drop i := by
  constructor
  · rintro ⟨hlen, heq⟩
    refine ⟨by omega, List.prefix_iff_getElem?.mpr fun k hk => ?_⟩
    rw [List.getElem?_drop, heq k hk, List.getElem?_eq_getElem hk]
  · rintro ⟨hi, hpre⟩
    have hlen := hpre.length_le
    rw [List.length_drop] at hlen
    refine ⟨by omega, fun k hk => ?_⟩
    have := List.prefix_iff_getElem?.mp hpre k hk
    rwa [List.getElem?_drop, ← List.getElem?_eq_getElem hk] at this

theorem OccursAt.eq_append {ne hs : List α} {i : Nat} (h : OccursAt ne hs i) :
    hs = hs.take i ++ ne ++ hs.drop (i + ne.length) := by
  obtain ⟨-, t, ht⟩ := occursAt_iff_isPrefix.mp h
  have : hs.drop (i + ne.length) = t := by
    rw [← List.drop_drop, ← ht, List.drop_left]
  rw [this, List.append_assoc, ht, List.take_append_drop]

theorem occursAt_take {ne hs : List α} {i m : Nat} (hm : m ≤ hs.length) :
    OccursAt ne (hs.take m) i ↔ OccursAt ne hs i ∧ i + ne.length ≤ m := by
  have hlen : (hs.take m).length = m := by rw [List.length_take]; omega
  constructor
  · rintro ⟨h, heq⟩
    refine ⟨⟨by omega, fun k hk => ?_⟩, by omega⟩
    rw [← heq k hk, List.getElem?_take_of_lt (by omega)]
  · rintro ⟨⟨h, heq⟩, him⟩
    refine ⟨by omega, fun k hk => ?_⟩
    rw [← heq k hk, List.getElem?_take_of_lt (by omega)]

theorem occursAt_drop {ne hs : List α} {i m : Nat} (hm : m ≤ hs.length) :
    OccursAt ne (hs.drop m) i ↔ OccursAt ne hs (m + i) := by
  simp only [OccursAt, List.length_drop, List.getElem?_drop, ← Nat.add_assoc]
  constructor
  · rintro ⟨h, heq⟩; exact ⟨by omega, heq⟩
  · rintro ⟨h, heq⟩; exact ⟨by omega, heq⟩

variable [DecidableEq α]

/-- The leftmost occurrence of `ne`, by trying every offset in turn. -/
def search (ne : List α) : List α → Option Nat
  | [] => if ne = [] then some 0 else none
  | c :: cs => if ne.isPrefixOf (c :: cs) then some 0 else (search ne cs).map (· + 1)

theorem search_eq_some_iff {ne : List α} : ∀ {hs : List α} {i : Nat},
    search ne hs = some i ↔ OccursAt ne hs i ∧ ∀ j < i, ¬OccursAt ne hs j
  | [], i => by
      simp only [search, OccursAt, List.length_nil]
      by_cases hne : ne = []
      · subst hne
        rw [if_pos rfl, Option.some.injEq]
        constructor
        · rintro rfl; exact ⟨by simp, fun j hj => absurd hj (Nat.not_lt_zero j)⟩
        · rintro ⟨⟨hi, -⟩, -⟩; simp at hi; omega
      · have := List.length_pos_of_ne_nil hne
        simp [hne]
  | c :: cs, i => by
      rw [search]
      by_cases hp : ne.isPrefixOf (c :: cs)
      · have h0 : OccursAt ne (c :: cs) 0 :=
          occursAt_iff_isPrefix.mpr ⟨Nat.zero_le _, List.isPrefixOf_iff_prefix.mp hp⟩
        rw [if_pos hp, Option.some.injEq]
        constructor
        · rintro rfl; exact ⟨h0, fun j hj => absurd hj (Nat.not_lt_zero j)⟩
        · rintro ⟨-, hmin⟩
          by_contra hi
          exact hmin 0 (by omega) h0
      · have h0 : ¬OccursAt ne (c :: cs) 0 := fun h =>
          hp (List.isPrefixOf_iff_prefix.mpr (occursAt_iff_isPrefix.mp h).2)
        have hshift : ∀ j, OccursAt ne (c :: cs) (j + 1) ↔ OccursAt ne cs j := fun j => by
          have : OccursAt ne ((c :: cs).drop 1) j ↔ OccursAt ne (c :: cs) (1 + j) :=
            occursAt_drop (by simp)
          rwa [List.drop_one, List.tail_cons, Nat.add_comm 1 j, Iff.comm] at this
        rw [if_neg hp, Option.map_eq_some_iff]
        constructor
        · rintro ⟨k, hk, rfl⟩
          obtain ⟨hocc, hmin⟩ := search_eq_some_iff.mp hk
          refine ⟨(hshift k).mpr hocc, fun j hj => ?_⟩
          cases j with
          | zero => exact h0
          | succ j => exact fun h => hmin j (by omega) ((hshift j).mp h)
        · rintro ⟨hocc, hmin⟩
          cases i with
          | zero => exact absurd hocc h0
          | succ i =>
              exact ⟨i, search_eq_some_iff.mpr ⟨(hshift i).mp hocc, fun j hj h =>
                hmin (j + 1) (by omega) ((hshift j).mpr h)⟩, rfl⟩

theorem search_eq_none_iff {ne hs : List α} :
    search ne hs = none ↔ ∀ i, ¬OccursAt ne hs i := by
  constructor
  · intro h i hocc
    -- the least occurrence would be found
    induction i using Nat.strong_induction_on with
    | _ i ih =>
        have := search_eq_some_iff.mpr ⟨hocc, fun j hj hj' => ih j hj hj'⟩
        rw [h] at this
        cases this
  · intro h
    cases hs : search ne hs with
    | none => rfl
    | some i => exact absurd (search_eq_some_iff.mp hs).1 (h i)

/-- `r` is the least offset with `P`, if there is one. -/
def Leftmost (P : Nat → Prop) : Option Nat → Prop
  | some i => P i ∧ ∀ j < i, ¬P j
  | none => ∀ i, ¬P i

/-- `r` is the greatest offset with `P`, if there is one. -/
def Rightmost (P : Nat → Prop) : Option Nat → Prop
  | some i => P i ∧ ∀ j > i, ¬P j
  | none => ∀ i, ¬P i

theorem Leftmost.unique {P : Nat → Prop} {r r' : Option Nat} (h : Leftmost P r)
    (h' : Leftmost P r') : r = r' := by
  cases r with
  | none =>
      cases r' with
      | none => rfl
      | some k => exact absurd h'.1 (h k)
  | some i =>
      cases r' with
      | none => exact absurd h.1 (h' i)
      | some k =>
          rcases Nat.lt_trichotomy i k with hlt | rfl | hgt
          · exact absurd h.1 (h'.2 i hlt)
          · rfl
          · exact absurd h'.1 (h.2 k hgt)

theorem Rightmost.unique {P : Nat → Prop} {r r' : Option Nat} (h : Rightmost P r)
    (h' : Rightmost P r') : r = r' := by
  cases r with
  | none =>
      cases r' with
      | none => rfl
      | some k => exact absurd h'.1 (h k)
  | some i =>
      cases r' with
      | none => exact absurd h.1 (h' i)
      | some k =>
          rcases Nat.lt_trichotomy i k with hlt | rfl | hgt
          · exact absurd h'.1 (h.2 k hlt)
          · rfl
          · exact absurd h.1 (h'.2 i hgt)

theorem search_eq_iff_leftmost {ne hs : List α} {r : Option Nat} :
    search ne hs = r ↔ Leftmost (OccursAt ne hs) r := by
  cases r with
  | none => exact search_eq_none_iff
  | some i => exact search_eq_some_iff

theorem Leftmost.congr {P Q : Nat → Prop} (h : ∀ i, P i ↔ Q i) {r : Option Nat}
    (hr : Leftmost P r) : Leftmost Q r := by
  rwa [show Q = P from funext fun i => propext (h i).symm]

theorem Rightmost.congr {P Q : Nat → Prop} (h : ∀ i, P i ↔ Q i) {r : Option Nat}
    (hr : Rightmost P r) : Rightmost Q r := by
  rwa [show Q = P from funext fun i => propext (h i).symm]

/-- The earlier of two results. -/
def first : Option Nat → Option Nat → Option Nat
  | none, r => r
  | some i, none => some i
  | some i, some j => if i < j then some i else some j

theorem first_map (a : Nat) (r r' : Option Nat) :
    first (r.map (a + ·)) (r'.map (a + ·)) = (first r r').map (a + ·) := by
  cases r with
  | none => rfl
  | some i =>
      cases r' with
      | none => rfl
      | some j =>
          simp only [Option.map_some, first, Nat.add_lt_add_iff_left]
          exact (apply_ite (Option.map (a + ·)) (i < j) (some i) (some j)).symm

theorem Leftmost.or {P Q : Nat → Prop} {r r' : Option Nat} (h : Leftmost P r)
    (h' : Leftmost Q r') : Leftmost (fun i => P i ∨ Q i) (first r r') := by
  cases r with
  | none =>
      cases r' with
      | none => exact fun i hi => hi.elim (h i) (h' i)
      | some j => exact ⟨Or.inr h'.1, fun k hk hk' => hk'.elim (h k) (h'.2 k hk)⟩
  | some i =>
      cases r' with
      | none => exact ⟨Or.inl h.1, fun k hk hk' => hk'.elim (h.2 k hk) (h' k)⟩
      | some j =>
          rw [first]
          by_cases hij : i < j
          · rw [if_pos hij]
            exact ⟨Or.inl h.1, fun k hk hk' => hk'.elim (h.2 k hk) (h'.2 k (by omega))⟩
          · rw [if_neg hij]
            exact ⟨Or.inr h'.1, fun k hk hk' => hk'.elim (h.2 k (by omega)) (h'.2 k hk)⟩

/-- `r` is the least element of `[a, b)` with `P`, if there is one. -/
def LeftmostIn (P : Nat → Prop) (a b : Nat) : Option Nat → Prop
  | some i => (a ≤ i ∧ i < b ∧ P i) ∧ ∀ j, a ≤ j → j < i → ¬P j
  | none => ∀ j, a ≤ j → j < b → ¬P j

theorem LeftmostIn.append {P : Nat → Prop} {a b c : Nat} {r : Option Nat}
    (h : LeftmostIn P a b none) (hr : LeftmostIn P b c r) (hab : a ≤ b) :
    LeftmostIn P a c r := by
  cases r with
  | none =>
      intro j haj hjc
      rcases Nat.lt_or_ge j b with hjb | hbj
      · exact h j haj hjb
      · exact hr j hbj hjc
  | some i =>
      obtain ⟨⟨hbi, hic, hi⟩, hmin⟩ := hr
      refine ⟨⟨by omega, hic, hi⟩, fun j haj hji => ?_⟩
      rcases Nat.lt_or_ge j b with hjb | hbj
      · exact h j haj hjb
      · exact hmin j hbj hji

theorem LeftmostIn.mono {P : Nat → Prop} {a b c i : Nat} (h : LeftmostIn P a b (some i))
    (hbc : b ≤ c) : LeftmostIn P a c (some i) :=
  ⟨⟨h.1.1, by have := h.1.2.1; omega, h.1.2.2⟩, h.2⟩

end Words
