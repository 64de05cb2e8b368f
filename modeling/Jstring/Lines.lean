import Jstring.Chrnul
import Jstring.Lib.Yields

/-!
# Stepping from line to line

`jstr_linenext_len`, `jstr_linenextnul_len` and `jstr_linenextnul` of
`include/string.h`, and the loop `for (; *p; p = next(p))` over them.

With the length the next line is always found, and the loop meets
every line (`linenextnulLen_yields`). Without it a newline that is the
last byte is returned itself, where the loop stays for ever: both
agree, and both loops end, exactly on texts that do not end in a newline
(`linenext_right_iff`).
-/

namespace Jstr

open Iterators

/-! ## The functions -/

/-- `jstr_linenext_len`. -/
def linenextLen (mem : Mem) (start e : Nat) : Option Nat :=
  match memchr mem start 10 (e - start) with
  | some start => if mem (start + 1) ≠ 0 then some (start + 1) else none
  | none => none

/-- `jstr_linenextnul_len`. -/
def linenextnulLen (mem : Mem) (start e : Nat) : Run Nat :=
  match linenextLen mem start e with
  | some start => .ok start
  | none => .ok e

/-- `jstr_linenextnul`. -/
def linenextnul (cfg : ChrnulBuild) (mem : Mem) (s : Nat) : Run Nat := do
  let s ← strchrnul cfg mem s 10
  return if mem s ≠ 0 ∧ mem (s + 1) ≠ 0 then s + 1 else s

/-- One turn of `for (; *p; p = next(p))`. -/
def lineLoop (mem : Mem) (next : Nat → Run Nat) (p : Nat) : Run (Option (Nat × Nat)) :=
  if mem p = 0 then .ok none
  else do
    let q ← next p
    .ok (some (p, q))

/-! ## Lines of a text -/

/-- The offset of the first newline from `i` on, the length if there is none. -/
def newlineAt (l : Bytes) (i : Nat) : Nat := i + (l.drop i).idxOf 10

/-- The start of the line behind the one at offset `i`, or the end. -/
def lineAfter (l : Bytes) (i : Nat) : Nat :=
  if newlineAt l i + 1 < l.length then newlineAt l i + 1 else l.length

/-- From offset `i` on: `i`, and each offset behind a newline. -/
def startsFrom (l : Bytes) (i : Nat) : List Nat :=
  (List.range' i (l.length - i)).filter fun k => k = i ∨ l[k - 1]? = some 10

/-- Where the lines start: at the beginning and behind each newline that is
not the last byte. -/
def lineStarts (l : Bytes) : List Nat :=
  (List.range l.length).filter fun k => k = 0 ∨ l[k - 1]? = some 10

variable {mem : Mem} {s : Nat} {l : Bytes} {i : Nat}

theorem newlineAt_le (hi : i ≤ l.length) : newlineAt l i ≤ l.length := by
  have := @List.idxOf_le_length _ _ _ (l.drop i) 10
  rw [List.length_drop] at this
  rw [newlineAt]
  omega

theorem getElem?_newlineAt (h : newlineAt l i < l.length) : l[newlineAt l i]? = some 10 := by
  have hlt : (l.drop i).idxOf 10 < (l.drop i).length := by
    rw [newlineAt] at h
    rw [List.length_drop]
    omega
  have hget := @List.getElem_idxOf _ _ _ 10 (l.drop i) hlt
  rw [newlineAt, ← List.getElem?_drop, List.getElem?_eq_getElem hlt, hget]

theorem not_newline_before {k : Nat} (hik : i ≤ k) (hk : k < newlineAt l i) : l[k]? ≠ some 10 := by
  intro hget
  rw [newlineAt] at hk
  have hlt : k - i < (l.drop i).idxOf 10 := by omega
  have hle := @List.idxOf_le_length _ _ _ (l.drop i) 10
  have hne := @List.not_of_lt_findIdx _ (· == (10 : UInt8)) (l.drop i) (k - i) hlt
  rw [List.getElem_drop, beq_eq_false_iff_ne] at hne
  rw [show k = i + (k - i) by omega, List.getElem?_eq_some_iff] at hget
  exact hne hget.2

/-- At the end there is no line to come, before it the next start comes
first. -/
theorem startsFrom_eq (hi : i < l.length) :
    startsFrom l i
      = i :: if lineAfter l i = l.length then [] else startsFrom l (lineAfter l i) := by
  have hle := newlineAt_le (Nat.le_of_lt hi)
  have hge : i ≤ newlineAt l i := Nat.le_add_right _ _
  have hfirst : ∀ n ≤ newlineAt l i - i, (List.range' (i + 1) n).filter
      (fun k => k = i ∨ l[k - 1]? = some 10) = [] := by
    intro n hn
    refine List.filter_eq_nil_iff.mpr fun k hk => ?_
    rw [List.mem_range'_1] at hk
    have hne := @not_newline_before l i (k - 1) (by omega) (by omega)
    simpa using ⟨by omega, hne⟩
  rw [lineAfter]
  by_cases hlt : newlineAt l i + 1 < l.length
  · have hsplit : List.range' i (l.length - i) = i :: (List.range' (i + 1) (newlineAt l i - i)
        ++ List.range' (newlineAt l i + 1) (l.length - (newlineAt l i + 1))) := by
      rw [show newlineAt l i + 1 = i + 1 + (newlineAt l i - i) by omega, List.range'_append_1,
        ← List.range'_succ]
      congr 1
      omega
    have hrest : (List.range' (newlineAt l i + 1) (l.length - (newlineAt l i + 1))).filter
        (fun k => k = i ∨ l[k - 1]? = some 10) = startsFrom l (newlineAt l i + 1) := by
      rw [startsFrom]
      refine List.filter_congr fun k hk => ?_
      rw [List.mem_range'_1] at hk
      have hnl := @getElem?_newlineAt l i (by omega)
      have hki : k ≠ i := by omega
      by_cases hkn : k = newlineAt l i + 1
      · simp [hkn, hnl]
      · simp [hki, hkn]
    rw [if_pos hlt, if_neg (by omega), startsFrom, hsplit, List.filter_cons_of_pos (by simp),
      List.filter_append, hfirst _ (Nat.le_refl _), hrest, List.nil_append]
  · have hsplit : List.range' i (l.length - i) = i :: List.range' (i + 1) (l.length - (i + 1)) := by
      rw [← List.range'_succ]
      congr 1
      omega
    rw [if_neg hlt, if_pos rfl, startsFrom, hsplit, List.filter_cons_of_pos (by simp),
      hfirst _ (by omega)]

/-! ## Where a step leads -/

/-- The bytes at and behind the first newline: a newline or the terminator, and
behind it a byte of the text or the terminator. -/
theorem CStr.at_newline (h : CStr mem s l) (hi : i ≤ l.length) :
    (mem (s + newlineAt l i) = 0 ↔ newlineAt l i = l.length) ∧
      (newlineAt l i < l.length →
        (mem (s + newlineAt l i + 1) = 0 ↔ newlineAt l i + 1 = l.length)) := by
  refine ⟨h.eq_zero_iff (newlineAt_le hi), fun hlt => ?_⟩
  rw [Nat.add_assoc]
  exact h.eq_zero_iff hlt

/-- With the length: always the next line. -/
theorem CStr.linenextnulLen_eq (h : CStr mem s l) (hi : i ≤ l.length) :
    linenextnulLen mem (s + i) (s + l.length) = .ok (s + lineAfter l i) := by
  have hchr := memchr_eq_idxOf (h.bytes.drop hi) 10
  have hle := newlineAt_le hi
  obtain ⟨-, hbehind⟩ := h.at_newline hi
  rw [List.length_drop] at hchr
  rw [linenextnulLen, linenextLen, show s + l.length - (s + i) = l.length - i by omega, hchr]
  rw [newlineAt] at hle hbehind
  rw [lineAfter, newlineAt]
  by_cases hnone : (l.drop i).idxOf 10 = l.length - i
  · rw [if_pos hnone, if_neg (by omega)]
  · have hlt : i + (l.drop i).idxOf 10 < l.length := by omega
    simp only [if_neg hnone, Nat.add_assoc] at hbehind ⊢
    by_cases hlast : i + ((l.drop i).idxOf 10 + 1) = l.length
    · rw [if_neg (not_not_intro ((hbehind hlt).mpr hlast)), if_neg (by omega)]
    · rw [if_pos fun h0 => hlast ((hbehind hlt).mp h0), if_pos (by omega)]

/-- Without it: the newline itself when nothing is behind it. -/
theorem CStr.linenextnul_eq (h : CStr mem s l) (cfg : ChrnulBuild) (hi : i ≤ l.length) :
    linenextnul cfg mem (s + i) = .ok (s +
      if newlineAt l i + 1 < l.length then newlineAt l i + 1 else newlineAt l i) := by
  have hchr := (h.drop hi).strchrnul_eq cfg 10
  have hle := newlineAt_le hi
  obtain ⟨hnul, hbehind⟩ := h.at_newline hi
  rw [Nat.add_assoc, ← newlineAt] at hchr
  rw [linenextnul, hchr]
  simp only [bind, Except.bind, pure, Except.pure, Except.ok.injEq]
  by_cases hlt : newlineAt l i + 1 < l.length
  · rw [if_pos hlt, if_pos, Nat.add_assoc]
    refine ⟨fun h0 => ?_, fun h0 => ?_⟩
    · have := hnul.mp h0
      omega
    · have := (hbehind (by omega)).mp h0
      omega
  · rw [if_neg hlt, if_neg]
    rintro ⟨h1, h2⟩
    have hin : newlineAt l i < l.length := by
      have := mt hnul.mpr h1
      omega
    exact h2 ((hbehind hin).mpr (by omega))

/-- No newline is the last byte: the first newline from anywhere has a byte
behind it. -/
theorem newlineAt_ne_last (hlast : l.getLast? ≠ some 10) : newlineAt l i + 1 ≠ l.length := by
  intro heq
  have hget := @getElem?_newlineAt l i (by omega)
  rw [List.getLast?_eq_getElem?, show l.length - 1 = newlineAt l i by omega] at hlast
  exact hlast hget

theorem lineAfter_gt (hi : i < l.length) : i < lineAfter l i ∧ lineAfter l i ≤ l.length := by
  have hge : i ≤ newlineAt l i := Nat.le_add_right _ _
  rw [lineAfter]
  split <;> omega

/-! ## The loops -/

/-- Steps to the next line, from offset `i` on, meet every start and end at
the terminator. -/
theorem CStr.yields_from (h : CStr mem s l) {next : Nat → Run Nat}
    (hnext : ∀ i ≤ l.length, next (s + i) = .ok (s + lineAfter l i)) : ∀ (n : Nat) {i : Nat},
    l.length - i = n → i < l.length →
      Yields (lineLoop mem next) (s + i) ((startsFrom l i).map (s + ·)) := by
  intro n
  induction n using Nat.strong_induction_on with
  | _ n ih =>
      intro i hn hi
      obtain ⟨hgt, hle⟩ := lineAfter_gt hi
      have hcall : lineLoop mem next (s + i) = .ok (some (s + i, s + lineAfter l i)) := by
        rw [lineLoop, if_neg (h.ne_zero hi), hnext i (Nat.le_of_lt hi)]
        rfl
      rw [startsFrom_eq hi, List.map_cons]
      refine .more hcall ?_
      by_cases hend : lineAfter l i = l.length
      · rw [if_pos hend, hend]
        exact .done (if_pos h.nul)
      · rw [if_neg hend]
        exact ih (l.length - lineAfter l i) (by omega) rfl (by omega)

theorem CStr.lineLoop_yields (h : CStr mem s l) {next : Nat → Run Nat}
    (hnext : ∀ i ≤ l.length, next (s + i) = .ok (s + lineAfter l i)) :
    Yields (lineLoop mem next) s ((lineStarts l).map (s + ·)) := by
  by_cases hnil : l.length = 0
  · rw [lineStarts, hnil]
    have hnul := h.nul
    rw [hnil, Nat.add_zero] at hnul
    exact .done (if_pos hnul)
  · have hfrom := h.yields_from hnext _ rfl (Nat.pos_of_ne_zero hnil)
    rwa [startsFrom, Nat.sub_zero, ← List.range_eq_range', Nat.add_zero] at hfrom

/-- With the length the loop meets the lines of any text. -/
theorem CStr.linenextnulLen_yields (h : CStr mem s l) :
    Yields (lineLoop mem fun p => linenextnulLen mem p (s + l.length)) s
      ((lineStarts l).map (s + ·)) :=
  h.lineLoop_yields fun _ hi => h.linenextnulLen_eq hi

/-- When the last byte is a newline the loop without the length never comes to
the terminator, wherever it starts. -/
theorem CStr.not_yields (h : CStr mem s l) (cfg : ChrnulBuild) (hlast : l.getLast? = some 10)
    {i : Nat} (hi : i < l.length) (vs : List Nat) :
    ¬Yields (lineLoop mem (linenextnul cfg mem)) (s + i) vs := by
  refine not_yields_of_more (fun p => ∃ i < l.length, p = s + i) ?_ ⟨i, hi, rfl⟩ vs
  rintro p ⟨i, hi, rfl⟩
  have hin : newlineAt l i < l.length := by
    by_contra hout
    refine @not_newline_before l i (l.length - 1) (by omega) (by omega) ?_
    rw [← List.getLast?_eq_getElem?, hlast]
  refine ⟨s + i, s + if newlineAt l i + 1 < l.length then newlineAt l i + 1 else newlineAt l i,
    ?_, _, ?_, rfl⟩
  · rw [lineLoop, if_neg (h.ne_zero hi), h.linenextnul_eq cfg (Nat.le_of_lt hi)]
    rfl
  · split
    · assumption
    · exact hin

/-- Both steps lead to the next line or the terminator from every position,
and both loops meet every line and end. -/
def LineStepsRight (cfg : ChrnulBuild) (mem : Mem) (s : Nat) (l : Bytes) : Prop :=
  (∀ i ≤ l.length, linenextnul cfg mem (s + i) = .ok (s + lineAfter l i) ∧
    linenextnulLen mem (s + i) (s + l.length) = .ok (s + lineAfter l i)) ∧
  Yields (lineLoop mem (linenextnul cfg mem)) s ((lineStarts l).map (s + ·)) ∧
  Yields (lineLoop mem fun p => linenextnulLen mem p (s + l.length)) s ((lineStarts l).map (s + ·))

/-- Exactly on texts that do not end in a newline the two steps agree; on the
others the loop without the length does not even end. -/
theorem linenext_right_iff (cfg : ChrnulBuild) (h : CStr mem s l) :
    (LineStepsRight cfg mem s l ↔ l.getLast? ≠ some 10) ∧
      ((∃ vs, Yields (lineLoop mem (linenextnul cfg mem)) s vs) ↔ l.getLast? ≠ some 10) := by
  have hends : (∃ vs, Yields (lineLoop mem (linenextnul cfg mem)) s vs) →
      l.getLast? ≠ some 10 := by
    rintro ⟨vs, hvs⟩ hlast
    have hpos : 0 < l.length := by
      cases l with
      | nil => cases hlast
      | cons b l => exact Nat.succ_pos _
    rw [← Nat.add_zero s] at hvs
    exact h.not_yields cfg hlast hpos vs hvs
  have hright : l.getLast? ≠ some 10 → LineStepsRight cfg mem s l := by
    intro hlast
    have hstep : ∀ i ≤ l.length, linenextnul cfg mem (s + i) = .ok (s + lineAfter l i) := by
      intro i hi
      have hne := @newlineAt_ne_last l i hlast
      have hle := newlineAt_le hi
      rw [h.linenextnul_eq cfg hi, lineAfter]
      by_cases hlt : newlineAt l i + 1 < l.length
      · rw [if_pos hlt, if_pos hlt]
      · rw [if_neg hlt, if_neg hlt, show newlineAt l i = l.length by omega]
    exact ⟨fun i hi => ⟨hstep i hi, h.linenextnulLen_eq hi⟩, h.lineLoop_yields hstep,
      h.linenextnulLen_yields⟩
  exact ⟨⟨fun hr => hends ⟨_, hr.2.1⟩, hright⟩, hends, fun hlast => ⟨_, (hright hlast).2.1⟩⟩

theorem cstr_lines : CStr (memOf [97, 10, 98, 0]) 0 [97, 10, 98] :=
  ⟨by decide, by decide, by decide, by decide⟩

/-- Two lines. -/
theorem linenext_right_iff_ab :
    (LineStepsRight ⟨sse2Build, true, false⟩ (memOf [97, 10, 98, 0]) 0 [97, 10, 98] ↔
        ([97, 10, 98] : Bytes).getLast? ≠ some 10) ∧
      ((∃ vs, Yields (lineLoop (memOf [97, 10, 98, 0])
          (linenextnul ⟨sse2Build, true, false⟩ (memOf [97, 10, 98, 0]))) 0 vs) ↔
        ([97, 10, 98] : Bytes).getLast? ≠ some 10) :=
  linenext_right_iff ⟨sse2Build, true, false⟩ cstr_lines

/-- On "a\n" the step from the beginning leads to the newline, which is no start
of a line. -/
theorem not_linenext_right :
    ¬∀ (cfg : ChrnulBuild) (mem : Mem) (s : Nat) (l : Bytes), CStr mem s l →
      LineStepsRight cfg mem s l := by
  intro hall
  have hstr : CStr (memOf [97, 10, 0]) 0 [97, 10] :=
    ⟨by decide, by decide, by decide, by decide⟩
  have hstep := ((hall ⟨sse2Build, true, false⟩ _ _ _ hstr).1 0 (by decide)).1
  have hres : linenextnul ⟨sse2Build, true, false⟩ (memOf [97, 10, 0]) 0 = .ok 1 := by decide
  exact absurd (hres.symm.trans hstep) (by decide)

end Jstr
