import Jstring.Lines
import Jstring.Memrchr
import Jstring.Count

/-!
# Line numbers

`jstr_linestart`, `jstr_linenumber` and `jstr_linenext` of `include/string.h`:
the start of the line a byte is in, found from the byte to the left, the
number of that line, counted from the beginning, and the line after it.

`linenumber_linestart`: both speak of the same line, the one among the starts
that stepping from line to line meets with that number.
-/

namespace Jstr

open Words

/-! ## The functions -/

/-- `jstr_linestart`. -/
def linestart (cfg : Build) (mem : Mem) (start e : Nat) : Run Nat := do
  match ← memrchr cfg mem start 10 (e - start) with
  | some e => .ok (e + 1)
  | none => .ok start

/-- `jstr_linenumber`. -/
def linenumber (cfg : Build) (mem : Mem) (start e : Nat) : Run Nat := do
  let n ← countchrLen cfg mem start 10 (e - start)
  return addSz n 1

/-- `jstr_linenext`. -/
def linenext (mem : Mem) (s : Nat) : Run (Option Nat) := do
  match ← strchr mem s 10 with
  | some s => .ok (if mem (s + 1) ≠ 0 then some (s + 1) else none)
  | none => .ok none

/-! ## Starts up to a byte -/

variable {l : Bytes} {i k : Nat}

/-- The starts up to `i`, as many as there are newlines before `i` and one. -/
theorem length_starts (hi : i ≤ l.length) :
    ((List.range (i + 1)).filter fun k => k = 0 ∨ l[k - 1]? = some 10).length
      = (l.take i).count 10 + 1 := by
  induction i with
  | zero => rfl
  | succ i ih =>
      have hget : l[i]? = some l[i] := List.getElem?_eq_getElem hi
      rw [List.range_succ, List.filter_append, List.length_append, ih (Nat.le_of_succ_le hi),
        List.take_add_one, hget, List.count_append, Option.toList_some, List.count_singleton]
      by_cases hnl : l[i] = 10
      · rw [List.filter_cons_of_pos (by simp [hget, hnl]), if_pos (by simp [hnl])]
        rfl
      · rw [List.filter_cons_of_neg (by simp [hget, hnl]), if_neg (by simpa using hnl)]
        rfl

theorem range_split {k n : Nat} (hk : k ≤ n) :
    List.range n = List.range k ++ List.range' k (n - k) := by
  have h := @List.range'_append_1 0 k (n - k)
  rw [Nat.zero_add, Nat.add_sub_cancel' hk] at h
  rw [List.range_eq_range', List.range_eq_range', h]

/-- No newline from `k` to `i`, and `k` a start: it is the last one up to `i`, and
those behind it are the ones behind `i`. -/
theorem lineStarts_split (hki : k ≤ i) (hi : i < l.length) (hk : k = 0 ∨ l[k - 1]? = some 10)
    (hno : ∀ m, k ≤ m → m < i → l[m]? ≠ some 10) :
    ∃ before, lineStarts l = before ++ startsFrom l k ∧ before.length = (l.take i).count 10 := by
  have hnone : ∀ n ≤ i - k, (List.range' (k + 1) n).filter
      (fun k => k = 0 ∨ l[k - 1]? = some 10) = [] := by
    intro n hn
    refine List.filter_eq_nil_iff.mpr fun m hm => ?_
    rw [List.mem_range'_1] at hm
    simpa using ⟨by omega, hno (m - 1) (by omega) (by omega)⟩
  have hupto : List.range (i + 1) = List.range k ++ k :: List.range' (k + 1) (i - k) := by
    rw [range_split (Nat.le_succ_of_le hki), Nat.succ_sub hki, List.range'_succ]
  have hfrom : (List.range' k (l.length - k)).filter (fun k => k = 0 ∨ l[k - 1]? = some 10)
      = startsFrom l k := by
    rw [startsFrom]
    refine List.filter_congr fun m hm => ?_
    rw [List.mem_range'_1] at hm
    by_cases hmk : m = k
    · subst hmk
      simpa using hk
    · have : m ≠ 0 := by omega
      simp [hmk, this]
  refine ⟨(List.range k).filter fun k => k = 0 ∨ l[k - 1]? = some 10, ?_, ?_⟩
  · rw [lineStarts, range_split (Nat.le_of_lt (Nat.lt_of_le_of_lt hki hi)), List.filter_append,
      hfrom]
  · have hlen := length_starts (Nat.le_of_lt hi)
    rw [hupto, List.filter_append, List.filter_cons_of_pos (by simpa using hk),
      hnone _ (Nat.le_refl _), List.length_append, List.length_singleton] at hlen
    omega

/-! ## The line of a byte -/

section Line

variable {mem : Mem} {s : Nat}

/-- The start of the line found from the byte to the left. -/
theorem CStr.linestart_eq (h : CStr mem s l) (cfg : Build) (hs : 0 < s) (hi : i ≤ l.length) :
    ∃ k ≤ i, linestart cfg mem s (s + i) = .ok (s + k) ∧ (k = 0 ∨ l[k - 1]? = some 10) ∧
      ∀ m, k ≤ m → m < i → l[m]? ≠ some 10 := by
  obtain ⟨r, hr, hlast⟩ := @memrchr_rightmost mem s i 10 cfg hs
  have hbyte : ∀ m < i, l[m]? = some (mem (s + m)) := fun m hm =>
    h.bytes.getElem? (Nat.lt_of_lt_of_le hm hi)
  rw [linestart, Nat.add_sub_cancel_left, hr]
  cases r with
  | none =>
      refine ⟨0, Nat.zero_le i, rfl, .inl rfl, fun m _ hm hnl => hlast m ⟨hm, ?_⟩⟩
      exact Option.some.inj ((hbyte m hm).symm.trans hnl)
  | some q =>
      obtain ⟨⟨hq, hnl⟩, hlast⟩ := hlast
      refine ⟨q + 1, hq, by rw [Option.map_some, ← Nat.add_assoc]; rfl, .inr ?_, ?_⟩
      · rw [Nat.add_sub_cancel, hbyte q hq, hnl]
      · intro m hqm hm hnl'
        exact hlast m hqm ⟨hm, Option.some.inj ((hbyte m hm).symm.trans hnl')⟩

theorem CStr.linenumber_eq (h : CStr mem s l) (cfg : Build) (hi : i < l.length) :
    linenumber cfg mem s (s + i) = .ok ((l.take i).count 10 + 1) := by
  have hcount := @countchrLen_spec mem 10 cfg s (l.take i) (h.bytes.take i)
  rw [List.length_take_of_le (Nat.le_of_lt hi), countAll_singleton] at hcount
  have hle := @List.count_le_length _ _ 10 (l.take i)
  rw [List.length_take_of_le (Nat.le_of_lt hi)] at hle
  have hfits := h.fits
  rw [linenumber, Nat.add_sub_cancel_left, hcount]
  simp only [bind, Except.bind, pure, Except.pure]
  rw [addSz_eq (by omega)]

/-- The next line is looked for in the same way without the length. -/
theorem CStr.linenext_eq (h : CStr mem s l) (hk : k ≤ l.length) :
    linenext mem (s + k) = .ok (linenextLen mem (s + k) (s + l.length)) ∧
      linenextLen mem (s + k) (s + l.length)
        = if lineAfter l k = l.length then none else some (s + lineAfter l k) := by
  have hfind := memchr_eq_search (h.bytes.drop hk) 10
  have hnext := h.linenextnulLen_eq hk
  rw [List.length_drop] at hfind
  rw [linenextnulLen, linenextLen, show s + l.length - (s + k) = l.length - k by omega, hfind]
    at hnext
  rw [linenext, linenextLen, show s + l.length - (s + k) = l.length - k by omega, hfind,
    (h.drop hk).strchr_eq (by decide)]
  cases hq : search [10] (l.drop k) with
  | none =>
      rw [hq] at hnext
      have heq : s + l.length = s + lineAfter l k := Except.ok.inj hnext
      exact ⟨rfl, (if_pos (Nat.add_left_cancel heq).symm).symm⟩
  | some q =>
      rw [hq] at hnext
      refine ⟨rfl, ?_⟩
      simp only [Option.map_some] at hnext ⊢
      by_cases hbyte : mem (s + k + q + 1) ≠ 0
      · rw [if_pos hbyte] at hnext ⊢
        have heq : s + k + q + 1 = s + lineAfter l k := Except.ok.inj hnext
        rw [heq] at hbyte ⊢
        rw [if_neg]
        intro hend
        exact hbyte (hend ▸ h.nul)
      · rw [if_neg hbyte] at hnext ⊢
        have heq : s + l.length = s + lineAfter l k := Except.ok.inj hnext
        rw [if_pos (Nat.add_left_cancel heq).symm]

end Line

/-- The start found from a byte and the number of its line belong together: counted
from 0, the start is the one before that number among those that stepping through the
text meets, no later than the byte; the step from it leads to the start after it, which is
behind the byte, with the length as well as without it. -/
theorem linenumber_linestart (cfg : Build) {mem : Mem} {s : Nat} {l : Bytes} (h : CStr mem s l)
    (hs : 0 < s) {i : Nat} (hi : i < l.length) :
    ∃ k n, linestart cfg mem s (s + i) = .ok (s + k) ∧
      linenumber cfg mem s (s + i) = .ok (n + 1) ∧ (lineStarts l)[n]? = some k ∧ k ≤ i ∧
      linenext mem (s + k) = .ok (((lineStarts l)[n + 1]?).map (s + ·)) ∧
      linenextLen mem (s + k) (s + l.length) = ((lineStarts l)[n + 1]?).map (s + ·) ∧
      ∀ k' ∈ (lineStarts l)[n + 1]?, i < k' := by
  obtain ⟨k, hki, hstart, hk, hno⟩ := h.linestart_eq cfg hs (Nat.le_of_lt hi)
  obtain ⟨before, hsplit, hlen⟩ := lineStarts_split hki hi hk hno
  have hklt := Nat.lt_of_le_of_lt hki hi
  obtain ⟨hnext, hnextLen⟩ := h.linenext_eq (Nat.le_of_lt hklt)
  rw [startsFrom_eq hklt] at hsplit
  have hthis : (lineStarts l)[before.length]? = some k := by
    rw [hsplit, List.getElem?_append_right (Nat.le_refl _), Nat.sub_self]
    rfl
  -- behind the start comes the next one, or none
  have hafter : (lineStarts l)[before.length + 1]?
      = if lineAfter l k = l.length then none else some (lineAfter l k) := by
    rw [hsplit, List.getElem?_append_right (Nat.le_add_right _ 1), Nat.add_sub_cancel_left]
    by_cases hend : lineAfter l k = l.length
    · rw [if_pos hend, if_pos hend]
      rfl
    · have hlt := (lineAfter_gt hklt).2
      rw [if_neg hend, if_neg hend, startsFrom_eq (by omega)]
      rfl
  have hmap : linenextLen mem (s + k) (s + l.length)
      = ((lineStarts l)[before.length + 1]?).map (s + ·) := by
    rw [hnextLen, hafter]
    split <;> rfl
  refine ⟨k, before.length, hstart, ?_, hthis, hki, by rw [hnext, hmap], hmap, fun k' hk' => ?_⟩
  · rw [hlen, h.linenumber_eq cfg hi]
  · rw [hafter] at hk'
    split at hk'
    · cases hk'
    · rename_i hend
      cases hk'
      -- the newline in front of the next start is not before the byte
      rw [lineAfter] at hend ⊢
      split at hend
      · rename_i hlt
        rw [if_pos hlt]
        by_contra hle
        exact hno (newlineAt l k) (Nat.le_add_right _ _) (by omega)
          (getElem?_newlineAt (by omega))
      · exact absurd rfl hend

theorem cstr_at_lines : CStr (memOf [0, 97, 10, 98, 10, 0]) 1 [97, 10, 98, 10] :=
  ⟨by decide, by decide, by decide, by decide⟩

/-- The third byte of "a\nb\n" is on the second line, which is the last. -/
theorem linenumber_linestart_b : ∃ k n,
    linestart sse2Build (memOf [0, 97, 10, 98, 10, 0]) 1 3 = .ok (1 + k) ∧
      linenumber sse2Build (memOf [0, 97, 10, 98, 10, 0]) 1 3 = .ok (n + 1) ∧
      (lineStarts [97, 10, 98, 10])[n]? = some k ∧ k ≤ 2 := by
  obtain ⟨k, n, hstart, hnumber, hget, hle, -⟩ :=
    linenumber_linestart sse2Build cstr_at_lines (by decide) (i := 2) (by decide)
  exact ⟨k, n, hstart, hnumber, hget, hle⟩

end Jstr
