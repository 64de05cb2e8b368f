import Jstring.Spans

/-!
# Searches for a byte that differs

`jstr_strchrnulinv`, `jstr_strchrinv`, `jstr_memchrnulinv`,
`jstr_memchrinv`, `jstr_memrchrinv` and `jstr_strrchrinv` of
`include/string.h`: the first or the last byte that is not `c`.

- The forward scans stop at the first difference, the end of the array or
  the terminator of the string being one (`leftmost_runLen`).
- `jstr_strchrinv` takes the terminator for a difference; the backward
  scan of `jstr_memrchrinv` goes over the bytes that differ and stops at
  one that does not (`chrinv_right_iff`).
-/

namespace Jstr

open Words

/-! ## The functions -/

/-- `jstr_strchrnulinv`. -/
def strchrnulinv (mem : Mem) (s : Nat) (c : UInt8) : Run Nat :=
  if c = 0 then .ok s else scan (· != c) mem (sizeMax + 1) s

/-- `jstr_strchrinv`. -/
def strchrinv (mem : Mem) (s : Nat) (c : UInt8) : Run (Option Nat) := do
  let s ← strchrnulinv mem s c
  return if mem s ≠ c then some s else none

/-- `jstr_memchrnulinv`. -/
def memchrnulinv (mem : Mem) (s : Nat) (c : UInt8) (n : Nat) : Nat := spnLoop (· == c) mem n s

/-- `jstr_memchrinv`. -/
def memchrinv (mem : Mem) (s : Nat) (c : UInt8) (n : Nat) : Option Nat :=
  let endp := s + n
  let s := memchrnulinv mem s c n
  if s ≠ endp then some s else none

/-- `jstr_memrchrinv`: the loop goes on while the byte at `s + n - 1`
differs. -/
def memrchrinv (mem : Mem) (s : Nat) (c : UInt8) (n : Nat) : Option Nat :=
  let n := rspnLoop (· != c) mem s n
  if n ≠ 0 then some (s + n - 1) else none

/-- `jstr_strrchrinv`. -/
def strrchrinv (mem : Mem) (s : Nat) (c : UInt8) : Run (Option Nat) := do
  let n ← strlen mem s
  return memrchrinv mem s c n

/-! ## What they look for -/

variable {mem : Mem} {s : Nat} {c : UInt8} {l : Bytes}

/-- The byte at offset `i` of `l` is not `c`. -/
def DiffersAt (c : UInt8) (l : Bytes) (i : Nat) : Prop := ∃ x, l[i]? = some x ∧ x ≠ c

theorem DiffersAt.lt {i : Nat} (h : DiffersAt c l i) : i < l.length := by
  obtain ⟨x, hx, -⟩ := h
  exact (List.getElem?_eq_some_iff.mp hx).1

theorem exists_differsAt_iff : (∃ i, DiffersAt c l i) ↔ ∃ x ∈ l, x ≠ c := by
  constructor
  · rintro ⟨i, x, hx, hne⟩
    exact ⟨x, List.mem_of_getElem? hx, hne⟩
  · rintro ⟨x, hx, hne⟩
    obtain ⟨i, hi⟩ := List.mem_iff_getElem?.mp hx
    exact ⟨i, x, hi, hne⟩

/-- `p` is the first address from `s` on whose byte of `l` is not `c`, null
when all of them are. -/
def FirstInv (c : UInt8) (l : Bytes) (s : Nat) (p : Option Nat) : Prop :=
  ∃ r, Leftmost (DiffersAt c l) r ∧ p = r.map (s + ·)

/-- The same, and the end of `l` when all of them are. -/
def FirstInvOrEnd (c : UInt8) (l : Bytes) (s : Nat) (p : Nat) : Prop :=
  ∃ r, Leftmost (DiffersAt c l) r ∧ p = s + r.getD l.length

/-- `p` is the last address. -/
def LastInv (c : UInt8) (l : Bytes) (s : Nat) (p : Option Nat) : Prop :=
  ∃ r, Rightmost (DiffersAt c l) r ∧ p = r.map (s + ·)

/-! ## Forward -/

/-- The length of the run of `c` that `l` begins with. -/
def runLen (c : UInt8) (l : Bytes) : Nat := (l.takeWhile (· == c)).length

theorem runLen_le (c : UInt8) (l : Bytes) : runLen c l ≤ l.length :=
  (List.takeWhile_prefix _).length_le

theorem eq_of_lt_runLen {i : Nat} (hi : i < runLen c l) : l[i]? = some c := by
  have hlt := Nat.lt_of_lt_of_le hi (runLen_le c l)
  have heq := (takeWhile_stop (· == c) l).1 i l[i] hi (List.getElem?_eq_getElem hlt)
  rw [List.getElem?_eq_getElem hlt, beq_iff_eq.mp heq]

theorem differsAt_runLen (h : runLen c l < l.length) : DiffersAt c l (runLen c l) := by
  have hget := List.getElem?_eq_getElem h
  have hstop := (takeWhile_stop (· == c) l).2 l[runLen c l] hget
  exact ⟨l[runLen c l], hget, by simpa using hstop⟩

/-- The first difference is behind that run. -/
theorem leftmost_runLen (c : UInt8) (l : Bytes) :
    Leftmost (DiffersAt c l) (if runLen c l = l.length then none else some (runLen c l)) := by
  have hrun : ∀ i < runLen c l, ¬DiffersAt c l i := by
    rintro i hi ⟨x, hx, hne⟩
    rw [eq_of_lt_runLen hi, Option.some.injEq] at hx
    exact hne hx.symm
  split
  · rename_i hall
    intro i hi
    exact hrun i (by rw [hall]; exact hi.lt) hi
  · rename_i hlt
    exact ⟨differsAt_runLen (Nat.lt_of_le_of_ne (runLen_le c l) hlt), hrun⟩

theorem firstInvOrEnd_runLen (c : UInt8) (l : Bytes) (s : Nat) :
    FirstInvOrEnd c l s (s + runLen c l) := by
  refine ⟨_, leftmost_runLen c l, ?_⟩
  split
  · rename_i hall
    rw [hall, Option.getD_none]
  · rw [Option.getD_some]

theorem memchrnulinv_eq (h : MemAt mem s l) : memchrnulinv mem s c l.length = s + runLen c l :=
  spnLoop_eq (· == c) h

theorem memchrinv_firstInv (h : MemAt mem s l) :
    FirstInv c l s (memchrinv mem s c l.length) := by
  refine ⟨_, leftmost_runLen c l, ?_⟩
  rw [memchrinv, memchrnulinv_eq h]
  by_cases hall : runLen c l = l.length
  · rw [if_pos hall, if_neg (by omega), Option.map_none]
  · rw [if_neg hall, if_pos (by omega), Option.map_some]

/-- The terminator ends the run of any other byte. -/
theorem CStr.ne_runLen (h : CStr mem s l) (hc : c ≠ 0) : mem (s + runLen c l) ≠ c := by
  rcases Nat.lt_or_eq_of_le (runLen_le c l) with hlt | hend
  · obtain ⟨x, hx, hne⟩ := differsAt_runLen hlt
    rw [h.bytes.getElem? hlt, Option.some.injEq] at hx
    rwa [hx]
  · rw [hend, h.nul]
    exact Ne.symm hc

theorem CStr.strchrnulinv_eq (h : CStr mem s l) (hc : c ≠ 0) :
    strchrnulinv mem s c = .ok (s + runLen c l) := by
  have hfits := h.fits
  have hle := runLen_le c l
  rw [strchrnulinv, if_neg hc]
  refine scan_eq (bne_iff_ne.mpr (h.ne_runLen hc)) (fun i hi => ?_) (by omega)
  have hrun := eq_of_lt_runLen hi
  rw [h.bytes.getElem? (by omega), Option.some.injEq] at hrun
  rw [hrun, bne_self_eq_false]

/-- Never null: where all the bytes are `c` the terminator is returned. -/
theorem CStr.strchrinv_eq (h : CStr mem s l) (hc : c ≠ 0) :
    strchrinv mem s c = .ok (some (s + runLen c l)) := by
  rw [strchrinv, h.strchrnulinv_eq hc]
  simp only [bind, Except.bind, pure, Except.pure]
  rw [if_pos (h.ne_runLen hc)]

theorem firstInv_runLen_iff : FirstInv c l s (some (s + runLen c l)) ↔ ∃ x ∈ l, x ≠ c := by
  constructor
  · rintro ⟨r, hleft, hp⟩
    cases r with
    | none => cases hp
    | some i => exact exists_differsAt_iff.mp ⟨i, hleft.1⟩
  · intro hex
    obtain ⟨i, hi⟩ := exists_differsAt_iff.mpr hex
    refine ⟨_, leftmost_runLen c l, ?_⟩
    rw [if_neg, Option.map_some]
    intro hall
    have hleft := leftmost_runLen c l
    rw [if_pos hall] at hleft
    exact hleft i hi

/-! ## Backward -/

/-- The loop stops at the last byte that is `c`. -/
theorem memrchrinv_rightmost (mem : Mem) (s : Nat) (c : UInt8) (n : Nat) :
    ∃ r, memrchrinv mem s c n = r.map (s + ·) ∧ Rightmost (fun i => i < n ∧ mem (s + i) = c) r := by
  obtain ⟨r, hr, hright⟩ := rspnLoop_rightmost (· != c) mem s n
  refine ⟨r, ?_, by simpa using hright⟩
  rw [memrchrinv, hr]
  cases r with
  | none => rfl
  | some i => simp

/-- That is the last difference of no array but the empty one. -/
theorem memrchrinv_lastInv_iff (h : MemAt mem s l) :
    LastInv c l s (memrchrinv mem s c l.length) ↔ l = [] := by
  obtain ⟨r, hr, hright⟩ := memrchrinv_rightmost mem s c l.length
  rw [hr]
  constructor
  · rintro ⟨r', hright', hrr⟩
    cases r with
    | none =>
        cases r' with
        | some j => cases hrr
        | none =>
            by_contra hne
            have hpos := List.length_pos_iff.mpr hne
            exact hright' 0 ⟨mem (s + 0), h.getElem? hpos, fun hc => hright 0 ⟨hpos, hc⟩⟩
    | some i =>
        cases r' with
        | none => cases hrr
        | some j =>
            obtain rfl : i = j := by simpa using hrr
            obtain ⟨x, hx, hne⟩ := hright'.1
            rw [h.getElem? hright.1.1, Option.some.injEq] at hx
            exact absurd (hx.symm.trans hright.1.2) hne
  · rintro rfl
    have hnone : r = none := hright.unique fun i hi => Nat.not_lt_zero i hi.1
    exact ⟨none, fun i hi => Nat.not_lt_zero i hi.lt, by rw [hnone]⟩

theorem CStr.strrchrinv_eq (h : CStr mem s l) :
    strrchrinv mem s c = .ok (memrchrinv mem s c l.length) := by
  rw [strrchrinv, h.strlen_eq]
  rfl

/-! ## All six -/

/-- Exactly when the six searches are right: the two that return the end and
`jstr_memchrinv` always, `jstr_strchrinv` where some byte differs, the two
backward ones on nothing. -/
theorem chrinv_right_iff (mem : Mem) (s : Nat) (l : Bytes) (c : UInt8) :
    (MemAt mem s l →
      FirstInvOrEnd c l s (memchrnulinv mem s c l.length) ∧
      FirstInv c l s (memchrinv mem s c l.length) ∧
      (LastInv c l s (memrchrinv mem s c l.length) ↔ l = [])) ∧
    (CStr mem s l → c ≠ 0 →
      (∃ p, strchrnulinv mem s c = .ok p ∧ FirstInvOrEnd c l s p) ∧
      (∃ p, strchrinv mem s c = .ok p ∧ (FirstInv c l s p ↔ ∃ x ∈ l, x ≠ c)) ∧
      (∃ p, strrchrinv mem s c = .ok p ∧ (LastInv c l s p ↔ l = []))) := by
  refine ⟨fun h => ⟨?_, memchrinv_firstInv h, memrchrinv_lastInv_iff h⟩, fun h hc => ⟨?_, ?_, ?_⟩⟩
  · rw [memchrnulinv_eq h]
    exact firstInvOrEnd_runLen c l s
  · exact ⟨_, h.strchrnulinv_eq hc, firstInvOrEnd_runLen c l s⟩
  · exact ⟨_, h.strchrinv_eq hc, firstInv_runLen_iff⟩
  · exact ⟨_, h.strrchrinv_eq, memrchrinv_lastInv_iff h.bytes⟩

/-- "xyz" and 'x'. -/
theorem chrinv_right_iff_xyz :
    FirstInv 120 [120, 121, 122] 1 (memchrinv (memOf [7, 120, 121, 122]) 1 120 3) ∧
      ∃ p, strchrinv (memOf [7, 120, 121, 122]) 1 120 = .ok p ∧
        (FirstInv 120 [120, 121, 122] 1 p ↔ ∃ x ∈ ([120, 121, 122] : Bytes), x ≠ 120) := by
  have h := chrinv_right_iff (memOf [7, 120, 121, 122]) 1 [120, 121, 122] 120
  have hstr : CStr (memOf [7, 120, 121, 122]) 1 [120, 121, 122] :=
    ⟨by decide, by decide, by decide, by decide⟩
  exact ⟨(h.1 hstr.bytes).2.1, (h.2 hstr (by decide)).2.1⟩

/-- 'z' ends "xyz" and is taken for the last byte other than 'z'. -/
theorem not_chrinv_right :
    ¬∀ (mem : Mem) (s : Nat) (l : Bytes) (c : UInt8),
      (MemAt mem s l →
        FirstInvOrEnd c l s (memchrnulinv mem s c l.length) ∧
        FirstInv c l s (memchrinv mem s c l.length) ∧
        LastInv c l s (memrchrinv mem s c l.length)) ∧
      (CStr mem s l → c ≠ 0 →
        (∃ p, strchrnulinv mem s c = .ok p ∧ FirstInvOrEnd c l s p) ∧
        (∃ p, strchrinv mem s c = .ok p ∧ FirstInv c l s p) ∧
        (∃ p, strrchrinv mem s c = .ok p ∧ LastInv c l s p)) := by
  intro hall
  obtain ⟨r, hright, hp⟩ := ((hall (memOf [7, 120, 121, 122]) 1 [120, 121, 122] 122).1
    (by decide)).2.2
  have hlast : memrchrinv (memOf [7, 120, 121, 122]) 1 122 3 = some 3 := by decide
  cases r with
  | none => cases hlast.symm.trans hp
  | some i =>
      have hi : some 3 = some (1 + i) := hlast.symm.trans hp
      obtain rfl : 2 = i := by
        rw [Option.some.injEq] at hi
        omega
      obtain ⟨x, hx, hne⟩ := hright.1
      exact hne (Option.some.inj hx).symm

end Jstr
