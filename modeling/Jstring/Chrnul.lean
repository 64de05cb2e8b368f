import Jstring.Scans

/-!
# A byte or the terminator

`jstr_strchrnul` of `include/string.h`: the C library's, the vectors of
`include/internal/simd.h`, or `strchr` and `strlen`. All of them stop at
`List.idxOf` (`strchrnul_eq`), which is the length when the byte is not
there; `memchr` finds the same (`memchr_eq_idxOf`).
-/

namespace Jstr

open Words

/-- A build, with the switches of `jstr_strchrnul`. -/
structure ChrnulBuild extends Build where
  /-- `JSTR_HAVE_STRCHRNUL` -/
  haveStrchrnul : Bool
  /-- `JSTR_HAVENT_STRCHRNUL_SIMD` -/
  haventStrchrnulSimd : Bool

/-- `JSTR_HAVE_SIMD && !JSTR_HAVENT_STRCHRNUL_SIMD`. -/
def ChrnulBuild.strchrnulSimd (cfg : ChrnulBuild) : Option VecSize :=
  if cfg.haventStrchrnulSimd then none else cfg.haveSimd

/-- `strchrnul(s, c)` of the C library. -/
def libcStrchrnul (mem : Mem) (s : Nat) (c : UInt8) : Run Nat :=
  scan (fun x => x == c || x == 0) mem (sizeMax + 1) s

/-- `jstr_strchrnul`. -/
def strchrnul (cfg : ChrnulBuild) (mem : Mem) (s : Nat) (c : UInt8) : Run Nat :=
  if cfg.haveStrchrnul && !cfg.test then libcStrchrnul mem s c
  else
    match cfg.strchrnulSimd with
    | some v => simdStrchrnul v.bytes mem s c
    | none => do
      match ← strchr mem s c with
      | some p => .ok p
      | none => do
        let n ← strlen mem s
        return s + n

/-- Searching one byte. -/
theorem search_singleton (c : UInt8) : ∀ l : Bytes,
    search [c] l = if l.idxOf c = l.length then none else some (l.idxOf c)
  | [] => rfl
  | b :: l => by
      rw [search, search_singleton c l, List.idxOf_cons, List.length_cons]
      by_cases hb : b = c
      · subst hb
        simp
      · have hb' : (b == c) = false := beq_eq_false_iff_ne.mpr hb
        have hc' : (c == b) = false := beq_eq_false_iff_ne.mpr (Ne.symm hb)
        simp only [List.isPrefixOf, hb', hc', Bool.false_and, Bool.false_eq_true, if_false,
          cond_false, Nat.add_right_cancel_iff]
        split <;> rfl

section Chrnul

variable {mem : Mem} {s : Nat} {l : Bytes}

theorem CStr.libcStrchrnul_eq (h : CStr mem s l) (c : UInt8) :
    libcStrchrnul mem s c = .ok (s + l.idxOf c) := by
  have hle := h.idxOf_le_sizeMax id c
  obtain ⟨hstop, hmiss⟩ := h.firstAt_idxOf id c
  rw [List.map_id, id_eq] at hle hstop hmiss
  refine scan_eq ?_ (fun i hi => ?_) (Nat.lt_succ_of_le hle)
  · rcases hstop with h0 | hc
    · simp [h0]
    · simp [show mem (s + l.idxOf c) = c from hc]
  · have hne := not_or.mp (hmiss i hi)
    simpa using ⟨hne.2, hne.1⟩

/-- The byte is not in the string: the scan is at the terminator. -/
theorem CStr.idxOf_eq_length (h : CStr mem s l) {c : UInt8} (hc : mem (s + l.idxOf c) ≠ c) :
    l.idxOf c = l.length := by
  rcases Nat.lt_or_eq_of_le (@List.idxOf_le_length _ _ _ l c) with hlt | heq
  · rw [h.bytes _ hlt] at hc
    exact absurd (List.getElem_idxOf hlt) hc
  · exact heq

theorem CStr.strchrnul_eq (h : CStr mem s l) (cfg : ChrnulBuild) (c : UInt8) :
    strchrnul cfg mem s c = .ok (s + l.idxOf c) := by
  have hlibc := h.libcStrchrnul_eq c
  rw [strchrnul]
  split
  · exact hlibc
  · cases cfg.strchrnulSimd with
    | some v => exact simdStrchrnul_eq v.bytes_pos h
    | none =>
        rw [libcStrchrnul] at hlibc
        simp only [strchr, hlibc, bind, Except.bind, pure, Except.pure]
        by_cases hc : mem (s + l.idxOf c) = c
        · rw [if_pos hc]
        · rw [if_neg hc, h.idxOf_eq_length hc]
          simp only [h.strlen_eq]

theorem memchr_eq_idxOf (h : MemAt mem s l) (c : UInt8) :
    memchr mem s c l.length = if l.idxOf c = l.length then none else some (s + l.idxOf c) := by
  rw [memchr_eq_search h, search_singleton]
  split <;> rfl

end Chrnul

end Jstr
