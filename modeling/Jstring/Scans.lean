import Jstring.Memrchr
import Jstring.Strnchr

/-!
# Wide searches against plain scans

The searches of `include/internal/simd.h` and of
`include/internal/musl/stdstring.h` that read a block or a word at a time:
`strchrnul`, `strcasechrnul`, `memcasechr` and `memrchr`. Whatever is
around the input, each returns what the scan byte by byte does
(`scans_eq`): `List.idxOf` up to the terminator, `memchrBy` forward and
`libcMemrchr` backward within a length.
-/

namespace Jstr

open Words Bits

/-- `jstr_internal_simd_strchrnul`. -/
def simdStrchrnul (V : Nat) (mem : Mem) (s : Nat) (c : UInt8) : Run Nat :=
  simdChrnul (chrNulMask V mem c) s

/-- The byte loop of `jstr_internal_memcasechr_musl`, up to the next
multiple of `ALIGN`, which is 7. -/
def memcasechrAlign (c : UInt8) (mem : Mem) : Nat → Nat → Option Nat ⊕ Nat × Nat
  | 0, p => if p % 7 ≠ 0 then .inl none else .inr (0, p)
  | n + 1, p =>
    if p % 7 ≠ 0 then
      if tolower (mem p) = c then .inl (some p) else memcasechrAlign c mem n (p + 1)
    else .inr (n + 1, p)

/-- `jstr_internal_memcasechr_musl`. -/
def memcasechrMusl (cfg : Build) (mem : Mem) (s : Nat) (c : UInt8) (n : Nat) : Option Nat :=
  let c := tolower c
  let rest := fun (n, p) => memchrBy (fun x => tolower x == c) mem n p
  if cfg.haveAttrMayAlias ∧ n ≥ 8 ∧ tolower (mem s) ≠ c then
    match memcasechrAlign c mem n s with
    | .inl r => r
    | .inr (n, p) =>
      let k := ones * c.toUInt64
      let l := ones * (toupper c).toUInt64
      rest (nchrWords (fun w => !hasZero (w ^^^ k) && !hasZero (w ^^^ l)) mem n p)
  else rest (n, s)

section Musl

variable {mem : Mem} {s n : Nat} {c : UInt8}

/-- Bytes that are no hit can be skipped. -/
theorem memchrBy_add {hit : UInt8 → Bool} : ∀ (j m s : Nat),
    (∀ i < j, hit (mem (s + i)) = false) →
    memchrBy hit mem (m + j) s = memchrBy hit mem m (s + j)
  | 0, m, s, _ => rfl
  | j + 1, m, s, h => by
      have h0 := h 0 (Nat.succ_pos j)
      rw [Nat.add_zero] at h0
      rw [← Nat.add_assoc, memchrBy, h0, if_neg Bool.false_ne_true,
        memchrBy_add j m (s + 1) fun i hi => ?_, show s + 1 + j = s + (j + 1) by omega]
      rw [show s + 1 + i = s + (i + 1) by omega]
      exact h (i + 1) (by omega)

theorem memcasechrAlign_spec (n : Nat) : ∀ p,
    match memcasechrAlign c mem n p with
    | .inl r => r = memchrBy (fun x => tolower x == c) mem n p
    | .inr (m, q) => memchrBy (fun x => tolower x == c) mem m q
        = memchrBy (fun x => tolower x == c) mem n p := by
  induction n with
  | zero =>
      intro p
      rw [memcasechrAlign]
      by_cases h7 : p % 7 ≠ 0
      · rw [if_pos h7]
        rfl
      · rw [if_neg h7]
  | succ n ih =>
      intro p
      rw [memcasechrAlign]
      by_cases h7 : p % 7 ≠ 0
      · rw [if_pos h7, memchrBy]
        by_cases hc : tolower (mem p) = c
        · rw [if_pos hc, if_pos (beq_iff_eq.mpr hc)]
        · rw [if_neg hc, if_neg (by simpa using hc)]
          exact ih (p + 1)
      · rw [if_neg h7]

/-- The words are the plain scan. -/
theorem memcasechrMusl_eq (cfg : Build) :
    memcasechrMusl cfg mem s c n = memchrBy (fun x => tolower x == tolower c) mem n s := by
  simp only [memcasechrMusl]
  by_cases hwide : cfg.haveAttrMayAlias = true ∧ n ≥ 8 ∧ tolower (mem s) ≠ tolower c
  · rw [if_pos hwide]
    have halign := @memcasechrAlign_spec mem (tolower c) n s
    rcases hres : memcasechrAlign (tolower c) mem n s with r | ⟨m, p⟩
    · rw [hres] at halign
      exact halign
    · rw [hres] at halign
      have hgo : ∀ q, (!hasZero ((leWord fun i => mem (q + i)) ^^^ (ones * (tolower c).toUInt64)) &&
          !hasZero ((leWord fun i => mem (q + i)) ^^^
            (ones * (toupper (tolower c)).toUInt64))) = true →
          ∀ i < 8, ¬tolower (mem (q + i)) = tolower c := by
        intro q hq i hi
        simp only [Bool.and_eq_true, Bool.not_eq_true'] at hq
        exact ne_fold_of_hasZero hq.1 hq.2 hi
      obtain ⟨m', j, hrun, rfl, hmiss⟩ := @nchrWords_spec mem (fun w =>
        !hasZero (w ^^^ (ones * (tolower c).toUInt64)) &&
          !hasZero (w ^^^ (ones * (toupper (tolower c)).toUInt64)))
        (fun x => tolower x = tolower c) hgo m p
      simp only [hrun, ← halign]
      exact (memchrBy_add j m' p fun i hi => by simpa using hmiss i hi).symm
  · rw [if_neg hwide]

end Musl

section Plain

variable {V : Nat} {mem : Mem} {s n : Nat} {c : UInt8} {l : Bytes}

/-- In a string the scan stops at the first match, else at the
terminator. -/
theorem CStr.firstAt_idxOf (h : CStr mem s l) (canon : UInt8 → UInt8) (c : UInt8) :
    FirstAt (StopFor canon c) mem s ((l.map canon).idxOf (canon c)) := by
  have hle : (l.map canon).idxOf (canon c) ≤ l.length := by
    simpa using @List.idxOf_le_length _ _ _ (l.map canon) (canon c)
  refine ⟨?_, fun i hi => ?_⟩
  · rcases Nat.lt_or_eq_of_le hle with hlt | heq
    · refine Or.inr ?_
      rw [h.bytes _ hlt]
      have := @List.getElem_idxOf _ _ _ (canon c) (l.map canon) (by simpa using hlt)
      rwa [List.getElem_map] at this
    · rw [heq]
      exact Or.inl h.nul
  · have hil : i < l.length := by omega
    have hne := @List.not_of_lt_findIdx _ (· == canon c) (l.map canon) i hi
    rw [List.getElem_map, beq_eq_false_iff_ne] at hne
    rw [h.bytes i hil]
    rintro (h0 | hhit)
    · exact h.nonzero (h0 ▸ List.getElem_mem hil)
    · exact hne hhit

theorem CStr.idxOf_le_sizeMax (h : CStr mem s l) (canon : UInt8 → UInt8) (c : UInt8) :
    (l.map canon).idxOf (canon c) ≤ sizeMax := by
  have hfits := h.fits
  have hle : (l.map canon).idxOf (canon c) ≤ l.length := by
    simpa using @List.idxOf_le_length _ _ _ (l.map canon) (canon c)
  omega

theorem simdStrchrnul_eq (hV : 0 < V) (h : CStr mem s l) :
    simdStrchrnul V mem s c = .ok (s + l.idxOf c) := by
  have hst := h.firstAt_idxOf id c
  have hle := h.idxOf_le_sizeMax id c
  rw [List.map_id] at hst hle
  exact simdChrnul_spec hV getLsbD_chrNulMask hst hle

theorem simdMemcasechr_eq (hV : 0 < V) :
    simdMemcasechr V mem s c n
      = .ok (memchrBy (fun x => tolower x == tolower c) mem n s) := by
  obtain ⟨r, hr, hleft⟩ := @simdMemcasechr_spec V mem s n c hV
  obtain ⟨r', hr', hleft'⟩ := memchrBy_leftmost (fun x => tolower x == tolower c) mem n s
  simp only [beq_iff_eq] at hleft'
  rw [hr, hr', hleft.unique hleft']

theorem simdMemrchr_eq (hV : 0 < V) (hs : 0 < s) :
    simdMemrchr V mem s c n = .ok (libcMemrchr mem s c n) := by
  obtain ⟨r, hr, hright⟩ := @simdMemrchr_spec mem s n c V hV hs
  obtain ⟨r', hr', hright'⟩ := libcMemrchr_rightmost mem s c n
  rw [hr, hr', hright.unique hright']

end Plain

/-- Every wide search returns what the plain scan does, wherever the input
lies and whatever is around it. No object is at the null pointer. -/
theorem scans_eq (v : VecSize) (cfg : Build) (mem : Mem) {s : Nat} (hs : 0 < s) (c : UInt8)
    (n : Nat) :
    (∀ l, CStr mem s l →
      simdStrchrnul v.bytes mem s c = .ok (s + l.idxOf c) ∧
      simdStrcasechrnul v.bytes mem s c = .ok (s + (l.map tolower).idxOf (tolower c)) ∧
      strcasechrnulMusl cfg mem s c = .ok (s + (l.map tolower).idxOf (tolower c))) ∧
    simdMemcasechr v.bytes mem s c n
      = .ok (memchrBy (fun x => tolower x == tolower c) mem n s) ∧
    memcasechrMusl cfg mem s c n = memchrBy (fun x => tolower x == tolower c) mem n s ∧
    simdMemrchr v.bytes mem s c n = .ok (libcMemrchr mem s c n) ∧
    memrchrMusl cfg mem s c n = libcMemrchr mem s c n := by
  refine ⟨fun l h => ?_, simdMemcasechr_eq v.bytes_pos, memcasechrMusl_eq cfg,
    simdMemrchr_eq v.bytes_pos hs, memrchrMusl_eq cfg⟩
  have hst := h.firstAt_idxOf tolower c
  have hle := h.idxOf_le_sizeMax tolower c
  exact ⟨simdStrchrnul_eq v.bytes_pos h, simdStrcasechrnul_spec v.bytes_pos hst hle,
    strcasechrnulMusl_spec cfg hst hle⟩

/-- 'Y' in "xyz", at an odd address and without its last byte. -/
theorem scans_eq_xyz :
    simdStrcasechrnul 32 (memOf [7, 120, 121, 122]) 1 89 = .ok 2 ∧
      simdMemrchr 32 (memOf [7, 120, 121, 122]) 1 121 2 = .ok (some 2) := by
  have h := scans_eq .avx2 sse2Build (memOf [7, 120, 121, 122]) Nat.one_pos 89 2
  have h' := scans_eq .avx2 sse2Build (memOf [7, 120, 121, 122]) Nat.one_pos 121 2
  exact ⟨(h.1 [120, 121, 122] cstr_xyz).2.1, h'.2.2.2.1⟩

end Jstr
