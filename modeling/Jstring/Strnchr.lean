import Jstring.Chr

/-!
# Searches for one letter before a bound and the terminator

`jstr_strnchr` and `jstr_strncasechr` of `include/string.h`: the vectors
of `include/internal/simd.h`, the C library, and the words of
`include/internal/musl/stdstring.h`. Every loop stops at the first byte
that is the letter or the terminator (`FirstAt`); which of the two it
was is told apart by the C library's version, by the byte loop in front
of the words, and nowhere else. The vectors also compare with an end
that wraps when the bound reaches past the address space.

* `simdNchr_spec`, `nchrMusl_spec`: what each loop returns, by where it
  stops.
* `strnchr_iff`: exactly when that is the first occurrence below the
  bound and before the terminator.
-/

namespace Jstr

open Words Bits

/-- The switches of these two functions. -/
structure NchrBuild extends Build where
  /-- `JSTR_HAVENT_STRNCHR_SIMD` -/
  haventStrnchrSimd : Bool
  /-- `JSTR_HAVENT_STRNCASECHR_SIMD` -/
  haventStrncasechrSimd : Bool

/-- `JSTR_HAVE_SIMD && !JSTR_HAVENT_STRNCHR_SIMD`. -/
def NchrBuild.strnchrSimd (cfg : NchrBuild) : Option VecSize :=
  if cfg.haventStrnchrSimd then none else cfg.haveSimd

/-- `JSTR_HAVE_SIMD && !JSTR_HAVENT_STRNCASECHR_SIMD`. -/
def NchrBuild.strncasechrSimd (cfg : NchrBuild) : Option VecSize :=
  if cfg.haventStrncasechrSimd then none else cfg.haveSimd

/-! ## Vectors -/

/-- The lanes at `p` that hold `c` or a NUL. -/
def chrNulMask (V : Nat) (mem : Mem) (c : UInt8) (p : Nat) : BitVec V :=
  cmpeq8Mask V (loadu mem p) (setone8 c) ||| cmpeq8Mask V (loadu mem p) (setone8 0)

/-- `do { s += VEC_SIZE; m = ...; } while (!(m | (s >= end)))` and what
comes after it. -/
def nchrBlocks (V : Nat) (mask : Nat → BitVec V) (last : Nat) : Nat → Nat → Run (Option Nat)
  | 0, _ => .error .diverge
  | fuel + 1, s =>
    let s := s + V
    let m := mask s
    if m = 0#V ∧ s < last then nchrBlocks V mask last fuel s
    else if s ≥ last then .ok none
    else .ok (if s + tz m < last then some (s + tz m) else none)

/-- The vector searches, by the lanes they stop at. -/
def simdNchr (V : Nat) (mask : Nat → BitVec V) (s n : Nat) : Run (Option Nat) :=
  if n = 0 then .ok none
  else
    let last := addSz s n
    let off := s - alignDown s V
    let s := s - off
    let m := mask s >>> off
    if m ≠ 0#V then
      let i := off + tz m
      .ok (if s + i < last then some (s + i) else none)
    else nchrBlocks V mask last (sizeMax + 1) s

/-- `jstr_internal_simd_strnchr`. -/
def simdStrnchr (V : Nat) (mem : Mem) (s : Nat) (c : UInt8) (n : Nat) : Run (Option Nat) :=
  simdNchr V (chrNulMask V mem c) s n

/-- `jstr_internal_simd_strncasechr`. -/
def simdStrncasechr (V : Nat) (mem : Mem) (s : Nat) (c : UInt8) (n : Nat) : Run (Option Nat) :=
  simdNchr V (caseNulMask V mem c) s n

/-! ## Words -/

/-- The byte loop up to a word boundary: on the left what is returned, on
the right how many bytes are left and where. -/
def nchrAlign (hit : UInt8 → Bool) (mem : Mem) : Nat → Nat → Option Nat ⊕ Nat × Nat
  | 0, s => if s % 8 ≠ 0 then .inl none else .inr (0, s)
  | n + 1, s =>
    if s % 8 ≠ 0 then
      if mem s = 0 then .inl none
      else if hit (mem s) then .inl (some s)
      else nchrAlign hit mem n (s + 1)
    else .inr (n + 1, s)

/-- The word loop, while there is a whole word left and it is one to go
past. -/
def nchrWords (go : UInt64 → Bool) (mem : Mem) : Nat → Nat → Nat × Nat
  | n + 8, ws => if go (leWord fun i => mem (ws + i)) then nchrWords go mem n (ws + 8) else (n + 8, ws)
  | n, ws => (n, ws)

/-- `for (; n && *s && *s != c; s++, n--) {} return n ? s : NULL`. -/
def nchrBytes (hit : UInt8 → Bool) (mem : Mem) : Nat → Nat → Option Nat
  | 0, _ => none
  | n + 1, s => if mem s ≠ 0 ∧ !hit (mem s) then nchrBytes hit mem n (s + 1) else some s

/-- The word-at-a-time searches, by the bytes that are hits and the words
without a stop. -/
def nchrMusl (cfg : Build) (hit : UInt8 → Bool) (go : UInt64 → Bool) (mem : Mem) (s n : Nat) :
    Option Nat :=
  if cfg.haveAttrMayAlias then
    match nchrAlign hit mem n s with
    | .inl r => r
    | .inr (n, s) =>
      if n ≥ 8 ∧ !hit (mem s) then
        let (n, s) := nchrWords go mem n s
        nchrBytes hit mem n s
      else nchrBytes hit mem n s
  else nchrBytes hit mem n s

/-- `jstr_internal_strnchr_musl`. -/
def strnchrMusl (cfg : Build) (mem : Mem) (s : Nat) (c : UInt8) (n : Nat) : Option Nat :=
  let k := ones * c.toUInt64
  nchrMusl cfg (fun x => x == c) (fun w => !hasZero w && !hasZero (w ^^^ k)) mem s n

/-- `jstr_internal_strncasechr_musl`. -/
def strncasechrMusl (cfg : Build) (mem : Mem) (s : Nat) (c : UInt8) (n : Nat) : Option Nat :=
  let c := tolower c
  let k := ones * c.toUInt64
  let l := ones * (toupper c).toUInt64
  nchrMusl cfg (fun x => tolower x == c)
    (fun w => !hasZero w && !hasZero (w ^^^ k) && !hasZero (w ^^^ l)) mem s n

/-! ## The two functions -/

/-- `jstr_strnchr`. -/
def strnchr (cfg : NchrBuild) (mem : Mem) (s : Nat) (c : UInt8) (n : Nat) : Run (Option Nat) :=
  match cfg.strnchrSimd with
  | some v => simdStrnchr v.bytes mem s c n
  | none => do
    match ← strchr mem s c with
    | some p => return if p - s < n then some p else none
    | none => return none

/-- `jstr_strncasechr`. -/
def strncasechr (cfg : NchrBuild) (mem : Mem) (s : Nat) (c : UInt8) (n : Nat) :
    Run (Option Nat) :=
  if !isalpha c then strnchr cfg mem s c n
  else
    match cfg.strncasechrSimd with
    | some v => simdStrncasechr v.bytes mem s c n
    | none => .ok (strncasechrMusl cfg.toBuild mem s c n)

/-- What the plain scan finds among the first `n` bytes of a string. -/
def nchr (canon : UInt8 → UInt8) (l : Bytes) (c : UInt8) (n : Nat) : Option Nat :=
  search [canon c] ((l.take n).map canon)

/-! ## Where the loops stop -/

/-- The terminator, or `c` under the folding. -/
def StopFor (canon : UInt8 → UInt8) (c x : UInt8) : Prop := x = 0 ∨ canon x = canon c

section Vectors

variable {V : Nat} {mem : Mem} {stop : UInt8 → Prop} {mask : Nat → BitVec V} {s k last : Nat}

theorem nchrBlocks_spec (hV : 0 < V)
    (hmask : ∀ p i, (mask p).getLsbD i = true ↔ i < V ∧ stop (mem (p + i)))
    (h : FirstAt stop mem s k) : ∀ (fuel p j : Nat), p + V = s + j → j ≤ k → k < fuel + j →
    nchrBlocks V mask last fuel p = .ok (if s + k < last then some (s + k) else none)
  | 0, p, j, hp, hj, hf => by omega
  | fuel + 1, p, j, hp, hj, hf => by
      rw [nchrBlocks]
      simp only [hp]
      by_cases h0 : mask (s + j) = 0#V
      · have hle := h.le_of_miss hj (none_of_mask_zero stop (hmask _) h0)
        by_cases hlast : s + j < last
        · rw [if_pos ⟨h0, hlast⟩]
          exact nchrBlocks_spec hV hmask h fuel (s + j) (j + V) (Nat.add_assoc s j V) hle (by omega)
        · rw [if_neg (fun hc => hlast hc.2), if_pos (Nat.not_lt.mp hlast), if_neg (by omega)]
      · obtain ⟨-, hhit, hmin⟩ := tz_first stop (hmask _) h0
        have heq := h.eq_of_hit hj hhit hmin
        rw [if_neg (fun hc => h0 hc.1), Nat.add_assoc, heq]
        by_cases hlast : s + j ≥ last
        · rw [if_pos hlast, if_neg (by omega)]
        · rw [if_neg hlast]

/-- The vectors return where they stop, if that is below the end they
computed. -/
theorem simdNchr_spec {n : Nat} (hV : 0 < V)
    (hmask : ∀ p i, (mask p).getLsbD i = true ↔ i < V ∧ stop (mem (p + i)))
    (h : FirstAt stop mem s k) (hk : s + k ≤ sizeMax) :
    simdNchr V mask s n = .ok (if s + k < addSz s n then some (s + k) else none) := by
  rw [simdNchr]
  by_cases hn : n = 0
  · rw [if_pos hn, if_neg]
    rw [hn, addSz]
    have := Nat.mod_le s 18446744073709551616
    simp only [Nat.add_zero]
    omega
  rw [if_neg hn]
  obtain ⟨hoff, hoffs, hfirst⟩ := @mask_first V s hV mem stop mask hmask
  simp only
  generalize s - alignDown s V = off at hoff hoffs hfirst ⊢
  by_cases h0 : mask (s - off) >>> off = 0#V
  · have hle := h.le_of_miss (Nat.zero_le k) (none_of_mask_zero stop hfirst h0)
    rw [if_neg (not_not_intro h0)]
    exact nchrBlocks_spec hV hmask h (sizeMax + 1) (s - off) (V - off) (by omega) (by omega)
      (by omega)
  · obtain ⟨-, hhit, hmin⟩ := tz_first stop hfirst h0
    have heq := h.eq_of_hit (Nat.zero_le k) hhit hmin
    rw [if_pos h0, show s - off + (off + tz (mask (s - off) >>> off)) = s + k by omega]

theorem getLsbD_chrNulMask {c : UInt8} (p i : Nat) :
    (chrNulMask V mem c p).getLsbD i = true ↔ i < V ∧ StopFor id c (mem (p + i)) := by
  rw [chrNulMask, BitVec.getLsbD_or, Bool.or_eq_true, getLsbD_cmpeq8Mask, getLsbD_cmpeq8Mask,
    Bool.and_eq_true, Bool.and_eq_true, decide_eq_true_eq, beq_iff_eq, beq_iff_eq, loadu,
    setone8, setone8, StopFor, id, id]
  tauto

end Vectors

section Words

variable {mem : Mem} {hit : UInt8 → Bool} {go : UInt64 → Bool} {s k : Nat}

/-- Up to the word boundary the byte loop is the plain scan, and it knows
the terminator. -/
theorem nchrAlign_spec (h0 : hit 0 = false) : ∀ (n s k : Nat),
    FirstAt (fun x => x = 0 ∨ hit x = true) mem s k →
    match nchrAlign hit mem n s with
    | .inl r => r = (if k < n ∧ hit (mem (s + k)) = true then some (s + k) else none) ∧
        (k < alignUp s 8 - s ∨ n < alignUp s 8 - s)
    | .inr (m, p) => ∃ j ≤ k, m + j = n ∧ p = s + j ∧ j = alignUp s 8 - s
  | 0, s, k, h => by
      rw [nchrAlign]
      by_cases h8 : s % 8 ≠ 0
      · rw [if_pos h8]
        refine ⟨by simp, Or.inr ?_⟩
        rw [alignUp, alignDown]
        omega
      · rw [if_neg h8]
        refine ⟨0, Nat.zero_le k, rfl, rfl, ?_⟩
        rw [alignUp, alignDown]
        omega
  | n + 1, s, k, h => by
      rw [nchrAlign]
      by_cases h8 : s % 8 ≠ 0
      · have hword : alignUp s 8 - s = alignUp (s + 1) 8 - (s + 1) + 1 := by
          rw [alignUp, alignUp, alignDown, alignDown]
          omega
        rw [if_pos h8, hword]
        rcases h.head with ⟨hstop, rfl⟩ | ⟨hgo, k', rfl, htail⟩
        · by_cases hz : mem s = 0
          · rw [if_pos hz]
            refine ⟨?_, Or.inl (Nat.succ_pos _)⟩
            rw [if_neg]
            simp [hz, h0]
          · have hhit := hstop.resolve_left hz
            rw [if_neg hz, if_pos hhit]
            exact ⟨by simp [hhit], Or.inl (Nat.succ_pos _)⟩
        · rw [if_neg (fun hz => hgo (Or.inl hz)), if_neg (fun hhit => hgo (Or.inr hhit))]
          have ih := nchrAlign_spec h0 n (s + 1) k' htail
          rcases hres : nchrAlign hit mem n (s + 1) with r | ⟨m, p⟩
          · rw [hres] at ih
            obtain ⟨hr, hlt⟩ := ih
            rw [show s + 1 + k' = s + (k' + 1) by omega] at hr
            refine ⟨?_, by omega⟩
            rw [hr]
            simp only [Nat.add_lt_add_iff_right]
          · rw [hres] at ih
            obtain ⟨j, hj, hm, hp, hja⟩ := ih
            exact ⟨j + 1, by omega, by omega, by omega, by omega⟩
      · rw [if_neg h8]
        refine ⟨0, Nat.zero_le k, rfl, rfl, ?_⟩
        rw [alignUp, alignDown]
        omega

/-- The words gone past hold no stop. -/
theorem nchrWords_spec {stop : UInt8 → Prop}
    (hgo : ∀ p, go (leWord fun i => mem (p + i)) = true → ∀ i < 8, ¬stop (mem (p + i)))
    (n : Nat) : ∀ p, ∃ m j, nchrWords go mem n p = (m, p + j) ∧ m + j = n ∧
      ∀ i < j, ¬stop (mem (p + i)) := by
  induction n using Nat.strong_induction_on with
  | _ n ih =>
      intro p
      rcases Nat.lt_or_ge n 8 with hlt | hge
      · refine ⟨n, 0, ?_, rfl, fun i hi => absurd hi (Nat.not_lt_zero i)⟩
        rw [nchrWords]
        · rfl
        · rintro m rfl
          omega
      · obtain ⟨m, rfl⟩ : ∃ m, n = m + 8 := ⟨n - 8, by omega⟩
        rw [nchrWords]
        by_cases hw : go (leWord fun i => mem (p + i)) = true
        · rw [if_pos hw]
          obtain ⟨m', j, hrun, hsum, hmiss⟩ := ih m (by omega) (p + 8)
          refine ⟨m', j + 8, by rw [hrun, show p + 8 + j = p + (j + 8) by omega], by omega, ?_⟩
          intro i hi
          by_cases hi8 : i < 8
          · exact hgo p hw i hi8
          · rw [show p + i = p + 8 + (i - 8) by omega]
            exact hmiss (i - 8) (by omega)
        · rw [if_neg hw]
          exact ⟨m + 8, 0, rfl, rfl, fun i hi => absurd hi (Nat.not_lt_zero i)⟩

/-- The last loop returns where it stops, terminator or not. -/
theorem nchrBytes_spec : ∀ (n s k : Nat), FirstAt (fun x => x = 0 ∨ hit x = true) mem s k →
    nchrBytes hit mem n s = if k < n then some (s + k) else none
  | 0, s, k, h => by simp [nchrBytes]
  | n + 1, s, k, h => by
      rw [nchrBytes]
      rcases h.head with ⟨hstop, rfl⟩ | ⟨hgo, k', rfl, htail⟩
      · rw [if_neg, if_pos (Nat.succ_pos n), Nat.add_zero]
        rintro ⟨hz, hhit⟩
        rcases hstop with h | h
        · exact hz h
        · rw [h] at hhit
          cases hhit
      · rw [if_pos, nchrBytes_spec n (s + 1) k' htail, show s + 1 + k' = s + (k' + 1) by omega]
        · simp only [Nat.add_lt_add_iff_right]
        · exact ⟨fun hz => hgo (Or.inl hz), by simpa using fun hhit => hgo (Or.inr hhit)⟩

theorem FirstAt.drop {stop : UInt8 → Prop} (h : FirstAt stop mem s k) {j : Nat} (hj : j ≤ k) :
    FirstAt stop mem (s + j) (k - j) := by
  refine ⟨?_, fun i hi => ?_⟩
  · rw [show s + j + (k - j) = s + k by omega]
    exact h.1
  · rw [Nat.add_assoc]
    exact h.2 (j + i) (by omega)

/-- The word versions return where they stop, but for a terminator in
front of the first word. -/
theorem nchrMusl_spec (cfg : Build) (h0 : hit 0 = false)
    (hgo : ∀ p, go (leWord fun i => mem (p + i)) = true →
      ∀ i < 8, ¬(mem (p + i) = 0 ∨ hit (mem (p + i)) = true))
    (h : FirstAt (fun x => x = 0 ∨ hit x = true) mem s k) (n : Nat) :
    nchrMusl cfg hit go mem s n
      = if k < n ∧ (hit (mem (s + k)) = true ∨
            ¬(cfg.haveAttrMayAlias = true ∧ k < alignUp s 8 - s)) then some (s + k)
        else none := by
  rw [nchrMusl]
  by_cases hcfg : cfg.haveAttrMayAlias = true
  · rw [if_pos hcfg]
    have hbytes : ∀ j ≤ k, ∀ m, m + j = n →
        nchrBytes hit mem m (s + j) = if k < n then some (s + k) else none := by
      intro j hj m hm
      rw [nchrBytes_spec m (s + j) (k - j) (h.drop hj), show s + j + (k - j) = s + k by omega]
      simp only [show k - j < m ↔ k < n by omega]
    have halign := nchrAlign_spec h0 n s k h
    rcases hres : nchrAlign hit mem n s with r | ⟨m, p⟩
    · rw [hres] at halign
      obtain ⟨hr, hlt⟩ := halign
      simp only [hr, hcfg, true_and]
      congr 1
      rw [eq_iff_iff]
      refine and_congr_right fun hkn => ?_
      have hfront : k < alignUp s 8 - s := by omega
      simp only [hfront, not_true_eq_false, or_false]
    · rw [hres] at halign
      obtain ⟨j, hj, hm, rfl, hja⟩ := halign
      have hnot : ¬k < alignUp s 8 - s := by omega
      simp only [hnot, and_false, not_false_eq_true, or_true, and_true]
      by_cases hwords : m ≥ 8 ∧ (!hit (mem (s + j))) = true
      · rw [if_pos hwords]
        obtain ⟨m', i, hrun, hsum, hmiss⟩ := @nchrWords_spec mem go
          (fun x => x = 0 ∨ hit x = true) hgo m (s + j)
        rw [hrun, Nat.add_assoc]
        exact hbytes (j + i) (h.le_of_miss hj hmiss) m' (by omega)
      · rw [if_neg hwords]
        exact hbytes j hj m hm
  · rw [if_neg hcfg, nchrBytes_spec n s k h]
    simp [hcfg]

theorem strnchrMusl_spec (cfg : Build) {c : UInt8} (hc : c ≠ 0)
    (h : FirstAt (StopFor id c) mem s k) (n : Nat) :
    strnchrMusl cfg mem s c n
      = if k < n ∧ (mem (s + k) = c ∨ ¬(cfg.haveAttrMayAlias = true ∧ k < alignUp s 8 - s))
        then some (s + k) else none := by
  have hstop : FirstAt (fun x => x = 0 ∨ (x == c) = true) mem s k := by
    simp only [beq_iff_eq]
    exact h
  rw [strnchrMusl, nchrMusl_spec cfg (by simpa using hc.symm) ?_ hstop n]
  · simp only [beq_iff_eq]
  · intro p hgo i hi
    simp only [Bool.and_eq_true, Bool.not_eq_true'] at hgo
    rintro (h0 | hhit)
    · exact ne_zero_of_hasZero hgo.1 hi h0
    · exact ne_of_hasZero_xor hgo.2 hi (beq_iff_eq.mp hhit)

theorem strncasechrMusl_spec (cfg : Build) {c : UInt8} (hc : c ≠ 0)
    (h : FirstAt (StopFor tolower c) mem s k) (n : Nat) :
    strncasechrMusl cfg mem s c n
      = if k < n ∧ (tolower (mem (s + k)) = tolower c ∨
            ¬(cfg.haveAttrMayAlias = true ∧ k < alignUp s 8 - s))
        then some (s + k) else none := by
  have hstop : FirstAt (fun x => x = 0 ∨ (tolower x == tolower c) = true) mem s k := by
    simp only [beq_iff_eq]
    exact h
  simp only [strncasechrMusl]
  rw [nchrMusl_spec cfg ?_ ?_ hstop n]
  · simp only [beq_iff_eq]
  · rw [beq_eq_false_iff_ne]
    exact fun h => hc (tolower_eq_zero.mp h.symm)
  · intro p hgo i hi
    simp only [Bool.and_eq_true, Bool.not_eq_true'] at hgo
    obtain ⟨⟨hz, hlo⟩, hup⟩ := hgo
    rintro (h0 | hhit)
    · exact ne_zero_of_hasZero hz hi h0
    · exact ne_fold_of_hasZero hlo hup hi (beq_iff_eq.mp hhit)

end Words

/-! ## Against the plain scan -/

/-- The vectors are right when the letter is in the string and the bound
inside the address space, or when it is not and the bound is at most the
terminator - or wraps. -/
def VectorsRight (canon : UInt8 → UInt8) (s : Nat) (l : Bytes) (c : UInt8) (n : Nat) : Prop :=
  if canon c ∈ l.map canon then s + n ≤ sizeMax else n ≤ l.length ∨ sizeMax < s + n

/-- The words are right when the letter is in the string, the bound at
most the terminator, or the terminator in front of the first word. -/
def WordsRight (cfg : Build) (canon : UInt8 → UInt8) (s : Nat) (l : Bytes) (c : UInt8) (n : Nat) :
    Prop :=
  canon c ∈ l.map canon ∨ n ≤ l.length ∨
    cfg.haveAttrMayAlias = true ∧ l.length < alignUp s 8 - s

/-- The C library's version is always right. -/
def StrnchrRight (cfg : NchrBuild) (s : Nat) (l : Bytes) (c : UInt8) (n : Nat) : Prop :=
  match cfg.strnchrSimd with
  | some _ => VectorsRight id s l c n
  | none => True

def StrncasechrRight (cfg : NchrBuild) (s : Nat) (l : Bytes) (c : UInt8) (n : Nat) : Prop :=
  if !isalpha c then StrnchrRight cfg s l c n
  else
    match cfg.strncasechrSimd with
    | some _ => VectorsRight tolower s l c n
    | none => WordsRight cfg.toBuild tolower s l c n

section Right

variable {canon : UInt8 → UInt8} {mem : Mem} {s n k : Nat} {l : Bytes} {c : UInt8}

theorem CStr.firstAt (h : CStr mem s l) (canon : UInt8 → UInt8) (c : UInt8) :
    ∃ k ≤ l.length, FirstAt (StopFor canon c) mem s k := by
  obtain ⟨k, hk, hstop, hmin⟩ := @CStr.exists_stop mem s l h
    (fun x => x == 0 || canon x == canon c) (by simp)
  exact ⟨k, hk, by simpa [StopFor] using hstop, fun i hi => by simpa [StopFor] using hmin i hi⟩

/-- The letter is in the string exactly when the scan stops at it. -/
theorem CStr.mem_iff_hit (h : CStr mem s l) (hc : canon 0 ≠ canon c) (hk : k ≤ l.length)
    (hst : FirstAt (StopFor canon c) mem s k) :
    canon c ∈ l.map canon ↔ canon (mem (s + k)) = canon c := by
  constructor
  · intro hmem
    obtain ⟨x, hx, hxc⟩ := List.mem_map.mp hmem
    obtain ⟨i, hi, rfl⟩ := List.getElem_of_mem hx
    refine hst.1.resolve_left fun hz => ?_
    have hkl := (h.eq_zero_iff hk).mp hz
    exact hst.2 i (by omega) (Or.inr (by rw [h.bytes i hi, hxc]))
  · intro hhit
    have hkl : k < l.length := by
      refine Nat.lt_of_le_of_ne hk fun heq => hc ?_
      rw [← hhit, heq, h.nul]
    rw [← hhit, h.bytes k hkl]
    exact List.mem_map_of_mem (List.getElem_mem hkl)

/-- Without the letter the scan stops at the terminator. -/
theorem CStr.eq_length_of_miss (h : CStr mem s l) (hk : k ≤ l.length)
    (hst : FirstAt (StopFor canon c) mem s k) (hmiss : canon (mem (s + k)) ≠ canon c) :
    k = l.length :=
  (h.eq_zero_iff hk).mp (hst.1.resolve_right hmiss)

/-- What the plain scan finds, by where the loops stop. -/
theorem CStr.nchr_eq (h : CStr mem s l) (hc : canon 0 ≠ canon c) (hk : k ≤ l.length)
    (hst : FirstAt (StopFor canon c) mem s k) (n : Nat) :
    nchr canon l c n = if k < n ∧ canon (mem (s + k)) = canon c then some k else none :=
  h.search_take_eq hc hk hst n

theorem found_eq_iff {P Q : Prop} [Decidable P] [Decidable Q] :
    (if P then some (s + k) else none) = (if Q then some k else none).map (s + ·) ↔ (P ↔ Q) := by
  by_cases hP : P <;> by_cases hQ : Q <;> simp [hP, hQ]

theorem vectorsRight_iff (h : CStr mem s l) (hc : canon 0 ≠ canon c) (hk : k ≤ l.length)
    (hst : FirstAt (StopFor canon c) mem s k) (hn : n ≤ sizeMax) :
    (s + k < addSz s n ↔ k < n ∧ canon (mem (s + k)) = canon c) ↔ VectorsRight canon s l c n := by
  have hfits := h.fits
  simp only [VectorsRight, h.mem_iff_hit hc hk hst]
  simp only [sizeMax, addSz] at *
  by_cases hhit : canon (mem (s + k)) = canon c
  · simp only [hhit, and_true, if_true]
    omega
  · have hkl := h.eq_length_of_miss hk hst hhit
    simp only [hhit, and_false, if_false, iff_false]
    omega

theorem wordsRight_iff (cfg : Build) (h : CStr mem s l) (hc : canon 0 ≠ canon c)
    (hk : k ≤ l.length) (hst : FirstAt (StopFor canon c) mem s k) :
    (k < n ∧ (canon (mem (s + k)) = canon c ∨
        ¬(cfg.haveAttrMayAlias = true ∧ k < alignUp s 8 - s))
      ↔ k < n ∧ canon (mem (s + k)) = canon c) ↔ WordsRight cfg canon s l c n := by
  rw [WordsRight, h.mem_iff_hit hc hk hst]
  by_cases hhit : canon (mem (s + k)) = canon c
  · simp only [hhit, true_or]
  · have hkl := h.eq_length_of_miss hk hst hhit
    simp only [hhit, false_or, and_false, iff_false]
    rw [not_and, not_not, ← hkl, ← Nat.not_lt, ← imp_iff_not_or]

theorem simdNchr_iff {V : Nat} {mask : Nat → BitVec V} (hV : 0 < V)
    (hmask : ∀ p i, (mask p).getLsbD i = true ↔ i < V ∧ StopFor canon c (mem (p + i)))
    (h : CStr mem s l) (hc : canon 0 ≠ canon c) (hn : n ≤ sizeMax) :
    simdNchr V mask s n = .ok ((nchr canon l c n).map (s + ·)) ↔ VectorsRight canon s l c n := by
  obtain ⟨k, hk, hst⟩ := h.firstAt canon c
  have hfits := h.fits
  rw [simdNchr_spec hV hmask hst (by omega), h.nchr_eq hc hk hst, Except.ok.injEq, found_eq_iff]
  exact vectorsRight_iff h hc hk hst hn

theorem strnchrMusl_iff (cfg : Build) (h : CStr mem s l) (hc : c ≠ 0) :
    strnchrMusl cfg mem s c n = (nchr id l c n).map (s + ·) ↔ WordsRight cfg id s l c n := by
  obtain ⟨k, hk, hst⟩ := h.firstAt id c
  rw [strnchrMusl_spec cfg hc hst, h.nchr_eq hc.symm hk hst, found_eq_iff]
  exact wordsRight_iff cfg h hc.symm hk hst

theorem strncasechrMusl_iff (cfg : Build) (h : CStr mem s l) (hc : c ≠ 0) :
    strncasechrMusl cfg mem s c n = (nchr tolower l c n).map (s + ·)
      ↔ WordsRight cfg tolower s l c n := by
  have hc' : tolower 0 ≠ tolower c := fun h0 => hc (tolower_eq_zero.mp h0.symm)
  obtain ⟨k, hk, hst⟩ := h.firstAt tolower c
  rw [strncasechrMusl_spec cfg hc hst, h.nchr_eq hc' hk hst, found_eq_iff]
  exact wordsRight_iff cfg h hc' hk hst

/-- With the C library the offset is checked against the bound. -/
theorem strnchr_libc (cfg : NchrBuild) (hcfg : cfg.strnchrSimd = none) (h : CStr mem s l)
    (hc : c ≠ 0) : strnchr cfg mem s c n = .ok ((nchr id l c n).map (s + ·)) := by
  obtain ⟨k, hk, hst⟩ := h.firstAt id c
  have hfits := h.fits
  have hscan := @scan_eq (fun x => x == c || x == 0) mem k (sizeMax + 1) s
    (by simpa [StopFor, or_comm] using hst.1)
    (fun i hi => by simpa [StopFor, not_or, and_comm] using hst.2 i hi) (by omega)
  rw [strnchr, hcfg, h.nchr_eq hc.symm hk hst]
  simp only [strchr, hscan, bind, Except.bind, pure, Except.pure, id]
  by_cases hhit : mem (s + k) = c
  · simp only [hhit, if_true, and_true, show s + k - s = k by omega]
    split <;> rfl
  · simp only [hhit, if_false, and_false]
    rfl

theorem strnchr_right (cfg : NchrBuild) (h : CStr mem s l) (hc : c ≠ 0) (hn : n ≤ sizeMax) :
    strnchr cfg mem s c n = .ok ((nchr id l c n).map (s + ·)) ↔ StrnchrRight cfg s l c n := by
  rw [StrnchrRight]
  cases hcfg : cfg.strnchrSimd with
  | some v =>
      rw [strnchr, hcfg]
      exact simdNchr_iff v.bytes_pos getLsbD_chrNulMask h hc.symm hn
  | none => exact iff_of_true (strnchr_libc cfg hcfg h hc) trivial

/-- Only a letter has two cases. -/
theorem nchr_of_not_isalpha (hc : ¬isalpha c = true) (h : CStr mem s l) (hc0 : c ≠ 0) :
    nchr tolower l c n = nchr id l c n := by
  have hc' : tolower 0 ≠ tolower c := fun h0 => hc0 (tolower_eq_zero.mp h0.symm)
  obtain ⟨k, hk, hst⟩ := h.firstAt id c
  have hst' : FirstAt (StopFor tolower c) mem s k := by
    simpa only [FirstAt, StopFor, tolower_eq_iff_of_not hc, id] using hst
  rw [h.nchr_eq hc' hk hst', h.nchr_eq hc0.symm hk hst]
  simp only [tolower_eq_iff_of_not hc, id]

theorem strncasechr_right (cfg : NchrBuild) (h : CStr mem s l) (hc : c ≠ 0) (hn : n ≤ sizeMax) :
    strncasechr cfg mem s c n = .ok ((nchr tolower l c n).map (s + ·))
      ↔ StrncasechrRight cfg s l c n := by
  rw [strncasechr, StrncasechrRight]
  by_cases hlet : isalpha c = true
  · simp only [hlet, Bool.not_true, Bool.false_eq_true, if_false]
    cases cfg.strncasechrSimd with
    | some v =>
        refine simdNchr_iff v.bytes_pos getLsbD_caseNulMask h ?_ hn
        exact fun h0 => hc (tolower_eq_zero.mp h0.symm)
    | none =>
        simp only [Except.ok.injEq]
        exact strncasechrMusl_iff cfg.toBuild h hc
  · simp only [hlet, Bool.not_false, if_true]
    rw [nchr_of_not_isalpha hlet h hc]
    exact strnchr_right cfg h hc hn

end Right

/-- Whatever the build, the string and the alignment: exactly when the
address of the first occurrence below the bound and before the terminator
is returned. -/
theorem strnchr_iff (cfg : NchrBuild) {mem : Mem} {s n : Nat} {l : Bytes} {c : UInt8}
    (h : CStr mem s l) (hc : c ≠ 0) (hn : n ≤ sizeMax) :
    (strnchr cfg mem s c n = .ok ((nchr id l c n).map (s + ·)) ↔ StrnchrRight cfg s l c n) ∧
      (strncasechr cfg mem s c n = .ok ((nchr tolower l c n).map (s + ·)) ↔
        StrncasechrRight cfg s l c n) ∧
      (strnchrMusl cfg.toBuild mem s c n = (nchr id l c n).map (s + ·) ↔
        WordsRight cfg.toBuild id s l c n) ∧
      (strncasechrMusl cfg.toBuild mem s c n = (nchr tolower l c n).map (s + ·) ↔
        WordsRight cfg.toBuild tolower s l c n) :=
  ⟨strnchr_right cfg h hc hn, strncasechr_right cfg h hc hn, strnchrMusl_iff cfg.toBuild h hc,
    strncasechrMusl_iff cfg.toBuild h hc⟩

theorem cstr_xyz : CStr (memOf [7, 120, 121, 122]) 1 [120, 121, 122] :=
  ⟨by decide, by decide, by decide, by decide⟩

/-- 'y' in "xyz" at an odd address. -/
theorem strnchr_iff_xyz :
    (strnchr ⟨sse2Build, false, false⟩ (memOf [7, 120, 121, 122]) 1 121 3
        = .ok ((nchr id [120, 121, 122] 121 3).map (1 + ·)) ↔
      StrnchrRight ⟨sse2Build, false, false⟩ 1 [120, 121, 122] 121 3) ∧
    (strncasechr ⟨sse2Build, false, false⟩ (memOf [7, 120, 121, 122]) 1 121 3
        = .ok ((nchr tolower [120, 121, 122] 121 3).map (1 + ·)) ↔
      StrncasechrRight ⟨sse2Build, false, false⟩ 1 [120, 121, 122] 121 3) ∧
    (strnchrMusl sse2Build (memOf [7, 120, 121, 122]) 1 121 3
        = (nchr id [120, 121, 122] 121 3).map (1 + ·) ↔
      WordsRight sse2Build id 1 [120, 121, 122] 121 3) ∧
    (strncasechrMusl sse2Build (memOf [7, 120, 121, 122]) 1 121 3
        = (nchr tolower [120, 121, 122] 121 3).map (1 + ·) ↔
      WordsRight sse2Build tolower 1 [120, 121, 122] 121 3) :=
  strnchr_iff ⟨sse2Build, false, false⟩ cstr_xyz (by decide) (by decide)

/-- 'q' is not in "xyz", the bound is behind the terminator: the vectors
return the terminator. -/
theorem not_strnchr_terminator :
    ¬∀ (cfg : NchrBuild) (mem : Mem) (s n : Nat) (l : Bytes) (c : UInt8), CStr mem s l → c ≠ 0 →
      n ≤ sizeMax → strnchr cfg mem s c n = .ok ((nchr id l c n).map (s + ·)) := by
  intro hall
  have hright := (strnchr_right ⟨sse2Build, false, false⟩ cstr_xyz (by decide) (by decide)).mp
    (hall _ _ 1 4 _ 113 cstr_xyz (by decide) (by decide))
  have hnot : ¬VectorsRight id 1 [120, 121, 122] 113 4 := by
    rw [VectorsRight]
    decide
  exact hnot hright

end Jstr
