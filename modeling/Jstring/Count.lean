import Jstring.ReplaceGrow

/-!
# Counting occurrences

`jstr_countchr`, `jstr_countchr_len`, `jstr_count_len`, `jstr_count` and
the compiled `jstr_count_len_exec` of `include/string.h`. A byte is
counted by loops of their own, some with vectors; anything longer by
searching again behind each match (`countMatches`).

- `Tally`: what a byte-counting loop has counted and what it still has to
  look at make up the count it returns;
- `countMatches_spec`: searching again and again counts the leftmost
  occurrences, `Words.countAll`;
- `count_eq_replaced`: every way to count agrees with every way to
  replace.
-/

namespace Jstr

open Words Bits

/-! ## One byte, delimited by a length -/

/-- `cnt += *p == c`. -/
def hit (mem : Mem) (c : UInt8) (p : Nat) : Nat := if mem p = c then 1 else 0

/-- `for (; n--; cnt += *p++ == c) {}`. -/
def countBytes (mem : Mem) (c : UInt8) : Nat → Nat → Nat → Nat
  | 0, _, cnt => cnt
  | n + 1, p, cnt => countBytes mem c n (p + 1) (cnt + hit mem c p)

/-- The state of a counting loop. -/
structure Counter where
  n : Nat
  p : Nat
  cnt : Nat

/-- The bytes before the first aligned vector, `i` of them; on the left
what is returned when the range ends there. -/
def countHead (mem : Mem) (c : UInt8) : Nat → Counter → Nat ⊕ Counter
  | 0, s => .inr s
  | i + 1, s =>
    if s.n = 0 then .inl s.cnt
    else countHead mem c i ⟨s.n - 1, s.p + 1, s.cnt + hit mem c s.p⟩

/-- The vectors that lie in the range. -/
def countVecs (V : Nat) (mem : Mem) (c : UInt8) : Nat → Counter → Run Counter
  | 0, _ => .error .diverge
  | fuel + 1, s =>
    if s.n ≥ V then
      let m := cmpeq8Mask V (loadu mem s.p) (setone8 c)
      countVecs V mem c fuel ⟨s.n - V, s.p + V, s.cnt + popcnt m⟩
    else .ok s

/-- `jstr_internal_simd_countchr_len`. -/
def simdCountchrLen (V : Nat) (mem : Mem) (s : Nat) (c : UInt8) (n : Nat) : Run Nat :=
  match countHead mem c (alignUp s V - s) ⟨n, s, 0⟩ with
  | .inl cnt => .ok cnt
  | .inr s => do
    let s ← countVecs V mem c (n + 1) s
    return countBytes mem c s.n s.p s.cnt

/-- `jstr_countchr_len`. -/
def countchrLen (cfg : Build) (mem : Mem) (s : Nat) (c : UInt8) (sz : Nat) : Run Nat :=
  match memchr mem s c sz with
  | none => .ok 0
  | some p =>
    let sz := s + sz - p
    match cfg.countchrLenSimd with
    | none => .ok (countBytes mem c sz p 0)
    | some v => simdCountchrLen v.bytes mem p c sz

/-- What the loop returns from here: what it has counted, and the bytes it
still has to look at. -/
def Counter.total (mem : Mem) (c : UInt8) (s : Counter) : Nat :=
  s.cnt + (window mem s.p s.n).count c

section Length

variable {mem : Mem} {c : UInt8}

theorem count_window_succ (p n : Nat) :
    (window mem p (n + 1)).count c = hit mem c p + (window mem (p + 1) n).count c := by
  rw [window_succ, List.count_cons, hit, Nat.add_comm]
  simp only [beq_iff_eq]

theorem countBytes_eq : ∀ (n p cnt : Nat),
    countBytes mem c n p cnt = cnt + (window mem p n).count c
  | 0, p, cnt => rfl
  | n + 1, p, cnt => by
      rw [countBytes, countBytes_eq n, count_window_succ, Nat.add_assoc]

theorem countHead_total : ∀ (i : Nat) (s : Counter),
    match countHead mem c i s with
    | .inl cnt => cnt = s.total mem c
    | .inr s' => s'.n ≤ s.n ∧ s'.total mem c = s.total mem c
  | 0, s => ⟨Nat.le_refl _, rfl⟩
  | i + 1, ⟨n, p, cnt⟩ => by
      rw [countHead]
      cases n with
      | zero => exact rfl
      | succ n =>
          have ih := countHead_total i ⟨n, p + 1, cnt + hit mem c p⟩
          have hstep : Counter.total mem c ⟨n, p + 1, cnt + hit mem c p⟩
              = Counter.total mem c ⟨n + 1, p, cnt⟩ := by
            simp only [Counter.total, count_window_succ, Nat.add_assoc]
          rw [hstep] at ih
          rw [if_neg (Nat.succ_ne_zero n)]
          rcases hr : countHead mem c i ⟨n, p + 1, cnt + hit mem c p⟩ with r | s'
          · rw [hr] at ih
            simp only [Nat.add_sub_cancel, hr]
            exact ih
          · rw [hr] at ih
            simp only [Nat.add_sub_cancel, hr]
            exact ⟨Nat.le_succ_of_le ih.1, ih.2⟩

/-- A vector has one lane for each byte of the block it is loaded from. -/
theorem popcnt_cmpeq8Mask (V p : Nat) :
    popcnt (cmpeq8Mask V (loadu mem p) (setone8 c)) = (window mem p V).count c := by
  rw [cmpeq8Mask, popcnt_ofLanes, List.count, window, List.countP_map]
  rfl

theorem countVecs_total {V : Nat} (hV : 0 < V) : ∀ (fuel : Nat) (s : Counter), s.n < fuel →
    ∃ s', countVecs V mem c fuel s = .ok s' ∧ s'.total mem c = s.total mem c
  | 0, s, hf => absurd hf (Nat.not_lt_zero _)
  | fuel + 1, ⟨n, p, cnt⟩, hf => by
      rw [countVecs]
      by_cases hn : n ≥ V
      · rw [if_pos hn]
        obtain ⟨s', hrun, htot⟩ := countVecs_total hV fuel
          ⟨n - V, p + V, cnt + popcnt (cmpeq8Mask V (loadu mem p) (setone8 c))⟩
          (by simp only at hf ⊢; omega)
        refine ⟨s', hrun, htot.trans ?_⟩
        obtain ⟨k, rfl⟩ : ∃ k, n = V + k := ⟨n - V, by omega⟩
        simp only [Counter.total, popcnt_cmpeq8Mask, window_add, List.count_append,
          Nat.add_sub_cancel_left, Nat.add_assoc]
      · rw [if_neg hn]
        exact ⟨_, rfl, rfl⟩

theorem simdCountchrLen_spec {V : Nat} (hV : 0 < V) (s n : Nat) :
    simdCountchrLen V mem s c n = .ok ((window mem s n).count c) := by
  have hhead := @countHead_total mem c (alignUp s V - s) ⟨n, s, 0⟩
  rw [simdCountchrLen]
  rw [show Counter.total mem c ⟨n, s, 0⟩ = (window mem s n).count c from Nat.zero_add _] at hhead
  rcases hr : countHead mem c (alignUp s V - s) ⟨n, s, 0⟩ with cnt | s₁
  · rw [hr] at hhead
    exact congrArg Except.ok hhead
  · rw [hr] at hhead
    obtain ⟨s₂, hrun, htot⟩ := @countVecs_total mem c V hV (n + 1) s₁ (Nat.lt_succ_of_le hhead.1)
    simp only [hrun, bind, Except.bind, pure, Except.pure]
    rw [countBytes_eq]
    exact congrArg Except.ok (htot.trans hhead.2)

/-- A range counts from its first hit on. -/
theorem count_memchr {s : Nat} {l : Bytes} (h : MemAt mem s l) :
    match memchr mem s c l.length with
    | none => l.count c = 0
    | some p => l.count c = (window mem p (s + l.length - p)).count c := by
  rw [memchr_eq_search h]
  cases hk : search [c] l with
  | none => exact List.count_eq_zero_of_not_mem (not_mem_of_search_none hk)
  | some k =>
      have hlen := search_lt hk
      simp only [Option.map_some]
      rw [show s + l.length - (s + k) = (l.drop k).length by rw [List.length_drop]; omega,
        window_of_memAt (h.drop (by omega)), ← List.take_append_drop k l, List.count_append,
        List.count_eq_zero_of_not_mem (not_mem_take_of_search hk), Nat.zero_add,
        List.take_append_drop]

theorem countchrLen_spec (cfg : Build) {s : Nat} {l : Bytes} (h : MemAt mem s l) :
    countchrLen cfg mem s c l.length = .ok (countAll [c] l) := by
  have hcount := @count_memchr mem c s l h
  rw [countAll_singleton, countchrLen]
  cases hp : memchr mem s c l.length with
  | none =>
      rw [hp] at hcount
      exact congrArg Except.ok hcount.symm
  | some p =>
      rw [hp] at hcount
      simp only
      cases cfg.countchrLenSimd with
      | none => simp only [countBytes_eq, Nat.zero_add, hcount]
      | some v =>
          simp only
          rw [simdCountchrLen_spec v.bytes_pos, hcount]

end Length

/-! ## One byte, delimited by the terminator -/

/-- The bytes before the first aligned vector; on the left what is
returned when the string ends there. -/
def countHeadEol (mem : Mem) (c : UInt8) : Nat → Nat → Nat → Nat ⊕ (Nat × Nat)
  | 0, p, cnt => .inr (p, cnt)
  | i + 1, p, cnt =>
    if mem p = 0 then .inl cnt else countHeadEol mem c i (p + 1) (cnt + hit mem c p)

/-- The vectors without a NUL. -/
def countVecsEol (V : Nat) (mem : Mem) (c : UInt8) : Nat → Nat → Nat → Run (Nat × Nat)
  | 0, _, _ => .error .diverge
  | fuel + 1, p, cnt =>
    let m := cmpeq8Mask V (loadu mem p) (setone8 c)
    let zm := cmpeq8Mask V (loadu mem p) (setone8 0)
    let cnt0 := if m ≠ 0#V then popcnt m else 0
    if zm ≠ 0#V then .ok (p, cnt) else countVecsEol V mem c fuel (p + V) (cnt + cnt0)

/-- `for (; *p; cnt += *p++ == c) {}`. -/
def countBytesEol (mem : Mem) (c : UInt8) : Nat → Nat → Nat → Run Nat
  | 0, _, _ => .error .diverge
  | fuel + 1, p, cnt =>
    if mem p = 0 then .ok cnt else countBytesEol mem c fuel (p + 1) (cnt + hit mem c p)

/-- `jstr_internal_simd_countchr`. -/
def simdCountchr (V : Nat) (mem : Mem) (s : Nat) (c : UInt8) : Run Nat :=
  match countHeadEol mem c (alignUp s V - s) s 0 with
  | .inl cnt => .ok cnt
  | .inr (p, cnt) => do
    let (p, cnt) ← countVecsEol V mem c (sizeMax + 1) p cnt
    countBytesEol mem c (sizeMax + 1) p cnt

/-- `for (; (p = next(p)) != NULL; ++cnt, p += findLen) {}`. -/
def countMatches (next : Nat → Run (Option Nat)) (findLen : Nat) : Nat → Nat → Nat → Run Nat
  | 0, _, _ => .error .diverge
  | fuel + 1, p, cnt => do
    match ← next p with
    | none => .ok cnt
    | some p => countMatches next findLen fuel (p + findLen) (cnt + 1)

/-- `jstr_countchr`. -/
def countchr (cfg : Build) (mem : Mem) (s : Nat) (c : UInt8) : Run Nat := do
  match ← strchr mem s c with
  | none => .ok 0
  | some s =>
    match cfg.countchrSimd with
    | some v => simdCountchr v.bytes mem s c
    | none =>
      if c ≠ 0 then countMatches (fun p => strchr mem p c) 1 (sizeMax + 1) s 0
      else .ok 0

section Eol

variable {mem : Mem} {c : UInt8} {p n cnt : Nat}

/-- The terminator is `n` bytes behind `p`. -/
structure EndsIn (mem : Mem) (p n : Nat) : Prop where
  nonzero : ∀ i < n, mem (p + i) ≠ 0
  nul : mem (p + n) = 0

theorem CStr.endsIn {l : Bytes} (h : CStr mem p l) : EndsIn mem p l.length :=
  ⟨fun _ => h.ne_zero, h.nul⟩

theorem EndsIn.eq_zero (h : EndsIn mem p n) (h0 : mem p = 0) : n = 0 := by
  by_contra hne
  exact h.nonzero 0 (Nat.pos_of_ne_zero hne) h0

theorem EndsIn.advance (h : EndsIn mem p n) {k : Nat} (hk : k ≤ n) :
    EndsIn mem (p + k) (n - k) := by
  refine ⟨fun i hi => ?_, ?_⟩
  · rw [Nat.add_assoc]
    exact h.nonzero _ (by omega)
  · rw [Nat.add_assoc, Nat.add_sub_cancel' hk]
    exact h.nul

/-- A step over a byte that is not the terminator. -/
theorem EndsIn.step (h : EndsIn mem p n) (h0 : mem p ≠ 0) :
    ∃ m, n = m + 1 ∧ EndsIn mem (p + 1) m := by
  have hpos : n ≠ 0 := by
    rintro rfl
    exact h0 h.nul
  exact ⟨n - 1, by omega, h.advance (by omega)⟩

theorem countHeadEol_spec : ∀ (i : Nat) {p n cnt : Nat}, EndsIn mem p n →
    match countHeadEol mem c i p cnt with
    | .inl r => r = cnt + (window mem p n).count c
    | .inr (p', cnt') => ∃ n' ≤ n, EndsIn mem p' n' ∧
        cnt' + (window mem p' n').count c = cnt + (window mem p n).count c
  | 0, p, n, cnt, h => ⟨n, Nat.le_refl n, h, rfl⟩
  | i + 1, p, n, cnt, h => by
      rw [countHeadEol]
      by_cases h0 : mem p = 0
      · rw [if_pos h0, h.eq_zero h0]
        exact rfl
      · rw [if_neg h0]
        obtain ⟨m, rfl, h'⟩ := h.step h0
        have ih := @countHeadEol_spec i (p + 1) m (cnt + hit mem c p) h'
        rw [count_window_succ, ← Nat.add_assoc]
        rcases hr : countHeadEol mem c i (p + 1) (cnt + hit mem c p) with r | ⟨p', cnt'⟩
        · rw [hr] at ih
          exact ih
        · rw [hr] at ih
          obtain ⟨n', hn', hend, htot⟩ := ih
          exact ⟨n', Nat.le_succ_of_le hn', hend, htot⟩

theorem countVecsEol_spec {V : Nat} (hV : 0 < V) : ∀ (fuel : Nat) {p n cnt : Nat},
    EndsIn mem p n → n < fuel →
    ∃ p' n' cnt', countVecsEol V mem c fuel p cnt = .ok (p', cnt') ∧ n' ≤ n ∧ EndsIn mem p' n' ∧
      cnt' + (window mem p' n').count c = cnt + (window mem p n).count c
  | 0, p, n, cnt, _, hf => absurd hf (Nat.not_lt_zero _)
  | fuel + 1, p, n, cnt, h, hf => by
      rw [countVecsEol]
      by_cases hz : cmpeq8Mask V (loadu mem p) (setone8 0) = 0#V
      · rw [if_neg (not_not_intro hz)]
        have hmiss : ∀ i < V, mem (p + i) ≠ 0 := by
          intro i hi h0
          have hbit : (cmpeq8Mask V (loadu mem p) (setone8 0)).getLsbD i = true := by
            rw [getLsbD_cmpeq8Mask, loadu, setone8, h0]
            simp [hi]
          rw [hz] at hbit
          simp at hbit
        have hVn : V ≤ n := by
          by_contra hlt
          exact hmiss n (by omega) h.nul
        have hcnt : (if cmpeq8Mask V (loadu mem p) (setone8 c) ≠ 0#V then
            popcnt (cmpeq8Mask V (loadu mem p) (setone8 c)) else 0)
              = (window mem p V).count c := by
          rw [← popcnt_cmpeq8Mask]
          split
          · rfl
          · rename_i hm
            rw [not_not.mp hm, popcnt]
            exact (List.countP_eq_zero.mpr fun i _ => by simp).symm
        obtain ⟨p', n', cnt', hrun, hle, hend, htot⟩ := @countVecsEol_spec V hV fuel (p + V)
          (n - V) (cnt + (window mem p V).count c) (h.advance hVn) (by omega)
        refine ⟨p', n', cnt', by rw [hcnt, hrun], by omega, hend, htot.trans ?_⟩
        rw [← Nat.add_sub_cancel' hVn, window_add, List.count_append, Nat.add_sub_cancel_left,
          Nat.add_assoc]
      · rw [if_pos hz]
        exact ⟨p, n, cnt, rfl, Nat.le_refl n, h, rfl⟩

theorem countBytesEol_eq : ∀ (fuel : Nat) {p n cnt : Nat}, EndsIn mem p n → n < fuel →
    countBytesEol mem c fuel p cnt = .ok (cnt + (window mem p n).count c)
  | 0, p, n, cnt, _, hf => absurd hf (Nat.not_lt_zero _)
  | fuel + 1, p, n, cnt, h, hf => by
      rw [countBytesEol]
      by_cases h0 : mem p = 0
      · rw [if_pos h0, h.eq_zero h0]
        rfl
      · obtain ⟨m, rfl, h'⟩ := h.step h0
        rw [if_neg h0, countBytesEol_eq fuel h' (by omega), count_window_succ, Nat.add_assoc]

theorem simdCountchr_spec {V : Nat} (hV : 0 < V) (h : EndsIn mem p n) (hn : n ≤ sizeMax) :
    simdCountchr V mem p c = .ok ((window mem p n).count c) := by
  have hhead := @countHeadEol_spec mem c (alignUp p V - p) p n 0 h
  rw [simdCountchr]
  rw [Nat.zero_add] at hhead
  rcases hr : countHeadEol mem c (alignUp p V - p) p 0 with r | ⟨p₁, cnt₁⟩
  · rw [hr] at hhead
    exact congrArg Except.ok hhead
  · rw [hr] at hhead
    obtain ⟨n₁, hle₁, hend₁, htot₁⟩ := hhead
    obtain ⟨p₂, n₂, cnt₂, hrun, hle₂, hend₂, htot₂⟩ := @countVecsEol_spec mem c V hV (sizeMax + 1)
      p₁ n₁ cnt₁ hend₁ (by omega)
    simp only [hrun, bind, Except.bind]
    rw [countBytesEol_eq (sizeMax + 1) hend₂ (by omega), htot₂, htot₁]

end Eol

/-! ## Searching again behind each match -/

/-- Behind each match the search goes on in the rest of the text. -/
theorem countMatches_spec {next : Nat → Run (Option Nat)} {FIND l : Bytes} {p : Nat}
    (hfind : FIND ≠ [])
    (hnext : ∀ k ≤ l.length, next (p + k) = .ok ((search FIND (l.drop k)).map (p + k + ·))) :
    ∀ (fuel k cnt : Nat), k ≤ l.length → l.length < fuel + k →
      countMatches next FIND.length fuel (p + k) cnt = .ok (cnt + countAll FIND (l.drop k))
  | 0, k, cnt, hk, hf => by omega
  | fuel + 1, k, cnt, hk, hf => by
      have hpos := List.length_pos_of_ne_nil hfind
      rw [countMatches, hnext k hk]
      cases hs : search FIND (l.drop k) with
      | none =>
          rw [countAll_of_search_none hs]
          rfl
      | some i =>
          have hlen := search_lt hs
          rw [List.length_drop] at hlen
          have ih := countMatches_spec hfind hnext fuel (k + (i + FIND.length)) (cnt + 1)
            (by omega) (by omega)
          rw [countAll_of_search_some hfind hs, List.drop_drop]
          simp only [Option.map_some, bind, Except.bind]
          rw [show p + k + i + FIND.length = p + (k + (i + FIND.length)) by omega, ih]
          congr 1
          omega

theorem countchr_spec (cfg : Build) {mem : Mem} {s : Nat} {l : Bytes} (h : CStr mem s l)
    {c : UInt8} (hc : c ≠ 0) : countchr cfg mem s c = .ok (countAll [c] l) := by
  have hfits := h.fits
  rw [countchr, h.strchr_eq hc]
  cases hk : search [c] l with
  | none =>
      rw [countAll_of_search_none hk]
      rfl
  | some k =>
      have hlen := search_lt hk
      have htail := h.drop (show k ≤ l.length by omega)
      have hcount : countAll [c] l = countAll [c] (l.drop k) := by
        rw [countAll_singleton, countAll_singleton]
        conv_lhs => rw [← List.take_append_drop k l]
        rw [List.count_append, List.count_eq_zero_of_not_mem (not_mem_take_of_search hk),
          Nat.zero_add]
      rw [hcount]
      simp only [Option.map_some, bind, Except.bind]
      cases cfg.countchrSimd with
      | some v =>
          have hrest : (l.drop k).length ≤ sizeMax := by rw [List.length_drop]; omega
          simp only
          rw [simdCountchr_spec v.bytes_pos htail.endsIn hrest, window_of_memAt htail.bytes,
            countAll_singleton]
      | none =>
          have hmatches := @countMatches_spec (fun p => strchr mem p c) [c] (l.drop k) (s + k)
            (List.cons_ne_nil _ _) (fun i hi => (htail.drop hi).strchr_eq hc) (sizeMax + 1) 0 0
            (Nat.zero_le _) (by rw [List.length_drop]; omega)
          rw [List.drop_zero, Nat.zero_add] at hmatches
          simp only [if_pos hc]
          exact hmatches

/-! ## Strings -/

/-- `jstr_count_len_exec`. -/
def countLenExec (cfg : Build) (mem : Mem) (t : TwowayTy) (s sz find findLen : Nat) : Run Nat :=
  if findLen = 1 then countchrLen cfg mem s (mem find) sz
  else if findLen = 0 then .ok 0
  else
    let last := s + sz
    countMatches (fun p => memmemExec cfg mem t p (last - p) find findLen) findLen (sz + 1) s 0

/-- `jstr_count_len`. -/
def countLen (cfg : Build) (mem : Mem) (s sz find findLen : Nat) : Run Nat := do
  let t ← memmemComp cfg mem cfg.uninitTable find findLen
  countLenExec cfg mem t s sz find findLen

/-- `jstr_strstr_comp`. -/
def strstrComp (mem : Mem) (t : TwowayTy) (ne : Nat) : Run TwowayTy :=
  compEol id memcmpEq mem t ne

/-- `jstr_strstr_exec`; `JSTR_TWOWAY_STRSTR_THRES` is
`JSTR_TWOWAY_MEMMEM_THRES`. -/
def strstrExec (cfg : Build) (mem : Mem) (t : TwowayTy) (hs ne : Nat) : Run (Option Nat) :=
  if twowayGetLen t ≤ twowayMemmemThres cfg then libcStrstr id mem hs ne
  else muslExecEol id mem t hs ne

/-- `jstr_count`. -/
def count (cfg : Build) (mem : Mem) (s find : Nat) : Run Nat :=
  if mem find = 0 then .ok 0
  else if mem (find + 1) = 0 then countchr cfg mem s (mem find)
  else if mem s = 0 then .ok 0
  else do
    let t ← strstrComp mem cfg.uninitTable find
    countMatches (fun p => strstrExec cfg mem t p find) (twowayGetLen t) (sizeMax + 1) s 0

section Strings

variable {mem : Mem} {s find : Nat} {S FIND : Bytes}

theorem countLenExec_spec {cfg : Build} {t : TwowayTy} (ht : Prepared cfg FIND t)
    (hs : MemAt mem s S) (hf : MemAt mem find FIND) (hfind : FIND ≠ []) :
    countLenExec cfg mem t s S.length find FIND.length = .ok (countAll FIND S) := by
  have hpos := List.length_pos_of_ne_nil hfind
  rw [countLenExec]
  by_cases h1 : FIND.length = 1
  · obtain ⟨c, rfl⟩ := List.length_eq_one_iff.mp h1
    rw [if_pos h1, memAt_head hf rfl, countchrLen_spec cfg hs]
  · rw [if_neg h1, if_neg (by omega)]
    have hmatches := @countMatches_spec
      (fun p => memmemExec cfg mem t p (s + S.length - p) find FIND.length) FIND S s hfind
      (fun k hk => by
        rw [show s + S.length - (s + k) = (S.drop k).length by rw [List.length_drop]; omega]
        exact memmemExec_prepared ht (hs.drop hk) hf)
      (S.length + 1) 0 0 (Nat.zero_le _) (by omega)
    rw [List.drop_zero, Nat.zero_add] at hmatches
    exact hmatches

theorem countLen_spec (cfg : Build) (hs : MemAt mem s S) (hf : MemAt mem find FIND)
    (hfind : FIND ≠ []) :
    countLen cfg mem s S.length find FIND.length = .ok (countAll FIND S) := by
  obtain ⟨t, hcomp, ht⟩ := memmemComp_prepared cfg hf cfg.uninitTable
  rw [countLen, hcomp]
  exact countLenExec_spec ht hs hf hfind

theorem strstrComp_spec (hf : CStr mem find FIND) (t : TwowayTy) :
    ∃ t', strstrComp mem t find = .ok t' ∧ t'.needleLen = FIND.length ∧
      (FIND.length > 2 → ∃ c, Compiled (letters id mem find) t' c) :=
  @compEol_spec id memcmpEq mem find FIND (fun _ _ _ => memcmpEq_iff) hf t

theorem two_le_twowayMemmemThres (cfg : Build) : 2 ≤ twowayMemmemThres cfg := by
  rw [twowayMemmemThres]
  cases cfg.memmemSimd with
  | none => exact Nat.le_refl 2
  | some v => cases v <;> decide

theorem strstrExec_spec (cfg : Build) (hs : CStr mem s S) (hf : CStr mem find FIND)
    {t : TwowayTy} (hlen : t.needleLen = FIND.length)
    (ht : FIND.length > 2 → ∃ c, Compiled (letters id mem find) t c) :
    strstrExec cfg mem t s find = .ok ((search FIND S).map (s + ·)) := by
  have hthres := two_le_twowayMemmemThres cfg
  rw [strstrExec, twowayGetLen, hlen]
  by_cases h : FIND.length ≤ twowayMemmemThres cfg
  · rw [if_pos h, libcStrstr_spec hs hf, List.map_id, List.map_id]
  · obtain ⟨c, hc⟩ := ht (by omega)
    rw [if_neg h, muslExecEol_spec hc hs hf.bytes hlen, List.map_id, List.map_id]

theorem count_spec (cfg : Build) (hs : CStr mem s S) (hf : CStr mem find FIND)
    (hfind : FIND ≠ []) : count cfg mem s find = .ok (countAll FIND S) := by
  have hpos := List.length_pos_of_ne_nil hfind
  have hfits := hs.fits
  rw [count, if_neg (hf.head_ne_zero hpos)]
  by_cases h1 : mem (find + 1) = 0
  · obtain ⟨c, rfl⟩ := List.length_eq_one_iff.mp ((hf.eq_zero_iff hpos).mp h1).symm
    have hc := hf.head_ne_zero hpos
    rw [memAt_head hf.bytes rfl] at hc ⊢
    rw [if_pos h1, countchr_spec cfg hs hc]
  rw [if_neg h1]
  by_cases h0 : mem s = 0
  · have hnil : S = [] := List.length_eq_zero_iff.mp (hs.endsIn.eq_zero h0)
    rw [if_pos h0, hnil]
    rfl
  rw [if_neg h0]
  obtain ⟨t, hcomp, hlen, ht⟩ := strstrComp_spec hf cfg.uninitTable
  have hmatches := @countMatches_spec (fun p => strstrExec cfg mem t p find) FIND S s hfind
    (fun k hk => strstrExec_spec cfg (hs.drop hk) hf hlen ht) (sizeMax + 1) 0 0 (Nat.zero_le _)
    (by omega)
  rw [List.drop_zero, Nat.zero_add] at hmatches
  simp only [hcomp, bind, Except.bind, twowayGetLen, hlen]
  exact hmatches

/-- However the occurrences are counted, the number is the one a removal or
a replacement of all of them on a copy of the string returns; a replacement
fails only where the text grows and room for it is refused. -/
theorem count_eq_replaced (cfg : Build) (hs : CStr mem s S) (hf : CStr mem find FIND)
    (hfind : FIND ≠ []) :
    countLen cfg mem s S.length find FIND.length = .ok (countAll FIND S) ∧
      count cfg mem s find = .ok (countAll FIND S) ∧
      (∀ t₀, (do
        let t ← memmemComp cfg mem t₀ find FIND.length
        countLenExec cfg mem t s S.length find FIND.length) = .ok (countAll FIND S)) ∧
      ∀ (env : Mem) (j : JstrTy) (q : Nat), Str j S → MemAt env q FIND →
        (∀ b, j.data = some b → Apart b q FIND.length) →
        (∃ j', rmallLen cfg env j q FIND.length = .ok (countAll FIND S, j') ∧
          Str j' (replaceAll FIND [] S)) ∧
        ∀ (al : Alloc) (rplc : Bytes), AllocApart al q FIND.length →
          S.length + (replaceAll FIND rplc S).length + 1 ≤ sizeMax →
          (rplc.length ≤ FIND.length → ∃ j',
            rplcallLen cfg env al j q FIND.length rplc = .ok (countAll FIND S, j') ∧
              Str j' (replaceAll FIND rplc S)) ∧
          Replaced al (rplcnRoom FIND rplc S 0 sizeMax) j (replaceAll FIND rplc S)
            (countAll FIND S) (rplcallLen cfg env al j q FIND.length rplc) := by
  refine ⟨countLen_spec cfg hs.bytes hf.bytes hfind, count_spec cfg hs hf hfind, fun t₀ => ?_,
    fun env j q hj hq hap => ⟨?_, fun al rplc hal hfit => ?_⟩⟩
  · obtain ⟨t, hcomp, ht⟩ := memmemComp_prepared cfg hf.bytes t₀
    rw [hcomp]
    exact countLenExec_spec ht hs.bytes hf.bytes hfind
  · have hfits := hs.fits
    exact rmallLen_spec cfg hj hs.nonzero hq hfind hap (by omega)
  · have hrepl := @rplcallLen_spec cfg env al j q S FIND rplc hj hs.nonzero hq hfind hap hal hfit
    exact ⟨fun hle => hrepl.ok_of_le (rplcnRoom_le_capacity hj hle), hrepl⟩

/-- "aa" in "aaaa". -/
theorem count_eq_replaced_aaaa :
    countLen sse2Build (memOf [97, 97, 97, 97, 0, 97, 97, 0]) 0 4 5 2 = .ok 2 ∧
      count sse2Build (memOf [97, 97, 97, 97, 0, 97, 97, 0]) 0 5 = .ok 2 ∧
      (∀ t₀, (do
        let t ← memmemComp sse2Build (memOf [97, 97, 97, 97, 0, 97, 97, 0]) t₀ 5 2
        countLenExec sse2Build (memOf [97, 97, 97, 97, 0, 97, 97, 0]) t 0 4 5 2) = .ok 2) ∧
      ∀ (env : Mem) (j : JstrTy) (q : Nat), Str j [97, 97, 97, 97] → MemAt env q [97, 97] →
        (∀ b, j.data = some b → Apart b q 2) →
        (∃ j', rmallLen sse2Build env j q 2 = .ok (2, j') ∧ Str j' []) ∧
        ∀ (al : Alloc) (rplc : Bytes), AllocApart al q 2 →
          4 + (replaceAll [97, 97] rplc [97, 97, 97, 97]).length + 1 ≤ sizeMax →
          (rplc.length ≤ 2 → ∃ j', rplcallLen sse2Build env al j q 2 rplc = .ok (2, j') ∧
            Str j' (replaceAll [97, 97] rplc [97, 97, 97, 97])) ∧
          Replaced al (rplcnRoom [97, 97] rplc [97, 97, 97, 97] 0 sizeMax) j
            (replaceAll [97, 97] rplc [97, 97, 97, 97]) 2 (rplcallLen sse2Build env al j q 2 rplc) :=
  @count_eq_replaced (memOf [97, 97, 97, 97, 0, 97, 97, 0]) 0 5 [97, 97, 97, 97] [97, 97] sse2Build
    ⟨by decide, by decide, rfl, by decide⟩ ⟨by decide, by decide, rfl, by decide⟩ (by decide)

end Strings

end Jstr
