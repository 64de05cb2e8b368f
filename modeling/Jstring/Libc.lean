import Jstring.Lib.Splitting
import Jstring.Ctype

/-!
# The C library functions the searches rest on

`memchr`, `strnlen`, `strlen`, `strchr`, `strcspn`, `memcmp`,
`strncasecmp`, `memmem`, `strstr` and `strcasestr` by their documented
behaviour in the C locale, over the address space. Those that look for
the terminator are a `scan`, which may run off the address space.

Every search function of the source is compared with the plain scan
through one predicate, `StandsAt`: the needle stands at an offset of the
haystack, byte by byte under the folding `canon`. `search_of_leftmost`
turns a leftmost such offset into the `Words.search` of the two byte
strings.
-/

namespace Jstr

open Words

/-! ## Bytes of a range -/

/-- The `n` bytes from address `p` on. -/
def window (mem : Mem) (p n : Nat) : Bytes := (List.range n).map fun i => mem (p + i)

@[simp] theorem length_window (mem : Mem) (p n : Nat) : (window mem p n).length = n := by
  simp [window]

theorem memAt_window (mem : Mem) (p n : Nat) : MemAt mem p (window mem p n) :=
  fun i hi => by simp [window]

theorem window_of_memAt {mem : Mem} {p : Nat} {l : Bytes} (h : MemAt mem p l) :
    window mem p l.length = l :=
  List.ext_getElem (length_window _ _ _) fun i h1 h2 => by
    rw [← memAt_window mem p l.length i h1, h i h2]

theorem window_take {mem : Mem} {p k : Nat} {l : Bytes} (h : MemAt mem p l) (hk : k ≤ l.length) :
    window mem p k = l.take k := by
  have hwin := window_of_memAt (h.take k)
  rwa [List.length_take_of_le hk] at hwin

theorem window_add (mem : Mem) (p m n : Nat) :
    window mem p (m + n) = window mem p m ++ window mem (p + m) n := by
  rw [window, List.range_add, List.map_append, List.map_map]
  congr 1
  exact List.map_congr_left fun i _ => by rw [Function.comp_apply, Nat.add_assoc]

theorem window_succ (mem : Mem) (p n : Nat) :
    window mem p (n + 1) = mem p :: window mem (p + 1) n := by
  rw [Nat.add_comm, window_add]
  rfl

/-- The bytes of a C string at `p`: `l` without a NUL, then a NUL, all
inside the address space. -/
structure CStr (mem : Mem) (p : Nat) (l : Bytes) : Prop where
  bytes : MemAt mem p l
  nonzero : 0 ∉ l
  nul : mem (p + l.length) = 0
  fits : p + l.length ≤ sizeMax

theorem CStr.ne_zero {mem : Mem} {p : Nat} {l : Bytes} (h : CStr mem p l) {i : Nat}
    (hi : i < l.length) : mem (p + i) ≠ 0 := by
  rw [h.bytes i hi]
  exact fun h0 => h.nonzero (h0 ▸ List.getElem_mem hi)

theorem CStr.head_ne_zero {mem : Mem} {p : Nat} {l : Bytes} (h : CStr mem p l)
    (hpos : 0 < l.length) : mem p ≠ 0 := h.ne_zero hpos

theorem CStr.drop {mem : Mem} {p : Nat} {l : Bytes} (h : CStr mem p l) {k : Nat}
    (hk : k ≤ l.length) : CStr mem (p + k) (l.drop k) where
  bytes := h.bytes.drop hk
  nonzero := fun h0 => h.nonzero (List.mem_of_mem_drop h0)
  nul := by
    rw [List.length_drop, show p + k + (l.length - k) = p + l.length by omega]
    exact h.nul
  fits := by
    have := h.fits
    rw [List.length_drop]; omega

theorem CStr.head {mem : Mem} {p : Nat} {b : UInt8} {l : Bytes} (h : CStr mem p (b :: l)) :
    mem p = b := h.bytes 0 (Nat.succ_pos _)

theorem CStr.head_ne {mem : Mem} {p : Nat} {b : UInt8} {l : Bytes} (h : CStr mem p (b :: l)) :
    b ≠ 0 := h.head ▸ h.head_ne_zero (Nat.succ_pos _)

theorem CStr.tail {mem : Mem} {p : Nat} {b : UInt8} {l : Bytes} (h : CStr mem p (b :: l)) :
    CStr mem (p + 1) l := h.drop (Nat.succ_pos _)

/-- A text that ends in the block is a string of the address space. -/
theorem cstr_over {env : Mem} {b : Blk} {p : Nat} {l : Bytes} (hat : b.At p (l ++ [0]))
    (h0 : 0 ∉ l) (hfit : p + l.length ≤ sizeMax) : CStr (b.over env) p l :=
  ⟨memAt_over hat.left, h0, memAt_over hat.right 0 Nat.one_pos, hfit⟩

/-- A byte at or before the terminator is NUL exactly at the terminator. -/
theorem CStr.eq_zero_iff {mem : Mem} {p : Nat} {l : Bytes} (h : CStr mem p l) {i : Nat}
    (hi : i ≤ l.length) : mem (p + i) = 0 ↔ i = l.length := by
  constructor
  · intro h0
    by_contra hne
    exact h.ne_zero (by omega) h0
  · rintro rfl; exact h.nul

/-! ## Single bytes -/

/-- `memchr(p, c, n)`. -/
def memchr (mem : Mem) (p : Nat) (c : UInt8) : Nat → Option Nat
  | 0 => none
  | n + 1 => if mem p = c then some p else memchr mem (p + 1) c n

/-- `for (; n && !hit(*p); n--, ++p) {} return n ? p : NULL`. -/
def memchrBy (hit : UInt8 → Bool) (mem : Mem) : Nat → Nat → Option Nat
  | 0, _ => none
  | n + 1, p => if hit (mem p) then some p else memchrBy hit mem n (p + 1)

theorem memchrBy_leftmost (hit : UInt8 → Bool) (mem : Mem) : ∀ (n p : Nat),
    ∃ r, memchrBy hit mem n p = r.map (p + ·) ∧
      Leftmost (fun i => i < n ∧ hit (mem (p + i)) = true) r
  | 0, p => ⟨none, rfl, fun i h => absurd h.1 (Nat.not_lt_zero i)⟩
  | n + 1, p => by
      rw [memchrBy]
      by_cases hc : hit (mem p) = true
      · exact ⟨some 0, by rw [if_pos hc]; rfl, ⟨Nat.succ_pos n, hc⟩,
          fun j hj => absurd hj (Nat.not_lt_zero j)⟩
      · rw [if_neg hc]
        have hstep : ∀ i, mem (p + 1 + i) = mem (p + (i + 1)) := fun i => by
          rw [Nat.add_assoc, Nat.add_comm 1 i]
        obtain ⟨r, hr, hleft⟩ := memchrBy_leftmost hit mem n (p + 1)
        rw [hr]
        cases r with
        | none =>
            refine ⟨none, rfl, fun i hi => ?_⟩
            cases i with
            | zero => exact hc hi.2
            | succ i => exact hleft i ⟨by omega, by rw [hstep]; exact hi.2⟩
        | some k =>
            refine ⟨some (k + 1), by simp; omega, ⟨by have := hleft.1.1; omega, ?_⟩,
              fun j hj => ?_⟩
            · rw [← hstep]; exact hleft.1.2
            · cases j with
              | zero => exact fun h => hc h.2
              | succ j =>
                  exact fun h => hleft.2 j (by omega) ⟨by omega, by rw [hstep]; exact h.2⟩

theorem memchr_eq_memchrBy (mem : Mem) (c : UInt8) : ∀ (n p : Nat),
    memchr mem p c n = memchrBy (· == c) mem n p
  | 0, _ => rfl
  | n + 1, p => by
      simp only [memchr, memchrBy, beq_iff_eq]
      rw [memchr_eq_memchrBy mem c n (p + 1)]

theorem memchr_leftmost (mem : Mem) (c : UInt8) (n p : Nat) :
    ∃ r, memchr mem p c n = r.map (p + ·) ∧ Leftmost (fun i => i < n ∧ mem (p + i) = c) r := by
  obtain ⟨r, hr, hleft⟩ := memchrBy_leftmost (· == c) mem n p
  exact ⟨r, by rw [memchr_eq_memchrBy, hr], by simpa only [beq_iff_eq] using hleft⟩

/-- `strnlen(p, maxlen)`. -/
def strnlen (mem : Mem) (p maxlen : Nat) : Nat :=
  match memchr mem p 0 maxlen with
  | some q => q - p
  | none => maxlen

/-- With `n` bytes before the terminator. -/
theorem strnlen_eq {mem : Mem} {p n : Nat} (hne : ∀ i < n, mem (p + i) ≠ 0)
    (h0 : mem (p + n) = 0) (maxlen : Nat) : strnlen mem p maxlen = min n maxlen := by
  obtain ⟨r, hr, hleft⟩ := memchr_leftmost mem 0 maxlen p
  rw [strnlen, hr]
  cases r with
  | none =>
      have : maxlen ≤ n := by
        by_contra hlt
        exact hleft n ⟨by omega, h0⟩
      exact (Nat.min_eq_right this).symm
  | some k =>
      obtain ⟨⟨hk, hk0⟩, hmin⟩ := hleft
      have hkn : k = n := by
        rcases Nat.lt_trichotomy k n with hlt | heq | hgt
        · exact absurd hk0 (hne k hlt)
        · exact heq
        · exact absurd ⟨by omega, h0⟩ (hmin n hgt)
      simp only [Option.map_some]
      omega

/-! ## Up to the terminator -/

/-- `for (; !stop(*p); ++p) {}`: the first address from `p` on at which to
stop. -/
def scan (stop : UInt8 → Bool) (mem : Mem) : Nat → Nat → Run Nat
  | 0, _ => .error .diverge
  | fuel + 1, p => if stop (mem p) then .ok p else scan stop mem fuel (p + 1)

theorem scan_eq {stop : UInt8 → Bool} {mem : Mem} : ∀ {n fuel p : Nat},
    stop (mem (p + n)) = true → (∀ i < n, stop (mem (p + i)) = false) → n < fuel →
      scan stop mem fuel p = .ok (p + n)
  | _, 0, _, _, _, hf => absurd hf (Nat.not_lt_zero _)
  | 0, fuel + 1, p, h, _, _ => by
      rw [Nat.add_zero] at h
      rw [scan, if_pos h]
      rfl
  | n + 1, fuel + 1, p, h, hne, hf => by
      have h0 := hne 0 (Nat.succ_pos n)
      rw [Nat.add_zero] at h0
      rw [scan, h0, if_neg Bool.false_ne_true, show p + (n + 1) = p + 1 + n by omega]
      refine scan_eq (by rwa [show p + 1 + n = p + (n + 1) by omega]) (fun i hi => ?_) (by omega)
      rw [show p + 1 + i = p + (i + 1) by omega]
      exact hne (i + 1) (by omega)

/-- A condition that the terminator meets is met first somewhere in the
string or at its terminator. -/
theorem CStr.exists_stop {mem : Mem} {p : Nat} {l : Bytes} (h : CStr mem p l)
    {stop : UInt8 → Bool} (h0 : stop 0 = true) :
    ∃ n ≤ l.length, stop (mem (p + n)) = true ∧ ∀ i < n, stop (mem (p + i)) = false := by
  have hex : ∃ n, stop (mem (p + n)) = true := ⟨l.length, by rw [h.nul, h0]⟩
  classical
  refine ⟨Nat.find hex, Nat.find_min' hex (by rw [h.nul, h0]), Nat.find_spec hex, fun i hi => ?_⟩
  exact Bool.eq_false_iff.mpr (Nat.find_min hex hi)

/-- `strlen(p)`. -/
def strlen (mem : Mem) (p : Nat) : Run Nat := do
  let q ← scan (· == 0) mem (sizeMax + 1) p
  return q - p

theorem CStr.strlen_eq {mem : Mem} {p : Nat} {l : Bytes} (h : CStr mem p l) :
    strlen mem p = .ok l.length := by
  have hfits := h.fits
  rw [strlen, @scan_eq _ mem l.length _ p (by simp [h.nul])
    (fun i hi => by simpa using h.ne_zero hi) (by omega)]
  simp [bind, Except.bind, pure, Except.pure]

/-- `strchr(p, c)`. -/
def strchr (mem : Mem) (p : Nat) (c : UInt8) : Run (Option Nat) := do
  let q ← scan (fun x => x == c || x == 0) mem (sizeMax + 1) p
  return if mem q = c then some q else none

/-- `strcspn(p, set)`. -/
def strcspn (mem : Mem) (p : Nat) (set : Bytes) : Run Nat := do
  let q ← scan (fun x => x ∈ set || x == 0) mem (sizeMax + 1) p
  return q - p

/-- `strspn(p, set)`. -/
def strspn (mem : Mem) (p : Nat) (set : Bytes) : Run Nat := do
  let q ← scan (fun x => x ∉ set || x == 0) mem (sizeMax + 1) p
  return q - p

/-! ## Needle in haystack -/

/-- The letters from address `p` on, folded. -/
abbrev letters (canon : UInt8 → UInt8) (mem : Mem) (p : Nat) : Nat → UInt8 :=
  fun i => canon (mem (p + i))

/-- The `l` bytes at `ne` stand in the `hl` bytes at `hs` at offset `i`,
under the folding `canon`. -/
def StandsAt (canon : UInt8 → UInt8) (mem : Mem) (hs hl ne l i : Nat) : Prop :=
  i + l ≤ hl ∧ ∀ k < l, canon (mem (hs + i + k)) = canon (mem (ne + k))

theorem standsAt_iff {canon : UInt8 → UInt8} {mem : Mem} {hs ne : Nat} {HS NE : Bytes}
    (hh : MemAt mem hs HS) (hn : MemAt mem ne NE) (i : Nat) :
    StandsAt canon mem hs HS.length ne NE.length i
      ↔ OccursAt (NE.map canon) (HS.map canon) i := by
  simp only [StandsAt, OccursAt, List.length_map, List.getElem?_map]
  refine and_congr_right fun hi => forall_congr' fun k => imp_congr_right fun hk => ?_
  rw [hh.getElem? (show i + k < HS.length by omega), hn.getElem? hk, ← Nat.add_assoc]
  simp

/-- A leftmost offset is what the plain scan finds. -/
theorem search_of_leftmost {canon : UInt8 → UInt8} {mem : Mem} {hs ne : Nat}
    {HS NE : Bytes} (hh : MemAt mem hs HS) (hn : MemAt mem ne NE) {r : Option Nat}
    (h : Leftmost (StandsAt canon mem hs HS.length ne NE.length) r) :
    search (NE.map canon) (HS.map canon) = r :=
  search_eq_iff_leftmost.mpr (h.congr (standsAt_iff hh hn))

/-- `memmem(hs, hs_len, ne, ne_len)` of the C library. -/
def libcMemmem (mem : Mem) (hs hsLen ne neLen : Nat) : Option Nat :=
  (search (window mem ne neLen) (window mem hs hsLen)).map (hs + ·)

/-- `memcmp(p, q, n) == 0`. -/
def memcmpEq (mem : Mem) (p q n : Nat) : Bool := window mem p n == window mem q n

theorem memcmpEq_iff {mem : Mem} {p q n : Nat} :
    memcmpEq mem p q n = true ↔ ∀ i < n, mem (p + i) = mem (q + i) := by
  simp only [memcmpEq, beq_iff_eq, window, List.map_inj_left, List.mem_range]

/-- `strncasecmp(p, q, n) == 0`: at most `n` bytes, up to the terminators. -/
def strncasecmpEq (mem : Mem) : Nat → Nat → Nat → Bool
  | _, _, 0 => true
  | p, q, n + 1 =>
    tolower (mem p) == tolower (mem q) && (mem p == 0 || strncasecmpEq mem (p + 1) (q + 1) n)

theorem strncasecmpEq_iff {mem : Mem} : ∀ {n p q : Nat}, (∀ i < n, mem (p + i) ≠ 0) →
    (strncasecmpEq mem p q n = true ↔ ∀ i < n, tolower (mem (p + i)) = tolower (mem (q + i)))
  | 0, _, _, _ => by simp [strncasecmpEq]
  | n + 1, p, q, hne => by
      have h0 : mem p ≠ 0 := hne 0 (Nat.succ_pos n)
      have hstep : ∀ a i : Nat, a + 1 + i = a + (i + 1) := fun a i => by omega
      rw [strncasecmpEq, Bool.and_eq_true, Bool.or_eq_true, beq_iff_eq, beq_iff_eq,
        strncasecmpEq_iff fun i hi => by rw [hstep]; exact hne (i + 1) (by omega)]
      simp only [h0, false_or, hstep, Nat.forall_lt_succ_left, Nat.add_zero]

/-- `strstr(hs, ne)` and `strcasestr(hs, ne)` of the C library. -/
def libcStrstr (canon : UInt8 → UInt8) (mem : Mem) (hs ne : Nat) : Run (Option Nat) := do
  let hsLen ← strlen mem hs
  let neLen ← strlen mem ne
  return (search ((window mem ne neLen).map canon) ((window mem hs hsLen).map canon)).map (hs + ·)

theorem libcStrstr_spec {canon : UInt8 → UInt8} {mem : Mem} {hs ne : Nat} {HS NE : Bytes}
    (hh : CStr mem hs HS) (hn : CStr mem ne NE) :
    libcStrstr canon mem hs ne
      = .ok ((search (NE.map canon) (HS.map canon)).map (hs + ·)) := by
  rw [libcStrstr, hh.strlen_eq, hn.strlen_eq]
  simp only [bind, Except.bind, pure, Except.pure]
  rw [window_of_memAt hh.bytes, window_of_memAt hn.bytes]

theorem memchr_eq_search {mem : Mem} {p : Nat} {l : Bytes} (h : MemAt mem p l) (c : UInt8) :
    memchr mem p c l.length = (search [c] l).map (p + ·) := by
  obtain ⟨r, hr, hleft⟩ := memchr_leftmost mem c l.length p
  rw [hr, search_eq_iff_leftmost.mpr (hleft.congr fun i => ?_)]
  simp only [OccursAt, List.length_singleton, Nat.lt_one_iff, forall_eq, Nat.add_zero,
    List.getElem?_cons_zero]
  refine and_congr_right fun hi => ?_
  rw [h.getElem? hi, Option.some.injEq]

theorem CStr.strchr_eq {mem : Mem} {p : Nat} {l : Bytes} (h : CStr mem p l) {c : UInt8}
    (hc : c ≠ 0) : strchr mem p c = .ok ((search [c] l).map (p + ·)) := by
  have hfits := h.fits
  obtain ⟨n, hnl, hstop, hmin⟩ := @CStr.exists_stop mem p l h (fun x => x == c || x == 0)
    (by simp)
  have hmiss : ∀ i < n, mem (p + i) ≠ c := fun i hi hic => by simpa [hic] using hmin i hi
  have hres : memchr mem p c l.length = if mem (p + n) = c then some (p + n) else none := by
    obtain ⟨r, hr, hleft⟩ := memchr_leftmost mem c l.length p
    rw [hr]
    split
    · rename_i heq
      have hlt : n < l.length := by
        rcases Nat.lt_or_eq_of_le hnl with hlt | rfl
        · exact hlt
        · exact absurd (heq.symm.trans h.nul) hc
      cases r with
      | none => exact absurd ⟨hlt, heq⟩ (hleft n)
      | some k =>
          rcases Nat.lt_trichotomy k n with hk | rfl | hk
          · exact absurd hleft.1.2 (hmiss k hk)
          · rfl
          · exact absurd ⟨hlt, heq⟩ (hleft.2 n hk)
    · rename_i hne
      cases r with
      | none => rfl
      | some k =>
          have hk := hleft.1
          rcases Nat.lt_trichotomy k n with hlt | rfl | hgt
          · exact absurd hk.2 (hmiss k hlt)
          · exact absurd hk.2 hne
          · have h0 : mem (p + n) = 0 := by simpa [hne] using hstop
            exact absurd h0 (h.ne_zero (by omega))
  rw [← memchr_eq_search h.bytes, hres, strchr, @scan_eq _ mem n _ p hstop hmin (by omega)]
  rfl

end Jstr
