import Jstring.Config
import Jstring.Lib.HasZero

/-!
# Searches for one letter in either case

`jstr_memcasechr` and `jstr_strcasechr` of `include/string.h` with the
loops they dispatch to: vectors, the C library, and the word-at-a-time
loop of `include/internal/musl/stdstring.h`. They are compared with the
plain scan for a one-byte needle under `tolower`.
-/

namespace Jstr

open Words Bits

/-! ## Delimited by a length -/

/-- The lanes at `p` that hold `c` in either case. -/
def caseMask (V : Nat) (mem : Mem) (c : UInt8) (p : Nat) : BitVec V :=
  cmpeq8Mask V (loadu mem p) (setone8 (tolower c)) |||
    cmpeq8Mask V (loadu mem p) (setone8 (toupper c))

/-- The loop of `jstr_internal_simd_memcasechr`, at the next block. -/
def memcasechrBlocks (V : Nat) (mem : Mem) (c : UInt8) (last : Nat) :
    Nat → Nat → Run (Option Nat)
  | 0, _ => .error .diverge
  | fuel + 1, p =>
    if p < last then
      let m := caseMask V mem c p
      if m ≠ 0#V then .ok (if p + tz m < last then some (p + tz m) else none)
      else memcasechrBlocks V mem c last fuel (p + V)
    else .ok none

/-- `jstr_internal_simd_memcasechr`. -/
def simdMemcasechr (V : Nat) (mem : Mem) (s : Nat) (c : UInt8) (n : Nat) : Run (Option Nat) :=
  if n = 0 then .ok none
  else
    let last := s + n
    let off := s - alignDown s V
    let p := s - off
    let m := caseMask V mem c p >>> off
    if m ≠ 0#V then
      let i := off + tz m
      .ok (if p + i < last then some (p + i) else none)
    else memcasechrBlocks V mem c last (n + 1) (p + V)

/-- `jstr_memcasechr`. -/
def memcasechr (cfg : Build) (mem : Mem) (s : Nat) (c : UInt8) (n : Nat) : Run (Option Nat) :=
  if !isalpha c then .ok (memchr mem s c n)
  else
    match cfg.memcasechrSimd with
    | some v => simdMemcasechr v.bytes mem s c n
    | none =>
      let r1 := memchr mem s (tolower c) n
      let r2 := memchr mem s (toupper c) n
      .ok (first r1 r2)

/-- A one-byte needle, folded. -/
theorem search_byte_of_leftmost {canon : UInt8 → UInt8} {mem : Mem} {s : Nat} {l : Bytes}
    (h : MemAt mem s l) {c : UInt8} {r : Option Nat}
    (hr : Leftmost (fun i => i < l.length ∧ canon (mem (s + i)) = canon c) r) :
    search [canon c] (l.map canon) = r := by
  refine search_eq_iff_leftmost.mpr (hr.congr fun i => ?_)
  simp only [OccursAt, List.length_map, List.length_singleton, Nat.lt_one_iff, forall_eq,
    Nat.add_zero, List.getElem?_cons_zero, List.getElem?_map]
  refine and_congr_right fun hi => ?_
  rw [h.getElem? hi, Option.map_some, Option.some.injEq]

/-- What a mask of stopping lanes says about the block at `p`. -/
theorem tz_first {V w p : Nat} {mem : Mem} (stop : UInt8 → Prop) {m : BitVec V}
    (hm : ∀ i, m.getLsbD i = true ↔ i < w ∧ stop (mem (p + i))) (h0 : m ≠ 0#V) :
    tz m < w ∧ stop (mem (p + tz m)) ∧ ∀ i < tz m, ¬stop (mem (p + i)) := by
  obtain ⟨hw, hs⟩ := (hm _).mp (getLsbD_tz h0)
  refine ⟨hw, hs, fun i hi hstop => ?_⟩
  have := (hm i).mpr ⟨by omega, hstop⟩
  rw [getLsbD_of_lt_tz hi] at this
  cases this

theorem none_of_mask_zero {V w p : Nat} {mem : Mem} (stop : UInt8 → Prop) {m : BitVec V}
    (hm : ∀ i, m.getLsbD i = true ↔ i < w ∧ stop (mem (p + i))) (h0 : m = 0#V) :
    ∀ i < w, ¬stop (mem (p + i)) := by
  intro i hi hstop
  have := (hm i).mpr ⟨hi, hstop⟩
  rw [h0] at this
  simp at this

/-- The lanes of the first block, below the string cut off. -/
theorem mask_first {V s : Nat} (hV : 0 < V) {mem : Mem} (stop : UInt8 → Prop)
    {mask : Nat → BitVec V}
    (hmask : ∀ p i, (mask p).getLsbD i = true ↔ i < V ∧ stop (mem (p + i))) :
    s - alignDown s V < V ∧ s - alignDown s V ≤ s ∧
      ∀ i, (mask (s - (s - alignDown s V)) >>> (s - alignDown s V)).getLsbD i = true ↔
        i < V - (s - alignDown s V) ∧ stop (mem (s + i)) := by
  have hle := Nat.mod_le s V
  have hoff : s - alignDown s V = s % V := by rw [alignDown]; omega
  have hlt := Nat.mod_lt s hV
  rw [hoff]
  refine ⟨hlt, hle, fun i => ?_⟩
  rw [BitVec.getLsbD_ushiftRight, hmask, show s - s % V + (s % V + i) = s + i by omega]
  exact and_congr_left fun _ => by omega

theorem getLsbD_caseMask {V : Nat} {mem : Mem} {c : UInt8} (p i : Nat) :
    (caseMask V mem c p).getLsbD i = true ↔ i < V ∧ tolower (mem (p + i)) = tolower c := by
  simp only [caseMask, BitVec.getLsbD_or, getLsbD_cmpeq8Mask, loadu, setone8, Bool.or_eq_true,
    Bool.and_eq_true, decide_eq_true_eq, beq_iff_eq, tolower_eq_iff c]
  tauto

section Length

variable {V : Nat} {mem : Mem} {s n : Nat} {c : UInt8}

/-- A hit in a block, against the end of the range. -/
theorem leftmost_hit {k : Nat} (hk : tolower (mem (s + k)) = tolower c)
    (hmin : ∀ i < k, tolower (mem (s + i)) ≠ tolower c) :
    ∃ r, (if s + k < s + n then some (s + k) else none) = r.map (s + ·) ∧
      Leftmost (fun i => i < n ∧ tolower (mem (s + i)) = tolower c) r := by
  by_cases hkn : k < n
  · exact ⟨some k, by rw [if_pos (by omega)]; rfl, ⟨hkn, hk⟩, fun j hj h => hmin j hj h.2⟩
  · refine ⟨none, by rw [if_neg (by omega)]; rfl, fun i hi => hmin i (by omega) hi.2⟩

theorem memcasechrBlocks_spec (hV : 0 < V) :
    ∀ (fuel k : Nat), n ≤ fuel + k → (∀ i < k, tolower (mem (s + i)) ≠ tolower c) →
    ∃ r, memcasechrBlocks V mem c (s + n) (fuel + 1) (s + k) = .ok (r.map (s + ·)) ∧
      Leftmost (fun i => i < n ∧ tolower (mem (s + i)) = tolower c) r := by
  intro fuel
  induction fuel with
  | zero =>
      intro k hf hmiss
      rw [memcasechrBlocks, if_neg (by omega)]
      exact ⟨none, rfl, fun i hi => hmiss i (by omega) hi.2⟩
  | succ fuel ih =>
      intro k hf hmiss
      rw [memcasechrBlocks]
      by_cases hk : s + k < s + n
      · rw [if_pos hk]
        have hmask := @getLsbD_caseMask V mem c (s + k)
        have hext : ∀ w, (∀ i < w, tolower (mem (s + k + i)) ≠ tolower c) →
            ∀ i < k + w, tolower (mem (s + i)) ≠ tolower c := by
          intro w hw i hi
          by_cases hik : i < k
          · exact hmiss i hik
          · have := hw (i - k) (by omega)
            rwa [show s + k + (i - k) = s + i by omega] at this
        by_cases h0 : caseMask V mem c (s + k) = 0#V
        · rw [if_neg (not_not_intro h0), Nat.add_assoc s k V]
          exact ih (k + V) (by omega) (hext V (none_of_mask_zero (fun x => tolower x = tolower c) hmask h0))
        · rw [if_pos h0]
          obtain ⟨-, hhit, hmin⟩ := tz_first (fun x => tolower x = tolower c) hmask h0
          rw [Nat.add_assoc] at hhit ⊢
          obtain ⟨r, hr, hleft⟩ := @leftmost_hit mem s n c _ hhit (hext _ hmin)
          exact ⟨r, by rw [hr], hleft⟩
      · rw [if_neg hk]
        exact ⟨none, rfl, fun i hi => hmiss i (by omega) hi.2⟩

theorem simdMemcasechr_spec (hV : 0 < V) :
    ∃ r, simdMemcasechr V mem s c n = .ok (r.map (s + ·)) ∧
      Leftmost (fun i => i < n ∧ tolower (mem (s + i)) = tolower c) r := by
  rw [simdMemcasechr]
  by_cases hn : n = 0
  · exact ⟨none, if_pos hn, fun i hi => by omega⟩
  rw [if_neg hn]
  obtain ⟨hoff, hoffs, hmask⟩ := @mask_first V s hV mem (fun x => tolower x = tolower c) _
    getLsbD_caseMask
  simp only
  generalize s - alignDown s V = off at hoff hoffs hmask ⊢
  by_cases h0 : caseMask V mem c (s - off) >>> off = 0#V
  · rw [if_neg (not_not_intro h0), show s - off + V = s + (V - off) by omega]
    exact memcasechrBlocks_spec hV n (V - off) (by omega)
      (none_of_mask_zero (fun x => tolower x = tolower c) hmask h0)
  · rw [if_pos h0]
    obtain ⟨-, hhit, hmin⟩ := tz_first (fun x => tolower x = tolower c) hmask h0
    obtain ⟨r, hr, hleft⟩ := @leftmost_hit mem s n c _ hhit hmin
    rw [← Nat.add_assoc, show s - off + off = s by omega]
    exact ⟨r, by rw [hr], hleft⟩

theorem memcasechr_leftmost (cfg : Build) (mem : Mem) (s : Nat) (c : UInt8) (n : Nat) :
    ∃ r, memcasechr cfg mem s c n = .ok (r.map (s + ·)) ∧
      Leftmost (fun i => i < n ∧ tolower (mem (s + i)) = tolower c) r := by
  rw [memcasechr]
  by_cases hc : isalpha c = true
  · rw [hc]
    simp only [Bool.not_true, Bool.false_eq_true, if_false]
    cases cfg.memcasechrSimd with
    | some v => exact simdMemcasechr_spec v.bytes_pos
    | none =>
        obtain ⟨r1, hr1, hleft1⟩ := memchr_leftmost mem (tolower c) n s
        obtain ⟨r2, hr2, hleft2⟩ := memchr_leftmost mem (toupper c) n s
        refine ⟨first r1 r2, ?_, (hleft1.or hleft2).congr fun i => ?_⟩
        · rw [hr1, hr2, first_map]
        · rw [tolower_eq_iff c]
          tauto
  · obtain ⟨r, hr, hleft⟩ := memchr_leftmost mem c n s
    refine ⟨r, by rw [← hr]; simp [hc], hleft.congr fun i => ?_⟩
    rw [tolower_eq_iff_of_not hc]

theorem memcasechr_spec (cfg : Build) {l : Bytes} (h : MemAt mem s l) (c : UInt8) :
    memcasechr cfg mem s c l.length
      = .ok ((search [tolower c] (l.map tolower)).map (s + ·)) := by
  obtain ⟨r, hr, hleft⟩ := memcasechr_leftmost cfg mem s c l.length
  rw [hr, search_byte_of_leftmost h hleft]

end Length

/-! ## Delimited by the terminator -/

/-- The lanes at `p` that hold `c` in either case or a NUL. -/
def caseNulMask (V : Nat) (mem : Mem) (c : UInt8) (p : Nat) : BitVec V :=
  caseMask V mem c p ||| cmpeq8Mask V (loadu mem p) (setone8 0)

/-- The loop of `jstr_internal_simd_strcasechrnul`, at the next block. -/
def strcasechrnulBlocks (V : Nat) (mem : Mem) (c : UInt8) : Nat → Nat → Run Nat
  | 0, _ => .error .diverge
  | fuel + 1, p =>
    let m := caseNulMask V mem c p
    if m ≠ 0#V then .ok (p + tz m) else strcasechrnulBlocks V mem c fuel (p + V)

/-- `jstr_internal_simd_strcasechrnul`. -/
def simdStrcasechrnul (V : Nat) (mem : Mem) (s : Nat) (c : UInt8) : Run Nat :=
  let off := s - alignDown s V
  let p := s - off
  let m := caseNulMask V mem c p >>> off
  if m ≠ 0#V then .ok (p + off + tz m)
  else strcasechrnulBlocks V mem c (sizeMax + 1) (p + V)

/-- The loop of the vector searches for the terminator, by the lanes they
stop at. -/
def chrnulBlocks {V : Nat} (mask : Nat → BitVec V) : Nat → Nat → Run Nat
  | 0, _ => .error .diverge
  | fuel + 1, p =>
    let m := mask p
    if m ≠ 0#V then .ok (p + tz m) else chrnulBlocks mask fuel (p + V)

/-- The vector searches for the terminator, by the lanes they stop at. -/
def simdChrnul {V : Nat} (mask : Nat → BitVec V) (s : Nat) : Run Nat :=
  let off := s - alignDown s V
  let p := s - off
  let m := mask p >>> off
  if m ≠ 0#V then .ok (p + off + tz m) else chrnulBlocks mask (sizeMax + 1) (p + V)

/-- The byte loop in front of the word loop: up to the next multiple of
`ALIGN`, which is 7. Says whether it returned. -/
def alignLoop (stop : UInt8 → Bool) (mem : Mem) : Nat → Nat → Nat × Bool
  | 0, p => (p, false)
  | n + 1, p =>
    if p % 7 = 0 then (p, false)
    else if stop (mem p) then (p, true)
    else alignLoop stop mem n (p + 1)

/-- The word loop: past the words without a NUL, `k`'s or `l`'s byte. -/
def wordLoop (mem : Mem) (k l : UInt64) : Nat → Nat → Run Nat
  | 0, _ => .error .diverge
  | fuel + 1, ws =>
    let w := leWord fun i => mem (ws + i)
    if !hasZero w && !hasZero (w ^^^ k) && !hasZero (w ^^^ l) then wordLoop mem k l fuel (ws + 8)
    else .ok ws

/-- `jstr_internal_strcasechrnul_musl`. -/
def strcasechrnulMusl (cfg : Build) (mem : Mem) (s : Nat) (c : UInt8) : Run Nat :=
  let c := tolower c
  let stop := fun x => x == 0 || tolower x == c
  if cfg.haveAttrMayAlias then
    match alignLoop stop mem 7 s with
    | (p, true) => .ok p
    | (p, false) => do
      let ws ← wordLoop mem (ones * c.toUInt64) (ones * (toupper c).toUInt64) (sizeMax + 1) p
      scan stop mem (sizeMax + 1) ws
  else scan stop mem (sizeMax + 1) s

/-- The middle of `jstr_strcasechr`: where the loop picked by the build
stops, at `c` in either case or at the terminator. -/
def strcasechrStop (cfg : Build) (mem : Mem) (s : Nat) (c : UInt8) : Run Nat :=
  match cfg.strcasechrnulSimd with
  | some v => simdStrcasechrnul v.bytes mem s c
  | none =>
    if cfg.haveStrcspnOptimized then
      if tolower (mem s) ≠ c then do
        let k ← strcspn mem s [c, toupper c]
        return s + k
      else .ok s
    else strcasechrnulMusl cfg mem s c

/-- `jstr_strcasechr`. -/
def strcasechr (cfg : Build) (mem : Mem) (s : Nat) (c : UInt8) : Run (Option Nat) :=
  if !isalpha c then strchr mem s c
  else do
    let c := tolower c
    let s ← strcasechrStop cfg mem s c
    return if tolower (mem s) = c then some s else none

section First

variable {mem : Mem} {stop : UInt8 → Prop} {s n : Nat}

/-- The first byte from `s` on that stops a scan is `n` bytes on. -/
def FirstAt (stop : UInt8 → Prop) (mem : Mem) (s n : Nat) : Prop :=
  stop (mem (s + n)) ∧ ∀ i < n, ¬stop (mem (s + i))

/-- A hit at `i` in a block that starts `k` into the string. -/
theorem FirstAt.eq_of_hit (h : FirstAt stop mem s n) {k i : Nat} (hkn : k ≤ n)
    (hi : stop (mem (s + k + i))) (hmin : ∀ j < i, ¬stop (mem (s + k + j))) : k + i = n := by
  rcases Nat.lt_trichotomy (k + i) n with hlt | heq | hgt
  · rw [Nat.add_assoc] at hi
    exact absurd hi (h.2 _ hlt)
  · exact heq
  · have := hmin (n - k) (by omega)
    rw [show s + k + (n - k) = s + n by omega] at this
    exact absurd h.1 this

theorem FirstAt.le_of_miss (h : FirstAt stop mem s n) {k w : Nat} (hkn : k ≤ n)
    (hmiss : ∀ j < w, ¬stop (mem (s + k + j))) : k + w ≤ n := by
  by_contra hlt
  have := hmiss (n - k) (by omega)
  rw [show s + k + (n - k) = s + n by omega] at this
  exact this h.1

theorem FirstAt.succ (h : FirstAt stop mem s (n + 1)) : FirstAt stop mem (s + 1) n := by
  refine ⟨?_, fun i hi => ?_⟩
  · rw [show s + 1 + n = s + (n + 1) by omega]
    exact h.1
  · rw [show s + 1 + i = s + (i + 1) by omega]
    exact h.2 (i + 1) (by omega)

/-- From the first byte on: either it stops the scan or the rest does. -/
theorem FirstAt.head (h : FirstAt stop mem s n) :
    stop (mem s) ∧ n = 0 ∨ ¬stop (mem s) ∧ ∃ m, n = m + 1 ∧ FirstAt stop mem (s + 1) m := by
  cases n with
  | zero => exact Or.inl ⟨h.1, rfl⟩
  | succ m => exact Or.inr ⟨h.2 0 (Nat.succ_pos m), m, rfl, h.succ⟩

end First

section Eol

variable {V : Nat} {mem : Mem} {s n : Nat} {c : UInt8}

/-- Where a search for `c` in a C string stops. -/
def StopsAt (mem : Mem) (c : UInt8) (s n : Nat) : Prop :=
  (mem (s + n) = 0 ∨ tolower (mem (s + n)) = tolower c) ∧
    ∀ i < n, ¬(mem (s + i) = 0 ∨ tolower (mem (s + i)) = tolower c)

theorem getLsbD_caseNulMask (p i : Nat) :
    (caseNulMask V mem c p).getLsbD i = true ↔
      i < V ∧ (mem (p + i) = 0 ∨ tolower (mem (p + i)) = tolower c) := by
  rw [caseNulMask, BitVec.getLsbD_or, Bool.or_eq_true, getLsbD_caseMask,
    getLsbD_cmpeq8Mask, Bool.and_eq_true, decide_eq_true_eq, beq_iff_eq, loadu, setone8]
  tauto

theorem StopsAt.eq_of_hit (h : StopsAt mem c s n) {k i : Nat} (hkn : k ≤ n)
    (hi : mem (s + k + i) = 0 ∨ tolower (mem (s + k + i)) = tolower c)
    (hmin : ∀ j < i, ¬(mem (s + k + j) = 0 ∨ tolower (mem (s + k + j)) = tolower c)) :
    k + i = n :=
  @FirstAt.eq_of_hit mem (fun x => x = 0 ∨ tolower x = tolower c) s n h k i hkn hi hmin

theorem StopsAt.le_of_miss (h : StopsAt mem c s n) {k w : Nat} (hkn : k ≤ n)
    (hmiss : ∀ j < w, ¬(mem (s + k + j) = 0 ∨ tolower (mem (s + k + j)) = tolower c)) :
    k + w ≤ n :=
  @FirstAt.le_of_miss mem (fun x => x = 0 ∨ tolower x = tolower c) s n h k w hkn hmiss

theorem strcasechrnulBlocks_eq (V : Nat) (mem : Mem) (c : UInt8) : ∀ (fuel p : Nat),
    strcasechrnulBlocks V mem c fuel p = chrnulBlocks (caseNulMask V mem c) fuel p
  | 0, _ => rfl
  | fuel + 1, p => by
      rw [strcasechrnulBlocks, chrnulBlocks, strcasechrnulBlocks_eq V mem c fuel (p + V)]

theorem simdStrcasechrnul_eq (V : Nat) (mem : Mem) (c : UInt8) (s : Nat) :
    simdStrcasechrnul V mem s c = simdChrnul (caseNulMask V mem c) s := by
  rw [simdStrcasechrnul, simdChrnul, strcasechrnulBlocks_eq]

section Mask

variable {stop : UInt8 → Prop} {mask : Nat → BitVec V}

theorem chrnulBlocks_spec (hV : 0 < V)
    (hmask : ∀ p i, (mask p).getLsbD i = true ↔ i < V ∧ stop (mem (p + i)))
    (h : FirstAt stop mem s n) : ∀ (fuel k : Nat), k ≤ n → n < fuel + k →
    chrnulBlocks mask fuel (s + k) = .ok (s + n)
  | 0, k, hkn, hf => by omega
  | fuel + 1, k, hkn, hf => by
      rw [chrnulBlocks]
      by_cases h0 : mask (s + k) = 0#V
      · have := h.le_of_miss hkn (none_of_mask_zero stop (hmask _) h0)
        rw [if_neg (not_not_intro h0), Nat.add_assoc]
        exact chrnulBlocks_spec hV hmask h fuel (k + V) this (by omega)
      · obtain ⟨-, hhit, hmin⟩ := tz_first stop (hmask _) h0
        rw [if_pos h0, ← h.eq_of_hit hkn hhit hmin, Nat.add_assoc]

/-- The vectors stop where the plain scan does. -/
theorem simdChrnul_spec (hV : 0 < V)
    (hmask : ∀ p i, (mask p).getLsbD i = true ↔ i < V ∧ stop (mem (p + i)))
    (h : FirstAt stop mem s n) (hn : n ≤ sizeMax) : simdChrnul mask s = .ok (s + n) := by
  obtain ⟨hoff, hoffs, hfirst⟩ := @mask_first V s hV mem stop mask hmask
  simp only [simdChrnul]
  generalize s - alignDown s V = off at hoff hoffs hfirst ⊢
  by_cases h0 : mask (s - off) >>> off = 0#V
  · have := h.le_of_miss (Nat.zero_le n) (none_of_mask_zero stop hfirst h0)
    rw [if_neg (not_not_intro h0), show s - off + V = s + (V - off) by omega]
    exact chrnulBlocks_spec hV hmask h _ _ (by omega) (by omega)
  · obtain ⟨-, hhit, hmin⟩ := tz_first stop hfirst h0
    have := h.eq_of_hit (Nat.zero_le n) hhit hmin
    rw [if_pos h0]
    congr 1
    omega

end Mask

theorem simdStrcasechrnul_spec (hV : 0 < V) (h : StopsAt mem c s n) (hn : n ≤ sizeMax) :
    simdStrcasechrnul V mem s c = .ok (s + n) := by
  rw [simdStrcasechrnul_eq]
  exact @simdChrnul_spec V mem s n (fun x => x = 0 ∨ tolower x = tolower c) _ hV
    getLsbD_caseNulMask h hn

theorem alignLoop_spec {stop : UInt8 → Bool} (hstop : stop (mem (s + n)) = true)
    (hmin : ∀ i < n, stop (mem (s + i)) = false) : ∀ (m k : Nat), k ≤ n →
    (alignLoop stop mem m (s + k)).2 = true ∧ (alignLoop stop mem m (s + k)).1 = s + n ∨
      (alignLoop stop mem m (s + k)).2 = false ∧
        ∃ j ≤ n, (alignLoop stop mem m (s + k)).1 = s + j
  | 0, k, hk => Or.inr ⟨rfl, k, hk, rfl⟩
  | m + 1, k, hk => by
      rw [alignLoop]
      by_cases h7 : (s + k) % 7 = 0
      · rw [if_pos h7]
        exact Or.inr ⟨rfl, k, hk, rfl⟩
      · rw [if_neg h7]
        rcases Nat.lt_or_eq_of_le hk with hlt | rfl
        · rw [hmin k hlt, if_neg Bool.false_ne_true, Nat.add_assoc]
          exact alignLoop_spec hstop hmin m (k + 1) hlt
        · rw [hstop, if_pos rfl]
          exact Or.inl ⟨rfl, rfl⟩

/-- A word that fails the test for both cases of `c` holds neither. -/
theorem ne_fold_of_hasZero {f : Nat → UInt8} {c : UInt8}
    (hlo : hasZero (leWord f ^^^ (ones * (tolower c).toUInt64)) = false)
    (hup : hasZero (leWord f ^^^ (ones * (toupper (tolower c)).toUInt64)) = false) {i : Nat}
    (hi : i < 8) : tolower (f i) ≠ tolower c := by
  rw [toupper_tolower] at hup
  intro hcase
  rcases (tolower_eq_iff c _).mp hcase with hl | hu
  · exact ne_of_hasZero_xor hlo hi hl
  · exact ne_of_hasZero_xor hup hi hu

theorem wordLoop_spec (h : StopsAt mem c s n) : ∀ (fuel k : Nat), k ≤ n → n < fuel + k →
    ∃ j ≤ n, wordLoop mem (ones * (tolower c).toUInt64)
      (ones * (toupper (tolower c)).toUInt64) fuel (s + k) = .ok (s + j)
  | 0, k, hk, hf => by omega
  | fuel + 1, k, hk, hf => by
      rw [wordLoop]
      by_cases hgo : (!hasZero (leWord fun i => mem (s + k + i)) &&
          !hasZero ((leWord fun i => mem (s + k + i)) ^^^ (ones * (tolower c).toUInt64)) &&
          !hasZero ((leWord fun i => mem (s + k + i)) ^^^
            (ones * (toupper (tolower c)).toUInt64))) = true
      · rw [if_pos hgo, Nat.add_assoc]
        simp only [Bool.and_eq_true, Bool.not_eq_true'] at hgo
        obtain ⟨⟨hz, hlo⟩, hup⟩ := hgo
        have hmiss : ∀ j < 8, ¬(mem (s + k + j) = 0 ∨ tolower (mem (s + k + j)) = tolower c) := by
          rintro j hj (h0 | hcase)
          · exact ne_zero_of_hasZero hz hj h0
          · exact ne_fold_of_hasZero hlo hup hj hcase
        exact wordLoop_spec h fuel (k + 8) (h.le_of_miss hk hmiss) (by omega)
      · rw [if_neg hgo]
        exact ⟨k, hk, rfl⟩

theorem scan_stopsAt (h : StopsAt mem c s n) (hn : n ≤ sizeMax) {k : Nat} (hk : k ≤ n) :
    scan (fun x => x == 0 || tolower x == tolower c) mem (sizeMax + 1) (s + k) = .ok (s + n) := by
  have := @scan_eq (fun x => x == 0 || tolower x == tolower c) mem (n - k) (sizeMax + 1) (s + k)
    (by rw [show s + k + (n - k) = s + n by omega]; simpa using h.1)
    (fun i hi => by
      have := h.2 (k + i) (by omega)
      rw [← Nat.add_assoc] at this
      simpa [not_or] using this) (by omega)
  rwa [show s + k + (n - k) = s + n by omega] at this

theorem strcasechrnulMusl_spec (cfg : Build) (h : StopsAt mem c s n) (hn : n ≤ sizeMax) :
    strcasechrnulMusl cfg mem s c = .ok (s + n) := by
  simp only [strcasechrnulMusl]
  by_cases hcfg : cfg.haveAttrMayAlias = true
  · rw [if_pos hcfg]
    have halign := @alignLoop_spec mem s n (fun x => x == 0 || tolower x == tolower c)
      (by simpa using h.1) (fun i hi => by simpa [not_or] using h.2 i hi) 7 0 (Nat.zero_le n)
    rw [Nat.add_zero] at halign
    generalize alignLoop (fun x => x == 0 || tolower x == tolower c) mem 7 s = res at halign ⊢
    obtain ⟨p, b⟩ := res
    rcases halign with ⟨rfl, rfl⟩ | ⟨rfl, j, hj, rfl⟩
    · rfl
    · obtain ⟨j', hj', hrun⟩ := wordLoop_spec h (sizeMax + 1) j hj (by omega)
      simp only [hrun, bind, Except.bind]
      exact scan_stopsAt h hn hj'
  · rw [if_neg hcfg]
    exact scan_stopsAt h hn (Nat.zero_le n)

theorem strcspn_spec (h : StopsAt mem c s n) (hn : n ≤ sizeMax) :
    strcspn mem s [tolower c, toupper c] = .ok n := by
  have hset : (fun x : UInt8 => decide (x ∈ [tolower c, toupper c]) || x == 0)
      = fun x => x == 0 || tolower x == tolower c := by
    funext x
    rw [Bool.eq_iff_iff]
    simp only [List.mem_cons, List.not_mem_nil, or_false, Bool.or_eq_true, decide_eq_true_eq,
      beq_iff_eq, tolower_eq_iff c]
    tauto
  have hscan := scan_stopsAt h hn (Nat.zero_le n)
  rw [Nat.add_zero s] at hscan
  rw [strcspn, hset, hscan]
  simp [bind, Except.bind, pure, Except.pure]

theorem strcasechrStop_spec (cfg : Build) (h : StopsAt mem c s n) (hn : n ≤ sizeMax) :
    strcasechrStop cfg mem s (tolower c) = .ok (s + n) := by
  have hst : StopsAt mem (tolower c) s n := by
    simpa only [StopsAt, tolower_tolower] using h
  rw [strcasechrStop]
  cases cfg.strcasechrnulSimd with
  | some v => exact simdStrcasechrnul_spec v.bytes_pos hst hn
  | none =>
      simp only
      split
      · split
        · rw [toupper_tolower c, strcspn_spec h hn]; rfl
        · rename_i heq
          have hn0 : n = 0 := by
            by_contra hn0
            exact h.2 0 (Nat.pos_of_ne_zero hn0) (Or.inr (not_not.mp heq))
          rw [hn0]; rfl
      · exact strcasechrnulMusl_spec cfg hst hn

/-- What a search in a prefix of a string finds, by where a scan for `c` or the
terminator stops. -/
theorem CStr.search_take_eq {l : Bytes} (h : CStr mem s l) {canon : UInt8 → UInt8} {k : Nat}
    (hc : canon 0 ≠ canon c) (hk : k ≤ l.length)
    (hst : FirstAt (fun x => x = 0 ∨ canon x = canon c) mem s k) (n : Nat) :
    search [canon c] ((l.take n).map canon)
      = if k < n ∧ canon (mem (s + k)) = canon c then some k else none := by
  refine @search_byte_of_leftmost canon mem s (l.take n) (fun i hi => ?_) c _ ?_
  · rw [List.getElem_take]
    exact h.bytes i _
  · rw [List.length_take]
    split
    · rename_i hhit
      have hkl : k < l.length := by
        refine Nat.lt_of_le_of_ne hk fun heq => hc ?_
        rw [← hhit.2, heq, h.nul]
      exact ⟨⟨by omega, hhit.2⟩, fun j hj hj' => hst.2 j hj (Or.inr hj'.2)⟩
    · rename_i hmiss
      intro i hi
      have hki : k ≤ i := Nat.not_lt.mp fun hik => hst.2 i hik (Or.inr hi.2)
      refine hmiss ⟨by omega, hst.1.resolve_left fun hz => ?_⟩
      have := (h.eq_zero_iff hk).mp hz
      omega

theorem strcasechr_spec (cfg : Build) {l : Bytes} (h : CStr mem s l) (hc0 : c ≠ 0) :
    strcasechr cfg mem s c = .ok ((search [tolower c] (l.map tolower)).map (s + ·)) := by
  obtain ⟨n, hnl, hstop, hmin⟩ := @CStr.exists_stop mem s l h
    (fun x => x == 0 || tolower x == tolower c) (by simp)
  have hst : StopsAt mem c s n := ⟨by simpa using hstop, fun i hi => by simpa using hmin i hi⟩
  have hfits := h.fits
  have hres : search [tolower c] (l.map tolower)
      = if tolower (mem (s + n)) = tolower c then some n else none := by
    have htake := h.search_take_eq (fun h0 => hc0 (tolower_eq_zero.mp h0.symm)) hnl hst
      (l.length + 1)
    rw [List.take_of_length_le (Nat.le_succ _)] at htake
    simpa only [Nat.lt_succ_of_le hnl, true_and] using htake
  rw [hres, strcasechr]
  by_cases hc : isalpha c = true
  · simp only [hc, Bool.not_true, Bool.false_eq_true, if_false]
    rw [strcasechrStop_spec cfg hst (by omega)]
    simp only [bind, Except.bind, pure, Except.pure]
    split <;> rfl
  · simp only [hc, Bool.not_false, if_true]
    have hset : (fun x : UInt8 => x == c || x == 0) = fun x => x == 0 || tolower x == tolower c := by
      funext x
      rw [Bool.eq_iff_iff]
      simp only [Bool.or_eq_true, beq_iff_eq, tolower_eq_iff_of_not hc]
      tauto
    have hscan := scan_stopsAt hst (by omega) (Nat.zero_le n)
    rw [Nat.add_zero s] at hscan
    rw [strchr, hset, hscan]
    simp only [bind, Except.bind, pure, Except.pure, tolower_eq_iff_of_not hc]
    split <;> rfl

end Eol

end Jstr
