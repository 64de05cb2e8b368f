import Jstring.Lib.Bits
import Jstring.Libc

/-!
# Vector searches

`include/internal/simd.h`. A vector is a family of lanes, a comparison
leaves a `MASK` with one bit for each of the `V` lanes (`VEC_SIZE`: 16,
32 or 64). `LOAD` and `LOADU` differ in the alignment they need and not
in what they read.
-/

namespace Jstr

open Words Bits

/-- `jstr_vvec_ty`: the byte in each lane. -/
abbrev Vec := Nat → UInt8

def loadu (mem : Mem) (p : Nat) : Vec := fun i => mem (p + i)

def setone8 (c : UInt8) : Vec := fun _ => c

/-- `CMPEQ8_MASK(x, y)`. -/
def cmpeq8Mask (V : Nat) (x y : Vec) : BitVec V := ofLanes (fun i => x i == y i) V

theorem getLsbD_cmpeq8Mask (V : Nat) (x y : Vec) (i : Nat) :
    (cmpeq8Mask V x y).getLsbD i = (decide (i < V) && (x i == y i)) :=
  getLsbD_ofLanes _ V i

theorem cmpeq8Mask_eq_zero {V : Nat} {x y : Vec} : cmpeq8Mask V x y = 0#V ↔ ∀ i < V, x i ≠ y i := by
  constructor
  · intro h i hi heq
    have hbit := getLsbD_cmpeq8Mask V x y i
    rw [h, BitVec.getLsbD_zero, heq, beq_self_eq_true, Bool.and_true] at hbit
    exact of_decide_eq_false hbit.symm hi
  · intro h
    refine BitVec.eq_of_getLsbD_eq fun i hi => ?_
    rw [getLsbD_cmpeq8Mask, BitVec.getLsbD_zero, beq_eq_false_iff_ne.mpr (h i hi), Bool.and_false]

/-- `JSTR_PTR_ALIGN_DOWN(p, n)`. -/
def alignDown (p n : Nat) : Nat := p - p % n

/-- `JSTR_PTR_ALIGN_UP(p, n)`. -/
def alignUp (p n : Nat) : Nat := alignDown (p + n - 1) n

/-- `JSTR_PTR_NOT_CROSSING_PAGE(p, n, JSTR_PAGE_SIZE)`. -/
def notCrossingPage (p n : Nat) : Bool := n ≤ alignUp p 4096 - p

/-! ## The pair filter -/

/-- The loop that looks for a pair of different letters in the needle; `n`
letters left to look at. -/
def uniquePair (mem : Mem) (c : UInt8) : Nat → Nat → Nat
  | 0, p => p
  | n + 1, p => if mem p = c then uniquePair mem c n (p + 1) else p

/-- `FIND_MATCH`: does the needle stand at `p`? -/
def findMatch (V : Nat) (mem : Mem) (nv : Vec) (ne neLen p : Nat) : Bool :=
  let matchsh := if neLen < V then V - neLen else 0
  let matchm : BitVec V := BitVec.allOnes V <<< matchsh
  if notCrossingPage p V then cmpeq8Mask V (loadu mem p) nv <<< matchsh == matchm
  else memcmpEq mem p ne neLen

/-- `while (m) { i = TZCNT(m); m = BLSR(m); p = base + i; ... }`. -/
def matchBits {V : Nat} (test : Nat → Bool) (base : Nat) : Nat → BitVec V → Run (Option Nat)
  | fuel, m =>
    if m = 0#V then .ok none
    else
      match fuel with
      | 0 => .error .diverge
      | fuel + 1 =>
        let i := tz m
        if test (base + i) then .ok (some (base + i)) else matchBits test base fuel (blsr m)

/-- The lanes at `h` with the pair of the needle at `n`. -/
def pairMask (V : Nat) (mem : Mem) (nv0 nv1 : Vec) (h : Nat) : BitVec V :=
  cmpeq8Mask V (loadu mem h) nv0 &&& cmpeq8Mask V (loadu mem (h + 1)) nv1

/-- The blocks after the first and the last, partial one. The source jumps
back into the loop body for the last one and leaves the loop after it. -/
def memmemBlocks (V : Nat) (mem : Mem) (test : Nat → Bool) (nv0 nv1 : Vec) (n last : Nat) :
    Nat → Nat → Run (Option Nat)
  | 0, _ => .error .diverge
  | fuel + 1, h =>
    if h - n + V ≤ last then do
      match ← matchBits test (h - n) V (pairMask V mem nv0 nv1 h) with
      | some p => return some p
      | none => memmemBlocks V mem test nv0 nv1 n last fuel (h + V)
    else if h - n ≤ last then
      let offE := V - (last - (h - n)) - 1
      matchBits test (h - n) V (pairMask V mem nv0 nv1 h &&& (BitVec.allOnes V >>> offE))
    else .ok none

/-- `jstr_internal_simd_memmem` from the first occurrence of the needle's
first byte on. `uninit` is what an uninitialised vector holds. -/
def simdMemmemVec (V : Nat) (mem : Mem) (uninit : Vec) (hs hsLen ne neLen : Nat) :
    Run (Option Nat) := do
  let last := hs + hsLen - neLen
  let n := uniquePair mem (mem ne) (neLen - 2) (ne + 1) - ne - 1
  let h := hs + n
  let nv0 := setone8 (mem (ne + n))
  let nv1 := setone8 (mem (ne + n + 1))
  let nv : Vec :=
    if notCrossingPage ne V ∨ neLen = V then loadu mem ne
    else fun i => if i < neLen then mem (ne + i) else uninit i
  let test := findMatch V mem nv ne neLen
  let offS := h - alignDown h V
  let offE := if last - (h - n) < V then V - (last - (h - n)) - 1 else 0
  let h := h - offS
  let hv0 := loadu mem h
  let hm0 := cmpeq8Mask V hv0 nv0
  let hm1 := cmpeq8Mask V hv0 nv1 >>> 1
  let m := ((hm0 &&& hm1) >>> offS) &&& (BitVec.allOnes V >>> offE)
  match ← matchBits test (h + offS - n) V m with
  | some p => return some p
  | none => memmemBlocks V mem test nv0 nv1 n last (hsLen + 1) (h + (V - 1))

/-- `jstr_internal_simd_memmem`, for needles of at most `V` bytes. -/
def simdMemmem (V : Nat) (mem : Mem) (uninit : Vec) (hs hsLen ne neLen : Nat) :
    Run (Option Nat) :=
  if neLen = 1 then .ok (memchr mem hs (mem ne) hsLen)
  else if neLen = 0 then .ok (some hs)
  else if hsLen < neLen then .ok none
  else
    match memchr mem hs (mem ne) (hsLen - neLen + 1) with
    | none => .ok none
    | some f => simdMemmemVec V mem uninit f (hsLen - (f - hs)) ne neLen

/-! ### Correctness -/

/-- The `l` bytes at `ne` stand at address `p`. -/
def FullAt (mem : Mem) (ne l p : Nat) : Prop := ∀ k < l, mem (p + k) = mem (ne + k)

section Memmem

variable {V : Nat} {mem : Mem} {ne l : Nat}

theorem cmpeq_shift_iff {s : Nat} (hs : s ≤ V) {x y : Vec} :
    cmpeq8Mask V x y <<< s = BitVec.allOnes V <<< s ↔ ∀ i < V - s, x i = y i := by
  constructor
  · intro h i hi
    have := congrArg (fun m => m.getLsbD (i + s)) h
    simp only [BitVec.getLsbD_shiftLeft, getLsbD_cmpeq8Mask, BitVec.getLsbD_allOnes,
      Nat.add_sub_cancel] at this
    simpa [show i + s < V by omega, show ¬i + s < s by omega, show i < V by omega] using this
  · intro h
    refine BitVec.eq_of_getLsbD_eq fun j hj => ?_
    simp only [BitVec.getLsbD_shiftLeft, getLsbD_cmpeq8Mask, BitVec.getLsbD_allOnes, hj]
    by_cases hjs : j < s
    · simp [hjs]
    · have := h (j - s) (by omega)
      simp [hjs, this, show j - s < V by omega]

theorem findMatch_iff {nv : Vec} (hl : l ≤ V) (hnv : ∀ i < l, nv i = mem (ne + i)) (p : Nat) :
    findMatch V mem nv ne l p = true ↔ FullAt mem ne l p := by
  simp only [findMatch]
  by_cases hpage : notCrossingPage p V = true
  · rw [if_pos hpage, beq_iff_eq]
    by_cases hlV : l < V
    · rw [if_pos hlV, cmpeq_shift_iff (Nat.sub_le V l), show V - (V - l) = l by omega]
      exact forall₂_congr fun i hi => by rw [hnv i hi]; rfl
    · rw [if_neg hlV, cmpeq_shift_iff (Nat.zero_le V), show V - 0 = l by omega]
      exact forall₂_congr fun i hi => by rw [hnv i hi]; rfl
  · rw [if_neg hpage]
    exact memcmpEq_iff

/-- The walk over the bits finds the lowest lane that passes the test. -/
theorem matchBits_leftmost {test : Nat → Bool} {base : Nat} : ∀ (fuel : Nat) (m : BitVec V),
    (∀ i, m.getLsbD i = true → V ≤ i + fuel) →
    ∃ r, matchBits test base fuel m = .ok (r.map (base + ·)) ∧
      Leftmost (fun i => m.getLsbD i = true ∧ test (base + i) = true) r := by
  intro fuel
  induction fuel with
  | zero =>
      intro m hm
      have h0 : m = 0#V := by
        refine BitVec.eq_of_getLsbD_eq fun i hi => ?_
        rw [BitVec.getLsbD_zero, Bool.eq_false_iff]
        exact fun h => by have := hm i h; omega
      exact ⟨none, by rw [matchBits, if_pos h0]; rfl, fun i hi => by simp [h0] at hi⟩
  | succ fuel ih =>
      intro m hm
      rw [matchBits]
      by_cases h0 : m = 0#V
      · exact ⟨none, by rw [if_pos h0]; rfl, fun i hi => by simp [h0] at hi⟩
      · rw [if_neg h0]
        have hlow : ∀ j < tz m, ¬m.getLsbD j = true := fun j hj => by
          rw [getLsbD_of_lt_tz hj]; exact Bool.false_ne_true
        by_cases ht : test (base + tz m) = true
        · exact ⟨some (tz m), by simp only [ht, if_true]; rfl, ⟨getLsbD_tz h0, ht⟩,
            fun j hj h => hlow j hj h.1⟩
        · have hblsr : ∀ i, (blsr m).getLsbD i = true ∧ test (base + i) = true ↔
              m.getLsbD i = true ∧ test (base + i) = true := by
            intro i
            rw [getLsbD_blsr h0, Bool.and_eq_true, decide_eq_true_eq]
            constructor
            · exact fun h => ⟨h.1.1, h.2⟩
            · exact fun h => ⟨⟨h.1, fun hi => ht (hi ▸ h.2)⟩, h.2⟩
          obtain ⟨r, hr, hleft⟩ := ih (blsr m) fun i hi => by
            rw [getLsbD_blsr h0, Bool.and_eq_true, decide_eq_true_eq] at hi
            have := hm (tz m) (getLsbD_tz h0)
            have hge : tz m ≤ i := Nat.not_lt.mp fun h => hlow i h hi.1
            omega
          exact ⟨r, by simp only [ht]; exact hr, hleft.congr hblsr⟩

/-- One block: `w` candidates from `base` on, the mask holds those whose
letters at `n` and `n + 1` are the pair. -/
theorem block_spec {test : Nat → Bool} (htest : ∀ p, test p = true ↔ FullAt mem ne l p)
    {n base w : Nat} (hn : n + 1 < l) {m : BitVec V}
    (hm : ∀ i, m.getLsbD i = true ↔ i < w ∧
      mem (base + i + n) = mem (ne + n) ∧ mem (base + i + (n + 1)) = mem (ne + (n + 1))) :
    ∃ r, matchBits test base V m = .ok r ∧ LeftmostIn (FullAt mem ne l) base (base + w) r := by
  obtain ⟨r, hr, hleft⟩ := @matchBits_leftmost V test base V m fun i _ => Nat.le_add_left V i
  refine ⟨_, hr, ?_⟩
  have hbit : ∀ j, base ≤ j → j < base + w → FullAt mem ne l j →
      m.getLsbD (j - base) = true ∧ test (base + (j - base)) = true := by
    intro j h1 h2 hfull
    rw [show base + (j - base) = j by omega]
    refine ⟨(hm _).mpr ⟨by omega, ?_, ?_⟩, (htest j).mpr hfull⟩
    · rw [show base + (j - base) = j by omega]; exact hfull n (by omega)
    · rw [show base + (j - base) = j by omega]; exact hfull (n + 1) hn
  cases r with
  | none => exact fun j h1 h2 hfull => hleft _ (hbit j h1 h2 hfull)
  | some i =>
      obtain ⟨⟨hi, ht⟩, hmin⟩ := hleft
      have hiw := ((hm i).mp hi).1
      rw [Option.map_some]
      exact ⟨⟨Nat.le_add_right _ _, by omega, (htest _).mp ht⟩, fun j h1 h2 hfull =>
        hmin (j - base) (by omega) (hbit j h1 (by omega) hfull)⟩

theorem getLsbD_pairMask {n h : Nat} (i : Nat) :
    (pairMask V mem (setone8 (mem (ne + n))) (setone8 (mem (ne + n + 1))) h).getLsbD i = true ↔
      i < V ∧ mem (h + i) = mem (ne + n) ∧ mem (h + i + 1) = mem (ne + (n + 1)) := by
  simp only [pairMask, BitVec.getLsbD_and, getLsbD_cmpeq8Mask, Bool.and_eq_true,
    decide_eq_true_eq, beq_iff_eq, loadu, setone8]
  rw [show h + 1 + i = h + i + 1 by omega, show ne + n + 1 = ne + (n + 1) by omega]
  tauto

theorem memmemBlocks_spec {test : Nat → Bool}
    (htest : ∀ p, test p = true ↔ FullAt mem ne l p) {n last : Nat} (hn : n + 1 < l)
    (hV : 0 < V) : ∀ (fuel base : Nat), last < fuel + base →
    ∃ r, memmemBlocks V mem test (setone8 (mem (ne + n))) (setone8 (mem (ne + n + 1))) n last
        (fuel + 1) (base + n) = .ok r ∧ LeftmostIn (FullAt mem ne l) base (last + 1) r
  | 0, base, hf => by
      rw [memmemBlocks, Nat.add_sub_cancel, if_neg (by omega), if_neg (by omega)]
      exact ⟨none, rfl, fun j h1 h2 => by omega⟩
  | fuel + 1, base, hf => by
      rw [memmemBlocks, Nat.add_sub_cancel]
      by_cases hfull : base + V ≤ last
      · rw [if_pos hfull]
        obtain ⟨r, hr, hleft⟩ := @block_spec V mem ne l test htest n base V hn _ fun i => by
            rw [@getLsbD_pairMask V mem ne n (base + n) i, show base + n + i = base + i + n by omega,
              show base + i + n + 1 = base + i + (n + 1) by omega]
        rw [hr]
        cases r with
        | some p => exact ⟨some p, rfl, hleft.mono (show base + V ≤ last + 1 by omega)⟩
        | none =>
            obtain ⟨r, hr', hleft'⟩ := memmemBlocks_spec htest hn hV fuel (base + V)
              (show last < fuel + (base + V) by omega)
            refine ⟨r, ?_, hleft.append hleft' (Nat.le_add_right _ _)⟩
            rw [← hr', Nat.add_right_comm base V n]
            rfl
      · rw [if_neg hfull]
        by_cases hpart : base ≤ last
        · rw [if_pos hpart]
          obtain ⟨r, hr, hleft⟩ := @block_spec V mem ne l test htest n base (last + 1 - base) hn
            (pairMask V mem (setone8 (mem (ne + n))) (setone8 (mem (ne + n + 1))) (base + n)
              &&& (BitVec.allOnes V >>> (V - (last - base) - 1))) fun i => by
            rw [BitVec.getLsbD_and, Bool.and_eq_true, getLsbD_pairMask,
              BitVec.getLsbD_ushiftRight, BitVec.getLsbD_allOnes, decide_eq_true_eq,
              show base + n + i = base + i + n by omega,
              show base + i + n + 1 = base + i + (n + 1) by omega]
            constructor
            · rintro ⟨⟨-, h1⟩, h2⟩
              exact ⟨by omega, h1⟩
            · rintro ⟨h1, h2⟩
              exact ⟨⟨by omega, h2⟩, by omega⟩
          refine ⟨r, hr, ?_⟩
          rwa [show base + (last + 1 - base) = last + 1 by omega] at hleft
        · rw [if_neg hpart]
          exact ⟨none, rfl, fun j h1 h2 => by omega⟩

theorem uniquePair_le (mem : Mem) (c : UInt8) : ∀ (n p : Nat),
    p ≤ uniquePair mem c n p ∧ uniquePair mem c n p ≤ p + n
  | 0, p => ⟨Nat.le_refl p, Nat.le_refl p⟩
  | n + 1, p => by
      rw [uniquePair]
      split
      · have := uniquePair_le mem c n (p + 1)
        omega
      · omega

/-- The first block starts below the haystack, at an aligned address, and
its last lane has no partner. -/
theorem firstBlock_spec {test : Nat → Bool}
    (htest : ∀ p, test p = true ↔ FullAt mem ne l p) {n base last offS : Nat} (hn : n + 1 < l)
    (hoff : offS < V) (hoffS : offS ≤ base + n) (hlast : base ≤ last) :
    ∃ r, matchBits test base V
        (((cmpeq8Mask V (loadu mem (base + n - offS)) (setone8 (mem (ne + n))) &&&
            cmpeq8Mask V (loadu mem (base + n - offS)) (setone8 (mem (ne + n + 1))) >>> 1)
            >>> offS) &&&
          (BitVec.allOnes V >>> (if last - base < V then V - (last - base) - 1 else 0))) = .ok r ∧
      LeftmostIn (FullAt mem ne l) base
        (base + min (V - 1 - offS) (last + 1 - base)) r := by
  refine block_spec htest hn fun i => ?_
  have hlane : ∀ k, base + n - offS + (offS + i + k) = base + i + (n + k) := fun k => by omega
  have hlim : (if last - base < V then V - (last - base) - 1 else 0) + i < V ∧ i < V ↔
      i < V ∧ i < last + 1 - base := by
    split
    · omega
    · omega
  have h0 := hlane 0
  have h1 := hlane 1
  simp only [Nat.add_zero] at h0
  simp only [BitVec.getLsbD_and, BitVec.getLsbD_ushiftRight, getLsbD_cmpeq8Mask,
    BitVec.getLsbD_allOnes, Bool.and_eq_true, decide_eq_true_eq, beq_iff_eq, loadu, setone8,
    Nat.add_comm 1 (offS + i), h0, h1, show ne + n + 1 = ne + (n + 1) by omega]
  constructor
  · rintro ⟨⟨⟨-, ha⟩, hb, hc⟩, hd⟩
    exact ⟨by omega, ha, hc⟩
  · rintro ⟨hi, ha, hc⟩
    exact ⟨⟨⟨by omega, ha⟩, by omega, hc⟩, by omega⟩

theorem fullAt_standsAt {hs hl i : Nat} :
    StandsAt id mem hs hl ne l i ↔ i + l ≤ hl ∧ FullAt mem ne l (hs + i) := Iff.rfl

/-- From the addresses of the candidates to offsets in the haystack. -/
theorem leftmost_of_leftmostIn {hs hl a : Nat} {r : Option Nat} (hl0 : l ≤ hl)
    (ha : hs ≤ a) (hskip : ∀ p, hs ≤ p → p < a → ¬FullAt mem ne l p)
    (hr : LeftmostIn (FullAt mem ne l) a (hs + hl - l + 1) r) :
    Leftmost (StandsAt id mem hs hl ne l) (r.map (· - hs)) ∧
      r = (r.map (· - hs)).map (hs + ·) := by
  have hmiss : ∀ i, (∀ p, a ≤ p → p ≤ hs + i → ¬FullAt mem ne l p) →
      ¬FullAt mem ne l (hs + i) := by
    intro i h
    by_cases hia : hs + i < a
    · exact hskip _ (Nat.le_add_right hs i) hia
    · exact h _ (by omega) (Nat.le_refl _)
  cases r with
  | none =>
      refine ⟨fun i hi => hmiss i (fun p hp hpi => ?_) (fullAt_standsAt.mp hi).2, rfl⟩
      have := hi.1
      exact hr p hp (by omega)
  | some p =>
      obtain ⟨⟨hap, hpl, hp⟩, hmin⟩ := hr
      have heq : hs + (p - hs) = p := by omega
      rw [Option.map_some]
      refine ⟨⟨fullAt_standsAt.mpr ⟨by omega, by rwa [heq]⟩, fun j hj h => ?_⟩, by simp [heq]⟩
      exact hmiss j (fun q hq hqj => hmin q hq (by omega)) (fullAt_standsAt.mp h).2

theorem simdMemmemVec_spec {uninit : Vec} {f hl : Nat} (h2 : 2 ≤ l) (hV : l ≤ V)
    (hl0 : l ≤ hl) :
    ∃ r, simdMemmemVec V mem uninit f hl ne l = .ok r ∧
      LeftmostIn (FullAt mem ne l) f (f + hl - l + 1) r := by
  simp only [simdMemmemVec]
  generalize hnv : (if notCrossingPage ne V = true ∨ l = V then loadu mem ne
    else fun i => if i < l then mem (ne + i) else uninit i : Vec) = nv
  have htest : ∀ p, findMatch V mem nv ne l p = true ↔ FullAt mem ne l p := by
    refine findMatch_iff hV fun i hi => ?_
    rw [← hnv]
    split
    · rfl
    · exact if_pos hi
  obtain ⟨hu1, hu2⟩ := uniquePair_le mem (mem ne) (l - 2) (ne + 1)
  generalize hn : uniquePair mem (mem ne) (l - 2) (ne + 1) - ne - 1 = n
  have hnl : n + 1 < l := by omega
  have hoffS : f + n - alignDown (f + n) V = (f + n) % V := by
    have := Nat.mod_le (f + n) V
    rw [alignDown]; omega
  have hmod : (f + n) % V < V := Nat.mod_lt _ (by omega)
  have hmodle := Nat.mod_le (f + n) V
  rw [hoffS, show f + n - (f + n) % V + (f + n) % V - n = f by omega,
    show f + n - n = f by omega]
  generalize (f + n) % V = offS at hmod hmodle ⊢
  obtain ⟨r, hr, hleft⟩ := @firstBlock_spec V mem ne l _ htest n f (f + hl - l) offS hnl hmod
    hmodle (by omega)
  rw [hr]
  cases r with
  | some p => exact ⟨some p, rfl, hleft.mono (show _ ≤ f + hl - l + 1 by omega)⟩
  | none =>
      obtain ⟨r, hr', hleft'⟩ := @memmemBlocks_spec V mem ne l _ htest n (f + hl - l) hnl
        (by omega) hl (f + (V - 1 - offS)) (by omega)
      rw [show f + (V - 1 - offS) + n = f + n - offS + (V - 1) by omega] at hr'
      refine ⟨r, hr', ?_⟩
      by_cases hw : V - 1 - offS ≤ f + hl - l + 1 - f
      · rw [Nat.min_eq_left hw] at hleft
        exact hleft.append hleft' (Nat.le_add_right _ _)
      · -- the first block reaches the last candidate: nothing is left
        rw [Nat.min_eq_right (by omega)] at hleft
        cases r with
        | none => exact fun j h1 h2 => hleft j h1 (by omega)
        | some p => have := hleft'.1; omega

theorem simdMemmem_spec {uninit : Vec} {hs : Nat} {HS NE : Bytes}
    (hh : MemAt mem hs HS) (hn : MemAt mem ne NE) (hV : NE.length ≤ V) :
    simdMemmem V mem uninit hs HS.length ne NE.length
      = .ok ((search NE HS).map (hs + ·)) := by
  rw [simdMemmem]
  by_cases h1 : NE.length = 1
  · rw [if_pos h1, memchr_eq_search hh]
    obtain ⟨c, rfl⟩ := List.length_eq_one_iff.mp h1
    have := hn 0 Nat.one_pos
    rw [Nat.add_zero] at this
    rw [this]; rfl
  rw [if_neg h1]
  by_cases h0 : NE.length = 0
  · rw [if_pos h0, List.length_eq_zero_iff.mp h0, search_nil]; rfl
  rw [if_neg h0]
  by_cases hlt : HS.length < NE.length
  · rw [if_pos hlt, search_of_length_lt hlt]; rfl
  rw [if_neg hlt]
  have hmap : ∀ {r : Option Nat},
      Leftmost (StandsAt id mem hs HS.length ne NE.length) r → search NE HS = r := fun h => by
    have := search_of_leftmost hh hn h
    rwa [List.map_id, List.map_id] at this
  have hfirst : ∀ p, FullAt mem ne NE.length p → mem p = mem ne := fun p h => h 0 (by omega)
  obtain ⟨r, hr, hskip⟩ := memchr_leftmost mem (mem ne) (HS.length - NE.length + 1) hs
  rw [hr]
  cases r with
  | none =>
      have : search NE HS = none := hmap fun i hi =>
        hskip i ⟨by have := hi.1; omega, hfirst _ (fullAt_standsAt.mp hi).2⟩
      rw [this]; rfl
  | some f =>
      obtain ⟨⟨hf, -⟩, hmin⟩ := hskip
      simp only [Option.map_some]
      rw [show hs + f - hs = f by omega]
      obtain ⟨r, hr', hleft⟩ := @simdMemmemVec_spec V mem ne NE.length uninit (hs + f)
        (HS.length - f) (by omega) hV (by omega)
      rw [show hs + f + (HS.length - f) - NE.length + 1 = hs + HS.length - NE.length + 1
        by omega] at hleft
      obtain ⟨hleft', hmapr⟩ := leftmost_of_leftmostIn (by omega) (Nat.le_add_right hs f)
        (fun p hp hpf hfull => hmin (p - hs) (by omega) ⟨by omega, by
          rw [show hs + (p - hs) = p by omega]; exact hfirst p hfull⟩) hleft
      rw [hr', hmap hleft', ← hmapr]

/-- Whatever the size of a vector, wherever the buffers lie and whatever is
around them, the leftmost occurrence is found. -/
theorem simdMemmem_leftmost (V : Nat) (uninit : Vec) {hs : Nat} {HS NE : Bytes}
    (hh : MemAt mem hs HS) (hn : MemAt mem ne NE) (hlen : 2 ≤ NE.length ∧ NE.length ≤ V) :
    ∃ r, Leftmost (OccursAt NE HS) r ∧
      simdMemmem V mem uninit hs HS.length ne NE.length = .ok (r.map (hs + ·)) :=
  ⟨search NE HS, search_eq_iff_leftmost.mp rfl, simdMemmem_spec hh hn hlen.2⟩

/-- "ab" in "aab", the needle right behind the haystack. -/
theorem simdMemmem_leftmost_aab :
    ∃ r, Leftmost (OccursAt ([97, 98] : Bytes) [97, 97, 98]) r ∧
      simdMemmem 16 (memOf [97, 97, 98, 97, 98]) (fun _ => 0) 0 3 3 2 = .ok (r.map (0 + ·)) :=
  @simdMemmem_leftmost (memOf [97, 97, 98, 97, 98]) 3 16 (fun _ => 0) 0 [97, 97, 98] [97, 98]
    (by decide) (by decide) (by decide)

end Memmem

end Jstr
