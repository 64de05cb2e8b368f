import Jstring.Loads

/-!
# What the vector memmem loads

`jstr_internal_simd_memmem` with its loads recorded, those from the
haystack and those from the needle apart, and without the record
(`simdMemmemLoads_result`). A block is loaded aligned around a letter of
the haystack, or one byte below such a block; a candidate is loaded where
it does not cross a page. So every load stays on the pages of its buffer
(`simdMemmemLoads_onPages`).

`wideLoads_iff` is the account for all the searches.
-/

namespace Jstr

open Words Bits Trace Trace.Traced

/-- The buffer a load is from. -/
inductive Side where
  | hs
  | ne
  deriving DecidableEq, Repr

/-- A computation with the loads from two buffers. -/
abbrev TwoLoads (α : Type) := Traced Fault (Side × Load) α

def loadVecOf (x : Side) (V : Nat) (mem : Mem) (p : Nat) : TwoLoads Vec := do
  emit (x, ⟨p, V⟩)
  return loadu mem p

def loadByteOf (x : Side) (mem : Mem) (p : Nat) : TwoLoads UInt8 := do
  emit (x, ⟨p, 1⟩)
  return mem p

@[simp] theorem loadVecOf_result (x : Side) (V : Nat) (mem : Mem) (p : Nat) :
    (loadVecOf x V mem p).result = .ok (loadu mem p) := rfl

@[simp] theorem loadByteOf_result (x : Side) (mem : Mem) (p : Nat) :
    (loadByteOf x mem p).result = .ok (mem p) := rfl

/-! ## The search -/

/-- The loop that looks for a pair of different letters in the needle. -/
def uniquePairLoads (mem : Mem) (c : UInt8) : Nat → Nat → TwoLoads Nat
  | 0, p => return p
  | n + 1, p => do
    let x ← loadByteOf .ne mem p
    if x = c then uniquePairLoads mem c n (p + 1) else return p

/-- `FIND_MATCH`. `memcmp` reads no further than it is told. -/
def findMatchLoads (V : Nat) (mem : Mem) (nv : Vec) (ne neLen p : Nat) : TwoLoads Bool :=
  let matchsh := if neLen < V then V - neLen else 0
  let matchm : BitVec V := BitVec.allOnes V <<< matchsh
  if notCrossingPage p V then do
    let hv ← loadVecOf .hs V mem p
    return cmpeq8Mask V hv nv <<< matchsh == matchm
  else do
    emit (.hs, ⟨p, neLen⟩)
    emit (.ne, ⟨ne, neLen⟩)
    return memcmpEq mem p ne neLen

/-- The walk over the set bits. -/
def matchBitsLoads {V : Nat} (test : Nat → TwoLoads Bool) (base : Nat) :
    Nat → BitVec V → TwoLoads (Option Nat)
  | fuel, m =>
    if m = 0#V then return none
    else
      match fuel with
      | 0 => fail .diverge
      | fuel + 1 => do
        let i := tz m
        let found ← test (base + i)
        if found then return some (base + i) else matchBitsLoads test base fuel (blsr m)

/-- The blocks after the first and the last, partial one. -/
def memmemBlocksLoads (V : Nat) (mem : Mem) (test : Nat → TwoLoads Bool) (nv0 nv1 : Vec)
    (n last : Nat) : Nat → Nat → TwoLoads (Option Nat)
  | 0, _ => fail .diverge
  | fuel + 1, h =>
    if h - n + V ≤ last then do
      let hv0 ← loadVecOf .hs V mem h
      let hv1 ← loadVecOf .hs V mem (h + 1)
      match ← matchBitsLoads test (h - n) V (cmpeq8Mask V hv0 nv0 &&& cmpeq8Mask V hv1 nv1) with
      | some p => return some p
      | none => memmemBlocksLoads V mem test nv0 nv1 n last fuel (h + V)
    else if h - n ≤ last then do
      let offE := V - (last - (h - n)) - 1
      let hv0 ← loadVecOf .hs V mem h
      let hv1 ← loadVecOf .hs V mem (h + 1)
      matchBitsLoads test (h - n) V
        (cmpeq8Mask V hv0 nv0 &&& cmpeq8Mask V hv1 nv1 &&& (BitVec.allOnes V >>> offE))
    else return none

/-- The needle's vector: `LOADU`, or `memcpy` over what it held. -/
def needleVec (V : Nat) (mem : Mem) (uninit : Vec) (ne neLen : Nat) : TwoLoads Vec :=
  if notCrossingPage ne V ∨ neLen = V then loadVecOf .ne V mem ne
  else do
    emit (.ne, ⟨ne, neLen⟩)
    return fun i => if i < neLen then mem (ne + i) else uninit i

/-- `jstr_internal_simd_memmem` from the first occurrence of the needle's
first byte on. -/
def simdMemmemVecLoads (V : Nat) (mem : Mem) (uninit : Vec) (hs hsLen ne neLen : Nat) :
    TwoLoads (Option Nat) := do
  let last := hs + hsLen - neLen
  let c ← loadByteOf .ne mem ne
  let p ← uniquePairLoads mem c (neLen - 2) (ne + 1)
  let n := p - ne - 1
  let h := hs + n
  let c0 ← loadByteOf .ne mem (ne + n)
  let c1 ← loadByteOf .ne mem (ne + n + 1)
  let nv0 := setone8 c0
  let nv1 := setone8 c1
  let nv ← needleVec V mem uninit ne neLen
  let test := findMatchLoads V mem nv ne neLen
  let offS := h - alignDown h V
  let offE := if last - (h - n) < V then V - (last - (h - n)) - 1 else 0
  let h := h - offS
  let hv0 ← loadVecOf .hs V mem h
  let hm0 := cmpeq8Mask V hv0 nv0
  let hm1 := cmpeq8Mask V hv0 nv1 >>> 1
  let m := ((hm0 &&& hm1) >>> offS) &&& (BitVec.allOnes V >>> offE)
  match ← matchBitsLoads test (h + offS - n) V m with
  | some p => return some p
  | none => memmemBlocksLoads V mem test nv0 nv1 n last (hsLen + 1) (h + (V - 1))

/-- `jstr_internal_simd_memmem`. `memchr` reads no further than it is
told. -/
def simdMemmemLoads (V : Nat) (mem : Mem) (uninit : Vec) (hs hsLen ne neLen : Nat) :
    TwoLoads (Option Nat) :=
  if neLen = 1 then do
    let c ← loadByteOf .ne mem ne
    emit (.hs, ⟨hs, hsLen⟩)
    return memchr mem hs c hsLen
  else if neLen = 0 then return some hs
  else if hsLen < neLen then return none
  else do
    let c ← loadByteOf .ne mem ne
    emit (.hs, ⟨hs, hsLen - neLen + 1⟩)
    match memchr mem hs c (hsLen - neLen + 1) with
    | none => return none
    | some f => simdMemmemVecLoads V mem uninit f (hsLen - (f - hs)) ne neLen

/-! ## Without the record -/

section Result

variable {V : Nat} {mem : Mem}

theorem uniquePairLoads_result (c : UInt8) : ∀ (n p : Nat),
    (uniquePairLoads mem c n p).result = .ok (uniquePair mem c n p)
  | 0, p => rfl
  | n + 1, p => by
      simp only [uniquePairLoads, uniquePair, result_bind, loadByteOf_result, Except.bind,
        result_ite, result_pure, uniquePairLoads_result c n (p + 1)]
      split <;> rfl

theorem findMatchLoads_result (nv : Vec) (ne neLen p : Nat) :
    (findMatchLoads V mem nv ne neLen p).result = .ok (findMatch V mem nv ne neLen p) := by
  simp only [findMatchLoads, findMatch, result_ite, result_bind, loadVecOf_result, result_emit,
    Except.bind, result_pure]
  split <;> rfl

theorem matchBitsLoads_result {testLoads : Nat → TwoLoads Bool} {test : Nat → Bool} {base : Nat}
    (htest : ∀ p, (testLoads p).result = .ok (test p)) : ∀ (fuel : Nat) (m : BitVec V),
    (matchBitsLoads testLoads base fuel m).result = matchBits test base fuel m := by
  intro fuel
  induction fuel with
  | zero =>
      intro m
      rw [matchBitsLoads, matchBits, result_ite]
      rfl
  | succ fuel ih =>
      intro m
      rw [matchBitsLoads, matchBits]
      simp only [result_ite, result_pure, result_bind, htest, Except.bind, ih]

theorem needleVec_result (uninit : Vec) (ne neLen : Nat) :
    (needleVec V mem uninit ne neLen).result
      = .ok (if notCrossingPage ne V ∨ neLen = V then loadu mem ne
          else fun i => if i < neLen then mem (ne + i) else uninit i) := by
  rw [needleVec, result_ite]
  split <;> rfl

theorem memmemBlocksLoads_result {testLoads : Nat → TwoLoads Bool} {test : Nat → Bool}
    (htest : ∀ p, (testLoads p).result = .ok (test p)) (nv0 nv1 : Vec) (n last : Nat) :
    ∀ (fuel h : Nat), (memmemBlocksLoads V mem testLoads nv0 nv1 n last fuel h).result
      = memmemBlocks V mem test nv0 nv1 n last fuel h
  | 0, h => rfl
  | fuel + 1, h => by
      have ih := memmemBlocksLoads_result htest nv0 nv1 n last fuel (h + V)
      rw [memmemBlocksLoads, memmemBlocks]
      simp only [result_ite, result_bind, loadVecOf_result, Except.bind, result_pure,
        matchBitsLoads_result htest]
      rw [← pairMask]
      split
      · rcases matchBits test (h - n) V (pairMask V mem nv0 nv1 h) with e | (_ | p)
        · rfl
        · exact ih
        · rfl
      · rfl

theorem simdMemmemVecLoads_result (uninit : Vec) (hs hsLen ne neLen : Nat) :
    (simdMemmemVecLoads V mem uninit hs hsLen ne neLen).result
      = simdMemmemVec V mem uninit hs hsLen ne neLen := by
  have hbits : ∀ (nv : Vec) (base : Nat) (m : BitVec V),
      (matchBitsLoads (findMatchLoads V mem nv ne neLen) base V m).result
        = matchBits (findMatch V mem nv ne neLen) base V m := fun nv base m =>
    matchBitsLoads_result (findMatchLoads_result nv ne neLen) V m
  have hblocks : ∀ nv nv0 nv1 n last fuel h,
      (memmemBlocksLoads V mem (findMatchLoads V mem nv ne neLen) nv0 nv1 n last fuel h).result
        = memmemBlocks V mem (findMatch V mem nv ne neLen) nv0 nv1 n last fuel h :=
    fun nv => memmemBlocksLoads_result (findMatchLoads_result nv ne neLen)
  simp only [simdMemmemVecLoads, simdMemmemVec, result_bind, loadByteOf_result, Except.bind,
    uniquePairLoads_result, needleVec_result, loadVecOf_result, hbits]
  generalize matchBits _ _ V _ = r
  rcases r with e | (_ | p)
  · rfl
  · exact hblocks _ _ _ _ _ _ _
  · rfl

/-- Forgetting the loads gives the search. -/
theorem simdMemmemLoads_result (uninit : Vec) (hs hsLen ne neLen : Nat) :
    (simdMemmemLoads V mem uninit hs hsLen ne neLen).result
      = simdMemmem V mem uninit hs hsLen ne neLen := by
  simp only [simdMemmemLoads, simdMemmem, result_ite, result_bind, loadByteOf_result, Except.bind,
    result_emit, result_pure]
  rcases memchr mem hs (mem ne) (hsLen - neLen + 1) with _ | f
  · rfl
  · simp only [simdMemmemVecLoads_result]

end Result

/-! ## Pages -/

/-- A load on the pages of the buffer it is from. -/
def OnTheirPages (hs hsLen ne neLen : Nat) (ld : Side × Load) : Prop :=
  match ld.1 with
  | .hs => OnPages hs hsLen ld.2
  | .ne => OnPages ne neLen ld.2

section Pages

variable {V : Nat} {mem : Mem} {hs hsLen ne l : Nat}

theorem always_loadVecOf {x : Side} {p : Nat} {P : Side × Load → Prop} (h : P (x, ⟨p, V⟩)) :
    Always P (loadVecOf x V mem p) :=
  (always_emit h).bind fun _ _ => always_pure _

theorem always_loadByteOf {x : Side} {p : Nat} {P : Side × Load → Prop} (h : P (x, ⟨p, 1⟩)) :
    Always P (loadByteOf x mem p) :=
  (always_emit h).bind fun _ _ => always_pure _

theorem uniquePairLoads_onPages (c : UInt8) : ∀ (n p : Nat), ne ≤ p → p + n ≤ ne + l →
    Always (OnTheirPages hs hsLen ne l) (uniquePairLoads mem c n p)
  | 0, p, _, _ => always_pure _
  | n + 1, p, hp, hn => by
      rw [uniquePairLoads]
      refine (always_loadByteOf (onPages_of_inside hp (by omega))).bind fun x _ => ?_
      exact always_ite (fun _ => uniquePairLoads_onPages c n (p + 1) (by omega) (by omega))
        fun _ => always_pure _

/-- A candidate where the needle fits. -/
theorem findMatchLoads_onPages (nv : Vec) {p : Nat} (hl : 0 < l) (hp : hs ≤ p)
    (hfit : p + l ≤ hs + hsLen) :
    Always (OnTheirPages hs hsLen ne l) (findMatchLoads V mem nv ne l p) := by
  rw [findMatchLoads]
  refine always_ite (fun hpage => ?_) fun _ => ?_
  · exact (always_loadVecOf (onPages_of_notCrossing (onPage_of_mem hp (by omega)) hpage)).bind
      fun _ _ => always_pure _
  · have hcand : OnTheirPages hs hsLen ne l (.hs, ⟨p, l⟩) := onPages_of_inside hp hfit
    have hneedle : OnTheirPages hs hsLen ne l (.ne, ⟨ne, l⟩) :=
      onPages_of_inside (Nat.le_refl ne) (Nat.le_refl _)
    refine (always_emit hcand).bind fun _ _ => ?_
    exact (always_emit hneedle).bind fun _ _ => always_pure _

/-- Only the lanes of the mask are looked at. -/
theorem matchBitsLoads_always {P : Side × Load → Prop} {test : Nat → TwoLoads Bool} {base : Nat} :
    ∀ (fuel : Nat) (m : BitVec V), (∀ i, m.getLsbD i = true → Always P (test (base + i))) →
    Always P (matchBitsLoads test base fuel m) := by
  intro fuel
  induction fuel with
  | zero =>
      intro m _
      rw [matchBitsLoads]
      exact always_ite (fun _ => always_pure _) fun _ => always_fail _
  | succ fuel ih =>
      intro m hm
      rw [matchBitsLoads]
      refine always_ite (fun _ => always_pure _) fun h0 => ?_
      refine (hm _ (getLsbD_tz h0)).bind fun found _ => ?_
      refine always_ite (fun _ => always_pure _) fun _ => ih (blsr m) fun i hi => hm i ?_
      rw [getLsbD_blsr h0, Bool.and_eq_true] at hi
      exact hi.1

/-- An aligned block that starts in the haystack, and the block one byte
below it that does. -/
theorem onPages_pair (hpage : V ∣ 4096) (hV : 0 < V) {h : Nat} (hdvd : V ∣ h + 1) (hh : hs ≤ h)
    (hin : h + 1 < hs + hsLen) : OnPages hs hsLen ⟨h, V⟩ ∧ OnPages hs hsLen ⟨h + 1, V⟩ := by
  have hblock : OnPages hs hsLen ⟨h + 1, V⟩ :=
    onPages_block hpage hdvd (Nat.le_refl _) (by omega) (onPage_of_mem (by omega) hin)
  refine ⟨fun i hi => ?_, hblock⟩
  simp only at hi ⊢
  rcases Nat.eq_zero_or_pos i with rfl | hpos
  · exact onPage_of_mem hh (by omega)
  · have := hblock (i - 1) (show i - 1 < V by omega)
    rwa [show h + 1 + (i - 1) = h + i by omega] at this

/-- The lanes up to the last candidate. -/
theorem le_of_lastLanes {m : BitVec V} {d i : Nat}
    (hi : (m &&& (BitVec.allOnes V >>> (if d < V then V - d - 1 else 0))).getLsbD i = true) :
    i ≤ d := by
  rw [BitVec.getLsbD_and, BitVec.getLsbD_ushiftRight, BitVec.getLsbD_allOnes, Bool.and_eq_true,
    decide_eq_true_eq] at hi
  have := hi.2
  split at this <;> omega

theorem memmemBlocksLoads_onPages (hpage : V ∣ 4096) (hV : 0 < V) {nv : Vec} (nv0 nv1 : Vec)
    {n last : Nat} (hn : n + 1 < l) (hlast : last + l = hs + hsLen) : ∀ (fuel base : Nat),
    V ∣ base + n + 1 → hs ≤ base →
    Always (OnTheirPages hs hsLen ne l)
      (memmemBlocksLoads V mem (findMatchLoads V mem nv ne l) nv0 nv1 n last fuel (base + n))
  | 0, base, _, _ => always_fail _
  | fuel + 1, base, hdvd, hbase => by
      have hcand : ∀ i, base + i ≤ last →
          Always (OnTheirPages hs hsLen ne l) (findMatchLoads V mem nv ne l (base + i)) :=
        fun i hi => findMatchLoads_onPages nv (by omega) (by omega) (by omega)
      rw [memmemBlocksLoads, Nat.add_sub_cancel]
      refine always_ite (fun hfull => ?_) fun hnot => always_ite (fun hpart => ?_) fun _ =>
        always_pure _
      · obtain ⟨h0, h1⟩ := onPages_pair hpage hV hdvd (show hs ≤ base + n by omega)
          (show base + n + 1 < hs + hsLen by omega)
        refine (always_loadVecOf h0).bind fun hv0 _ => (always_loadVecOf h1).bind fun hv1 _ => ?_
        refine (matchBitsLoads_always V _ fun i hi => hcand i ?_).bind fun r _ => ?_
        · have := BitVec.lt_of_getLsbD hi
          omega
        · cases r with
          | some p => exact always_pure _
          | none =>
              rw [Nat.add_right_comm base n V]
              refine memmemBlocksLoads_onPages hpage hV nv0 nv1 hn hlast fuel (base + V) ?_
                (by omega)
              rw [show base + V + n + 1 = base + n + 1 + V by omega]
              exact Nat.dvd_add hdvd (Nat.dvd_refl V)
      · obtain ⟨h0, h1⟩ := onPages_pair hpage hV hdvd (show hs ≤ base + n by omega)
          (show base + n + 1 < hs + hsLen by omega)
        refine (always_loadVecOf h0).bind fun hv0 _ => (always_loadVecOf h1).bind fun hv1 _ => ?_
        refine matchBitsLoads_always V _ fun i hi => hcand i ?_
        have hle := @le_of_lastLanes V _ (last - base) i (by
          rw [if_pos (by omega)]
          exact hi)
        omega

theorem needleVec_onPages (uninit : Vec) (hl : 0 < l) :
    Always (OnTheirPages hs hsLen ne l) (needleVec V mem uninit ne l) := by
  rw [needleVec]
  refine always_ite (fun hload => always_loadVecOf ?_) fun _ => ?_
  · rcases hload with hcross | rfl
    · exact onPages_of_notCrossing (onPage_of_mem (Nat.le_refl ne) (by omega)) hcross
    · exact onPages_of_inside (Nat.le_refl ne) (Nat.le_refl _)
  · have hneedle : OnTheirPages hs hsLen ne l (.ne, ⟨ne, l⟩) :=
      onPages_of_inside (Nat.le_refl ne) (Nat.le_refl _)
    exact (always_emit hneedle).bind fun _ _ => always_pure _

theorem simdMemmemVecLoads_onPages (hpage : V ∣ 4096) (hV : 0 < V) (uninit : Vec) (h2 : 2 ≤ l)
    (hl : l ≤ hsLen) :
    Always (OnTheirPages hs hsLen ne l) (simdMemmemVecLoads V mem uninit hs hsLen ne l) := by
  have hbyte : ∀ i < l, OnTheirPages hs hsLen ne l (.ne, ⟨ne + i, 1⟩) := fun i hi =>
    onPages_of_inside (Nat.le_add_right ne i) (by omega)
  rw [simdMemmemVecLoads]
  refine (always_loadByteOf (hbyte 0 (by omega))).bind fun c hc => ?_
  refine (uniquePairLoads_onPages c (l - 2) (ne + 1) (by omega) (by omega)).bind fun p hp => ?_
  rw [uniquePairLoads_result, Except.ok.injEq] at hp
  obtain ⟨hu1, hu2⟩ := uniquePair_le mem c (l - 2) (ne + 1)
  rw [hp] at hu1 hu2
  obtain ⟨n, rfl⟩ : ∃ n, p = ne + 1 + n := ⟨p - (ne + 1), by omega⟩
  simp only [show ne + 1 + n - ne - 1 = n by omega]
  have hn : n + 1 < l := by omega
  refine (always_loadByteOf (hbyte n (by omega))).bind fun c0 _ => ?_
  refine (always_loadByteOf (hbyte (n + 1) hn)).bind fun c1 _ => ?_
  refine (needleVec_onPages uninit (by omega)).bind fun nv _ => ?_
  have hcand : ∀ i, hs + i ≤ hs + hsLen - l →
      Always (OnTheirPages hs hsLen ne l) (findMatchLoads V mem nv ne l (hs + i)) :=
    fun i hi => findMatchLoads_onPages nv (by omega) (by omega) (by omega)
  obtain ⟨hdvd, hlt, hload⟩ := onPages_around hpage hV
    (onPage_of_mem (s := hs) (n := hsLen) (Nat.le_add_right hs n) (by omega))
  have hle := Nat.mod_le (hs + n) V
  have hoff : hs + n - alignDown (hs + n) V ≤ hs + n := Nat.sub_le _ _
  refine (always_loadVecOf hload).bind fun hv0 _ => ?_
  generalize hs + n - alignDown (hs + n) V = offS at *
  rw [show hs + n - offS + offS - n = hs by omega, show hs + n - n = hs by omega]
  refine (matchBitsLoads_always V _ fun i hi => hcand i ?_).bind fun r _ => ?_
  · have := le_of_lastLanes hi
    omega
  · cases r with
    | some p => exact always_pure _
    | none =>
        rw [show hs + n - offS + (V - 1) = hs + (V - 1 - offS) + n by omega]
        refine memmemBlocksLoads_onPages hpage hV _ _ hn (by omega) (hsLen + 1) _ ?_ (by omega)
        rw [show hs + (V - 1 - offS) + n + 1 = hs + n - offS + V by omega]
        exact Nat.dvd_add hdvd (Nat.dvd_refl V)

theorem OnPages.mono {s n s' n' : Nat} {ld : Load} (h : OnPages s n ld) (hs : s' ≤ s)
    (hn : s + n ≤ s' + n') : OnPages s' n' ld := by
  intro i hi
  obtain ⟨j, hj, hpage⟩ := h i hi
  exact ⟨s + j - s', by omega, by rwa [show s' + (s + j - s') = s + j by omega]⟩

/-- Every load is on a page of the buffer it is from. -/
theorem simdMemmemLoads_onPages (hpage : V ∣ 4096) (hV : 0 < V) (uninit : Vec) :
    Always (OnTheirPages hs hsLen ne l) (simdMemmemLoads V mem uninit hs hsLen ne l) := by
  rw [simdMemmemLoads]
  refine always_ite (fun h1 => ?_) fun h1 => always_ite (fun _ => always_pure _) fun h0 =>
    always_ite (fun _ => always_pure _) fun hlt => ?_
  · have hall : OnTheirPages hs hsLen ne l (.hs, ⟨hs, hsLen⟩) :=
      onPages_of_inside (Nat.le_refl hs) (Nat.le_refl _)
    refine (always_loadByteOf (onPages_of_inside (Nat.le_refl ne) (by omega))).bind fun c _ => ?_
    exact (always_emit hall).bind fun _ _ => always_pure _
  · have hfirst : OnTheirPages hs hsLen ne l (.hs, ⟨hs, hsLen - l + 1⟩) :=
      onPages_of_inside (Nat.le_refl hs) (by omega)
    refine (always_loadByteOf (onPages_of_inside (Nat.le_refl ne) (by omega))).bind fun c _ => ?_
    refine (always_emit hfirst).bind fun _ _ => ?_
    obtain ⟨r, hr, hleft⟩ := memchr_leftmost mem c (hsLen - l + 1) hs
    rw [hr]
    cases r with
    | none => exact always_pure _
    | some k =>
        have hk := hleft.1.1
        simp only [Option.map_some, show hsLen - (hs + k - hs) = hsLen - k by omega]
        refine (simdMemmemVecLoads_onPages hpage hV uninit (by omega) (by omega)).mono ?_
        rintro ⟨x, ld⟩ hld
        cases x with
        | hs => exact OnPages.mono hld (Nat.le_add_right hs k) (by omega)
        | ne => exact hld

end Pages

/-! ## All the searches -/

/-- For inputs that are not empty, wherever they lie and whatever is
around them: which loads stay on the pages of the input. -/
theorem wideLoads_iff (v : VecSize) (cfg : Build) (mem : Mem) {s n : Nat} (hs : 0 < s)
    (hn : 0 < n) (c : UInt8) :
    (Always (OnPages s n) (simdMemrchrLoads v.bytes mem s c n) ↔
      (4096 ∣ s → ∃ i < n, mem (s + i) = c)) ∧
    (Always (OnPages s n) (memrchrMuslLoads cfg mem s c n) ↔
      (cfg.haveAttrMayAlias = true → 8 ≤ n → 4096 ∣ s → ∃ i < n, mem (s + i) = c)) ∧
    Always (OnPages s n) (simdMemcasechrLoads v.bytes mem s c n) ∧
    (∀ l, CStr mem s l →
      Always (OnPages s (l.length + 1)) (simdStrchrnulLoads v.bytes mem s c) ∧
      Always (OnPages s (l.length + 1)) (simdStrcasechrnulLoads v.bytes mem s c)) ∧
    (∀ (uninit : Vec) (ne l : Nat),
      Always (OnTheirPages s n ne l) (simdMemmemLoads v.bytes mem uninit s n ne l)) :=
  ⟨simdMemrchrLoads_iff v.bytes_pos v.dvd_page hs hn, memrchrMuslLoads_iff cfg hs hn,
    simdMemcasechrLoads_onPages v.dvd_page v.bytes_pos,
    fun _ h => ⟨simdStrchrnulLoads_onPages v.dvd_page v.bytes_pos h,
      simdStrcasechrnulLoads_onPages v.dvd_page v.bytes_pos h⟩,
    fun uninit _ _ => simdMemmemLoads_onPages v.dvd_page v.bytes_pos uninit⟩

/-- 11 bytes before the end of a page and 29 on the next, none of them a 1. -/
theorem wideLoads_iff_across :
    Always (OnPages 4085 40) (simdMemrchrLoads 16 (memOf []) 4085 1 40) ∧
      Always (OnPages 4085 40) (memrchrMuslLoads sse2Build (memOf []) 4085 1 40) := by
  obtain ⟨hvec, hword, -⟩ := wideLoads_iff .sse2 sse2Build (memOf []) (s := 4085) (n := 40)
    (by decide) (by decide) 1
  exact ⟨hvec.mpr fun h => absurd h (by decide), hword.mpr fun _ _ h => absurd h (by decide)⟩

/-- 16 zeros at the begin of a page, none of them a 1: the vectors go on
to the page below. -/
theorem not_onPages_page_start :
    ¬∀ (v : VecSize) (mem : Mem) (s n : Nat) (c : UInt8), 0 < s → 0 < n →
      Always (OnPages s n) (simdMemrchrLoads v.bytes mem s c n) := by
  intro hall
  obtain ⟨i, -, hi⟩ := (simdMemrchrLoads_iff VecSize.sse2.bytes_pos VecSize.sse2.dvd_page
    (by decide) (by decide)).mp (hall .sse2 (fun _ => 0) 4096 16 1 (by decide) (by decide))
    (by decide)
  cases hi

end Jstr
