import Jstring.Libc

/-!
# The two-way matcher

`include/internal/musl/twoway.h`, the template behind
`jstr_internal_memmem_musl`, `jstr_internal_strcasestr_len_musl`,
`jstr_internal_strstr_musl` and `jstr_internal_strcasestr_musl`. The
parameters of the template are parameters here: `canon` is `CANON`,
`checkEol` is `JSTR_INTERNAL_MUSL_CHECK_EOL`, and `cmp` is
`JSTR_INTERNAL_MUSL_CMP_FUNC`, of which only "equal or not" is used.

`max_suffix` starts at `(size_t)-1` and is used as `max_suffix + 1` and
`max_suffix + k`: it is an `Int` here, with `-1` for that value. The
byte set is one flag for each byte value.
-/

namespace Jstr

/-! ## The compiled needle -/

/-- `jstr_internal_twoway_ty`. -/
structure TwowayTy where
  needleLen : Nat
  shift : UInt8 → Nat
  byteset : UInt8 → Bool
  suffix : Int
  globalPeriod : Nat
  memory0 : Nat
  deriving Inhabited

/-- `jstr_twoway_set_len`. -/
def twowaySetLen (t : TwowayTy) (len : Nat) : TwowayTy := { t with needleLen := len }

/-- `jstr_twoway_get_len`. -/
def twowayGetLen (t : TwowayTy) : Nat := t.needleLen

/-- Enter the letter at index `i` into the byte set and the shift table. -/
def TwowayTy.fill (t : TwowayTy) (a : UInt8) (i : Nat) : TwowayTy :=
  { t with
    byteset := fun b => b = a || t.byteset b
    shift := fun b => if b = a then i + 1 else t.shift b }

/-- The filling loop of `_comp` over `n` letters from index `i` on. -/
def fillLoop (canon : UInt8 → UInt8) (mem : Mem) (ne : Nat) :
    Nat → Nat → TwowayTy → TwowayTy
  | 0, _, t => t
  | n + 1, i, t => fillLoop canon mem ne n (i + 1) (t.fill (canon (mem (ne + i))) i)

/-- The maximal-suffix loop of `_comp`. The two runs of the source differ
in the comparison only: `lower b a` is `a > b` in the first, `a < b` in
the second. Returns `max_suffix` and the period. -/
def maxSuffixLoop (lower : UInt8 → UInt8 → Bool) (x : Nat → UInt8) (len : Nat) :
    Nat → Int → Nat → Nat → Nat → Run (Int × Nat)
  | fuel, maxSuffix, j, k, period =>
    if j + k < len then
      match fuel with
      | 0 => .error .diverge
      | fuel + 1 =>
        let a := x (maxSuffix + k).toNat
        let b := x (j + k)
        if lower b a then
          maxSuffixLoop lower x len fuel maxSuffix (j + k) 1 (j + k - maxSuffix).toNat
        else if a = b then
          if k = period then maxSuffixLoop lower x len fuel maxSuffix (j + period) 1 period
          else maxSuffixLoop lower x len fuel maxSuffix j (k + 1) period
        else
          maxSuffixLoop lower x len fuel j (j + 1) 1 1
    else .ok (maxSuffix, period)

/-- "Periodic ne?": the global period and the memory for the cut after
`suffix` and the period of the right part. -/
def compPeriodic (cmp : Mem → Nat → Nat → Nat → Bool) (mem : Mem) (ne : Nat)
    (t : TwowayTy) (suffix : Int) (period : Nat) : TwowayTy :=
  if !cmp mem ne (ne + period) (suffix + 1).toNat then
    -- not reached with `suffix = -1`, where nothing is compared
    { t with
      suffix, memory0 := 0
      globalPeriod := (max suffix (t.needleLen - suffix - 1) + 1).toNat }
  else { t with suffix, globalPeriod := period, memory0 := t.needleLen - period }

/-- The second half of `_comp`: both maximal suffixes, the choice between
them and the periodicity test. -/
def compFactor (canon : UInt8 → UInt8) (cmp : Mem → Nat → Nat → Nat → Bool)
    (mem : Mem) (ne : Nat) (t : TwowayTy) : Run TwowayTy := do
  let len := t.needleLen
  let x := fun i => canon (mem (ne + i))
  let (suffix, period) ← maxSuffixLoop (fun b a => b < a) x len (2 * len) (-1) 0 1 1
  let (maxSuffix, period') ← maxSuffixLoop (fun b a => a < b) x len (2 * len) (-1) 0 1 1
  if maxSuffix + 1 > suffix + 1 then return compPeriodic cmp mem ne t maxSuffix period'
  else return compPeriodic cmp mem ne t suffix period

/-- `_comp` of the length-delimited instances. The table the caller
passes in is uninitialised: `_comp` clears the byte set only. -/
def muslComp (canon : UInt8 → UInt8) (cmp : Mem → Nat → Nat → Nat → Bool)
    (mem : Mem) (t : TwowayTy) (ne needleLen : Nat) : Run TwowayTy :=
  let t := fillLoop canon mem ne needleLen 0 { t with byteset := fun _ => false }
  compFactor canon cmp mem ne { t with needleLen }

/-- The filling loop of `_comp` up to the terminator. -/
def fillLoopEol (canon : UInt8 → UInt8) (mem : Mem) (ne : Nat) :
    Nat → Nat → TwowayTy → Run TwowayTy
  | 0, _, _ => .error .diverge
  | fuel + 1, i, t =>
    if mem (ne + i) = 0 then .ok { t with needleLen := i }
    else fillLoopEol canon mem ne fuel (i + 1) (t.fill (canon (mem (ne + i))) i)

/-- `_comp` of the instances that read to the terminator. -/
def muslCompEol (canon : UInt8 → UInt8) (cmp : Mem → Nat → Nat → Nat → Bool)
    (mem : Mem) (t : TwowayTy) (ne : Nat) : Run TwowayTy := do
  let t ← fillLoopEol canon mem ne (sizeMax + 1) 0 { t with byteset := fun _ => false }
  compFactor canon cmp mem ne t

/-- What `jstr_strstr_comp` and `jstr_strcasestr_comp` share: up to two
bytes only the length is recorded. -/
def compEol (canon : UInt8 → UInt8) (cmp : Mem → Nat → Nat → Nat → Bool)
    (mem : Mem) (t : TwowayTy) (ne : Nat) : Run TwowayTy :=
  if mem ne = 0 then .ok (twowaySetLen t 0)
  else if mem (ne + 1) = 0 then .ok (twowaySetLen t 1)
  else if mem (ne + 2) = 0 then .ok (twowaySetLen t 2)
  else muslCompEol canon cmp mem t ne

/-! ## The search -/

/-- `for (k = ...; k < needle_len && CANON(ne[k]) == CANON(hs[k]); ++k)`
with `n` letters to go. -/
def rightHalf (canon : UInt8 → UInt8) (mem : Mem) (hs ne : Nat) : Nat → Nat → Nat
  | 0, k => k
  | n + 1, k =>
    if canon (mem (ne + k)) = canon (mem (hs + k)) then rightHalf canon mem hs ne n (k + 1)
    else k

/-- `for (k = ...; k > memory && CANON(ne[k - 1]) == CANON(hs[k - 1]); --k)`. -/
def leftHalf (canon : UInt8 → UInt8) (mem : Mem) (hs ne memory : Nat) : Nat → Nat
  | 0 => 0
  | k + 1 =>
    if memory < k + 1 ∧ canon (mem (ne + k)) = canon (mem (hs + k)) then
      leftHalf canon mem hs ne memory k
    else k + 1

/-- What one round of the search loop decides. -/
inductive Round where
  | found
  | advance (k memory : Nat)
  deriving DecidableEq

/-- One round of the search loop of `_exec`, with at least `needle_len`
bytes left at `hs`: the last byte first, then the right half, then the
left half. -/
def execRound (canon : UInt8 → UInt8) (mem : Mem) (t : TwowayTy) (ne hs memory : Nat) :
    Round :=
  let c := canon (mem (hs + t.needleLen - 1))
  if t.byteset c then
    let k := t.needleLen - t.shift c
    if k ≠ 0 then .advance (if k < memory then memory else k) 0
    else
      let k0 := max (t.suffix + 1).toNat memory
      let k := rightHalf canon mem hs ne (t.needleLen - k0) k0
      if k < t.needleLen then .advance (k - t.suffix).toNat 0
      else
        let k := leftHalf canon mem hs ne memory (t.suffix + 1).toNat
        if k ≤ memory then .found else .advance t.globalPeriod t.memory0
  else .advance t.needleLen 0

/-- The search loop of `_exec`. `last` is the end-of-haystack pointer `end`,
found incrementally when the haystack ends at its terminator. -/
def execLoop (canon : UInt8 → UInt8) (checkEol : Bool) (mem : Mem) (t : TwowayTy)
    (ne : Nat) : Nat → Nat → Nat → Nat → Run (Option Nat)
  | 0, _, _, _ => .error .diverge
  | fuel + 1, last, hs, memory =>
    let last :=
      if checkEol ∧ subSz last hs < t.needleLen then
        last + strnlen mem last (t.needleLen ||| 2048)
      else last
    if subSz last hs < t.needleLen then .ok none
    else
      match execRound canon mem t ne hs memory with
      | .found => .ok (some hs)
      | .advance k memory => execLoop canon checkEol mem t ne fuel last (hs + k) memory

/-- `_exec` of the length-delimited instances. -/
def muslExec (canon : UInt8 → UInt8) (mem : Mem) (t : TwowayTy) (hs hsLen ne : Nat) :
    Run (Option Nat) :=
  execLoop canon false mem t ne (hsLen + 1) (hs + hsLen) hs 0

/-- `_exec` of the instances that read to the terminator. No loop of the
source can go round more often than there are addresses. -/
def muslExecEol (canon : UInt8 → UInt8) (mem : Mem) (t : TwowayTy) (hs ne : Nat) :
    Run (Option Nat) :=
  execLoop canon true mem t ne (sizeMax + 1) (hs + strnlen mem hs (t.needleLen ||| 512)) hs 0

end Jstr
