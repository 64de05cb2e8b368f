import Jstring.Count
import Jstring.MemmemLoads
import Jstring.Strcasestr

/-!
# The two-way search up to the terminator

`_exec` of `include/internal/musl/twoway.h` where the haystack ends at its
terminator, once more with a record of what it does: every byte loaded,
every time the end pointer is set, and the window each round compares.
Forgetting the record gives `muslExecEol` (`muslExecEolLoads_result`).

`Progress` and `EndOk` of the search loop carry the account: a round moves the
cursor by at most the length of the needle, which is available when it
starts, so the cursor never passes the end pointer, nor this the
terminator (`execLoopEolLoads_inStrings`). `muslExecEol_eq_muslExec` puts it
together with the length-delimited search.
-/

namespace Jstr

open Words Trace Trace.Traced

/-- What the search does. -/
inductive ExecEvent where
  /-- the byte at `p` is loaded -/
  | load (x : Side) (p : Nat)
  /-- the end pointer is set to `last`, the cursor being at `hs` -/
  | setEnd (hs last : Nat)
  /-- the window at `hs` is compared, the end pointer being at `last` -/
  | compare (hs last : Nat)
  deriving DecidableEq, Repr

/-- A computation with what it does. -/
abbrev ExecRun (α : Type) := Traced Fault ExecEvent α

/-- `*p`. -/
def fetch (x : Side) (mem : Mem) (p : Nat) : ExecRun UInt8 := do
  emit (.load x p)
  return mem p

@[simp] theorem fetch_result (x : Side) (mem : Mem) (p : Nat) :
    (fetch x mem p).result = .ok (mem p) := rfl

/-! ## The search -/

/-- `jstr_strnlen(p, maxlen)`, which reads up to the terminator. -/
def strnlenLoads (mem : Mem) : Nat → Nat → ExecRun Nat
  | 0, _ => return 0
  | n + 1, p => do
    let x ← fetch .hs mem p
    if x = 0 then return 0
    else do
      let k ← strnlenLoads mem n (p + 1)
      return k + 1

/-- The comparison of the right half. -/
def rightHalfLoads (canon : UInt8 → UInt8) (mem : Mem) (hs ne : Nat) : Nat → Nat → ExecRun Nat
  | 0, k => return k
  | n + 1, k => do
    let x ← fetch .ne mem (ne + k)
    let y ← fetch .hs mem (hs + k)
    if canon x = canon y then rightHalfLoads canon mem hs ne n (k + 1) else return k

/-- The comparison of the left half. -/
def leftHalfLoads (canon : UInt8 → UInt8) (mem : Mem) (hs ne memory : Nat) : Nat → ExecRun Nat
  | 0 => return 0
  | k + 1 =>
    if memory < k + 1 then do
      let x ← fetch .ne mem (ne + k)
      let y ← fetch .hs mem (hs + k)
      if canon x = canon y then leftHalfLoads canon mem hs ne memory k else return k + 1
    else return k + 1

/-- One round of the search loop of `_exec`. -/
def execRoundLoads (canon : UInt8 → UInt8) (mem : Mem) (t : TwowayTy) (ne hs memory : Nat) :
    ExecRun Round := do
  let x ← fetch .hs mem (hs + t.needleLen - 1)
  let c := canon x
  if t.byteset c then
    let k := t.needleLen - t.shift c
    if k ≠ 0 then return .advance (if k < memory then memory else k) 0
    else do
      let k0 := max (t.suffix + 1).toNat memory
      let k ← rightHalfLoads canon mem hs ne (t.needleLen - k0) k0
      if k < t.needleLen then return .advance (k - t.suffix).toNat 0
      else do
        let k ← leftHalfLoads canon mem hs ne memory (t.suffix + 1).toNat
        if k ≤ memory then return .found else return .advance t.globalPeriod t.memory0
  else return .advance t.needleLen 0

/-- `if (end - hs < needle_len) end += jstr_strnlen(...)`. -/
def refillLoads (mem : Mem) (t : TwowayTy) (last hs : Nat) : ExecRun Nat :=
  if subSz last hs < t.needleLen then do
    let n ← strnlenLoads mem (t.needleLen ||| 2048) last
    emit (.setEnd hs (last + n))
    return last + n
  else return last

/-- The search loop of `_exec` with the end pointer `last`. -/
def execLoopEolLoads (canon : UInt8 → UInt8) (mem : Mem) (t : TwowayTy) (ne : Nat) :
    Nat → Nat → Nat → Nat → ExecRun (Option Nat)
  | 0, _, _, _ => fail .diverge
  | fuel + 1, last, hs, memory => do
    let last ← refillLoads mem t last hs
    if subSz last hs < t.needleLen then return none
    else do
      emit (.compare hs last)
      match ← execRoundLoads canon mem t ne hs memory with
      | .found => return some hs
      | .advance k memory => execLoopEolLoads canon mem t ne fuel last (hs + k) memory

/-- `jstr_internal_strstr_musl_exec`, `jstr_internal_strcasestr_musl_exec`. -/
def muslExecEolLoads (canon : UInt8 → UInt8) (mem : Mem) (t : TwowayTy) (hs ne : Nat) :
    ExecRun (Option Nat) := do
  let n ← strnlenLoads mem (t.needleLen ||| 512) hs
  emit (.setEnd hs (hs + n))
  execLoopEolLoads canon mem t ne (sizeMax + 1) (hs + n) hs 0

/-! ## Without the record -/

section Result

variable {canon : UInt8 → UInt8} {mem : Mem} {t : TwowayTy} {ne : Nat}

theorem strnlen_succ (mem : Mem) (p n : Nat) :
    strnlen mem p (n + 1) = if mem p = 0 then 0 else strnlen mem (p + 1) n + 1 := by
  rw [strnlen, strnlen, memchr]
  by_cases h0 : mem p = 0
  · rw [if_pos h0, if_pos h0]
    exact Nat.sub_self p
  · rw [if_neg h0, if_neg h0]
    obtain ⟨r, hr, -⟩ := memchr_leftmost mem 0 n (p + 1)
    rw [hr]
    cases r with
    | none => rfl
    | some k =>
        simp only [Option.map_some]
        omega

theorem strnlenLoads_result : ∀ (n p : Nat),
    (strnlenLoads mem n p).result = .ok (strnlen mem p n)
  | 0, p => rfl
  | n + 1, p => by
      simp only [strnlenLoads, result_bind, fetch_result, Except.bind, result_ite, result_pure,
        strnlenLoads_result n (p + 1), strnlen_succ]
      split <;> rfl

theorem rightHalfLoads_result {hs : Nat} : ∀ (n k : Nat),
    (rightHalfLoads canon mem hs ne n k).result = .ok (rightHalf canon mem hs ne n k)
  | 0, k => rfl
  | n + 1, k => by
      simp only [rightHalfLoads, rightHalf, result_bind, fetch_result, Except.bind, result_ite,
        result_pure, rightHalfLoads_result n (k + 1)]
      split <;> rfl

theorem leftHalfLoads_result {hs memory : Nat} : ∀ k : Nat,
    (leftHalfLoads canon mem hs ne memory k).result = .ok (leftHalf canon mem hs ne memory k)
  | 0 => rfl
  | k + 1 => by
      simp only [leftHalfLoads, leftHalf, result_bind, fetch_result, Except.bind, result_ite,
        result_pure, leftHalfLoads_result k]
      by_cases hm : memory < k + 1
      · by_cases heq : canon (mem (ne + k)) = canon (mem (hs + k))
        · rw [if_pos hm, if_pos heq, if_pos ⟨hm, heq⟩]
        · rw [if_pos hm, if_neg heq, if_neg fun h => heq h.2]
      · rw [if_neg hm, if_neg fun h => hm h.1]

theorem execRoundLoads_result (hs memory : Nat) :
    (execRoundLoads canon mem t ne hs memory).result = .ok (execRound canon mem t ne hs memory) := by
  simp only [execRoundLoads, execRound, result_bind, fetch_result, Except.bind, result_ite,
    result_pure, rightHalfLoads_result, leftHalfLoads_result]
  split
  · split
    · rfl
    · split
      · rfl
      · split <;> rfl
  · rfl

/-- The end pointer, as the loop updates it. -/
def refill (mem : Mem) (t : TwowayTy) (last hs : Nat) : Nat :=
  if subSz last hs < t.needleLen then last + strnlen mem last (t.needleLen ||| 2048) else last

theorem refillLoads_result (last hs : Nat) :
    (refillLoads mem t last hs).result = .ok (refill mem t last hs) := by
  simp only [refillLoads, refill, result_ite, result_bind, strnlenLoads_result, Except.bind,
    result_emit, result_pure]
  split <;> rfl

theorem execLoopEolLoads_result : ∀ (fuel last hs memory : Nat),
    (execLoopEolLoads canon mem t ne fuel last hs memory).result
      = execLoop canon true mem t ne fuel last hs memory
  | 0, _, _, _ => rfl
  | fuel + 1, last, hs, memory => by
      simp only [execLoopEolLoads, execLoop, true_and, result_bind, refillLoads_result,
        Except.bind, result_ite, result_pure, result_emit, execRoundLoads_result]
      rw [← refill]
      split
      · rfl
      · cases execRound canon mem t ne hs memory with
        | found => rfl
        | advance k m => exact execLoopEolLoads_result fuel _ (hs + k) m

/-- Forgetting the record gives the search. -/
theorem muslExecEolLoads_result (hs : Nat) :
    (muslExecEolLoads canon mem t hs ne).result = muslExecEol canon mem t hs ne := by
  simp only [muslExecEolLoads, muslExecEol, result_bind, strnlenLoads_result, Except.bind,
    result_emit, execLoopEolLoads_result]

end Result

/-! ## Inside the strings -/

/-- A haystack of `hl` bytes at `hs₀` and a needle of `nl` bytes at `ne`: the
haystack is read up to its terminator and the needle in its bytes; the
cursor does not pass the end pointer, nor this the terminator; a window
that is compared ends before the end pointer. -/
def InStrings (hs₀ hl ne nl : Nat) : ExecEvent → Prop
  | .load .hs p => hs₀ ≤ p ∧ p ≤ hs₀ + hl
  | .load .ne p => ne ≤ p ∧ p < ne + nl
  | .setEnd hs last => hs ≤ last ∧ last ≤ hs₀ + hl
  | .compare hs last => hs₀ ≤ hs ∧ hs + nl ≤ last ∧ last ≤ hs₀ + hl

section Bounds

variable {canon : UInt8 → UInt8} {mem : Mem} {t : TwowayTy} {ne c : Nat} {P : ExecEvent → Prop}

theorem always_fetch {x : Side} {p : Nat} (h : P (.load x p)) : Always P (fetch x mem p) :=
  (always_emit h).bind fun _ _ => always_pure _

/-- Up to a terminator at `p + m`. -/
theorem always_strnlenLoads : ∀ {n m p : Nat}, mem (p + m) = 0 →
    (∀ i ≤ m, P (.load .hs (p + i))) → Always P (strnlenLoads mem n p)
  | 0, _, _, _, _ => always_pure _
  | n + 1, m, p, h0, hP => by
      rw [strnlenLoads]
      refine (always_fetch (hP 0 (Nat.zero_le m))).bind fun x hx => ?_
      refine always_ite (fun _ => always_pure _) fun hne => ?_
      rw [fetch_result, Except.ok.injEq] at hx
      cases m with
      | zero => exact absurd (hx.symm.trans h0) hne
      | succ m =>
          have hstep : ∀ i, p + 1 + i = p + (i + 1) := fun i => by omega
          refine (always_strnlenLoads (m := m) (by rw [hstep]; exact h0) fun i hi => ?_).bind
            fun _ _ => always_pure _
          rw [hstep]
          exact hP (i + 1) (by omega)

/-- The letters of a window of `l` bytes and of the needle. -/
def WindowOk (P : ExecEvent → Prop) (hs ne l : Nat) : Prop :=
  ∀ k < l, P (.load .hs (hs + k)) ∧ P (.load .ne (ne + k))

theorem always_rightHalfLoads {hs l : Nat} (hP : WindowOk P hs ne l) : ∀ {n k : Nat}, k + n ≤ l →
    Always P (rightHalfLoads canon mem hs ne n k)
  | 0, k, _ => always_pure _
  | n + 1, k, hk => by
      obtain ⟨hh, hn⟩ := hP k (by omega)
      rw [rightHalfLoads]
      refine (always_fetch hn).bind fun x _ => (always_fetch hh).bind fun y _ => ?_
      exact always_ite (fun _ => always_rightHalfLoads hP (by omega)) fun _ => always_pure _

theorem always_leftHalfLoads {hs l memory : Nat} (hP : WindowOk P hs ne l) : ∀ {k : Nat}, k ≤ l →
    Always P (leftHalfLoads canon mem hs ne memory k)
  | 0, _ => always_pure _
  | k + 1, hk => by
      obtain ⟨hh, hn⟩ := hP k (by omega)
      rw [leftHalfLoads]
      refine always_ite (fun _ => ?_) fun _ => always_pure _
      refine (always_fetch hn).bind fun x _ => (always_fetch hh).bind fun y _ => ?_
      exact always_ite (fun _ => always_leftHalfLoads hP (by omega)) fun _ => always_pure _

/-- A round stays in its window. -/
theorem always_execRoundLoads {hs memory : Nat} (ht : Compiled (letters canon mem ne) t c)
    (hm : memory < t.needleLen) (hP : WindowOk P hs ne t.needleLen) :
    Always P (execRoundLoads canon mem t ne hs memory) := by
  have hcut := ht.cut
  have hsuf : (t.suffix + 1).toNat = c := by
    have := ht.suffix
    omega
  rw [execRoundLoads, hsuf]
  have hlast := (hP (t.needleLen - 1) (by omega)).1
  rw [← Nat.add_sub_assoc (show 1 ≤ t.needleLen by omega)] at hlast
  refine (always_fetch hlast).bind fun x _ => ?_
  refine always_ite (fun _ => ?_) fun _ => always_pure _
  refine always_ite (fun _ => always_pure _) fun _ => ?_
  refine (always_rightHalfLoads hP (by omega)).bind fun k _ => ?_
  refine always_ite (fun _ => always_pure _) fun _ => ?_
  exact (always_leftHalfLoads hP (by omega)).bind fun k _ =>
    always_ite (fun _ => always_pure _) fun _ => always_pure _

variable {hs₀ hl : Nat}

/-- Extending the end pointer reads the haystack up to its terminator at most. -/
theorem always_refillLoads {h e : Nat} (hend : EndOk true mem hs₀ hl e) (he : h ≤ e) :
    Always (InStrings hs₀ hl ne t.needleLen) (refillLoads mem t (hs₀ + e) (hs₀ + h)) := by
  obtain ⟨hle, hne, h0⟩ := hend
  have hterm : mem (hs₀ + e + (hl - e)) = 0 := by
    rw [Nat.add_assoc, Nat.add_sub_cancel' hle]
    exact h0
  have hlen : strnlen mem (hs₀ + e) (t.needleLen ||| 2048) = min (hl - e) (t.needleLen ||| 2048) :=
    strnlen_eq (fun i hi => by rw [Nat.add_assoc]; exact hne _ (by omega)) hterm _
  rw [refillLoads]
  refine always_ite (fun _ => ?_) fun _ => always_pure _
  refine (always_strnlenLoads hterm fun i hi => ⟨by omega, by omega⟩).bind fun n hn => ?_
  rw [strnlenLoads_result, hlen, Except.ok.injEq] at hn
  have hset : InStrings hs₀ hl ne t.needleLen (.setEnd (hs₀ + h) (hs₀ + e + n)) :=
    ⟨by omega, by omega⟩
  exact (always_emit hset).bind fun _ _ => always_pure _

theorem execLoopEolLoads_inStrings (ht : Compiled (letters canon mem ne) t c) :
    ∀ (fuel h e memory : Nat), EndOk true mem hs₀ hl e → h ≤ e →
      Progress (letters canon mem ne) (letters canon mem hs₀) t c h memory →
      Always (InStrings hs₀ hl ne t.needleLen)
        (execLoopEolLoads canon mem t ne fuel (hs₀ + e) (hs₀ + h) memory)
  | 0, _, _, _, _, _, _ => always_fail _
  | fuel + 1, h, e, memory, hend, he, hp => by
      obtain ⟨e', hlast, he', hend', -⟩ := hend.refill he (@Nat.left_le_or t.needleLen 2048)
      simp only [true_and] at hlast
      rw [← refill] at hlast
      have hle := hend'.le
      have hr := @refillLoads_result mem t (hs₀ + e) (hs₀ + h)
      rw [hlast] at hr
      rw [execLoopEolLoads]
      refine (always_refillLoads hend he).bind_of_result hr ?_
      rw [subSz_eq (show hs₀ + h ≤ hs₀ + e' by omega)]
      refine always_ite (fun _ => always_pure _) fun hroom => ?_
      have hcmp : InStrings hs₀ hl ne t.needleLen (.compare (hs₀ + h) (hs₀ + e')) :=
        ⟨by omega, by omega, by omega⟩
      have hwin : WindowOk (InStrings hs₀ hl ne t.needleLen) (hs₀ + h) ne t.needleLen :=
        fun k hk => ⟨⟨by omega, by omega⟩, ⟨by omega, by omega⟩⟩
      refine (always_emit hcmp).bind fun _ _ => ?_
      refine (always_execRoundLoads ht (hp.memory_lt ht) hwin).bind_of_result
        (execRoundLoads_result _ _) ?_
      -- the next cursor is inside the window that was there
      have hround := execRound_spec ht hp
      cases hres : execRound canon mem t ne (hs₀ + h) memory with
      | found => exact always_pure _
      | advance k m =>
          rw [hres] at hround
          obtain ⟨-, hkl, hp'⟩ := hround
          simp only [Nat.add_assoc]
          exact execLoopEolLoads_inStrings ht fuel (h + k) e' m hend' (by omega) hp'

theorem muslExecEolLoads_inStrings (ht : Compiled (letters canon mem ne) t c) {hs : Nat}
    {HS : Bytes} (hh : CStr mem hs HS) :
    Always (InStrings hs HS.length ne t.needleLen) (muslExecEolLoads canon mem t hs ne) := by
  have hlen := strnlen_eq (fun i hi => hh.ne_zero hi) hh.nul (t.needleLen ||| 512)
  have hle := Nat.min_le_left HS.length (t.needleLen ||| 512)
  rw [muslExecEolLoads]
  refine (always_strnlenLoads hh.nul fun i hi => ⟨by omega, by omega⟩).bind_of_result
    (strnlenLoads_result _ _) ?_
  rw [hlen]
  have hset : InStrings hs HS.length ne t.needleLen
      (.setEnd hs (hs + min HS.length (t.needleLen ||| 512))) := ⟨by omega, by omega⟩
  refine (always_emit hset).bind fun _ _ => ?_
  have hend : EndOk true mem hs HS.length (min HS.length (t.needleLen ||| 512)) :=
    ⟨hle, fun i hi => hh.ne_zero hi, hh.nul⟩
  exact execLoopEolLoads_inStrings ht (sizeMax + 1) 0 _ 0 hend (Nat.zero_le _)
    (progress_start _ _ t c)

end Bounds

/-! ## Against the search with a length -/

section Same

variable {canon : UInt8 → UInt8} {cmp : Mem → Nat → Nat → Nat → Bool} {mem : Mem} {hs ne : Nat}
  {HS NE : Bytes}

/-- The search with the table `t` up to the terminator, and the one with the
table `t'` on the bytes before it. -/
structure EolSearch (canon : UInt8 → UInt8) (mem : Mem) (hs : Nat) (HS : Bytes) (ne nl : Nat)
    (t t' : TwowayTy) : Prop where
  record : (muslExecEolLoads canon mem t hs ne).result = muslExecEol canon mem t hs ne
  inStrings : Always (InStrings hs HS.length ne nl) (muslExecEolLoads canon mem t hs ne)
  same : ∃ r, muslExecEol canon mem t hs ne = .ok r ∧ muslExec canon mem t' hs HS.length ne = .ok r

theorem eolSearch_of_compiled (hcmp : CmpOk canon cmp mem ne NE.length) (hh : CStr mem hs HS)
    (hn : CStr mem ne NE) (h3 : 3 ≤ NE.length) (t₀ t₁ : TwowayTy) :
    ∃ t t', compEol canon cmp mem t₀ ne = .ok t ∧ muslComp canon cmp mem t₁ ne NE.length = .ok t' ∧
      EolSearch canon mem hs HS ne NE.length t t' := by
  obtain ⟨t, ht, hlen, hcomp⟩ := compEol_spec hcmp hn t₀
  obtain ⟨c, hc⟩ := hcomp h3
  obtain ⟨t', c', ht', hlen', hc'⟩ := muslComp_spec hcmp (show 0 < NE.length by omega) t₁
  refine ⟨t, t', ht, ht', muslExecEolLoads_result hs, ?_, _, muslExecEol_spec hc hh hn.bytes hlen,
    muslExec_spec hc' hh.bytes hn.bytes hlen'⟩
  have hin := muslExecEolLoads_inStrings hc hh
  rwa [hlen] at hin

end Same

/-- Both instances, for strings of any length and needles from 3 bytes on:
nothing behind a terminator is read, the cursor is never behind the end
pointer, there is room for the needle whenever it is compared, and what is
found is what the search with a length finds. -/
theorem muslExecEol_eq_muslExec (cfg : Build) {mem : Mem} {hs ne : Nat} {HS NE : Bytes}
    (hh : CStr mem hs HS) (hn : CStr mem ne NE) (h3 : 3 ≤ NE.length) (t₀ t₁ : TwowayTy) :
    (∃ t t', strstrComp mem t₀ ne = .ok t ∧ muslComp id memcmpEq mem t₁ ne NE.length = .ok t' ∧
      EolSearch id mem hs HS ne NE.length t t') ∧
    (∃ t t', strcasestrComp cfg mem t₀ ne = .ok t ∧
      muslComp tolower (strcasecmpEqLen cfg) mem t₁ ne NE.length = .ok t' ∧
      EolSearch tolower mem hs HS ne NE.length t t') :=
  ⟨eolSearch_of_compiled (fun _ _ _ => memcmpEq_iff) hh hn h3 t₀ t₁,
    eolSearch_of_compiled (cmpOk_strcasecmpEqLen cfg fun _ hi => hn.ne_zero hi) hh hn h3 t₀ t₁⟩

/-- "bab" in "ababa", and "ababa" in "bab". -/
theorem muslExecEol_eq_muslExec_bab :
    (∃ t t', strstrComp (memOf [97, 98, 97, 98, 97, 0, 98, 97, 98]) default 6 = .ok t ∧
      muslComp id memcmpEq (memOf [97, 98, 97, 98, 97, 0, 98, 97, 98]) default 6 3 = .ok t' ∧
      EolSearch id (memOf [97, 98, 97, 98, 97, 0, 98, 97, 98]) 0 [97, 98, 97, 98, 97] 6 3 t t') ∧
    (∃ t t', strcasestrComp sse2Build (memOf [97, 98, 97, 98, 97, 0, 98, 97, 98]) default 0
        = .ok t ∧
      muslComp tolower (strcasecmpEqLen sse2Build) (memOf [97, 98, 97, 98, 97, 0, 98, 97, 98])
        default 0 5 = .ok t' ∧
      EolSearch tolower (memOf [97, 98, 97, 98, 97, 0, 98, 97, 98]) 6 [98, 97, 98] 0 5 t t') := by
  have hab : CStr (memOf [97, 98, 97, 98, 97, 0, 98, 97, 98]) 0 [97, 98, 97, 98, 97] :=
    ⟨by decide, by decide, by decide, by decide⟩
  have hba : CStr (memOf [97, 98, 97, 98, 97, 0, 98, 97, 98]) 6 [98, 97, 98] :=
    ⟨by decide, by decide, by decide, by decide⟩
  exact ⟨(muslExecEol_eq_muslExec sse2Build hab hba (by decide) default default).1,
    (muslExecEol_eq_muslExec sse2Build hba hab (by decide) default default).2⟩

end Jstr
