import Jstring.Cmpeq
import Jstring.Strcasestr

/-!
# Prefixes, suffixes and bounded search

`jstr_starts`, `jstr_ends`, their `case` and `_len` versions and
`jstr_startscasenul` of `include/string.h`. Each is one comparison at the head
or at the tail; the versions for strings look at the first bytes before they
ask for a length. For strings all of them decide whether the one text is a
prefix or a suffix of the other, as they stand or folded (`affixes`): no
comparison runs past the terminator, because a byte of `ne` differs from it.

`jstr_strnstr_len`, `jstr_memnmem` and `jstr_strncasestr_len` search the first
`n` bytes only. What they find is what the whole search finds, if that ends
within the bound (`bounded_search`).
-/

namespace Jstr

open Words

/-! ## The functions -/

/-- At most `n` bytes, up to the terminators. -/
def strncmpWith (canon : UInt8 → UInt8) (mem : Mem) : Nat → Nat → Nat → Bool
  | _, _, 0 => true
  | p, q, n + 1 =>
    canon (mem p) == canon (mem q) && (mem p == 0 || strncmpWith canon mem (p + 1) (q + 1) n)

/-- `strncmp(p, q, n) == 0`. -/
def strncmpEq (mem : Mem) (p q n : Nat) : Bool := strncmpWith id mem p q n

section Family

variable (fold : UInt8 → UInt8) (cmp : Mem → Nat → Nat → Nat → Bool) (mem : Mem)

/-- A comparison at the head. -/
def startsLenWith (hs hsLen ne neLen : Nat) : Bool :=
  if hsLen ≥ neLen then cmp mem hs ne neLen else false

/-- A comparison at the tail. -/
def endsLenWith (hs hsLen ne neLen : Nat) : Bool :=
  if hsLen ≥ neLen then cmp mem (hs + hsLen - neLen) ne neLen else false

/-- The first bytes, then a comparison at the head. -/
def startsWith (hs ne : Nat) : Run Bool :=
  if fold (mem hs) = fold (mem ne) then do
    let n ← strlen mem ne
    return cmp mem hs ne n
  else return mem ne == 0

/-- The lengths, then a comparison at the tail. -/
def endsWith (hs ne : Nat) : Run Bool := do
  let hsLen ← strlen mem hs
  let neLen ← strlen mem ne
  return endsLenWith cmp mem hs hsLen ne neLen

end Family

/-- `jstr_starts_len`. -/
def startsLen (mem : Mem) (hs hsLen ne neLen : Nat) : Bool :=
  startsLenWith memcmpEq mem hs hsLen ne neLen

/-- `jstr_startscase_len`. -/
def startscaseLen (cfg : Build) (mem : Mem) (hs hsLen ne neLen : Nat) : Bool :=
  startsLenWith (strcasecmpEqLen cfg) mem hs hsLen ne neLen

/-- `jstr_ends_len`. -/
def endsLen (mem : Mem) (hs hsLen ne neLen : Nat) : Bool :=
  endsLenWith memcmpEq mem hs hsLen ne neLen

/-- `jstr_endscase_len`. -/
def endscaseLen (cfg : Build) (mem : Mem) (hs hsLen ne neLen : Nat) : Bool :=
  endsLenWith (strcasecmpEqLen cfg) mem hs hsLen ne neLen

/-- `jstr_starts`. -/
def startsStr (mem : Mem) (hs ne : Nat) : Run Bool := startsWith id strncmpEq mem hs ne

/-- `jstr_startscase`. -/
def startscaseStr (cfg : Build) (mem : Mem) (hs ne : Nat) : Run Bool :=
  startsWith tolower (strcasecmpEqLen cfg) mem hs ne

/-- `jstr_ends`. -/
def endsStr (mem : Mem) (hs ne : Nat) : Run Bool := endsWith memcmpEq mem hs ne

/-- `jstr_endscase`. -/
def endscaseStr (cfg : Build) (mem : Mem) (hs ne : Nat) : Run Bool :=
  endsWith (strcasecmpEqLen cfg) mem hs ne

/-- `jstr_strncasecmp(p, q, n) == 0`. -/
def strncasecmpZero (cfg : Build) (mem : Mem) (p q n : Nat) : Bool :=
  if cfg.haveStrncasecmp && !cfg.test then strncasecmpEq mem p q n
  else ncasecmpLoop mem 0 n p q == 0

/-- `jstr_startscasenul`. -/
def startscasenul (cfg : Build) (mem : Mem) (hs ne : Nat) : Run Nat :=
  if tolower (mem hs) = tolower (mem ne) then do
    let neLen ← strlen mem ne
    return if strncasecmpZero cfg mem hs ne neLen then neLen else 0
  else return 0

/-- `jstr_memnmem`. -/
def memnmem (cfg : Build) (mem : Mem) (hs hsLen ne neLen n : Nat) : Run (Option Nat) :=
  memmem cfg mem hs (min hsLen n) ne neLen

/-- `jstr_strnstr_len`. -/
def strnstrLen (cfg : Build) (mem : Mem) (hs hsLen ne neLen n : Nat) : Run (Option Nat) :=
  memmem cfg mem hs (min hsLen n) ne neLen

/-- `jstr_strncasestr_len`. -/
def strncasestrLen (cfg : Build) (mem : Mem) (hs hsLen ne neLen n : Nat) : Run (Option Nat) :=
  strcasestrLen cfg mem hs (min hsLen n) ne neLen

/-! ## Comparisons -/

section Comparison

variable {mem : Mem} {hs ne : Nat} {HS NE : Bytes} {canon : UInt8 → UInt8}

theorem strncasecmpEq_eq : ∀ n p q : Nat,
    strncasecmpEq mem p q n = strncmpWith tolower mem p q n
  | 0, _, _ => rfl
  | n + 1, p, q => by rw [strncasecmpEq, strncmpWith, strncasecmpEq_eq n]

/-- Up to the terminators is far enough where the second string has none. -/
theorem strncmpWith_iff (hcanon : ∀ x, canon x = 0 ↔ x = 0) : ∀ {n p q : Nat},
    (∀ i < n, mem (q + i) ≠ 0) →
      (strncmpWith canon mem p q n = true ↔ ∀ i < n, canon (mem (p + i)) = canon (mem (q + i)))
  | 0, _, _, _ => by simp [strncmpWith]
  | n + 1, p, q, h => by
      have hstep : ∀ a i : Nat, a + 1 + i = a + (i + 1) := fun a i => by omega
      have hq := h 0 (Nat.succ_pos n)
      have ih := @strncmpWith_iff hcanon n (p + 1) (q + 1) fun i hi => by
        rw [hstep]
        exact h (i + 1) (by omega)
      rw [strncmpWith, Bool.and_eq_true, Bool.or_eq_true, beq_iff_eq, beq_iff_eq, ih]
      simp only [hstep, Nat.forall_lt_succ_left, Nat.add_zero]
      refine and_congr_right fun heq => or_iff_right fun h0 => hq ?_
      rw [Nat.add_zero, ← hcanon, ← heq, hcanon]
      exact h0

/-- Whether a comparison with the needle decides, at every address, that the bytes agree. -/
def Tells (canon : UInt8 → UInt8) (cmp : Mem → Nat → Nat → Nat → Bool) (mem : Mem)
    (ne n : Nat) : Prop :=
  ∀ p, cmp mem p ne n = true ↔ ∀ k < n, canon (mem (p + k)) = canon (mem (ne + k))

theorem tells_memcmpEq (n : Nat) : Tells id memcmpEq mem ne n := fun _ => memcmpEq_iff

theorem CStr.tells_strncmpEq (hn : CStr mem ne NE) : Tells id strncmpEq mem ne NE.length :=
  fun _ => strncmpWith_iff (fun _ => Iff.rfl) fun _ => hn.ne_zero

/-- Whatever the build compares with. -/
theorem CStr.tells_strcasecmpEqLen (hn : CStr mem ne NE) (cfg : Build) :
    Tells tolower (strcasecmpEqLen cfg) mem ne NE.length := by
  intro p
  rw [strcasecmpEqLen]
  split
  · rw [strncasecmpEq_eq]
    exact strncmpWith_iff (fun _ => tolower_eq_zero) fun _ => hn.ne_zero
  · exact memcasecmpEq_iff

/-- Agreement at an offset is an occurrence there. -/
theorem agree_iff_occursAt (hh : MemAt mem hs HS) (hn : MemAt mem ne NE) {i : Nat}
    (hi : i + NE.length ≤ HS.length) :
    (∀ k < NE.length, canon (mem (hs + i + k)) = canon (mem (ne + k)))
      ↔ OccursAt (NE.map canon) (HS.map canon) i := by
  rw [← standsAt_iff hh hn, StandsAt, and_iff_right hi]

theorem Tells.startsLenWith_iff {cmp : Mem → Nat → Nat → Nat → Bool}
    (hcmp : Tells canon cmp mem ne NE.length) (hh : MemAt mem hs HS) (hn : MemAt mem ne NE) :
    startsLenWith cmp mem hs HS.length ne NE.length = true ↔ NE.map canon <+: HS.map canon := by
  have hlen : (NE.map canon).length = NE.length := List.length_map _
  have hlen' : (HS.map canon).length = HS.length := List.length_map _
  rw [startsLenWith]
  by_cases hle : HS.length ≥ NE.length
  · have hocc := @agree_iff_occursAt _ _ _ _ _ canon hh hn 0 (by omega)
    rw [if_pos hle, hcmp]
    rw [Nat.add_zero] at hocc
    rw [hocc, occursAt_iff_isPrefix, List.drop_zero]
    exact and_iff_right (Nat.zero_le _)
  · rw [if_neg hle]
    refine iff_of_false Bool.false_ne_true fun h => ?_
    have := h.length_le
    omega

theorem Tells.endsLenWith_iff {cmp : Mem → Nat → Nat → Nat → Bool}
    (hcmp : Tells canon cmp mem ne NE.length) (hh : MemAt mem hs HS) (hn : MemAt mem ne NE) :
    endsLenWith cmp mem hs HS.length ne NE.length = true ↔ NE.map canon <:+ HS.map canon := by
  have hlen : (NE.map canon).length = NE.length := List.length_map _
  have hlen' : (HS.map canon).length = HS.length := List.length_map _
  rw [endsLenWith]
  by_cases hle : HS.length ≥ NE.length
  · have hocc := @agree_iff_occursAt _ _ _ _ _ canon hh hn (HS.length - NE.length) (by omega)
    rw [if_pos hle, hcmp, Nat.add_sub_assoc hle, hocc, List.suffix_iff_eq_drop, hlen, hlen',
      occursAt_iff_isPrefix]
    constructor
    · rintro ⟨-, hpre⟩
      exact hpre.eq_of_length (by rw [List.length_drop, hlen, hlen']; omega)
    · intro heq
      exact ⟨by omega, heq ▸ List.prefix_rfl⟩
  · rw [if_neg hle]
    refine iff_of_false Bool.false_ne_true fun h => ?_
    have := h.length_le
    omega

/-- Between strings the lengths need not be compared: a terminator agrees with no byte. -/
theorem CStr.agree_iff_prefix (hh : CStr mem hs HS) (hn : CStr mem ne NE)
    (hcanon : ∀ x, canon x = 0 ↔ x = 0) :
    (∀ k < NE.length, canon (mem (hs + k)) = canon (mem (ne + k)))
      ↔ NE.map canon <+: HS.map canon := by
  by_cases hle : NE.length ≤ HS.length
  · have hocc := @agree_iff_occursAt _ _ _ _ _ canon hh.bytes hn.bytes 0 (by omega)
    rw [Nat.add_zero] at hocc
    rw [hocc, occursAt_iff_isPrefix, List.drop_zero]
    exact and_iff_right (Nat.zero_le _)
  · refine iff_of_false (fun h => ?_) fun h => ?_
    · have hend := h HS.length (by omega)
      rw [hh.nul, (hcanon 0).mpr rfl] at hend
      exact hn.ne_zero (by omega) ((hcanon _).mp hend.symm)
    · have := h.length_le
      rw [List.length_map, List.length_map] at this
      omega

/-- The first bytes decide alone only if they differ. -/
theorem CStr.prefix_nil_of_head (hh : CStr mem hs HS) (hn : CStr mem ne NE)
    (hne : canon (mem hs) ≠ canon (mem ne)) (hcanon : ∀ x, canon x = 0 ↔ x = 0) :
    NE.map canon <+: HS.map canon ↔ NE = [] := by
  rw [← hh.agree_iff_prefix hn hcanon]
  refine ⟨fun h => ?_, fun h => ?_⟩
  · by_contra hnil
    exact hne (h 0 (List.length_pos_of_ne_nil hnil))
  · rw [h]
    exact fun k hk => absurd hk (Nat.not_lt_zero k)

theorem CStr.nul_iff (hn : CStr mem ne NE) : mem ne = 0 ↔ NE = [] := by
  have h := hn.eq_zero_iff (Nat.zero_le _)
  rw [Nat.add_zero] at h
  rw [h, eq_comm, List.length_eq_zero_iff]

theorem Tells.startsWith_eq {cmp : Mem → Nat → Nat → Nat → Bool}
    (hcmp : Tells canon cmp mem ne NE.length) (hcanon : ∀ x, canon x = 0 ↔ x = 0)
    (hh : CStr mem hs HS) (hn : CStr mem ne NE) :
    startsWith canon cmp mem hs ne = .ok (decide (NE.map canon <+: HS.map canon)) := by
  rw [startsWith]
  by_cases heq : canon (mem hs) = canon (mem ne)
  · rw [if_pos heq, hn.strlen_eq]
    refine congrArg _ (Bool.eq_iff_iff.mpr ?_)
    rw [hcmp, hh.agree_iff_prefix hn hcanon, decide_eq_true_iff]
  · rw [if_neg heq]
    refine congrArg _ (Bool.eq_iff_iff.mpr ?_)
    rw [beq_iff_eq, hn.nul_iff, decide_eq_true_iff, hh.prefix_nil_of_head hn heq hcanon]

theorem Tells.endsWith_eq {cmp : Mem → Nat → Nat → Nat → Bool}
    (hcmp : Tells canon cmp mem ne NE.length) (hh : CStr mem hs HS) (hn : CStr mem ne NE) :
    endsWith cmp mem hs ne = .ok (decide (NE.map canon <:+ HS.map canon)) := by
  simp only [endsWith, hh.strlen_eq, hn.strlen_eq, bind, Except.bind]
  refine congrArg _ (Bool.eq_iff_iff.mpr ?_)
  rw [hcmp.endsLenWith_iff hh.bytes hn.bytes, decide_eq_true_iff]

/-- With the libc comparison or the loop. -/
theorem CStr.strncasecmpZero_iff (hh : CStr mem hs HS) (hn : CStr mem ne NE) (cfg : Build) :
    strncasecmpZero cfg mem hs ne NE.length = true ↔ folded NE <+: folded HS := by
  rw [strncasecmpZero]
  split
  · rw [strncasecmpEq_eq, strncmpWith_iff (fun _ => tolower_eq_zero) fun _ => hn.ne_zero]
    exact hh.agree_iff_prefix hn fun _ => tolower_eq_zero
  · have hlen : (folded NE).length = NE.length := List.length_map _
    rw [beq_iff_eq, ncasecmpLoop_spec hh hn, List.prefix_iff_eq_take, hlen, ← hlen,
      List.take_length]
    exact eq_comm

theorem CStr.startscasenul_eq (hh : CStr mem hs HS) (hn : CStr mem ne NE) (cfg : Build) :
    startscasenul cfg mem hs ne
      = .ok (if folded NE <+: folded HS then NE.length else 0) := by
  rw [startscasenul]
  by_cases heq : tolower (mem hs) = tolower (mem ne)
  · rw [if_pos heq, hn.strlen_eq]
    refine congrArg _ (if_congr (hh.strncasecmpZero_iff hn cfg) rfl rfl)
  · rw [if_neg heq]
    refine congrArg _ ?_
    split
    · rename_i hpre
      rw [(hh.prefix_nil_of_head hn heq fun _ => tolower_eq_zero).mp hpre]
      rfl
    · rfl

end Comparison

/-! ## On strings -/

section Strings

variable {mem : Mem} {hs ne : Nat} {HS NE : Bytes}

theorem found_at_head_iff (ne hs : Bytes) (p : Nat) :
    (search ne hs).map (p + ·) = some p ↔ ne <+: hs := by
  have hocc : OccursAt ne hs 0 ↔ ne <+: hs := by
    rw [occursAt_iff_isPrefix, List.drop_zero]
    exact and_iff_right (Nat.zero_le _)
  rw [Option.map_eq_some_iff]
  constructor
  · rintro ⟨k, hk, hp⟩
    obtain rfl : k = 0 := by omega
    exact hocc.mp (search_eq_some_iff.mp hk).1
  · intro h
    exact ⟨0, search_eq_some_iff.mpr ⟨hocc.mpr h, fun j hj => absurd hj (Nat.not_lt_zero j)⟩, rfl⟩

/-- What the tests for a prefix and a suffix return, whatever the build compares with; and that
the text is found at the head exactly if it is a prefix. -/
theorem affixes (cfg : Build) (hh : CStr mem hs HS) (hn : CStr mem ne NE) :
    startsStr mem hs ne = .ok (decide (NE <+: HS)) ∧
      startsLen mem hs HS.length ne NE.length = decide (NE <+: HS) ∧
      startscaseStr cfg mem hs ne = .ok (decide (folded NE <+: folded HS)) ∧
      startscaseLen cfg mem hs HS.length ne NE.length = decide (folded NE <+: folded HS) ∧
      startscasenul cfg mem hs ne = .ok (if folded NE <+: folded HS then NE.length else 0) ∧
      endsStr mem hs ne = .ok (decide (NE <:+ HS)) ∧
      endsLen mem hs HS.length ne NE.length = decide (NE <:+ HS) ∧
      endscaseStr cfg mem hs ne = .ok (decide (folded NE <:+ folded HS)) ∧
      endscaseLen cfg mem hs HS.length ne NE.length = decide (folded NE <:+ folded HS) ∧
      (memmem cfg mem hs HS.length ne NE.length = .ok (some hs) ↔ NE <+: HS) ∧
      (strcasestrLen cfg mem hs HS.length ne NE.length = .ok (some hs)
        ↔ folded NE <+: folded HS) := by
  have hid : ∀ x : UInt8, id x = 0 ↔ x = 0 := fun _ => Iff.rfl
  have hlower : ∀ x : UInt8, tolower x = 0 ↔ x = 0 := fun _ => tolower_eq_zero
  have hcase := hn.tells_strcasecmpEqLen cfg
  have hmem := @tells_memcmpEq mem ne NE.length
  have hstarts := hn.tells_strncmpEq.startsWith_eq hid hh hn
  have hstartsLen := hmem.startsLenWith_iff hh.bytes hn.bytes
  have hends := hmem.endsWith_eq hh hn
  have hendsLen := hmem.endsLenWith_iff hh.bytes hn.bytes
  rw [List.map_id, List.map_id] at hstarts hstartsLen hends hendsLen
  refine ⟨hstarts, ?_, hcase.startsWith_eq hlower hh hn, ?_, hh.startscasenul_eq hn cfg, hends, ?_,
    hcase.endsWith_eq hh hn, ?_, ?_, ?_⟩
  · exact Bool.eq_iff_iff.mpr (hstartsLen.trans decide_eq_true_iff.symm)
  · exact Bool.eq_iff_iff.mpr
      ((hcase.startsLenWith_iff hh.bytes hn.bytes).trans decide_eq_true_iff.symm)
  · exact Bool.eq_iff_iff.mpr (hendsLen.trans decide_eq_true_iff.symm)
  · exact Bool.eq_iff_iff.mpr
      ((hcase.endsLenWith_iff hh.bytes hn.bytes).trans decide_eq_true_iff.symm)
  · rw [memmem_spec cfg hh.bytes hn.bytes, Except.ok.injEq]
    exact found_at_head_iff NE HS hs
  · rw [strcasestrLen_spec cfg hh.bytes hn, Except.ok.injEq]
    exact found_at_head_iff _ _ hs

/-- "ab" begins with "A" if case is left out of account. -/
theorem affixes_ab :
    startsStr (memOf [97, 98, 0, 65, 0]) 0 3 = .ok (decide (([65] : Bytes) <+: [97, 98])) ∧
      startscaseStr sse2Build (memOf [97, 98, 0, 65, 0]) 0 3
        = .ok (decide (folded [65] <+: folded [97, 98])) := by
  obtain ⟨h, -, hcase, -⟩ := affixes sse2Build cstr_ab cstr_A
  exact ⟨h, hcase⟩

/-! ## Within a bound -/

/-- The first occurrence, if it ends within the bound. -/
def within (n : Nat) (ne hs : Bytes) : Option Nat :=
  (search ne hs).filter fun i => i + ne.length ≤ n

/-- A prefix has the first occurrence, or none. -/
theorem search_take_eq (ne hs : Bytes) (n : Nat) : search ne (hs.take n) = within n ne hs := by
  rw [within]
  cases hr : search ne hs with
  | none =>
      refine search_eq_none_iff.mpr fun i hi => search_eq_none_iff.mp hr i ?_
      rcases Nat.le_total n hs.length with hn | hn
      · exact ((occursAt_take hn).mp hi).1
      · rwa [List.take_of_length_le hn] at hi
  | some i =>
      rw [Option.filter_some]
      by_cases hi : i + ne.length ≤ n
      · rw [if_pos (decide_eq_true hi)]
        exact search_take hr hi
      · rw [if_neg (by simpa using hi)]
        have hlen := search_lt hr
        refine search_eq_none_iff.mpr fun k hk => ?_
        obtain ⟨hocc, hend⟩ := (occursAt_take (by omega)).mp hk
        -- an occurrence that ends within the bound begins before the first one
        exact (search_eq_some_iff.mp hr).2 k (by omega) hocc

/-- The bounded searches. Only the one that leaves case out of account needs a needle without a
NUL. -/
theorem bounded_search (cfg : Build) (hh : MemAt mem hs HS) (hn : MemAt mem ne NE) (n : Nat) :
    strnstrLen cfg mem hs HS.length ne NE.length n = .ok ((within n NE HS).map (hs + ·)) ∧
      memnmem cfg mem hs HS.length ne NE.length n = .ok ((within n NE HS).map (hs + ·)) ∧
      (CStr mem ne NE → strncasestrLen cfg mem hs HS.length ne NE.length n
        = .ok ((within n (folded NE) (folded HS)).map (hs + ·))) := by
  have hlen : (HS.take n).length = min HS.length n := by rw [List.length_take, Nat.min_comm]
  have hmem := memmem_spec cfg (hh.take n) hn
  rw [hlen, search_take_eq] at hmem
  refine ⟨hmem, hmem, fun hstr => ?_⟩
  have hcase := strcasestrLen_spec cfg (hh.take n) hstr
  rwa [hlen, List.map_take, search_take_eq] at hcase

/-- "A" in the first byte of "ab". -/
theorem bounded_search_ab :
    strnstrLen sse2Build (memOf [97, 98, 0, 65, 0]) 0 ([97, 98] : Bytes).length 3
        ([65] : Bytes).length 1 = .ok ((within 1 [65] [97, 98]).map (0 + ·)) ∧
      strncasestrLen sse2Build (memOf [97, 98, 0, 65, 0]) 0 ([97, 98] : Bytes).length 3
        ([65] : Bytes).length 1 = .ok ((within 1 (folded [65]) (folded [97, 98])).map (0 + ·)) := by
  obtain ⟨h, -, hcase⟩ := bounded_search sse2Build cstr_ab.bytes cstr_A.bytes 1
  exact ⟨h, hcase cstr_A⟩

end Strings

end Jstr
