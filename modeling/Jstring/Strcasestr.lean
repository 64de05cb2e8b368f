import Jstring.Chr
import Jstring.Memmem

/-!
# Case-insensitive substring search

`jstr_strcasestr_len`, `jstr_strcasestr` and their compiled pairs, of
`include/string.h`. Everything is compared with the plain scan of the
folded strings.

All of them find the leftmost match except in one corner:
`jstr_strcasestr_exec` with a needle of two bytes loads two bytes of the
haystack before it looks for the terminator, so on an empty haystack it
searches the string that lies behind (`strcasestrExec_pair_nil`).
-/

namespace Jstr

open Words

/-! ## Comparison -/

/-- `jstr_memcasecmpeq(p, q, n) == 0`. -/
def memcasecmpEq (mem : Mem) : Nat → Nat → Nat → Bool
  | _, _, 0 => true
  | p, q, n + 1 =>
    tolower (mem p) == tolower (mem q) && memcasecmpEq mem (p + 1) (q + 1) n

/-- `jstr_strcasecmpeq_len(p, q, n) == 0`. -/
def strcasecmpEqLen (cfg : Build) (mem : Mem) (p q n : Nat) : Bool :=
  if cfg.haveStrncasecmp && !cfg.test then strncasecmpEq mem p q n
  else memcasecmpEq mem p q n

theorem memcasecmpEq_iff {mem : Mem} : ∀ {n p q : Nat},
    memcasecmpEq mem p q n = true ↔ ∀ i < n, tolower (mem (p + i)) = tolower (mem (q + i))
  | 0, _, _ => by simp [memcasecmpEq]
  | n + 1, p, q => by
      have hstep : ∀ a i : Nat, a + 1 + i = a + (i + 1) := fun a i => by omega
      rw [memcasecmpEq, Bool.and_eq_true, beq_iff_eq, memcasecmpEq_iff]
      simp only [hstep, Nat.forall_lt_succ_left, Nat.add_zero]

theorem cmpOk_strcasecmpEqLen (cfg : Build) {mem : Mem} {ne len : Nat}
    (hne : ∀ i < len, mem (ne + i) ≠ 0) : CmpOk tolower (strcasecmpEqLen cfg) mem ne len := by
  intro q n hqn
  rw [strcasecmpEqLen]
  split
  · exact strncasecmpEq_iff fun i hi => hne i (by omega)
  · exact memcasecmpEq_iff

/-! ## Delimited by lengths -/

/-- The loop in front of `jstr_strcasestr_len`: is there no letter? -/
def allNonAlpha (mem : Mem) : Nat → Nat → Bool
  | _, 0 => true
  | ne, n + 1 => if isalpha (mem ne) then false else allNonAlpha mem (ne + 1) n

/-- `jstr_internal_strcasestr_len_musl`. -/
def strcasestrLenMusl (cfg : Build) (mem : Mem) (hs hsLen ne neLen : Nat) :
    Run (Option Nat) := do
  let t ← muslComp tolower (strcasecmpEqLen cfg) mem cfg.uninitTable ne neLen
  muslExec tolower mem t hs hsLen ne

/-- `jstr_strcasestr_len`. -/
def strcasestrLen (cfg : Build) (mem : Mem) (hs hsLen ne neLen : Nat) : Run (Option Nat) :=
  if !cfg.test && allNonAlpha mem ne neLen then memmem cfg mem hs hsLen ne neLen
  else if hsLen < neLen then .ok none
  else if neLen ≤ 8 then
    if neLen = 0 then .ok (some hs)
    else do
      match ← memcasechr cfg mem hs (mem ne) (hsLen - neLen + 1) with
      | none => return none
      | some p =>
        if neLen = 1 then return some p
        else return memmemLt8 tolower mem p (hsLen - (p - hs)) ne neLen
  else strcasestrLenMusl cfg mem hs hsLen ne neLen

/-- `jstr_strcasestr_len_comp`. -/
def strcasestrLenComp (cfg : Build) (mem : Mem) (t : TwowayTy) (ne neLen : Nat) :
    Run TwowayTy :=
  if neLen > 2 then muslComp tolower (strcasecmpEqLen cfg) mem t ne neLen
  else .ok (twowaySetLen t neLen)

/-- `jstr_strcasestr_len_exec`. -/
def strcasestrLenExec (cfg : Build) (mem : Mem) (t : TwowayTy) (hs hsLen ne neLen : Nat) :
    Run (Option Nat) :=
  if neLen > 2 then muslExec tolower mem t hs hsLen ne
  else if neLen = 2 then
    if hsLen < 2 then .ok none else .ok (memmem2 tolower mem hs hsLen ne)
  else if neLen = 1 then memcasechr cfg mem hs (mem ne) hsLen
  else .ok (some hs)

section Length

variable {mem : Mem} {hs ne : Nat} {HS NE : Bytes}

theorem allNonAlpha_iff : ∀ {n ne : Nat},
    allNonAlpha mem ne n = true ↔ ∀ i < n, ¬isalpha (mem (ne + i)) = true
  | 0, _ => by simp [allNonAlpha]
  | n + 1, ne => by
      have hstep : ∀ i : Nat, ne + 1 + i = ne + (i + 1) := fun i => by omega
      rw [allNonAlpha]
      simp only [Nat.forall_lt_succ_left, Nat.add_zero]
      split
      · rename_i h
        simp only [h, not_true_eq_false, false_and, Bool.false_eq_true]
      · rename_i h
        rw [allNonAlpha_iff]
        simp only [hstep, h, Bool.false_eq_true, not_false_eq_true, true_and]

/-- A needle without letters is found where it stands. -/
theorem search_tolower_of_nonAlpha (hne : ∀ c ∈ NE, ¬isalpha c = true) (HS : Bytes) :
    search (NE.map tolower) (HS.map tolower) = search NE HS := by
  rw [search_eq_iff_leftmost]
  refine (search_eq_iff_leftmost.mp rfl).congr fun i => ?_
  simp only [OccursAt, List.length_map, List.getElem?_map]
  refine and_congr_right fun hi => forall₂_congr fun k hk => ?_
  rw [List.getElem?_eq_getElem hk, List.getElem?_eq_getElem (show i + k < HS.length by omega),
    Option.map_some, Option.map_some, Option.some.injEq, Option.some.injEq,
    tolower_eq_iff_of_not (hne _ (List.getElem_mem hk))]

theorem strcasestrLenMusl_spec (cfg : Build) (hh : MemAt mem hs HS) (hn : CStr mem ne NE)
    (hpos : 0 < NE.length) : strcasestrLenMusl cfg mem hs HS.length ne NE.length
      = .ok ((search (NE.map tolower) (HS.map tolower)).map (hs + ·)) := by
  obtain ⟨t, c, hcomp, hlen, ht⟩ := muslComp_spec
    (cmpOk_strcasecmpEqLen cfg fun i hi => hn.ne_zero hi) hpos cfg.uninitTable
  rw [strcasestrLenMusl, hcomp]
  exact muslExec_spec ht hh hn.bytes hlen

/-- The first byte of the needle, folded. -/
theorem map_head (hn : MemAt mem ne NE) (hpos : 0 < NE.length) (canon : UInt8 → UInt8) :
    (NE.map canon)[0]? = some (canon (mem ne)) := by
  rw [List.getElem?_map, hn.getElem? hpos, Option.map_some, Nat.add_zero]

/-- Moving the found offset from the skipped part to the whole haystack. -/
theorem map_add_map {k : Nat} (o : Option Nat) :
    (o.map (k + ·)).map (hs + ·) = o.map (hs + k + ·) := by
  rw [Option.map_map]
  congr 1
  funext i
  exact (Nat.add_assoc hs k i).symm

theorem strcasestrLen_spec (cfg : Build) (hh : MemAt mem hs HS) (hn : CStr mem ne NE) :
    strcasestrLen cfg mem hs HS.length ne NE.length
      = .ok ((search (NE.map tolower) (HS.map tolower)).map (hs + ·)) := by
  rw [strcasestrLen]
  by_cases hal : (!cfg.test && allNonAlpha mem ne NE.length) = true
  · rw [if_pos hal, memmem_spec cfg hh hn.bytes, search_tolower_of_nonAlpha]
    intro c hc
    obtain ⟨i, hi, rfl⟩ := List.mem_iff_getElem.mp hc
    rw [← hn.bytes i hi]
    exact allNonAlpha_iff.mp (Bool.and_eq_true_iff.mp hal).2 i hi
  rw [if_neg hal]
  by_cases hlt : HS.length < NE.length
  · rw [if_pos hlt, search_of_length_lt (by simpa using hlt)]; rfl
  rw [if_neg hlt]
  by_cases h8 : NE.length ≤ 8
  · rw [if_pos h8]
    by_cases h0 : NE.length = 0
    · rw [if_pos h0, List.length_eq_zero_iff.mp h0, List.map_nil, search_nil]; rfl
    rw [if_neg h0]
    have hpos : 0 < NE.length := Nat.pos_of_ne_zero h0
    obtain ⟨r, hr, hleft⟩ := memcasechr_leftmost cfg mem hs (mem ne) (HS.length - NE.length + 1)
    rw [hr]
    have hbyte : ∀ j < HS.length, (HS.map tolower)[j]? = some (tolower (mem (hs + j))) :=
      fun j hj => by rw [List.getElem?_map, hh.getElem? hj, Option.map_some]
    cases r with
    | none =>
        have : search (NE.map tolower) (HS.map tolower) = none := by
          refine search_eq_none_iff.mpr fun i hi => ?_
          have hlen := hi.1
          have hocc := hi.2 0 (by simpa using hpos)
          simp only [List.length_map] at hlen
          rw [Nat.add_zero, map_head hn.bytes hpos, hbyte i (by omega), Option.some.injEq] at hocc
          exact hleft i ⟨by omega, hocc⟩
        rw [this]; rfl
    | some k =>
        obtain ⟨⟨hk, hhit⟩, hmin⟩ := hleft
        have hdrop : search (NE.map tolower) (HS.map tolower)
            = (search (NE.map tolower) ((HS.map tolower).drop k)).map (k + ·) := by
          refine search_drop_head (map_head hn.bytes hpos tolower) (by simp; omega) fun j hj => ?_
          rw [hbyte j (by omega), ne_eq, Option.some.injEq]
          exact fun h => hmin j hj ⟨by omega, h⟩
        have hat := hh.drop (show k ≤ HS.length by omega)
        rw [hdrop, map_add_map, ← List.map_drop]
        simp only [Option.map_some, bind, Except.bind, pure, Except.pure]
        by_cases h1 : NE.length = 1
        · have hzero : search (NE.map tolower) ((HS.drop k).map tolower) = some 0 := by
            refine search_eq_zero_of_head (by rwa [List.length_map])
              (map_head hn.bytes hpos tolower) ?_
            rw [List.map_drop, List.getElem?_drop, Nat.add_zero, hbyte k (by omega), hhit]
          rw [if_pos h1, hzero]; rfl
        · rw [if_neg h1, show HS.length - (hs + k - hs) = (HS.drop k).length by
            rw [List.length_drop]; omega]
          rw [memmemLt8_spec hat hn.bytes hpos h8 (by rw [List.length_drop]; omega)]
  · rw [if_neg h8]
    exact strcasestrLenMusl_spec cfg hh hn (by omega)

theorem strcasestrLen_comp_exec_spec (cfg : Build) (hh : MemAt mem hs HS) (hn : CStr mem ne NE)
    (t : TwowayTy) :
    (do
      let t ← strcasestrLenComp cfg mem t ne NE.length
      strcasestrLenExec cfg mem t hs HS.length ne NE.length)
      = .ok ((search (NE.map tolower) (HS.map tolower)).map (hs + ·)) := by
  rw [strcasestrLenComp]
  by_cases h : NE.length > 2
  · obtain ⟨t', c, hcomp, hlen, ht⟩ := muslComp_spec
      (cmpOk_strcasecmpEqLen cfg fun i hi => hn.ne_zero hi) (show 0 < NE.length by omega) t
    rw [if_pos h, hcomp]
    simp only [bind, Except.bind, strcasestrLenExec]
    rw [if_pos h]
    exact muslExec_spec ht hh hn.bytes hlen
  rw [if_neg h]
  simp only [bind, Except.bind, strcasestrLenExec]
  rw [if_neg h]
  by_cases h2 : NE.length = 2
  · rw [if_pos h2]
    by_cases hlt : HS.length < 2
    · rw [if_pos hlt, search_of_length_lt (by simp; omega)]; rfl
    · rw [if_neg hlt, memmem2_spec hh hn.bytes h2 (by omega)]
  rw [if_neg h2]
  by_cases h1 : NE.length = 1
  · obtain ⟨c, rfl⟩ := List.length_eq_one_iff.mp h1
    rw [if_pos h1, memcasechr_spec cfg hh, memAt_head hn.bytes rfl]; rfl
  · rw [if_neg h1, List.length_eq_zero_iff.mp (show NE.length = 0 by omega), List.map_nil,
      search_nil]; rfl

end Length

/-! ## Delimited by terminators -/

/-- `jstr_internal_strcasestr_musl`. -/
def strcasestrMusl (cfg : Build) (mem : Mem) (hs ne : Nat) : Run (Option Nat) := do
  let t ← muslCompEol tolower (strcasecmpEqLen cfg) mem cfg.uninitTable ne
  muslExecEol tolower mem t hs ne

/-- How the comparison of `jstr_strcasestr` at its first candidate ends. -/
inductive Candidate where
  | matched
  | ended
  | differs
  deriving DecidableEq

/-- The comparison loop of `jstr_strcasestr`. -/
def candidateLoop (mem : Mem) : Nat → Nat → Nat → Run Candidate
  | 0, _, _ => .error .diverge
  | fuel + 1, np, hp =>
    if mem np = 0 then .ok .matched
    else if mem hp = 0 then .ok .ended
    else if tolower (mem hp) ≠ tolower (mem np) then .ok .differs
    else candidateLoop mem fuel (np + 1) (hp + 1)

/-- `for (ne_len = 2; ne_len < 8 + 1 && ne[ne_len]; ne_len++) {}`, with `n`
rounds to go. -/
def neLenLoop (mem : Mem) (ne : Nat) : Nat → Nat → Nat
  | 0, l => l
  | n + 1, l => if mem (ne + l) ≠ 0 then neLenLoop mem ne n (l + 1) else l

/-- `jstr_strcasestr` from the first place of the needle's first byte on,
for needles of two bytes and more. -/
def strcasestrFrom (cfg : Build) (mem : Mem) (hs ne : Nat) : Run (Option Nat) :=
  let neLen := neLenLoop mem ne 7 2
  if neLen ≤ 8 then strstrLt8 tolower mem hs ne neLen
  else if tolower (mem (hs + 1)) = tolower (mem (ne + 1)) then do
    match ← candidateLoop mem (sizeMax + 1) (ne + 2) (hs + 2) with
    | .matched => return some hs
    | .ended => return none
    | .differs => strcasestrMusl cfg mem hs ne
  else strcasestrMusl cfg mem hs ne

/-- `jstr_strcasestr` behind the checks on the needle. -/
def strcasestrMain (cfg : Build) (mem : Mem) (hs ne : Nat) : Run (Option Nat) :=
  if cfg.haveStrcasestrOptimized then libcStrstr tolower mem hs ne
  else do
    match ← strcasechr cfg mem hs (mem ne) with
    | none => return none
    | some h =>
      if mem (ne + 1) = 0 then return some h
      else strcasestrFrom cfg mem h ne

/-- `jstr_strcasestr`. -/
def strcasestr (cfg : Build) (mem : Mem) (hs ne : Nat) : Run (Option Nat) :=
  if !cfg.test then do
    let np ← scan (fun x => x == 0 || isalpha x) mem (sizeMax + 1) ne
    if mem np = 0 then libcStrstr id mem hs ne else strcasestrMain cfg mem hs ne
  else if mem ne = 0 then .ok (some hs)
  else strcasestrMain cfg mem hs ne

/-- `jstr_strcasestr_comp`. -/
def strcasestrComp (cfg : Build) (mem : Mem) (t : TwowayTy) (ne : Nat) : Run TwowayTy :=
  compEol tolower (strcasecmpEqLen cfg) mem t ne

/-- `jstr_strcasestr_exec`. -/
def strcasestrExec (cfg : Build) (mem : Mem) (t : TwowayTy) (hs ne : Nat) :
    Run (Option Nat) :=
  let neLen := twowayGetLen t
  if neLen > 2 then muslExecEol tolower mem t hs ne
  else if neLen = 1 then strcasechr cfg mem hs (mem ne)
  else if neLen = 2 then strstr2 tolower mem hs ne
  else .ok (some hs)

section Eol

variable {mem : Mem} {hs ne : Nat} {HS NE : Bytes}

theorem neLenLoop_eq (hn : CStr mem ne NE) : ∀ (n l : Nat), l ≤ NE.length →
    neLenLoop mem ne n l = min NE.length (l + n)
  | 0, l, hl => (Nat.min_eq_right hl).symm
  | n + 1, l, hl => by
      rw [neLenLoop]
      rcases Nat.lt_or_eq_of_le hl with hlt | rfl
      · rw [if_pos (hn.ne_zero hlt), neLenLoop_eq hn n (l + 1) hlt]
        omega
      · rw [if_neg (not_not_intro hn.nul)]
        omega

/-- What the comparison says about the first candidate, the first `i`
bytes being equal. -/
theorem candidateLoop_spec (hh : CStr mem hs HS) (hn : CStr mem ne NE) :
    ∀ (fuel i : Nat), i ≤ HS.length → i ≤ NE.length → NE.length < fuel + i →
      (∀ k < i, tolower (mem (hs + k)) = tolower (mem (ne + k))) →
      ∃ r, candidateLoop mem fuel (ne + i) (hs + i) = .ok r ∧
        match r with
        | .matched => StandsAt tolower mem hs HS.length ne NE.length 0
        | .ended => HS.length < NE.length
        | .differs => True
  | 0, i, _, hin, hf, _ => by omega
  | fuel + 1, i, hih, hin, hf, heq => by
      rw [candidateLoop]
      rcases Nat.lt_or_eq_of_le hin with hlt | rfl
      · rw [if_neg (hn.ne_zero hlt)]
        rcases Nat.lt_or_eq_of_le hih with hlt' | rfl
        · rw [if_neg (hh.ne_zero hlt')]
          by_cases hd : tolower (mem (hs + i)) = tolower (mem (ne + i))
          · rw [if_neg (not_not_intro hd), Nat.add_assoc, Nat.add_assoc]
            refine candidateLoop_spec hh hn fuel (i + 1) hlt' hlt (by omega) fun k hk => ?_
            rcases Nat.lt_succ_iff_lt_or_eq.mp hk with hki | rfl
            · exact heq k hki
            · exact hd
          · exact ⟨.differs, if_pos hd, trivial⟩
        · exact ⟨.ended, if_pos hh.nul, hlt⟩
      · exact ⟨.matched, if_pos hn.nul, by omega, fun k hk => by
          rw [Nat.add_zero]; exact heq k hk⟩

theorem strcasestrMusl_spec (cfg : Build) (hh : CStr mem hs HS) (hn : CStr mem ne NE)
    (hpos : 0 < NE.length) : strcasestrMusl cfg mem hs ne
      = .ok ((search (NE.map tolower) (HS.map tolower)).map (hs + ·)) := by
  obtain ⟨t, c, hcomp, hlen, ht⟩ := muslCompEol_spec
    (cmpOk_strcasecmpEqLen cfg fun i hi => hn.ne_zero hi) hn hpos cfg.uninitTable
  rw [strcasestrMusl, hcomp]
  exact muslExecEol_spec ht hh hn.bytes hlen

theorem strcasestrFrom_spec (cfg : Build) (hh : CStr mem hs HS) (hn : CStr mem ne NE)
    (h2 : 2 ≤ NE.length) (hfirst : tolower (mem hs) = tolower (mem ne)) :
    strcasestrFrom cfg mem hs ne
      = .ok ((search (NE.map tolower) (HS.map tolower)).map (hs + ·)) := by
  rw [strcasestrFrom, neLenLoop_eq hn 7 2 h2]
  by_cases h8 : NE.length ≤ 8
  · rw [if_pos (by omega), Nat.min_eq_left (by omega)]
    exact strstrLt8_spec hh hn (by omega) h8
  rw [if_neg (by omega)]
  have hpos : 0 < HS.length := by
    by_contra h0
    have hnul := hh.nul
    rw [show HS.length = 0 by omega, Nat.add_zero] at hnul
    rw [hnul] at hfirst
    exact hn.ne_zero (show 0 < NE.length by omega) (tolower_eq_zero.mp hfirst.symm)
  split
  · rename_i hsecond
    have hlen : 2 ≤ HS.length := by
      by_contra h1
      have hnul := hh.nul
      rw [show HS.length = 1 by omega] at hnul
      rw [hnul] at hsecond
      exact hn.ne_zero (show 1 < NE.length by omega) (tolower_eq_zero.mp hsecond.symm)
    have hfits := hn.fits
    obtain ⟨r, hr, hspec⟩ := candidateLoop_spec hh hn (sizeMax + 1) 2 hlen h2 (by omega)
      fun k hk => by
        obtain rfl | rfl : k = 0 ∨ k = 1 := by omega
        · exact hfirst
        · exact hsecond
    rw [hr]
    simp only [bind, Except.bind, pure, Except.pure]
    cases r with
    | matched =>
        have hleft : Leftmost (StandsAt tolower mem hs HS.length ne NE.length) (some 0) :=
          ⟨hspec, fun j hj => absurd hj (Nat.not_lt_zero j)⟩
        rw [search_of_leftmost hh.bytes hn.bytes hleft]; rfl
    | ended =>
        rw [search_of_length_lt (by simpa using hspec)]; rfl
    | differs => exact strcasestrMusl_spec cfg hh hn (by omega)
  · exact strcasestrMusl_spec cfg hh hn (by omega)

theorem strcasestrMain_spec (cfg : Build) (hh : CStr mem hs HS) (hn : CStr mem ne NE)
    (hpos : 0 < NE.length) : strcasestrMain cfg mem hs ne
      = .ok ((search (NE.map tolower) (HS.map tolower)).map (hs + ·)) := by
  rw [strcasestrMain]
  split
  · exact libcStrstr_spec hh hn
  have hhead := map_head hn.bytes hpos tolower
  have hone : [tolower (mem ne)][0]? = some (tolower (mem ne)) := rfl
  rw [strcasechr_spec cfg hh (hn.head_ne_zero hpos)]
  cases hc : search [tolower (mem ne)] (HS.map tolower) with
  | none =>
      have : search (NE.map tolower) (HS.map tolower) = none := by
        refine search_eq_none_iff.mpr fun i hi => search_eq_none_iff.mp hc i ?_
        have hlen := hi.1
        have hocc := hi.2 0 (by simpa using hpos)
        rw [hhead] at hocc
        exact ⟨by simp only [List.length_map, List.length_singleton] at hlen ⊢; omega,
          fun k hk => by
            obtain rfl : k = 0 := by simpa using hk
            exact hocc⟩
      rw [this]; rfl
  | some k =>
      obtain ⟨hocc, hmin⟩ := search_eq_some_iff.mp hc
      have hk := hocc.1
      simp only [List.length_map, List.length_singleton] at hk
      have hhit := hocc.2 0 (by simp)
      rw [Nat.add_zero, hone] at hhit
      have hdrop : search (NE.map tolower) (HS.map tolower)
          = (search (NE.map tolower) ((HS.map tolower).drop k)).map (k + ·) := by
        refine search_drop_head hhead (by simp; omega) fun j hj h => hmin j hj ?_
        refine ⟨by simp; omega, fun i hi => ?_⟩
        obtain rfl : i = 0 := by simpa using hi
        exact h
      have hhk : tolower (mem (hs + k)) = tolower (mem ne) := by
        rwa [List.getElem?_map, hh.bytes.getElem? (by omega), Option.map_some,
          Option.some.injEq] at hhit
      have hat := hh.drop (show k ≤ HS.length by omega)
      rw [hdrop, map_add_map, ← List.map_drop]
      simp only [Option.map_some, bind, Except.bind, pure, Except.pure]
      by_cases h1 : NE.length = 1
      · have hzero : search (NE.map tolower) ((HS.drop k).map tolower) = some 0 := by
          refine search_eq_zero_of_head (by rwa [List.length_map]) hhead ?_
          rw [List.map_drop, List.getElem?_drop, Nat.add_zero, hhit]
        rw [if_pos ((hn.eq_zero_iff hpos).mpr h1.symm), hzero]; rfl
      · rw [if_neg fun h => h1 ((hn.eq_zero_iff hpos).mp h).symm]
        exact strcasestrFrom_spec cfg hat hn (by omega) hhk

theorem strcasestr_spec (cfg : Build) (hh : CStr mem hs HS) (hn : CStr mem ne NE) :
    strcasestr cfg mem hs ne
      = .ok ((search (NE.map tolower) (HS.map tolower)).map (hs + ·)) := by
  have hfits := hn.fits
  rw [strcasestr]
  split
  · obtain ⟨n, hnl, hstop, hmin⟩ := @CStr.exists_stop mem ne NE hn
      (fun x => x == 0 || isalpha x) (by simp)
    rw [scan_eq hstop hmin (by omega)]
    simp only [bind, Except.bind]
    split
    · rename_i h0
      rw [libcStrstr_spec hh hn, List.map_id, List.map_id, search_tolower_of_nonAlpha]
      intro c hc
      obtain ⟨i, hi, rfl⟩ := List.mem_iff_getElem.mp hc
      have hni : i < n := by have := (hn.eq_zero_iff hnl).mp h0; omega
      have := hmin i hni
      rw [hn.bytes i hi, Bool.or_eq_false_iff] at this
      rw [this.2]; exact Bool.false_ne_true
    · rename_i h0
      have hpos : 0 < NE.length := by
        have hne : ¬n = NE.length := fun h => h0 ((hn.eq_zero_iff hnl).mpr h)
        omega
      exact strcasestrMain_spec cfg hh hn hpos
  · have hzero := hn.eq_zero_iff (Nat.zero_le NE.length)
    rw [Nat.add_zero] at hzero
    split
    · rename_i h0
      rw [List.length_eq_zero_iff.mp (hzero.mp h0).symm, List.map_nil, search_nil]; rfl
    · rename_i h0
      have hne : ¬0 = NE.length := fun h => h0 (hzero.mpr h)
      exact strcasestrMain_spec cfg hh hn (by omega)

theorem strcasestrComp_spec (cfg : Build) (hn : CStr mem ne NE) (t : TwowayTy) :
    ∃ t', strcasestrComp cfg mem t ne = .ok t' ∧ t'.needleLen = NE.length ∧
      (NE.length > 2 → ∃ c, Compiled (letters tolower mem ne) t' c) :=
  compEol_spec (cmpOk_strcasecmpEqLen cfg fun _ hi => hn.ne_zero hi) hn t

/-- Every case but a needle of two bytes in an empty haystack. -/
theorem strcasestrExec_spec (cfg : Build) (hh : CStr mem hs HS) (hn : CStr mem ne NE)
    {t : TwowayTy} (hlen : t.needleLen = NE.length)
    (ht : NE.length > 2 → ∃ c, Compiled (letters tolower mem ne) t c)
    (hne : HS = [] → NE.length ≠ 2) :
    strcasestrExec cfg mem t hs ne
      = .ok ((search (NE.map tolower) (HS.map tolower)).map (hs + ·)) := by
  rw [strcasestrExec, twowayGetLen, hlen]
  by_cases h : NE.length > 2
  · obtain ⟨c, hc⟩ := ht h
    rw [if_pos h]
    exact muslExecEol_spec hc hh hn.bytes hlen
  rw [if_neg h]
  by_cases h1 : NE.length = 1
  · obtain ⟨c, rfl⟩ := List.length_eq_one_iff.mp h1
    rw [if_pos h1, strcasechr_spec cfg hh (hn.head_ne_zero Nat.one_pos), memAt_head hn.bytes rfl]; rfl
  rw [if_neg h1]
  by_cases h2 : NE.length = 2
  · rw [if_pos h2]
    have hpos : 0 < HS.length := List.length_pos_of_ne_nil fun h => hne h h2
    exact strstr2_spec hh.bytes hpos (fun i _ hi => hh.ne_zero hi) hh.nul hh.fits hn.bytes h2
  · rw [if_neg h2, List.length_eq_zero_iff.mp (show NE.length = 0 by omega), List.map_nil,
      search_nil]; rfl

/-! ## The empty haystack -/

/-- The string that lies behind the terminator at `hs` does not contain the
needle. -/
def MissesBehind (mem : Mem) (hs : Nat) (NE : Bytes) : Prop :=
  ∃ T, CStr mem (hs + 1) T ∧ search (NE.map tolower) (T.map tolower) = none

theorem search_cons_of_head_ne {ne hs : Bytes} {a c : UInt8} (ha : ne[0]? = some a)
    (hac : a ≠ c) : search ne (c :: hs) = (search ne hs).map (· + 1) := by
  cases ne with
  | nil => simp at ha
  | cons b ne =>
      obtain rfl : b = a := by simpa using ha
      have : (b :: ne).isPrefixOf (c :: hs) = false := by
        simp [List.isPrefixOf, hac]
      rw [search, this]
      rfl

/-- What the two-byte search returns on a haystack that begins with NUL:
what the string behind it contains. -/
theorem strstr2_nul {T : Bytes} (h0 : mem hs = 0) (hT : CStr mem (hs + 1) T)
    (hn : CStr mem ne NE) (h2 : NE.length = 2) :
    strstr2 tolower mem hs ne
      = .ok ((search (NE.map tolower) (T.map tolower)).map (hs + 1 + ·)) := by
  have hfits := hT.fits
  have hnul : MemAt mem hs [0] := fun i hi => by
    obtain rfl : i = 0 := by simpa using hi
    exact h0
  have hat : MemAt mem hs (0 :: T) := memAt_append.mpr ⟨hnul, hT.bytes⟩
  have hne : ∀ i, 0 < i → i < (0 :: T).length → mem (hs + i) ≠ 0 := fun i hi hlt => by
    have := hT.ne_zero (show i - 1 < T.length by rw [List.length_cons] at hlt; omega)
    rwa [show hs + 1 + (i - 1) = hs + i by omega] at this
  have hend : hs + (0 :: T).length = hs + 1 + T.length := by rw [List.length_cons]; omega
  rw [strstr2_spec hat (Nat.succ_pos _) hne (by rw [hend]; exact hT.nul)
    (by rw [hend]; exact hfits) hn.bytes h2, List.map_cons, show tolower 0 = 0 from rfl,
    search_cons_of_head_ne (map_head hn.bytes (by omega) tolower)
      fun h => hn.head_ne_zero (by omega) (tolower_eq_zero.mp h), Option.map_map]
  congr 2
  funext i
  simp only [Function.comp]
  omega

theorem strstr2_nul_iff (h0 : mem hs = 0) (hhs : hs ≤ sizeMax) (hn : CStr mem ne NE)
    (h2 : NE.length = 2) :
    strstr2 tolower mem hs ne = .ok none ↔ MissesBehind mem hs NE := by
  constructor
  · intro hrun
    rw [strstr2] at hrun
    generalize hnw : shiftIn16 (shiftIn16 0 (tolower (mem ne))) (tolower (mem (ne + 1))) = nw at hrun
    generalize hhw : shiftIn16 (shiftIn16 0 (tolower (mem hs))) (tolower (mem (hs + 1))) = hw at hrun
    cases hslide : slide2Eol tolower mem nw (sizeMax - hs) (hs + 1) hw with
    | error e => rw [hslide] at hrun; cases hrun
    | ok h =>
        obtain ⟨h1, h3, hne⟩ := slide2Eol_stop hslide
        rw [hslide] at hrun
        simp only [bind, Except.bind, pure, Except.pure] at hrun
        have hnul : mem h = 0 := by
          by_contra hh
          rw [if_pos hh] at hrun
          cases hrun
        -- the bytes passed on the way are the string behind the terminator
        have hT : CStr mem (hs + 1) (window mem (hs + 1) (h - (hs + 1))) := by
          refine ⟨memAt_window _ _ _, fun hmem => ?_, ?_, ?_⟩
          · simp only [window, List.mem_map, List.mem_range] at hmem
            obtain ⟨i, hi, hi0⟩ := hmem
            exact hne (hs + 1 + i) (by omega) (by omega) hi0
          · rw [length_window, show hs + 1 + (h - (hs + 1)) = h by omega]
            exact hnul
          · rw [length_window]; omega
        refine ⟨_, hT, ?_⟩
        have hspec := strstr2_nul h0 hT hn h2
        rw [strstr2] at hspec
        simp only [hnw, hhw, hslide, bind, Except.bind, pure, Except.pure, hrun] at hspec
        rw [Except.ok.injEq] at hspec
        exact Option.map_eq_none_iff.mp hspec.symm
  · rintro ⟨T, hT, hmiss⟩
    rw [strstr2_nul h0 hT hn h2, hmiss]; rfl

/-- All four entry points return the first position at which the needle
matches under folding, whatever lies behind the haystack. -/
structure StrcasestrAgree (cfg : Build) (mem : Mem) (hs ne : Nat) (HS NE : Bytes)
    (t t' : TwowayTy) : Prop where
  str : strcasestr cfg mem hs ne
    = .ok ((search (NE.map tolower) (HS.map tolower)).map (hs + ·))
  len : strcasestrLen cfg mem hs HS.length ne NE.length
    = .ok ((search (NE.map tolower) (HS.map tolower)).map (hs + ·))
  lenExec : (do
      let t ← strcasestrLenComp cfg mem t ne NE.length
      strcasestrLenExec cfg mem t hs HS.length ne NE.length)
    = .ok ((search (NE.map tolower) (HS.map tolower)).map (hs + ·))
  exec : (do
      let t ← strcasestrComp cfg mem t' ne
      strcasestrExec cfg mem t hs ne)
    = .ok ((search (NE.map tolower) (HS.map tolower)).map (hs + ·))

/-- They do so exactly when this is not a two-byte needle on an empty
haystack with the needle in the string that lies behind it. -/
theorem strcasestrAgree_iff (cfg : Build) (hh : CStr mem hs HS) (hn : CStr mem ne NE)
    (t t' : TwowayTy) :
    StrcasestrAgree cfg mem hs ne HS NE t t' ↔
      (HS = [] → NE.length = 2 → MissesBehind mem hs NE) := by
  obtain ⟨t₁, hcomp, hlen, ht⟩ := strcasestrComp_spec cfg hn t'
  have hexec : (do
      let t ← strcasestrComp cfg mem t' ne
      strcasestrExec cfg mem t hs ne) = strcasestrExec cfg mem t₁ hs ne := by rw [hcomp]; rfl
  have hcorner : HS = [] → NE.length = 2 →
      (strcasestrExec cfg mem t₁ hs ne
        = .ok ((search (NE.map tolower) (HS.map tolower)).map (hs + ·)) ↔
      MissesBehind mem hs NE) := by
    rintro rfl h2
    have hzero := hh.nul
    have hfits := hh.fits
    rw [List.length_nil, Nat.add_zero] at hzero hfits
    rw [strcasestrExec, twowayGetLen, hlen, if_neg (by omega), if_neg (by omega), if_pos h2,
      search_of_length_lt (by simp; omega)]
    exact strstr2_nul_iff hzero hfits hn h2
  constructor
  · intro h hHS h2
    exact (hcorner hHS h2).mp (hexec ▸ h.exec)
  · intro hcond
    refine ⟨strcasestr_spec cfg hh hn, strcasestrLen_spec cfg hh.bytes hn,
      strcasestrLen_comp_exec_spec cfg hh.bytes hn t, ?_⟩
    rw [hexec]
    by_cases hc : HS = [] ∧ NE.length = 2
    · exact (hcorner hc.1 hc.2).mpr (hcond hc.1 hc.2)
    · exact strcasestrExec_spec cfg hh hn hlen ht fun h1 h2 => hc ⟨h1, h2⟩

end Eol

/-- The memory of the failing input: an empty haystack at 0 with "ab"
behind its terminator, the needle "aB" at 4. -/
def staleMem : Mem := memOf [0, 97, 98, 0, 97, 66]

theorem cstr_staleMem : CStr staleMem 0 [] ∧ CStr staleMem 4 [97, 66] :=
  ⟨⟨by decide, by decide, by decide, by decide⟩, ⟨by decide, by decide, by decide, by decide⟩⟩

theorem strcasestrAgree_iff_staleMem :
    StrcasestrAgree sse2Build staleMem 0 4 [] [97, 66] default default ↔
      (([] : Bytes) = [] → ([97, 66] : Bytes).length = 2 → MissesBehind staleMem 0 [97, 66]) :=
  strcasestrAgree_iff sse2Build cstr_staleMem.1 cstr_staleMem.2 default default

/-- The compiled search returns the address behind the terminator. -/
theorem not_strcasestrAgree_staleMem : CStr staleMem 0 [] ∧ CStr staleMem 4 [97, 66] ∧
    ¬StrcasestrAgree sse2Build staleMem 0 4 [] [97, 66] default default := by
  refine ⟨cstr_staleMem.1, cstr_staleMem.2, fun h => ?_⟩
  have hfound : (do
      let t ← strcasestrComp sse2Build staleMem default 4
      strcasestrExec sse2Build staleMem t 0 4) = .ok (some 1) := rfl
  have := hfound.symm.trans h.exec
  rw [show search (([97, 66] : Bytes).map tolower) (([] : Bytes).map tolower) = none
    by decide] at this
  cases this

end Jstr
