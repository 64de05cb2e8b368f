import Jstring.Config
import Jstring.StrstrLt8
import Jstring.TwoWayExec

/-!
# Substring search, delimited by lengths

`jstr_memmem` and the compiled pair `jstr_memmem_comp`/`jstr_memmem_exec`
of `include/string.h`: the dispatch on the needle's length. Whatever it
selects, both find the leftmost occurrence.
-/

namespace Jstr

open Words

/-- `jstr_internal_memmem_musl`. -/
def memmemMusl (cfg : Build) (mem : Mem) (hs hsLen ne neLen : Nat) : Run (Option Nat) := do
  let t ← muslComp id memcmpEq mem cfg.uninitTable ne neLen
  muslExec id mem t hs hsLen ne

/-- `jstr_memmem`. -/
def memmem (cfg : Build) (mem : Mem) (hs hsLen ne neLen : Nat) : Run (Option Nat) :=
  if cfg.useMemmemLibc then .ok (libcMemmem mem hs hsLen ne neLen)
  else
    match cfg.memmemSimd with
    | some v =>
      if neLen ≤ v.bytes then simdMemmem v.bytes mem cfg.uninitVec hs hsLen ne neLen
      else if hsLen ≥ neLen then memmemMusl cfg mem hs hsLen ne neLen
      else .ok none
    | none =>
      if hsLen < neLen then .ok none
      else if neLen ≤ 4 then
        if neLen = 0 then .ok (some hs)
        else
          match memchr mem hs (mem ne) (hsLen - neLen + 1) with
          | none => .ok none
          | some p =>
            if neLen = 1 then .ok (some p)
            else .ok (memmemLt8 id mem p (hsLen - (p - hs)) ne neLen)
      else memmemMusl cfg mem hs hsLen ne neLen

/-- `JSTR_TWOWAY_MEMMEM_THRES`. -/
def twowayMemmemThres (cfg : Build) : Nat :=
  match cfg.memmemSimd with
  | some v => v.bytes
  | none => 2

/-- `jstr_memmem_comp`. -/
def memmemComp (cfg : Build) (mem : Mem) (t : TwowayTy) (ne neLen : Nat) : Run TwowayTy :=
  if neLen > twowayMemmemThres cfg then muslComp id memcmpEq mem t ne neLen
  else .ok (twowaySetLen t neLen)

/-- `jstr_memmem_exec`. -/
def memmemExec (cfg : Build) (mem : Mem) (t : TwowayTy) (hs hsLen ne neLen : Nat) :
    Run (Option Nat) :=
  if neLen > twowayMemmemThres cfg then muslExec id mem t hs hsLen ne
  else
    match cfg.memmemSimd with
    | some v => simdMemmem v.bytes mem cfg.uninitVec hs hsLen ne neLen
    | none =>
      if neLen = 2 then
        if hsLen < 2 then .ok none else .ok (memmem2 id mem hs hsLen ne)
      else if neLen = 1 then .ok (memchr mem hs (mem ne) hsLen)
      else .ok (some hs)

section Correct

variable {mem : Mem} {hs ne : Nat} {HS NE : Bytes}

theorem memmemMusl_spec (cfg : Build) (hh : MemAt mem hs HS) (hn : MemAt mem ne NE)
    (hpos : 0 < NE.length) :
    memmemMusl cfg mem hs HS.length ne NE.length = .ok ((search NE HS).map (hs + ·)) := by
  obtain ⟨t, c, hcomp, hlen, ht⟩ := @muslComp_spec id memcmpEq mem ne NE.length
    (fun _ _ _ => memcmpEq_iff) hpos cfg.uninitTable
  have := muslExec_spec ht hh hn hlen
  rw [List.map_id, List.map_id] at this
  rw [memmemMusl, hcomp]
  exact this

theorem memAt_head (hn : MemAt mem ne NE) {c : UInt8} {l : Bytes} (h : NE = c :: l) :
    mem ne = c := by
  subst h
  exact hn 0 (Nat.succ_pos _)

/-- Skipping to the first occurrence of the needle's first byte. -/
theorem search_memchr (hh : MemAt mem hs HS) (hn : MemAt mem ne NE) (hpos : 0 < NE.length)
    (hle : NE.length ≤ HS.length) :
    match memchr mem hs (mem ne) (HS.length - NE.length + 1) with
    | none => search NE HS = none
    | some p => hs ≤ p ∧ p - hs + NE.length ≤ HS.length ∧ mem p = mem ne ∧
        search NE HS = (search NE (HS.drop (p - hs))).map (p - hs + ·) := by
  obtain ⟨r, hr, hleft⟩ := memchr_leftmost mem (mem ne) (HS.length - NE.length + 1) hs
  have hfirst : ∀ i, OccursAt NE HS i → i < HS.length - NE.length + 1 ∧ mem (hs + i) = mem ne := by
    intro i hi
    have := hi.1
    have h0 := hi.2 0 hpos
    rw [Nat.add_zero, hh.getElem? (by omega), hn.getElem? hpos, Option.some.injEq] at h0
    exact ⟨by omega, h0⟩
  rw [hr]
  cases r with
  | none => exact search_eq_none_iff.mpr fun i hi => hleft i (hfirst i hi)
  | some k =>
      obtain ⟨⟨hk, hk0⟩, hmin⟩ := hleft
      simp only [Option.map_some]
      rw [show hs + k - hs = k by omega]
      exact ⟨Nat.le_add_right hs k, by omega, hk0,
        search_drop (by omega) fun j hj hocc => hmin j hj (hfirst j hocc)⟩

theorem memmem_spec (cfg : Build) (hh : MemAt mem hs HS) (hn : MemAt mem ne NE) :
    memmem cfg mem hs HS.length ne NE.length = .ok ((search NE HS).map (hs + ·)) := by
  rw [memmem]
  by_cases hlibc : cfg.useMemmemLibc = true
  · rw [if_pos hlibc, libcMemmem, window_of_memAt hh, window_of_memAt hn]
  rw [if_neg hlibc]
  cases cfg.memmemSimd with
  | some v =>
      simp only
      by_cases hle : NE.length ≤ v.bytes
      · rw [if_pos hle]
        exact simdMemmem_spec hh hn hle
      rw [if_neg hle]
      by_cases hlen : HS.length ≥ NE.length
      · rw [if_pos hlen]
        exact memmemMusl_spec cfg hh hn (by omega)
      · rw [if_neg hlen, search_of_length_lt (by omega)]; rfl
  | none =>
      simp only
      by_cases hlt : HS.length < NE.length
      · rw [if_pos hlt, search_of_length_lt hlt]; rfl
      rw [if_neg hlt]
      by_cases h4 : NE.length ≤ 4
      · rw [if_pos h4]
        by_cases h0 : NE.length = 0
        · rw [if_pos h0, List.length_eq_zero_iff.mp h0, search_nil]; rfl
        rw [if_neg h0]
        have hskip := search_memchr hh hn (by omega) (by omega)
        cases hm : memchr mem hs (mem ne) (HS.length - NE.length + 1) with
        | none => rw [hm] at hskip; rw [hskip]; rfl
        | some p =>
            rw [hm] at hskip
            obtain ⟨hp, hfit, hp0, hsearch⟩ := hskip
            simp only
            have hlen : HS.length - (p - hs) = (HS.drop (p - hs)).length := by
              rw [List.length_drop]
            have hat : MemAt mem p (HS.drop (p - hs)) := by
              have := hh.drop (show p - hs ≤ HS.length by omega)
              rwa [show hs + (p - hs) = p by omega] at this
            have hmap : ∀ o : Option Nat, (o.map (p - hs + ·)).map (hs + ·) = o.map (p + ·) := by
              intro o
              rw [Option.map_map]
              congr 1
              funext k
              simp only [Function.comp]
              omega
            rw [hsearch, hmap]
            by_cases h1 : NE.length = 1
            · obtain ⟨c, rfl⟩ := List.length_eq_one_iff.mp h1
              have hzero : search [c] (HS.drop (p - hs)) = some 0 := by
                refine search_eq_zero_of_head rfl rfl ?_
                rw [hat.getElem? (by rw [← hlen]; omega), Nat.add_zero, hp0, memAt_head hn rfl]
              rw [if_pos h1, hzero]; rfl
            · rw [if_neg h1, hlen, memmemLt8_spec hat hn (by omega) (by omega)
                (by rw [← hlen]; omega), List.map_id, List.map_id]
      · rw [if_neg h4]
        exact memmemMusl_spec cfg hh hn (by omega)

/-- What compiling a needle leaves in the table: its length, and the whole
table when the needle is long enough to need it. -/
theorem memmemComp_spec (cfg : Build) (mem : Mem) (t : TwowayTy) (ne n : Nat) :
    ∃ t', memmemComp cfg mem t ne n = .ok t' ∧ t'.needleLen = n ∧
      (n > twowayMemmemThres cfg → ∃ c, Compiled (letters id mem ne) t' c) := by
  rw [memmemComp]
  by_cases h : n > twowayMemmemThres cfg
  · obtain ⟨t', c, hcomp, hlen, ht⟩ := @muslComp_spec id memcmpEq mem ne n
      (fun _ _ _ => memcmpEq_iff) (by omega) t
    exact ⟨t', by rw [if_pos h, hcomp], hlen, fun _ => ⟨c, ht⟩⟩
  · exact ⟨twowaySetLen t n, if_neg h, rfl, fun h' => absurd h' h⟩

theorem memmemExec_spec (cfg : Build) (hh : MemAt mem hs HS) (hn : MemAt mem ne NE)
    {t : TwowayTy} (hlen : t.needleLen = NE.length)
    (ht : NE.length > twowayMemmemThres cfg → ∃ c, Compiled (letters id mem ne) t c) :
    memmemExec cfg mem t hs HS.length ne NE.length = .ok ((search NE HS).map (hs + ·)) := by
  rw [memmemExec]
  by_cases h : NE.length > twowayMemmemThres cfg
  · obtain ⟨c, hc⟩ := ht h
    have := muslExec_spec hc hh hn hlen
    rw [List.map_id, List.map_id] at this
    rw [if_pos h, this]
  rw [if_neg h]
  rw [twowayMemmemThres] at h
  cases hv : cfg.memmemSimd with
  | some v =>
      rw [hv] at h
      exact simdMemmem_spec hh hn (Nat.not_lt.mp h)
  | none =>
      rw [hv] at h
      simp only at h ⊢
      by_cases h2 : NE.length = 2
      · rw [if_pos h2]
        by_cases hlt : HS.length < 2
        · rw [if_pos hlt, search_of_length_lt (by omega)]; rfl
        · rw [if_neg hlt, memmem2_spec hh hn h2 (by omega), List.map_id, List.map_id]
      rw [if_neg h2]
      by_cases h1 : NE.length = 1
      · obtain ⟨c, rfl⟩ := List.length_eq_one_iff.mp h1
        rw [if_pos h1, memchr_eq_search hh, memAt_head hn rfl]
      · rw [if_neg h1, List.length_eq_zero_iff.mp (show NE.length = 0 by omega), search_nil]; rfl

/-- Both entry points return the leftmost occurrence, whatever algorithm
the length of the needle and the build select. -/
theorem memmem_comp_exec_leftmost (cfg : Build) (hh : MemAt mem hs HS) (hn : MemAt mem ne NE)
    (t : TwowayTy) :
    ∃ r : Option Nat, Leftmost (OccursAt NE HS) r ∧ (NE = [] → r = some 0) ∧
      memmem cfg mem hs HS.length ne NE.length = .ok (r.map (hs + ·)) ∧
      (do
        let t ← memmemComp cfg mem t ne NE.length
        memmemExec cfg mem t hs HS.length ne NE.length) = .ok (r.map (hs + ·)) := by
  obtain ⟨t', hcomp, hlen, ht⟩ := memmemComp_spec cfg mem t ne NE.length
  refine ⟨search NE HS, search_eq_iff_leftmost.mp rfl, ?_, memmem_spec cfg hh hn, ?_⟩
  · rintro rfl; exact search_nil HS
  · rw [hcomp]
    exact memmemExec_spec cfg hh hn hlen ht

/-- "ab" in "aab", with an SSE2 build. -/
theorem memmem_comp_exec_leftmost_aab :
    ∃ r : Option Nat, Leftmost (OccursAt ([97, 98] : Bytes) [97, 97, 98]) r ∧
      (([97, 98] : Bytes) = [] → r = some 0) ∧
      memmem sse2Build (memOf [97, 97, 98, 97, 98]) 0 3 3 2 = .ok (r.map (0 + ·)) ∧
      (do
        let t ← memmemComp sse2Build (memOf [97, 97, 98, 97, 98]) default 3 2
        memmemExec sse2Build (memOf [97, 97, 98, 97, 98]) t 0 3 3 2) = .ok (r.map (0 + ·)) :=
  @memmem_comp_exec_leftmost (memOf [97, 97, 98, 97, 98]) 0 3 [97, 97, 98] [97, 98] sse2Build
    (by decide) (by decide) default

/-! ## Tables that outlive the memory they were made in -/

/-- `t` was made by `jstr_memmem_comp` for the needle `NE`. -/
def Prepared (cfg : Build) (NE : Bytes) (t : TwowayTy) : Prop :=
  t.needleLen = NE.length ∧
    (NE.length > twowayMemmemThres cfg → ∃ c, Compiled (fun i => NE.getD i 0) t c)

theorem letters_eq_getD (hn : MemAt mem ne NE) {i : Nat} (hi : i < NE.length) :
    letters id mem ne i = NE.getD i 0 := by
  rw [List.getD_eq_getElem?_getD, hn.getElem? hi]
  rfl

theorem memmemComp_prepared (cfg : Build) (hn : MemAt mem ne NE) (t : TwowayTy) :
    ∃ t', memmemComp cfg mem t ne NE.length = .ok t' ∧ Prepared cfg NE t' := by
  obtain ⟨t', hcomp, hlen, ht⟩ := memmemComp_spec cfg mem t ne NE.length
  refine ⟨t', hcomp, hlen, fun h => ?_⟩
  obtain ⟨c, hc⟩ := ht h
  exact ⟨c, hc.congr fun i hi => letters_eq_getD hn (by omega)⟩

theorem memmemExec_prepared {cfg : Build} {t : TwowayTy} (ht : Prepared cfg NE t)
    (hh : MemAt mem hs HS) (hn : MemAt mem ne NE) :
    memmemExec cfg mem t hs HS.length ne NE.length = .ok ((search NE HS).map (hs + ·)) := by
  obtain ⟨hlen, hcomp⟩ := ht
  refine memmemExec_spec cfg hh hn hlen fun h => ?_
  obtain ⟨c, hc⟩ := hcomp h
  exact ⟨c, hc.congr fun i hi => (letters_eq_getD hn (by omega)).symm⟩

end Correct

end Jstr
