import Jstring.Stores
import Jstring.Cmpeq
import Jstring.Builder

/-!
# Copies in one case

`jstr_tolowerstrcpy_p`, `jstr_toupperstrcpy_p` and the `_len` functions of
`include/ctype.h`. Their pointers are `restrict`: the two ranges share no
address (`Restrict`), but may lie in one block. The copying loops have no
vector variant; they leave what copying the text and changing the copy in
place leaves, in every build of the latter (`casecopies`). With a length of 0
nothing is written, not even the terminator.
-/

namespace Jstr

/-- `jstr_tolowerstrcpy_p`. -/
def tolowerstrcpyP (env : Mem) (b : Blk) (dst src : Nat) : Run (Blk × Nat) :=
  putBytes tolower env (sizeMax + 1) b dst src

/-- `jstr_toupperstrcpy_p`. -/
def toupperstrcpyP (env : Mem) (b : Blk) (dst src : Nat) : Run (Blk × Nat) :=
  putBytes toupper env (sizeMax + 1) b dst src

/-- `while (n--) *d++ = f(*s++);`, with where `d` stands at its end. -/
def casecpyLoop (f : UInt8 → UInt8) (env : Mem) : Nat → Blk → Nat → Nat → Run (Blk × Nat)
  | 0, b, d, _ => .ok (b, d)
  | n + 1, b, d, s => do
    let b ← b.write d [f (b.over env s)]
    casecpyLoop f env n b (d + 1) (s + 1)

/-- The body the two functions share. -/
def casecpyLen (f : UInt8 → UInt8) (env : Mem) (b : Blk) (dst src n : Nat) : Run Blk :=
  if n = 0 then .ok b
  else do
    let (b, d) ← casecpyLoop f env n b dst src
    b.write d [0]

/-- `jstr_tolowerstrcpy_len`. -/
def tolowerstrcpyLen (env : Mem) (b : Blk) (dst src n : Nat) : Run Blk :=
  casecpyLen tolower env b dst src n

/-- `jstr_toupperstrcpy_len`. -/
def toupperstrcpyLen (env : Mem) (b : Blk) (dst src n : Nat) : Run Blk :=
  casecpyLen toupper env b dst src n

/-! ## The loops -/

/-- The `n` bytes at the one pointer and the `m` bytes at the other share no address. -/
def Restrict (dst n src m : Nat) : Prop := dst + n ≤ src ∨ src + m ≤ dst

section Loops

variable {f : UInt8 → UInt8} {env : Mem} {b : Blk} {dst src : Nat} {l : Bytes}

/-- Outside the block there is no cell. -/
theorem cell?_of_not_inRange {a : Nat} (h : ¬b.InRange a 1) : b.cell? a = none := by
  rw [Memory.Block.cell?]
  split
  · rename_i hlo
    refine List.getElem?_eq_none ?_
    by_contra hlt
    refine h ⟨hlo, ?_⟩
    rw [Memory.Block.size]
    omega
  · rfl

/-- What is written elsewhere does not change what is read. -/
theorem memAt_over_put_of_restrict {m : Bytes} (h : MemAt (b.over env) src m)
    (hr : Restrict dst l.length src m.length) : MemAt (Blk.over env (b.put dst l)) src m := by
  intro i hi
  rw [← h i hi, Blk.over, Blk.over]
  by_cases hin : b.InRange (src + i) 1
  · rw [Memory.Block.cell?_put b dst l (src + i) hin, if_neg]
    rcases hr with hle | hle <;> omega
  · have hin' : ¬Memory.Block.InRange (b.put dst l) (src + i) 1 := by
      rwa [Memory.Block.InRange, Memory.Block.put_addr, Memory.Block.put_size]
    rw [cell?_of_not_inRange hin, cell?_of_not_inRange hin']

/-- One byte is read and written, and the rest of the text is still to come. -/
theorem casecpy_step {x : UInt8} (h : MemAt (b.over env) src (x :: l))
    (hd : b.InRange dst (l.length + 1)) {n : Nat} (hr : Restrict dst n src (l.length + 1))
    (hn : 0 < n) :
    b.write dst [f (b.over env src)] = .ok (b.put dst [f x]) ∧
      MemAt (Blk.over env (b.put dst [f x])) (src + 1) l ∧
      Restrict (dst + 1) (n - 1) (src + 1) l.length := by
  have hx : b.over env src = x := h 0 (Nat.succ_pos _)
  have htail : MemAt (b.over env) (src + 1) l := h.drop (Nat.succ_pos _)
  refine ⟨?_, memAt_over_put_of_restrict htail ?_, ?_⟩
  · rw [hx, Blk.write_eq ⟨hd.1, by have := hd.2; rw [List.length_singleton]; omega⟩]
  · rw [List.length_singleton]
    rcases hr with hle | hle
    · exact .inl (by omega)
    · exact .inr (by omega)
  · rcases hr with hle | hle
    · exact .inl (by omega)
    · exact .inr (by omega)

theorem putBytes_restrict (hf : ∀ x, f x = 0 ↔ x = 0) : ∀ {l : Bytes} {fuel : Nat} {b : Blk}
    {dst src : Nat}, MemAt (b.over env) src (l ++ [0]) → 0 ∉ l → b.InRange dst (l.length + 1) →
      Restrict dst (l.length + 1) src (l.length + 1) → l.length < fuel →
        putBytes f env fuel b dst src = .ok (b.put dst (l.map f ++ [0]), dst + l.length)
  | _, 0, _, _, _, _, _, _, _, hfuel => absurd hfuel (Nat.not_lt_zero _)
  | [], fuel + 1, b, dst, src, h, _, hd, hr, _ => by
      obtain ⟨hwrite, -, -⟩ := casecpy_step (f := f) h hd hr Nat.one_pos
      have h0 : f (b.over env src) = 0 := (hf _).mpr (h 0 Nat.one_pos)
      rw [putBytes]
      simp only [hwrite, bind, Except.bind, if_pos h0, pure, Except.pure]
      rw [(hf 0).mpr rfl]
      rfl
  | x :: l, fuel + 1, b, dst, src, h, hl, hd, hr, hfuel => by
      have hlen : (l ++ [0]).length = l.length + 1 := List.length_append
      obtain ⟨hwrite, hrest, hr'⟩ := casecpy_step (f := f) (l := l ++ [0]) h
        (by rwa [hlen]) (by rwa [hlen]) (Nat.succ_pos _)
      have hx : f (b.over env src) ≠ 0 := fun h0 =>
        hl (List.mem_cons.mpr (.inl (((hf _).mp h0).symm.trans (h 0 (Nat.succ_pos _)))))
      have hd' : Memory.Block.InRange (b.put dst [f x]) (dst + 1) (l.length + 1) := by
        refine ⟨Nat.le_trans hd.1 (Nat.le_succ dst), ?_⟩
        have := hd.2
        rw [List.length_cons] at this
        rw [Memory.Block.put_addr, Memory.Block.put_size]
        omega
      rw [putBytes]
      simp only [hwrite, bind, Except.bind, if_neg hx]
      rw [putBytes_restrict hf hrest (fun h => hl (List.mem_cons_of_mem x h)) hd'
        (by rwa [hlen] at hr') (Nat.lt_of_succ_lt_succ hfuel), List.map_cons, List.length_cons]
      refine congrArg Except.ok (Prod.ext ?_ (by show dst + 1 + l.length = _; omega))
      exact Memory.Block.put_append b dst [f x] (l.map f ++ [0])

theorem casecpyLoop_spec : ∀ {l : Bytes} {b : Blk} {dst src n : Nat}, MemAt (b.over env) src l →
    b.InRange dst l.length → Restrict dst n src l.length → l.length ≤ n →
      casecpyLoop f env l.length b dst src = .ok (b.put dst (l.map f), dst + l.length)
  | [], b, dst, _, _, _, _, _, _ => by
      rw [List.map_nil, Blk.put_nil]
      rfl
  | x :: l, b, dst, src, n, h, hd, hr, hn => by
      obtain ⟨hwrite, hrest, hr'⟩ := casecpy_step (f := f) h hd hr
        (Nat.lt_of_lt_of_le (Nat.succ_pos _) hn)
      have hd' : Memory.Block.InRange (b.put dst [f x]) (dst + 1) l.length := by
        refine ⟨Nat.le_trans hd.1 (Nat.le_succ dst), ?_⟩
        have := hd.2
        rw [List.length_cons] at this
        rw [Memory.Block.put_addr, Memory.Block.put_size]
        omega
      rw [List.length_cons, casecpyLoop]
      simp only [hwrite, bind, Except.bind]
      rw [casecpyLoop_spec hrest hd' hr' (Nat.le_sub_one_of_lt hn), List.map_cons]
      refine congrArg Except.ok (Prod.ext ?_ (by show dst + 1 + l.length = _; omega))
      exact Memory.Block.put_append b dst [f x] (l.map f)

theorem casecpyLen_spec (h : MemAt (b.over env) src l) (hd : b.InRange dst (l.length + 1))
    (hr : Restrict dst (l.length + 1) src l.length) :
    casecpyLen f env b dst src l.length
      = .ok (if l = [] then b else b.put dst (l.map f ++ [0])) := by
  rw [casecpyLen]
  by_cases hl : l = []
  · rw [if_pos (List.length_eq_zero_iff.mpr hl), if_pos hl]
  · rw [if_neg fun h0 => hl (List.length_eq_zero_iff.mp h0), if_neg hl,
      casecpyLoop_spec h ⟨hd.1, by have := hd.2; omega⟩ hr (Nat.le_succ _)]
    have hwrite := @Blk.write_put b dst (l.map f) [0] (by rwa [List.length_map])
    rw [List.length_map] at hwrite
    exact hwrite

end Loops

/-! ## Against copying and changing in place -/

theorem tolower_toupper (c : UInt8) : tolower (toupper c) = tolower c :=
  forall_byte (P := fun c => tolower (toupper c) = tolower c) (by decide +kernel) c

theorem toupper_toupper (c : UInt8) : toupper (toupper c) = toupper c :=
  forall_byte (P := fun c => toupper (toupper c) = toupper c) (by decide +kernel) c

/-- A string is copied by the two functions: each does what copying it and
changing the copy does, both copies are the source without regard to case, the
source stays, and the one can be made of the other. -/
structure Copies (cfg : Build) (env : Mem) (b : Blk) (dst src : Nat) (l : Bytes) : Prop where
  lower : tolowerstrcpyP env b dst src
    = (stpcpyLen b dst l).bind fun r => tolowerstrP cfg env r.1 dst
  upper : toupperstrcpyP env b dst src
    = (stpcpyLen b dst l).bind fun r => toupperstrP cfg env r.1 dst
  same : ∀ copy ∈ [tolowerstrcpyP, toupperstrcpyP], ∃ b' : Blk,
    copy env b dst src = .ok (b', dst + l.length) ∧ CStr (b'.over env) src l ∧
      ZeroIff (strcasecmp (b'.over env) dst src) True ∧
      tolowerstrP cfg env b' dst = tolowerstrcpyP env b dst src ∧
      toupperstrP cfg env b' dst = toupperstrcpyP env b dst src

section Copies

variable {f : UInt8 → UInt8} {env : Mem} {b : Blk} {dst src : Nat} {l : Bytes}

theorem CStr.memAt_nul {mem : Mem} {p : Nat} (h : CStr mem p l) : MemAt mem p (l ++ [0]) := by
  refine memAt_append.mpr ⟨h.bytes, fun i hi => ?_⟩
  rw [List.length_singleton, Nat.lt_one_iff] at hi
  subst hi
  exact h.nul

theorem not_mem_map (hf : ∀ x, f x = 0 ↔ x = 0) (h0 : 0 ∉ l) : 0 ∉ l.map f := by
  intro h
  obtain ⟨x, hx, hx0⟩ := List.mem_map.mp h
  exact h0 ((hf x).mp hx0 ▸ hx)

/-- A text written with its terminator is changed in place. -/
theorem caseStr_put (cfg : Build) {m : Bytes} (hd : b.InRange dst (m.length + 1)) (h0 : 0 ∉ m)
    (hl : m.length ≤ sizeMax) :
    tolowerstrP cfg env (b.put dst (m ++ [0])) dst
        = .ok (b.put dst (m.map tolower ++ [0]), dst + m.length) ∧
      toupperstrP cfg env (b.put dst (m ++ [0])) dst
        = .ok (b.put dst (m.map toupper ++ [0]), dst + m.length) := by
  have hat : Memory.Block.At (b.put dst (m ++ [0])) dst (m ++ [0]) :=
    Memory.Block.at_put (by rwa [List.length_append])
  obtain ⟨hlow, hup⟩ := @caseStr_spec env _ _ _ cfg hat h0 hl
  have hput : ∀ f : UInt8 → UInt8,
      Memory.Block.put (b.put dst (m ++ [0])) dst (m.map f) = b.put dst (m.map f ++ [0]) :=
    fun f => Memory.Block.put_put_mid b dst (x := []) (z := [0]) (List.length_map f)
  rw [hlow, hup, hput, hput]
  exact ⟨rfl, rfl⟩

/-- A copy in one case made of the string. -/
theorem copied (cfg : Build) (hf : ∀ x, f x = 0 ↔ x = 0) (hfold : tolower ∘ f = tolower)
    (hup : toupper ∘ f = toupper) (h : CStr (b.over env) src l)
    (hd : b.InRange dst (l.length + 1)) (hr : Restrict dst (l.length + 1) src (l.length + 1))
    (hfit : dst + l.length ≤ sizeMax) :
    putBytes f env (sizeMax + 1) b dst src
        = .ok (b.put dst (l.map f ++ [0]), dst + l.length) ∧
      CStr (Blk.over env (b.put dst (l.map f ++ [0]))) src l ∧
      ZeroIff (strcasecmp (Blk.over env (b.put dst (l.map f ++ [0]))) dst src) True ∧
      tolowerstrP cfg env (b.put dst (l.map f ++ [0])) dst
        = .ok (b.put dst (l.map tolower ++ [0]), dst + l.length) ∧
      toupperstrP cfg env (b.put dst (l.map f ++ [0])) dst
        = .ok (b.put dst (l.map toupper ++ [0]), dst + l.length) := by
  have hlen : (l.map f ++ [0]).length = l.length + 1 := by
    rw [List.length_append, List.length_map]
    rfl
  have hsrc : MemAt (Blk.over env (b.put dst (l.map f ++ [0]))) src (l ++ [0]) :=
    memAt_over_put_of_restrict h.memAt_nul (by rwa [hlen, List.length_append])
  have hkept : CStr (Blk.over env (b.put dst (l.map f ++ [0]))) src l :=
    ⟨(memAt_append.mp hsrc).1, h.nonzero, (memAt_append.mp hsrc).2 0 Nat.one_pos, h.fits⟩
  have hcopy : CStr (Blk.over env (b.put dst (l.map f ++ [0]))) dst (l.map f) :=
    cstr_over (Memory.Block.at_put (by rwa [hlen])) (not_mem_map hf h.nonzero)
      (by rwa [List.length_map])
  have hfolded : folded (l.map f) = folded l := by
    rw [folded, List.map_map, hfold]
    rfl
  have hfits := h.fits
  obtain ⟨hlow, hupp⟩ := @caseStr_put env b dst cfg (l.map f) (by rwa [List.length_map])
    (not_mem_map hf h.nonzero) (by rw [List.length_map]; omega)
  rw [List.map_map, List.length_map, hfold] at hlow
  rw [List.map_map, List.length_map, hup] at hupp
  exact ⟨putBytes_restrict hf h.memAt_nul h.nonzero hd hr (by omega), hkept,
    ((strcasecmp_spec hcopy hkept).congr_iff).mpr (iff_true_intro hfolded), hlow, hupp⟩

end Copies

/-- Copying in one case is copying and then changing the copy in place, in
every build of the latter and wherever the two ranges lie apart, whether they
end at the terminator or at a length; only a length of 0 differs, which writes
no terminator. -/
theorem casecopies (cfg : Build) (env : Mem) (b : Blk) (dst src : Nat) :
    (∀ l, CStr (b.over env) src l → b.InRange dst (l.length + 1) →
      Restrict dst (l.length + 1) src (l.length + 1) → dst + l.length ≤ sizeMax →
        Copies cfg env b dst src l) ∧
    ∀ l, MemAt (b.over env) src l → b.InRange dst (l.length + 1) →
      Restrict dst (l.length + 1) src l.length →
        tolowerstrcpyLen env b dst src l.length
            = (if l = [] then .ok b
              else (strcpyLen b dst l).bind fun b => tolowerstrLen cfg env b dst l.length) ∧
          toupperstrcpyLen env b dst src l.length
            = (if l = [] then .ok b
              else (strcpyLen b dst l).bind fun b => toupperstrLen cfg env b dst l.length) := by
  constructor
  · intro l h hd hr hfit
    have hfits := h.fits
    obtain ⟨hlow, hup⟩ := @caseStr_put env b dst cfg l hd h.nonzero (by omega)
    have hlower := @copied tolower env b dst src l cfg (fun _ => tolower_eq_zero)
      (funext tolower_tolower) (funext toupper_tolower) h hd hr hfit
    have hupper := @copied toupper env b dst src l cfg (fun _ => toupper_eq_zero)
      (funext tolower_toupper) (funext toupper_toupper) h hd hr hfit
    refine ⟨?_, ?_, fun copy hmem => ?_⟩
    · rw [stpcpyLen_eq hd, tolowerstrcpyP, hlower.1]
      exact hlow.symm
    · rw [stpcpyLen_eq hd, toupperstrcpyP, hupper.1]
      exact hup.symm
    · simp only [List.mem_cons, List.not_mem_nil, or_false] at hmem
      rcases hmem with rfl | rfl
      · obtain ⟨hrun, hsrc, hcmp, hl, hu⟩ := hlower
        exact ⟨_, hrun, hsrc, hcmp, hl.trans hrun.symm, hu.trans hupper.1.symm⟩
      · obtain ⟨hrun, hsrc, hcmp, hl, hu⟩ := hupper
        exact ⟨_, hrun, hsrc, hcmp, hl.trans hlower.1.symm, hu.trans hrun.symm⟩
  · intro l h hd hr
    have hput : ∀ f : UInt8 → UInt8,
        Memory.Block.put (b.put dst (l ++ [0])) dst (l.map f) = b.put dst (l.map f ++ [0]) :=
      fun f => Memory.Block.put_put_mid b dst (x := []) (z := [0]) (List.length_map f)
    have hat : Memory.Block.At (b.put dst (l ++ [0])) dst l :=
      (Memory.Block.at_put (by rwa [List.length_append])).left
    obtain ⟨hlow, hup⟩ := @caseStrLen_spec env _ _ _ cfg hat
    rw [tolowerstrcpyLen, toupperstrcpyLen, casecpyLen_spec h hd hr, casecpyLen_spec h hd hr,
      strcpyLen_eq hd]
    by_cases hl : l = []
    · rw [if_pos hl, if_pos hl, if_pos hl, if_pos hl]
      exact ⟨rfl, rfl⟩
    · rw [if_neg hl, if_neg hl, if_neg hl, if_neg hl, ← hput tolower, ← hput toupper]
      exact ⟨hlow.symm, hup.symm⟩

/-- "aB" copied behind itself. -/
theorem casecopies_aB :
    Copies sse2Build (memOf []) ⟨64, [97, 66, 0, 7, 7, 7]⟩ 67 64 [97, 66] ∧
      tolowerstrcpyLen (memOf []) ⟨64, [97, 66, 0, 7, 7, 7]⟩ 67 64 0
        = .ok ⟨64, [97, 66, 0, 7, 7, 7]⟩ := by
  obtain ⟨hstr, hlen⟩ := casecopies sse2Build (memOf []) ⟨64, [97, 66, 0, 7, 7, 7]⟩ 67 64
  refine ⟨hstr [97, 66] ⟨by decide, by decide, by decide, by decide⟩ (by decide)
    (.inr (by decide)) (by decide), ?_⟩
  exact (hlen [] (by decide) (by decide) (.inr (by decide))).1

end Jstr
