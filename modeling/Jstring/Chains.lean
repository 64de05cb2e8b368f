import Jstring.Casecopy
import Jstring.Reverse
import Jstring.Thousep
import Jstring.Unescape
import Jstring.Calls

/-!
# Copies that end where the next one begins

The functions of `include/string.h`, `include/stdstring.h` and
`include/ctype.h` that copy into a buffer and return a pointer to the `'\0'` they
wrote: `jstr_stpcpy` in each of its builds, `jstr_stpcpy_len`,
`jstr_repeatcpy_len_p`, `jstr_revcpy_p`, `jstr_thousepcpy_p`,
`jstr_unescapecpy_p` and the copies in one case. Each writes its text and the
terminator and nothing else (`CopyCall.run_eq`), so calls chained through what
they return build the concatenation (`chains`); `jstr_stpcat`, which looks for
the end itself, builds the same. `jstr_memccpy`, up to a byte, writes a NUL behind
it where the C library's `memccpy` does not (`memccpy_agrees_iff`).
-/

namespace Jstr

open Words

/-! ## The functions -/

/-- A build, with `JSTR_HAVE_STPCPY`. -/
structure StpcpyBuild extends Build where
  haveStpcpy : Bool

/-- `stpcpy(dst, src)` of the C library. -/
def libcStpcpy (env : Mem) (b : Blk) (dst src : Nat) : Run (Blk × Nat) := do
  let n ← strlen (b.over env) src
  let b ← b.write dst (window (b.over env) src (n + 1))
  .ok (b, dst + n)

/-- `jstr_stpcpy`. -/
def stpcpy (cfg : StpcpyBuild) (env : Mem) (b : Blk) (dst src : Nat) : Run (Blk × Nat) :=
  if cfg.haveStpcpy && !cfg.test then libcStpcpy env b dst src
  else
    match cfg.haveSimd with
    | some v => simdStpcpy v.bytes env b dst src
    | none => do
      let n ← strlen (b.over env) src
      stpcpyLen b dst (window (b.over env) src n)

/-- `jstr_stpcat`. -/
def stpcat (cfg : StpcpyBuild) (env : Mem) (b : Blk) (dst src : Nat) : Run (Blk × Nat) := do
  let n ← strlen (b.over env) dst
  stpcpy cfg env b (dst + n) src

/-- `while (n--) dst = jstr_mempcpy(dst, src, src_len);` -/
def repeatcpyLoop (src : Bytes) : Nat → Blk → Nat → Run (Blk × Nat)
  | 0, b, dst => .ok (b, dst)
  | n + 1, b, dst => do
    let (b, dst) ← mempcpy b dst src
    repeatcpyLoop src n b dst

/-- The copies, in front of the terminator. -/
def repeatcpyBody (b : Blk) (dst : Nat) (src : Bytes) (n : Nat) : Run (Blk × Nat) :=
  if src.length > 1 then repeatcpyLoop src n b dst
  else if src.length = 1 then mempset b dst (src.headD 0) n
  else .ok (b, dst)

/-- `jstr_repeatcpy_len_p`. -/
def repeatcpyLenP (b : Blk) (dst : Nat) (src : Bytes) (n : Nat) : Run (Blk × Nat) := do
  let (b, dst) ← repeatcpyBody b dst src n
  let b ← b.write dst [0]
  .ok (b, dst)

/-- `jstr_thousepcpy_p`. -/
def thousepcpyP (env : Mem) (b : Blk) (dst : Nat) (sb : Blk) (src : Nat) (separator : UInt8) :
    Run (Blk × Nat) := do
  let n ← strlen (sb.over env) src
  thousepcpyLenP b dst sb src n separator

/-- `memccpy(dst, src, c, n)` of the C library. -/
def libcMemccpy (env : Mem) (b : Blk) (dst src : Nat) (c : UInt8) (n : Nat) :
    Run (Option Nat × Blk) :=
  match memchr (b.over env) src c n with
  | some p => do
    let b ← b.write dst (window (b.over env) src (p - src + 1))
    .ok (some (dst + (p - src + 1)), b)
  | none => do
    let b ← b.write dst (window (b.over env) src n)
    .ok (none, b)

/-- `jstr_memccpy`, where `haveMemccpy` is `JSTR_HAVE_MEMCCPY`. -/
def memccpy (haveMemccpy : Bool) (env : Mem) (b : Blk) (dst src : Nat) (c : UInt8) (n : Nat) :
    Run (Option Nat × Blk) :=
  if haveMemccpy then libcMemccpy env b dst src c n
  else
    match memchr (b.over env) src c n with
    | some p => do
      let (b, e) ← stpcpyLen b dst (window (b.over env) src (p - src + 1))
      .ok (some e, b)
    | none => do
      let b ← b.write dst (window (b.over env) src n)
      .ok (none, b)

/-! ## One call -/

/-- A call with the arguments behind the destination. -/
inductive CopyCall where
  | stpcpy (src : Nat)
  | stpcpyLen (src : Bytes)
  | repeatcpyLen (src : Bytes) (n : Nat)
  | tolowerstrcpy (src : Nat)
  | toupperstrcpy (src : Nat)
  | revcpy (sb : Blk) (src : Nat)
  | thousepcpy (sb : Blk) (src : Nat) (separator : UInt8)
  | unescapecpy (src : Nat)

def CopyCall.run (cfg : StpcpyBuild) (env : Mem) (b : Blk) (dst : Nat) :
    CopyCall → Run (Blk × Nat)
  | .stpcpy src => Jstr.stpcpy cfg env b dst src
  | .stpcpyLen src => Jstr.stpcpyLen b dst src
  | .repeatcpyLen src n => repeatcpyLenP b dst src n
  | .tolowerstrcpy src => tolowerstrcpyP env b dst src
  | .toupperstrcpy src => toupperstrcpyP env b dst src
  | .revcpy sb src => revcpyP env b dst sb src
  | .thousepcpy sb src separator => thousepcpyP env b dst sb src separator
  | .unescapecpy src => unescapecpyP env b dst src

/-- What a call is to copy is in place, outside the block, and `out` is what it is to write. -/
inductive Sends (env : Mem) (b : Blk) : CopyCall → Bytes → Prop where
  | stpcpy {src : Nat} {l : Bytes} (h : CStr env src l) (ha : Apart b src (l.length + 1)) :
      Sends env b (.stpcpy src) l
  | stpcpyLen {l : Bytes} : Sends env b (.stpcpyLen l) l
  | repeatcpyLen {l : Bytes} {n : Nat} :
      Sends env b (.repeatcpyLen l n) (List.replicate n l).flatten
  | tolowerstrcpy {src : Nat} {l : Bytes} (h : CStr env src l)
      (ha : Apart b src (l.length + 1)) : Sends env b (.tolowerstrcpy src) (l.map tolower)
  | toupperstrcpy {src : Nat} {l : Bytes} (h : CStr env src l)
      (ha : Apart b src (l.length + 1)) : Sends env b (.toupperstrcpy src) (l.map toupper)
  | revcpy {sb : Blk} {src : Nat} {l : Bytes} (h : sb.At src (l ++ [0])) (h0 : 0 ∉ l)
      (hfit : src + l.length ≤ sizeMax) : Sends env b (.revcpy sb src) l.reverse
  | thousepcpy {sb : Blk} {src : Nat} {separator : UInt8} {l : Bytes}
      (h : sb.At src (l ++ [0])) (h0 : 0 ∉ l) (hfit : src + l.length ≤ sizeMax) :
      Sends env b (.thousepcpy sb src separator) (sepText separator l)
  | unescapecpy {src : Nat} {l : Bytes} (h : CStr env src l) (ha : Apart b src (l.length + 1)) :
      Sends env b (.unescapecpy src) (unescape l)

theorem Sends.same {env : Mem} {b b' : Blk} {c : CopyCall} {out : Bytes}
    (h : Sends env b c out) (hb : SameBlock b b') : Sends env b' c out := by
  cases h with
  | stpcpy h ha => exact .stpcpy h (ha.same hb)
  | stpcpyLen => exact .stpcpyLen
  | repeatcpyLen => exact .repeatcpyLen
  | tolowerstrcpy h ha => exact .tolowerstrcpy h (ha.same hb)
  | toupperstrcpy h ha => exact .toupperstrcpy h (ha.same hb)
  | revcpy h h0 hfit => exact .revcpy h h0 hfit
  | thousepcpy h h0 hfit => exact .thousepcpy h h0 hfit
  | unescapecpy h ha => exact .unescapecpy h (ha.same hb)

section Copy

variable {env : Mem} {b : Blk} {dst src : Nat} {l : Bytes}

/-- The string read through the block it does not lie in. -/
theorem CStr.over_of_apart (h : CStr env src l) (ha : Apart b src (l.length + 1)) :
    CStr (b.over env) src l := by
  have hmem : MemAt (b.over env) src (l ++ [0]) :=
    memAt_over_of_apart h.memAt_nul (by rwa [List.length_append])
  exact ⟨(memAt_append.mp hmem).1, h.nonzero, (memAt_append.mp hmem).2 0 Nat.one_pos, h.fits⟩

/-- In every build. -/
theorem stpcpy_eq (cfg : StpcpyBuild) (h : CStr env src l) (ha : Apart b src (l.length + 1))
    (hd : b.InRange dst (l.length + 1)) :
    stpcpy cfg env b dst src = .ok (b.put dst (l ++ [0]), dst + l.length) := by
  have hover := h.over_of_apart ha
  have hnul := window_of_memAt hover.memAt_nul
  rw [List.length_append, List.length_singleton] at hnul
  rw [stpcpy]
  split
  · rw [libcStpcpy, hover.strlen_eq]
    simp only [bind, Except.bind, hnul]
    rw [Blk.write_eq (by rwa [List.length_append])]
  · cases cfg.haveSimd with
    | some v => exact simdStpcpy_spec v.bytes_pos h ha hd
    | none =>
        simp only [hover.strlen_eq, bind, Except.bind, window_of_memAt hover.bytes]
        exact stpcpyLen_eq hd

theorem repeatcpyLoop_eq (l : Bytes) : ∀ (n : Nat) {b : Blk} {dst : Nat},
    b.InRange dst (List.replicate n l).flatten.length →
      repeatcpyLoop l n b dst
        = .ok (b.put dst (List.replicate n l).flatten, dst + (List.replicate n l).flatten.length)
  | 0, b, dst, _ => by
      rw [repeatcpyLoop, List.replicate_zero, List.flatten_nil, Blk.put_nil]
      rfl
  | n + 1, b, dst, hd => by
      rw [List.replicate_succ, List.flatten_cons, List.length_append] at hd ⊢
      have hput : Memory.Block.InRange (b.put dst l) (dst + l.length)
          (List.replicate n l).flatten.length := by
        refine ⟨Nat.le_trans hd.1 (Nat.le_add_right _ _), ?_⟩
        have := hd.2
        rw [Memory.Block.put_addr, Memory.Block.put_size]
        omega
      rw [repeatcpyLoop, mempcpy_eq ⟨hd.1, by have := hd.2; omega⟩]
      simp only [bind, Except.bind]
      rw [repeatcpyLoop_eq l n hput, Memory.Block.put_append, Nat.add_assoc]

theorem repeatcpyBody_eq {n : Nat} (hd : b.InRange dst (List.replicate n l).flatten.length) :
    repeatcpyBody b dst l n
      = .ok (b.put dst (List.replicate n l).flatten,
        dst + (List.replicate n l).flatten.length) := by
  rw [repeatcpyBody]
  by_cases hmany : l.length > 1
  · rw [if_pos hmany, repeatcpyLoop_eq l n hd]
  · rw [if_neg hmany]
    by_cases hone : l.length = 1
    · obtain ⟨c, rfl⟩ := List.length_eq_one_iff.mp hone
      rw [List.flatten_replicate_singleton, List.length_replicate] at hd ⊢
      rw [if_pos hone]
      exact mempset_eq hd
    · obtain rfl : l = [] := List.eq_nil_of_length_eq_zero (by omega)
      rw [if_neg hone, List.flatten_replicate_nil, Blk.put_nil]
      rfl

theorem repeatcpyLenP_eq {n : Nat} (hd : b.InRange dst ((List.replicate n l).flatten.length + 1)) :
    repeatcpyLenP b dst l n
      = .ok (b.put dst ((List.replicate n l).flatten ++ [0]),
        dst + (List.replicate n l).flatten.length) := by
  have hwrite := @Blk.write_put b dst (List.replicate n l).flatten [0] hd
  rw [repeatcpyLenP, repeatcpyBody_eq ⟨hd.1, by have := hd.2; omega⟩]
  simp only [bind, Except.bind, hwrite]

/-- A copy in one case, from outside the block. -/
theorem putBytes_of_apart {f : UInt8 → UInt8} (hf : ∀ x, f x = 0 ↔ x = 0) (h : CStr env src l)
    (ha : Apart b src (l.length + 1)) (hd : b.InRange dst ((l.map f).length + 1)) :
    putBytes f env (sizeMax + 1) b dst src
      = .ok (b.put dst (l.map f ++ [0]), dst + (l.map f).length) := by
  rw [List.length_map] at hd ⊢
  have hfits := h.fits
  refine putBytes_restrict hf (h.over_of_apart ha).memAt_nul h.nonzero hd ?_ (by omega)
  have := hd.1
  have := hd.2
  rcases ha with hlo | hhi
  · exact .inr (by omega)
  · exact .inl (by omega)

/-- A text and a terminator are written, nothing else, and the pointer returned is the
terminator's. -/
theorem CopyCall.run_eq (cfg : StpcpyBuild) {c : CopyCall} {out : Bytes} (h : Sends env b c out)
    (hd : b.InRange dst (out.length + 1)) :
    c.run cfg env b dst = .ok (b.put dst (out ++ [0]), dst + out.length) := by
  cases h with
  | stpcpy h ha => exact stpcpy_eq cfg h ha hd
  | stpcpyLen => exact stpcpyLen_eq hd
  | repeatcpyLen => exact repeatcpyLenP_eq hd
  | tolowerstrcpy h ha => exact putBytes_of_apart (fun _ => tolower_eq_zero) h ha hd
  | toupperstrcpy h ha => exact putBytes_of_apart (fun _ => toupper_eq_zero) h ha hd
  | revcpy h h0 hfit =>
      rw [List.length_reverse] at hd ⊢
      rw [CopyCall.run, revcpyP, (cstr_over h h0 hfit).strlen_eq]
      simp only [bind, Except.bind, revcpyLen_eq h.left hd]
  | thousepcpy h h0 hfit =>
      rw [CopyCall.run, thousepcpyP, (cstr_over h h0 hfit).strlen_eq]
      exact thousepcpyLenP_eq h.left hd
  | @unescapecpy src l h ha =>
      have hfits := h.fits
      have hreading : Reading env b dst [] l ⟨b, dst, src⟩ :=
        ⟨(Blk.put_nil b dst).symm, rfl, (h.over_of_apart ha).memAt_nul, h.nonzero,
          .inr (by rwa [List.length_append])⟩
      exact unescapecpyP_eq hreading (by omega) hd

end Copy

/-! ## Chained -/

/-- Each call is made at the pointer the one before returned. -/
def runChain (cfg : StpcpyBuild) (env : Mem) : List CopyCall → Blk → Nat → Run (Blk × Nat)
  | [], b, dst => .ok (b, dst)
  | c :: calls, b, dst => do
    let (b, dst) ← c.run cfg env b dst
    runChain cfg env calls b dst

/-- Each string is appended by `jstr_stpcat` to what begins at `s`. -/
def runStpcat (cfg : StpcpyBuild) (env : Mem) (s : Nat) : List Nat → Blk → Nat → Run (Blk × Nat)
  | [], b, dst => .ok (b, dst)
  | src :: srcs, b, _ => do
    let (b, dst) ← stpcat cfg env b s src
    runStpcat cfg env s srcs b dst

section Chain

variable {cfg : StpcpyBuild} {env : Mem} {b : Blk} {dst : Nat} {t : Bytes}

/-- Behind a text that is written, the next call writes its own. -/
theorem CopyCall.run_next {c : CopyCall} {out : Bytes} (h : Sends env b c out)
    (hd : b.InRange dst ((t ++ out).length + 1)) :
    c.run cfg env (b.put dst (t ++ [0])) (dst + t.length)
      = .ok (b.put dst ((t ++ out) ++ [0]), dst + (t ++ out).length) := by
  rw [List.length_append] at hd ⊢
  have hin : Memory.Block.InRange (b.put dst (t ++ [0])) (dst + t.length) (out.length + 1) := by
    refine ⟨Nat.le_trans hd.1 (Nat.le_add_right _ _), ?_⟩
    have := hd.2
    rw [Memory.Block.put_addr, Memory.Block.put_size]
    omega
  have hle : ([0] : Bytes).length ≤ (out ++ [0]).length := by
    rw [List.length_append]
    exact Nat.le_add_left _ _
  rw [CopyCall.run_eq cfg (h.same (sameBlock_put b dst _)) hin,
    Memory.Block.put_put_end b dst t hle, List.append_assoc, Nat.add_assoc]

/-- The invariant of the chain: so far the texts of the calls made, terminated. -/
theorem runChain_eq : ∀ {calls : List CopyCall} {outs : List Bytes} {t : Bytes},
    List.Forall₂ (Sends env b) calls outs → b.InRange dst ((t ++ outs.flatten).length + 1) →
      runChain cfg env calls (b.put dst (t ++ [0])) (dst + t.length)
        = .ok (b.put dst ((t ++ outs.flatten) ++ [0]), dst + (t ++ outs.flatten).length)
  | [], _, t, .nil, _ => by
      rw [List.flatten_nil, List.append_nil]
      rfl
  | c :: calls, out :: outs, t, .cons hc hcalls, hd => by
      rw [List.flatten_cons, ← List.append_assoc] at hd ⊢
      have hd' : b.InRange dst ((t ++ out).length + 1) := by
        refine ⟨hd.1, ?_⟩
        have := hd.2
        rw [List.length_append] at this
        omega
      rw [runChain, CopyCall.run_next hc hd']
      exact runChain_eq hcalls hd

/-- Where the strings to append are. -/
def SendsString (env : Mem) (b : Blk) (src : Nat) (l : Bytes) : Prop :=
  CStr env src l ∧ Apart b src (l.length + 1)

theorem sends_strings : ∀ {srcs : List Nat} {ls : List Bytes},
    List.Forall₂ (SendsString env b) srcs ls →
      List.Forall₂ (Sends env b) (srcs.map CopyCall.stpcpy) ls
  | [], _, .nil => .nil
  | _ :: _, _ :: _, .cons h hs => .cons (.stpcpy h.1 h.2) (sends_strings hs)

/-- The end is where the last call has left it. -/
theorem runStpcat_eq : ∀ {srcs : List Nat} {ls : List Bytes} {t : Bytes},
    List.Forall₂ (SendsString env b) srcs ls → 0 ∉ t →
      b.InRange dst ((t ++ ls.flatten).length + 1) →
      dst + (t ++ ls.flatten).length ≤ sizeMax →
      runStpcat cfg env dst srcs (b.put dst (t ++ [0])) (dst + t.length)
        = .ok (b.put dst ((t ++ ls.flatten) ++ [0]), dst + (t ++ ls.flatten).length)
  | [], _, t, .nil, _, _, _ => by
      rw [List.flatten_nil, List.append_nil]
      rfl
  | src :: srcs, l :: ls, t, .cons hl hls, h0, hd, hfit => by
      rw [List.flatten_cons, ← List.append_assoc] at hd hfit ⊢
      have hfit' : dst + (t ++ l).length ≤ sizeMax := by
        rw [List.length_append] at hfit
        omega
      have hd' : b.InRange dst ((t ++ l).length + 1) := by
        refine ⟨hd.1, ?_⟩
        have := hd.2
        rw [List.length_append] at this
        omega
      have hat : Memory.Block.At (b.put dst (t ++ [0])) dst (t ++ [0]) := by
        refine Memory.Block.at_put ⟨hd'.1, ?_⟩
        have := hd'.2
        rw [List.length_append] at this ⊢
        rw [List.length_singleton]
        omega
      have hlen : strlen (Blk.over env (b.put dst (t ++ [0]))) dst = .ok t.length := by
        refine (cstr_over hat h0 ?_).strlen_eq
        rw [List.length_append] at hfit'
        omega
      have hcpy : stpcpy cfg env (b.put dst (t ++ [0])) (dst + t.length) src
          = .ok (b.put dst ((t ++ l) ++ [0]), dst + (t ++ l).length) :=
        CopyCall.run_next (.stpcpy hl.1 hl.2) hd'
      have h0' : 0 ∉ t ++ l := by
        rw [List.mem_append, not_or]
        exact ⟨h0, hl.1.nonzero⟩
      rw [runStpcat, stpcat, hlen]
      simp only [bind, Except.bind, hcpy]
      exact runStpcat_eq hls h0' hd hfit

/-- Behind a string in the block, any calls that each begin where the one before ended append
what they write, one after the other, and leave the rest of the block as it is; `jstr_stpcat`
called with the beginning each time does what `jstr_stpcpy` does, chained. -/
theorem chains (cfg : StpcpyBuild) (hat : b.At dst (t ++ [0])) :
    (∀ calls outs, List.Forall₂ (Sends env b) calls outs →
      b.InRange dst ((t ++ outs.flatten).length + 1) →
        runChain cfg env calls b (dst + t.length)
          = .ok (b.put dst ((t ++ outs.flatten) ++ [0]), dst + (t ++ outs.flatten).length)) ∧
    ∀ srcs ls, List.Forall₂ (SendsString env b) srcs ls → 0 ∉ t →
      b.InRange dst ((t ++ ls.flatten).length + 1) → dst + (t ++ ls.flatten).length ≤ sizeMax →
        runStpcat cfg env dst srcs b (dst + t.length)
          = runChain cfg env (srcs.map .stpcpy) b (dst + t.length) := by
  have hb := Memory.Block.put_of_at hat
  constructor
  · intro calls outs hcalls hd
    have hrun := @runChain_eq cfg env b dst calls outs t hcalls hd
    rwa [hb] at hrun
  · intro srcs ls hsrcs h0 hd hfit
    have hcat := @runStpcat_eq cfg env b dst srcs ls t hsrcs h0 hd hfit
    have hcpy := @runChain_eq cfg env b dst _ ls t (sends_strings hsrcs) hd
    rw [hb] at hcat hcpy
    rw [hcat, hcpy]

end Chain

/-- Behind "x": "ab" copied, then "ab" in upper case, then "yy". -/
theorem chains_ab :
    runChain ⟨sse2Build, false⟩ (memOf [97, 98])
      [.stpcpy 0, .toupperstrcpy 0, .repeatcpyLen [121] 2] ⟨64, [120, 0, 7, 7, 7, 7, 7, 7, 7]⟩ 65
        = .ok (⟨64, [120, 97, 98, 65, 66, 121, 121, 0, 7]⟩, 71) := by
  have hstr : CStr (memOf [97, 98]) 0 ([97, 98] : Bytes) :=
    ⟨by decide, by decide, by decide, by decide⟩
  have hat : Memory.Block.At (⟨64, [120, 0, 7, 7, 7, 7, 7, 7, 7]⟩ : Blk) 64
      (([120] : Bytes) ++ [0]) := ⟨by decide, by decide⟩
  obtain ⟨hrun, -⟩ := @chains (memOf [97, 98]) _ _ _ ⟨sse2Build, false⟩ hat
  exact hrun _ _ (.cons (.stpcpy hstr (.inl (by decide)))
    (.cons (.toupperstrcpy hstr (.inl (by decide))) (.cons .repeatcpyLen .nil))) (by decide)

/-! ## Up to a byte -/

section Memccpy

variable {env : Mem} {b : Blk} {dst src : Nat} {l : Bytes}

/-- A terminator written behind a text that has one already. -/
theorem put_append_nul_iff {m : Bytes} (hd : b.InRange dst (m.length + 1)) :
    b.put dst (m ++ [0]) = b.put dst m ↔ b.cell? (dst + m.length) = some 0 := by
  have hin : b.InRange (dst + m.length) 1 :=
    ⟨Nat.le_trans hd.1 (Nat.le_add_right _ _), by have := hd.2; omega⟩
  have hcell : (b.put dst m).cell? (dst + m.length) = b.cell? (dst + m.length) := by
    rw [Memory.Block.cell?_put b dst m _ hin, if_neg (by omega)]
  constructor
  · intro h
    have hnul := (Memory.Block.at_put (b := b) (p := dst) (l := m ++ [0])
      (by rwa [List.length_append])).right
    rw [h] at hnul
    rw [← hcell]
    exact (Memory.Block.at_singleton.mp hnul).2
  · intro h
    have hnul : (b.put dst m).At (dst + m.length) [0] := by
      refine Memory.Block.at_singleton.mpr ⟨?_, hcell.trans h⟩
      rwa [Memory.Block.InRange, Memory.Block.put_addr, Memory.Block.put_size]
    rw [← Memory.Block.put_append, Memory.Block.put_of_at hnul]

section Found

variable {c : UInt8} {k : Nat}

theorem length_take_found (hk : search [c] l = some k) : (l.take (k + 1)).length = k + 1 := by
  have hlt := search_lt hk
  rw [List.length_singleton] at hlt
  exact List.length_take_of_le hlt

/-- The first `c`, and the bytes up to and with it. -/
theorem memchr_found {mem : Mem} (hmem : MemAt mem src l) (hk : search [c] l = some k) :
    memchr mem src c l.length = some (src + k) ∧
      window mem src (src + k - src + 1) = l.take (k + 1) := by
  have hlt := search_lt hk
  rw [List.length_singleton] at hlt
  rw [memchr_eq_search hmem c, hk, show src + k - src + 1 = k + 1 by omega, window_take hmem hlt]
  exact ⟨rfl, rfl⟩

/-- With the C library's `memccpy` the bytes up to and with the first `c` are copied, and the
pointer behind them is returned. -/
theorem memccpy_found (hmem : MemAt (b.over env) src l) (hk : search [c] l = some k)
    (hd : b.InRange dst (k + 1)) :
    memccpy true env b dst src c l.length
      = .ok (some (dst + (k + 1)), b.put dst (l.take (k + 1))) := by
  obtain ⟨hchr, hwin⟩ := memchr_found hmem hk
  rw [memccpy, if_pos rfl, libcMemccpy, hchr]
  simp only [hwin]
  rw [Blk.write_eq (by rwa [length_take_found hk]), show src + k - src + 1 = k + 1 by omega]
  rfl

/-- Without it a NUL is written behind them, to the same pointer. -/
theorem memccpy_found_nul (hmem : MemAt (b.over env) src l) (hk : search [c] l = some k)
    (hd : b.InRange dst (k + 2)) :
    memccpy false env b dst src c l.length
      = .ok (some (dst + (k + 1)), b.put dst (l.take (k + 1) ++ [0])) := by
  obtain ⟨hchr, hwin⟩ := memchr_found hmem hk
  have hlen := length_take_found hk
  rw [memccpy, if_neg Bool.false_ne_true, hchr]
  simp only [hwin]
  rw [stpcpyLen_eq (by rwa [hlen]), hlen]
  rfl

/-- Where the room ends with `c`, that NUL is written outside the block. -/
theorem memccpy_found_bounds (hmem : MemAt (b.over env) src l) (hk : search [c] l = some k)
    (hone : b.InRange dst (k + 1)) (htwo : ¬b.InRange dst (k + 2)) :
    memccpy false env b dst src c l.length = .error .bounds := by
  obtain ⟨hchr, hwin⟩ := memchr_found hmem hk
  have hlen := length_take_found hk
  have hone' : b.InRange dst (l.take (k + 1)).length := by rwa [hlen]
  have hout : ¬(b.put dst (l.take (k + 1))).InRange (dst + (l.take (k + 1)).length) 1 := by
    rw [Memory.Block.InRange, Memory.Block.put_addr, Memory.Block.put_size, hlen]
    intro hin
    exact htwo ⟨hone.1, by omega⟩
  rw [memccpy, if_neg Bool.false_ne_true, hchr]
  simp only [hwin, bind, Except.bind, stpcpyLen, strcpyLen, mempcpy_eq hone']
  rw [Blk.write, if_neg (List.cons_ne_nil _ _), List.length_singleton, if_neg hout]

/-- Where there is no `c`, either build copies all of the bytes and returns no pointer. -/
theorem memccpy_none (haveMemccpy : Bool) (hmem : MemAt (b.over env) src l)
    (hk : search [c] l = none) (hd : b.InRange dst l.length) :
    memccpy haveMemccpy env b dst src c l.length = .ok (none, b.put dst l) := by
  have hboth : memccpy haveMemccpy env b dst src c l.length
      = libcMemccpy env b dst src c l.length := by
    cases haveMemccpy with
    | true => exact if_pos rfl
    | false => simp only [memccpy, libcMemccpy, memchr_eq_search hmem c, hk, Option.map_none,
        Bool.false_eq_true, if_false]
  rw [hboth, libcMemccpy, memchr_eq_search hmem c, hk]
  simp only [Option.map_none, window_of_memAt hmem]
  rw [Blk.write_eq hd]
  rfl

end Found

/-- Without the C library's `memccpy` the bytes up to and with `c` are copied and the same
pointer is returned, but a NUL is written behind them: nothing tells the two apart exactly when
`c` is not there or a NUL was there already, and where the room ends with `c` the call writes
outside the block. -/
theorem memccpy_agrees_iff (h : MemAt env src l) (ha : Apart b src l.length) (c : UInt8) :
    (b.InRange dst (l.length + 1) →
      (∀ k, search [c] l = some k →
        memccpy true env b dst src c l.length
            = .ok (some (dst + (k + 1)), b.put dst (l.take (k + 1))) ∧
          memccpy false env b dst src c l.length
            = .ok (some (dst + (k + 1)), b.put dst (l.take (k + 1) ++ [0]))) ∧
      (search [c] l = none → ∀ haveMemccpy,
        memccpy haveMemccpy env b dst src c l.length = .ok (none, b.put dst l)) ∧
      (memccpy false env b dst src c l.length = memccpy true env b dst src c l.length ↔
        ∀ k, search [c] l = some k → b.cell? (dst + (k + 1)) = some 0)) ∧
    ∀ k, search [c] l = some k → b.InRange dst (k + 1) → ¬b.InRange dst (k + 2) →
      memccpy true env b dst src c l.length
          = .ok (some (dst + (k + 1)), b.put dst (l.take (k + 1))) ∧
        memccpy false env b dst src c l.length = .error .bounds := by
  have hmem : MemAt (b.over env) src l := memAt_over_of_apart h ha
  have hroom : ∀ k, search [c] l = some k → b.InRange dst (l.length + 1) →
      b.InRange dst (k + 2) := by
    intro k hk hd
    have hlt := search_lt hk
    rw [List.length_singleton] at hlt
    exact ⟨hd.1, by have := hd.2; omega⟩
  refine ⟨fun hd => ⟨fun k hk => ?_, fun hk d => ?_, ?_⟩, fun k hk hone htwo =>
    ⟨memccpy_found hmem hk hone, memccpy_found_bounds hmem hk hone htwo⟩⟩
  · have hd' := hroom k hk hd
    exact ⟨memccpy_found hmem hk ⟨hd'.1, by have := hd'.2; omega⟩,
      memccpy_found_nul hmem hk hd'⟩
  · exact memccpy_none d hmem hk ⟨hd.1, by have := hd.2; omega⟩
  · cases hk : search [c] l with
    | none =>
        have hd' : b.InRange dst l.length := ⟨hd.1, by have := hd.2; omega⟩
        rw [memccpy_none false hmem hk hd', memccpy_none true hmem hk hd']
        exact iff_of_true rfl fun k h => by cases h
    | some k =>
        have hlen := length_take_found hk
        have hd' := hroom k hk hd
        have hsame := @put_append_nul_iff b dst (l.take (k + 1)) (by rwa [hlen])
        rw [hlen] at hsame
        rw [memccpy_found hmem hk ⟨hd'.1, by have := hd'.2; omega⟩,
          memccpy_found_nul hmem hk hd']
        constructor
        · intro heq k' hk'
          obtain rfl := Option.some.inj hk'
          exact hsame.mp (Prod.mk.inj (Except.ok.inj heq)).2
        · intro hcell
          rw [hsame.mpr (hcell k rfl)]

/-- "ab" up to 'b': into two bytes it fits with `memccpy` only. -/
theorem memccpy_agrees_iff_ab :
    memccpy true (memOf [97, 98]) ⟨64, [7, 7]⟩ 64 0 98 2 = .ok (some 66, ⟨64, [97, 98]⟩) ∧
      memccpy false (memOf [97, 98]) ⟨64, [7, 7]⟩ 64 0 98 2 = .error .bounds := by
  have h : MemAt (memOf [97, 98]) 0 ([97, 98] : Bytes) := by decide
  have ha : Apart ⟨64, [7, 7]⟩ 0 ([97, 98] : Bytes).length := .inl (by decide)
  exact (@memccpy_agrees_iff _ _ 64 0 _ h ha 98).2 1 (by decide) (by decide) (by decide)

end Memccpy

end Jstr
