import Jstring.Count

/-!
# Wide loads and stores

The functions of `include/internal/simd.h` that write:
`jstr_internal_simd_tolowerstr_len`, `..._tolowerstr_p`, their upper case
twins, and `jstr_internal_simd_stpcpy`; and the functions of
`include/ctype.h` over them. Each has a byte loop up to the first aligned
block, a vector loop, and a byte loop for the rest. `upTo` is the block
after any number of bytes of the result: every loop of every function
leads from one such block to a later one.

A load reads the whole vector, wherever it lies; a store is checked
against the block. `*s = f(*s)` in place is the copy from `s` to `s`.
-/

namespace Jstr

open Words Bits

/-! ## Lanes -/

/-- The bytes a store writes. -/
def lanes (V : Nat) (v : Vec) : Bytes := (List.range V).map v

/-- `CMPGT8(x, y)`: all ones in the lanes where `x` is greater, signed. -/
def cmpgt8 (x y : Vec) : Vec := fun i => if (y i).toInt8 < (x i).toInt8 then 0xff else 0

/-- `CMPLT8(x, y)`. -/
def cmplt8 (x y : Vec) : Vec := cmpgt8 y x

/-- `AND(x, y)`. -/
def and8 (x y : Vec) : Vec := fun i => x i &&& y i

/-- `ADD8(x, y)`. -/
def add8 (x y : Vec) : Vec := fun i => x i + y i

/-- `SUB8(x, y)`. -/
def sub8 (x y : Vec) : Vec := fun i => x i - y i

/-- `jstr_internal_simd_tolower_vec`. -/
def tolowerVec (v : Vec) : Vec :=
  let gtA := cmpgt8 v (setone8 (65 - 1))
  let ltZ := cmplt8 v (setone8 (90 + 1))
  let isLower := and8 gtA ltZ
  let cvt := and8 isLower (setone8 (97 - 65))
  add8 v cvt

/-- `jstr_internal_simd_toupper_vec`. -/
def toupperVec (v : Vec) : Vec :=
  let gtA := cmpgt8 v (setone8 (97 - 1))
  let ltZ := cmplt8 v (setone8 (122 + 1))
  let isUpper := and8 gtA ltZ
  let cvt := and8 isUpper (setone8 (97 - 65))
  sub8 v cvt

/-- The bytes from 0x80 on are negative lanes, below every letter. -/
theorem tolowerVec_lane (v : Vec) (i : Nat) : tolowerVec v i = tolower (v i) :=
  forall_byte (P := fun c => tolowerVec (fun _ => c) 0 = tolower c) (by decide +kernel) (v i)

theorem toupperVec_lane (v : Vec) (i : Nat) : toupperVec v i = toupper (v i) :=
  forall_byte (P := fun c => toupperVec (fun _ => c) 0 = toupper c) (by decide +kernel) (v i)

/-! ## Delimited by the terminator -/

section Eol

/-- `for (; off--; ++s) if ((*s = f(*s)) == '\0') return s;`, between two
buffers; on the left what is returned. -/
def putHead (f : UInt8 → UInt8) (env : Mem) : Nat → Blk → Nat → Nat →
    Run (Blk × Nat ⊕ Blk × Nat × Nat)
  | 0, b, dst, src => .ok (.inr (b, dst, src))
  | off + 1, b, dst, src => do
    let c := f (b.over env src)
    let b ← b.write dst [c]
    if c = 0 then return .inl (b, dst) else putHead f env off b (dst + 1) (src + 1)

/-- The vectors without a NUL. -/
def putVecs (V : Nat) (fv : Vec → Vec) (env : Mem) : Nat → Blk → Nat → Nat →
    Run (Blk × Nat × Nat)
  | 0, _, _, _ => .error .diverge
  | fuel + 1, b, dst, src =>
    let sv := loadu (b.over env) src
    if cmpeq8Mask V sv (setone8 0) = 0#V then do
      let b ← b.write dst (lanes V (fv sv))
      putVecs V fv env fuel b (dst + V) (src + V)
    else .ok (b, dst, src)

/-- `for (; (*s = f(*s)); ++s) {} return s;`, between two buffers. -/
def putBytes (f : UInt8 → UInt8) (env : Mem) : Nat → Blk → Nat → Nat → Run (Blk × Nat)
  | 0, _, _, _ => .error .diverge
  | fuel + 1, b, dst, src => do
    let c := f (b.over env src)
    let b ← b.write dst [c]
    if c = 0 then return (b, dst) else putBytes f env fuel b (dst + 1) (src + 1)

/-- The three loops, aligned on the source. -/
def putEol (V : Nat) (f : UInt8 → UInt8) (fv : Vec → Vec) (env : Mem) (b : Blk) (dst src : Nat) :
    Run (Blk × Nat) := do
  match ← putHead f env (alignUp src V - src) b dst src with
  | .inl r => return r
  | .inr (b, dst, src) =>
    let (b, dst, src) ← putVecs V fv env (sizeMax + 1) b dst src
    putBytes f env (sizeMax + 1) b dst src

end Eol

/-- `jstr_internal_simd_tolowerstr_p`. -/
def simdTolowerstrP (V : Nat) (env : Mem) (b : Blk) (s : Nat) : Run (Blk × Nat) :=
  putEol V tolower tolowerVec env b s s

/-- `jstr_internal_simd_toupperstr_p`. -/
def simdToupperstrP (V : Nat) (env : Mem) (b : Blk) (s : Nat) : Run (Blk × Nat) :=
  putEol V toupper toupperVec env b s s

/-- `jstr_internal_simd_stpcpy`. Its two vector loops differ in the
alignment their stores need, and in nothing else. -/
def simdStpcpy (V : Nat) (env : Mem) (b : Blk) (dst src : Nat) : Run (Blk × Nat) :=
  putEol V id id env b dst src

/-! ## Delimited by a length -/

/-- `for (; off--; ++s) { if (n-- == 0) return; *s = f(*s); }`; on the
left the block when it returns. -/
def caseHead (f : UInt8 → UInt8) : Nat → Blk → Nat → Nat → Run (Blk ⊕ Blk × Nat × Nat)
  | 0, b, s, n => .ok (.inr (b, s, n))
  | off + 1, b, s, n =>
    if n = 0 then .ok (.inl b)
    else do
      let c ← b.read s
      let b ← b.write s [f c]
      caseHead f off b (s + 1) (n - 1)

/-- The vectors that lie in the range. -/
def caseVecs (V : Nat) (fv : Vec → Vec) (env : Mem) : Nat → Blk → Nat → Nat →
    Run (Blk × Nat × Nat)
  | 0, _, _, _ => .error .diverge
  | fuel + 1, b, s, n =>
    if n ≥ V then do
      let sv := loadu (b.over env) s
      let b ← b.write s (lanes V (fv sv))
      caseVecs V fv env fuel b (s + V) (n - V)
    else .ok (b, s, n)

/-- `for (; n--; ++s) *s = f(*s);`. -/
def caseBytes (f : UInt8 → UInt8) : Nat → Blk → Nat → Run Blk
  | 0, b, _ => .ok b
  | n + 1, b, s => do
    let c ← b.read s
    let b ← b.write s [f c]
    caseBytes f n b (s + 1)

/-- The three loops. -/
def caseLen (V : Nat) (f : UInt8 → UInt8) (fv : Vec → Vec) (env : Mem) (b : Blk) (s n : Nat) :
    Run Blk := do
  match ← caseHead f (alignUp s V - s) b s n with
  | .inl b => return b
  | .inr (b, s, n) =>
    let (b, s, n) ← caseVecs V fv env (n + 1) b s n
    caseBytes f n b s

/-- `jstr_internal_simd_tolowerstr_len`. -/
def simdTolowerstrLen (V : Nat) (env : Mem) (b : Blk) (s n : Nat) : Run Blk :=
  caseLen V tolower tolowerVec env b s n

/-- `jstr_internal_simd_toupperstr_len`. -/
def simdToupperstrLen (V : Nat) (env : Mem) (b : Blk) (s n : Nat) : Run Blk :=
  caseLen V toupper toupperVec env b s n

/-! ## The functions over them -/

/-- `JSTR_HAVE_SIMD && defined CMPGT8 && defined CMPLT8`: with 64 lanes
there is no comparison that leaves a vector. -/
def Build.caseSimd (cfg : Build) : Option VecSize :=
  match cfg.haveSimd with
  | some .avx512 => none
  | v => v

/-- `jstr_tolowerstr_p`. -/
def tolowerstrP (cfg : Build) (env : Mem) (b : Blk) (s : Nat) : Run (Blk × Nat) :=
  match cfg.caseSimd with
  | some v => simdTolowerstrP v.bytes env b s
  | none => putBytes tolower env (sizeMax + 1) b s s

/-- `jstr_toupperstr_p`. -/
def toupperstrP (cfg : Build) (env : Mem) (b : Blk) (s : Nat) : Run (Blk × Nat) :=
  match cfg.caseSimd with
  | some v => simdToupperstrP v.bytes env b s
  | none => putBytes toupper env (sizeMax + 1) b s s

/-- `jstr_tolowerstr_len`. -/
def tolowerstrLen (cfg : Build) (env : Mem) (b : Blk) (s n : Nat) : Run Blk :=
  match cfg.caseSimd with
  | some v => simdTolowerstrLen v.bytes env b s n
  | none => caseBytes tolower n b s

/-- `jstr_toupperstr_len`. -/
def toupperstrLen (cfg : Build) (env : Mem) (b : Blk) (s n : Nat) : Run Blk :=
  match cfg.caseSimd with
  | some v => simdToupperstrLen v.bytes env b s n
  | none => caseBytes toupper n b s

/-! ## What is written so far -/

/-- The block with the image of the first `k` bytes of `T` written at `p`. -/
def upTo (f : UInt8 → UInt8) (b : Blk) (p : Nat) (T : Bytes) (k : Nat) : Blk :=
  b.put p ((T.take k).map f)

section UpTo

variable {f : UInt8 → UInt8} {b : Blk} {p k m : Nat} {T : Bytes}

theorem upTo_zero : upTo f b p T 0 = b := Blk.put_nil b p

theorem upTo_length : upTo f b p T T.length = b.put p (T.map f) := by
  rw [upTo, List.take_length]

/-- The next bytes extend it. -/
theorem write_upTo (h : b.InRange p T.length) (hkm : k + m ≤ T.length) :
    Blk.write (upTo f b p T k) (p + k) (((T.drop k).take m).map f) = .ok (upTo f b p T (k + m)) := by
  have hlen : ((T.take k).map f).length = k := by
    rw [List.length_map, List.length_take]
    omega
  have hlen' : (((T.drop k).take m).map f).length = m := by
    rw [List.length_map, List.length_take, List.length_drop]
    omega
  have hput := @Blk.write_put b p ((T.take k).map f) (((T.drop k).take m).map f)
    ⟨h.1, by have := h.2; omega⟩
  rw [hlen] at hput
  rw [upTo, hput, upTo, List.take_add, List.map_append]

theorem write_upTo_one (h : b.InRange p T.length) (hk : k < T.length) {c : UInt8}
    (hc : T[k]? = some c) :
    Blk.write (upTo f b p T k) (p + k) [f c] = .ok (upTo f b p T (k + 1)) := by
  have hone : (T.drop k).take 1 = [c] := by
    rw [List.take_one, List.head?_drop, hc]
    rfl
  have := @write_upTo f b p k 1 T h hk
  rwa [hone] at this

/-- What is still to be read, in place or apart from the block. -/
theorem memAt_upTo {env : Mem} {src : Nat} (h : MemAt (b.over env) src T) (hk : k ≤ T.length)
    (ha : p ≤ src ∨ Apart b src T.length) :
    MemAt (Blk.over env (upTo f b p T k)) (src + k) (T.drop k) := by
  refine memAt_over_put (h.drop hk) ?_
  rw [List.length_map, List.length_take, List.length_drop]
  rcases ha with hle | hlo | hhi
  · left
    omega
  · right
    left
    omega
  · right
    right
    omega

/-- The vector at the cursor, when its lanes lie in the text. -/
theorem lanes_upTo {V : Nat} {fv : Vec → Vec} (hfv : ∀ v i, fv v i = f (v i)) {mem : Mem}
    {src : Nat} (h : MemAt mem (src + k) (T.drop k)) (hV : k + V ≤ T.length) :
    lanes V (fv (loadu mem (src + k))) = ((T.drop k).take V).map f := by
  have hlen : ((T.drop k).take V).length = V := by
    rw [List.length_take, List.length_drop]
    omega
  have hwin := window_of_memAt (h.take V)
  rw [hlen] at hwin
  rw [← hwin, lanes, window, List.map_map]
  exact List.map_congr_left fun i _ => hfv _ i

end UpTo

/-! ## Up to the terminator -/

/-- A string of `l` at `src`, to be written at `dst`: in place, further
down, or from outside the block. -/
structure Puts (f : UInt8 → UInt8) (env : Mem) (b : Blk) (dst src : Nat) (l : Bytes) : Prop where
  text : MemAt (b.over env) src (l ++ [0])
  nonzero : 0 ∉ l
  range : b.InRange dst (l ++ [0]).length
  apart : dst ≤ src ∨ Apart b src (l ++ [0]).length
  zero_iff : ∀ x, f x = 0 ↔ x = 0

section Puts

variable {V : Nat} {f : UInt8 → UInt8} {fv : Vec → Vec} {env : Mem} {b : Blk} {dst src : Nat}
  {l : Bytes}

/-- What is behind the cursor is still the string. -/
theorem Puts.read (h : Puts f env b dst src l) {k i : Nat} (hki : k ≤ i) (hi : i ≤ l.length) :
    (l ++ [0])[i]? = some (Blk.over env (upTo f b dst (l ++ [0]) k) (src + i)) := by
  have hlen : (l ++ [0]).length = l.length + 1 := List.length_append
  have hmem := memAt_upTo (f := f) h.text (k := k) (by omega) h.apart
  have hread := hmem.getElem? (i := i - k) (by rw [List.length_drop]; omega)
  rwa [List.getElem?_drop, Nat.add_assoc, Nat.add_sub_cancel' hki] at hread

theorem Puts.eq_zero_iff (h : Puts f env b dst src l) {k i : Nat} (hki : k ≤ i)
    (hi : i ≤ l.length) : Blk.over env (upTo f b dst (l ++ [0]) k) (src + i) = 0 ↔ i = l.length := by
  have hread := h.read hki hi
  constructor
  · intro hz
    by_contra hne
    rw [hz, List.getElem?_append_left (by omega)] at hread
    exact h.nonzero (List.mem_of_getElem? hread)
  · rintro rfl
    simpa using hread.symm

/-- A byte read, changed and written: it is NUL at the terminator only. -/
theorem Puts.step (h : Puts f env b dst src l) {k : Nat} (hk : k ≤ l.length) :
    Blk.write (upTo f b dst (l ++ [0]) k) (dst + k)
        [f (Blk.over env (upTo f b dst (l ++ [0]) k) (src + k))]
      = .ok (upTo f b dst (l ++ [0]) (k + 1)) ∧
    (f (Blk.over env (upTo f b dst (l ++ [0]) k) (src + k)) = 0 ↔ k = l.length) := by
  have hlt : k < (l ++ [0]).length := by
    rw [List.length_append]
    exact Nat.lt_succ_of_le hk
  exact ⟨write_upTo_one h.range hlt (h.read (Nat.le_refl k) hk),
    (h.zero_iff _).trans (h.eq_zero_iff (Nat.le_refl k) hk)⟩

theorem putHead_spec (h : Puts f env b dst src l) : ∀ (off k : Nat), k ≤ l.length →
    putHead f env off (upTo f b dst (l ++ [0]) k) (dst + k) (src + k)
      = if l.length < k + off then
          .ok (.inl (upTo f b dst (l ++ [0]) (l.length + 1), dst + l.length))
        else .ok (.inr (upTo f b dst (l ++ [0]) (k + off), dst + (k + off), src + (k + off)))
  | 0, k, hk => by
      rw [putHead, if_neg (by omega)]
      rfl
  | off + 1, k, hk => by
      obtain ⟨hwrite, hzero⟩ := h.step hk
      rw [putHead]
      simp only [hwrite, bind, Except.bind, pure, Except.pure]
      by_cases hend : k = l.length
      · rw [if_pos (hzero.mpr hend), if_pos (by omega), hend]
      · rw [if_neg (fun hz => hend (hzero.mp hz))]
        have ih := putHead_spec h off (k + 1) (by omega)
        rw [show k + 1 + off = k + (off + 1) by omega] at ih
        exact ih

/-- A vector without a NUL lies before the terminator. -/
theorem Puts.vec_le (h : Puts f env b dst src l) {k : Nat} (hk : k ≤ l.length)
    (h0 : cmpeq8Mask V (loadu (Blk.over env (upTo f b dst (l ++ [0]) k)) (src + k)) (setone8 0)
      = 0#V) : k + V ≤ l.length := by
  by_contra hlt
  have hbit : (cmpeq8Mask V (loadu (Blk.over env (upTo f b dst (l ++ [0]) k)) (src + k))
      (setone8 0)).getLsbD (l.length - k) = true := by
    have hnul := (h.eq_zero_iff hk (Nat.le_refl l.length)).mpr rfl
    rw [getLsbD_cmpeq8Mask, loadu, setone8, Nat.add_assoc, Nat.add_sub_cancel' hk, hnul,
      decide_eq_true (show l.length - k < V by omega)]
    rfl
  rw [h0] at hbit
  simp at hbit

theorem putVecs_spec (h : Puts f env b dst src l) (hV : 0 < V) (hfv : ∀ v i, fv v i = f (v i)) :
    ∀ (fuel k : Nat), k ≤ l.length → l.length < fuel + k →
    ∃ j ≤ l.length, putVecs V fv env fuel (upTo f b dst (l ++ [0]) k) (dst + k) (src + k)
      = .ok (upTo f b dst (l ++ [0]) j, dst + j, src + j)
  | 0, k, hk, hf => by omega
  | fuel + 1, k, hk, hf => by
      have hlen : (l ++ [0]).length = l.length + 1 := List.length_append
      rw [putVecs]
      by_cases h0 : cmpeq8Mask V (loadu (Blk.over env (upTo f b dst (l ++ [0]) k)) (src + k))
          (setone8 0) = 0#V
      · have hle := h.vec_le hk h0
        have hmem := memAt_upTo (f := f) h.text (k := k) (by omega) h.apart
        simp only [h0, if_true]
        rw [lanes_upTo hfv hmem (by omega), write_upTo h.range (by omega)]
        simp only [bind, Except.bind, Nat.add_assoc]
        exact putVecs_spec h hV hfv fuel (k + V) hle (by omega)
      · simp only [h0, if_false]
        exact ⟨k, hk, rfl⟩

theorem putBytes_spec (h : Puts f env b dst src l) : ∀ (fuel k : Nat), k ≤ l.length →
    l.length < fuel + k →
    putBytes f env fuel (upTo f b dst (l ++ [0]) k) (dst + k) (src + k)
      = .ok (upTo f b dst (l ++ [0]) (l.length + 1), dst + l.length)
  | 0, k, hk, hf => by omega
  | fuel + 1, k, hk, hf => by
      obtain ⟨hwrite, hzero⟩ := h.step hk
      rw [putBytes]
      simp only [hwrite, bind, Except.bind, pure, Except.pure]
      by_cases hend : k = l.length
      · rw [if_pos (hzero.mpr hend), hend]
      · rw [if_neg (fun hz => hend (hzero.mp hz))]
        exact putBytes_spec h fuel (k + 1) (by omega) (by omega)

theorem Puts.map_nul (h : Puts f env b dst src l) :
    upTo f b dst (l ++ [0]) (l.length + 1) = b.put dst (l.map f ++ [0]) := by
  have hlen : (l ++ [0]).length = l.length + 1 := List.length_append
  rw [← hlen, upTo_length, List.map_append, List.map_singleton, (h.zero_iff 0).mpr rfl]

/-- Whatever the alignment: the image of the string is written, and
nothing else. -/
theorem putEol_spec (h : Puts f env b dst src l) (hV : 0 < V) (hfv : ∀ v i, fv v i = f (v i))
    (hl : l.length ≤ sizeMax) :
    putEol V f fv env b dst src = .ok (b.put dst (l.map f ++ [0]), dst + l.length) := by
  have hhead := putHead_spec h (alignUp src V - src) 0 (Nat.zero_le _)
  rw [upTo_zero, Nat.zero_add, Nat.add_zero, Nat.add_zero] at hhead
  rw [putEol, hhead, ← h.map_nul]
  by_cases hshort : l.length < alignUp src V - src
  · rw [if_pos hshort]
    rfl
  · rw [if_neg hshort]
    obtain ⟨j, hj, hvecs⟩ := putVecs_spec h hV hfv (sizeMax + 1) (alignUp src V - src)
      (by omega) (by omega)
    simp only [bind, Except.bind, hvecs]
    exact putBytes_spec h (sizeMax + 1) j hj (by omega)

/-- The byte loop alone does the same. -/
theorem putBytes_eq (h : Puts f env b dst src l) (hl : l.length ≤ sizeMax) :
    putBytes f env (sizeMax + 1) b dst src
      = .ok (b.put dst (l.map f ++ [0]), dst + l.length) := by
  have hrun := putBytes_spec h (sizeMax + 1) 0 (Nat.zero_le _) (by omega)
  rwa [upTo_zero, Nat.add_zero, Nat.add_zero, h.map_nul] at hrun

end Puts

/-! ## Within a length -/

section Len

variable {V : Nat} {f : UInt8 → UInt8} {fv : Vec → Vec} {env : Mem} {b : Blk} {s : Nat} {l : Bytes}

theorem case_step (h : b.At s l) {k : Nat} (hk : k < l.length) :
    ∃ c, Blk.read (upTo f b s l k) (s + k) = .ok c ∧
      Blk.write (upTo f b s l k) (s + k) [f c] = .ok (upTo f b s l (k + 1)) := by
  refine ⟨l[k], Blk.read_eq ?_, write_upTo_one h.inRange hk (List.getElem?_eq_getElem hk)⟩
  have hrest : (upTo f b s l k).At (s + k) (l.drop k) := by
    refine (h.drop (Nat.le_of_lt hk)).put_of_disjoint (.inr ?_)
    rw [List.length_map, List.length_take]
    omega
  rw [List.drop_eq_getElem_cons hk] at hrest
  exact Memory.Block.At.left (l := [l[k]]) hrest

theorem caseHead_spec (h : b.At s l) : ∀ (off k n : Nat), k + n = l.length →
    caseHead f off (upTo f b s l k) (s + k) n
      = if n < off then .ok (.inl (upTo f b s l l.length))
        else .ok (.inr (upTo f b s l (k + off), s + (k + off), n - off))
  | 0, k, n, hk => by
      rw [caseHead, if_neg (Nat.not_lt_zero n)]
      rfl
  | off + 1, k, 0, hk => by
      rw [caseHead, if_pos rfl, if_pos (Nat.succ_pos off), ← hk]
      rfl
  | off + 1, k, n + 1, hk => by
      obtain ⟨c, hread, hwrite⟩ := case_step (f := f) h (show k < l.length by omega)
      rw [caseHead, if_neg (Nat.succ_ne_zero n)]
      simp only [hread, hwrite, bind, Except.bind, Nat.add_assoc]
      rw [Nat.add_sub_cancel, caseHead_spec h off (k + 1) n (by omega)]
      simp only [Nat.add_lt_add_iff_right, Nat.add_sub_add_right,
        show k + 1 + off = k + (off + 1) by omega]

theorem caseVecs_spec (h : b.At s l) (hV : 0 < V) (hfv : ∀ v i, fv v i = f (v i)) :
    ∀ (fuel k n : Nat), k + n = l.length → n < fuel →
    ∃ j m, caseVecs V fv env fuel (upTo f b s l k) (s + k) n = .ok (upTo f b s l j, s + j, m) ∧
      j + m = l.length
  | 0, k, n, hk, hf => by omega
  | fuel + 1, k, n, hk, hf => by
      rw [caseVecs]
      by_cases hn : n ≥ V
      · rw [if_pos hn]
        have hmem := memAt_upTo (f := f) (@memAt_over env b s l h) (k := k) (by omega)
          (.inl (Nat.le_refl s))
        simp only
        rw [lanes_upTo hfv hmem (by omega), write_upTo h.inRange (by omega)]
        simp only [bind, Except.bind, Nat.add_assoc]
        exact caseVecs_spec h hV hfv fuel (k + V) (n - V) (by omega) (by omega)
      · rw [if_neg hn]
        exact ⟨k, n, rfl, hk⟩

theorem caseBytes_spec (h : b.At s l) : ∀ (n k : Nat), k + n = l.length →
    caseBytes f n (upTo f b s l k) (s + k) = .ok (b.put s (l.map f))
  | 0, k, hk => by
      rw [caseBytes, ← upTo_length, ← hk]
      rfl
  | n + 1, k, hk => by
      obtain ⟨c, hread, hwrite⟩ := case_step (f := f) h (show k < l.length by omega)
      rw [caseBytes]
      simp only [hread, hwrite, bind, Except.bind]
      exact caseBytes_spec h n (k + 1) (by omega)

/-- Whatever the alignment: the image of the range is written, and
nothing else. -/
theorem caseLen_spec (h : b.At s l) (hV : 0 < V) (hfv : ∀ v i, fv v i = f (v i)) :
    caseLen V f fv env b s l.length = .ok (b.put s (l.map f)) := by
  have hhead := caseHead_spec (f := f) h (alignUp s V - s) 0 l.length (Nat.zero_add _)
  rw [upTo_zero, Nat.zero_add, Nat.add_zero] at hhead
  rw [caseLen, hhead]
  by_cases hshort : l.length < alignUp s V - s
  · rw [if_pos hshort, upTo_length]
    rfl
  · rw [if_neg hshort]
    obtain ⟨j, m, hvecs, hjm⟩ := @caseVecs_spec V f fv env b s l h hV hfv
      (l.length - (alignUp s V - s) + 1) (alignUp s V - s) (l.length - (alignUp s V - s))
      (by omega) (Nat.lt_succ_self _)
    simp only [bind, Except.bind, hvecs]
    exact caseBytes_spec h m j hjm

theorem caseBytes_eq (h : b.At s l) : caseBytes f l.length b s = .ok (b.put s (l.map f)) := by
  have hrun := caseBytes_spec (f := f) h l.length 0 (Nat.zero_add _)
  rwa [upTo_zero] at hrun

end Len

/-! ## The functions -/

section Functions

variable {V : Nat} {env : Mem} {b : Blk} {s dst src : Nat} {l : Bytes}

/-- A string in the block is changed in place. -/
theorem puts_in_place {f : UInt8 → UInt8} (hf : ∀ x, f x = 0 ↔ x = 0) (env : Mem)
    (h : b.At s (l ++ [0])) (h0 : 0 ∉ l) : Puts f env b s s l :=
  ⟨memAt_over h, h0, h.inRange, .inl (Nat.le_refl s), hf⟩

/-- The terminator written again changes nothing. -/
theorem put_nul {m : Bytes} (h : b.At s (l ++ [0])) (hlen : m.length = l.length) :
    b.put s (m ++ [0]) = b.put s m := by
  have hnul : (b.put s m).At (s + m.length) [0] := by
    rw [hlen]
    exact h.right.put_of_disjoint (.inr (by omega))
  rw [← Memory.Block.put_append, Memory.Block.put_of_at hnul]

theorem putEol_in_place {f : UInt8 → UInt8} {fv : Vec → Vec} (hf : ∀ x, f x = 0 ↔ x = 0)
    (hfv : ∀ v i, fv v i = f (v i)) (hV : 0 < V) (h : b.At s (l ++ [0])) (h0 : 0 ∉ l)
    (hl : l.length ≤ sizeMax) :
    putEol V f fv env b s s = .ok (b.put s (l.map f), s + l.length) := by
  rw [putEol_spec (puts_in_place hf env h h0) hV hfv hl, put_nul h (List.length_map f)]

theorem putBytes_in_place {f : UInt8 → UInt8} (hf : ∀ x, f x = 0 ↔ x = 0)
    (h : b.At s (l ++ [0])) (h0 : 0 ∉ l) (hl : l.length ≤ sizeMax) :
    putBytes f env (sizeMax + 1) b s s = .ok (b.put s (l.map f), s + l.length) := by
  rw [putBytes_eq (puts_in_place hf env h h0) hl, put_nul h (List.length_map f)]

/-- In every build the functions of `ctype.h` do the same. -/
theorem caseStr_spec (cfg : Build) (h : b.At s (l ++ [0])) (h0 : 0 ∉ l)
    (hl : l.length ≤ sizeMax) :
    tolowerstrP cfg env b s = .ok (b.put s (l.map tolower), s + l.length) ∧
      toupperstrP cfg env b s = .ok (b.put s (l.map toupper), s + l.length) := by
  rw [tolowerstrP, toupperstrP]
  cases cfg.caseSimd with
  | some v =>
      exact ⟨putEol_in_place (fun _ => tolower_eq_zero) tolowerVec_lane v.bytes_pos h h0 hl,
        putEol_in_place (fun _ => toupper_eq_zero) toupperVec_lane v.bytes_pos h h0 hl⟩
  | none =>
      exact ⟨putBytes_in_place (fun _ => tolower_eq_zero) h h0 hl,
        putBytes_in_place (fun _ => toupper_eq_zero) h h0 hl⟩

theorem caseStrLen_spec (cfg : Build) (h : b.At s l) :
    tolowerstrLen cfg env b s l.length = .ok (b.put s (l.map tolower)) ∧
      toupperstrLen cfg env b s l.length = .ok (b.put s (l.map toupper)) := by
  rw [tolowerstrLen, toupperstrLen]
  cases cfg.caseSimd with
  | some v =>
      exact ⟨caseLen_spec h v.bytes_pos tolowerVec_lane,
        caseLen_spec h v.bytes_pos toupperVec_lane⟩
  | none => exact ⟨caseBytes_eq h, caseBytes_eq h⟩

/-- `src` is a string outside the block `dst` is in. -/
theorem simdStpcpy_spec (hV : 0 < V) (h : CStr env src l) (ha : Apart b src (l.length + 1))
    (hd : b.InRange dst (l.length + 1)) :
    simdStpcpy V env b dst src = .ok (b.put dst (l ++ [0]), dst + l.length) := by
  have hlen : (l ++ [0]).length = l.length + 1 := List.length_append
  have hnul : MemAt env src (l ++ [0]) := by
    refine memAt_append.mpr ⟨h.bytes, fun i hi => ?_⟩
    rw [List.length_singleton, Nat.lt_one_iff] at hi
    subst hi
    exact h.nul
  have hputs : Puts id env b dst src l :=
    ⟨memAt_over_of_apart hnul (by rwa [hlen]), h.nonzero, by rwa [hlen],
      .inr (by rwa [hlen]), fun _ => Iff.rfl⟩
  have hfits := h.fits
  have hrun := @putEol_spec V id id env b dst src l hputs hV (fun _ _ => rfl) (by omega)
  rwa [List.map_id] at hrun

end Functions

/-- The counting, folding and copying loops of `simd.h`, wherever the
buffers lie and whatever is around them: they count what stands in the
range, write its image and nothing else, and return the terminator. -/
theorem wideLoops_spec (v : VecSize) (env : Mem) :
    (∀ s l c, CStr env s l → simdCountchr v.bytes env s c = .ok (l.count c)) ∧
    (∀ s l c, MemAt env s l → simdCountchrLen v.bytes env s c l.length = .ok (l.count c)) ∧
    (∀ (b : Blk) s l, b.At s l →
      simdTolowerstrLen v.bytes env b s l.length = .ok (b.put s (l.map tolower)) ∧
      simdToupperstrLen v.bytes env b s l.length = .ok (b.put s (l.map toupper))) ∧
    (∀ (b : Blk) s l, b.At s (l ++ [0]) → 0 ∉ l → l.length ≤ sizeMax →
      simdTolowerstrP v.bytes env b s = .ok (b.put s (l.map tolower), s + l.length) ∧
      simdToupperstrP v.bytes env b s = .ok (b.put s (l.map toupper), s + l.length)) ∧
    (∀ (b : Blk) dst src l, CStr env src l → Apart b src (l.length + 1) →
      b.InRange dst (l.length + 1) →
      simdStpcpy v.bytes env b dst src = .ok (b.put dst (l ++ [0]), dst + l.length)) := by
  refine ⟨fun s l c h => ?_, fun s l c h => ?_, fun b s l h => ?_, fun b s l h h0 hl => ?_,
    fun b dst src l h ha hd => simdStpcpy_spec v.bytes_pos h ha hd⟩
  · have hfits := h.fits
    rw [simdCountchr_spec v.bytes_pos h.endsIn (by omega), window_of_memAt h.bytes]
  · rw [simdCountchrLen_spec v.bytes_pos, window_of_memAt h]
  · exact ⟨caseLen_spec h v.bytes_pos tolowerVec_lane,
      caseLen_spec h v.bytes_pos toupperVec_lane⟩
  · exact ⟨putEol_in_place (fun _ => tolower_eq_zero) tolowerVec_lane v.bytes_pos h h0 hl,
      putEol_in_place (fun _ => toupper_eq_zero) toupperVec_lane v.bytes_pos h h0 hl⟩

/-- "Ab" made lower case at an aligned address, "a" copied behind it. -/
theorem wideLoops_spec_ab :
    simdTolowerstrP 16 (memOf [97]) ⟨64, [65, 98, 0, 7, 7]⟩ 64
        = .ok (⟨64, [97, 98, 0, 7, 7]⟩, 66) ∧
      simdStpcpy 16 (memOf [97]) ⟨64, [65, 98, 0, 7, 7]⟩ 67 0
        = .ok (⟨64, [65, 98, 0, 97, 0]⟩, 68) := by
  obtain ⟨-, -, -, hlow, hcpy⟩ := wideLoops_spec .sse2 (memOf [97])
  refine ⟨(hlow ⟨64, [65, 98, 0, 7, 7]⟩ 64 [65, 98] ?_ (by decide) (by decide)).1,
    hcpy ⟨64, [65, 98, 0, 7, 7]⟩ 67 0 [97] ⟨by decide, by decide, by decide, by decide⟩
      (.inl (by decide)) (by decide)⟩
  exact ⟨by decide, by decide⟩

end Jstr
