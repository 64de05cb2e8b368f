import Jstring.Builder
import Jstring.Libc

/-!
# Binary files

`jstr_io_isbinary`, `jstr_io_isbinary_atleast`, `jstr_io_isbinary_maybe` and
`jstr_isbinary` of `include/io.h`. The first three ask for a signature before
they look at the bytes: an ELF header is binary, and what begins with a byte
order mark is not, whatever follows. Past that they look for a NUL, in the
whole file or in the first `n` bytes, or for a byte that is not printable, in
the first 64.

`isbinary_verdicts` says what all four return on a string that has been read.
A file that `jstr_io_isbinary` lets pass is one that the functions for C
strings see to its end, unless it begins with a byte order mark.
-/

namespace Jstr

/-! ## The functions -/

/-- `check_utf` of `jstr_internal_io_isbinarysignature`. -/
def checkUtf (mem : Mem) (p : Nat) : Int :=
  if mem p = 239 ∧ mem (p + 1) = 187 ∧ mem (p + 2) = 191 then 0 else -1

/-- `jstr_internal_io_isbinarysignature`. -/
def isbinarysignature (mem : Mem) (buf sz : Nat) : Int :=
  if sz ≥ 4 then
    if mem buf = 127 ∧ mem (buf + 1) = 69 ∧ mem (buf + 2) = 76 ∧ mem (buf + 3) = 70 then 1
    else checkUtf mem buf
  else if sz = 3 then checkUtf mem buf
  else -1

/-- `(*s < ' ' && (*s != '\t' && *s != '\n')) || *s == 127`, where a form feed is binary. -/
def unprintable (c : UInt8) : Bool := (decide (c < 32) && (c != 9 && c != 10)) || c == 127

/-- `for (; sz--; ++s) if (...) return 1; return 0;`. -/
def unprintableLoop (mem : Mem) : Nat → Nat → Int
  | 0, _ => 0
  | sz + 1, s => if unprintable (mem s) then 1 else unprintableLoop mem sz (s + 1)

/-- `JSTR_IO_BINARY_CHECK_MAX`. -/
def binaryCheckMax : Nat := 64

/-- `jstr_io_isbinary_maybe`. -/
def ioIsbinaryMaybe (mem : Mem) (buf sz : Nat) : Int :=
  if sz = 0 then 0
  else
    let ret := isbinarysignature mem buf sz
    if ret ≠ -1 then ret else unprintableLoop mem (min sz binaryCheckMax) buf

/-- `jstr_io_isbinary`. -/
def ioIsbinary (mem : Mem) (buf sz : Nat) : Run Int :=
  let ret := isbinarysignature mem buf sz
  if ret ≠ -1 then .ok ret
  else do
    let n ← strlen mem buf
    return if n ≠ sz then 1 else 0

/-- `jstr_io_isbinary_atleast`. -/
def ioIsbinaryAtleast (mem : Mem) (buf sz n : Nat) : Int :=
  let ret := isbinarysignature mem buf sz
  if ret ≠ -1 then ret
  else
    match memchr mem buf 0 (min n sz) with
    | some _ => 1
    | none => 0

/-- `jstr_isbinary`. -/
def isbinary (mem : Mem) (buf sz n : Nat) : Int :=
  if sz = 0 then 0 else unprintableLoop mem (min n sz) buf

/-! ## What they say of a text -/

/-- `"\x7FELF"`. -/
def elf : Bytes := [127, 69, 76, 70]

/-- The byte order mark of UTF-8. -/
def bom : Bytes := [239, 187, 191]

/-- A signature decides, else the bytes. -/
def verdict (l : Bytes) (P : Prop) [Decidable P] : Int :=
  if elf <+: l then 1 else if bom <+: l then 0 else if P then 1 else 0

section Text

variable {mem : Mem} {buf : Nat} {l : Bytes}

theorem checkUtf_eq (h : MemAt mem buf l) (hlen : 3 ≤ l.length) :
    checkUtf mem buf = if bom <+: l then 0 else -1 := by
  obtain ⟨a, b, c, r, rfl⟩ : ∃ a b c r, l = a :: b :: c :: r := by
    match l, hlen with
    | a :: b :: c :: r, _ => exact ⟨a, b, c, r, rfl⟩
  have h0 : mem buf = a := h 0 (by simp)
  have h1 : mem (buf + 1) = b := h 1 (by simp)
  have h2 : mem (buf + 2) = c := h 2 (by simp)
  rw [checkUtf, h0, h1, h2, bom]
  refine if_congr ?_ rfl rfl
  simp only [List.cons_prefix_cons, List.nil_prefix, and_true, eq_comm]

theorem elf_iff (h : MemAt mem buf l) (hlen : 4 ≤ l.length) :
    (mem buf = 127 ∧ mem (buf + 1) = 69 ∧ mem (buf + 2) = 76 ∧ mem (buf + 3) = 70)
      ↔ elf <+: l := by
  obtain ⟨a, b, c, d, r, rfl⟩ : ∃ a b c d r, l = a :: b :: c :: d :: r := by
    match l, hlen with
    | a :: b :: c :: d :: r, _ => exact ⟨a, b, c, d, r, rfl⟩
  have h0 : mem buf = a := h 0 (by simp)
  have h1 : mem (buf + 1) = b := h 1 (by simp)
  have h2 : mem (buf + 2) = c := h 2 (by simp)
  have h3 : mem (buf + 3) = d := h 3 (by simp)
  rw [h0, h1, h2, h3, elf]
  simp only [List.cons_prefix_cons, List.nil_prefix, and_true, eq_comm]

/-- The signature: of four bytes, of three, or of neither. -/
theorem isbinarysignature_eq (h : MemAt mem buf l) :
    isbinarysignature mem buf l.length = if elf <+: l then 1 else if bom <+: l then 0 else -1 := by
  have helf : elf <+: l → 4 ≤ l.length := List.IsPrefix.length_le
  have hbom : bom <+: l → 3 ≤ l.length := List.IsPrefix.length_le
  rw [isbinarysignature]
  by_cases h4 : l.length ≥ 4
  · rw [if_pos h4, checkUtf_eq h (by omega)]
    exact if_congr (elf_iff h h4) rfl rfl
  · rw [if_neg h4, if_neg fun hp => h4 (helf hp)]
    by_cases h3 : l.length = 3
    · rw [if_pos h3, checkUtf_eq h (by omega)]
    · rw [if_neg h3, if_neg fun hp => h3 (by have := hbom hp; omega)]

/-- A test behind the signature. -/
theorem verdict_eq {P : Prop} [Decidable P] (h : MemAt mem buf l) :
    (let ret := isbinarysignature mem buf l.length
      if ret ≠ -1 then ret else if P then 1 else 0) = verdict l P := by
  simp only [isbinarysignature_eq h, verdict]
  by_cases helf : elf <+: l
  · simp only [if_pos helf]
    rfl
  · by_cases hbom : bom <+: l
    · simp only [if_neg helf, if_pos hbom]
      rfl
    · simp only [if_neg helf, if_neg hbom]
      rfl

theorem unprintableLoop_eq : ∀ {l : Bytes} {s : Nat}, MemAt mem s l →
    unprintableLoop mem l.length s = if l.any unprintable then 1 else 0
  | [], _, _ => rfl
  | c :: l, s, h => by
      have hc : mem s = c := h 0 (by simp)
      have hrest : MemAt mem (s + 1) l := h.drop (n := 1) (by simp)
      rw [List.length_cons, unprintableLoop, hc, List.any_cons, unprintableLoop_eq hrest]
      cases unprintable c <;> rfl

/-- Looking for a NUL in front of the terminator. -/
theorem strlen_ne_iff (h : MemAt mem buf (l ++ [0])) (hfit : buf + l.length ≤ sizeMax) :
    ∃ n, strlen mem buf = .ok n ∧ (n ≠ l.length ↔ 0 ∈ l) := by
  by_cases h0 : 0 ∈ l
  · obtain ⟨a, r, rfl, ha⟩ := List.eq_append_cons_of_mem h0
    rw [List.append_assoc, memAt_append, List.cons_append] at h
    rw [List.length_append, List.length_cons] at hfit
    have hstr : CStr mem buf a := ⟨h.1, ha, h.2 0 (Nat.succ_pos _), by omega⟩
    refine ⟨_, hstr.strlen_eq, iff_of_true ?_ h0⟩
    rw [List.length_append, List.length_cons]
    omega
  · rw [memAt_append] at h
    have hstr : CStr mem buf l := ⟨h.1, h0, h.2 0 Nat.one_pos, hfit⟩
    exact ⟨_, hstr.strlen_eq, iff_of_false (fun hne => hne rfl) h0⟩

theorem memchr_eq_none_iff (h : MemAt mem buf l) (c : UInt8) :
    memchr mem buf c l.length = none ↔ c ∉ l := by
  rw [memchr_eq_search h, Option.map_eq_none_iff]
  refine ⟨Words.not_mem_of_search_none, fun hc => Words.search_eq_none_iff.mpr fun i hi => hc ?_⟩
  exact List.mem_of_getElem? (hi.2 0 Nat.one_pos)

end Text

/-- What the four return on a string, and what it means if `jstr_io_isbinary` says 0. -/
theorem isbinary_verdicts {env : Mem} {j : JstrTy} {b : Blk} {l : Bytes} (hs : Str j l)
    (hd : j.data = some b) (haddr : b.addr + b.size ≤ sizeMax) :
    ioIsbinary (b.over env) b.addr j.size = .ok (verdict l (0 ∈ l)) ∧
      (∀ n, ioIsbinaryAtleast (b.over env) b.addr j.size n = verdict l (0 ∈ l.take n)) ∧
      ioIsbinaryMaybe (b.over env) b.addr j.size
        = verdict l ((l.take binaryCheckMax).any unprintable) ∧
      (∀ n, isbinary (b.over env) b.addr j.size n = if (l.take n).any unprintable then 1 else 0) ∧
      (ioIsbinary (b.over env) b.addr j.size = .ok 0 → ¬bom <+: l → CStr (b.over env) b.addr l) := by
  obtain ⟨b', hd', hcap, hsize, hat⟩ := hs
  obtain rfl : b = b' := Option.some.inj (hd.symm.trans hd')
  have hin := hat.inRange.2
  rw [List.length_append, List.length_singleton] at hin
  have hmem := @memAt_over env b _ _ hat
  have hl : MemAt (b.over env) b.addr l := (memAt_append.mp hmem).1
  have hlen : ∀ n, (l.take n).length = min n l.length := fun n => List.length_take
  have hloop : ∀ n, unprintableLoop (b.over env) (min n l.length) b.addr
      = if (l.take n).any unprintable then 1 else 0 := by
    intro n
    rw [← hlen n, unprintableLoop_eq (hl.take n)]
  have hbinary : ioIsbinary (b.over env) b.addr l.length = .ok (verdict l (0 ∈ l)) := by
    obtain ⟨n, hn, hne⟩ := strlen_ne_iff hmem (by omega)
    rw [← verdict_eq hl]
    simp only [ioIsbinary, hn, bind, Except.bind]
    split
    · rfl
    · exact congrArg _ (if_congr hne rfl rfl)
  rw [hsize]
  refine ⟨hbinary, fun n => ?_, ?_, fun n => ?_, fun hzero hbom => ?_⟩
  · have hnone := memchr_eq_none_iff (hl.take n) 0
    rw [hlen] at hnone
    rw [← verdict_eq hl]
    simp only [ioIsbinaryAtleast]
    refine if_congr Iff.rfl rfl ?_
    by_cases h0 : 0 ∈ l.take n
    · obtain ⟨p, hp⟩ := Option.ne_none_iff_exists'.mp fun h => hnone.mp h h0
      rw [if_pos h0, hp]
    · rw [if_neg h0, hnone.mpr h0]
  · by_cases h0 : l.length = 0
    · rw [ioIsbinaryMaybe, if_pos h0, List.eq_nil_of_length_eq_zero h0]
      rfl
    · rw [ioIsbinaryMaybe, if_neg h0, ← verdict_eq hl, Nat.min_comm, hloop]
  · by_cases h0 : l.length = 0
    · rw [isbinary, if_pos h0, List.eq_nil_of_length_eq_zero h0, List.take_nil]
      rfl
    · rw [isbinary, if_neg h0, hloop]
  · rw [hbinary, Except.ok.injEq, verdict] at hzero
    refine cstr_over hat (fun h0 => ?_) (by omega)
    rw [if_neg hbom, if_pos h0] at hzero
    split at hzero
    · cases hzero
    · cases hzero

/-- "a", a NUL and "b". -/
theorem isbinary_verdicts_nul :
    ioIsbinary (Blk.over (memOf []) ⟨64, [97, 0, 98, 0]⟩) 64 3
        = .ok (verdict [97, 0, 98] (0 ∈ ([97, 0, 98] : Bytes))) ∧
      ioIsbinaryMaybe (Blk.over (memOf []) ⟨64, [97, 0, 98, 0]⟩) 64 3
        = verdict [97, 0, 98] ((([97, 0, 98] : Bytes).take binaryCheckMax).any unprintable) := by
  have hs : Str ⟨some ⟨64, [97, 0, 98, 0]⟩, 3, 4⟩ [97, 0, 98] :=
    ⟨_, rfl, rfl, rfl, by decide, by decide⟩
  obtain ⟨h, -, hmaybe, -⟩ := @isbinary_verdicts (memOf []) _ _ _ hs rfl (by decide)
  exact ⟨h, hmaybe⟩

end Jstr
