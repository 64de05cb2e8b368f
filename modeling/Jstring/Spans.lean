import Jstring.Memrchr
import Jstring.Libc
import Jstring.Atoi
import Jstring.Lib.Bitset

/-!
# Spans of a byte set

`jstr_memspn`, `jstr_memcspn`, `jstr_strrcspn_len` of `include/string.h` with
their loops in `include/internal/musl/stdstring.h`, and what is built on
them: `jstr_mempbrk`, `jstr_strrpbrk_len`, `jstr_strrpbrk`. The set is a C
string. An empty one and one of a single byte take paths of their own, a
larger one is put into a set of 256 bits (`addBytes_spec`).

- `memspn` is right except on some one-byte sets, whose loop has no bound
  and compares with a signed byte; `memcspn` is right except on an empty
  set over an array with a NUL (`memspn_memcspn_right_iff`);
- `mempbrk` reads the byte behind the array when there is no match;
  `strrpbrk` takes a length counted from the front for one counted from
  the back (`pbrk_right_iff`).
-/

namespace Jstr

open Words Bits

/-! ## The loops -/

/-- `size_t byteset[32 / sizeof(size_t)]`. -/
abbrev Byteset := Bitset 64 4

/-- A byte as a number of the set. -/
def byteNo (b : UInt8) : Fin (4 * 64) := ⟨b.toNat, b.toNat_lt⟩

/-- `BITOP(byteset, b, &)`. -/
def Byteset.has (byteset : Byteset) (b : UInt8) : Bool := byteset.mem (byteNo b)

/-- `for (; *c && BITOP(byteset, *c, |=); c++) {}`. -/
def addBytes (mem : Mem) : Nat → Nat → Byteset → Run Byteset
  | 0, _, _ => .error .diverge
  | fuel + 1, c, byteset =>
    if mem c = 0 then .ok byteset
    else
      let byteset := byteset.insert (byteNo (mem c))
      if byteset.word (byteNo (mem c)) = 0#64 then .ok byteset
      else addBytes mem fuel (c + 1) byteset

/-- `for (; n-- && hit(*p); p++) {}`: where `p` stops. -/
def spnLoop (hit : UInt8 → Bool) (mem : Mem) : Nat → Nat → Nat
  | 0, p => p
  | n + 1, p => if hit (mem p) then spnLoop hit mem n (p + 1) else p

/-- `for (; n && hit(*p); n--, p--) {} return n;` with `p` at `s + n - 1`. -/
def rspnLoop (hit : UInt8 → Bool) (mem : Mem) (s : Nat) : Nat → Nat
  | 0 => 0
  | n + 1 => if hit (mem (s + n)) then rspnLoop hit mem s n else n + 1

/-- `jstr_internal_memspn_musl`. With a one-byte set the bytes of the array are
unsigned and that of the set is not. -/
def memspnMusl (mem : Mem) (s c n : Nat) : Run Nat :=
  if mem c = 0 then .ok 0
  else if mem (c + 1) = 0 then do
    let p ← scan (fun x => (x.toNat : Int) != schar (mem c)) mem (sizeMax + 1) s
    return p - s
  else do
    let byteset ← addBytes mem (sizeMax + 1) c Bitset.empty
    return spnLoop byteset.has mem n s - s

/-- `jstr_internal_memcspn_musl`. -/
def memcspnMusl (mem : Mem) (s c n : Nat) : Run Nat :=
  if mem c = 0 ∨ mem (c + 1) = 0 then
    match memchr mem s (mem c) n with
    | some p => .ok (p - s)
    | none => .ok n
  else do
    let byteset ← addBytes mem (sizeMax + 1) c Bitset.empty
    return spnLoop (fun x => !byteset.has x) mem n s - s

/-- The `memrchr` of `jstr_internal_memrcspn_musl`. -/
def memrcspnMemrchr (cfg : Build) (mem : Mem) (s : Nat) (c : UInt8) (n : Nat) :
    Run (Option Nat) :=
  if cfg.haveMemrchr then .ok (libcMemrchr mem s c n)
  else
    match cfg.haveSimd with
    | some v => simdMemrchr v.bytes mem s c n
    | none => .ok (memrchrMusl cfg mem s c n)

/-- `jstr_internal_memrcspn_musl`. -/
def memrcspnMusl (cfg : Build) (mem : Mem) (s c n : Nat) : Run Nat :=
  if mem c = 0 then .ok n
  else if mem (c + 1) = 0 then do
    let p ← memrcspnMemrchr cfg mem s (mem c) n
    return match p with
      | some p => p - s + 1
      | none => 0
  else do
    let byteset ← addBytes mem (sizeMax + 1) c Bitset.empty
    return rspnLoop (fun x => !byteset.has x) mem s n

/-- `jstr_memspn`. -/
def memspn (mem : Mem) (s accept sz : Nat) : Run Nat := memspnMusl mem s accept sz

/-- `jstr_memcspn`. -/
def memcspn (mem : Mem) (s reject sz : Nat) : Run Nat := memcspnMusl mem s reject sz

/-- `jstr_strrcspn_len`. -/
def strrcspnLen (cfg : Build) (mem : Mem) (s reject sz : Nat) : Run Nat :=
  memrcspnMusl cfg mem s reject sz

/-- `jstr_mempbrk`. -/
def mempbrk (mem : Mem) (s accept sz : Nat) : Run (Option Nat) := do
  let len ← memcspn mem s accept sz
  let p := s + len
  return if mem p ≠ 0 then some p else none

/-- `jstr_strrpbrk_len`. -/
def strrpbrkLen (cfg : Build) (mem : Mem) (s accept sz : Nat) : Run (Option Nat) := do
  let len ← strrcspnLen cfg mem s accept sz
  return if len ≠ sz then some (s + sz - len) else none

/-- `jstr_strrpbrk`. -/
def strrpbrk (cfg : Build) (mem : Mem) (s accept : Nat) : Run (Option Nat) := do
  let sz ← strlen mem s
  strrpbrkLen cfg mem s accept sz

/-! ## What the loops compute -/

variable {mem : Mem} {s a : Nat} {l cs : Bytes}

theorem byteNo_beq (x y : UInt8) : (byteNo x == byteNo y) = (x == y) := by
  rw [Bool.eq_iff_iff, beq_iff_eq, beq_iff_eq]
  constructor
  · intro h
    exact UInt8.toNat_inj.mp (congrArg Fin.val h)
  · rintro rfl
    rfl

/-- The bytes of the string come to those already in the set. -/
theorem addBytes_from : ∀ {cs : Bytes} {fuel c : Nat} (byteset : Byteset), CStr mem c cs →
    cs.length < fuel → ∃ byteset', addBytes mem fuel c byteset = .ok byteset' ∧
      ∀ x, byteset'.has x = (byteset.has x || decide (x ∈ cs))
  | _, 0, _, _, _, hf => absurd hf (Nat.not_lt_zero _)
  | [], fuel + 1, c, byteset, h, _ => by
      have hnul : mem c = 0 := h.nul
      refine ⟨byteset, ?_, fun x => by simp⟩
      rw [addBytes, if_pos hnul]
  | b :: cs, fuel + 1, c, byteset, h, hf => by
      have hb := h.head
      obtain ⟨byteset', hr, hhas⟩ := addBytes_from (byteset.insert (byteNo b)) h.tail
        (Nat.lt_of_succ_lt_succ hf)
      refine ⟨byteset', ?_, fun x => ?_⟩
      · have hword := Bitset.word_insert_self_ne_zero byteset (byteNo (mem c))
        rw [addBytes, if_neg (hb ▸ h.head_ne)]
        refine (if_neg hword).trans ?_
        rw [hb, hr]
      · rw [hhas, Byteset.has, Bitset.mem_insert, byteNo_beq, Bool.or_assoc, ← Byteset.has]
        congr 1
        rw [Bool.eq_iff_iff]
        simp only [Bool.or_eq_true, beq_iff_eq, decide_eq_true_eq, List.mem_cons, @eq_comm _ b x]

/-- The set of bits is the set of bytes. -/
theorem addBytes_spec (h : CStr mem a cs) :
    ∃ byteset, addBytes mem (sizeMax + 1) a Bitset.empty = .ok byteset ∧
      ∀ x, byteset.has x = decide (x ∈ cs) := by
  have hfits := h.fits
  obtain ⟨byteset, hr, hhas⟩ := addBytes_from Bitset.empty h (show cs.length < sizeMax + 1 by omega)
  exact ⟨byteset, hr, fun x => by rw [hhas, Byteset.has, Bitset.mem_empty, Bool.false_or]⟩

theorem spnLoop_eq (hit : UInt8 → Bool) : ∀ {l : Bytes} {p : Nat}, MemAt mem p l →
    spnLoop hit mem l.length p = p + (l.takeWhile hit).length
  | [], _, _ => rfl
  | b :: l, p, h => by
      have hb : mem p = b := h 0 (Nat.succ_pos _)
      rw [List.length_cons, spnLoop, hb, List.takeWhile_cons]
      by_cases hit' : hit b = true
      · rw [if_pos hit', if_pos hit', spnLoop_eq hit (show MemAt mem (p + 1) l from
          h.drop (Nat.succ_pos _)), List.length_cons]
        omega
      · rw [if_neg hit', if_neg hit']
        rfl

theorem memchr_getD_eq (c : UInt8) : ∀ {l : Bytes} {p : Nat}, MemAt mem p l →
    (memchr mem p c l.length).getD (p + l.length) = p + (l.takeWhile (· ≠ c)).length
  | [], _, _ => rfl
  | b :: l, p, h => by
      have hb : mem p = b := h 0 (Nat.succ_pos _)
      rw [List.length_cons, memchr, hb, List.takeWhile_cons]
      by_cases hbc : b = c
      · simp [hbc]
      · have hrest := memchr_getD_eq c (show MemAt mem (p + 1) l from h.drop (Nat.succ_pos _))
        rw [Nat.add_assoc, Nat.add_comm 1] at hrest
        rw [if_neg hbc, hrest, if_pos (by simpa using hbc), List.length_cons]
        omega

/-- Down to the last byte that is no hit. -/
theorem rspnLoop_rightmost (hit : UInt8 → Bool) (mem : Mem) (s : Nat) : ∀ n : Nat,
    ∃ r, rspnLoop hit mem s n = r.elim 0 (· + 1) ∧
      Rightmost (fun i => i < n ∧ hit (mem (s + i)) = false) r
  | 0 => ⟨none, rfl, fun i h => absurd h.1 (Nat.not_lt_zero i)⟩
  | n + 1 => by
      rw [rspnLoop]
      cases hit' : hit (mem (s + n)) with
      | false =>
          refine ⟨some n, ?_, ⟨Nat.lt_succ_self n, hit'⟩, fun j hj h => ?_⟩
          · rw [if_neg Bool.false_ne_true]
            rfl
          · have := h.1
            omega
      | true =>
          obtain ⟨r, hr, hright⟩ := rspnLoop_rightmost hit mem s n
          refine ⟨r, by rw [if_pos rfl, hr], hright.congr fun i => ?_⟩
          constructor
          · exact fun h => ⟨Nat.lt_succ_of_lt h.1, h.2⟩
          · rintro ⟨hi, hmiss⟩
            refine ⟨?_, hmiss⟩
            rcases Nat.lt_or_eq_of_le (Nat.le_of_lt_succ hi) with hlt | rfl
            · exact hlt
            · rw [hit'] at hmiss
              cases hmiss

/-! ## Spans -/

/-- The length of the longest prefix made of bytes in `cs`. -/
def spn (cs l : Bytes) : Nat := (l.takeWhile (· ∈ cs)).length

/-- The length of the longest prefix made of bytes not in `cs`. -/
def cspn (cs l : Bytes) : Nat := (l.takeWhile (· ∉ cs)).length

theorem spn_le (cs l : Bytes) : spn cs l ≤ l.length := (List.takeWhile_prefix _).length_le

theorem cspn_le (cs l : Bytes) : cspn cs l ≤ l.length := (List.takeWhile_prefix _).length_le

/-- An array without a byte of the set. -/
theorem cspn_eq_length {cs : Bytes} : ∀ {l : Bytes}, (∀ x ∈ l, x ∉ cs) → cspn cs l = l.length
  | [], _ => rfl
  | b :: l, h => by
      have hrest := cspn_eq_length fun x hx => h x (List.mem_cons_of_mem b hx)
      rw [cspn, List.takeWhile_cons, if_pos (by simpa using h b List.mem_cons_self),
        List.length_cons, ← cspn, hrest, List.length_cons]

/-- An array in memory and a string that is read as a set. Nothing is at
the null pointer. -/
structure Given (mem : Mem) (s : Nat) (l : Bytes) (a : Nat) (cs : Bytes) : Prop where
  bytes : MemAt mem s l
  pos : 0 < s
  fits : s + l.length ≤ sizeMax
  set : CStr mem a cs

/-- The set stands right behind the array. -/
theorem given_adjacent (h0 : 0 ∉ cs) (hfit : l.length + cs.length < sizeMax) :
    Given (memOf (0 :: (l ++ cs))) 1 l (1 + l.length) cs where
  bytes := fun i hi => by
    simp [memOf, Nat.add_comm 1 i, List.getElem?_append_left hi, List.getElem?_eq_getElem hi]
  pos := Nat.one_pos
  fits := by omega
  set :=
    { bytes := fun i hi => by
        rw [show 1 + l.length + i = l.length + i + 1 by omega]
        simp [memOf, hi]
      nonzero := h0
      nul := by
        rw [show 1 + l.length + cs.length = l.length + cs.length + 1 by omega]
        simp [memOf]
      fits := by omega }

/-- The three paths tell the sets apart by their length. -/
theorem Given.set_cases (h : Given mem s l a cs) :
    (cs = [] ∧ mem a = 0) ∨ (∃ c, cs = [c] ∧ mem a = c ∧ c ≠ 0 ∧ mem (a + 1) = 0) ∨
      (2 ≤ cs.length ∧ mem a ≠ 0 ∧ mem (a + 1) ≠ 0) := by
  cases cs with
  | nil => exact .inl ⟨rfl, h.set.nul⟩
  | cons c cs =>
      have hne : mem a ≠ 0 := h.set.head ▸ h.set.head_ne
      cases cs with
      | nil => exact .inr (.inl ⟨c, rfl, h.set.head, h.set.head_ne, h.set.nul⟩)
      | cons d cs => exact .inr (.inr ⟨by simp, hne, h.set.tail.head ▸ h.set.tail.head_ne⟩)

/-- A set that is not of one byte. -/
theorem Given.memspn_eq (h : Given mem s l a cs) (hlen : cs.length ≠ 1) :
    memspn mem s a l.length = .ok (spn cs l) := by
  rw [memspn, memspnMusl]
  rcases h.set_cases with ⟨rfl, ha⟩ | ⟨c, rfl, -⟩ | ⟨-, ha, ha'⟩
  · rw [if_pos ha, spn]
    cases l <;> simp
  · exact absurd rfl hlen
  · obtain ⟨byteset, hr, hhas⟩ := addBytes_spec h.set
    rw [if_neg ha, if_neg ha', hr]
    simp only [bind, Except.bind, pure, Except.pure]
    rw [spnLoop_eq _ h.bytes, Nat.add_sub_cancel_left, funext hhas, spn]

/-- The array is compared with one byte up to the first difference, behind
its end if there is none inside. -/
theorem Given.memspn_one {c : UInt8} (h : Given mem s l a [c]) :
    memspn mem s a l.length = (do
      let p ← scan (fun x => (x.toNat : Int) != schar c) mem (sizeMax + 1) s
      return p - s) := by
  rcases h.set_cases with ⟨hnil, -⟩ | ⟨d, hd, ha, hne, ha'⟩ | ⟨hlen, -⟩
  · cases hnil
  · cases hd
    rw [memspn, memspnMusl, ha, if_neg hne, if_pos ha']
  · simp at hlen

/-- The bytes an empty set stops at: there the terminator of the set is
searched for. -/
def stopSet (cs : Bytes) : Bytes := if cs = [] then [0] else cs

theorem Given.memcspn_eq (h : Given mem s l a cs) :
    memcspn mem s a l.length = .ok (cspn (stopSet cs) l) := by
  have hone : ∀ c, mem a = c → (mem a = 0 ∨ mem (a + 1) = 0) →
      memcspn mem s a l.length = .ok (cspn [c] l) := by
    intro c hc hstop
    have hspan := memchr_getD_eq c h.bytes
    rw [memcspn, memcspnMusl, if_pos hstop, hc]
    simp only [cspn, List.mem_singleton]
    cases hr : memchr mem s c l.length with
    | none =>
        rw [hr, Option.getD_none] at hspan
        exact congrArg Except.ok (Nat.add_left_cancel hspan)
    | some p =>
        rw [hr, Option.getD_some] at hspan
        exact congrArg Except.ok (by rw [hspan, Nat.add_sub_cancel_left])
  rw [stopSet]
  rcases h.set_cases with ⟨rfl, ha⟩ | ⟨c, rfl, ha, hne, ha'⟩ | ⟨hlen, ha, ha'⟩
  · exact hone 0 ha (.inl ha)
  · exact hone c ha (.inr ha')
  · obtain ⟨byteset, hr, hhas⟩ := addBytes_spec h.set
    have hnil : cs ≠ [] := by
      rintro rfl
      simp at hlen
    rw [memcspn, memcspnMusl, if_neg (by simp [ha, ha']), if_neg hnil, hr]
    simp only [bind, Except.bind, pure, Except.pure]
    rw [spnLoop_eq _ h.bytes, Nat.add_sub_cancel_left, cspn]
    simp only [hhas, decide_not]

/-! ## When the spans are right -/

/-- What stops a prefix: every byte in it is a hit, the byte behind it is
not. -/
theorem takeWhile_stop (hit : UInt8 → Bool) : ∀ l : Bytes,
    (∀ i x, i < (l.takeWhile hit).length → l[i]? = some x → hit x = true) ∧
      ∀ x, l[(l.takeWhile hit).length]? = some x → hit x = false
  | [] => ⟨fun i x hi => absurd hi (Nat.not_lt_zero i), fun x hx => by simp at hx⟩
  | b :: l => by
      obtain ⟨hin, hstop⟩ := takeWhile_stop hit l
      rw [List.takeWhile_cons]
      cases hb : hit b with
      | false =>
          refine ⟨fun i x hi => absurd hi (Nat.not_lt_zero i), fun x hx => ?_⟩
          cases hx
          exact hb
      | true =>
          refine ⟨fun i x hi hx => ?_, fun x hx => hstop x hx⟩
          cases i with
          | zero =>
              cases hx
              exact hb
          | succ i => exact hin i x (Nat.lt_of_succ_lt_succ hi) hx

/-- An unsigned byte against a signed one. -/
theorem toNat_eq_schar {x c : UInt8} : (x.toNat : Int) = schar c ↔ c.toNat < 128 ∧ x = c := by
  have hc := c.toNat_lt
  rw [schar, ← UInt8.toNat_inj]
  split <;> omega

/-- `jstr_memspn` is right on every array `l` and set `cs`, wherever they lie
and whatever else is in memory. -/
def MemspnRight (l cs : Bytes) : Prop :=
  ∀ mem s a, Given mem s l a cs → memspn mem s a l.length = .ok (spn cs l)

/-- `jstr_memcspn` is right on every array `l` and set `cs`. -/
def MemcspnRight (l cs : Bytes) : Prop :=
  ∀ mem s a, Given mem s l a cs → memcspn mem s a l.length = .ok (cspn cs l)

/-- The unbounded comparison ends inside the array, at the right byte: for a
byte below `0x80` there is a difference, from `0x80` on the first byte is one. -/
def SpnStops (l : Bytes) : Bytes → Prop
  | [c] => if c.toNat < 128 then ∃ x ∈ l, x ≠ c else l.head? ≠ some c
  | _ => True

instance (l : Bytes) : (cs : Bytes) → Decidable (SpnStops l cs)
  | [] => .isTrue trivial
  | [c] => inferInstanceAs (Decidable (if c.toNat < 128 then _ else _))
  | _ :: _ :: _ => .isTrue trivial

/-- A byte below `0x80` that ends somewhere in the array. -/
theorem Given.memspn_low {c : UInt8} (h : Given mem s l a [c]) (hc : c.toNat < 128)
    (hex : ∃ x ∈ l, x ≠ c) : memspn mem s a l.length = .ok (spn [c] l) := by
  have hfits := h.fits
  obtain ⟨hin, hstop⟩ := takeWhile_stop (· ∈ [c]) l
  have hlt : spn [c] l < l.length := by
    refine Nat.lt_of_le_of_ne (spn_le [c] l) fun heq => ?_
    obtain ⟨x, hx, hne⟩ := hex
    obtain ⟨i, hi, rfl⟩ := List.getElem_of_mem hx
    have := hin i l[i] (by rw [← spn, heq]; exact hi) (List.getElem?_eq_getElem hi)
    exact hne (by simpa using this)
  have hscan : scan (fun x => (x.toNat : Int) != schar c) mem (sizeMax + 1) s
      = .ok (s + spn [c] l) := by
    refine scan_eq ?_ (fun i hi => ?_) (by omega)
    · have := hstop _ (h.bytes.getElem? hlt)
      simpa [toNat_eq_schar, hc, spn] using this
    · have := hin i _ hi (h.bytes.getElem? (by omega))
      simpa [toNat_eq_schar, hc] using this
  rw [h.memspn_one, hscan]
  simp only [bind, Except.bind, pure, Except.pure]
  rw [Nat.add_sub_cancel_left]

/-- From `0x80` on no byte of the array is ever equal. -/
theorem Given.memspn_high {c : UInt8} (h : Given mem s l a [c]) (hc : ¬c.toNat < 128) :
    memspn mem s a l.length = .ok 0 := by
  have hscan : scan (fun x => (x.toNat : Int) != schar c) mem (sizeMax + 1) s = .ok s := by
    refine @scan_eq _ mem 0 (sizeMax + 1) s ?_ (fun i hi => absurd hi (Nat.not_lt_zero i))
      (Nat.succ_pos _)
    simp [toNat_eq_schar, hc]
  rw [h.memspn_one, hscan]
  simp only [bind, Except.bind, pure, Except.pure]
  rw [Nat.sub_self]

/-- With the set right behind an array of nothing but its one byte, the
comparison goes on into the set. -/
theorem memspn_past_end {c : UInt8} (hc : c.toNat < 128) (hall : ∀ x ∈ l, x = c)
    (h : Given (memOf (0 :: (l ++ [c]))) 1 l (1 + l.length) [c]) :
    memspn (memOf (0 :: (l ++ [c]))) 1 (1 + l.length) l.length = .ok (l.length + 1) := by
  have hfits := h.set.fits
  have hbytes : MemAt (memOf (0 :: (l ++ [c]))) 1 (l ++ [c]) :=
    memAt_append.mpr ⟨h.bytes, h.set.bytes⟩
  have hscan : scan (fun x => (x.toNat : Int) != schar c) (memOf (0 :: (l ++ [c])))
      (sizeMax + 1) 1 = .ok (1 + (l.length + 1)) := by
    refine scan_eq ?_ (fun i hi => ?_) (by simp at hfits; omega)
    · have hnul := h.set.nul
      rw [List.length_singleton, Nat.add_assoc] at hnul
      rw [hnul, bne_iff_ne]
      intro h0
      rw [toNat_eq_schar] at h0
      exact h.set.nonzero (by simp [h0.2])
    · rw [hbytes i (by simpa using hi), bne_eq_false_iff_eq, toNat_eq_schar]
      refine ⟨hc, ?_⟩
      have hmem := List.getElem_mem (show i < (l ++ [c]).length by simpa using hi)
      rcases List.mem_append.mp hmem with hl | hc'
      · exact hall _ hl
      · exact List.mem_singleton.mp hc'
  rw [h.memspn_one, hscan]
  simp only [bind, Except.bind, pure, Except.pure]
  rw [Nat.add_sub_cancel_left]

theorem memspnRight_iff (h0 : 0 ∉ cs) (hfit : l.length + cs.length < sizeMax) :
    MemspnRight l cs ↔ SpnStops l cs := by
  have hadj := given_adjacent h0 hfit
  constructor
  · intro hright
    have hres := hright _ _ _ hadj
    match cs with
    | [] => trivial
    | _ :: _ :: _ => trivial
    | [c] =>
        rw [SpnStops]
        by_cases hc : c.toNat < 128
        · rw [if_pos hc]
          by_contra hno
          have hall : ∀ x ∈ l, x = c := fun x hx => by
            by_contra hne
            exact hno ⟨x, hx, hne⟩
          rw [memspn_past_end hc hall hadj] at hres
          have hle := spn_le [c] l
          injection hres
          omega
        · rw [if_neg hc]
          intro hhead
          rw [hadj.memspn_high hc] at hres
          cases l with
          | nil => cases hhead
          | cons b l =>
              cases hhead
              simp [spn] at hres
  · intro hstops mem s a h
    match cs with
    | [] => exact h.memspn_eq (by simp)
    | c :: d :: cs => exact h.memspn_eq (by simp)
    | [c] =>
        rw [SpnStops] at hstops
        by_cases hc : c.toNat < 128
        · rw [if_pos hc] at hstops
          exact h.memspn_low hc hstops
        · rw [if_neg hc] at hstops
          rw [h.memspn_high hc]
          cases l with
          | nil => rfl
          | cons b l =>
              have hb : b ≠ c := fun hbc => hstops (by rw [hbc]; rfl)
              simp [spn, hb]

theorem memcspnRight_iff (h0 : 0 ∉ cs) (hfit : l.length + cs.length < sizeMax) :
    MemcspnRight l cs ↔ cs ≠ [] ∨ 0 ∉ l := by
  constructor
  · intro hright
    have hres := hright _ _ _ (given_adjacent h0 hfit)
    rw [(given_adjacent h0 hfit).memcspn_eq] at hres
    by_cases hnil : cs = []
    · refine .inr fun hmem => ?_
      subst hnil
      obtain ⟨i, hi, hzero⟩ := List.getElem_of_mem hmem
      have hspan : cspn [0] l = l.length := by
        injection hres with hspan
        rw [stopSet, if_pos rfl] at hspan
        rw [hspan]
        exact cspn_eq_length fun x _ => List.not_mem_nil
      have := (takeWhile_stop (· ∉ [0]) l).1 i l[i] (by rw [← cspn, hspan]; exact hi)
        (List.getElem?_eq_getElem hi)
      simp [hzero] at this
    · exact .inl hnil
  · intro hcond mem s a h
    rw [h.memcspn_eq, stopSet]
    by_cases hnil : cs = []
    · have hzero : 0 ∉ l := hcond.resolve_left fun hne => hne hnil
      rw [if_pos hnil, hnil, cspn_eq_length fun x _ => List.not_mem_nil, cspn_eq_length]
      rintro x hx hx0
      exact hzero (List.mem_singleton.mp hx0 ▸ hx)
    · rw [if_neg hnil]

/-- Exactly when the spans are right: `jstr_memspn` when the set is not of
one byte or the comparison ends inside the array, `jstr_memcspn` when the set
is not empty or the array has no NUL. -/
theorem memspn_memcspn_right_iff (h0 : 0 ∉ cs) (hfit : l.length + cs.length < sizeMax) :
    (MemspnRight l cs ↔ SpnStops l cs) ∧ (MemcspnRight l cs ↔ cs ≠ [] ∨ 0 ∉ l) :=
  ⟨memspnRight_iff h0 hfit, memcspnRight_iff h0 hfit⟩

/-- "aa" and the set "a" behind it. -/
theorem given_aa : Given (memOf [0, 97, 97, 97]) 1 [97, 97] 3 [97] :=
  ⟨by decide, by decide, by decide, ⟨by decide, by decide, by decide, by decide⟩⟩

/-- "ab" and the set "a". -/
theorem memspn_memcspn_right_iff_ab :
    (MemspnRight [97, 98] [97] ↔ SpnStops [97, 98] [97]) ∧
      (MemcspnRight [97, 98] [97] ↔ ([97] : Bytes) ≠ [] ∨ (0 : UInt8) ∉ [97, 98]) :=
  @memspn_memcspn_right_iff [97, 98] [97] (by decide) (by decide)

/-- Two bytes are in the array, three are counted. -/
theorem not_memspn_memcspn_right :
    ¬∀ l cs : Bytes, 0 ∉ cs → MemspnRight l cs ∧ MemcspnRight l cs := by
  intro hall
  have hright := (hall [97, 97] [97] (by decide)).1 _ _ _ given_aa
  have hthree : memspn (memOf [0, 97, 97, 97]) 1 3 2 = .ok 3 := by decide
  exact absurd (hthree.symm.trans hright) (by decide)

/-! ## The first and the last match -/

/-- A byte of `cs` is at offset `i`. -/
def MatchAt (cs l : Bytes) (i : Nat) : Prop := ∃ x, l[i]? = some x ∧ x ∈ cs

theorem MatchAt.lt {i : Nat} (h : MatchAt cs l i) : i < l.length := by
  obtain ⟨x, hx, -⟩ := h
  exact (List.getElem?_eq_some_iff.mp hx).1

/-- On the bytes in memory. -/
theorem matchAt_iff (h : MemAt mem s l) (i : Nat) :
    MatchAt cs l i ↔ i < l.length ∧ mem (s + i) ∈ cs := by
  constructor
  · intro hm
    obtain ⟨x, hx, hcs⟩ := hm
    have hi := MatchAt.lt ⟨x, hx, hcs⟩
    rw [h.getElem? hi] at hx
    cases hx
    exact ⟨hi, hcs⟩
  · rintro ⟨hi, hcs⟩
    exact ⟨_, h.getElem? hi, hcs⟩

/-- A span of other bytes ends at the first match. -/
theorem leftmost_cspn (cs l : Bytes) :
    Leftmost (MatchAt cs l) (if cspn cs l < l.length then some (cspn cs l) else none) := by
  obtain ⟨hin, hstop⟩ := takeWhile_stop (· ∉ cs) l
  have hmiss : ∀ i < cspn cs l, ¬MatchAt cs l i := by
    rintro i hi ⟨x, hx, hcs⟩
    have := hin i x hi hx
    simp [hcs] at this
  by_cases hlt : cspn cs l < l.length
  · rw [if_pos hlt]
    have hx := List.getElem?_eq_getElem hlt
    exact ⟨⟨_, hx, by simpa using hstop _ hx⟩, hmiss⟩
  · rw [if_neg hlt]
    exact fun i hi => hmiss i (by have := hi.lt; omega) hi

/-- Whatever finds the byte of a one-byte set finds the last one. -/
theorem memrcspnMemrchr_rightmost (cfg : Build) {n : Nat} {c : UInt8} (hs : 0 < s) :
    ∃ r, memrcspnMemrchr cfg mem s c n = .ok (r.map (s + ·)) ∧
      Rightmost (HitAt mem s c n) r := by
  obtain ⟨r, hr, hright⟩ := libcMemrchr_rightmost mem s c n
  rw [memrcspnMemrchr]
  split
  · exact ⟨r, by rw [hr], hright⟩
  · cases cfg.haveSimd with
    | some v => exact simdMemrchr_spec v.bytes_pos hs
    | none => exact ⟨r, by simp only [memrchrMusl_eq, hr], hright⟩

/-- The length up to and with the last match, from the front; the whole
array when the set is empty. -/
theorem Given.strrcspnLen_eq (h : Given mem s l a cs) (cfg : Build) :
    ∃ r, Rightmost (MatchAt cs l) r ∧ strrcspnLen cfg mem s a l.length
      = .ok (if cs = [] then l.length else r.elim 0 (· + 1)) := by
  rw [strrcspnLen, memrcspnMusl]
  rcases h.set_cases with ⟨rfl, ha⟩ | ⟨c, rfl, ha, hne, ha'⟩ | ⟨hlen, ha, ha'⟩
  · refine ⟨none, fun i hi => ?_, by rw [if_pos ha, if_pos rfl]⟩
    obtain ⟨x, -, hx⟩ := hi
    exact List.not_mem_nil hx
  · obtain ⟨r, hr, hright⟩ := @memrcspnMemrchr_rightmost mem s cfg l.length c h.pos
    refine ⟨r, hright.congr fun i => ?_, ?_⟩
    · rw [matchAt_iff h.bytes, List.mem_singleton, HitAt]
    · rw [ha, if_neg hne, if_pos ha', hr, if_neg (List.cons_ne_nil _ _)]
      cases r with
      | none => rfl
      | some i =>
          simp only [bind, Except.bind, pure, Except.pure, Option.map_some, Option.elim_some]
          rw [Nat.add_sub_cancel_left]
  · obtain ⟨byteset, hr, hhas⟩ := addBytes_spec h.set
    obtain ⟨r, hres, hright⟩ := rspnLoop_rightmost (fun x => !byteset.has x) mem s l.length
    have hnil : cs ≠ [] := by
      rintro rfl
      simp at hlen
    refine ⟨r, hright.congr fun i => ?_, ?_⟩
    · rw [matchAt_iff h.bytes, hhas]
      simp
    · rw [if_neg ha, if_neg ha', hr, if_neg hnil]
      exact congrArg Except.ok hres

/-- `jstr_mempbrk` is right on every array `l` and set `cs`. -/
def MempbrkRight (l cs : Bytes) : Prop :=
  ∀ mem s a, Given mem s l a cs →
    ∃ r, Leftmost (MatchAt cs l) r ∧ mempbrk mem s a l.length = .ok (r.map (s + ·))

/-- `jstr_strrpbrk_len` is right on every array `l` and set `cs`. -/
def StrrpbrkLenRight (cfg : Build) (l cs : Bytes) : Prop :=
  ∀ mem s a, Given mem s l a cs →
    ∃ r, Rightmost (MatchAt cs l) r ∧ strrpbrkLen cfg mem s a l.length = .ok (r.map (s + ·))

/-- `jstr_strrpbrk` is right on every string `l` and set `cs`. -/
def StrrpbrkRight (cfg : Build) (l cs : Bytes) : Prop :=
  ∀ mem s a, CStr mem s l → Given mem s l a cs →
    ∃ r, Rightmost (MatchAt cs l) r ∧ strrpbrk cfg mem s a = .ok (r.map (s + ·))

/-- The last match stands in the middle of the array, and is not all of it. -/
def MiddleMatch (l cs : Bytes) : Prop :=
  ∃ i, 0 < i ∧ l.length = 2 * i + 1 ∧ Rightmost (MatchAt cs l) (some i)

/-- The length counted from the front is subtracted from the end. -/
def RpbrkStands (l cs : Bytes) : Prop := cs = [] ∨ l = [] ∨ MiddleMatch l cs

theorem Given.mempbrk_eq (h : Given mem s l a cs) (hne : cs ≠ []) :
    mempbrk mem s a l.length
      = .ok (if mem (s + cspn cs l) ≠ 0 then some (s + cspn cs l) else none) := by
  rw [mempbrk, h.memcspn_eq, stopSet, if_neg hne]
  rfl

theorem mempbrkRight_iff (h0 : 0 ∉ cs) (hne : cs ≠ [])
    (hfit : l.length + cs.length < sizeMax) : MempbrkRight l cs ↔ ∃ x ∈ l, x ∈ cs := by
  constructor
  · intro hright
    have hadj := given_adjacent h0 hfit
    by_contra hno
    have hlen : cspn cs l = l.length := cspn_eq_length fun x hx hcs => hno ⟨x, hx, hcs⟩
    obtain ⟨r, hleft, hres⟩ := hright _ _ _ hadj
    have hr : r = none := hleft.unique (by
      have := leftmost_cspn cs l
      rwa [if_neg (by omega)] at this)
    have hset := hadj.set.head_ne_zero (List.length_pos_of_ne_nil hne)
    rw [hadj.mempbrk_eq hne, hlen, if_pos hset, hr] at hres
    cases hres
  · rintro ⟨x, hx, hcs⟩ mem s a h
    have hleft := leftmost_cspn cs l
    have hlt : cspn cs l < l.length := by
      by_contra hge
      rw [if_neg hge] at hleft
      obtain ⟨i, hi, rfl⟩ := List.getElem_of_mem hx
      exact hleft i ⟨_, List.getElem?_eq_getElem hi, hcs⟩
    rw [if_pos hlt] at hleft
    have hbyte := ((matchAt_iff h.bytes _).mp hleft.1).2
    refine ⟨_, hleft, ?_⟩
    rw [h.mempbrk_eq hne, if_pos fun hz : mem (s + cspn cs l) = 0 => h0 (hz ▸ hbyte)]
    rfl

theorem Given.strrpbrkLen_iff (h : Given mem s l a cs) (cfg : Build) :
    (∃ r, Rightmost (MatchAt cs l) r ∧ strrpbrkLen cfg mem s a l.length = .ok (r.map (s + ·))) ↔
      RpbrkStands l cs := by
  obtain ⟨r, hright, hlen⟩ := h.strrcspnLen_eq cfg
  have hres : strrpbrkLen cfg mem s a l.length = .ok (
      if (if cs = [] then l.length else r.elim 0 (· + 1)) ≠ l.length then
        some (s + l.length - if cs = [] then l.length else r.elim 0 (· + 1)) else none) := by
    rw [strrpbrkLen, hlen]
    rfl
  rw [hres, RpbrkStands]
  by_cases hnil : cs = []
  · refine iff_of_true ⟨none, fun i hi => ?_, by simp [hnil]⟩ (.inl hnil)
    obtain ⟨x, -, hx⟩ := hi
    exact List.not_mem_nil (hnil ▸ hx)
  rw [if_neg hnil]
  constructor
  · rintro ⟨r', hright', heq⟩
    rw [← hright.unique hright'] at heq
    refine .inr ?_
    cases r with
    | none =>
        refine .inl (List.eq_nil_of_length_eq_zero ?_)
        by_contra hl
        rw [Option.elim_none, if_pos (Ne.symm hl)] at heq
        cases heq
    | some i =>
        refine .inr ⟨i, ?_⟩
        have hi := hright.1.lt
        rw [Option.elim_some] at heq
        by_cases hend : i + 1 = l.length
        · rw [if_neg (not_not_intro hend)] at heq
          cases heq
        · rw [if_pos hend, Option.map_some, Except.ok.injEq, Option.some.injEq] at heq
          exact ⟨by omega, by omega, hright⟩
  · rintro (hcs | rfl | ⟨i, hpos, hlen', hright'⟩)
    · exact absurd hcs hnil
    · have hr : r = none := hright.unique fun i hi => Nat.not_lt_zero i hi.lt
      rw [hr]
      exact ⟨none, fun i hi => Nat.not_lt_zero i hi.lt, rfl⟩
    · refine ⟨some i, hright', ?_⟩
      rw [hright.unique hright', Option.elim_some, if_pos (by omega), Option.map_some]
      exact congrArg (fun p => Except.ok (some p)) (by omega)

theorem Given.strrpbrk_eq (h : CStr mem s l) (cfg : Build) :
    strrpbrk cfg mem s a = strrpbrkLen cfg mem s a l.length := by
  rw [strrpbrk, h.strlen_eq]
  rfl

/-- Exactly when the two searches are right: the first match is, when there
is one; the last, when the set or the array is empty or it is in the middle. -/
theorem pbrk_right_iff (cfg : Build) (h0 : 0 ∉ cs) (hfit : l.length + 1 + cs.length < sizeMax) :
    (cs ≠ [] → (MempbrkRight l cs ↔ ∃ x ∈ l, x ∈ cs)) ∧
      (StrrpbrkLenRight cfg l cs ↔ RpbrkStands l cs) ∧
      (0 ∉ l → (StrrpbrkRight cfg l cs ↔ RpbrkStands l cs)) := by
  refine ⟨fun hne => mempbrkRight_iff h0 hne (by omega), ⟨fun hright => ?_, fun hs mem s a h =>
    (h.strrpbrkLen_iff cfg).mpr hs⟩, fun hl => ⟨fun hright => ?_, fun hs mem s a hstr h => ?_⟩⟩
  · have hadj := given_adjacent h0 (show l.length + cs.length < sizeMax by omega)
    exact (hadj.strrpbrkLen_iff cfg).mp (hright _ _ _ hadj)
  · -- the terminator of the string, then the set
    have hadj := @given_adjacent (l ++ [0]) cs h0 (by simpa using hfit)
    have hsplit := memAt_append.mp hadj.bytes
    have hfits := hadj.fits
    rw [List.length_append, List.length_singleton] at hfits
    have hstr : CStr (memOf (0 :: (l ++ [0] ++ cs))) 1 l :=
      ⟨hsplit.1, hl, hsplit.2 0 Nat.one_pos, by omega⟩
    have hgiven : Given (memOf (0 :: (l ++ [0] ++ cs))) 1 l _ cs :=
      ⟨hsplit.1, Nat.one_pos, by omega, hadj.set⟩
    have hres := hright _ _ _ hstr hgiven
    rw [Given.strrpbrk_eq hstr] at hres
    exact (hgiven.strrpbrkLen_iff cfg).mp hres
  · rw [Given.strrpbrk_eq hstr]
    exact (h.strrpbrkLen_iff cfg).mpr hs

/-- "aba" and the set "b". -/
theorem pbrk_right_iff_aba :
    (([98] : Bytes) ≠ [] →
        (MempbrkRight [97, 98, 97] [98] ↔ ∃ x : UInt8, x ∈ [97, 98, 97] ∧ x ∈ [98])) ∧
      (StrrpbrkLenRight sse2Build [97, 98, 97] [98] ↔ RpbrkStands [97, 98, 97] [98]) ∧
      ((0 : UInt8) ∉ [97, 98, 97] →
        (StrrpbrkRight sse2Build [97, 98, 97] [98] ↔ RpbrkStands [97, 98, 97] [98])) :=
  @pbrk_right_iff [97, 98, 97] [98] sse2Build (by decide) (by decide)

/-- "ab" ends with its only match, which is not found. -/
theorem not_pbrk_right :
    ¬∀ (cfg : Build) (l cs : Bytes), 0 ∉ cs → (cs ≠ [] → MempbrkRight l cs) ∧
      StrrpbrkLenRight cfg l cs ∧ (0 ∉ l → StrrpbrkRight cfg l cs) := by
  intro hall
  have hgiven : Given (memOf [0, 97, 98, 98]) 1 [97, 98] 3 [98] :=
    ⟨by decide, by decide, by decide, ⟨by decide, by decide, by decide, by decide⟩⟩
  obtain ⟨r, hright, hres⟩ := (hall { sse2Build with haveMemrchr := true } [97, 98] [98]
    (by decide)).2.1 _ _ _ hgiven
  have hnull : strrpbrkLen { sse2Build with haveMemrchr := true } (memOf [0, 97, 98, 98]) 1 3 2
      = .ok none := by decide
  have hres := hnull.symm.trans hres
  cases r with
  | none => exact hright 1 ⟨98, rfl, List.mem_singleton_self 98⟩
  | some i => cases hres

end Jstr
