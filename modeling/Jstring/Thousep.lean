import Jstring.Ctype
import Jstring.Atoi

/-!
# Thousand separators

`jstr_thousep_len_p`, which makes room from the right and stops where
nothing is to be moved any more, and `jstr_thousepcpy_len_p`, which
copies from the left beginning with an incomplete group.

- `sepText`: the text both make;
- `thousepLenP_eq`, `thousepcpyLenP_eq`: they make it;
- `thousep_spec`: the two, and what the text is;
- `thousep_toa_iff`: the separating encoders against the two steps.
-/

namespace Jstr

open Numeral

/-! ## In place -/

/-- The loop of `jstr_thousep_len_p`; `n` bytes are in front of the last
separator. -/
def thousepLoop (separator : UInt8) (start : Nat) : Nat → Blk → Nat → Nat → Nat → Run Blk
  | 0, _, _, _, _ => .error .diverge
  | fuel + 1, b, nptr, dif, n =>
    if start ≤ nptr then do
      let c ← b.read nptr
      let b ← b.write (nptr + dif) [c]
      let nptr := nptr - 1
      if n + 1 = 3 then do
        let b ← b.write (nptr + dif) [separator]
        if dif - 1 = 0 then .ok b else thousepLoop separator start fuel b nptr (dif - 1) 0
      else thousepLoop separator start fuel b nptr dif (n + 1)
    else .ok b

/-- `jstr_thousep_len_p` behind the sign. -/
def thousepDigits (b : Blk) (nptr sz : Nat) (separator : UInt8) : Run (Blk × Nat) :=
  if sz < 4 then .ok (b, nptr + sz)
  else do
    let dif := (sz - 1) / 3
    let b ← thousepLoop separator nptr (sz + 1) b (nptr + (sz - 1)) dif 0
    let b ← b.write (nptr + sz + dif) [0]
    .ok (b, nptr + sz + dif)

/-- `jstr_thousep_len_p`. -/
def thousepLenP (b : Blk) (nptr sz : Nat) (separator : UInt8) : Run (Blk × Nat) :=
  if sz = 0 then .ok (b, nptr)
  else do
    let c ← b.read nptr
    if c = 45 then thousepDigits b (nptr + 1) (sz - 1) separator
    else thousepDigits b nptr sz separator

/-! ## Copying -/

/-- `for (; j--; *dst++ = *src++) {}`, also what is done with less than four
digits. -/
def copyLoop (sb : Blk) : Nat → Blk → Nat → Nat → Run (Blk × Nat × Nat)
  | 0, b, dst, src => .ok (b, dst, src)
  | n + 1, b, dst, src => do
    let c ← sb.read src
    let b ← b.write dst [c]
    copyLoop sb n b (dst + 1) (src + 1)

/-- The loop of `jstr_thousepcpy_len_p`; `i` bytes are behind the last
separator. -/
def sepLoop (sb : Blk) (separator : UInt8) : Nat → Blk → Nat → Nat → Nat → Run (Blk × Nat)
  | 0, b, dst, _, _ => .ok (b, dst)
  | n + 1, b, dst, src, i =>
    if i = 3 then do
      let b ← b.write dst [separator]
      let c ← sb.read src
      let b ← b.write (dst + 1) [c]
      sepLoop sb separator n b (dst + 2) (src + 1) 1
    else do
      let c ← sb.read src
      let b ← b.write dst [c]
      sepLoop sb separator n b (dst + 1) (src + 1) (i + 1)

/-- `jstr_thousepcpy_len_p` behind the sign. -/
def thousepcpyDigits (b : Blk) (dst : Nat) (sb : Blk) (src srcLen : Nat) (separator : UInt8) :
    Run (Blk × Nat) :=
  if srcLen < 4 then do
    let (b, dst, _) ← copyLoop sb srcLen b dst src
    let b ← b.write dst [0]
    .ok (b, dst)
  else do
    let i := srcLen % 3
    let (b, dst, src) ← copyLoop sb i b dst src
    let (b, dst) ←
      if i ≠ 0 then do
        let b ← b.write dst [separator]
        pure (b, dst + 1)
      else pure (b, dst)
    let (b, dst) ← sepLoop sb separator (srcLen - i) b dst src 0
    let b ← b.write dst [0]
    .ok (b, dst)

/-- `jstr_thousepcpy_len_p`. The source is in a block of its own. -/
def thousepcpyLenP (b : Blk) (dst : Nat) (sb : Blk) (src srcLen : Nat) (separator : UInt8) :
    Run (Blk × Nat) :=
  if srcLen = 0 then do
    let b ← b.write dst [0]
    .ok (b, dst)
  else do
    let c ← sb.read src
    if c = 45 then do
      let b ← b.write dst [45]
      thousepcpyDigits b (dst + 1) sb (src + 1) (srcLen - 1) separator
    else thousepcpyDigits b dst sb src srcLen separator

/-- The text with separators: those of what follows the sign. -/
def sepText (sep : UInt8) : Bytes → Bytes
  | [] => []
  | c :: s => if c = 45 then 45 :: grouped sep s else grouped sep (c :: s)

/-! ## In place, what is written -/

section Thousep

variable {b : Blk} {p : Nat} {sep : UInt8}

theorem length_gap (x g w : Bytes) (c : UInt8) {d : UInt8} :
    (x ++ (g ++ [d]) ++ w).length = (x ++ g ++ c :: w).length := by
  simp only [List.length_append, List.length_cons, List.length_nil]
  omega

/-- The last letter of the gap is overwritten: the gap moves to the left. -/
theorem write_gap {x g w : Bytes} {c d : UInt8}
    (hin : b.InRange p (x ++ (g ++ [d]) ++ w).length) :
    Blk.write (b.put p (x ++ (g ++ [d]) ++ w)) (p + x.length + g.length) [c]
      = .ok (b.put p (x ++ g ++ c :: w)) := by
  have hsplit : ∀ e, x ++ (g ++ [e]) ++ w = x ++ g ++ [e] ++ w := fun e => by
    simp only [List.append_assoc]
  have hlen : p + x.length + g.length = p + (x ++ g).length := by
    rw [List.length_append, Nat.add_assoc]
  rw [hsplit] at hin ⊢
  rw [hlen, write_mid hin, List.append_assoc (x ++ g)]
  rfl

/-- The byte before the gap is moved over it: the gap, which begins with that byte now,
stands one place further to the left. -/
theorem move_gap {x g w : Bytes} {c : UInt8} (hin : b.InRange p (x ++ [c] ++ g ++ w).length) :
    ∃ g', g'.length = g.length ∧ b.InRange p (x ++ g' ++ c :: w).length ∧
      Blk.write (b.put p (x ++ [c] ++ g ++ w)) (p + x.length + g.length) [c]
        = .ok (b.put p (x ++ g' ++ c :: w)) := by
  obtain ⟨g', d, hgap⟩ : ∃ g' d, [c] ++ g = g' ++ [d] := by
    rcases List.eq_nil_or_concat ([c] ++ g) with h | ⟨g', d, h⟩
    · exact absurd h (List.cons_ne_nil c g)
    · exact ⟨g', d, h.trans List.concat_eq_append⟩
  have hlen : g'.length = g.length := by
    have := congrArg List.length hgap
    simp only [List.length_append, List.length_singleton] at this
    omega
  have hsame : x ++ [c] ++ g ++ w = x ++ (g' ++ [d]) ++ w := by
    rw [List.append_assoc x [c], hgap]
  rw [hsame] at hin ⊢
  refine ⟨g', hlen, by rwa [← length_gap x g' w c], ?_⟩
  rw [← hlen]
  exact write_gap hin

/-- The separator takes the last place of the gap. -/
theorem sep_gap {x g w : Bytes} (hg : 0 < g.length) (hin : b.InRange p (x ++ g ++ w).length) :
    ∃ g', g.length = g'.length + 1 ∧ b.InRange p (x ++ g' ++ sep :: w).length ∧
      Blk.write (b.put p (x ++ g ++ w)) (p + x.length + g'.length) [sep]
        = .ok (b.put p (x ++ g' ++ sep :: w)) := by
  rcases List.eq_nil_or_concat g with rfl | ⟨g', d, rfl⟩
  · exact absurd hg (Nat.lt_irrefl 0)
  rw [List.concat_eq_append] at hin ⊢
  exact ⟨g', by rw [List.length_append, List.length_singleton], by
    rwa [← length_gap x g' w sep], write_gap hin⟩

/-- `x` is to be moved by the length of the gap `g`, which is as many separators as
are missing; `y` has been moved, and `w` is what it became. -/
theorem thousepLoop_eq : ∀ (fuel : Nat) {x g y w : Bytes}, x.length < fuel → 0 < g.length →
    (x.length + y.length - 1) / 3 = y.length / 3 + g.length →
    (∀ a, grouped sep (a :: y) = a :: w) → b.InRange p (x ++ g ++ w).length →
    thousepLoop sep p fuel (b.put p (x ++ g ++ w)) (p + (x.length - 1)) g.length (y.length % 3)
      = .ok (b.put p (grouped sep (x ++ y))) := by
  intro fuel
  induction fuel with
  | zero => exact fun hf => absurd hf (Nat.not_lt_zero _)
  | succ fuel ih =>
      intro x g y w hf hg hdif hw hin
      rcases List.eq_nil_or_concat x with rfl | ⟨x, c, rfl⟩
      · rw [List.length_nil] at hdif
        omega
      rw [List.concat_eq_append] at hf hdif hin ⊢
      rw [List.length_append, List.length_singleton] at hf hdif ⊢
      have hread : Blk.read (b.put p (x ++ [c] ++ g ++ w)) (p + x.length) = .ok c := by
        rw [List.append_assoc (x ++ [c])] at hin ⊢
        exact read_mid hin
      obtain ⟨g₁, hg₁, hin₁, hmove⟩ := move_gap hin
      have hcons : (c :: y).length = y.length + 1 := List.length_cons
      rw [Nat.add_sub_cancel, thousepLoop, if_pos (Nat.le_add_right _ _), hread]
      simp only [bind, Except.bind]
      rw [hmove]
      simp only
      by_cases h3 : y.length % 3 + 1 = 3
      · obtain ⟨g₂, hg₂, hin₂, hsep⟩ := @sep_gap b p sep x g₁ (c :: w) (by omega) hin₁
        have hpos : p + x.length - 1 + g.length = p + x.length + g₂.length := by omega
        have hleft : g.length - 1 = g₂.length := by omega
        rw [if_pos h3, hpos, hsep]
        simp only
        by_cases hlast : g.length - 1 = 0
        -- all separators are written, and what is left stands where it belongs
        · have hx : x ≠ [] := by
            rintro rfl
            rw [List.length_nil] at hdif
            omega
          rw [if_pos hlast, List.length_eq_zero_iff.mp (hleft.symm.trans hlast), List.append_nil,
            List.append_assoc, List.singleton_append,
            grouped_append sep (by omega) (by omega), if_pos ⟨hx, List.cons_ne_nil c y⟩, hw c,
            List.append_assoc]
          rfl
        · have hw' : ∀ a, grouped sep (a :: c :: y) = a :: sep :: c :: w := fun a => by
            rw [grouped, if_pos ⟨List.cons_ne_nil c y, by omega⟩, hw c]
          have hnext := @ih x g₂ (c :: y) (sep :: c :: w) (by omega) (by omega) (by omega) hw' hin₂
          rw [show (c :: y).length % 3 = 0 by omega] at hnext
          rw [if_neg hlast, hleft, show p + x.length - 1 = p + (x.length - 1) by omega, hnext,
            List.append_assoc]
          rfl
      · have hw' : ∀ a, grouped sep (a :: c :: y) = a :: c :: w := fun a => by
          rw [grouped, if_neg fun h => h3 (by have := h.2; omega), hw c]
        have hnext := @ih x g₁ (c :: y) (c :: w) (by omega) (by omega) (by omega) hw' hin₁
        rw [show (c :: y).length % 3 = y.length % 3 + 1 by omega, hg₁] at hnext
        rw [if_neg h3, show p + x.length - 1 = p + (x.length - 1) by omega, hnext,
          List.append_assoc]
        rfl

/-- Behind the sign: the digits of a string, where there is room. -/
theorem thousepDigits_eq {l : Bytes} (hat : b.At p (l ++ [0]))
    (hroom : b.InRange p ((grouped sep l).length + 1)) :
    thousepDigits b p l.length sep
      = .ok (b.put p (grouped sep l ++ [0]), p + (grouped sep l).length) := by
  rw [thousepDigits]
  split
  · rename_i hshort
    rw [grouped_of_le sep (by omega), Memory.Block.put_of_at hat]
  · rename_i hlong
    have hlen := length_grouped sep l
    obtain ⟨hg, hgap⟩ := @Memory.Block.at_slice _ b (p + l.length) ((l.length - 1) / 3)
      ⟨by have := hroom.1; omega, by have := hroom.2; omega⟩
    generalize b.slice (p + l.length) ((l.length - 1) / 3) = g at hg hgap
    have hb : b.put p (l ++ g) = b :=
      Memory.Block.put_of_at (Memory.Block.at_append.mpr ⟨hat.left, hgap⟩)
    have hloop := @thousepLoop_eq b p sep (l.length + 1) l g [] [] (by omega) (by omega)
      (by simp only [List.length_nil, Nat.add_zero]; omega) (fun a => rfl)
      (by
        rw [List.append_nil, List.length_append]
        exact ⟨hroom.1, by have := hroom.2; omega⟩)
    rw [List.append_nil, List.append_nil, hb, List.length_nil, hg] at hloop
    simp only [bind, Except.bind]
    rw [hloop]
    simp only
    rw [Nat.add_assoc, ← hlen, Blk.write_put hroom]

/-- `jstr_thousep_len_p` on a string, where there is room. -/
theorem thousepLenP_eq {s : Bytes} (hat : b.At p (s ++ [0]))
    (hroom : b.InRange p ((sepText sep s).length + 1)) :
    thousepLenP b p s.length sep
      = .ok (b.put p (sepText sep s ++ [0]), p + (sepText sep s).length) := by
  rw [thousepLenP]
  cases s with
  | nil =>
      rw [List.length_nil, if_pos rfl]
      rw [sepText, Memory.Block.put_of_at hat]
      rfl
  | cons c s =>
      rw [List.length_cons, if_neg (Nat.succ_ne_zero _), (Blk.read_cons hat).1]
      simp only [bind, Except.bind]
      rw [sepText] at hroom ⊢
      by_cases hc : c = 45
      · rw [if_pos hc] at hroom ⊢
        rw [if_pos hc]
        have hsign : b.At p [45] := hc ▸ (@Memory.Block.At.left _ b p [c] _ hat)
        have hrest := Blk.read_cons hat
        obtain ⟨hlo, hhi⟩ := hroom
        rw [List.length_cons] at hhi
        have hrun := @thousepDigits_eq b (p + 1) sep s (Blk.read_cons hat).2 ⟨by omega, by omega⟩
        have hput := Memory.Block.put_append b p [45] (grouped sep s ++ [0])
        rw [Memory.Block.put_of_at hsign, List.length_singleton] at hput
        rw [Nat.add_sub_cancel, hrun, hput, List.length_cons, Nat.add_assoc, Nat.add_comm 1]
        rfl
      · rw [if_neg hc] at hroom ⊢
        rw [if_neg hc]
        exact thousepDigits_eq hat hroom

/-! ## Copying, what is written -/

variable {sb : Blk} {src : Nat}

/-- One byte more. -/
theorem write_next {done l : Bytes} {c : UInt8} (hin : b.InRange p (done ++ c :: l).length) :
    Blk.write (b.put p done) (p + done.length) [c] = .ok (b.put p (done ++ [c])) ∧
      p + done.length + 1 = p + (done ++ [c]).length := by
  have hlen : (done ++ c :: l).length = done.length + 1 + l.length := by
    rw [List.length_append, List.length_cons]
    omega
  rw [hlen] at hin
  exact ⟨Blk.write_put ⟨hin.1, by have := hin.2; rw [List.length_singleton]; omega⟩, by
    rw [List.length_append]
    rfl⟩

theorem copyLoop_eq : ∀ {x done : Bytes} {src : Nat}, sb.At src x →
    b.InRange p (done ++ x).length →
    copyLoop sb x.length (b.put p done) (p + done.length) src
      = .ok (b.put p (done ++ x), p + (done ++ x).length, src + x.length)
  | [], done, src, _, _ => by
      rw [List.append_nil]
      rfl
  | c :: x, done, src, hat, hin => by
      obtain ⟨hread, hrest⟩ := Blk.read_cons hat
      obtain ⟨hwrite, hlen⟩ := write_next hin
      rw [List.append_cons done c x] at hin ⊢
      rw [List.length_cons, copyLoop, hread]
      simp only [bind, Except.bind]
      rw [hwrite, hlen]
      simp only
      rw [copyLoop_eq hrest hin, Nat.add_assoc src 1, Nat.add_comm 1]

/-- The number of bytes left is what completes the group. -/
theorem sepLoop_eq : ∀ {l done : Bytes} {src i : Nat}, sb.At src l → i ≤ 3 →
    (i + l.length) % 3 = 0 →
    b.InRange p (done ++ ((if i = 3 ∧ l ≠ [] then [sep] else []) ++ grouped sep l)).length →
    sepLoop sb sep l.length (b.put p done) (p + done.length) src i
      = .ok (b.put p (done ++ ((if i = 3 ∧ l ≠ [] then [sep] else []) ++ grouped sep l)),
        p + (done ++ ((if i = 3 ∧ l ≠ [] then [sep] else []) ++ grouped sep l)).length)
  | [], done, src, i, _, _, _, _ => by
      rw [if_neg fun h => h.2 rfl, grouped, List.append_nil, List.append_nil]
      rfl
  | c :: l, done, src, i, hat, hi, hmod, hin => by
      obtain ⟨hread, hrest⟩ := Blk.read_cons hat
      rw [List.length_cons] at hmod
      have hnil : l = [] → l.length = 0 := List.length_eq_zero_iff.mpr
      rw [List.length_cons, sepLoop]
      by_cases h3 : i = 3
      · have htext : (if i = 3 ∧ c :: l ≠ [] then [sep] else []) ++ grouped sep (c :: l)
            = sep :: c :: ((if 1 = 3 ∧ l ≠ [] then [sep] else []) ++ grouped sep l) := by
          rw [if_pos ⟨h3, List.cons_ne_nil c l⟩, if_neg fun h => absurd h.1 (by decide), grouped,
            if_neg fun h => by have := h.2; omega]
          rfl
        rw [htext] at hin ⊢
        obtain ⟨hwrite, hlen⟩ := write_next hin
        rw [List.append_cons done sep] at hin ⊢
        obtain ⟨hwrite', hlen'⟩ := write_next hin
        rw [List.append_cons _ c] at hin ⊢
        have hloop := sepLoop_eq hrest (by decide) (by omega) hin
        rw [if_pos h3, hwrite]
        simp only [bind, Except.bind]
        rw [hread]
        simp only
        rw [hlen, hwrite']
        simp only
        rw [show p + done.length + 2 = p + (done ++ [sep] ++ [c]).length by omega, hloop]
      · have htext : (if i = 3 ∧ c :: l ≠ [] then [sep] else []) ++ grouped sep (c :: l)
            = c :: ((if i + 1 = 3 ∧ l ≠ [] then [sep] else []) ++ grouped sep l) := by
          rw [if_neg fun h => h3 h.1, grouped]
          by_cases hnext : i + 1 = 3 ∧ l ≠ []
          · rw [if_pos hnext, if_pos ⟨hnext.2, by omega⟩]
            rfl
          · rw [if_neg hnext, if_neg fun h => hnext ⟨by have := h.2; omega, h.1⟩]
            rfl
        rw [htext] at hin ⊢
        obtain ⟨hwrite, hlen⟩ := write_next hin
        rw [List.append_cons done c] at hin ⊢
        have hloop := sepLoop_eq hrest (by omega) (by omega) hin
        rw [if_neg h3, hread]
        simp only [bind, Except.bind]
        rw [hwrite, hlen]
        simp only
        rw [hloop]

theorem inRange_left {l m : Bytes} (h : b.InRange p (l ++ m).length) : b.InRange p l.length := by
  rw [List.length_append] at h
  exact ⟨h.1, by have := h.2; omega⟩

/-- The terminator. -/
theorem write_nul {l : Bytes} (hin : b.InRange p (l ++ [0]).length) :
    Blk.write (b.put p l) (p + l.length) [0] = .ok (b.put p (l ++ [0])) := (write_next hin).1

/-- Whole groups, none of which has a separator in front of the first. -/
theorem sepLoop_groups {l done : Bytes} (hat : sb.At src l) (hmod : l.length % 3 = 0)
    (hin : b.InRange p (done ++ grouped sep l).length) :
    sepLoop sb sep l.length (b.put p done) (p + done.length) src 0
      = .ok (b.put p (done ++ grouped sep l), p + (done ++ grouped sep l).length) := by
  have hzero : (if 0 = 3 ∧ l ≠ [] then [sep] else []) ++ grouped sep l = grouped sep l :=
    (congrArg (· ++ grouped sep l) (if_neg fun h => absurd h.1 (by decide))).trans
      (List.nil_append _)
  have hloop := @sepLoop_eq b p sep sb l done src 0 hat (by decide) (by omega)
    (by rw [hzero]; exact hin)
  rwa [hzero] at hloop

/-- Behind the sign, or behind nothing. -/
theorem thousepcpyDigits_eq {l done : Bytes} (hat : sb.At src l)
    (hin : b.InRange p (done ++ grouped sep l ++ [0]).length) :
    thousepcpyDigits (b.put p done) (p + done.length) sb src l.length sep
      = .ok (b.put p (done ++ grouped sep l ++ [0]), p + (done ++ grouped sep l).length) := by
  have hnul := write_nul hin
  rw [thousepcpyDigits]
  by_cases hshort : l.length < 4
  · rw [grouped_of_le sep (by omega)] at hin hnul ⊢
    rw [if_pos hshort, copyLoop_eq hat (inRange_left hin)]
    simp only [bind, Except.bind]
    rw [hnul]
  · obtain ⟨x, y, hl, hx, hy, htext⟩ := exists_firstGroup sep (Nat.not_lt.mp hshort)
    rw [hl] at hat
    rw [htext, ← List.append_assoc, ← List.append_assoc] at hin hnul ⊢
    have hin₃ := inRange_left hin
    have hin₂ := inRange_left hin₃
    have hgroups := sepLoop_groups hat.right (by omega) hin₃
    rw [if_neg hshort]
    simp only
    rw [← hy, ← hx, copyLoop_eq hat.left (inRange_left hin₂)]
    simp only [bind, Except.bind]
    by_cases hnil : x = []
    · rw [if_neg (not_not.mpr hnil), List.append_nil] at hgroups hnul ⊢
      rw [if_neg (by rw [hnil]; exact not_not.mpr rfl)]
      simp only [pure, Except.pure]
      rw [hgroups]
      simp only
      rw [hnul]
    · rw [if_pos hnil] at hgroups hnul hin₂ ⊢
      obtain ⟨hwrite, hnext⟩ := write_next hin₂
      rw [if_pos (fun h => hnil (List.length_eq_zero_iff.mp h)), hwrite]
      simp only [pure, Except.pure]
      rw [hnext, hgroups]
      simp only
      rw [hnul]

/-- `jstr_thousepcpy_len_p`, where there is room. -/
theorem thousepcpyLenP_eq {s : Bytes} (hat : sb.At src s)
    (hroom : b.InRange p ((sepText sep s).length + 1)) :
    thousepcpyLenP b p sb src s.length sep
      = .ok (b.put p (sepText sep s ++ [0]), p + (sepText sep s).length) := by
  have hin : b.InRange p (sepText sep s ++ [0]).length := by rwa [List.length_append]
  rw [thousepcpyLenP]
  cases s with
  | nil =>
      have hnul := write_nul hin
      rw [sepText, List.length_nil, Nat.add_zero, Blk.put_nil] at hnul
      rw [List.length_nil, if_pos rfl, hnul]
      rfl
  | cons c s =>
      obtain ⟨hread, hrest⟩ := Blk.read_cons hat
      rw [List.length_cons, if_neg (Nat.succ_ne_zero _), hread]
      simp only [bind, Except.bind]
      rw [sepText] at hin ⊢
      by_cases hc : c = 45
      · rw [if_pos hc] at hin ⊢
        rw [if_pos hc]
        obtain ⟨hwrite, hnext⟩ := @write_next b p [] _ 45 hin
        rw [Blk.put_nil, List.length_nil, Nat.add_zero, List.nil_append] at hwrite
        rw [hwrite]
        exact thousepcpyDigits_eq hrest hin
      · rw [if_neg hc] at hin ⊢
        have hrun := @thousepcpyDigits_eq b p sep sb src (c :: s) [] hat hin
        rw [Blk.put_nil, List.length_nil, Nat.add_zero, List.nil_append] at hrun
        rw [if_neg hc]
        exact hrun

/-! ## The two against each other -/

/-- A sign, or none. -/
def signText (neg : Bool) (l : Bytes) : Bytes := if neg then 45 :: l else l

theorem sepText_signText {digits : Bytes} (neg : Bool) (hd : ∀ c ∈ digits, isdigit c = true) :
    sepText sep (signText neg digits) = signText neg (grouped sep digits) := by
  cases neg with
  | true => rfl
  | false =>
      cases digits with
      | nil => rfl
      | cons c l =>
          have hc : c ≠ 45 := by
            rintro rfl
            exact absurd (hd 45 List.mem_cons_self) (by decide)
          exact if_neg hc

/-- On a number with a sign or without, the separators are put in place and
copied alike: between the groups of three digits counted from the right, so that
every fourth byte from there is one. Without them the number is as before. -/
theorem thousep_spec (neg : Bool) (digits : Bytes) (sep : UInt8)
    (hd : ∀ c ∈ digits, isdigit c = true) :
    (∀ (b : Blk) (p : Nat), b.At p (signText neg digits ++ [0]) →
      b.InRange p ((signText neg (grouped sep digits)).length + 1) →
      thousepLenP b p (signText neg digits).length sep
        = .ok (b.put p (signText neg (grouped sep digits) ++ [0]),
          p + (signText neg (grouped sep digits)).length)) ∧
    (∀ (sb : Blk) (src : Nat), sb.At src (signText neg digits) →
      Writes (fun b dst => thousepcpyLenP b dst sb src (signText neg digits).length sep)
        (signText neg (grouped sep digits))) ∧
    (grouped sep digits).length = digits.length + (digits.length - 1) / 3 ∧
    (grouped sep digits).head? = digits.head? ∧
    (∀ i < (grouped sep digits).length, (grouped sep digits).reverse[i]?
      = if i % 4 = 3 then some sep else digits.reverse[i - i / 4]?) ∧
    (isdigit sep = false → sep ≠ 45 →
      (signText neg (grouped sep digits)).filter (· ≠ sep) = signText neg digits) := by
  have htext := @sepText_signText sep digits neg hd
  rw [← htext]
  refine ⟨fun b p hat hroom => thousepLenP_eq hat hroom,
    fun sb src hat b p hroom => thousepcpyLenP_eq hat hroom, length_grouped sep digits,
    head?_grouped sep digits, fun i hi => getElem?_reverse_grouped sep digits hi, ?_⟩
  intro hsep hminus
  have hmem : sep ∉ digits := fun h => by
    rw [hd sep h] at hsep
    exact absurd hsep (by decide)
  rw [htext]
  cases neg with
  | true =>
      show (45 :: grouped sep digits).filter (· ≠ sep) = 45 :: digits
      rw [List.filter_cons_of_pos (by simpa using hminus.symm), filter_grouped sep digits hmem]
  | false => exact filter_grouped sep digits hmem

/-- -1234567, with commas. -/
theorem thousep_spec_comma :
    (∀ (b : Blk) (p : Nat), b.At p (signText true [49, 50, 51, 52, 53, 54, 55] ++ [0]) →
      b.InRange p ((signText true (grouped 44 [49, 50, 51, 52, 53, 54, 55])).length + 1) →
      thousepLenP b p (signText true [49, 50, 51, 52, 53, 54, 55]).length 44
        = .ok (b.put p (signText true (grouped 44 [49, 50, 51, 52, 53, 54, 55]) ++ [0]),
          p + (signText true (grouped 44 [49, 50, 51, 52, 53, 54, 55])).length)) ∧
    (∀ (sb : Blk) (src : Nat), sb.At src (signText true [49, 50, 51, 52, 53, 54, 55]) →
      Writes (fun b dst =>
          thousepcpyLenP b dst sb src (signText true [49, 50, 51, 52, 53, 54, 55]).length 44)
        (signText true (grouped 44 [49, 50, 51, 52, 53, 54, 55]))) ∧
    (grouped (44 : UInt8) [49, 50, 51, 52, 53, 54, 55]).length
      = ([49, 50, 51, 52, 53, 54, 55] : Bytes).length
        + (([49, 50, 51, 52, 53, 54, 55] : Bytes).length - 1) / 3 ∧
    (grouped (44 : UInt8) [49, 50, 51, 52, 53, 54, 55]).head?
      = ([49, 50, 51, 52, 53, 54, 55] : Bytes).head? ∧
    (∀ i < (grouped (44 : UInt8) [49, 50, 51, 52, 53, 54, 55]).length,
      (grouped (44 : UInt8) [49, 50, 51, 52, 53, 54, 55]).reverse[i]?
        = if i % 4 = 3 then some 44
          else ([49, 50, 51, 52, 53, 54, 55] : Bytes).reverse[i - i / 4]?) ∧
    (isdigit 44 = false → (44 : UInt8) ≠ 45 →
      (signText true (grouped 44 [49, 50, 51, 52, 53, 54, 55])).filter (· ≠ 44)
        = signText true [49, 50, 51, 52, 53, 54, 55]) :=
  thousep_spec true [49, 50, 51, 52, 53, 54, 55] 44 (List.all_eq_true.mp (by decide))

example : grouped (44 : UInt8) [49, 50, 51, 52, 53, 54, 55]
    = [49, 44, 50, 51, 52, 44, 53, 54, 55] := by decide

/-! ## In two steps -/

/-- The shortcut of the separating encoder writes no separators up to 999; the
numeral has more than three digits there only in a base below ten. -/
def ShortcutSkips (base n : Nat) : Prop := base ^ 3 ≤ n ∧ n ≤ 999

theorem sepNumeral_eq_iff {base : Nat} (hb : 2 ≤ base) (n : Nat) :
    sepNumeral sep base n = grouped sep (numeral base n) ↔ ¬ShortcutSkips base n := by
  rw [sepNumeral, ShortcutSkips]
  split
  · rename_i hle
    have hlen : (numeral base n).length ≤ 3 ↔ n < base ^ 3 := by
      rw [length_numeral]
      exact lsd_length_le_iff (by omega) (by decide)
    constructor
    · intro h hskip
      have h' := congrArg List.length h
      rw [length_grouped] at h'
      omega
    · exact fun h => (grouped_of_le sep (hlen.mpr (by omega))).symm
  · rename_i hgt
    refine iff_of_true ?_ fun h => hgt h.2
    rw [← reverse_groups_reverse, numeral, List.reverse_reverse]

theorem sepText_signed {base : Nat} (hb : 2 ≤ base) (hb' : base ≤ 36) (n : Int) :
    sepText sep (signed (numeral base) n) = signed (fun m => grouped sep (numeral base m)) n := by
  rw [signed, signed]
  split
  · rfl
  · have hdig := (canonicalDigits_numeral hb hb' n.natAbs).vals
    cases hnum : numeral base n.natAbs with
    | nil => rfl
    | cons c l =>
        have hc : c ≠ 45 := by
          rintro rfl
          rw [hnum, List.map_cons] at hdig
          cases hds : (lsd base n.natAbs).reverse with
          | nil =>
              rw [hds] at hdig
              cases hdig
          | cons d ds =>
              rw [hds, List.map_cons, List.cons.injEq] at hdig
              exact absurd (hdig.1.symm.trans (show digitVal 45 = none by decide))
                (Option.some_ne_none d)
        exact if_neg hc

theorem signed_inj {f g : Nat → Bytes} {n : Int} :
    signed f n = signed g n ↔ f n.natAbs = g n.natAbs := by
  rw [signed, signed]
  split
  · rw [List.cons.injEq, and_iff_right rfl]
  · rfl

/-- `x` is what the separating encoder writes of a number, `t` what the plain one
writes, and `y` what `jstr_thousepcpy_len_p` makes of that: `x` is `y` unless the
shortcut skips the separators. -/
theorem thousep_toa_iff {base : Nat} (sep : UInt8) (hb : 2 ≤ base) (hb' : base ≤ 36) :
    (∀ number : Nat, number < 2 ^ 64 → ∃ x t y,
      Writes (fun b buf => ulltoaThousepP b buf number base sep) x ∧
      Writes (fun b buf => ulltoaP b buf number base) t ∧
      (∀ (sb : Blk) (src : Nat), sb.At src t →
        Writes (fun b dst => thousepcpyLenP b dst sb src t.length sep) y) ∧
      (x = y ↔ ¬ShortcutSkips base number)) ∧
    (∀ number : Int, -2 ^ 63 ≤ number → number < 2 ^ 63 → ∃ x t y,
      Writes (fun b buf => lltoaThousepP b buf number base sep) x ∧
      Writes (fun b buf => lltoaP b buf number base) t ∧
      (∀ (sb : Blk) (src : Nat), sb.At src t →
        Writes (fun b dst => thousepcpyLenP b dst sb src t.length sep) y) ∧
      (x = y ↔ ¬ShortcutSkips base number.natAbs)) := by
  have htwo : ∀ t : Bytes, ∀ (sb : Blk) (src : Nat), sb.At src t →
      Writes (fun b dst => thousepcpyLenP b dst sb src t.length sep) (sepText sep t) :=
    fun t sb src hat b p hroom => thousepcpyLenP_eq hat hroom
  constructor
  · intro number hn
    have htext := @sepText_signed sep base hb hb' (number : Int)
    rw [signed, signed, if_neg (by omega), if_neg (by omega), Int.natAbs_natCast] at htext
    exact ⟨_, _, _, writes_of_eq fun b p hin => ulltoaThousepP_eq hb hn hin,
      writes_of_eq fun b p hin => ulltoaP_eq hb hn hin, htwo _,
      by rw [htext]; exact sepNumeral_eq_iff hb number⟩
  · intro number hlo hhi
    refine ⟨_, _, _, writes_of_eq fun b p hin =>
        signedP_eq (encoder_eq (some sep) hb) ⟨hlo, by omega⟩ hin,
      writes_of_eq fun b p hin => signedP_eq (encoder_eq none hb) ⟨hlo, by omega⟩ hin, htwo _, ?_⟩
    show signed (sepNumeral sep base) number = sepText sep (signed (numeral base) number) ↔ _
    rw [sepText_signed hb hb', signed_inj]
    exact sepNumeral_eq_iff hb number.natAbs

/-- Base 16. -/
theorem thousep_toa_iff_hex :
    (∀ number : Nat, number < 2 ^ 64 → ∃ x t y,
      Writes (fun b buf => ulltoaThousepP b buf number 16 44) x ∧
      Writes (fun b buf => ulltoaP b buf number 16) t ∧
      (∀ (sb : Blk) (src : Nat), sb.At src t →
        Writes (fun b dst => thousepcpyLenP b dst sb src t.length 44) y) ∧
      (x = y ↔ ¬ShortcutSkips 16 number)) ∧
    (∀ number : Int, -2 ^ 63 ≤ number → number < 2 ^ 63 → ∃ x t y,
      Writes (fun b buf => lltoaThousepP b buf number 16 44) x ∧
      Writes (fun b buf => lltoaP b buf number 16) t ∧
      (∀ (sb : Blk) (src : Nat), sb.At src t →
        Writes (fun b dst => thousepcpyLenP b dst sb src t.length 44) y) ∧
      (x = y ↔ ¬ShortcutSkips 16 number.natAbs)) :=
  thousep_toa_iff 44 (by decide) (by decide)

/-- 8 in base 2: `"1000"`, and in two steps `"1,000"`. -/
theorem not_thousep_toa_binary :
    ¬∀ (base number : Nat) (sep : UInt8) (b b' m m' d d' : Blk) (p e q f r g : Nat),
      2 ≤ base → base ≤ 36 → number < 2 ^ 64 →
      ulltoaThousepP b p number base sep = .ok (b', e) →
      ulltoaP m q number base = .ok (m', f) →
      thousepcpyLenP d r m' q (f - q) sep = .ok (d', g) →
      b'.slice p (e - p) = d'.slice r (g - r) := by
  intro h
  have h8 := h 2 8 44 ⟨16, List.replicate 8 1⟩ _ ⟨32, List.replicate 8 1⟩ _
    ⟨48, List.replicate 8 1⟩ _ 16 20 32 36 48 53 (by decide) (by decide) (by decide)
    (show _ = Except.ok (⟨16, [49, 48, 48, 48, 0, 1, 1, 1]⟩, 20) from
      (if_pos (by decide)).trans rfl)
    (show _ = Except.ok (⟨32, [49, 48, 48, 48, 0, 1, 1, 1]⟩, 36) from rfl)
    (show _ = Except.ok (⟨48, [49, 44, 48, 48, 48, 0, 1, 1]⟩, 53) from rfl)
  exact absurd h8 (by decide)

end Thousep

end Jstr
