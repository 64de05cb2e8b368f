import Mathlib.Data.List.TakeWhile
import Jstring.Libc
import Jstring.Thousep

/-!
# Unescaping

`jstr_unescapecpy_p` and `jstr_unescape_p`. One loop reads at `s` and
writes at `d`; the source is the rest of the address space or, in place,
the block written to. The octal case writes its byte while it reads its
digits.

- `unescape`: the decoder on byte lists;
- `unescapeStep_spec`, `unescapeLoop_eq`: an iteration decodes what one
  step of `unescape` decodes, and what is still to be read is not written;
- `unescape_spec`: in place and copied, the cursors, the round trips.
-/

namespace Jstr

open Numeral

/-! ## The loop -/

/-- `for (int o = 3; o-- && *s <= '7' && *s >= '0'; ++s)`. -/
def octLoop (env : Mem) : Nat → Blk → Nat → Nat → Run (Blk × Nat)
  | 0, b, _, s => .ok (b, s)
  | o + 1, b, d, s =>
    let c := b.over env s
    if c ≤ 55 ∧ 48 ≤ c then do
      let x ← b.read d
      let b ← b.write d [(x <<< 3) + (c - 48)]
      octLoop env o b d (s + 1)
    else .ok (b, s)

/-- The byte that a letter behind a backslash stands for. -/
def escaped (c : UInt8) : UInt8 :=
  if c = 98 then 8
  else if c = 102 then 12
  else if c = 110 then 10
  else if c = 114 then 13
  else if c = 116 then 9
  else if c = 118 then 11
  else c

/-- The block, and where the loop writes and reads next. -/
structure UnescapeSt where
  b : Blk
  d : Nat
  s : Nat

/-- An iteration of `jstr_unescapecpy_p`: on, or out of the loop. -/
def unescapeStep (env : Mem) (st : UnescapeSt) : Run (UnescapeSt ⊕ Blk × Nat) :=
  let c := st.b.over env st.s
  if c ≠ 92 then
    if c = 0 then .ok (.inr (st.b, st.d))
    else do
      let b ← st.b.write st.d [c]
      .ok (.inl ⟨b, st.d + 1, st.s + 1⟩)
  else
    let e := st.b.over env (st.s + 1)
    if e = 0 then .ok (.inr (st.b, st.d))
    else if 48 ≤ e ∧ e ≤ 55 then do
      let b ← st.b.write st.d [0]
      let (b, s) ← octLoop env 3 b st.d (st.s + 1)
      let x ← b.read st.d
      if x = 0 then .ok (.inr (b, st.d)) else .ok (.inl ⟨b, st.d + 1, s⟩)
    else do
      let b ← st.b.write st.d [escaped e]
      .ok (.inl ⟨b, st.d + 1, st.s + 2⟩)

/-- The loop of `jstr_unescapecpy_p`. -/
def unescapeLoop (env : Mem) : Nat → UnescapeSt → Run (Blk × Nat)
  | 0, _ => .error .diverge
  | fuel + 1, st => do
    match ← unescapeStep env st with
    | .inl st => unescapeLoop env fuel st
    | .inr r => .ok r

/-- `jstr_unescapecpy_p`. -/
def unescapecpyP (env : Mem) (b : Blk) (dst src : Nat) : Run (Blk × Nat) := do
  let (b, d) ← unescapeLoop env (sizeMax + 1) ⟨b, dst, src⟩
  let b ← b.write d [0]
  .ok (b, d)

/-- `jstr_unescape_p`. -/
def unescapeP (env : Mem) (b : Blk) (s : Nat) : Run (Blk × Nat) := do
  let s ← scan (fun c => c == 92 || c == 0) (b.over env) (sizeMax + 1) s
  if b.over env s = 0 then .ok (b, s) else unescapecpyP env b s s

/-! ## The decoder -/

def isOctal (c : UInt8) : Bool := 48 ≤ c && c ≤ 55

/-- The octal digits in front, three at most. -/
def octals (s : Bytes) : Bytes := (s.take 3).takeWhile isOctal

/-- Their value, modulo 256. -/
def octVal (ds : Bytes) : UInt8 := UInt8.ofNat (horner 8 0 (ds.map fun c => c.toNat - 48))

/-- What a text stands for: a letter behind a backslash, an octal number there, any
other byte there itself; a backslash at the end is dropped, and the text ends at
a zero. -/
def unescape : Bytes → Bytes
  | [] => []
  | c :: s =>
    if c ≠ 92 then c :: unescape s
    else
      match s with
      | [] => []
      | e :: s =>
        if octals (e :: s) = [] then escaped e :: unescape s
        else if octVal (octals (e :: s)) = 0 then []
        else octVal (octals (e :: s)) :: unescape ((e :: s).drop (octals (e :: s)).length)
termination_by s => s.length
decreasing_by
  all_goals simp only [List.length_cons, List.length_drop]
  all_goals omega

section Decoder

variable {c e : UInt8} {s : Bytes}

@[simp] theorem unescape_nil : unescape [] = [] := by rw [unescape]

theorem unescape_literal (h : c ≠ 92) (s : Bytes) : unescape (c :: s) = c :: unescape s := by
  rw [unescape.eq_def]
  exact if_pos h

@[simp] theorem unescape_end : unescape [92] = [] := by
  rw [unescape, if_neg (not_not.mpr rfl)]

theorem unescape_letter (h : octals (e :: s) = []) :
    unescape (92 :: e :: s) = escaped e :: unescape s := by
  rw [unescape, if_neg (not_not.mpr rfl)]
  exact if_pos h

theorem unescape_octal (h : octals s ≠ []) (h0 : octVal (octals s) ≠ 0) :
    unescape (92 :: s) = octVal (octals s) :: unescape (s.drop (octals s).length) := by
  cases s with
  | nil => exact absurd rfl h
  | cons e s =>
      rw [unescape, if_neg (not_not.mpr rfl)]
      exact (if_neg h).trans (if_neg h0)

theorem unescape_zero (h : octals s ≠ []) (h0 : octVal (octals s) = 0) :
    unescape (92 :: s) = [] := by
  cases s with
  | nil => exact absurd rfl h
  | cons e s =>
      rw [unescape, if_neg (not_not.mpr rfl)]
      exact (if_neg h).trans (if_pos h0)

theorem octals_cons : octals (e :: s) = if isOctal e then e :: (s.take 2).takeWhile isOctal else [] := by
  rw [octals, List.take_succ_cons, List.takeWhile_cons]

/-- The digits, accumulated in a byte. -/
theorem foldl_octal : ∀ (ds : Bytes) (x : UInt8) (n : Nat), (∀ c ∈ ds, isOctal c = true) → x = UInt8.ofNat n →
    ds.foldl (fun (x c : UInt8) => (x <<< 3) + (c - 48)) x
      = UInt8.ofNat (horner 8 n (ds.map fun c => c.toNat - 48))
  | [], x, n, _, hx => hx
  | c :: ds, x, n, hds, hx => by
      have hc := hds c List.mem_cons_self
      rw [isOctal, Bool.and_eq_true, decide_eq_true_eq, decide_eq_true_eq, UInt8.le_iff_toNat_le,
        UInt8.le_iff_toNat_le] at hc
      rw [List.foldl_cons, List.map_cons, horner_cons]
      refine foldl_octal ds _ _ (fun c h => hds c (List.mem_cons_of_mem _ h)) ?_
      rw [← UInt8.toNat_inj, UInt8.toNat_add, UInt8.toNat_shiftLeft, UInt8.toNat_sub_of_le _ _
        (UInt8.le_iff_toNat_le.mpr hc.1), hx, UInt8.toNat_ofNat', UInt8.toNat_ofNat']
      have : (48 : UInt8).toNat = 48 := rfl
      have : (3 : UInt8).toNat % 8 = 3 := rfl
      rw [this, Nat.shiftLeft_eq]
      omega

end Decoder

/-! ## An iteration -/

section Step

variable {env : Mem} {b : Blk} {dst s : Nat} {done rest : Bytes} {st : UnescapeSt}

/-- `done` has been written from `dst` on, and `rest` is to be read: it is not
where the bytes are written. -/
structure Reading (env : Mem) (b : Blk) (dst : Nat) (done rest : Bytes) (st : UnescapeSt) :
    Prop where
  blk : st.b = b.put dst done
  d : st.d = dst + done.length
  text : MemAt (b.over env) st.s (rest ++ [0])
  nonzero : 0 ∉ rest
  apart : dst + done.length ≤ st.s ∨ Apart b st.s (rest ++ [0]).length

/-- The bytes there are read from the block as it is. -/
theorem Reading.memAt (h : Reading env b dst done rest st) :
    MemAt (st.b.over env) st.s (rest ++ [0]) := by
  rw [h.blk]
  exact memAt_over_put h.text h.apart

/-- What is to be read is still behind the write cursor, or elsewhere, when `k` bytes of it
have been read and at most as many were written. -/
theorem unread_next {w w' s n k : Nat} (h : w ≤ s ∨ Apart b s n) (hw : w' ≤ w + k) (hk : k ≤ n) :
    w' ≤ s + k ∨ Apart b (s + k) (n - k) := by
  rcases h with hlt | hlt | hlt
  · left
    omega
  · right
    left
    omega
  · right
    right
    omega

/-- On: one byte more is written, and `k` bytes are read. -/
theorem Reading.next (h : Reading env b dst done rest st) {c : UInt8} {k : Nat} (hk : 0 < k)
    (hle : k ≤ rest.length) : Reading env b dst (done ++ [c]) (rest.drop k)
      ⟨b.put dst (done ++ [c]), dst + done.length + 1, st.s + k⟩ where
  blk := rfl
  d := by
    rw [List.length_append]
    rfl
  text := by
    have := h.text.drop (show k ≤ (rest ++ [0]).length by rw [List.length_append]; omega)
    rwa [List.drop_append_of_le_length hle] at this
  nonzero := fun h0 => h.nonzero (List.mem_of_mem_drop h0)
  apart := by
    have hn : (rest.drop k ++ [0]).length = (rest ++ [0]).length - k := by
      rw [List.length_append, List.length_append, List.length_drop]
      omega
    have hdone : (done ++ [c]).length = done.length + 1 := List.length_append
    rw [hn, hdone]
    exact unread_next h.apart (by omega) (by rw [List.length_append]; omega)

theorem isOctal_iff {c : UInt8} : isOctal c = true ↔ 48 ≤ c ∧ c ≤ 55 := by
  rw [isOctal, Bool.and_eq_true, decide_eq_true_eq, decide_eq_true_eq]

/-- One digit more is put into the byte written last. -/
theorem octDigit_eq {x y : UInt8} (hin : b.InRange dst (done ++ [x]).length) :
    Blk.read (b.put dst (done ++ [x])) (dst + done.length) = .ok x ∧
      Blk.write (b.put dst (done ++ [x])) (dst + done.length) [y]
        = .ok (b.put dst (done ++ [y])) := by
  have hwrite := @write_mid b dst done [] x y (by rwa [List.append_nil])
  rw [List.append_nil, List.append_nil] at hwrite
  exact ⟨Blk.read_eq (Memory.Block.at_put hin).right, hwrite⟩

/-- The digits are accumulated in the byte they make. -/
theorem octLoop_eq : ∀ (o : Nat) {t : Bytes} {x : UInt8} {s : Nat},
    MemAt (b.over env) s (t ++ [0]) →
    (dst + (done ++ [x]).length ≤ s ∨ Apart b s (t ++ [0]).length) →
    b.InRange dst (done ++ [x]).length →
    octLoop env o (b.put dst (done ++ [x])) (dst + done.length) s
      = .ok (b.put dst (done ++ [((t.take o).takeWhile isOctal).foldl
          (fun (x c : UInt8) => (x <<< 3) + (c - 48)) x]),
        s + ((t.take o).takeWhile isOctal).length)
  | 0, t, x, s, _, _, _ => by
      rw [List.take_zero]
      rfl
  | o + 1, t, x, s, htext, hapart, hin => by
      have hread := memAt_over_put htext hapart 0 (by rw [List.length_append]; exact Nat.succ_pos _)
      rw [Nat.add_zero] at hread
      rw [octLoop]
      simp only [hread]
      cases t with
      | nil =>
          rw [if_neg (by decide)]
          rfl
      | cons c t =>
          simp only [List.cons_append, List.getElem_cons_zero]
          rw [List.take_succ_cons, List.takeWhile_cons]
          by_cases hc : isOctal c = true
          · have hlen : ∀ y, (done ++ [y]).length = (done ++ [x]).length := fun y => by
              rw [List.length_append, List.length_append]
              rfl
            have hrest : MemAt (b.over env) (s + 1) (t ++ [0]) :=
              htext.drop (show 1 ≤ (c :: t ++ [0]).length from Nat.succ_pos _)
            have hloop := @octLoop_eq o t ((x <<< 3) + (c - 48)) (s + 1) hrest
              (by
                rw [hlen]
                exact unread_next hapart (Nat.le_add_right _ 1) (Nat.succ_pos _))
              (by rwa [hlen])
            obtain ⟨hx, hput⟩ := @octDigit_eq b dst done x ((x <<< 3) + (c - 48)) hin
            rw [if_pos (isOctal_iff.mp hc).symm, hx]
            simp only [bind, Except.bind]
            rw [hput]
            simp only
            rw [hloop, hc, if_pos rfl, List.length_cons, List.foldl_cons, Nat.add_assoc s 1,
              Nat.add_comm 1]
          · rw [if_neg fun h => hc (isOctal_iff.mpr h.symm), if_neg hc]
            rfl

/-- What the digits behind a backslash leave in the byte. -/
theorem octLoop_octals (h : Reading env b dst done (92 :: rest) st)
    (hin : b.InRange dst (done ++ [0]).length) :
    octLoop env 3 (b.put dst (done ++ [0])) (dst + done.length) (st.s + 1)
      = .ok (b.put dst (done ++ [octVal (octals rest)]), st.s + 1 + (octals rest).length) := by
  have hnext := @Reading.next env b dst done _ st h 0 1 Nat.one_pos (Nat.succ_pos _)
  have hval := foldl_octal (octals rest) 0 0 (fun c hc => List.mem_takeWhile_imp hc) rfl
  rw [octLoop_eq 3 hnext.text hnext.apart hin, octVal, ← hval]
  rfl

/-- One cell more. -/
theorem inRange_next {l m : Bytes} (hroom : b.InRange dst (done ++ l ++ m).length)
    (hm : m ≠ []) (c : UInt8) : b.InRange dst (done ++ [c]).length := by
  have := List.length_pos_iff.mpr hm
  rw [List.length_append, List.length_append] at hroom
  rw [List.length_append, List.length_singleton]
  exact ⟨hroom.1, by have := hroom.2; omega⟩

/-- What an iteration is to do: write what one step of the decoder yields, or end
with it. -/
def StepsAs (env : Mem) (b : Blk) (dst : Nat) (done rest : Bytes) (st : UnescapeSt) : Prop :=
  (unescape rest = [] ∧ ∃ m, m.length ≤ 1 ∧
    unescapeStep env st = .ok (.inr (b.put dst (done ++ m), dst + done.length))) ∨
  ∃ c k st', 0 < k ∧ k ≤ rest.length ∧ unescape rest = c :: unescape (rest.drop k) ∧
    unescapeStep env st = .ok (.inl st') ∧ Reading env b dst (done ++ [c]) (rest.drop k) st'

/-- Behind a backslash. -/
theorem unescapeStep_escape (h : Reading env b dst done (92 :: rest) st)
    (hcell : ∀ c, b.InRange dst (done ++ [c]).length) :
    StepsAs env b dst done (92 :: rest) st := by
  have hread := h.memAt
  have hwrite : ∀ c, Blk.write (b.put dst done) (dst + done.length) [c]
      = .ok (b.put dst (done ++ [c])) := fun c => (write_next (hcell c)).1
  have hfirst : st.b.over env st.s = 92 := hread 0 (Nat.succ_pos _)
  have hsecond := hread 1 (by simp)
  cases rest with
  | nil =>
      left
      refine ⟨unescape_end, [], Nat.zero_le _, ?_⟩
      rw [unescapeStep]
      simp only [hfirst, hsecond]
      rw [List.append_nil, ← h.blk, ← h.d]
      rfl
  | cons e rest =>
      replace hsecond : st.b.over env (st.s + 1) = e := hsecond
      have he0 : e ≠ 0 := fun h0 => h.nonzero (h0 ▸ List.mem_cons_of_mem _ List.mem_cons_self)
      rw [StepsAs, unescapeStep]
      simp only [hfirst, hsecond]
      rw [if_neg (not_not.mpr rfl), if_neg he0, h.blk, h.d]
      by_cases hoct : isOctal e = true
      · have hne : octals (e :: rest) ≠ [] := by
          rw [octals_cons, if_pos hoct]
          exact List.cons_ne_nil e _
        have hval : Memory.Block.At (b.put dst (done ++ [octVal (octals (e :: rest))]))
            (dst + done.length) [octVal (octals (e :: rest))] :=
          (Memory.Block.at_put (hcell _)).right
        have hk : (octals (e :: rest)).length ≤ (e :: rest).length :=
          (List.takeWhile_prefix _).length_le.trans (List.take_prefix _ _).length_le
        rw [if_pos (isOctal_iff.mp hoct), hwrite]
        simp only [bind, Except.bind]
        rw [octLoop_octals h (hcell 0)]
        simp only
        rw [Blk.read_eq hval]
        simp only
        by_cases h0 : octVal (octals (e :: rest)) = 0
        · exact .inl ⟨unescape_zero hne h0, _, Nat.le_refl _, if_pos h0⟩
        · refine .inr ⟨_, (octals (e :: rest)).length + 1, _, Nat.succ_pos _, Nat.succ_le_succ hk,
            unescape_octal hne h0, if_neg h0, ?_⟩
          have hnext := @Reading.next env b dst done _ st h (octVal (octals (e :: rest))) _
            (Nat.succ_pos _) (Nat.succ_le_succ hk)
          rwa [show st.s + (octals (e :: rest)).length.succ
            = st.s + 1 + (octals (e :: rest)).length by omega] at hnext
      · have hnil : octals (e :: rest) = [] := by rw [octals_cons, if_neg hoct]
        rw [if_neg fun h => hoct (isOctal_iff.mpr h), hwrite]
        exact .inr ⟨_, 2, _, Nat.two_pos, Nat.succ_le_succ (Nat.succ_pos _), unescape_letter hnil,
          rfl, h.next Nat.two_pos (Nat.succ_le_succ (Nat.succ_pos _))⟩

theorem unescapeStep_spec (h : Reading env b dst done rest st)
    (hroom : b.InRange dst (done ++ unescape rest ++ [0]).length) :
    StepsAs env b dst done rest st := by
  have hcell := inRange_next hroom (List.cons_ne_nil 0 [])
  have hread := h.memAt
  cases rest with
  | nil =>
      have hfirst : st.b.over env st.s = 0 := hread 0 Nat.one_pos
      left
      refine ⟨unescape_nil, [], Nat.zero_le _, ?_⟩
      rw [unescapeStep]
      simp only [hfirst]
      rw [List.append_nil, ← h.blk, ← h.d]
      rfl
  | cons c rest =>
      have hfirst : st.b.over env st.s = c := hread 0 (Nat.succ_pos _)
      have hc0 : c ≠ 0 := fun h0 => h.nonzero (h0 ▸ List.mem_cons_self)
      by_cases hc : c = 92
      · subst hc
        exact unescapeStep_escape h hcell
      · refine .inr ⟨c, 1, _, Nat.one_pos, Nat.succ_pos _, unescape_literal hc rest, ?_,
          h.next Nat.one_pos (Nat.succ_pos _)⟩
        rw [unescapeStep]
        simp only [hfirst]
        rw [if_pos hc, if_neg hc0, h.blk, h.d, (write_next (hcell c)).1]
        rfl

/-! ## The run -/

/-- Every iteration reads a byte at least. What the octal case may have left behind
the text is where the terminator goes. -/
theorem unescapeLoop_eq : ∀ (fuel : Nat) {rest done : Bytes} {st : UnescapeSt},
    Reading env b dst done rest st → rest.length < fuel →
    b.InRange dst (done ++ unescape rest ++ [0]).length →
    ∃ m, m.length ≤ 1 ∧ unescapeLoop env fuel st
      = .ok (b.put dst (done ++ unescape rest ++ m), dst + (done ++ unescape rest).length)
  | 0, _, _, _, _, hf, _ => absurd hf (Nat.not_lt_zero _)
  | fuel + 1, rest, done, st, h, hf, hroom => by
      rw [unescapeLoop]
      rcases unescapeStep_spec h hroom with ⟨hnil, m, hm, hstep⟩ | ⟨c, k, st', hk, hle, hun, hstep, hnext⟩
      · refine ⟨m, hm, ?_⟩
        rw [hstep, hnil, List.append_nil]
        rfl
      · have happ : done ++ unescape rest = done ++ [c] ++ unescape (rest.drop k) := by
          rw [hun, ← List.append_cons]
        rw [happ] at hroom ⊢
        rw [hstep]
        exact unescapeLoop_eq fuel hnext (by rw [List.length_drop]; omega) hroom

/-- `jstr_unescapecpy_p` writes what the text stands for. -/
theorem unescapecpyP_eq {t : Bytes} {src : Nat} (hread : Reading env b dst [] t ⟨b, dst, src⟩)
    (hlen : t.length ≤ sizeMax) (hroom : b.InRange dst ((unescape t).length + 1)) :
    unescapecpyP env b dst src
      = .ok (b.put dst (unescape t ++ [0]), dst + (unescape t).length) := by
  have hin : b.InRange dst (unescape t ++ [0]).length := by rwa [List.length_append]
  obtain ⟨m, hm, hloop⟩ := unescapeLoop_eq (sizeMax + 1) hread (Nat.lt_succ_of_le hlen) hin
  rw [unescapecpyP, hloop]
  simp only [bind, Except.bind, List.nil_append]
  have hend : Blk.write (b.put dst (unescape t ++ m)) (dst + (unescape t).length) [0]
      = .ok (b.put dst (unescape t ++ [0])) := by
    cases m with
    | nil =>
        rw [List.append_nil]
        exact write_nul hin
    | cons x m =>
        cases m with
        | nil =>
            have := @write_mid b dst (unescape t) [] x 0 (by
              rw [List.append_nil, List.length_append]
              exact hroom)
            rwa [List.append_nil, List.append_nil] at this
        | cons y m => simp at hm
  rw [hend]

end Step

/-! ## In place -/

theorem unescape_append : ∀ {x : Bytes}, 92 ∉ x → ∀ y, unescape (x ++ y) = x ++ unescape y
  | [], _, _ => rfl
  | c :: x, hx, y => by
      rw [List.mem_cons, not_or] at hx
      rw [List.cons_append, unescape_literal (fun h => hx.1 h.symm), unescape_append hx.2]
      rfl

/-- No escape is shorter than what it stands for. -/
theorem length_unescape_le (t : Bytes) : (unescape t).length ≤ t.length := by
  fun_induction unescape t with
  | case1 => exact Nat.le_refl _
  | case2 c s _ ih => exact Nat.succ_le_succ ih
  | case3 => exact Nat.zero_le _
  | case4 c e s _ _ ih =>
      simp only [List.length_cons]
      omega
  | case5 => exact Nat.zero_le _
  | case6 c e s _ _ _ ih =>
      simp only [List.length_cons, List.length_drop] at ih ⊢
      omega

theorem unescapeP_eq {env : Mem} {b : Blk} {p : Nat} {t : Bytes} (hat : b.At p (t ++ [0]))
    (h0 : 0 ∉ t) (hlen : t.length ≤ sizeMax) :
    unescapeP env b p = .ok (b.put p (unescape t ++ [0]), p + (unescape t).length) := by
  -- up to the first backslash, and from there
  obtain ⟨x, y, rfl, hx, hy⟩ : ∃ x y, t = x ++ y ∧ 92 ∉ x ∧ (y = [] ∨ ∃ y', y = 92 :: y') := by
    refine ⟨t.takeWhile (· ≠ 92), t.dropWhile (· ≠ 92), List.takeWhile_append_dropWhile.symm,
      fun h => ?_, ?_⟩
    · have := List.mem_takeWhile_imp h
      simp at this
    · cases hd : t.dropWhile (· ≠ 92) with
      | nil => exact .inl rfl
      | cons c y' =>
          have := List.head?_dropWhile_not (· ≠ 92) t
          rw [hd] at this
          simp only [List.head?_cons] at this
          exact .inr ⟨y', by simpa using this⟩
  rw [List.append_assoc] at hat
  rw [List.length_append] at hlen
  rw [List.mem_append, not_or] at h0
  obtain ⟨hbefore, hbehind⟩ := memAt_append.mp (@memAt_over env b p _ hat)
  have hfirst : b.over env (p + x.length) = (y ++ [0]).headD 0 := by
    have := hbehind 0 (by rw [List.length_append]; exact Nat.succ_pos _)
    rw [Nat.add_zero] at this
    rw [this]
    rcases hy with rfl | ⟨y', rfl⟩ <;> rfl
  have hscan : scan (fun c => c == 92 || c == 0) (b.over env) (sizeMax + 1) p
      = .ok (p + x.length) := by
    refine scan_eq ?_ (fun i hi => ?_) (by omega)
    · rw [hfirst]
      rcases hy with rfl | ⟨y', rfl⟩ <;> rfl
    · have hmem := List.getElem_mem hi
      rw [hbefore i hi]
      generalize x[i] = c at hmem
      rw [Bool.or_eq_false_iff, beq_eq_false_iff_ne, beq_eq_false_iff_ne]
      exact ⟨fun h => hx (h ▸ hmem), fun h => h0.1 (h ▸ hmem)⟩
  have hput := Memory.Block.put_append b p x (unescape y ++ [0])
  rw [Memory.Block.put_of_at hat.left] at hput
  rw [unescapeP, hscan, unescape_append hx]
  simp only [bind, Except.bind]
  rw [hfirst, List.append_assoc, ← hput, List.length_append, ← Nat.add_assoc]
  rcases hy with rfl | ⟨y', rfl⟩
  · rw [unescape_nil]
    have hsame : Memory.Block.put b (p + x.length) ([] ++ [0]) = b :=
      Memory.Block.put_of_at hat.right
    rw [hsame]
    rfl
  · have hroom := hat.right.inRange
    have hle := length_unescape_le (92 :: y')
    have hne : (92 :: y' ++ [0]).headD 0 ≠ (0 : UInt8) := show (92 : UInt8) ≠ 0 by decide
    rw [if_neg hne]
    refine unescapecpyP_eq ⟨(Blk.put_nil b _).symm, rfl, hbehind, h0.2, .inl (Nat.le_refl _)⟩
      (by omega) ⟨hroom.1, ?_⟩
    have := hroom.2
    rw [List.length_append] at this
    exact le_trans (by simp only [List.length_singleton]; omega) this

/-! ## The cursors -/

/-- An iteration after which the loop goes on. -/
def Iterates (env : Mem) (st st' : UnescapeSt) : Prop := unescapeStep env st = .ok (.inl st')

theorem ensures_any {α : Type} (r : Run α) : Ensures (fun _ => True) r := fun _ _ => trivial

theorem octLoop_le (env : Mem) (d : Nat) : ∀ (o : Nat) (b : Blk) (s : Nat),
    Ensures (fun r : Blk × Nat => s ≤ r.2) (octLoop env o b d s)
  | 0, b, s => ensures_ok (Nat.le_refl s)
  | o + 1, b, s => by
      rw [octLoop]
      split
      · refine (ensures_any _).bind fun x _ => (ensures_any _).bind fun b' _ r hr => ?_
        have := octLoop_le env d o b' (s + 1) r hr
        omega
      · exact ensures_ok (Nat.le_refl s)

/-- One byte written, one read at least. -/
theorem unescapeStep_cursors (env : Mem) (st : UnescapeSt) :
    Ensures (fun r => ∀ st', r = .inl st' → st'.d = st.d + 1 ∧ st.s < st'.s)
      (unescapeStep env st) := by
  have hout : ∀ r : Blk × Nat, Ensures (fun r => ∀ st', r = .inl st' → st'.d = st.d + 1 ∧
      st.s < st'.s) (.ok (.inr r) : Run (UnescapeSt ⊕ Blk × Nat)) := fun r =>
    ensures_ok fun st' h => by cases h
  have hon : ∀ (b : Blk) (s : Nat), st.s < s → Ensures (fun r => ∀ st', r = .inl st' →
      st'.d = st.d + 1 ∧ st.s < st'.s)
      (.ok (.inl ⟨b, st.d + 1, s⟩) : Run (UnescapeSt ⊕ Blk × Nat)) := fun b s hs =>
    ensures_ok fun st' h => by
      cases h
      exact ⟨rfl, hs⟩
  rw [unescapeStep]
  dsimp only
  split
  · split
    · exact hout _
    · exact (ensures_any _).bind fun b _ => hon b _ (Nat.lt_succ_self _)
  · split
    · exact hout _
    · split
      · refine (ensures_any _).bind fun b _ => (octLoop_le env _ 3 b _).bind fun r hr =>
          (ensures_any _).bind fun x _ => ?_
        split
        · exact hout _
        · exact hon _ _ hr
      · exact (ensures_any _).bind fun b _ => hon b _ (by omega)

/-- Started where it reads, the loop never writes behind what it has read. -/
theorem cursors_le {env : Mem} {st st' : UnescapeSt} (h : Relation.ReflTransGen (Iterates env) st st')
    (h0 : st.d ≤ st.s) : st'.d ≤ st'.s := by
  induction h with
  | refl => exact h0
  | tail _ hstep ih =>
      have := unescapeStep_cursors env _ _ hstep _ rfl
      omega

/-! ## The round trips -/

/-- A byte as an octal number of three digits. -/
def octalEscape (c : UInt8) : Bytes :=
  92 :: [c.toNat / 64, c.toNat / 8 % 8, c.toNat % 8].map fun d => UInt8.ofNat (48 + d)

/-- A backslash doubled, any other byte as it is. -/
def doubleBackslash (c : UInt8) : Bytes := if c = 92 then [92, 92] else [c]

theorem octalEscape_digits (c : UInt8) : ∃ ds, octalEscape c = 92 :: ds ∧ ds.length = 3 ∧
    (∀ d ∈ ds, isOctal d = true) ∧ octVal ds = c :=
  have hall := forall_byte (P := fun c =>
    (octalEscape c).tail.all isOctal = true ∧ octVal (octalEscape c).tail = c)
      (by decide +kernel) c
  ⟨_, rfl, rfl, List.all_eq_true.mp hall.1, hall.2⟩

theorem unescape_octalEscape : ∀ {t : Bytes}, 0 ∉ t → unescape (t.flatMap octalEscape) = t
  | [], _ => unescape_nil
  | c :: t, h0 => by
      rw [List.mem_cons, not_or] at h0
      obtain ⟨ds, hc, hlen, hds, hval⟩ := octalEscape_digits c
      have hoct : octals (ds ++ t.flatMap octalEscape) = ds := by
        rw [octals, List.take_left' hlen, List.takeWhile_eq_self_iff]
        exact hds
      have hne : octals (ds ++ t.flatMap octalEscape) ≠ [] := fun h => by
        rw [hoct] at h
        rw [h] at hlen
        exact absurd hlen (by decide)
      have hval0 : octVal (octals (ds ++ t.flatMap octalEscape)) ≠ 0 := fun h => by
        rw [hoct, hval] at h
        exact h0.1 h.symm
      have hstep := unescape_octal hne hval0
      rw [hoct, hval, List.drop_left, unescape_octalEscape h0.2] at hstep
      rw [List.flatMap_cons, hc]
      exact hstep

theorem unescape_doubleBackslash : ∀ t : Bytes, unescape (t.flatMap doubleBackslash) = t
  | [] => unescape_nil
  | c :: t => by
      have ih := unescape_doubleBackslash t
      rw [List.flatMap_cons, doubleBackslash]
      by_cases hc : c = 92
      · have hnil : octals (92 :: t.flatMap doubleBackslash) = [] := by
          rw [octals_cons, if_neg (by decide)]
        rw [if_pos hc, hc]
        exact (unescape_letter hnil).trans (congrArg (92 :: ·) ih)
      · rw [if_neg hc]
        exact (unescape_literal hc _).trans (congrArg (c :: ·) ih)

/-! ## All of it -/

/-- On a string, in place and into a disjoint buffer, the two write what the
decoder makes of it and return the end of that; in place the write cursor is never
behind the read cursor; and both ways of escaping are undone. -/
theorem unescape_spec {t : Bytes} (h0 : 0 ∉ t) (hlen : t.length ≤ sizeMax) :
    (∀ (env : Mem) (b : Blk) (p : Nat), b.At p (t ++ [0]) →
      unescapeP env b p = .ok (b.put p (unescape t ++ [0]), p + (unescape t).length)) ∧
    (∀ (env : Mem) (b : Blk) (dst src : Nat), MemAt env src (t ++ [0]) →
      Apart b src (t ++ [0]).length → b.InRange dst ((unescape t).length + 1) →
      unescapecpyP env b dst src
        = .ok (b.put dst (unescape t ++ [0]), dst + (unescape t).length)) ∧
    (∀ (env : Mem) (b : Blk) (p : Nat) (st : UnescapeSt),
      Relation.ReflTransGen (Iterates env) ⟨b, p, p⟩ st → st.d ≤ st.s) ∧
    unescape (t.flatMap octalEscape) = t ∧ unescape (t.flatMap doubleBackslash) = t :=
  ⟨fun _ _ _ hat => unescapeP_eq hat h0 hlen,
    fun _ _ _ _ hsrc hapart hroom => unescapecpyP_eq ⟨(Blk.put_nil _ _).symm, rfl,
      memAt_over_of_apart hsrc hapart, h0, .inr hapart⟩ hlen hroom,
    fun _ _ _ _ hrun => cursors_le hrun (Nat.le_refl _),
    unescape_octalEscape h0, unescape_doubleBackslash t⟩

/-- `"\\n"`. -/
theorem unescape_spec_newline :
    (∀ (env : Mem) (b : Blk) (p : Nat), b.At p ([92, 110] ++ [0]) →
      unescapeP env b p
        = .ok (b.put p (unescape [92, 110] ++ [0]), p + (unescape [92, 110]).length)) ∧
    (∀ (env : Mem) (b : Blk) (dst src : Nat), MemAt env src ([92, 110] ++ [0]) →
      Apart b src ([92, 110] ++ [0] : Bytes).length →
      b.InRange dst ((unescape [92, 110]).length + 1) →
      unescapecpyP env b dst src
        = .ok (b.put dst (unescape [92, 110] ++ [0]), dst + (unescape [92, 110]).length)) ∧
    (∀ (env : Mem) (b : Blk) (p : Nat) (st : UnescapeSt),
      Relation.ReflTransGen (Iterates env) ⟨b, p, p⟩ st → st.d ≤ st.s) ∧
    unescape (([92, 110] : Bytes).flatMap octalEscape) = [92, 110] ∧
    unescape (([92, 110] : Bytes).flatMap doubleBackslash) = [92, 110] :=
  unescape_spec (by decide) (by decide)

end Jstr
