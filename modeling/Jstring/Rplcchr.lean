import Jstring.ReplaceGrow
import Jstring.Strip

/-!
# Replacing a byte by a byte

`jstr_rplcchr_len`, `jstr_rplcchr`, `jstr_rplcnchr`, `jstr_rplcallchr_len` and
`jstr_rplcallchr` of `include/replace.h`, and `jstr_rplcnchr_len`: with the length
and without it, bounded and unbounded.

`rplcchrs`: on one string all of them leave the same block, that of the
first `n` occurrences replaced, and return how many there were, as the
replacement of strings does with strings of one byte.
-/

namespace Jstr

open Words

/-! ## The functions -/

/-- `for (; n-- && (s = next(s)); *s++ = rplc, ++changed) {}`. -/
def rplcnchrLoop (next : Blk → Nat → Run (Option Nat)) (rplc : UInt8) :
    Nat → Blk → Nat → Nat → Run (Nat × Blk)
  | 0, b, _, changed => .ok (changed, b)
  | n + 1, b, s, changed => do
    match ← next b s with
    | none => .ok (changed, b)
    | some s => do
      let b ← b.write s [rplc]
      rplcnchrLoop next rplc n b (s + 1) (changed + 1)

/-- `for (; (s = next(s)); *s++ = rplc) {}`. -/
def rplcallchrLoop (next : Blk → Nat → Run (Option Nat)) (rplc : UInt8) : Nat → Blk → Nat → Run Blk
  | 0, _, _ => .error .diverge
  | fuel + 1, b, s => do
    match ← next b s with
    | none => .ok b
    | some s => do
      let b ← b.write s [rplc]
      rplcallchrLoop next rplc fuel b (s + 1)

/-- `s = next(s); if (s != NULL) { *s = rplc; return 1; } return 0;`. -/
def rplcFirst (next : Blk → Nat → Run (Option Nat)) (rplc : UInt8) (b : Blk) (s : Nat) :
    Run (Nat × Blk) := do
  match ← next b s with
  | none => .ok (0, b)
  | some s => do
    let b ← b.write s [rplc]
    .ok (1, b)

/-- `strchr(p, c)` over the block. -/
def nextStrchr (env : Mem) (c : UInt8) (b : Blk) (p : Nat) : Run (Option Nat) :=
  strchr (b.over env) p c

/-- `jstr_rplcnchr`. -/
def rplcnchr (env : Mem) (b : Blk) (s : Nat) (find rplc : UInt8) (n : Nat) : Run (Nat × Blk) :=
  rplcnchrLoop (nextStrchr env find) rplc n b s 0

/-- `jstr_rplcallchr_len`. -/
def rplcallchrLen (env : Mem) (b : Blk) (s sz : Nat) (find rplc : UInt8) : Run Blk :=
  rplcallchrLoop (nextMemchr env find (s + sz)) rplc (sz + 1) b s

/-- `jstr_rplcallchr`. -/
def rplcallchr (env : Mem) (b : Blk) (s : Nat) (find rplc : UInt8) : Run Blk :=
  rplcallchrLoop (nextStrchr env find) rplc (sizeMax + 1) b s

/-- `jstr_rplcchr_len`. -/
def rplcchrLen (env : Mem) (b : Blk) (s sz : Nat) (find rplc : UInt8) : Run (Nat × Blk) :=
  rplcFirst (nextMemchr env find (s + sz)) rplc b s

/-- `jstr_rplcchr`. -/
def rplcchr (env : Mem) (b : Blk) (s : Nat) (find rplc : UInt8) : Run (Nat × Blk) :=
  rplcFirst (nextStrchr env find) rplc b s

/-! ## The loops -/

section Loops

variable {next : Blk → Nat → Run (Option Nat)} {c r : UInt8} {e : Nat}

theorem seeks_strchr {env : Mem} {b : Blk} (hfit : e ≤ sizeMax) (hc : c ≠ 0) :
    SeeksWith (0 ∉ ·) [0] [c] b e (nextStrchr env c) := by
  intro b' _ p l h0 hat he
  exact (cstr_over hat h0 (he ▸ hfit)).strchr_eq hc

/-- The loop of `jstr_rplcnchr_len` is the loop with `memchr`. -/
theorem rplcnchrLen_eq_loop (env : Mem) (c r : UInt8) (e : Nat) : ∀ (n : Nat) (b : Blk)
    (s changed : Nat),
    rplcnchrLen env c r e n b s changed = rplcnchrLoop (nextMemchr env c e) r n b s changed
  | 0, _, _, _ => rfl
  | n + 1, b, s, changed => by
      rw [rplcnchrLen, rplcnchrLoop, nextMemchr]
      simp only [bind, Except.bind]
      cases memchr (b.over env) s c (e - s) with
      | none => rfl
      | some p =>
          simp only
          cases b.write p [r] with
          | error f => rfl
          | ok b' => exact rplcnchrLen_eq_loop env c r e n b' (p + 1) (changed + 1)

/-- Before the first match, what is written over it, what is behind it. -/
theorem write_match {b : Blk} {p k : Nat} {rem : Bytes} (hat : b.At p (rem ++ [0]))
    (hk : search [c] rem = some k) :
    b.write (p + k) [r] = .ok (b.put (p + k) [r]) ∧
      (b.put (p + k) [r]).At (p + k + 1) (rem.drop (k + 1) ++ [0]) ∧
      ∀ w, (b.put (p + k) [r]).put (p + k + 1) w = b.put p (rem.take k ++ [r] ++ w) := by
  obtain ⟨hrem, hklen⟩ := eq_append_of_search hk
  have hall : b.At p (rem.take k ++ ([c] ++ (rem.drop (k + 1) ++ [0]))) := by
    rw [hrem] at hat
    simpa only [List.append_assoc, List.length_singleton] using hat
  have hmid := hall.right
  rw [hklen] at hmid
  refine ⟨Blk.write_eq hmid.left.inRange, ?_, fun w => ?_⟩
  · have hbehind := hmid.right
    exact hbehind.put_of_disjoint (.inr (Nat.le_refl _))
  · have hself : b.put p (rem.take k) = b := Memory.Block.put_of_at hall.left
    have h1 := Memory.Block.put_append b p (rem.take k) [r]
    have h2 := Memory.Block.put_append b p (rem.take k ++ [r]) w
    rw [hself, hklen] at h1
    rw [List.length_append, hklen, List.length_singleton, ← Nat.add_assoc] at h2
    rw [h1, h2]

/-- The block with the first `n` matches in what remains replaced. -/
theorem rplcnchrLoop_eq : ∀ (n : Nat) {b : Blk} {p changed : Nat} {rem : Bytes},
    SeeksWith (0 ∉ ·) [0] [c] b e next → 0 ∉ rem → b.At p (rem ++ [0]) → p + rem.length = e →
    rplcnchrLoop next r n b p changed
      = .ok (changed + countN [c] n rem, b.put p (replaceN [c] [r] n rem)) := by
  intro n
  induction n with
  | zero =>
      intro b p changed rem _ _ hat _
      have hself : b.put p rem = b := Memory.Block.put_of_at hat.left
      have hzero : replaceN [c] [r] 0 rem = rem := rfl
      rw [hzero, hself]
      rfl
  | succ n ih =>
      intro b p changed rem hnext h0 hat he
      have hfind := hnext b (SameBlock.refl b) p rem h0 hat he
      rw [rplcnchrLoop, hfind]
      cases hk : search [c] rem with
      | none =>
          rw [countN_succ_none hk, replaceN_succ_none hk, Memory.Block.put_of_at hat.left]
          rfl
      | some k =>
          obtain ⟨hwrite, hbehind, hput⟩ := @write_match c r b p k rem hat hk
          have hlt := search_lt hk
          rw [List.length_singleton] at hlt
          have hrest := @ih (b.put (p + k) [r]) (p + k + 1) (changed + 1) (rem.drop (k + 1))
            (hnext.same (sameBlock_put b _ _)) (fun hz => h0 (List.mem_of_mem_drop hz)) hbehind
            (by rw [List.length_drop]; omega)
          simp only [bind, Except.bind, Option.map_some, hwrite, hrest, hput]
          rw [countN_succ_some hk, replaceN_succ_some hk, List.length_singleton]
          congr 2
          omega

/-- Without a bound the loop ends when no match is left. -/
theorem rplcallchrLoop_eq : ∀ (fuel : Nat) {b : Blk} {p : Nat} {rem : Bytes},
    SeeksWith (0 ∉ ·) [0] [c] b e next → 0 ∉ rem → b.At p (rem ++ [0]) → p + rem.length = e →
    rem.length < fuel →
    rplcallchrLoop next r fuel b p = .ok (b.put p (replaceN [c] [r] fuel rem)) := by
  intro fuel
  induction fuel with
  | zero => exact fun _ _ _ _ hf => absurd hf (Nat.not_lt_zero _)
  | succ fuel ih =>
      intro b p rem hnext h0 hat he hf
      have hfind := hnext b (SameBlock.refl b) p rem h0 hat he
      rw [rplcallchrLoop, hfind]
      cases hk : search [c] rem with
      | none =>
          rw [replaceN_succ_none hk, Memory.Block.put_of_at hat.left]
          rfl
      | some k =>
          obtain ⟨hwrite, hbehind, hput⟩ := @write_match c r b p k rem hat hk
          have hlt := search_lt hk
          rw [List.length_singleton] at hlt
          have hrest := @ih (b.put (p + k) [r]) (p + k + 1) (rem.drop (k + 1))
            (hnext.same (sameBlock_put b _ _)) (fun hz => h0 (List.mem_of_mem_drop hz)) hbehind
            (by rw [List.length_drop]; omega) (by rw [List.length_drop]; omega)
          simp only [bind, Except.bind, Option.map_some, hwrite, hrest, hput]
          rw [replaceN_succ_some hk, List.length_singleton]

/-- The first match only. -/
theorem rplcFirst_eq (b : Blk) (p : Nat) :
    rplcFirst next r b p = rplcnchrLoop next r 1 b p 0 := by
  rw [rplcFirst, rplcnchrLoop]
  simp only [bind, Except.bind]
  cases next b p with
  | error f => rfl
  | ok o =>
      cases o with
      | none => rfl
      | some q =>
          simp only
          cases b.write q [r] <;> rfl

end Loops

/-- `jstr_rplcnchr` on a string of a record. -/
theorem rplcnchr_spec (env : Mem) {j : JstrTy} {b : Blk} {s : Bytes} (hs : Str j s)
    (hd : j.data = some b) (h0 : 0 ∉ s) (haddr : Addressed j) {c : UInt8} (hc : c ≠ 0) (r : UInt8)
    (n : Nat) : ∃ b', rplcnchr env b b.addr c r n = .ok (countN [c] n s, b') ∧
      b' = b.put b.addr (replaceN [c] [r] n s) ∧
      Str { j with data := some b' } (replaceN [c] [r] n s) := by
  obtain ⟨b', hd', hcap, hsize, hat⟩ := id hs
  obtain rfl : b = b' := Option.some.inj (hd.symm.trans hd')
  have hfit := haddr b hd
  rw [hsize] at hfit
  have hlen : (replaceN [c] [r] n s).length = s.length :=
    Nat.add_right_cancel (length_replaceN [c] [r] n s)
  have hstrchr := @seeks_strchr c (b.addr + s.length) env b hfit hc
  have hrun := @rplcnchrLoop_eq _ c r _ n b b.addr 0 s hstrchr h0 hat rfl
  rw [Nat.zero_add] at hrun
  refine ⟨_, hrun, rfl, _, rfl, by rw [Memory.Block.put_size, hcap], hsize.trans hlen.symm, ?_⟩
  exact @Memory.Block.At.put_mid _ b b.addr [] s (replaceN [c] [r] n s) [0] hat hlen

/-- Every way to replace a byte by a byte: with the length and without it, the first one, the
first `n` and all leave one and the same block, the number returned being that of
the replaced ones; and the replacement of strings by strings, given the two bytes, leaves
that text and returns that number. -/
theorem rplcchrs (cfg : Build) (env : Mem) (al : Alloc) {j : JstrTy} {b : Blk} {s : Bytes}
    (hs : Str j s) (hd : j.data = some b) (h0 : 0 ∉ s) (haddr : Addressed j) {c : UInt8}
    (hc : c ≠ 0) (r : UInt8) (n : Nat) :
    ∃ k b', rplcnchrLen env c r (b.addr + s.length) n b b.addr 0 = .ok (k, b') ∧
      rplcnchr env b b.addr c r n = .ok (k, b') ∧ k = min n (s.count c) ∧
      Str { j with data := some b' } (replaceN [c] [r] n s) ∧
      (n = 1 → rplcchrLen env b b.addr s.length c r = .ok (k, b') ∧
        rplcchr env b b.addr c r = .ok (k, b')) ∧
      (s.length ≤ n → rplcallchrLen env b b.addr s.length c r = .ok b' ∧
        rplcallchr env b b.addr c r = .ok b') ∧
      ∀ find, MemAt env find [c] → Apart b find 1 → AllocApart al find 1 →
        s.length + s.length + 1 ≤ sizeMax →
        ∃ j', rplcnLenFrom cfg env al j 0 find 1 [r] n = .ok (k, j') ∧
          Str j' (replaceN [c] [r] n s) := by
  obtain ⟨b', hd', hcap, hsize, hat⟩ := id hs
  obtain rfl : b = b' := Option.some.inj (hd.symm.trans hd')
  have hfit := haddr b hd
  rw [hsize] at hfit
  have hlen : ∀ m, (replaceN [c] [r] m s).length = s.length := fun m =>
    Nat.add_right_cancel (length_replaceN [c] [r] m s)
  have hmemchr := (@seeks_memchr env c b (b.addr + s.length)).seeksWith (0 ∉ ·) [0]
  have hstrchr := @seeks_strchr c (b.addr + s.length) env b hfit hc
  have hrun := fun m => @rplcnchrLoop_eq _ c r _ m b b.addr 0 s hmemchr h0 hat rfl
  have hrun' := fun m => @rplcnchrLoop_eq _ c r _ m b b.addr 0 s hstrchr h0 hat rfl
  simp only [Nat.zero_add] at hrun hrun'
  obtain ⟨_, -, rfl, hstr⟩ := rplcnchr_spec env hs hd h0 haddr hc r n
  refine ⟨countN [c] n s, _, ?_, hrun' n, ?_, hstr, ?_, ?_, ?_⟩
  · rw [rplcnchrLen_eq_loop, hrun]
  · rw [countN_eq_min (List.cons_ne_nil c []), countAll_singleton]
  · rintro rfl
    rw [rplcchrLen, rplcchr, rplcFirst_eq, rplcFirst_eq]
    exact ⟨hrun 1, hrun' 1⟩
  · intro hn
    have hsame : ∀ m, s.length ≤ m → replaceN [c] [r] m s = replaceN [c] [r] n s := fun m hm =>
      (replaceN_eq_replaceAll (List.cons_ne_nil c []) [r] hm).trans
        (replaceN_eq_replaceAll (List.cons_ne_nil c []) [r] hn).symm
    have hlt : s.length < sizeMax + 1 := by omega
    constructor
    · rw [rplcallchrLen, rplcallchrLoop_eq _ hmemchr h0 hat rfl (Nat.lt_succ_self _),
        hsame _ (Nat.le_succ _)]
    · rw [rplcallchr, rplcallchrLoop_eq _ hstrchr h0 hat rfl hlt, hsame _ (Nat.le_of_lt hlt)]
  · intro find hmem hap hal hroom
    have hspec := @rplcnLenFrom_spec cfg env al j find s [c] [r] hs h0 hmem (List.cons_ne_nil c [])
      (fun b₁ hb₁ => Option.some.inj (hd.symm.trans hb₁) ▸ hap) hal 0 n (by
        rw [List.take_zero, List.nil_append, List.drop_zero, hlen]
        exact hroom)
    have hok := hspec.ok_of_le (rplcnRoom_le_capacity hs (Nat.le_refl 1))
    rwa [List.take_zero, List.nil_append, List.drop_zero] at hok

/-- The first 'b' of "abba" replaced by '-'. -/
theorem rplcchrs_abba : ∃ k b',
    rplcnchr (memOf []) ⟨64, [97, 98, 98, 97, 0]⟩ 64 98 45 1 = .ok (k, b') ∧
      rplcchr (memOf []) ⟨64, [97, 98, 98, 97, 0]⟩ 64 98 45 = .ok (k, b') ∧ k = 1 ∧
      Str ⟨some b', 4, 5⟩ [97, 45, 98, 97] := by
  have hs : Str ⟨some ⟨64, [97, 98, 98, 97, 0]⟩, 4, 5⟩ [97, 98, 98, 97] :=
    ⟨_, rfl, rfl, rfl, by decide, by decide⟩
  have haddr : Addressed ⟨some ⟨64, [97, 98, 98, 97, 0]⟩, 4, 5⟩ := by
    rintro b ⟨⟩
    decide
  obtain ⟨k, b', -, hrun, hk, hstr, hfirst, -⟩ := @rplcchrs sse2Build (memOf []) Alloc.failing _ _ _ hs
    rfl (by decide) haddr 98 (by decide) 45 1
  exact ⟨k, b', hrun, (hfirst rfl).2, hk, hstr⟩

end Jstr
