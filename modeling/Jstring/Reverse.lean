import Jstring.Trim

/-!
# Reversing

`jstr_rev_len`, `jstr_rev_p`, `jstr_revcpy_len` and `jstr_revcpy_p` of
`include/string.h`: two cursors that swap bytes until they meet, and a copy
that reads from the end.

`reverses`: the swaps and the copy leave the same text, whatever it holds
when the length is given; swapping again, or copying the copy, gives it back.
-/

namespace Jstr

/-! ## The functions -/

/-- `for (; s < e;) { c = *s; *s++ = *e; *e-- = c; }`. -/
def revLoop : Nat → Blk → Nat → Nat → Run Blk
  | 0, _, _, _ => .error .diverge
  | fuel + 1, b, s, e =>
    if s < e then do
      let c ← b.read s
      let d ← b.read e
      let b ← b.write s [d]
      let b ← b.write e [c]
      revLoop fuel b (s + 1) (e - 1)
    else .ok b

/-- `jstr_rev_len`. -/
def revLen (b : Blk) (s sz : Nat) : Run Blk := revLoop (sz + 1) b s (s + sz - 1)

/-- `jstr_rev_p`. -/
def revP (env : Mem) (b : Blk) (s : Nat) : Run (Blk × Nat) := do
  let len ← strlen (b.over env) s
  let b ← revLen b s len
  .ok (b, s + len)

/-- `for (; src_len--; *dst++ = *src--) {}`. -/
def revcpyLoop (sb : Blk) : Nat → Blk → Nat → Nat → Run (Blk × Nat)
  | 0, b, dst, _ => .ok (b, dst)
  | srcLen + 1, b, dst, src => do
    let c ← sb.read src
    let b ← b.write dst [c]
    revcpyLoop sb srcLen b (dst + 1) (src - 1)

/-- `jstr_revcpy_len`. The source is in a block of its own. -/
def revcpyLen (b : Blk) (dst : Nat) (sb : Blk) (src srcLen : Nat) : Run Blk := do
  let (b, dst) ← revcpyLoop sb srcLen b dst (src + srcLen - 1)
  b.write dst [0]

/-- `jstr_revcpy_p`. -/
def revcpyP (env : Mem) (b : Blk) (dst : Nat) (sb : Blk) (src : Nat) : Run (Blk × Nat) := do
  let len ← strlen (sb.over env) src
  let b ← revcpyLen b dst sb src len
  .ok (b, dst + len)

/-! ## Swapping -/

section Swap

variable {b : Blk} {s : Nat}

/-- The outermost bytes exchanged, then what is between them reversed. -/
theorem put_swapped {x y : UInt8} {m m' : Bytes} (hat : b.At s (x :: (m ++ [y])))
    (hlen : m'.length = m.length) :
    ((b.put s [y]).put (s + 1 + m.length) [x]).put (s + 1) m' = b.put s (y :: (m' ++ [x])) := by
  have hb : b.put s ([] ++ [x] ++ (m ++ [y])) = b := Memory.Block.put_of_at hat
  have h1 := @Memory.Block.put_put_mid _ b s [] [x] [y] (m ++ [y]) rfl
  have h2 := @Memory.Block.put_put_mid _ b s (y :: m) [y] [x] [] rfl
  have h3 := @Memory.Block.put_put_mid _ b s [y] m m' [x] hlen
  rw [hb] at h1
  simp only [List.nil_append, List.append_nil, List.cons_append, List.length_nil,
    List.length_cons, Nat.add_zero] at h1 h2 h3
  rw [h1, show s + 1 + m.length = s + (m.length + 1) by omega, h2]
  simpa using h3

theorem revLoop_eq : ∀ (l : Bytes) {fuel : Nat} {b : Blk} {s : Nat}, b.At s l → l.length < fuel →
    revLoop fuel b s (s + l.length - 1) = .ok (b.put s l.reverse) := by
  intro l
  induction l using List.bidirectionalRec with
  | nil =>
      intro fuel b s hat hf
      match fuel with
      | fuel + 1 =>
          rw [revLoop, List.length_nil, if_neg (by omega), List.reverse_nil, Blk.put_nil]
  | singleton a =>
      intro fuel b s hat hf
      match fuel with
      | fuel + 1 =>
          rw [revLoop, List.length_singleton, if_neg (by omega), List.reverse_singleton,
            Memory.Block.put_of_at hat]
  | cons_append x m y ih =>
      intro fuel b s hat hf
      match fuel with
      | fuel + 1 =>
          have hlen : (x :: (m ++ [y])).length = m.length + 2 := by
            simp only [List.length_append, List.length_cons, List.length_nil]
          rw [hlen] at hf
          obtain ⟨hx, hrest⟩ := Blk.read_cons hat
          have hy : b.read (s + 1 + m.length) = .ok y := Blk.read_eq hrest.right
          have hin := hat.inRange
          rw [hlen] at hin
          have h1 : b.write s [y] = .ok (b.put s [y]) :=
            Blk.write_eq ⟨hin.1, by have := hin.2; rw [List.length_singleton]; omega⟩
          have h2 : Blk.write (b.put s [y]) (s + 1 + m.length) [x]
              = .ok ((b.put s [y]).put (s + 1 + m.length) [x]) := by
            refine Blk.write_eq ⟨?_, ?_⟩
            · rw [Memory.Block.put_addr]
              have := hin.1
              omega
            · rw [Memory.Block.put_addr, Memory.Block.put_size, List.length_singleton]
              have := hin.2
              omega
          -- the bytes in between are as they were
          have hmid : ((b.put s [y]).put (s + 1 + m.length) [x]).At (s + 1) m :=
            (hrest.left.put_of_disjoint (.inr (by rw [List.length_singleton]))).put_of_disjoint
              (.inl (Nat.le_refl _))
          rw [revLoop, hlen, if_pos (by omega), hx,
            show s + (m.length + 2) - 1 = s + 1 + m.length by omega, hy]
          simp only [bind, Except.bind, h1, h2]
          rw [ih hmid (by omega), put_swapped hat (by rw [List.length_reverse])]
          simp only [List.reverse_cons, List.reverse_append, List.reverse_nil, List.nil_append,
            List.cons_append]

theorem revLen_eq {l : Bytes} (hat : b.At s l) : revLen b s l.length = .ok (b.put s l.reverse) :=
  revLoop_eq l hat (Nat.lt_succ_self _)

end Swap

/-! ## Copying -/

section Copy

variable {b sb : Blk} {dst src : Nat} {l : Bytes}

theorem revcpyLoop_eq : ∀ (l : Bytes) {b : Blk} {dst : Nat}, sb.At src l →
    b.InRange dst (l.length + 1) →
    revcpyLoop sb l.length b dst (src + l.length - 1)
      = .ok (b.put dst l.reverse, dst + l.length) := by
  intro l
  induction l using List.reverseRecOn with
  | nil => exact fun _ _ => by rw [List.reverse_nil, Blk.put_nil]; rfl
  | append_singleton l c ih =>
      intro b dst hat hin
      rw [List.length_append, List.length_singleton] at hin
      have hread : sb.read (src + l.length) = .ok c := Blk.read_eq hat.right
      have hwrite : b.write dst [c] = .ok (b.put dst [c]) :=
        Blk.write_eq ⟨hin.1, by have := hin.2; rw [List.length_singleton]; omega⟩
      have hin' : (b.put dst [c]).InRange (dst + 1) (l.length + 1) := by
        refine ⟨?_, ?_⟩
        · rw [Memory.Block.put_addr]
          have := hin.1
          omega
        · rw [Memory.Block.put_addr, Memory.Block.put_size]
          have := hin.2
          omega
      have hput := Memory.Block.put_append b dst [c] l.reverse
      rw [List.length_singleton] at hput
      rw [List.length_append, List.length_singleton, revcpyLoop,
        show src + (l.length + 1) - 1 = src + l.length by omega, hread]
      simp only [bind, Except.bind, hwrite]
      rw [ih hat.left hin', hput, List.reverse_append]
      rw [Nat.add_assoc, Nat.add_comm 1]
      rfl

theorem revcpyLen_eq (hat : sb.At src l) (hin : b.InRange dst (l.length + 1)) :
    revcpyLen b dst sb src l.length = .ok (b.put dst (l.reverse ++ [0])) := by
  have hwrite := @Blk.write_put b dst l.reverse [0] (by
    rw [List.length_reverse, List.length_singleton]
    exact hin)
  rw [List.length_reverse] at hwrite
  rw [revcpyLen, revcpyLoop_eq l hat hin]
  exact hwrite

end Copy

/-! ## Back again -/

/-- Reversed in place and copied in reverse: the same text, also where it has
NULs in it when the length is given. Done twice either way gives back the
text, in place the whole block. -/
theorem reverses (env : Mem) {b db : Blk} {s dst : Nat} {l : Bytes} (hat : b.At s (l ++ [0]))
    (hdst : db.InRange dst (l.length + 1)) :
    (∃ b', revLen b s l.length = .ok b' ∧ b'.At s (l.reverse ++ [0]) ∧
      revLen b' s l.length = .ok b ∧
      ∀ q m, b.At q m → q + m.length ≤ s ∨ s + l.length ≤ q → b'.At q m) ∧
    (∃ db', revcpyLen db dst b s l.length = .ok db' ∧ db'.At dst (l.reverse ++ [0]) ∧
      revcpyLen b s db' dst l.length = .ok b ∧
      ∀ q m, db.At q m → q + m.length ≤ dst ∨ dst + l.length + 1 ≤ q → db'.At q m) ∧
    (0 ∉ l → s + l.length ≤ sizeMax →
      revP env b s = (revLen b s l.length).map (·, s + l.length) ∧
      revcpyP env db dst b s = (revcpyLen db dst b s l.length).map (·, dst + l.length)) := by
  have hrev := @List.length_reverse _ l
  have hput : (b.put s l.reverse).At s (l.reverse ++ [0]) := by
    have hin : b.InRange s l.reverse.length := by
      rw [hrev]
      exact hat.left.inRange
    refine Memory.Block.at_append.mpr ⟨Memory.Block.at_put hin, ?_⟩
    rw [hrev]
    exact hat.right.put_of_disjoint (.inr (by rw [hrev]))
  have hcopy : (db.put dst (l.reverse ++ [0])).At dst (l.reverse ++ [0]) := by
    refine Memory.Block.at_put ?_
    rwa [List.length_append, hrev]
  refine ⟨⟨_, revLen_eq hat.left, hput, ?_, fun q m hq hd => ?_⟩,
    ⟨_, revcpyLen_eq hat.left hdst, hcopy, ?_, fun q m hq hd => ?_⟩, fun h0 hs => ⟨?_, ?_⟩⟩
  · -- the second overlay covers the first
    have hover := @Memory.Block.put_put_mid _ b s [] l.reverse l [] hrev.symm
    simp only [List.nil_append, List.append_nil, List.length_nil, Nat.add_zero] at hover
    have hback := revLen_eq hput.left
    rw [hrev, List.reverse_reverse, hover, Memory.Block.put_of_at hat.left] at hback
    exact hback
  · refine hq.put_of_disjoint ?_
    rwa [hrev]
  · have hback := @revcpyLen_eq b (db.put dst (l.reverse ++ [0])) s dst l.reverse hcopy.left (by
      rw [hrev]
      have := hat.inRange
      rwa [List.length_append] at this)
    rw [hrev, List.reverse_reverse, Memory.Block.put_of_at hat] at hback
    exact hback
  · refine hq.put_of_disjoint ?_
    rw [List.length_append, hrev, List.length_singleton, ← Nat.add_assoc]
    exact hd
  · rw [revP, (cstr_over hat h0 hs).strlen_eq]
    simp only [bind, Except.bind, revLen_eq hat.left]
    rfl
  · rw [revcpyP, (cstr_over hat h0 hs).strlen_eq]
    simp only [bind, Except.bind, revcpyLen_eq hat.left hdst]
    rfl

/-- "abc" in place, and copied to the next block. -/
theorem reverses_abc : ∃ b', revLen ⟨64, [97, 98, 99, 0, 7]⟩ 64 3 = .ok b' ∧
    b'.At 64 ([99, 98, 97, 0] : Bytes) := by
  have hat : Memory.Block.At ⟨64, [97, 98, 99, 0, 7]⟩ 64 (([97, 98, 99] : Bytes) ++ [0]) :=
    ⟨by decide, by decide⟩
  have hdst : Memory.Block.InRange (⟨96, [1, 1, 1, 1]⟩ : Blk) 96 4 := by decide
  obtain ⟨⟨b', hrev, hres, -⟩, -⟩ := reverses (memOf []) hat hdst
  exact ⟨b', hrev, hres⟩

end Jstr
