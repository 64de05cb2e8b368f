import Jstring.Insert

/-!
# Repeating a string

`jstr_repeat_len` of `include/replace.h` with its writer,
`jstr_repeat_len_unsafe_p` of `include/string.h`. The content is copied
behind itself; a content of one byte is filled in with `memset`, and so
is an empty one, which has no byte to fill in.

- `repeatLoop_spec`: the copies;
- `repeatLen_iff`: when the string is repeated.
-/

namespace Jstr

/-! ## The functions -/

/-- The loop of `jstr_repeat_len_unsafe_p`. -/
def repeatLoop (sz e : Nat) : Nat → Blk → Nat → Run (Blk × Nat)
  | 0, _, _ => .error .diverge
  | fuel + 1, b, s =>
    if s < e then do
      let rem := e - s
      let toCopy := if sz > rem then rem else sz
      let b ← b.memmove s b.addr toCopy
      repeatLoop sz e fuel b (s + toCopy)
    else .ok (b, s)

/-- The writing of the copies, by copying or by `memset`. -/
def repeatFill (b : Blk) (sz n total : Nat) : Run (Blk × Nat) :=
  if sz > 1 then repeatLoop sz (b.addr + total) (total + 1) b (b.addr + sz)
  else do
    let c ← b.read b.addr
    let b ← b.write (b.addr + sz - sz) (List.replicate n c)
    .ok (b, b.addr + sz + (total - sz))

/-- `jstr_repeat_len_unsafe_p`. -/
def repeatLenUnsafeP (b : Blk) (sz n : Nat) : Run (Blk × Nat) :=
  if n < 2 then .ok (b, b.addr + sz)
  else do
    let (b, s) ← repeatFill b sz n (mulSz sz n)
    let b ← b.write s [0]
    .ok (b, s)

/-- `jstr_repeat_len`. -/
def repeatLen (al : Alloc) (j : JstrTy) (n : Nat) : Run (RetTy × JstrTy) :=
  if n ≤ 1 then .ok (.succ, j)
  else
    orErr (reserve al j (addSz (mulSz j.size n) 1)) fun j => do
      let b ← j.deref
      let (b', p) ← repeatLenUnsafeP b j.size n
      .ok (.succ, { j with data := some b', size := subSz p b.addr })

/-! ## What it leaves -/

/-- `n` copies of `t`. -/
def copies (n : Nat) (t : Bytes) : Bytes := (List.replicate n t).flatten

/-- The content `l`, terminated. -/
def Terminated (l : Bytes) (j : JstrTy) : Prop := Content j l ∧ Ended j

/-- When the content is repeated `n` times rightly: if the room is granted,
the new size and the terminator fit in a `size_t`; and the `n` bytes put
for an empty string are within the capacity. One copy leaves things as
they are. -/
def RepeatMeets (al : Alloc) (j : JstrTy) (n : Nat) : Prop :=
  if n ≤ 1 then Ended j
  else Granted al j (addSz (mulSz j.size n) 1) →
    if j.size = 0 then n ≤ capAfter j.capacity 1 else j.size * n + 1 ≤ sizeMax

section Repeat

variable {al : Alloc} {j : JstrTy} {t : Bytes} {n k : Nat} {b : Blk}

theorem length_copies (n : Nat) (t : Bytes) : (copies n t).length = n * t.length := by
  simp [copies]

theorem copies_one (t : Bytes) : copies 1 t = t := by simp [copies]

theorem copies_succ (k : Nat) (t : Bytes) : copies (k + 1) t = copies k t ++ t := by
  rw [copies, List.replicate_succ', List.flatten_append, ← copies]
  simp

theorem copies_eq_append (hk : 0 < k) (t : Bytes) : ∃ rest, copies k t = t ++ rest := by
  obtain ⟨k, rfl⟩ : ∃ m, k = m + 1 := ⟨k - 1, by omega⟩
  exact ⟨copies k t, by rw [copies, List.replicate_succ, List.flatten_cons, ← copies]⟩

/-- With `k` copies written, `m` more are. -/
theorem repeatLoop_spec (ht : 0 < t.length) : ∀ (m fuel : Nat) {b : Blk} {k : Nat}, 0 < k → m < fuel →
    b.At b.addr (copies k t) → (k + m) * t.length ≤ b.size →
    ∃ b', repeatLoop t.length (b.addr + (k + m) * t.length) fuel b (b.addr + k * t.length)
        = .ok (b', b.addr + (k + m) * t.length) ∧ b'.addr = b.addr ∧ b'.size = b.size ∧
      b'.At b.addr (copies (k + m) t)
  | 0, 0, _, _, _, hf, _, _ => absurd hf (Nat.lt_irrefl 0)
  | 0, fuel + 1, b, k, _, _, hat, _ => by
      rw [repeatLoop, Nat.add_zero, if_neg (Nat.lt_irrefl _)]
      exact ⟨b, rfl, rfl, rfl, hat⟩
  | m + 1, 0, _, _, _, hf, _, _ => absurd hf (Nat.not_lt_zero _)
  | m + 1, fuel + 1, b, k, hk, hf, hat, hroom => by
      have hsucc : (k + 1) * t.length = k * t.length + t.length := Nat.succ_mul k t.length
      have hassoc : k + (m + 1) = k + 1 + m := by omega
      have hle : (k + 1) * t.length ≤ (k + 1 + m) * t.length :=
        Nat.mul_le_mul_right _ (Nat.le_add_right _ _)
      rw [hassoc] at hroom ⊢
      obtain ⟨rest, hrest⟩ := copies_eq_append hk t
      have hmove := @Blk.memmove_eq b (b.addr + k * t.length) b.addr t.length t
        (by rw [hrest] at hat; exact hat.left) rfl ⟨by omega, by omega⟩
      have hput : (b.put (b.addr + k * t.length) t).At b.addr (copies (k + 1) t) := by
        rw [copies_succ]
        refine Memory.Block.at_append.mpr ⟨hat.put_of_disjoint (.inl ?_), ?_⟩
        · rw [length_copies]
        · rw [length_copies]
          exact Memory.Block.at_put ⟨by omega, by omega⟩
      obtain ⟨b', hrun, haddr, hsize, hat'⟩ := repeatLoop_spec ht m fuel (Nat.succ_pos k)
        (show m < fuel by omega) hput (by rwa [Memory.Block.put_size])
      refine ⟨b', ?_, haddr, by rw [hsize, Memory.Block.put_size], hat'⟩
      rw [repeatLoop, if_pos (by omega)]
      simp only [if_neg (show ¬t.length > b.addr + (k + 1 + m) * t.length
        - (b.addr + k * t.length) by omega), hmove, bind, Except.bind]
      rw [Nat.add_assoc b.addr, ← hsucc]
      exact hrun

/-- Where the copies fit, they are written and terminated. -/
theorem repeatLenUnsafeP_eq (hat : b.At b.addr t) (ht : 0 < t.length) (hn : 1 < n)
    (hroom : t.length * n + 1 ≤ b.size) (hfit : t.length * n + 1 ≤ sizeMax) :
    ∃ b', repeatLenUnsafeP b t.length n = .ok (b', b.addr + (copies n t).length) ∧
      Stores b (copies n t) b' := by
  have hone : ([0] : Bytes).length = 1 := rfl
  have htotal : mulSz t.length n = n * t.length := by
    rw [mulSz_eq (by omega), Nat.mul_comm]
  have hcomm : t.length * n = n * t.length := Nat.mul_comm _ _
  obtain ⟨b', hfill, haddr, hsize, hat'⟩ : ∃ b', repeatFill b t.length n (n * t.length)
      = .ok (b', b.addr + n * t.length) ∧ b'.addr = b.addr ∧ b'.size = b.size ∧
      b'.At b.addr (copies n t) := by
    rw [repeatFill]
    by_cases h1 : t.length > 1
    · rw [if_pos h1]
      have hn' : n = 1 + (n - 1) := by omega
      have hle : n - 1 < n * t.length + 1 := by
        have := Nat.le_mul_of_pos_right n ht
        omega
      have hloop := @repeatLoop_spec t ht (n - 1) (n * t.length + 1) b 1 Nat.one_pos hle
        (by rwa [copies_one]) (by rw [← hn']; omega)
      rw [← hn', Nat.one_mul] at hloop
      exact hloop
    · obtain ⟨c, rfl⟩ := List.length_eq_one_iff.mp (show t.length = 1 by omega)
      rw [List.length_singleton] at hroom ⊢
      have hrep : (List.replicate n c).length = n := List.length_replicate
      have hin : b.InRange b.addr (List.replicate n c).length := ⟨le_refl _, by omega⟩
      refine ⟨b.put b.addr (List.replicate n c), ?_, rfl, Memory.Block.put_size _ _ _, ?_⟩
      · rw [if_neg (by decide), Blk.read_eq hat]
        have hlast : b.addr + 1 + (n - 1) = b.addr + n := by omega
        simp only [bind, Except.bind, Nat.add_sub_cancel, Blk.write_eq hin, Nat.mul_one,
          Memory.Block.put_addr, hlast]
      · rw [copies, List.flatten_replicate_singleton]
        exact Memory.Block.at_put hin
  have hend := @Blk.write_eq b' (b.addr + n * t.length) [0] ⟨by omega, by omega⟩
  refine ⟨b'.put (b.addr + n * t.length) [0], ?_, haddr, ?_, ?_⟩
  · rw [repeatLenUnsafeP, if_neg (by omega), htotal]
    simp only [hfill, bind, Except.bind, hend, length_copies]
  · rw [Memory.Block.put_size, hsize]
  · refine Memory.Block.at_append.mpr ⟨hat'.put_of_disjoint (.inl ?_), ?_⟩
    · rw [length_copies]
    · rw [length_copies]
      exact Memory.Block.at_put ⟨by omega, by omega⟩

/-- A call that ends, in a block of the same size or with a fault. -/
def EndsWithin (b : Blk) (r : Run (Blk × Nat)) : Prop :=
  r = .error .bounds ∨ ∃ b' s, r = .ok (b', s) ∧ b'.size = b.size

theorem repeatLoop_endsWithin {sz e : Nat} (hsz : 0 < sz) : ∀ (fuel : Nat) (b : Blk) (s : Nat),
    e ≤ s + fuel → EndsWithin b (repeatLoop sz e (fuel + 1) b s) := by
  intro fuel
  induction fuel with
  | zero =>
      intro b s hf
      rw [repeatLoop, if_neg (by omega)]
      exact .inr ⟨b, s, rfl, rfl⟩
  | succ fuel ih =>
      intro b s hf
      rw [repeatLoop]
      split
      · rename_i hlt
        simp only
        generalize hcopy : (if sz > e - s then e - s else sz) = toCopy
        have hpos : 0 < toCopy := by
          rw [← hcopy]
          split <;> omega
        rcases Blk.memmove_cases b s b.addr toCopy with h | ⟨b', h, hb'⟩
        · rw [h]
          exact .inl rfl
        · rw [h]
          rcases ih b' (s + toCopy) (by omega) with hr | ⟨b₂, s₂, hr, hb₂⟩
          · exact .inl hr
          · exact .inr ⟨b₂, s₂, hr, hb₂.trans hb'⟩
      · exact .inr ⟨b, s, rfl, rfl⟩

theorem repeatFill_endsWithin (hb : 0 < b.size) (sz n total : Nat) :
    EndsWithin b (repeatFill b sz n total) := by
  rw [repeatFill]
  split
  · exact repeatLoop_endsWithin (by omega) total b _ (by omega)
  · obtain ⟨hlen, hat⟩ := @Memory.Block.at_slice _ b b.addr 1 ⟨le_refl _, by omega⟩
    obtain ⟨c, hc⟩ := List.length_eq_one_iff.mp hlen
    rw [hc] at hat
    rw [Blk.read_eq hat]
    rcases Blk.write_cases b (b.addr + sz - sz) (List.replicate n c) with h | ⟨b', h, hb'⟩
    · simp only [bind, Except.bind, h]
      exact .inl rfl
    · simp only [bind, Except.bind, h]
      exact .inr ⟨b', _, rfl, hb'⟩

/-- Whatever the sizes, the writing ends, inside the block or with a fault. -/
theorem repeatLenUnsafeP_endsWithin (hb : 0 < b.size) (sz n : Nat) :
    EndsWithin b (repeatLenUnsafeP b sz n) := by
  rw [repeatLenUnsafeP]
  split
  · exact .inr ⟨b, _, rfl, rfl⟩
  · rcases repeatFill_endsWithin hb sz n (mulSz sz n) with h | ⟨b', s, h, hb'⟩
    · rw [h]
      exact .inl rfl
    · simp only [h, bind, Except.bind]
      rcases Blk.write_cases b' s [0] with h' | ⟨b₂, h', hb₂⟩
      · rw [h']
        exact .inl rfl
      · rw [h']
        exact .inr ⟨b₂, s, rfl, hb₂.trans hb'⟩

/-- `n` copies of the first byte are put, then it is a terminator. -/
theorem repeatLenUnsafeP_empty (hn : 1 < n) (hb : 1 ≤ b.size) :
    ∃ c, repeatLenUnsafeP b 0 n = if n ≤ b.size
      then .ok ((b.put b.addr (List.replicate n c)).put b.addr [0], b.addr) else .error .bounds := by
  obtain ⟨hlen, hat⟩ := @Memory.Block.at_slice _ b b.addr 1 ⟨le_refl _, by omega⟩
  obtain ⟨c, hc⟩ := List.length_eq_one_iff.mp hlen
  rw [hc] at hat
  refine ⟨c, ?_⟩
  have hrep : (List.replicate n c).length = n := List.length_replicate
  have htotal : mulSz 0 n = 0 := by rw [mulSz, Nat.zero_mul, Nat.zero_mod]
  rw [repeatLenUnsafeP, if_neg (by omega), htotal, repeatFill, if_neg (by decide),
    Blk.read_eq hat]
  simp only [bind, Except.bind, Nat.add_zero, Nat.sub_zero]
  by_cases hle : n ≤ b.size
  · rw [if_pos hle, Blk.write_eq ⟨le_refl _, by omega⟩]
    simp only [Memory.Block.put_addr]
    rw [Blk.write_eq ⟨by rw [Memory.Block.put_addr], by
      rw [Memory.Block.put_addr, Memory.Block.put_size, List.length_singleton]
      omega⟩]
  · rw [if_neg hle, Blk.write, if_neg fun h => ?_, if_neg fun h => hle (by have := h.2; omega)]
    rw [h] at hrep
    exact absurd hrep (by rw [List.length_nil]; omega)

/-- From nothing, `n` bytes are filled before the terminator is put. -/
theorem repeatLen_empty_iff (al : Alloc) (hc : Content j []) (h1 : ¬n ≤ 1)
    (hgr : Granted al j (addSz (mulSz j.size n) 1)) :
    Safe j (Terminated (copies n [])) (repeatLen al j n) ↔ n ≤ capAfter j.capacity 1 := by
  have hempty : j.size = 0 := hc.size
  have hw : addSz (mulSz j.size n) 1 = 1 := by
    rw [hempty, mulSz, Nat.zero_mul]
    rfl
  rw [repeatLen, if_neg h1, hw]
  rw [hw] at hgr
  obtain ⟨j', hr, hafter, -⟩ := hgr.reserve_eq
  have hg := @reserve_spec al j hc.backed 1 Nat.one_pos
  rw [hr] at hg ⊢
  obtain ⟨b, hh, hroom⟩ := hc.grown hg Nat.one_pos
  obtain ⟨c, hrun⟩ := @repeatLenUnsafeP_empty n b (by omega) hroom
  rw [show capAfter j.capacity 1 = b.size by rw [← hafter, hh.backed]]
  simp only [orErr, JstrTy.deref, hh.data, hh.size, bind, Except.bind, List.length_nil, hrun]
  by_cases hle : n ≤ b.size
  · refine iff_of_true ?_ hle
    rw [if_pos hle]
    have hst := @stores_all (b.put b.addr (List.replicate n c)) [] (by
      rw [Memory.Block.put_size]
      exact hroom)
    rw [Memory.Block.put_addr, List.nil_append] at hst
    have hstr := @Stores.str j' _ _ _ hst (by rw [Memory.Block.put_size, hh.backed])
    rw [copies, List.flatten_replicate_nil]
    simp only [subSz_eq (le_refl b.addr), Nat.sub_self]
    exact ⟨hstr.content, hstr.ended⟩
  · rw [if_neg hle]
    exact iff_of_false (not_safe_error (by decide)) hle

/-- From something, the copies and the terminator are to fit in a `size_t`. -/
theorem repeatLen_full_iff (al : Alloc) (hc : Content j t) (hcap : j.capacity ≤ sizeMax)
    (h1 : ¬n ≤ 1) (ht : 0 < t.length) (hgr : Granted al j (addSz (mulSz j.size n) 1)) :
    Safe j (Terminated (copies n t)) (repeatLen al j n) ↔ t.length * n + 1 ≤ sizeMax := by
  have hsz := hc.size
  obtain ⟨j', b, hr, hd, hb, -, hsize, hmax, hat⟩ :=
    hgr.content hc (fun h0 => by omega) hcap
  rw [repeatLen, if_neg h1, hr]
  simp only [orErr, JstrTy.deref, hd, hsize, bind, Except.bind]
  by_cases hfit : t.length * n + 1 ≤ sizeMax
  · have hw : addSz (mulSz j.size n) 1 = t.length * n + 1 := by
      rw [hc.size, mulSz_eq (by omega), addSz_eq hfit]
    have hroom : t.length * n + 1 ≤ b.size := by
      have hg := @reserve_spec al j hc.backed _ (Nat.succ_pos (t.length * n))
      rw [hw] at hr
      rw [hr] at hg
      obtain ⟨b', hd', -, hle⟩ := hg.room
      rw [hd] at hd'
      cases hd'
      exact hle
    obtain ⟨b', hrun, hst⟩ := repeatLenUnsafeP_eq hat ht (by omega) hroom hfit
    have hstr := hst.str hb
    simp only [hrun, subSz_eq (Nat.le_add_right b.addr _), Nat.add_sub_cancel_left]
    exact iff_of_true ⟨hstr.content, hstr.ended⟩ hfit
  · -- so long a string is in no block
    refine iff_of_false ?_ hfit
    have hin := hat.inRange.2
    rcases @repeatLenUnsafeP_endsWithin b (by omega) t.length n with h | ⟨b', s, h, hb'⟩
    · rw [h]
      exact not_safe_error (by decide)
    · rw [h]
      rintro ⟨hcon | ⟨b₂, h₂⟩, -⟩
      · cases congrArg JstrTy.data hcon.1
      · cases h₂.data
        have hlt : (copies n t).length < b'.size := h₂.lt
        rw [length_copies, Nat.mul_comm] at hlt
        omega

/-- Repeating: unless the room is refused the content is repeated exactly
when its size fits, and for an empty string the bytes put are within the
capacity. -/
theorem repeatLen_iff (al : Alloc) (hc : Content j t) (hcap : j.capacity ≤ sizeMax) (hn : 1 ≤ n) :
    Safe j (Terminated (copies n t)) (repeatLen al j n) ↔ RepeatMeets al j n := by
  have hsz := hc.size
  rw [RepeatMeets]
  by_cases h1 : n ≤ 1
  · obtain rfl : n = 1 := by omega
    rw [repeatLen, if_pos h1, if_pos h1, copies_one]
    exact and_iff_right hc
  rw [if_neg h1]
  by_cases hgr : Granted al j (addSz (mulSz j.size n) 1)
  swap
  · rw [repeatLen, if_neg h1]
    exact iff_of_true (safe_refused (reserve_refused hgr)) fun h => absurd h hgr
  rw [imp_iff_right hgr]
  by_cases hempty : j.size = 0
  · obtain rfl := List.length_eq_zero_iff.mp (hsz.symm.trans hempty)
    rw [if_pos hempty]
    exact repeatLen_empty_iff al hc h1 hgr
  · rw [if_neg hempty, hsz]
    exact repeatLen_full_iff al hc hcap h1 (by omega) hgr

/-- "ab" three times. -/
theorem repeatLen_iff_ab :
    Safe ⟨some ⟨64, [97, 98, 0]⟩, 2, 3⟩ (Terminated (copies 3 [97, 98]))
        (repeatLen (Alloc.filling 4096 0) ⟨some ⟨64, [97, 98, 0]⟩, 2, 3⟩ 3) ↔
      RepeatMeets (Alloc.filling 4096 0) ⟨some ⟨64, [97, 98, 0]⟩, 2, 3⟩ 3 := by
  have hs : Str ⟨some ⟨64, [97, 98, 0]⟩, 2, 3⟩ [97, 98] :=
    ⟨_, rfl, rfl, rfl, by decide, by decide⟩
  exact repeatLen_iff (Alloc.filling 4096 0) hs.content (by decide) (by decide)

/-- An empty string repeated 25 times in a block of 24 bytes. -/
theorem not_repeatLen_empty :
    ¬Safe ⟨some ⟨64, List.replicate 24 0⟩, 0, 24⟩ (Terminated (copies 25 []))
      (repeatLen (Alloc.filling 4096 0) ⟨some ⟨64, List.replicate 24 0⟩, 0, 24⟩ 25) := by
  have hrun : repeatLen (Alloc.filling 4096 0) ⟨some ⟨64, List.replicate 24 0⟩, 0, 24⟩ 25
      = .error .bounds := rfl
  rw [hrun]
  exact not_safe_error (by decide)

end Repeat

end Jstr
