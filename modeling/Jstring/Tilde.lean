import Jstring.Builder
import Jstring.Libc

/-!
# Expanding `~`

`jstr_io_expandtildefirst` of `include/io.h` and the variant that leaves the
space to its caller, `jstr_io_expandtildefirst_len_unsafe_p`. What
`getenv("HOME")` finds is a parameter; its bytes come without their
terminator.

Both move what follows the `~` up and put the value of `HOME` before it:

- the second moves the terminator along and ends where it then stands
  (`expandtildefirstLenUnsafeP_eq`);
- the first moves the bytes alone, `jstr_strmove_len` adding the terminator,
  and then adds the length of `HOME` to the size, though the `~` has gone. So the
  size counts the terminator, on every input (`expandtildefirst_never`). The
  text reads well, and what is appended lies behind the NUL.
-/

namespace Jstr

/-! ## The two functions -/

/-- `jstr_io_expandtildefirst_len_unsafe_p`. -/
def expandtildefirstLenUnsafeP (env : Mem) (home : Option Bytes) (b : Blk) (s sz : Nat) :
    Run (Option Nat × Blk) := do
  if (← b.read s) ≠ 126 then return (some (s + sz), b)
  else
    match home with
    | none => return (none, b)
    | some home =>
      let len := home.length
      let remaining := (← strlen (b.over env) (s + 1)) + 1
      let b ← strmoveLen b (s + len) (s + 1) remaining
      let b ← b.write s home
      return (some (s + len + remaining - 1), b)

/-- `jstr_io_expandtildefirst`. -/
def expandtildefirst (al : Alloc) (home : Option Bytes) (j : JstrTy) : Run (RetTy × JstrTy) := do
  let b ← j.deref
  if (← b.read b.addr) ≠ 126 then return (.succ, j)
  else
    match home with
    | none => return (.err, j)
    | some home =>
      let len := home.length
      orErr (reserve al j (addSz (addSz j.size len) 1)) fun j => do
        let b ← j.deref
        let b ← strmoveLen b (b.addr + len) (b.addr + 1) (subSz (b.addr + j.size) (b.addr + 1))
        let b ← b.write b.addr home
        return (.succ, { j with data := some b, size := addSz j.size len })

/-! ## What they leave -/

variable {env : Mem} {al : Alloc} {home rest : Bytes} {j j' : JstrTy}

/-- The move and the copy both functions make: `home` before what followed the `~`. -/
theorem moveAndCopy_eq {b : Blk} {m : Bytes} (hm : b.At (b.addr + 1) m)
    (hroom : m.length + home.length + 1 ≤ b.size) :
    ∃ b₁ b', strmoveLen b (b.addr + home.length) (b.addr + 1) m.length = .ok b₁ ∧
      b₁.addr = b.addr ∧ Blk.write b₁ b.addr home = .ok b' ∧ Stores b (home ++ m) b' := by
  refine ⟨_, _, strmoveLen_eq hm rfl ⟨Nat.le_add_right _ _, by omega⟩, Memory.Block.put_addr _ _ _,
    Blk.write_eq ⟨?_, ?_⟩, stores_front hroom⟩
  · rw [Memory.Block.put_addr]
  · rw [Memory.Block.put_addr, Memory.Block.put_size]
    omega

/-- The `~` and what follows it. -/
theorem read_tilde {b : Blk} (hat : b.At b.addr (126 :: rest ++ [0])) :
    b.read b.addr = .ok 126 ∧ b.At (b.addr + 1) (rest ++ [0]) := by
  have hsplit : b.At b.addr ([126] ++ (rest ++ [0])) := hat
  exact ⟨Blk.read_eq hsplit.left, hsplit.right⟩

/-- The end returned is where the terminator stands. -/
theorem expandtildefirstLenUnsafeP_eq {b : Blk} (sz : Nat) (hat : b.At b.addr (126 :: rest ++ [0]))
    (h0 : 0 ∉ rest) (hroom : (home ++ rest).length + 2 ≤ b.size)
    (hfit : b.addr + b.size ≤ sizeMax) :
    ∃ b', expandtildefirstLenUnsafeP env (some home) b b.addr sz
        = .ok (some (b.addr + (home ++ rest).length), b') ∧
      Stores b (home ++ rest) b' := by
  obtain ⟨hhead, hrest⟩ := read_tilde hat
  simp only [List.length_append] at hroom ⊢
  have hlen : strlen (b.over env) (b.addr + 1) = .ok rest.length :=
    (cstr_over hrest h0 (by omega)).strlen_eq
  have hcount : (rest ++ [(0 : UInt8)]).length = rest.length + 1 := List.length_append
  obtain ⟨b₁, b', hmove, -, hcopy, hstores⟩ :=
    @moveAndCopy_eq home b (rest ++ [0]) hrest (by omega)
  rw [hcount] at hmove
  have hall := hstores.content
  rw [← List.append_assoc home] at hall
  refine ⟨b', ?_, hstores.addr, hstores.size, hall.left⟩
  simp only [expandtildefirstLenUnsafeP, hhead, ne_eq, not_true_eq_false, if_false, hlen, hmove,
    hcopy, bind, Except.bind, pure, Except.pure, Except.ok.injEq, Prod.mk.injEq,
    Option.some.injEq, and_true]
  omega

/-- A successful call leaves the text, and its size counts the terminator. -/
theorem expandtildefirst_eq (hs : Str j (126 :: rest)) (hfit : (home ++ rest).length + 2 ≤ sizeMax)
    (h : expandtildefirst al (some home) j = .ok (.succ, j')) :
    (∃ b, j'.data = some b ∧ b.size = j'.capacity ∧ (home ++ rest).length + 2 ≤ b.size ∧
      b.At b.addr (home ++ rest ++ [0])) ∧ j'.size = (home ++ rest).length + 1 := by
  obtain ⟨b, hd, -, hsz, hat⟩ := id hs
  simp only [List.length_append, List.length_cons] at hfit hsz ⊢
  have hreq : addSz (addSz j.size home.length) 1 = rest.length + home.length + 2 := by
    rw [hsz, @addSz_eq (rest.length + 1) home.length (by omega), addSz_eq (by omega)]
    omega
  simp only [expandtildefirst, JstrTy.deref, hd, (read_tilde hat).1, ne_eq, not_true_eq_false,
    if_false, hreq, bind, Except.bind] at h
  rcases reserve_cases hs.content.backed (Nat.succ_pos (rest.length + home.length + 1)) with
    ⟨hr, -⟩ | ⟨hr, -⟩ | ⟨j₁, hr, hg⟩
  · rw [hr] at h
    cases h
  · rw [hr] at h
    cases h
  · obtain ⟨⟨b₁, hd₁, hb₁, hsz₁, hat₁⟩, b₁', hd₁', hroom⟩ := hs.grown hg
    rw [hd₁] at hd₁'
    cases hd₁'
    rw [List.length_cons] at hsz₁
    have hn : subSz (b₁.addr + j₁.size) (b₁.addr + 1) = rest.length := by
      rw [subSz_eq (by omega)]
      omega
    obtain ⟨b₂, b', hmove, haddr, hcopy, hstores⟩ :=
      @moveAndCopy_eq home b₁ rest (read_tilde hat₁).2.left (by omega)
    simp only [hr, orErr, hd₁, hn, hmove, haddr, hcopy, pure, Except.pure, Except.ok.injEq,
      Prod.mk.injEq, true_and] at h
    subst h
    refine ⟨⟨b', rfl, hstores.size.trans hb₁, ?_, ?_⟩, ?_⟩
    · rw [hstores.size]
      omega
    · rw [hstores.addr]
      exact hstores.content
    · simp only [hsz₁, @addSz_eq (rest.length + 1) home.length (by omega)]
      omega

/-- Whatever fits, a successful call adds the length of `HOME` to the size. -/
theorem expandtildefirst_size (hs : Str j (126 :: rest))
    (h : expandtildefirst al (some home) j = .ok (.succ, j')) :
    j'.size = addSz (rest.length + 1) home.length := by
  obtain ⟨b, hd, -, hsz, hat⟩ := id hs
  simp only [expandtildefirst, JstrTy.deref, hd, (read_tilde hat).1, ne_eq, not_true_eq_false,
    if_false, bind, Except.bind] at h
  rcases hr : reserve al j (addSz (addSz j.size home.length) 1) with f | ⟨_ | _, j₁⟩
  · rw [hr] at h
    cases h
  · rw [hr] at h
    cases h
  · have hsame : j₁.size = j.size := by
      rcases Nat.eq_zero_or_pos (addSz (addSz j.size home.length) 1) with h0 | hpos
      · rw [h0, reserve, if_pos (Nat.zero_le _)] at hr
        cases hr
        rfl
      · have hg := @reserve_spec al j hs.content.backed _ hpos
        rw [hr] at hg
        exact hg.size
    simp only [hr, orErr] at h
    split at h
    · cases h
    · split at h
      · cases h
      · split at h
        · cases h
        · cases h
          simp only [hsame, hsz, List.length_cons]

/-! ## Where a successful call is right -/

/-- A successful call on `~` and `rest` left `HOME` and `rest`: the size is that
of the text, the other function gives the same bytes and end on a
large enough copy, and what is appended continues the text. -/
structure Expands (env : Mem) (al : Alloc) (home rest : Bytes) (j' : JstrTy) : Prop where
  str : Str j' (home ++ rest)
  same : ∀ b : Blk, b.At b.addr (126 :: rest ++ [0]) → (home ++ rest).length + 2 ≤ b.size →
    b.addr + b.size ≤ sizeMax →
    ∃ b', expandtildefirstLenUnsafeP env (some home) b b.addr (rest.length + 1)
        = .ok (some (b.addr + j'.size), b') ∧
      ∀ i ≤ j'.size, j'.byte? i = b'.cell? (b'.addr + i)
  append : ∀ src j'', appendLen al j' src = .ok (.succ, j'') → Str j'' (home ++ rest ++ src)

/-- What it did leave: the text with its terminator counted. The other function
ends at the terminator, what is appended lies behind it. -/
structure Overcounts (env : Mem) (al : Alloc) (home rest : Bytes) (j' : JstrTy) : Prop where
  text : ∃ b, j'.data = some b ∧ b.At b.addr (home ++ rest ++ [0])
  size : j'.size = (home ++ rest).length + 1
  other : ∀ b : Blk, b.At b.addr (126 :: rest ++ [0]) → (home ++ rest).length + 2 ≤ b.size →
    b.addr + b.size ≤ sizeMax →
    ∃ b', expandtildefirstLenUnsafeP env (some home) b b.addr (rest.length + 1)
        = .ok (some (b.addr + (home ++ rest).length), b') ∧ Stores b (home ++ rest) b'
  append : ∀ src j'', (home ++ rest).length + src.length + 2 ≤ sizeMax →
    appendLen al j' src = .ok (.succ, j'') → Str j'' (home ++ rest ++ [0] ++ src)

theorem overcounts_of_fits (hs : Str j (126 :: rest)) (h0 : 0 ∉ rest)
    (hfit : (home ++ rest).length + 2 ≤ sizeMax)
    (h : expandtildefirst al (some home) j = .ok (.succ, j')) : Overcounts env al home rest j' := by
  obtain ⟨⟨b, hd, hb, hroom, hat⟩, hsize⟩ := expandtildefirst_eq hs hfit h
  have hlen : (home ++ rest ++ [0]).length = (home ++ rest).length + 1 := List.length_append
  have hcontent : Content j' (home ++ rest ++ [0]) :=
    .inr ⟨b, hd, hb, by rw [hsize, hlen], by omega, hat⟩
  refine ⟨⟨b, hd, hat⟩, hsize, fun b hat hroom hlast => ?_, fun src j'' hfits happ => ?_⟩
  · exact expandtildefirstLenUnsafeP_eq _ hat h0 hroom hlast
  · have hspec := @appendLen_spec al j' (home ++ rest ++ [0]) src hcontent (by omega)
    rw [happ] at hspec
    exact hspec

/-- No successful call is right: the size is never that of the text. -/
theorem expandtildefirst_never (hs : Str j (126 :: rest)) (h0 : 0 ∉ rest)
    (h : expandtildefirst al (some home) j = .ok (.succ, j')) :
    ¬Expands env al home rest j' ∧
      ((home ++ rest).length + 2 ≤ sizeMax → Overcounts env al home rest j') := by
  refine ⟨fun hright => ?_, fun hfit => overcounts_of_fits hs h0 hfit h⟩
  obtain ⟨_, -, -, hstr, -⟩ := hright.str
  rw [expandtildefirst_size hs h, List.length_append, addSz] at hstr
  omega

/-- `~/a` in a block with room, and what it becomes where `HOME` is `/r`. -/
theorem expandtildefirst_a :
    Str ⟨some ⟨64, [126, 47, 97, 0, 0, 0, 0, 0]⟩, 3, 8⟩ (126 :: [47, 97]) ∧
      expandtildefirst Alloc.failing (some [47, 114])
          ⟨some ⟨64, [126, 47, 97, 0, 0, 0, 0, 0]⟩, 3, 8⟩
        = .ok (.succ, ⟨some ⟨64, [47, 114, 47, 97, 0, 0, 0, 0]⟩, 5, 8⟩) :=
  ⟨⟨_, rfl, rfl, rfl, by decide, by decide⟩, rfl⟩

theorem expandtildefirst_never_a :
    ¬Expands (memOf []) Alloc.failing [47, 114] [47, 97]
        ⟨some ⟨64, [47, 114, 47, 97, 0, 0, 0, 0]⟩, 5, 8⟩ ∧
      (([47, 114] ++ [47, 97] : Bytes).length + 2 ≤ sizeMax →
        Overcounts (memOf []) Alloc.failing [47, 114] [47, 97]
          ⟨some ⟨64, [47, 114, 47, 97, 0, 0, 0, 0]⟩, 5, 8⟩) :=
  expandtildefirst_never expandtildefirst_a.1 (by decide) expandtildefirst_a.2

/-- The size left is 5, and `/r/a` has 4 bytes. -/
theorem not_expandtildefirst :
    ¬∀ (env : Mem) (al : Alloc) (home rest : Bytes) (j j' : JstrTy), Str j (126 :: rest) →
      0 ∉ home ++ rest → expandtildefirst al (some home) j = .ok (.succ, j') →
      Expands env al home rest j' := by
  intro hall
  obtain ⟨_, -, -, hsize, -⟩ := (hall (memOf []) Alloc.failing [47, 114] [47, 97] _ _
    expandtildefirst_a.1 (by decide) expandtildefirst_a.2).str
  exact absurd hsize (by decide)

end Jstr
