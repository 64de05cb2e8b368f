import Jstring.Replace

/-!
# Replacing by something longer

The paths of `jstr_rplcn_len_from_exec` that may allocate: one
replacement in place of another (`jstr_rplcat_len`) and the two passes.
The first pass counts, so that the source can be pushed behind the room
the destination needs; in the second the gap between writing and reading
shrinks by the difference of the lengths with every match and is the
length of the moved text at the end, so no byte is overwritten unread.
-/

namespace Jstr

open Words

/-! ## One replacement -/

/-- The tail ends up, terminated, where the replacement will end. -/
theorem moveTail_spec {b : Blk} {pre find rplc post : Bytes} (hpre : b.At b.addr pre)
    (hpost : b.At (b.addr + pre.length + find.length) (post ++ [0]))
    (hroom : pre.length + rplc.length + post.length + 1 ≤ b.size) :
    ∃ b', SameBlock b b' ∧
      moveTail find.length rplc.length b (b.addr + pre.length + rplc.length)
        (b.addr + pre.length + find.length) post.length = .ok b' ∧
      b'.At b.addr pre ∧ b'.At (b.addr + pre.length + rplc.length) (post ++ [0]) := by
  have hin : b.InRange (b.addr + pre.length + rplc.length) (post.length + 1) :=
    ⟨by omega, by omega⟩
  rw [moveTail]
  split
  · refine ⟨_, sameBlock_put b _ _, strmoveLen_eq hpost.left rfl hin,
      hpre.put_of_disjoint (.inl (by omega)), Memory.Block.at_put ?_⟩
    rwa [List.length_append, List.length_singleton]
  · rename_i hl
    exact ⟨b, SameBlock.refl b, rfl, hpre, by rwa [not_not.mp hl]⟩

theorem rplcatLen_spec {al : Alloc} {j : JstrTy} {pre find rplc post : Bytes}
    (hs : Str j (pre ++ find ++ post))
    (hfit : (pre ++ find ++ post).length + rplc.length + 1 ≤ sizeMax) :
    match rplcatLen al j pre.length rplc find.length with
    | .error f => f = .diverge ∧ j.capacity < (pre ++ rplc ++ post).length + 1 ∧
        9223372036854775808 < (pre ++ rplc ++ post).length + 1
    | .ok (none, j') => j' = j ∧ Denied al j ((pre ++ rplc ++ post).length + 1)
    | .ok (some _, j') => Str j' (pre ++ rplc ++ post) := by
  simp only [List.length_append] at hfit
  have hsz := hs.content.size
  simp only [List.length_append] at hsz
  have hnew : addSz (subSz (addSz j.size rplc.length) find.length) 1
      = (pre ++ rplc ++ post).length + 1 := by
    simp only [List.length_append]
    rw [@addSz_eq j.size _ (by omega), subSz_eq (by omega), addSz_eq (by omega)]
    omega
  rw [rplcatLen, hnew]
  rcases @reserve_cases al j ((pre ++ rplc ++ post).length + 1) hs.content.backed
    (Nat.succ_pos _) with ⟨hr, hlt⟩ | ⟨hr, hden⟩ | ⟨j', hr, hg⟩
  · rw [hr]
    exact ⟨rfl, hlt⟩
  · rw [hr]
    exact ⟨rfl, hden⟩
  · obtain ⟨⟨b, hd, hb, hsz', hat⟩, b', hd', hroom⟩ := hs.grown hg
    rw [hd] at hd'
    cases hd'
    simp only [List.length_append] at hroom hsz'
    simp only [hr, bind, Except.bind, JstrTy.deref, hd]
    have hpre : b.At b.addr pre := hat.left.left.left
    have hpost : b.At (b.addr + pre.length + find.length) (post ++ [0]) := by
      rw [List.append_assoc] at hat
      have := hat.right
      rwa [List.length_append, ← Nat.add_assoc] at this
    have hsub : subSz j'.size (pre.length + find.length) = post.length := by
      rw [hsz', subSz_eq (by omega)]
      omega
    obtain ⟨b', hb', hm, hpre', hpost'⟩ := @moveTail_spec b pre find rplc post hpre hpost
      (by omega)
    have hin : b'.InRange (b.addr + pre.length) rplc.length :=
      ⟨by rw [hb'.1]; omega, by rw [hb'.1, hb'.2]; omega⟩
    have hsize : addSz j'.size (subSz rplc.length find.length) = (pre ++ rplc ++ post).length := by
      simp only [List.length_append]
      rw [hsz', addSz_subSz (by omega) (by omega) (by omega)]
      omega
    simp only [hsub, hm, mempcpy_eq hin, hsize]
    refine ⟨b'.put (b.addr + pre.length) rplc, rfl, by rw [Memory.Block.put_size, hb'.2, hb],
      rfl, ?_⟩
    rw [Memory.Block.put_addr, hb'.1, List.append_assoc]
    refine Memory.Block.at_append.mpr ⟨Memory.Block.at_append.mpr ⟨?_, ?_⟩, ?_⟩
    · exact hpre'.put_of_disjoint (.inl (le_refl _))
    · exact Memory.Block.at_put hin
    · rw [List.length_append, ← Nat.add_assoc]
      exact hpost'.put_of_disjoint (.inr (le_refl _))

/-- What a replacing call returns that needs `room` bytes: the count `k`, with the string `l'`
left, or -1, with `j` as it was, when there are less and the allocator refuses more; a
request that doubling does not reach, beyond 2 ^ 63, loops. -/
def Replaced (al : Alloc) (room : Nat) (j : JstrTy) (l' : Bytes) (k : Nat) :
    Run (Nat × JstrTy) → Prop
  | .error f => f = .diverge ∧ j.capacity < room ∧ 9223372036854775808 < room
  | .ok (r, j') => (r = sizeMax ∧ j' = j ∧ Denied al j room) ∨ (r = k ∧ Str j' l')

theorem replaced_of_ok {al : Alloc} {j : JstrTy} {room k : Nat} {l' : Bytes}
    {r : Run (Nat × JstrTy)} (h : ∃ j', r = .ok (k, j') ∧ Str j' l') :
    Replaced al room j l' k r := by
  obtain ⟨j', rfl, hs⟩ := h
  exact .inr ⟨rfl, hs⟩

/-- Where there is room nothing is asked for, and the call succeeds. -/
theorem Replaced.ok_of_le {al : Alloc} {j : JstrTy} {room k : Nat} {l' : Bytes}
    {r : Run (Nat × JstrTy)} (h : Replaced al room j l' k r) (hle : room ≤ j.capacity) :
    ∃ j', r = .ok (k, j') ∧ Str j' l' := by
  rcases r with f | ⟨r, j'⟩
  · obtain ⟨-, hlt, -⟩ := h
    omega
  · rcases h with ⟨-, -, hlt, -⟩ | ⟨rfl, hs⟩
    · omega
    · exact ⟨j', rfl, hs⟩

theorem rplcatOnce_spec {al : Alloc} {j : JstrTy} {pre find rplc post s : Bytes} {at' : Nat}
    (hs : Str j s) (hsplit : s = pre ++ find ++ post) (hat : at' = pre.length)
    (hfit : s.length + rplc.length + 1 ≤ sizeMax) :
    Replaced al ((pre ++ rplc ++ post).length + 1) j (pre ++ rplc ++ post) 1
      (rplcatOnce al j at' rplc find.length) := by
  subst hsplit hat
  have hcat := @rplcatLen_spec al j pre find rplc post hs hfit
  rw [rplcatOnce]
  rcases hr : rplcatLen al j pre.length rplc find.length with f | ⟨_ | p, j'⟩
  · rw [hr] at hcat
    exact hcat
  · rw [hr] at hcat
    exact .inl ⟨rfl, hcat⟩
  · rw [hr] at hcat
    exact .inr ⟨rfl, hcat⟩

/-! ## The first pass -/

/-- The matches are counted, and the last one ends where the text that is
not split off begins. -/
theorem countLoop_spec {next : Blk → Nat → Run (Option Nat)} {FIND : Bytes} {b : Blk} {e : Nat}
    (hnext : Seeks FIND b e next) : ∀ (n : Nat) {p changed : Nat} {rem : Bytes},
    b.At p (FIND ++ rem) → p + FIND.length + rem.length = e →
    ∃ last, countLoop (next b) FIND.length (n + 1) p changed
        = .ok (changed + 1 + countN FIND n rem, last) ∧
      last + FIND.length + (splitN FIND n rem).2.length = e := by
  intro n
  induction n with
  | zero =>
      intro p changed rem _ he
      exact ⟨p, rfl, he⟩
  | succ n ih =>
      intro p changed rem hat he
      have hfind := hnext b (SameBlock.refl b) (p + FIND.length) rem hat.right he
      rw [countLoop]
      simp only [if_neg (Nat.succ_ne_zero n), hfind, bind, Except.bind]
      cases hk : search FIND rem with
      | none =>
          refine ⟨p, ?_, ?_⟩
          · rw [countN_succ_none hk]
            rfl
          · rwa [splitN_succ_none hk]
      | some k =>
          obtain ⟨hrem, hklen⟩ := eq_append_of_search hk
          have hlen := search_lt hk
          have hat' : b.At (p + FIND.length + k) (FIND ++ rem.drop (k + FIND.length)) := by
            rw [hrem, List.append_assoc] at hat
            have := hat.right.right
            rwa [hklen] at this
          obtain ⟨last, hrun, hlast⟩ := @ih (p + FIND.length + k) (changed + 1) _ hat'
            (by rw [List.length_drop]; omega)
          refine ⟨last, ?_, ?_⟩
          · simp only [Option.map_some, hrun, countN_succ_some hk]
            congr 2
            omega
          · rwa [splitN_succ_some hk]

/-! ## The second pass -/

/-- With room for the growth of every match still ahead, each match is
replaced and the text behind the last one is left unread. -/
theorem pushLoop_spec {next : Blk → Nat → Run (Option Nat)} {FIND rplc : Bytes} {last d : Nat}
    (hgrow : rplc.length = FIND.length + d) (tail : Bytes) : ∀ (ps : List Bytes) (p : Bytes)
    {b : Blk} {out : Bytes} {i : Inplace} {slack : Nat}, Seeks FIND b last next →
    Cursor b out (joinWith FIND (p :: ps) tail) i.dst i.src slack → i.srcE = i.src + p.length →
    Cuts FIND ps tail → (ps.length + 1) * d ≤ slack →
    last = i.src + (joinWith FIND (p :: ps) []).length →
    ∃ b' i' slack', pushLoop next FIND.length rplc (ps.length + 1) b i = .ok (b', i') ∧
      SameBlock b b' ∧ Cursor b' (out ++ joinWith rplc (p :: ps) []) tail i'.dst i'.src slack' ∧
      i'.src + tail.length = i.src + (joinWith FIND (p :: ps) tail).length := by
  intro ps
  induction ps with
  | nil =>
      intro p b out i slack _ hcur hsrcE _ hslack _
      rw [List.length_nil, Nat.zero_add, Nat.one_mul] at hslack
      rw [joinWith_cons, joinWith_nil, List.append_assoc] at hcur
      obtain ⟨b₁, hmove, hb₁, hcur₁⟩ := hcur.move
      obtain ⟨b₂, hcpy, hb₂, hcur₂⟩ := @Cursor.store _ _ _ _ _ _ _ rplc hcur₁ (by omega)
      refine ⟨b₂, ⟨i.dst + p.length + rplc.length, i.src + p.length + FIND.length,
        i.srcE + FIND.length⟩, slack + FIND.length - rplc.length, ?_, hb₁.trans hb₂, ?_, ?_⟩
      · rw [pushLoop, show i.srcE - i.src = p.length by omega, hmove]
        simp only [bind, Except.bind, hcpy]
        rfl
      · rw [joinWith_cons, joinWith_nil, List.append_nil, ← List.append_assoc]
        exact hcur₂
      · simp only [joinWith_cons, joinWith_nil, List.length_append]
        omega
  | cons q ps ih =>
      intro p b out i slack hnext hcur hsrcE hcuts hslack hlast
      obtain ⟨hq, hcuts'⟩ := hcuts
      rw [List.length_cons, Nat.succ_mul] at hslack
      rw [joinWith_cons, List.append_assoc] at hcur
      obtain ⟨b₁, hmove, hb₁, hcur₁⟩ := hcur.move
      obtain ⟨b₂, hcpy, hb₂, hcur₂⟩ := @Cursor.store _ _ _ _ _ _ _ rplc hcur₁ (by omega)
      -- the window ends with the last match, and the next match is inside it
      have hwin : joinWith FIND (q :: ps) tail = joinWith FIND (q :: ps) [] ++ tail := by
        rw [← joinWith_append_rest, List.nil_append]
      have hfound : search FIND (joinWith FIND (q :: ps) []) = some q.length := by
        have hle : q.length + FIND.length ≤ (joinWith FIND (q :: ps) []).length := by
          rw [joinWith_cons, List.length_append, List.length_append]
          omega
        have := search_take hq hle
        rwa [hwin, List.take_left] at this
      rw [joinWith_cons, List.length_append, List.length_append] at hlast
      have hfind := hnext b₂ (hb₁.trans hb₂) (i.srcE + FIND.length) (joinWith FIND (q :: ps) [])
        (by have := hcur₂.unread
            rw [hwin] at this
            rw [hsrcE]
            exact this.left) (by omega)
      obtain ⟨b', i', slack', hrun, hb', hcur', hsrc⟩ := @ih q b₂ (out ++ p ++ rplc)
        ⟨i.dst + p.length + rplc.length, i.src + p.length + FIND.length,
          i.srcE + FIND.length + q.length⟩ _ (hnext.same (hb₁.trans hb₂)) hcur₂
        (by simp only; omega) hcuts' (by omega) (by simp only; omega)
      refine ⟨b', i', slack', ?_, (hb₁.trans hb₂).trans hb', ?_, ?_⟩
      · rw [pushLoop, show i.srcE - i.src = p.length by omega, hmove]
        simp only [bind, Except.bind, hcpy, List.length_cons, if_neg (Nat.succ_ne_zero ps.length),
          hfind, hfound, Option.map_some]
        exact hrun
      · rw [joinWith_cons, ← List.append_assoc, ← List.append_assoc]
        exact hcur'
      · rw [joinWith_cons, List.length_append, List.length_append]
        simp only at hsrc
        omega

/-! ## Both passes -/

/-- The allocator does not answer with memory that holds the needle. -/
def AllocApart (al : Alloc) (p n : Nat) : Prop :=
  ∀ o m b, al.realloc o m = some b → Apart b p n

/-- The needle stays apart from the block after a reallocation. -/
theorem Needle.moved {cfg : Build} {env : Mem} {j j' : JstrTy} {t : TwowayTy} {find : Nat}
    {FIND : Bytes} {al : Alloc} (hf : Needle cfg env j t find FIND)
    (hal : AllocApart al find FIND.length)
    (h : j'.data = j.data ∨ ∃ m b, al.realloc j.data m = some b ∧ j'.data = some b) :
    Needle cfg env j' t find FIND where
  prepared := hf.prepared
  mem := hf.mem
  ne_nil := hf.ne_nil
  apart := by
    intro b hb
    rcases h with hd | ⟨m, b', hr, hd⟩
    · exact hf.apart b (hd ▸ hb)
    · rw [hd] at hb
      cases hb
      exact hal _ _ _ hr

section Push

variable {cfg : Build} {env : Mem} {t : TwowayTy} {j : JstrTy} {find d : Nat}
  {FIND rplc s₁ tail : Bytes} {ps : List Bytes}

/-- The text that grows: each of the matches by `d` bytes. -/
theorem length_joinWith_grow (hgrow : rplc.length = FIND.length + d) :
    (joinWith rplc ps tail).length = (joinWith FIND ps tail).length + ps.length * d := by
  have := length_joinWith rplc FIND tail ps
  rw [hgrow, Nat.mul_add] at this
  omega

theorem length_joinWith_rest (find : Bytes) :
    (joinWith find ps tail).length = (joinWith find ps []).length + tail.length := by
  rw [← List.length_append, ← joinWith_append_rest, List.nil_append]

/-- The second pass, in a block that holds the text and has room for the
new one and the text pushed behind it. -/
theorem pushReplace_spec {b : Blk} (ht : Prepared cfg FIND t) (hmem : MemAt env find FIND)
    (hap : Apart b find FIND.length) (hgrow : rplc.length = FIND.length + d)
    (hat : b.At b.addr (s₁ ++ joinWith FIND ([] :: ps) tail)) (hcuts : Cuts FIND ps tail)
    (hroom : s₁.length + (joinWith rplc ([] :: ps) tail).length
      + (joinWith FIND ([] :: ps) tail).length + 1 ≤ b.size) :
    ∃ b', pushReplace cfg env t find FIND.length rplc s₁.length
        (s₁.length + (joinWith rplc ([] :: ps) tail).length) (joinWith FIND ([] :: ps) []).length
        (joinWith FIND ([] :: ps) tail).length (ps.length + 1) b
        = .ok (b', b.addr + (s₁ ++ joinWith rplc ([] :: ps) tail).length) ∧
      Stores b (s₁ ++ joinWith rplc ([] :: ps) tail) b' := by
  have hlen := @length_joinWith_grow d FIND rplc tail ([] :: ps) hgrow
  rw [List.length_cons] at hlen
  have hres : s₁ ++ joinWith rplc ([] :: ps) tail
      = s₁ ++ joinWith rplc ([] :: ps) [] ++ tail := by
    rw [List.append_assoc, ← joinWith_append_rest, List.nil_append]
  have hresLen := congrArg List.length hres
  rw [List.length_append, List.length_append] at hresLen
  generalize hN : (joinWith rplc ([] :: ps) tail).length = N at *
  generalize hF : joinWith FIND ([] :: ps) tail = F at *
  have hin : b.InRange (b.addr + (s₁.length + N)) F.length := ⟨by omega, by omega⟩
  have hb₁ := sameBlock_put b (b.addr + (s₁.length + N)) F
  have hcur : Cursor (b.put (b.addr + (s₁.length + N)) F) s₁ F (b.addr + s₁.length)
      (b.addr + (s₁.length + N)) N :=
    ⟨hat.left.put_of_disjoint (.inl (by omega)), rfl, Memory.Block.at_put hin, by omega⟩
  have hnext := seeks_memmem ht hmem (hap.same hb₁)
    (b.addr + (s₁.length + N) + (joinWith FIND ([] :: ps) []).length)
  obtain ⟨b₂, i', slack', hrun, hb₂, hcur₂, hsrc⟩ :=
    @pushLoop_spec _ FIND rplc _ d hgrow tail ps [] _ s₁
      ⟨b.addr + s₁.length, b.addr + (s₁.length + N), b.addr + (s₁.length + N)⟩ N hnext
      (by rw [hF]; exact hcur) rfl hcuts (by omega) rfl
  obtain ⟨b', hmove, hst⟩ := hcur₂.finish (by rw [hb₂.2, hb₁.2]; omega)
  rw [hF] at hsrc
  simp only at hsrc
  refine ⟨b', ?_, ?_⟩
  · rw [pushReplace]
    simp only [Blk.memmove_eq hat.right rfl hin, bind, Except.bind, hrun,
      show b.addr + (s₁.length + N) + F.length - i'.src = tail.length by omega, hmove]
    rw [hres, hb₂.1, hb₁.1]
  · rw [hres]
    exact ⟨by rw [hst.addr, hb₂.1, hb₁.1], by rw [hst.size, hb₂.2, hb₁.2],
      by have := hst.content; rwa [hb₂.1, hb₁.1] at this⟩

/-- Counting done, the buffer grown once, and both texts in it. -/
theorem reservePush_spec {al : Alloc} {a last : Nat} (hf : Needle cfg env j t find FIND)
    (hal : AllocApart al find FIND.length) (hgrow : rplc.length = FIND.length + d)
    (hs : Str j (s₁ ++ joinWith FIND ([] :: ps) tail)) (hcuts : Cuts FIND ps tail)
    (hlast : last + FIND.length + tail.length
      = a + (s₁ ++ joinWith FIND ([] :: ps) tail).length)
    (hfit : (s₁ ++ joinWith FIND ([] :: ps) tail).length
      + (s₁ ++ joinWith rplc ([] :: ps) tail).length + 1 ≤ sizeMax) :
    Replaced al ((s₁ ++ joinWith rplc ([] :: ps) tail).length
        + (joinWith FIND ([] :: ps) tail).length + 1) j
      (s₁ ++ joinWith rplc ([] :: ps) tail) (ps.length + 1)
      (reservePush cfg env al t j find FIND.length rplc a (a + s₁.length) last (ps.length + 1)) := by
  have hsz := hs.content.size
  have hlen := @length_joinWith_grow d FIND rplc tail ([] :: ps) hgrow
  have hwin := @length_joinWith_rest tail ([] :: ps) FIND
  rw [List.length_cons] at hlen
  simp only [List.length_append] at hfit hsz hlast
  have hnew : addSz j.size (mulSz (ps.length + 1) (subSz rplc.length FIND.length))
      = s₁.length + (joinWith rplc ([] :: ps) tail).length := by
    rw [subSz_eq (by omega), show rplc.length - FIND.length = d by omega,
      mulSz_eq (by omega), addSz_eq (by omega), hsz, hlen]
    omega
  have hat' : a + s₁.length - a = s₁.length := Nat.add_sub_cancel_left _ _
  have hfirst : j.size - s₁.length = (joinWith FIND ([] :: ps) tail).length := by omega
  have hend : a + j.size - (a + s₁.length) = (joinWith FIND ([] :: ps) tail).length := by omega
  have hlast' : last + FIND.length - (a + s₁.length)
      = (joinWith FIND ([] :: ps) []).length := by omega
  have hreq : addSz (addSz (s₁.length + (joinWith rplc ([] :: ps) tail).length)
        (joinWith FIND ([] :: ps) tail).length) 1
      = (s₁ ++ joinWith rplc ([] :: ps) tail).length
        + (joinWith FIND ([] :: ps) tail).length + 1 := by
    rw [@addSz_eq _ (joinWith FIND ([] :: ps) tail).length (by omega), addSz_eq (by omega),
      List.length_append]
  rw [reservePush]
  simp only [hnew, hat', hfirst, hend, hlast', hreq]
  rcases @reserve_cases al j _ hs.content.backed (Nat.succ_pos _) with
    ⟨hr, hlt⟩ | ⟨hr, hden⟩ | ⟨j', hr, hg⟩
  · rw [hr]
    exact ⟨rfl, hlt⟩
  · rw [hr]
    exact .inl ⟨rfl, rfl, hden⟩
  · have hf' := hf.moved hal (reserve_data hr)
    obtain ⟨⟨b, hd, hb, _, hat⟩, b', hd', hroom⟩ := hs.grown hg
    rw [hd] at hd'
    cases hd'
    rw [List.length_append] at hroom
    obtain ⟨b', hrun, hst⟩ := pushReplace_spec hf'.prepared hf'.mem (hf'.apart b hd) hgrow hat.left
      hcuts (by omega)
    rw [hr]
    simp only [bind, Except.bind, JstrTy.deref, hd, hrun, Nat.add_sub_cancel_left]
    exact .inr ⟨rfl, b', rfl, by rw [hst.size, hb], rfl, by rw [hst.addr]; exact hst.content⟩

end Push

/-! ## The paths together -/

/-- The bytes pushed behind the room for the new text: those from the first match on, when
several are to grow. -/
def pushedLen (FIND rplc s : Bytes) (start n : Nat) : Nat :=
  if FIND.length < rplc.length ∧ 1 < countN FIND n (s.drop start) then
    s.length - (start + (search FIND (s.drop start)).getD 0)
  else 0

/-- The room a replacing call needs: for the new text, for what is pushed behind it and for the
terminator. -/
def rplcnRoom (FIND rplc s : Bytes) (start n : Nat) : Nat :=
  (s.take start ++ replaceN FIND rplc n (s.drop start)).length + pushedLen FIND rplc s start n + 1

theorem pushedLen_some {FIND rplc s : Bytes} {start n k : Nat}
    (hk : search FIND (s.drop start) = some k) (hlt : FIND.length < rplc.length) :
    pushedLen FIND rplc s start (n + 1)
      = if countN FIND n ((s.drop start).drop (k + FIND.length)) = 0 then 0
        else s.length - (start + k) := by
  rw [pushedLen, countN_succ_some hk, hk, Option.getD_some]
  split
  · rw [if_neg (by omega)]
  · rw [if_pos (by omega)]

/-- One match is replaced in its place. -/
theorem rplcnRoom_of_le_one {FIND rplc s : Bytes} {start n : Nat}
    (h : countN FIND n (s.drop start) ≤ 1) :
    rplcnRoom FIND rplc s start n
      = (s.take start ++ replaceN FIND rplc n (s.drop start)).length + 1 := by
  rw [rplcnRoom, pushedLen, if_neg fun hpush => Nat.not_le.mpr hpush.2 h, Nat.add_zero]

/-- What does not grow fits where the text is. -/
theorem rplcnRoom_le_capacity {j : JstrTy} {FIND rplc s : Bytes} {start n : Nat} (hs : Str j s)
    (hle : rplc.length ≤ FIND.length) : rplcnRoom FIND rplc s start n ≤ j.capacity := by
  obtain ⟨b, hh, hat⟩ := hs.holds
  have hroom := hat.inRange.2
  have hlen := length_replaceN FIND rplc n (s.drop start)
  have hmul := Nat.mul_le_mul_left (countN FIND n (s.drop start)) hle
  have hsplit := congrArg List.length (List.take_append_drop start s)
  have hcap := hh.backed
  rw [List.length_append] at hsplit
  rw [List.length_append, List.length_singleton] at hroom
  rw [rplcnRoom, pushedLen, if_neg fun hpush => Nat.not_le.mpr hpush.1 hle, Nat.add_zero,
    List.length_append]
  omega

section Dispatch

variable {cfg : Build} {env : Mem} {al : Alloc} {t : TwowayTy} {j : JstrTy} {find : Nat}
  {s FIND rplc : Bytes}

theorem rplcLenFromExec_spec (hs : Str j s) (hf : Needle cfg env j t find FIND) (start : Nat)
    (hfit : s.length + (s.take start ++ replaceN FIND rplc 1 (s.drop start)).length + 1 ≤ sizeMax) :
    Replaced al (rplcnRoom FIND rplc s start 1) j
      (s.take start ++ replaceN FIND rplc 1 (s.drop start)) (countN FIND 1 (s.drop start))
      (rplcLenFromExec cfg env al t j start find FIND.length rplc) := by
  have hsz := hs.content.size
  have hpos := List.length_pos_of_ne_nil hf.ne_nil
  rw [rplcLenFromExec]
  by_cases hge : start ≥ j.size
  · obtain ⟨hrepl, hcount⟩ := @replaced_of_ge s FIND start hf.ne_nil (by omega) rplc 1
    rw [if_pos hge, hrepl, hcount]
    exact .inr ⟨rfl, hs⟩
  rw [if_neg hge, if_neg (by omega)]
  obtain ⟨b, hh, hat⟩ := hs.holds
  have hdrop := hh.content.drop (show start ≤ s.length by omega)
  have hfind := seeks_memmem hf.prepared hf.mem (hf.apart b hh.data) (b.addr + s.length) b
    (SameBlock.refl b) (b.addr + start) (s.drop start) hdrop (by rw [List.length_drop]; omega)
  simp only [JstrTy.deref, hh.data, bind, Except.bind, hsz, hfind]
  cases hk : search FIND (s.drop start) with
  | none =>
      rw [replaceN_succ_none hk, countN_succ_none hk, List.take_append_drop]
      exact .inr ⟨rfl, hs⟩
  | some k =>
      obtain ⟨hsplit, hprelen⟩ := eq_append_of_search_from hk (show start ≤ s.length by omega)
      have hres : s.take start ++ replaceN FIND rplc 1 (s.drop start)
          = s.take start ++ (s.drop start).take k ++ rplc
            ++ (s.drop start).drop (k + FIND.length) := by
        rw [replaceN_succ_some hk]
        simp only [List.append_assoc]
        rfl
      have hcount : countN FIND 1 (s.drop start) = 1 := countN_succ_some hk
      rw [rplcnRoom_of_le_one (Nat.le_of_eq hcount), hcount]
      rw [hres] at hfit ⊢
      simp only [Option.map_some]
      refine rplcatOnce_spec hs hsplit (by omega) ?_
      simp only [List.length_append] at hfit
      omega

/-- With at least one replacement asked for and a longer `rplc`. -/
theorem rplcnGrow_spec (hs : Str j s) (hf : Needle cfg env j t find FIND)
    (hal : AllocApart al find FIND.length) (hlt : FIND.length < rplc.length) {start : Nat}
    (hstart : start ≤ s.length) (n : Nat)
    (hfit : s.length + (s.take start ++ replaceN FIND rplc (n + 1) (s.drop start)).length + 1
      ≤ sizeMax) :
    Replaced al (rplcnRoom FIND rplc s start (n + 1)) j
      (s.take start ++ replaceN FIND rplc (n + 1) (s.drop start))
      (countN FIND (n + 1) (s.drop start))
      (rplcnGrow cfg env al t j start find FIND.length rplc (n + 1)) := by
  obtain ⟨b, hh, hat⟩ := hs.holds
  have hsz := hh.size
  have hseek := seeks_memmem hf.prepared hf.mem (hf.apart b hh.data) (b.addr + s.length)
  have hfind := hseek b (SameBlock.refl b) (b.addr + start) (s.drop start)
    (hh.content.drop hstart) (by rw [List.length_drop]; omega)
  rw [rplcnGrow]
  simp only [JstrTy.deref, hh.data, bind, Except.bind, hsz, hfind]
  cases hk : search FIND (s.drop start) with
  | none =>
      rw [replaceN_succ_none hk, countN_succ_none hk, List.take_append_drop]
      exact .inr ⟨rfl, hs⟩
  | some k =>
      obtain ⟨hsplit, hprelen⟩ := eq_append_of_search_from hk hstart
      have hpush := @pushedLen_some FIND rplc s start n k hk hlt
      rw [rplcnRoom, countN_succ_some hk]
      rw [← hprelen] at hpush
      generalize pushedLen FIND rplc s start (n + 1) = pushed at *
      rw [replaceN_succ_some hk, ← List.append_assoc, ← List.append_assoc] at hfit ⊢
      generalize s.take start ++ (s.drop start).take k = pre at *
      generalize (s.drop start).drop (k + FIND.length) = rem at *
      have hcontent := hh.content
      have hslen := congrArg List.length hsplit
      rw [hsplit, List.append_assoc] at hcontent
      simp only [List.length_append] at hslen
      have hfirst : b.addr + start + k = b.addr + pre.length := by omega
      obtain ⟨last, hrun, hlast⟩ := @countLoop_spec _ FIND b _ hseek n (b.addr + pre.length) 0 rem
        hcontent.right (by omega)
      simp only [Option.map_some, hfirst, hrun]
      rw [if_neg (by omega)]
      -- the pieces of what follows the first match
      have hjoin : ∀ g : Bytes, joinWith g ([] :: (splitN FIND n rem).1) (splitN FIND n rem).2
          = g ++ replaceN FIND g n rem := fun g => by rw [joinWith_cons]; rfl
      by_cases h1 : countN FIND n rem = 0
      · rw [if_pos (by omega)]
        have hnil : (splitN FIND n rem).1 = [] := List.length_eq_zero_iff.mp h1
        have hrest : ∀ g : Bytes, replaceN FIND g n rem = rem := by
          intro g
          have := joinWith_splitN FIND n rem
          rw [hnil, joinWith_nil] at this
          rw [replaceN, hnil, joinWith_nil, this]
        rw [hrest] at hfit ⊢
        rw [if_pos h1] at hpush
        rw [h1, hpush, Nat.add_zero]
        refine rplcatOnce_spec hs hsplit (by omega) ?_
        simp only [List.length_append] at hfit
        omega
      · rw [if_neg (by omega)]
        have hs' := hs
        rw [hsplit, List.append_assoc, ← replaceN_self FIND n rem, ← hjoin] at hs'
        have hsplit' : s = pre ++ joinWith FIND ([] :: (splitN FIND n rem).1) (splitN FIND n rem).2 := by
          rw [hjoin, replaceN_self, ← List.append_assoc]
          exact hsplit
        have hrest : pushed
            = (joinWith FIND ([] :: (splitN FIND n rem).1) (splitN FIND n rem).2).length := by
          have := congrArg List.length hsplit'
          rw [List.length_append] at this
          rw [hpush, if_neg h1]
          omega
        rw [List.append_assoc, ← hjoin] at hfit ⊢
        rw [hsplit'] at hfit
        have hspec := @reservePush_spec cfg env t j find (rplc.length - FIND.length) FIND rplc pre
          (splitN FIND n rem).2 (splitN FIND n rem).1 al b.addr last hf hal (by omega) hs'
          (cuts_splitN FIND n rem) (by rw [← hsplit']; omega) hfit
        have hcount : 0 + 1 + countN FIND n rem = (splitN FIND n rem).1.length + 1 := by
          rw [countN]
          omega
        rw [hcount, hrest]
        exact hspec

theorem rplcnLenFromExec_spec (hs : Str j s) (hnul : 0 ∉ s) (hf : Needle cfg env j t find FIND)
    (hal : AllocApart al find FIND.length) (start n : Nat)
    (hfit : s.length + (s.take start ++ replaceN FIND rplc n (s.drop start)).length + 1
      ≤ sizeMax) :
    Replaced al (rplcnRoom FIND rplc s start n) j
      (s.take start ++ replaceN FIND rplc n (s.drop start)) (countN FIND n (s.drop start))
      (rplcnLenFromExec cfg env al t j start find FIND.length rplc n) := by
  have hsz := hs.content.size
  have hpos := List.length_pos_of_ne_nil hf.ne_nil
  rw [rplcnLenFromExec]
  by_cases hge : start ≥ j.size
  · obtain ⟨hrepl, hcount⟩ := @replaced_of_ge s FIND start hf.ne_nil (by omega) rplc n
    rw [if_pos hge, hrepl, hcount]
    exact .inr ⟨rfl, hs⟩
  rw [if_neg hge]
  by_cases h1 : n = 1
  · subst h1
    rw [if_pos rfl]
    exact rplcLenFromExec_spec hs hf start hfit
  rw [if_neg h1]
  cases n with
  | zero =>
      obtain ⟨hrepl, hcount⟩ := replaced_zero s FIND rplc start
      rw [if_pos rfl, hrepl, hcount]
      exact .inr ⟨rfl, hs⟩
  | succ n =>
      rw [if_neg (Nat.succ_ne_zero n)]
      obtain ⟨b, hh, hat⟩ := hs.holds
      by_cases hr0 : rplc.length = 0
      · obtain rfl := List.length_eq_zero_iff.mp hr0
        rw [if_pos hr0]
        exact replaced_of_ok (rmnLenFromExec_spec hs hnul hf start (n + 1))
      rw [if_neg hr0]
      by_cases hchr : FIND.length = 1 ∧ rplc.length = 1
      · rw [if_pos hchr]
        obtain ⟨c, rfl⟩ := List.length_eq_one_iff.mp hchr.1
        obtain ⟨r, rfl⟩ := List.length_eq_one_iff.mp hchr.2
        have htake : (s.take start).length = start := by rw [List.length_take]; omega
        rw [← List.take_append_drop start s] at hat
        obtain ⟨b', hrun, hb, hout⟩ := @rplcnchrLen_spec env c r (n + 1) b (s.take start)
          (s.drop start) (b.addr + start) (b.addr + s.length) 0 hat (by rw [htake])
          (by rw [List.length_drop]; omega)
        have hlen : (s.take start ++ replaceN [c] [r] (n + 1) (s.drop start)).length
            = s.length := by
          have := length_replaceN [c] [r] (n + 1) (s.drop start)
          rw [List.length_singleton, List.length_singleton, List.length_drop] at this
          rw [List.length_append, htake]
          omega
        simp only [JstrTy.deref, hh.data, bind, Except.bind, hsz, memAt_head hf.mem rfl,
          List.headD_cons, hrun, Nat.zero_add]
        exact .inr ⟨rfl, b', rfl, by rw [hb.2, hh.backed], hlen.symm, by rw [hb.1]; exact hout⟩
      rw [if_neg hchr, if_neg (by omega)]
      by_cases hle : rplc.length ≤ FIND.length
      · rw [if_pos hle]
        simp only [JstrTy.deref, hh.data, bind, Except.bind, hsz]
        exact replaced_of_ok (inplaceFrom_spec hle hh.data hs (by omega)
          (seeks_memmem hf.prepared hf.mem (hf.apart b hh.data) _))
      · rw [if_neg hle]
        exact rplcnGrow_spec hs hf hal (by omega) (by omega) n hfit

theorem rplcnLenFrom_spec (hs : Str j s) (hnul : 0 ∉ s) (hmem : MemAt env find FIND)
    (hfind : FIND ≠ []) (hap : ∀ b, j.data = some b → Apart b find FIND.length)
    (hal : AllocApart al find FIND.length) (start n : Nat)
    (hfit : s.length + (s.take start ++ replaceN FIND rplc n (s.drop start)).length + 1
      ≤ sizeMax) :
    Replaced al (rplcnRoom FIND rplc s start n) j
      (s.take start ++ replaceN FIND rplc n (s.drop start)) (countN FIND n (s.drop start))
      (rplcnLenFrom cfg env al j start find FIND.length rplc n) := by
  obtain ⟨t, hcomp, ht⟩ := memmemComp_prepared cfg hmem cfg.uninitTable
  rw [rplcnLenFrom, hcomp]
  exact rplcnLenFromExec_spec hs hnul ⟨ht, hmem, hfind, hap⟩ hal start n hfit

theorem rplcallLen_spec (hs : Str j s) (hnul : 0 ∉ s) (hmem : MemAt env find FIND)
    (hfind : FIND ≠ []) (hap : ∀ b, j.data = some b → Apart b find FIND.length)
    (hal : AllocApart al find FIND.length)
    (hfit : s.length + (replaceAll FIND rplc s).length + 1 ≤ sizeMax) :
    Replaced al (rplcnRoom FIND rplc s 0 sizeMax) j (replaceAll FIND rplc s)
      (countAll FIND s) (rplcallLen cfg env al j find FIND.length rplc) := by
  have hle : s.length ≤ sizeMax := by omega
  have hrepl := replaceN_eq_replaceAll hfind rplc hle
  have hcount := countN_eq_countAll hfind hle
  have hspec := @rplcnLenFrom_spec cfg env al j find s FIND rplc hs hnul hmem hfind hap hal 0
    sizeMax
  rw [List.take_zero, List.nil_append, List.drop_zero, hrepl, hcount] at hspec
  exact hspec hfit

/-- Whatever path is taken, a replacing call that succeeds leaves the text
up to `start` and, behind it, the text with its first at most `n` leftmost
occurrences replaced, terminated, and returns how many there were; it fails
only when the room it needs is refused. Nothing is moved, copied or written
outside the block; what the searches load is not followed here. -/
theorem rplcnLenFrom_replaces (cfg : Build) (t₀ : TwowayTy) (hs : Str j s) (hnul : 0 ∉ s)
    (hmem : MemAt env find FIND) (hfind : FIND ≠ [])
    (hap : ∀ b, j.data = some b → Apart b find FIND.length)
    (hal : AllocApart al find FIND.length) (rplc : Bytes) (start n : Nat)
    (hfit : s.length + (s.take start ++ replaceN FIND rplc n (s.drop start)).length + 1
      ≤ sizeMax) :
    Replaced al (rplcnRoom FIND rplc s start n) j
        (s.take start ++ replaceN FIND rplc n (s.drop start)) (countN FIND n (s.drop start))
        (rplcnLenFrom cfg env al j start find FIND.length rplc n) ∧
      (∃ t, memmemComp cfg env t₀ find FIND.length = .ok t ∧
        Replaced al (rplcnRoom FIND rplc s start n) j
          (s.take start ++ replaceN FIND rplc n (s.drop start)) (countN FIND n (s.drop start))
          (rplcnLenFromExec cfg env al t j start find FIND.length rplc n)) ∧
      (s.length + (replaceAll FIND rplc s).length + 1 ≤ sizeMax →
        Replaced al (rplcnRoom FIND rplc s 0 sizeMax) j (replaceAll FIND rplc s)
          (countAll FIND s) (rplcallLen cfg env al j find FIND.length rplc)) := by
  refine ⟨rplcnLenFrom_spec hs hnul hmem hfind hap hal start n hfit, ?_,
    rplcallLen_spec hs hnul hmem hfind hap hal⟩
  obtain ⟨t, hcomp, ht⟩ := memmemComp_prepared cfg hmem t₀
  exact ⟨t, hcomp, rplcnLenFromExec_spec hs hnul ⟨ht, hmem, hfind, hap⟩ hal start n hfit⟩

/-- "abab" at address 64, "ab" to be replaced by "xyz" from address 0. -/
theorem rplcnLenFrom_replaces_abab :
    Replaced (Alloc.filling 4096 0) 11 ⟨some ⟨64, [97, 98, 97, 98, 0]⟩, 4, 5⟩
        [120, 121, 122, 120, 121, 122] 2
        (rplcnLenFrom sse2Build (memOf [97, 98]) (Alloc.filling 4096 0)
          ⟨some ⟨64, [97, 98, 97, 98, 0]⟩, 4, 5⟩ 0 0 2 [120, 121, 122] 5) ∧
      (∃ t, memmemComp sse2Build (memOf [97, 98]) default 0 2 = .ok t ∧
        Replaced (Alloc.filling 4096 0) 11 ⟨some ⟨64, [97, 98, 97, 98, 0]⟩, 4, 5⟩
          [120, 121, 122, 120, 121, 122] 2
          (rplcnLenFromExec sse2Build (memOf [97, 98]) (Alloc.filling 4096 0) t
            ⟨some ⟨64, [97, 98, 97, 98, 0]⟩, 4, 5⟩ 0 0 2 [120, 121, 122] 5)) ∧
      (11 ≤ sizeMax →
        Replaced (Alloc.filling 4096 0) 11 ⟨some ⟨64, [97, 98, 97, 98, 0]⟩, 4, 5⟩
          [120, 121, 122, 120, 121, 122] 2
          (rplcallLen sse2Build (memOf [97, 98]) (Alloc.filling 4096 0)
            ⟨some ⟨64, [97, 98, 97, 98, 0]⟩, 4, 5⟩ 0 2 [120, 121, 122])) := by
  have hat : Memory.Block.At (⟨64, [97, 98, 97, 98, 0]⟩ : Blk) 64 ([97, 98, 97, 98] ++ [0]) :=
    ⟨by decide, by decide⟩
  refine @rplcnLenFrom_replaces (memOf [97, 98]) (Alloc.filling 4096 0) _ 0 [97, 98, 97, 98]
    [97, 98] sse2Build default ⟨_, rfl, rfl, rfl, hat⟩ (by decide) (by decide) (by decide) ?_ ?_
    [120, 121, 122] 0 5 (by decide)
  · intro b hb
    cases hb
    exact .inl (by decide)
  · intro o m b hb
    cases hb
    exact .inl (show 2 ≤ 4096 by decide)

end Dispatch

end Jstr
