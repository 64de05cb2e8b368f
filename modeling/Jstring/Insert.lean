import Jstring.Reserve
import Jstring.Memmem

/-!
# Inserting a string

`jstr_insert_len`, `jstr_insertafterchr_len` and `jstr_insertafter_len` of
`include/replace.h`. No terminator is written: the byte behind the content
is moved up with the tail, and where nothing has been allocated yet it is
what `realloc` left there.

- `insertLen_iff`: when a call leaves the string with the other in it;
- `inserts_iff`: so, too, behind the first occurrence of something.
-/

namespace Jstr

open Words

/-! ## Searching a record -/

namespace JstrTy

/-- `*s` as a number. -/
def ptr (j : JstrTy) : Nat := j.data.elim 0 (·.addr)

/-- The address space with the block in it, if there is one. -/
def mem (j : JstrTy) (env : Mem) : Mem := j.data.elim env (·.over env)

end JstrTy

/-- `find` is in memory, and not in the block of `j`. -/
def Beside (env : Mem) (j : JstrTy) (find : Nat) (l : Bytes) : Prop :=
  MemAt env find l ∧ ∀ b, j.data = some b → Apart b find l.length

section Search

variable {cfg : Build} {env : Mem} {j : JstrTy} {t l : Bytes} {find : Nat}

theorem Content.memAt (h : Content j t) : MemAt (j.mem env) j.ptr t := by
  rcases h with ⟨rfl, rfl⟩ | ⟨b, hb⟩
  · exact fun i hi => absurd hi (Nat.not_lt_zero i)
  · rw [JstrTy.mem, JstrTy.ptr, hb.data]
    exact memAt_over hb.content

theorem Beside.memAt (h : Beside env j find l) : MemAt (j.mem env) find l := by
  rw [JstrTy.mem]
  cases hd : j.data with
  | none => exact h.1
  | some b => exact memAt_over_of_apart h.1 (h.2 b hd)

theorem Content.memchr_eq (h : Content j t) (c : UInt8) :
    memchr (j.mem env) j.ptr c j.size = (search [c] t).map (j.ptr + ·) := by
  rw [h.size, memchr_eq_search h.memAt]

theorem Content.memmem_eq (h : Content j t) (hl : Beside env j find l) :
    memmem cfg (j.mem env) j.ptr j.size find l.length
      = .ok ((search l t).map (j.ptr + ·)) := by
  rw [h.size, memmem_spec cfg h.memAt hl.memAt]

end Search

/-! ## The functions -/

/-- `jstr_insertafterchr_len`. -/
def insertafterchrLen (env : Mem) (al : Alloc) (j : JstrTy) (c : UInt8) (src : Bytes) :
    Run (RetTy × JstrTy) :=
  match memchr (j.mem env) j.ptr c j.size with
  | some p => insertLen al j (addSz (subSz p j.ptr) 1) src
  | none => .ok (.succ, j)

/-- `jstr_insertafter_len`. -/
def insertafterLen (cfg : Build) (env : Mem) (al : Alloc) (j : JstrTy) (find findLen : Nat)
    (src : Bytes) : Run (RetTy × JstrTy) :=
  if findLen = 1 then insertafterchrLen env al j (env find) src
  else if findLen = 0 then .ok (.succ, j)
  else do
    match ← memmem cfg (j.mem env) j.ptr j.size find findLen with
    | some p => insertLen al j (addSz (subSz p j.ptr) findLen) src
    | none => .ok (.succ, j)

/-! ## What they leave -/

/-- The byte moved as the terminator is one: the string is terminated, or
the first block it gets begins with a NUL. -/
def MovesNul (al : Alloc) (j : JstrTy) (n : Nat) : Prop :=
  match j.data with
  | some b => b.cell? (b.addr + j.size) = some 0
  | none => ∀ cap tmp, GrowsTo al j n cap tmp → tmp.cell? tmp.addr = some 0

/-- When `n` bytes are inserted rightly: if the room for them is granted,
the size does not wrap, and a terminator is moved. -/
def InsertMeets (al : Alloc) (j : JstrTy) (n : Nat) : Prop :=
  Granted al j (addSz (addSz j.size n) 1) →
    j.size + n + 1 ≤ sizeMax ∧ MovesNul al j (addSz (addSz j.size n) 1)

section Insert

variable {cfg : Build} {env : Mem} {al : Alloc} {j : JstrTy} {t src l : Bytes} {at' find : Nat}

/-- The byte behind the content of the block with room is the one that is
moved. -/
theorem movesNul_iff {n : Nat} {j' : JstrTy} {b : Blk} {x : UInt8} (hc : Content j t) (hn : 0 < n)
    (hg : Grown j n j') (hj' : j' = j ∧ n ≤ j.capacity ∨
      ∃ cap tmp, GrowsTo al j n cap tmp ∧ j' = { j with data := some tmp, capacity := cap })
    (hd : j'.data = some b) (hat : b.At b.addr (t ++ [x])) : MovesNul al j n ↔ x = 0 := by
  have hx := (Memory.Block.at_singleton.mp hat.right).2
  rw [MovesNul]
  rcases hc with ⟨rfl, rfl⟩ | ⟨b₀, h₀⟩
  · obtain ⟨cap, tmp, hgrow, rfl⟩ := hj'.resolve_left fun h => absurd h.2 (Nat.not_le.mpr hn)
    cases hd
    simp only [JstrTy.init, List.length_nil, Nat.add_zero] at hx ⊢
    constructor
    · intro h
      have := h cap b hgrow
      rw [hx] at this
      exact Option.some.inj this
    · intro h cap' tmp' hgrow'
      rw [← (hgrow.unique hgrow').2, hx, h]
  · obtain ⟨x₀, hat₀⟩ := h₀.next
    have hx₀ := (Memory.Block.at_singleton.mp hat₀.right).2
    have hsame := ((hg.keeps b₀ b h₀.data hd).2 _ hat₀).eq_of_length hat (by simp)
    obtain rfl : x₀ = x := by simpa using hsame
    rw [h₀.data, h₀.size]
    simp only [hx₀, Option.some.injEq]

/-- A content is shorter than the largest size. -/
theorem Content.size_lt (hc : Content j t) (hcap : j.capacity ≤ sizeMax) :
    j.size + 1 ≤ sizeMax := by
  rcases hc with ⟨rfl, rfl⟩ | ⟨b, hb⟩
  · decide
  · have hlt := hb.lt
    rw [hb.backed] at hlt
    rw [hb.size]
    omega

/-- The tail moved out of the block. -/
theorem insertUnsafe_bounds {b : Blk} {sz : Nat} (hat' : at' ≤ sz) (hsz : sz + 1 ≤ sizeMax)
    (hb : b.size < sz + src.length + 1) : insertUnsafe b sz at' src = .error .bounds := by
  have hout : ¬(b.InRange (b.addr + at') (sz - at' + 1) ∧
      b.InRange (b.addr + at' + src.length) (sz - at' + 1)) := by
    rintro ⟨-, -, h⟩
    omega
  rw [insertUnsafe, subSz_eq hat', addSz_eq (by omega), Blk.memmove, if_neg (Nat.succ_ne_zero _),
    if_neg hout]
  rfl

/-- Inserting `src`: unless the room is refused the string has `src` in it
exactly when its size fits and the byte behind it is a NUL. -/
theorem insertLen_iff (hc : Content j t) (hcap : j.capacity ≤ sizeMax) (hat' : at' ≤ t.length) :
    Safe j (fun j' => Str j' (t.take at' ++ src ++ t.drop at')) (insertLen al j at' src) ↔
      InsertMeets al j src.length := by
  rw [InsertMeets]
  by_cases hgr : Granted al j (addSz (addSz j.size src.length) 1)
  swap
  · rw [insertLen]
    exact iff_of_true (safe_refused (reserve_refused hgr)) fun h => absurd h hgr
  rw [imp_iff_right hgr, insertLen]
  obtain ⟨j', hr, -, hj'⟩ := hgr.reserve_eq
  rw [hr]
  simp only [orErr]
  by_cases hfit : j.size + src.length + 1 ≤ sizeMax
  · have hw : addSz (addSz j.size src.length) 1 = j.size + src.length + 1 := by
      rw [@addSz_eq j.size src.length (by omega), addSz_eq hfit]
    rw [hw] at hr hj' ⊢
    have hg := @reserve_spec al j hc.backed _ (Nat.succ_pos (j.size + src.length))
    rw [hr] at hg
    have hsz := hc.size
    obtain ⟨b, hh, hroom⟩ := hc.grown hg (by omega)
    obtain ⟨x, hat⟩ := hh.next
    rw [and_iff_right hfit, movesNul_iff hc (Nat.succ_pos _) hg hj' hh.data hat]
    obtain ⟨b', hins, haddr, hsize, hat₂⟩ := @insertUnsafe_spec b t src x at' hat hat' (by omega)
      (by omega)
    simp only [JstrTy.deref, hh.data, hh.size, bind, Except.bind, hins,
      @addSz_eq t.length src.length (by omega), Safe]
    constructor
    · rintro ⟨b₂, hd₂, -, -, hnul⟩
      cases hd₂
      rw [haddr] at hnul
      simpa using hat₂.eq_of_length hnul (by simp)
    · rintro rfl
      refine ⟨b', rfl, by rw [hsize, hh.backed], ?_, by rw [haddr]; exact hat₂⟩
      simp only [List.length_append, List.length_take, List.length_drop]
      omega
  · -- the request wrapped, and there is less room than is written to
    refine iff_of_false ?_ fun h => hfit h.1
    have hsz := hc.size
    have hlen : j.size + 1 ≤ sizeMax := hc.size_lt hcap
    rcases hd : j'.data with _ | b
    · simp only [JstrTy.deref, hd, bind, Except.bind]
      exact not_safe_error (by decide)
    · have hb : b.size ≤ sizeMax := by
        rcases hj' with ⟨rfl, -⟩ | ⟨cap, tmp, hgrow, rfl⟩
        · have := hc.backed
          rw [Backed, hd] at this
          exact this.trans_le hcap
        · cases hd
          exact hgrow.size_eq.trans_le (hgrow.le_sizeMax hcap)
      have hsize : j'.size = j.size := by
        rcases hj' with ⟨rfl, -⟩ | ⟨cap, tmp, -, rfl⟩
        · rfl
        · rfl
      simp only [JstrTy.deref, hd, bind, Except.bind, hsize, insertUnsafe_bounds
        (show at' ≤ j.size by omega) hlen (show b.size < j.size + src.length + 1 by omega)]
      exact not_safe_error (by decide)

/-- The first occurrence looked for. An empty string is not looked for. -/
def firstOf (l t : Bytes) : Option Nat := if l = [] then none else search l t

/-- `src` is inserted right behind the first occurrence of `l`; nothing
happens without one. -/
def InsertsAfter (j : JstrTy) (t l src : Bytes) (r : Run (RetTy × JstrTy)) : Prop :=
  match firstOf l t with
  | none => r = .ok (.succ, j)
  | some k =>
    Safe j (fun j' => Str j' (t.take (k + l.length) ++ src ++ t.drop (k + l.length))) r

/-- What the two callers do with the position found. -/
theorem insertAt_iff (hc : Content j t) (hcap : j.capacity ≤ sizeMax) (hl : l ≠ []) :
    InsertsAfter j t l src (match (search l t).map (j.ptr + ·) with
      | some p => insertLen al j (addSz (subSz p j.ptr) l.length) src
      | none => .ok (.succ, j)) ↔ (firstOf l t ≠ none → InsertMeets al j src.length) := by
  rw [InsertsAfter, firstOf, if_neg hl]
  cases hk : search l t with
  | none => exact iff_of_true rfl fun h => absurd rfl h
  | some k =>
      have hle := search_lt hk
      have hlt := hc.size_lt hcap
      rw [hc.size] at hlt
      simp only [Option.map_some]
      rw [subSz_eq (Nat.le_add_right _ _), Nat.add_sub_cancel_left, addSz_eq (by omega),
        insertLen_iff hc hcap hle]
      exact (imp_iff_right (Option.some_ne_none k)).symm

theorem insertafterchrLen_iff (hc : Content j t) (hcap : j.capacity ≤ sizeMax) (c : UInt8) :
    InsertsAfter j t [c] src (insertafterchrLen env al j c src) ↔
      (firstOf [c] t ≠ none → InsertMeets al j src.length) := by
  rw [insertafterchrLen, hc.memchr_eq]
  exact insertAt_iff hc hcap (List.cons_ne_nil c [])

theorem insertafterLen_iff (hc : Content j t) (hcap : j.capacity ≤ sizeMax)
    (hl : Beside env j find l) :
    InsertsAfter j t l src (insertafterLen cfg env al j find l.length src) ↔
      (firstOf l t ≠ none → InsertMeets al j src.length) := by
  rw [insertafterLen]
  by_cases h1 : l.length = 1
  · obtain ⟨c, rfl⟩ := List.length_eq_one_iff.mp h1
    rw [if_pos h1, memAt_head hl.1 rfl]
    exact insertafterchrLen_iff hc hcap c
  rw [if_neg h1]
  by_cases h0 : l.length = 0
  · rw [if_pos h0, InsertsAfter, firstOf, if_pos (List.length_eq_zero_iff.mp h0)]
    exact iff_of_true rfl fun h => absurd rfl h
  · rw [if_neg h0, hc.memmem_eq hl]
    exact insertAt_iff hc hcap fun h => h0 (by rw [h]; rfl)

/-- The three calls do what they are for exactly when, the room being
granted, the size does not wrap and there is a terminator to be moved. -/
theorem inserts_iff (cfg : Build) (env : Mem) (al : Alloc) (src : Bytes) (hc : Content j t)
    (hcap : j.capacity ≤ sizeMax) :
    (∀ at' ≤ t.length,
        (Safe j (fun j' => Str j' (t.take at' ++ src ++ t.drop at')) (insertLen al j at' src) ↔
          InsertMeets al j src.length)) ∧
      (∀ c, InsertsAfter j t [c] src (insertafterchrLen env al j c src) ↔
        (firstOf [c] t ≠ none → InsertMeets al j src.length)) ∧
      ∀ find l, Beside env j find l →
        (InsertsAfter j t l src (insertafterLen cfg env al j find l.length src) ↔
          (firstOf l t ≠ none → InsertMeets al j src.length)) :=
  ⟨fun _ hat' => insertLen_iff hc hcap hat', insertafterchrLen_iff hc hcap,
    fun _ _ hl => insertafterLen_iff hc hcap hl⟩

/-- "xy" inserted into "ab". -/
theorem inserts_iff_ab :
    (∀ at' ≤ 2,
        (Safe ⟨some ⟨64, [97, 98, 0]⟩, 2, 3⟩
            (fun j' => Str j' (([97, 98] : Bytes).take at' ++ [120, 121] ++ [97, 98].drop at'))
            (insertLen (Alloc.filling 4096 0) ⟨some ⟨64, [97, 98, 0]⟩, 2, 3⟩ at' [120, 121]) ↔
          InsertMeets (Alloc.filling 4096 0) ⟨some ⟨64, [97, 98, 0]⟩, 2, 3⟩ 2)) ∧
      (∀ c, InsertsAfter ⟨some ⟨64, [97, 98, 0]⟩, 2, 3⟩ [97, 98] [c] [120, 121]
          (insertafterchrLen (memOf []) (Alloc.filling 4096 0) ⟨some ⟨64, [97, 98, 0]⟩, 2, 3⟩ c
            [120, 121]) ↔
        (firstOf [c] [97, 98] ≠ none →
          InsertMeets (Alloc.filling 4096 0) ⟨some ⟨64, [97, 98, 0]⟩, 2, 3⟩ 2)) ∧
      ∀ find l, Beside (memOf []) ⟨some ⟨64, [97, 98, 0]⟩, 2, 3⟩ find l →
        (InsertsAfter ⟨some ⟨64, [97, 98, 0]⟩, 2, 3⟩ [97, 98] l [120, 121]
            (insertafterLen sse2Build (memOf []) (Alloc.filling 4096 0)
              ⟨some ⟨64, [97, 98, 0]⟩, 2, 3⟩ find l.length [120, 121]) ↔
          (firstOf l [97, 98] ≠ none →
            InsertMeets (Alloc.filling 4096 0) ⟨some ⟨64, [97, 98, 0]⟩, 2, 3⟩ 2)) := by
  have hs : Str ⟨some ⟨64, [97, 98, 0]⟩, 2, 3⟩ [97, 98] :=
    ⟨_, rfl, rfl, rfl, by decide, by decide⟩
  exact inserts_iff sse2Build (memOf []) (Alloc.filling 4096 0) [120, 121] hs.content (by decide)

/-- "a" inserted into a string that is not allocated, `realloc` answering
with ones: a one is behind it. -/
theorem not_inserts_init :
    ¬Safe .init (fun j' => Str j' [97]) (insertLen (Alloc.filling 64 1) .init 0 [97]) := by
  have hrun : insertLen (Alloc.filling 64 1) .init 0 [97]
      = .ok (.succ, ⟨some ⟨64, 97 :: 1 :: List.replicate 22 1⟩, 1, 24⟩) := rfl
  rw [hrun]
  rintro ⟨b, hb, -, -, hat⟩
  cases hb
  exact absurd (hat.2 1 (by decide)) (by decide)

end Insert

end Jstr
