import Jstring.Memrmem
import Jstring.ReplaceGrow
import Jstring.Regex

/-!
# Removing or replacing the last occurrence

`jstr_rmlast_len_from`, `jstr_rmlast_len` and `jstr_rplclast_len`: what
`jstr_memrmem` finds is taken out, or replaced.

- `rmlastLenFrom_spec`, `rplclastLen_spec`: the calls, given that the last
  occurrence is found;
- `memrmem_iff`: when it is.
-/

namespace Jstr

open Words

/-! ## The calls -/

/-- `jstr_rmlast_len_from`. -/
def rmlastLenFrom (cfg : Build) (env : Mem) (j : JstrTy) (startIdx find findLen : Nat) :
    Run (Nat × JstrTy) :=
  if startIdx ≥ j.size then .ok (0, j)
  else do
    let b ← j.deref
    match ← strrstrLen cfg (b.over env) (b.addr + startIdx) (j.size - startIdx) find findLen with
    | some p => do
      let (b', e) ← rmatLenP b j.size (p - b.addr) findLen
      .ok (1, { j with data := some b', size := e - b.addr })
    | none => .ok (0, j)

/-- `jstr_rmlast_len`. -/
def rmlastLen (cfg : Build) (env : Mem) (j : JstrTy) (find findLen : Nat) : Run (Nat × JstrTy) :=
  rmlastLenFrom cfg env j 0 find findLen

/-- `jstr_rplclast_len`, its result cast to `size_t`. Nothing is found at a null
pointer. -/
def rplclastLen (cfg : Build) (env : Mem) (al : Alloc) (j : JstrTy) (find findLen : Nat)
    (rplc : Bytes) : Run (Nat × JstrTy) :=
  match j.data with
  | none => .ok (0, j)
  | some b => do
    match ← strrstrLen cfg (b.over env) b.addr j.size find findLen with
    | some p => rplcatOnce al j (p - b.addr) rplc findLen
    | none => .ok (0, j)

/-! ## What they leave -/

/-- The text with `rplc` for the `n` bytes at what was found. -/
def replaceFound (rplc : Bytes) (n : Nat) (t : Bytes) : Option Nat → Bytes
  | none => t
  | some i => t.take i ++ rplc ++ t.drop (i + n)

section Last

variable {cfg : Build} {env : Mem} {al : Alloc} {j : JstrTy} {b : Blk} {t FIND : Bytes}
  {find : Nat}

/-- Removed, from `startIdx` on. -/
theorem rmlastLenFrom_spec {start : Nat} {r : Option Nat} (hd : j.data = some b)
    (hb : b.size = j.capacity) (hsz : j.size = t.length) (hat : b.At b.addr (t ++ [0]))
    (hright : Rightmost (OccursAt FIND (t.drop start)) r)
    (hrun : start ≤ t.length → strrstrLen cfg (b.over env) (b.addr + start) (t.length - start)
      find FIND.length = .ok (r.map (b.addr + start + ·))) :
    ∃ k j', rmlastLenFrom cfg env j start find FIND.length = .ok (k, j') ∧
      Str j' (replaceFound [] FIND.length t (r.map (start + ·))) := by
  have hs : Str j t := ⟨b, hd, hb, hsz, hat⟩
  rw [rmlastLenFrom, hsz]
  by_cases hge : start ≥ t.length
  · rw [if_pos hge]
    refine ⟨0, j, rfl, ?_⟩
    have hnil : t.drop start = [] := List.drop_eq_nil_of_le hge
    cases r with
    | none => exact hs
    | some i =>
        have hocc := hright.1.1
        rw [hnil, List.length_nil] at hocc
        show Str j (t.take (start + i) ++ [] ++ t.drop (start + i + FIND.length))
        rw [List.take_of_length_le (by omega), List.drop_eq_nil_of_le (by omega),
          List.append_nil, List.append_nil]
        exact hs
  · rw [if_neg hge]
    simp only [JstrTy.deref, hd, bind, Except.bind, hrun (by omega)]
    cases r with
    | none => exact ⟨0, j, rfl, hs⟩
    | some i =>
        have hin := hright.1.1
        rw [List.length_drop] at hin
        obtain ⟨b', hrm, hst⟩ := @rmatLenP_spec b t (start + i) FIND.length hat (by omega)
        have hat' : b.addr + start + i - b.addr = start + i := by omega
        simp only [Option.map_some, hat', hrm, Nat.add_sub_cancel_left]
        refine ⟨1, _, rfl, ?_⟩
        rw [replaceFound, List.append_nil]
        exact hst.str hb

/-- Replaced, unless room for the new text is refused; with a request that wraps nothing is
promised. -/
theorem rplclastLen_spec {r : Option Nat} {rplc : Bytes} (hs : Str j t) (hd : j.data = some b)
    (hright : Rightmost (OccursAt FIND t) r)
    (hrun : strrstrLen cfg (b.over env) b.addr t.length find FIND.length
      = .ok (r.map (b.addr + ·)))
    (hfit : t.length + rplc.length + 1 ≤ sizeMax) :
    Replaced al ((replaceFound rplc FIND.length t r).length + 1) j
      (replaceFound rplc FIND.length t r)
      (if r.isSome then 1 else 0) (rplclastLen cfg env al j find FIND.length rplc) := by
  have hsz := hs.content.size
  rw [rplclastLen, hd, hsz]
  simp only [hrun, bind, Except.bind]
  cases r with
  | none => exact .inr ⟨rfl, hs⟩
  | some i =>
      have hsplit := hright.1.eq_append
      have hpre : (t.take i).length = i := by
        rw [List.length_take]
        have := hright.1.1
        omega
      simp only [Option.map_some, Nat.add_sub_cancel_left]
      exact rplcatOnce_spec hs hsplit hpre.symm hfit

/-- The two calls on a string that holds the haystack: what is found is removed, and replaced
unless more room is needed and refused. -/
def EditsLast (cfg : Build) (HS NE : Bytes) : Prop :=
  ∀ (env : Mem) (j : JstrTy) (b : Blk) (find : Nat), Str j HS → j.data = some b → 0 < b.addr →
    MemAt env find NE → Apart b find NE.length →
    ∃ r, Rightmost (OccursAt NE HS) r ∧
      (∃ k j', rmlastLen cfg env j find NE.length = .ok (k, j') ∧
        Str j' (replaceFound [] NE.length HS r)) ∧
      ∀ (al : Alloc) (rplc : Bytes), HS.length + rplc.length + 1 ≤ sizeMax →
        Replaced al ((replaceFound rplc NE.length HS r).length + 1) j
          (replaceFound rplc NE.length HS r)
          (if r.isSome then 1 else 0) (rplclastLen cfg env al j find NE.length rplc)

/-- The last occurrence is found, removed and replaced, unless the length cut to
an `unsigned int` loses it. -/
theorem memrmem_iff (cfg : Build) {mem : Mem} {hs ne : Nat} {HS NE : Bytes} (hpos : 0 < hs)
    (hh : MemAt mem hs HS) (hn : MemAt mem ne NE) :
    ((∃ r, memrmem cfg mem hs HS.length ne NE.length = .ok (r.map (hs + ·)) ∧
        strrstrLen cfg mem hs HS.length ne NE.length = .ok (r.map (hs + ·)) ∧
        Rightmost (OccursAt NE HS) r) ∧ EditsLast cfg HS NE) ↔ MoreReaches HS NE := by
  constructor
  · rintro ⟨⟨r, hr, -, hright⟩, -⟩
    exact (memrmem_reaches cfg hpos hh hn).mp ⟨r, hr, hright⟩
  · intro hreach
    obtain ⟨r, hr, hright⟩ := (memrmem_reaches cfg hpos hh hn).mpr hreach
    refine ⟨⟨r, hr, hr, hright⟩, ?_⟩
    intro env j b find hs' hd hpos' hfind hapart
    obtain ⟨b', hd', hb, hsz, hat⟩ := hs'
    rw [hd] at hd'
    cases hd'
    obtain ⟨r', hr', hright'⟩ := (memrmem_reaches cfg hpos' (memAt_over hat.left)
      (memAt_over_of_apart hfind hapart)).mpr hreach
    refine ⟨r', hright', ?_, fun al rplc hfit =>
      rplclastLen_spec ⟨b, hd, hb, hsz, hat⟩ hd hright' hr' hfit⟩
    have h := @rmlastLenFrom_spec cfg env j b HS NE find 0 r' hd hb hsz hat hright' fun _ => hr'
    have hzero : r'.map (0 + ·) = r' := by
      cases r' with
      | none => rfl
      | some i => exact congrArg some (Nat.zero_add i)
    rw [hzero] at h
    exact h

/-- `"a"` in `"aab"`. -/
theorem memrmem_iff_aab :
    ((∃ r, memrmem sse2Build (memOf [0, 97, 97, 98]) 1 ([97, 97, 98] : Bytes).length 1
          ([97] : Bytes).length = .ok (r.map (1 + ·)) ∧
        strrstrLen sse2Build (memOf [0, 97, 97, 98]) 1 ([97, 97, 98] : Bytes).length 1
          ([97] : Bytes).length = .ok (r.map (1 + ·)) ∧
        Rightmost (OccursAt ([97] : Bytes) [97, 97, 98]) r) ∧ EditsLast sse2Build [97, 97, 98] [97]) ↔
      MoreReaches [97, 97, 98] [97] :=
  @memrmem_iff sse2Build (memOf [0, 97, 97, 98]) 1 1 [97, 97, 98] [97] (by decide) (by decide)
    (by decide)

end Last

/-! ## Four gibibytes and a needle -/

section Long

/-- `n` times `'b'`, and eight times `'a'` behind them. -/
def behindMany (n : Nat) : Bytes := List.replicate n 98 ++ List.replicate 8 97

def memBehindMany (n : Nat) : Mem := fun p => if p < n + 1 then 98 else 97

theorem memAt_behindMany (n : Nat) : MemAt (memBehindMany n) 1 (behindMany n) ∧
    MemAt (memBehindMany n) (n + 1) (List.replicate 8 97) := by
  have hneedle : MemAt (memBehindMany n) (n + 1) (List.replicate 8 97) := by
    intro i hi
    rw [List.getElem_replicate, memBehindMany, if_neg (by omega)]
  refine ⟨memAt_append.mpr ⟨fun i hi => ?_, ?_⟩, hneedle⟩
  · rw [List.length_replicate] at hi
    rw [List.getElem_replicate, memBehindMany, if_pos (by omega)]
  · rwa [List.length_replicate, Nat.add_comm]

theorem length_behindMany (n : Nat) : (behindMany n).length = n + 8 := by
  rw [behindMany, List.length_append, List.length_replicate, List.length_replicate]

theorem occursAt_behindMany (n : Nat) : OccursAt (List.replicate 8 97) (behindMany n) n := by
  refine ⟨by rw [length_behindMany, List.length_replicate], fun k hk => ?_⟩
  rw [behindMany, List.getElem?_append_right (by rw [List.length_replicate]; omega),
    List.length_replicate, Nat.add_sub_cancel_left]

theorem lastHead_behindMany (n : Nat) : LastHead (behindMany n) (List.replicate 8 97) n := by
  refine ⟨occursAt_head (by rw [List.length_replicate]; decide) (occursAt_behindMany n),
    fun i hi h => ?_⟩
  have := h.1
  rw [length_behindMany, List.length_replicate] at this
  omega

/-- The eight bytes behind 2 ^ 32 others are not found: the length left is 2 ^ 32 + 8,
as an `unsigned int` it is 8. -/
theorem not_memrmem_long :
    ¬∀ (mem : Mem) (hs ne : Nat) (HS NE : Bytes), 0 < hs → hs + HS.length ≤ sizeMax →
      MemAt mem hs HS → MemAt mem ne NE →
      ∃ r, memrmem sse2Build mem hs HS.length ne NE.length = .ok (r.map (hs + ·)) ∧
        Rightmost (OccursAt NE HS) r := by
  intro h
  obtain ⟨hh, hn⟩ := memAt_behindMany 4294967296
  have hlen : 1 + (behindMany 4294967296).length ≤ sizeMax := by
    rw [length_behindMany]
    decide
  have hreach := (memrmem_reaches sse2Build Nat.one_pos hh hn).mp
    (h _ _ _ _ _ Nat.one_pos hlen hh hn)
  have := (hreach (by rw [List.length_replicate]) 4294967296 (lastHead_behindMany _)).2 4294967296
    (occursAt_behindMany _)
  rw [List.length_replicate] at this
  exact absurd this (by decide)

end Long

end Jstr
