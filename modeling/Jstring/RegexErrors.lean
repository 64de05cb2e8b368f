import Jstring.RegexRplc

/-!
# The error paths of the regex calls

What a call that returns a negative value leaves. The rebuilding calls read
the text from below and keep it, but for the size, which is the offset
written up to while the buffer grows (`growAt`). Removal overwrites the
text as it goes.

- `Ends.errorKeeps_iff`: when the text is kept, for every way to end;
- `re_errorKeeps_iff`: the three functions.
-/

namespace Jstr

open Splice

/-- The size and the bytes, the terminator with them, are those of `t`. -/
def KeepsText (t : Bytes) (j : JstrTy) : Prop :=
  j.size = t.length ∧ ∃ b, j.data = some b ∧ b.At b.addr (t ++ [0])

/-- A call that reports an error has kept the text. -/
def ErrorKeeps (t : Bytes) (r : Run (ReOff × JstrTy)) : Prop :=
  ∀ e j', r = .ok (.neg e, j') → KeepsText t j'

section KeepsText

variable {al : Alloc} {R : Nat → Bool} {re : ReTy} {fl : Eflags} {t l : Bytes}
  {text : Found → Bytes} {start n : Nat} {j : JstrTy} {starved : (Nat → Bool) → Bool}
  {left : JstrTy → Prop} {r : Run (ReOff × JstrTy)}

theorem Str.keepsText (h : Str j t) : KeepsText t j := by
  obtain ⟨b, hd, -, hsz, hat⟩ := h
  exact ⟨hsz, b, hd, hat⟩

theorem errorKeeps_changed {k : Nat} {j' : JstrTy} : ErrorKeeps t (.ok (.changed k, j')) :=
  fun _ _ h => nomatch h

theorem errorKeeps_neg {e : ReErr} {j' : JstrTy} :
    ErrorKeeps t (.ok (.neg e, j')) ↔ KeepsText t j' := by
  refine ⟨fun h => h e j' rfl, fun h e' j'' heq => ?_⟩
  cases heq
  exact h

/-- A call that fails keeps the text unless memory ran out in the middle, or
the matcher failed where the text is not kept (`K`). -/
theorem Ends.errorKeeps_iff {K : Prop} (hR : Decides al R) (hs : Str j t)
    (hK : (∃ o m, al.realloc o m = none) → K) (hleft : ∀ j', left j' → (KeepsText t j' ↔ K))
    (h : Ends al re fl t text start n j starved left r) :
    ErrorKeeps t r ↔ starved R = false ∧ (reError re fl t n start ≠ none → K) := by
  cases h with
  | replaced hno he _ =>
      exact iff_of_true errorKeeps_changed ⟨hno R hR, fun h => absurd he h⟩
  | failed hno he hj =>
      rw [errorKeeps_neg, hleft _ hj, hno R hR, he]
      simp
  | noRoom hnone hno =>
      exact iff_of_true (errorKeeps_neg.mpr hs.keepsText) ⟨hno R hR, fun _ => hK hnone.realloc⟩
  | starved _ hyes hsize =>
      rw [hyes R hR]
      exact iff_of_false (fun h => hsize (errorKeeps_neg.mp h).1) (fun h => nomatch h.1)

theorem decides_filling (addr : Nat) (x : UInt8) : Decides (Alloc.filling addr x) fun _ => false :=
  fun _ _ => ⟨(fun h => nomatch h), (fun h => nomatch h)⟩

theorem decides_failing : Decides Alloc.failing fun _ => true := fun _ _ => iff_of_true rfl rfl

/-! ## Removal -/

theorem Chained.resume_le {src : Nat} {fs : List Found} (h : Chained t.length src fs) :
    src + (built (fun _ => []) t src fs).length ≤ t.length := by
  induction fs generalizing src with
  | nil => exact h
  | cons f fs ih =>
      obtain ⟨h1, h2, h3, h4⟩ := h
      have hrest := ih h4
      have hnext := f.stop_le_next t.length
      rw [built, List.length_append, Found.length_written h1 h2 h3, List.length_nil]
      omega

theorem length_compacted_le (hre : re.Sound) (hpos : start ≤ t.length) :
    (compacted re fl t n start).length ≤ t.length := by
  have := (@chained_reRun re fl t hre n start true hpos).resume_le
  rw [compacted, List.length_append, List.length_take, reMatches]
  omega

theorem keeps_of_overwritten {out : Bytes} (h : Overwritten t out j)
    (hle : out.length ≤ t.length) : KeepsText t j ↔ out <+: t := by
  obtain ⟨hsz, b, hd, hat⟩ := h
  constructor
  · rintro ⟨-, b', hd', hat'⟩
    rw [hd] at hd'
    cases hd'
    have heq := hat.eq_of_length hat' (by
      simp only [List.length_append, List.length_drop, List.length_singleton]
      omega)
    rw [← List.append_assoc] at heq
    exact ⟨_, List.append_cancel_right heq⟩
  · rintro ⟨rest, rfl⟩
    rw [List.drop_left, ← List.append_assoc] at hat
    exact ⟨hsz, b, hd, hat⟩

/-- Where the matcher fails, if it does, what has been written by then is
what was there before. -/
def RemovalKeeps (re : ReTy) (fl : Eflags) (t : Bytes) (n start : Nat) : Prop :=
  reError re fl t n start ≠ none → compacted re fl t n start <+: t

theorem reRmn_errorKeeps_iff {env : Mem} (hs : Str j t) (hre : re.Sound)
    (hstart : start = 0 ∨ start < t.length) :
    ErrorKeeps t (reRmnFromExec env re j start fl n) ↔ RemovalKeeps re fl t n start := by
  have hends := @reRmnFromExec_ends env re fl t (Alloc.filling 0 0) j start n hs hre hstart
  have h := @Ends.errorKeeps_iff _ (fun _ => false) _ _ _ _ _ _ _ _ _ _
    (compacted re fl t n start <+: t) (decides_filling 0 0) hs (fun ⟨_, _, h⟩ => nomatch h)
    (fun j' hj' => keeps_of_overwritten hj' (length_compacted_le hre (by omega))) hends
  rw [h, RemovalKeeps]
  exact ⟨fun h => h.2, fun h => ⟨rfl, h⟩⟩

/-! ## The three functions -/

/-- An error reported by a rebuilding call keeps the text: memory does not
run out in the loop. Without a replacement the call is a removal. -/
def ReplacingKeeps (re : ReTy) (fl : Eflags) (backref : Bool) (nmatch n : Nat) (t l : Bytes)
    (start cap : Nat) (R : Nat → Bool) : Prop :=
  if l = [] then RemovalKeeps re fl t n start
  else starvesCall backref nmatch n t l cap (reMatches re fl t n start) R = false

theorem rplcnInternal_errorKeeps_iff {env : Mem} {rplc nmatch : Nat} {backref : Bool} (cfg : Build)
    (hR : Decides al R) (hs : Str j t) (hre : re.Sound) (hl : MemAt env rplc l)
    (hstart : start = 0 ∨ start < t.length)
    (hstays : backref = true → ¬(refsFrom 0 l = [] ∧ endsInPair l = true))
    (hfit : SizesFit t l (replacement backref nmatch l t) (reMatches re fl t n start)) :
    ErrorKeeps t
        (rplcnBackrefLenFromExecInternal cfg env al re j start rplc l.length fl nmatch n backref) ↔
      ReplacingKeeps re fl backref nmatch n t l start j.capacity R := by
  rw [ReplacingKeeps]
  split
  · rename_i hnil
    subst hnil
    rw [rplcnBackrefLenFromExecInternal]
    split
    · rename_i hn
      subst hn
      exact iff_of_true errorKeeps_changed fun h => absurd rfl h
    · exact reRmn_errorKeeps_iff hs hre hstart
  · rename_i hne
    have hends := rplcnInternal_ends cfg al nmatch n backref hs hre hl hstart hstays hfit
    have h := hends.errorKeeps_iff (K := True) hR hs (fun _ => trivial) fun j' hj' => by
      rw [leftOf, if_neg hne] at hj'
      exact iff_of_true hj'.keepsText trivial
    rw [h]
    exact ⟨fun h => h.1, fun h => ⟨h, fun _ => trivial⟩⟩

theorem of_not_badStart {m : Nat} (h : ¬badStart start m) : start = 0 ∨ start < m := by
  rw [badStart] at h
  omega

theorem reRmn_badStart {env : Mem} (hs : Str j t) (h : badStart start t.length) :
    reRmnFromExec env re j start fl n = .ok (.changed 0, j) := by
  rw [reRmnFromExec, hs.content.size, if_pos h]

theorem rplcnInternal_badStart {env : Mem} {cfg : Build} {rplc rplcLen nmatch : Nat}
    {backref : Bool} (hs : Str j t) (h : badStart start t.length) :
    rplcnBackrefLenFromExecInternal cfg env al re j start rplc rplcLen fl nmatch n backref
      = .ok (.changed 0, j) := by
  rw [rplcnBackrefLenFromExecInternal, reRmn_badStart hs h, hs.content.size, if_pos h]
  split
  · rfl
  · split <;> rfl

/-- Where the scan for references leaves the replacement the call has no
outcome. -/
theorem rplcnInternal_leaves {env : Mem} {cfg : Build} {rplc nmatch : Nat} (hs : Str j t)
    (hl : MemAt env rplc l) (hstart : ¬badStart start t.length)
    (hbad : refsFrom 0 l = [] ∧ endsInPair l = true) :
    ErrorKeeps t
      (rplcnBackrefLenFromExecInternal cfg env al re j start rplc l.length fl nmatch n true) := by
  have hlen : l.length ≠ 0 := by
    intro h
    rw [List.length_eq_zero_iff.mp h] at hbad
    exact absurd hbad.2 (by decide)
  have hscan : backreffirst env rplc l.length = .error .bounds := by
    rw [backreffirst_eq hl, if_pos hbad]
  rw [rplcnBackrefLenFromExecInternal]
  by_cases hn : n = 0
  · rw [if_pos hn]
    exact errorKeeps_changed
  · rw [if_neg hn, if_neg hlen, hs.content.size, if_neg hstart, if_pos rfl, hscan]
    intro _ _ h
    cases h

/-- The text is kept by a call that fails, exactly when what removal has
written by then is what was there before, and memory does not run out in
the loop of a rebuilding call. -/
theorem re_errorKeeps_iff (cfg : Build) (hR : Decides al R) (n start : Nat) (hs : Str j t)
    (hre : re.Sound) {env : Mem} {rplc : Nat} (hl : MemAt env rplc l) :
    (ErrorKeeps t (reRmnFromExec env re j start fl n) ↔
        (¬badStart start t.length → RemovalKeeps re fl t n start)) ∧
      (SizesFit t l (fun _ => l) (reMatches re fl t n start) →
        (ErrorKeeps t (reRplcnLenFromExec cfg env al re j start rplc l.length fl n) ↔
          (¬badStart start t.length → ReplacingKeeps re fl false 1 n t l start j.capacity R))) ∧
      ∀ nmatch, SizesFit t l (replacement true nmatch l t) (reMatches re fl t n start) →
        (ErrorKeeps t (reRplcnBackrefLenFromExec cfg env al re j start rplc l.length fl nmatch n) ↔
          (¬badStart start t.length → ¬(refsFrom 0 l = [] ∧ endsInPair l = true) →
            ReplacingKeeps re fl true nmatch n t l start j.capacity R)) := by
  by_cases hbad : badStart start t.length
  · refine ⟨?_, fun _ => ?_, fun nmatch _ => ?_⟩
    · rw [reRmn_badStart hs hbad]
      exact iff_of_true errorKeeps_changed fun h => absurd hbad h
    · rw [reRplcnLenFromExec, rplcnInternal_badStart hs hbad]
      exact iff_of_true errorKeeps_changed fun h => absurd hbad h
    · rw [reRplcnBackrefLenFromExec, rplcnInternal_badStart hs hbad]
      exact iff_of_true errorKeeps_changed fun h => absurd hbad h
  have hstart := of_not_badStart hbad
  refine ⟨?_, fun hfit => ?_, fun nmatch hfit => ?_⟩
  · rw [reRmn_errorKeeps_iff hs hre hstart]
    exact (imp_iff_right hbad).symm
  · rw [reRplcnLenFromExec, rplcnInternal_errorKeeps_iff cfg hR hs hre hl hstart
      (fun h : false = true => nomatch h) hfit]
    exact (imp_iff_right hbad).symm
  · by_cases hleaves : refsFrom 0 l = [] ∧ endsInPair l = true
    · exact iff_of_true (rplcnInternal_leaves hs hl hbad hleaves) fun _ h => absurd hleaves h
    · rw [reRplcnBackrefLenFromExec, rplcnInternal_errorKeeps_iff cfg hR hs hre hl hstart
        (fun _ => hleaves) hfit, imp_iff_right hbad, imp_iff_right hleaves]

/-- A matcher that finds "a", and fails on a text beginning with "c". -/
def aThenFails : ReTy where
  regexec w fl := if w.head? = some 99 then .err (.other 12) else (literal 97).regexec w fl
  newline := false

theorem aThenFails_sound : aThenFails.Sound := by
  intro w fl rm h
  simp only [aThenFails] at h
  split at h
  · cases h
  · exact literal_sound 97 w fl rm h

/-- "a" removed from "abac", and replaced without memory to grow. -/
theorem re_errorKeeps_iff_abac :
    (ErrorKeeps [97, 98, 97, 99]
        (reRmnFromExec (memOf [120]) aThenFails ⟨some ⟨64, [97, 98, 97, 99, 0]⟩, 4, 5⟩ 0
          ⟨false, false⟩ 1) ↔
        (¬badStart 0 4 → RemovalKeeps aThenFails ⟨false, false⟩ [97, 98, 97, 99] 1 0)) ∧
      (ErrorKeeps [97, 98, 97, 99]
        (reRplcnLenFromExec sse2Build (memOf [120]) Alloc.failing aThenFails
          ⟨some ⟨64, [97, 98, 97, 99, 0]⟩, 4, 5⟩ 0 0 1 ⟨false, false⟩ 9) ↔
        (¬badStart 0 4 → ReplacingKeeps aThenFails ⟨false, false⟩ false 1 9 [97, 98, 97, 99] [120] 0
          5 fun _ => true)) ∧
      (ErrorKeeps [97, 98, 97, 99]
        (reRplcnBackrefLenFromExec sse2Build (memOf [120]) Alloc.failing aThenFails
          ⟨some ⟨64, [97, 98, 97, 99, 0]⟩, 4, 5⟩ 0 0 1 ⟨false, false⟩ 1 9) ↔
        (¬badStart 0 4 → ¬(refsFrom 0 [120] = [] ∧ endsInPair [120] = true) →
          ReplacingKeeps aThenFails ⟨false, false⟩ true 1 9 [97, 98, 97, 99] [120] 0
            5 fun _ => true)) := by
  have hs : Str ⟨some ⟨64, [97, 98, 97, 99, 0]⟩, 4, 5⟩ [97, 98, 97, 99] :=
    ⟨_, rfl, rfl, rfl, by decide, by decide⟩
  have h := fun n => @re_errorKeeps_iff Alloc.failing (fun _ => true) aThenFails ⟨false, false⟩
    [97, 98, 97, 99] [120] _ sse2Build decides_failing n 0 hs aThenFails_sound (memOf [120]) 0
    (by decide)
  exact ⟨(h 1).1, (h 9).2.1 ⟨by decide, by decide, by decide⟩,
    (h 9).2.2 1 ⟨by decide, by decide, by decide⟩⟩

/-- "abac" is "bbac" when the matcher fails behind the second "a" removed;
and "aa", its letters replaced by "xyzw" without memory to grow, has got 3
bytes. -/
theorem not_errorKeeps_abac :
    ¬ErrorKeeps [97, 98, 97, 99]
        (reRmnFromExec (memOf [120]) aThenFails ⟨some ⟨64, [97, 98, 97, 99, 0]⟩, 4, 5⟩ 0
          ⟨false, false⟩ 9) ∧
      ¬ErrorKeeps [97, 97]
        (reRplcnLenFromExec sse2Build (memOf [120, 121, 122, 119]) Alloc.failing aThenFails
          ⟨some ⟨64, [97, 97, 0, 1, 1, 1, 1, 1]⟩, 2, 8⟩ 0 0 4 ⟨false, false⟩ 9) := by
  constructor
  · intro h
    obtain ⟨-, b, hb, hat⟩ := h (.other 12) ⟨some ⟨64, [98, 98, 97, 99, 0]⟩, 4, 5⟩ rfl
    cases hb
    exact absurd (hat.2 0 (by decide)) (by decide)
  · intro h
    obtain ⟨hsz, -⟩ := h .espace ⟨some ⟨64, [97, 97, 0, 97, 97, 1, 1, 1]⟩, 3, 8⟩ rfl
    exact absurd hsz (by decide)

end KeepsText

end Jstr
