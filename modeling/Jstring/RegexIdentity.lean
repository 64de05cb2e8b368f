import Jstring.RegexErrors

/-!
# The replacement that is the match itself

`jstr_re_rplcn_backref_len_from_exec` with `\\0`, for every matcher that
reports no error: each match is written where it was, and the text behind
the terminator grows into a copy of the one below.

- `expand_whole`: the replacement stands for the match;
- `requests_self`: the room asked for is the same at every match;
- `reRplcnBackref_identity`: the text stays, and the matches are counted.
-/

namespace Jstr

open Splice

/-- `\\0`. -/
def wholeRef : Bytes := [92, 48]

section Identity

variable {re : ReTy} {fl : Eflags} {t : Bytes} {text : Found → Bytes} {start n nmatch : Nat}

/-- A matcher without errors. -/
def ReTy.NoError (re : ReTy) : Prop := ∀ w fl e, re.regexec w fl ≠ .err e

theorem reError_none (h : re.NoError) : ∀ n pos z, (reRun re fl t n pos z).2 = none
  | 0, _, _ => rfl
  | n + 1, pos, z => by
      by_cases hstop : pos = t.length ∧ z = false
      · rw [reRun_stop hstop]
      cases hans : re.answer fl t pos with
      | noMatch => rw [reRun_noMatch hans]
      | err e => exact absurd hans (h _ _ e)
      | noerror rm =>
          rw [@reRun_found re fl t n z ⟨pos, rm⟩ hstop hans]
          split
          · rfl
          · exact reError_none h n _ _

/-- The replacement stands for the match. -/
theorem expand_whole (f : Found) (hn : 1 ≤ nmatch) :
    replacement true nmatch wholeRef t f = (t.drop f.start).take (f.stop - f.start) := by
  have hwhole : f.rm.text nmatch (t.drop f.pos) ((48 : UInt8) - 48).toNat
      = some (((t.drop f.pos).drop f.rm.whole.so).take (f.rm.whole.eo - f.rm.whole.so)) := by
    have hne : ¬(0 : Nat) ≥ nmatch := by omega
    rw [Groups.text, Groups.ref, show ((48 : UInt8) - 48).toNat = 0 from rfl, if_neg hne]
    rfl
  have hslash : (92 : UInt8) = backslash := rfl
  rw [replacement, if_pos rfl, wholeRef, expand, if_pos hslash, if_pos (by decide), hwhole]
  simp only [expand, List.append_nil, List.drop_drop]
  rw [Found.start, Found.stop]
  congr 1
  omega

/-- What replaces a match is as long as the match. -/
def SameLength (text : Found → Bytes) (fs : List Found) : Prop :=
  ∀ f ∈ fs, (text f).length = f.stop - f.start

theorem Chained.stop_le {m src : Nat} {fs : List Found} (h : Chained m src fs) :
    ∀ f ∈ fs, f.stop ≤ m := by
  induction fs generalizing src with
  | nil => exact fun _ hf => nomatch hf
  | cons f fs ih =>
      obtain ⟨-, -, h3, h4⟩ := h
      exact List.forall_mem_cons.mpr ⟨h3, ih h4⟩

/-- Every request is the same. -/
theorem requests_self {src : Nat} {fs : List Found} (h : Chained t.length src fs)
    (htext : SameLength text fs) : ∀ r ∈ requests text t src src fs, r = 2 * t.length + 3 := by
  induction fs generalizing src with
  | nil => exact fun _ hr => nomatch hr
  | cons f fs ih =>
      obtain ⟨h1, h2, h3, h4⟩ := h
      have hlen := htext f List.mem_cons_self
      have hwritten := @Found.length_written t text f src h1 h2 h3
      have hnext := f.stop_le_next t.length
      rw [requests, show src + (f.written text t src).length = f.next t.length by omega]
      refine List.forall_mem_cons.mpr ⟨by omega, ih h4 fun f' hf' => ?_⟩
      exact htext f' (List.mem_cons_of_mem _ hf')

variable {env : Mem} {al : Alloc} {j : JstrTy} {rplc : Nat}

/-- A call with `\\0` leaves the text as it is and returns the number of
matches, unless one of its requests, which are for little more than twice the text, is refused. -/
theorem reRplcnBackref_identity (cfg : Build) (hs : Str j t) (hre : re.Sound) (hno : re.NoError)
    (start : Nat) (hnm : 1 ≤ nmatch ∧ nmatch ≤ 10)
    (hl : MemAt env rplc wholeRef) (hfit : 2 * t.length + 3 ≤ 9223372036854775808) :
    ∃ o j', reRplcnBackrefLenFromExec cfg env al re j start rplc 2 fl nmatch n = .ok (o, j') ∧
      (o = .changed (if badStart start t.length then 0 else (reMatches re fl t n start).length) ∧
          Str j' t ∨
        o = .neg .espace ∧
          ∃ j₀, ∃ m ∈ asked (replacement true nmatch wholeRef t) t (reMatches re fl t n start),
            m ≤ 2 * t.length + 3 ∧ Denied al j₀ m) := by
  rw [reRplcnBackrefLenFromExec]
  by_cases hbad : badStart start t.length
  · rw [rplcnInternal_badStart hs hbad, if_pos hbad]
    exact ⟨_, _, rfl, .inl ⟨rfl, hs⟩⟩
  rw [if_neg hbad]
  have hstart := of_not_badStart hbad
  have hchain : Chained t.length 0 (reMatches re fl t n start) :=
    (chained_reRun hre n start true (by omega)).mono (Nat.zero_le start)
  have hself : ∀ f, replacement true nmatch wholeRef t f
      = (t.drop f.start).take (f.stop - f.start) := fun f => expand_whole f hnm.1
  have hlen : SameLength (replacement true nmatch wholeRef t) (reMatches re fl t n start) := by
    intro f hf
    have hstop := hchain.stop_le f hf
    rw [hself, List.length_take, List.length_drop]
    omega
  have hsizes : SizesFit t wholeRef (replacement true nmatch wholeRef t)
      (reMatches re fl t n start) := by
    refine ⟨by omega, fun r hr => ?_, fun f hf => ?_⟩
    · rw [requests_self hchain hlen r hr]
      exact hfit
    · have hstop := hchain.stop_le f hf
      rw [hlen f hf, show wholeRef.length = 2 from rfl]
      simp only [sizeMax]
      omega
  have hwhole : splice t 0 ((reMatches re fl t n start).map
      (Found.edit (replacement true nmatch wholeRef t))) = t := by
    rw [splice_self hchain.ordered ?_, List.drop_zero]
    rintro e he
    obtain ⟨f, -, rfl⟩ := List.mem_map.mp he
    exact hself f
  have hasked : ∀ m ∈ asked (replacement true nmatch wholeRef t) t (reMatches re fl t n start),
      m ≤ 2 * t.length + 3 := by
    rw [asked, hwhole]
    refine List.forall_mem_cons.mpr ⟨by omega, List.forall_mem_cons.mpr ⟨by omega, fun m hm => ?_⟩⟩
    exact Nat.le_of_eq (requests_self hchain hlen m hm)
  have hends := rplcnInternal_ends cfg al nmatch n true hs hre hl hstart (fun _ => by decide) hsizes
  rw [show wholeRef.length = 2 from rfl] at hends
  generalize rplcnBackrefLenFromExecInternal cfg env al re j start rplc 2 fl nmatch n true = r
    at hends ⊢
  cases hends with
  | replaced _ _ hstr =>
      rw [hwhole] at hstr
      exact ⟨_, _, rfl, .inl ⟨rfl, hstr⟩⟩
  | failed _ he _ =>
      rw [reError, reError_none hno] at he
      cases he
  | noRoom hlacks _ => exact ⟨_, _, rfl, .inr ⟨rfl, hlacks.le hasked⟩⟩
  | starved hlacks _ _ => exact ⟨_, _, rfl, .inr ⟨rfl, hlacks.le hasked⟩⟩

theorem literal_noError (c : UInt8) : (literal c).NoError := by
  intro w fl e h
  simp only [literal] at h
  split at h <;> cases h

/-- "aba", the two matches of "a". -/
theorem reRplcnBackref_identity_aba :
    ∃ o j', reRplcnBackrefLenFromExec sse2Build (memOf [92, 48]) (Alloc.filling 4096 0)
        (literal 97) ⟨some ⟨64, [97, 98, 97, 0]⟩, 3, 4⟩ 0 0 2 ⟨false, false⟩ 1 9 = .ok (o, j') ∧
      (o = .changed (if badStart 0 3 then 0 else
            (reMatches (literal 97) ⟨false, false⟩ [97, 98, 97] 9 0).length) ∧
          Str j' [97, 98, 97] ∨
        o = .neg .espace ∧
          ∃ j₀, ∃ m ∈ asked (replacement true 1 wholeRef [97, 98, 97]) [97, 98, 97]
              (reMatches (literal 97) ⟨false, false⟩ [97, 98, 97] 9 0),
            m ≤ 9 ∧ Denied (Alloc.filling 4096 0) j₀ m) := by
  have hs : Str ⟨some ⟨64, [97, 98, 97, 0]⟩, 3, 4⟩ [97, 98, 97] :=
    ⟨_, rfl, rfl, rfl, by decide, by decide⟩
  exact @reRplcnBackref_identity (literal 97) ⟨false, false⟩ _ 9 1 (memOf [92, 48])
    (Alloc.filling 4096 0) _ 0 sse2Build hs (literal_sound 97) (literal_noError 97) 0 (by decide)
    (by decide) (by decide)

end Identity

end Jstr
