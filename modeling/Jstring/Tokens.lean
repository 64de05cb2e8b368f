import Jstring.Strtok
import Jstring.Strip
import Mathlib.Data.List.TakeWhile

/-!
# Tokens between runs of delimiters

`jstr_strtok` of `include/string.h`, and the loop
`while ((tok = jstr_strtok(&save, delim)))`. A call steps over the bytes of
the set, hands out the next one and leaves the save pointer behind the last
byte of the token, on a delimiter or the terminator.

- `tokens`: the parts between delimiters that are not empty;
- `CutAt`: where they are, as far as they go to both sides;
- `strtok_tokens`: the loop ends and hands out exactly these, and what
  `jstr_rmallspn` leaves of the string is the tokens put together.
-/

namespace Jstr

open Words Iterators

/-- `jstr_strtok`: the token, and `*save_ptr` after the call. -/
def strtok (mem : Mem) (delim : Bytes) (savePtr : Nat) : Run (Option Nat × Nat) :=
  let s := savePtr
  if mem s = 0 then .ok (none, savePtr)
  else do
    let k ← strspn mem s delim
    let s := s + k
    if mem s = 0 then .ok (none, s)
    else do
      let k ← strcspn mem s delim
      .ok (some s, s + k)

/-! ## The tokens of a text -/

variable {delim l r t u : Bytes}

/-- What is between delimiters, without what is empty. -/
def tokens (delim l : Bytes) : List Bytes := (l.splitOnP (· ∈ delim)).filter (· ≠ [])

theorem tokens_append_delim {x : UInt8} (hx : x ∈ delim) (r l : Bytes) :
    tokens delim (r ++ x :: l) = tokens delim r ++ tokens delim l := by
  rw [tokens, List.splitOnP_append_cons r l (decide_eq_true hx), List.filter_append]
  rfl

theorem tokens_delim {x : UInt8} (hx : x ∈ delim) : tokens delim (x :: l) = tokens delim l :=
  tokens_append_delim hx [] l

theorem tokens_skip (hu : ∀ x ∈ u, x ∈ delim) : tokens delim (u ++ l) = tokens delim l := by
  induction u with
  | nil => rfl
  | cons x u ih =>
      rw [List.cons_append, tokens_delim (hu x List.mem_cons_self),
        ih fun y hy => hu y (List.mem_cons_of_mem x hy)]

/-- A token ends at the end of the text or in front of a delimiter. -/
theorem tokens_word (ht : ∀ x ∈ t, x ∉ delim) (hne : t ≠ []) (hr : ∀ x ∈ r.head?, x ∈ delim) :
    tokens delim (t ++ r) = t :: tokens delim r := by
  have hno : ∀ x ∈ t, decide (x ∈ delim) = false := fun x hx => decide_eq_false (ht x hx)
  cases r with
  | nil =>
      have hnil : tokens delim [] = [] := rfl
      rw [hnil, List.append_nil, tokens, List.splitOnP_eq_singleton hno,
        List.filter_cons_of_pos (by simpa using hne)]
      rfl
  | cons d r =>
      have hd : d ∈ delim := hr d rfl
      rw [tokens_delim hd, tokens,
        List.splitOnP_append_cons_of_forall_mem hno d (decide_eq_true hd),
        List.filter_cons_of_pos (by simpa using hne)]
      rfl

theorem splitOnP_flatten (p : UInt8 → Bool) : ∀ l : Bytes,
    (l.splitOnP p).flatten = l.filter (!p ·)
  | [] => rfl
  | x :: l => by
      have ih := splitOnP_flatten p l
      rw [List.splitOnP_cons_eq_if_modifyHead]
      cases hx : p x with
      | true =>
          rw [if_pos rfl, List.flatten_cons, List.nil_append, ih,
            List.filter_cons_of_neg (by simp [hx])]
      | false =>
          obtain ⟨y, ys, hys⟩ := List.exists_cons_of_ne_nil (@List.splitOnP_ne_nil _ p l)
          rw [hys] at ih
          rw [if_neg (by decide), hys, List.modifyHead_cons, List.flatten_cons, List.cons_append,
            ← List.flatten_cons, ih, List.filter_cons_of_pos (by simp [hx])]

/-- Put together the tokens are the text without the delimiters. -/
theorem tokens_flatten (delim l : Bytes) : (tokens delim l).flatten = kept delim l := by
  rw [tokens, List.flatten_filter_ne_nil, splitOnP_flatten, kept]
  refine List.filter_congr fun x _ => ?_
  rw [decide_not]

/-! ## Where they are -/

/-- The bytes from `p` to `q` are as `hit` says. -/
def AllOf (hit : UInt8 → Prop) (mem : Mem) (p q : Nat) : Prop := ∀ x ∈ window mem p (q - p), hit x

/-- From `p` to `e`: delimiters, then a token that goes as far as it can, and
so on; in the end delimiters only. -/
def CutAt (delim : Bytes) (mem : Mem) (e : Nat) : Nat → List (Nat × Nat) → Prop
  | p, [] => p ≤ e ∧ AllOf (· ∈ delim) mem p e
  | p, (tok, save) :: pairs => p ≤ tok ∧ AllOf (· ∈ delim) mem p tok ∧ tok < save ∧
      AllOf (· ∉ delim) mem tok save ∧ (save = e ∨ mem save ∈ delim) ∧ CutAt delim mem e save pairs

theorem CutAt.le {mem : Mem} {e : Nat} : ∀ {p : Nat} {pairs : List (Nat × Nat)},
    CutAt delim mem e p pairs → p ≤ e
  | _, [], h => h.1
  | _, _ :: _, h => by
      obtain ⟨hp, -, hlt, -, -, hrest⟩ := h
      have := hrest.le
      omega

/-- A token is not empty and lies inside. -/
theorem CutAt.inside {mem : Mem} {e : Nat} : ∀ {p : Nat} {pairs : List (Nat × Nat)},
    CutAt delim mem e p pairs → ∀ pair ∈ pairs, p ≤ pair.1 ∧ pair.1 < pair.2 ∧ pair.2 ≤ e
  | _, [], _, _, h => absurd h List.not_mem_nil
  | _, _ :: _, hcuts, pair, h => by
      obtain ⟨hp, -, hlt, -, -, hrest⟩ := hcuts
      have hle := hrest.le
      rcases List.mem_cons.mp h with rfl | h
      · exact ⟨hp, hlt, hle⟩
      · have := hrest.inside pair h
        omega

/-- The tokens so cut are those of the text. -/
theorem CutAt.tokens_eq {mem : Mem} {e : Nat} : ∀ {p : Nat} {pairs : List (Nat × Nat)},
    CutAt delim mem e p pairs →
      (pairs.map fun (tok, save) => window mem tok (save - tok))
        = tokens delim (window mem p (e - p))
  | p, [], h => by
      have hskip := @tokens_skip delim [] _ h.2
      rw [List.append_nil] at hskip
      rw [hskip]
      rfl
  | p, (tok, save) :: pairs, h => by
      obtain ⟨hp, hskip, hlt, hword, hend, hrest⟩ := h
      have hle := hrest.le
      have hne : window mem tok (save - tok) ≠ [] := by
        refine List.ne_nil_of_length_pos ?_
        rw [length_window]
        omega
      have hhead : ∀ x ∈ (window mem save (e - save)).head?, x ∈ delim := by
        intro x hx
        rcases Nat.eq_or_lt_of_le hle with rfl | hlt
        · rw [Nat.sub_self] at hx
          cases hx
        · rw [show e - save = e - save - 1 + 1 by omega, window_succ] at hx
          cases hx
          exact hend.resolve_left (Nat.ne_of_lt hlt)
      rw [List.map_cons, hrest.tokens_eq,
        show e - p = (tok - p) + ((save - tok) + (e - save)) by omega, window_add,
        tokens_skip hskip, show p + (tok - p) = tok by omega, window_add,
        show tok + (save - tok) = save by omega, tokens_word hword hne hhead]

/-! ## The loop -/

section Loop

variable {mem : Mem} {s : Nat}

/-- The longest prefix of the set, then the longest one without it, and what
stops either. -/
theorem word_split (delim l : Bytes) : ∃ u t r, l = u ++ (t ++ r) ∧ u.length = spn delim l ∧
    t.length = cspn delim (t ++ r) ∧ (∀ x ∈ u, x ∈ delim) ∧ (∀ x ∈ t, x ∉ delim) ∧
    (∀ x ∈ r.head?, x ∈ delim) ∧ (t = [] → r = []) := by
  generalize hrest : l.dropWhile (· ∈ delim) = rest
  have hl : l.takeWhile (· ∈ delim) ++ rest = l := hrest ▸ List.takeWhile_append_dropWhile
  have hr : rest.takeWhile (· ∉ delim) ++ rest.dropWhile (· ∉ delim) = rest :=
    List.takeWhile_append_dropWhile
  have hstop : ∀ x ∈ (rest.dropWhile (· ∉ delim)).head?, x ∈ delim := by
    intro x hx
    have := List.head?_dropWhile_not (· ∉ delim) rest
    rw [Option.mem_def.mp hx] at this
    simpa using this
  refine ⟨_, rest.takeWhile (· ∉ delim), _, ?_, rfl, ?_, fun x hx => ?_, fun x hx => ?_, hstop,
    fun hnil => ?_⟩
  · rw [hr, hl]
  · rw [hr, cspn]
  · simpa using List.mem_takeWhile_imp hx
  · simpa using List.mem_takeWhile_imp hx
  · -- what stops the set is no delimiter, so it would begin a token
    rw [hnil, List.nil_append] at hr
    rw [hr] at hstop ⊢
    cases rest with
    | nil => rfl
    | cons x rest =>
        have hin := hstop x rfl
        have hnot := List.head?_dropWhile_not (· ∈ delim) l
        rw [hrest] at hnot
        simp [hin] at hnot

/-- Delimiters are stepped over, and the token that follows is cut off; what is behind
it is cut up likewise. -/
theorem CStr.strtok_yields (delim : Bytes) : ∀ (n : Nat) {s : Nat} {l : Bytes}, l.length = n →
    CStr mem s l → ∃ pairs, Yields (tokenLoop (strtok mem delim)) s pairs ∧
      CutAt delim mem (s + l.length) s pairs := by
  intro n
  induction n using Nat.strong_induction_on with
  | _ n ih =>
      intro s l hn h
      obtain ⟨u, t, r, hl, hu, ht, hskip, hword, hstop, hnil⟩ := word_split delim l
      have hlen : l.length = u.length + (t.length + r.length) := by
        rw [hl, List.length_append, List.length_append]
      have hbytes := h.bytes
      rw [hl, memAt_append, memAt_append] at hbytes
      have hall : AllOf (· ∈ delim) mem s (s + u.length) := by
        rw [AllOf, Nat.add_sub_cancel_left, window_of_memAt hbytes.1]
        exact hskip
      have hspn := h.strspn_eq delim
      rw [← hu] at hspn
      by_cases ht0 : t = []
      · -- nothing but delimiters is left
        have hend : l.length = u.length := by rw [hlen, ht0, hnil ht0]; rfl
        refine ⟨[], .done ?_, by omega, hend ▸ hall⟩
        rw [tokenLoop, strtok]
        by_cases h0 : mem s = 0
        · rw [if_pos h0]
          rfl
        · rw [if_neg h0, hspn]
          simp only [bind, Except.bind]
          rw [if_pos (hend ▸ h.nul)]
      · have hpos := List.length_pos_of_ne_nil ht0
        have hs : mem s ≠ 0 := h.ne_zero (i := 0) (by omega)
        have htok : mem (s + u.length) ≠ 0 := h.ne_zero (by omega)
        have hcspn : strcspn mem (s + u.length) delim = .ok t.length := by
          rw [(h.drop (k := u.length) (by omega)).strcspn_eq, ht]
          rw [hl, List.drop_left]
        have hdrop : CStr mem (s + u.length + t.length) r := by
          have := h.drop (k := (u ++ t).length) (by rw [List.length_append]; omega)
          rwa [hl, ← List.append_assoc, List.drop_left, List.length_append, ← Nat.add_assoc]
            at this
        obtain ⟨pairs, hy, hcuts⟩ := ih r.length (by omega) rfl hdrop
        have hcall : tokenLoop (strtok mem delim) s = .ok (some
            ((s + u.length, s + u.length + t.length), s + u.length + t.length)) := by
          rw [tokenLoop, strtok, if_neg hs, hspn]
          simp only [bind, Except.bind, if_neg htok, hcspn]
        refine ⟨(s + u.length, s + u.length + t.length) :: pairs, .more hcall hy,
          Nat.le_add_right _ _, hall, by omega, ?_, ?_, ?_⟩
        · rw [AllOf, Nat.add_sub_cancel_left, window_of_memAt hbytes.2.1]
          exact hword
        · cases r with
          | nil => exact .inl (by rw [hlen, List.length_nil]; omega)
          | cons d r => exact .inr (hdrop.head ▸ hstop d rfl)
        · rwa [show s + l.length = s + u.length + t.length + r.length by omega]

end Loop

/-- The loop ends; its tokens go from delimiter to delimiter, are the parts of the text
between delimiters that are not empty, and put together are what deleting the
delimiters leaves. -/
theorem strtok_tokens (env : Mem) {j : JstrTy} {b : Blk} {s : Bytes} (hs : Str j s)
    (hd : j.data = some b) (h0 : 0 ∉ s) (haddr : Addressed j) (delim : Bytes) :
    ∃ pairs, Yields (tokenLoop (strtok (b.over env) delim)) b.addr pairs ∧
      CutAt delim (b.over env) (b.addr + s.length) b.addr pairs ∧
      (pairs.map fun (tok, save) => window (b.over env) tok (save - tok)) = tokens delim s ∧
      ∃ changed j', rmallspnFrom env j 0 delim = .ok (changed, j') ∧
        Str j' (tokens delim s).flatten := by
  obtain ⟨j', hrm, hj'⟩ := @rmallspnFrom_spec env j s hs h0 haddr 0 delim
  obtain ⟨b', hd', -, hsize, hat⟩ := hs
  obtain rfl : b = b' := Option.some.inj (hd.symm.trans hd')
  have hfit := haddr b hd
  rw [hsize] at hfit
  have hstr : CStr (b.over env) b.addr s := cstr_over hat h0 hfit
  obtain ⟨pairs, hy, hcuts⟩ := hstr.strtok_yields delim _ rfl
  have heq := hcuts.tokens_eq
  rw [Nat.add_sub_cancel_left, window_of_memAt hstr.bytes] at heq
  refine ⟨pairs, hy, hcuts, heq, _, j', hrm, ?_⟩
  rwa [tokens_flatten]

/-- ",a,,b" has two tokens. -/
theorem strtok_tokens_ab : ∃ pairs,
    Yields (tokenLoop (strtok (Blk.over (memOf []) ⟨64, [44, 97, 44, 44, 98, 0]⟩) [44])) 64 pairs ∧
      (pairs.map fun (tok, save) => window (Blk.over (memOf []) ⟨64, [44, 97, 44, 44, 98, 0]⟩) tok
        (save - tok)) = ([[97], [98]] : List Bytes) := by
  have hs : Str ⟨some ⟨64, [44, 97, 44, 44, 98, 0]⟩, 5, 6⟩ [44, 97, 44, 44, 98] :=
    ⟨_, rfl, rfl, rfl, by decide, by decide⟩
  have haddr : Addressed ⟨some ⟨64, [44, 97, 44, 44, 98, 0]⟩, 5, 6⟩ := by
    rintro b ⟨⟩
    decide
  obtain ⟨pairs, hy, -, heq, -⟩ := strtok_tokens (memOf []) hs rfl (by decide) haddr [44]
  exact ⟨pairs, hy, heq.trans (by decide)⟩

end Jstr
