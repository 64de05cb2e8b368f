import Jstring.Chrnul
import Jstring.Memmem
import Jstring.Lib.Yields

/-!
# Tokens between delimiters

`jstr_strstrnul`, `jstr_memmemnul`, `jstr_strstrnul_len`, `jstr_strtok_ne_len` and
`jstr_strtok_ne` of `include/string.h`, and the loop
`while ((tok = jstr_strtok_ne(&save, ne)))`. A call hands out the token and
leaves the save pointer behind the delimiter after it.

For a delimiter that is not empty both searches find its first
occurrence, so both loops hand out the same pairs, which tile the text
(`tiles_of_yields`). For an empty one `jstr_memmem` finds it where it
stands and the save pointer never moves: both loops end and agree exactly
when the delimiter or the text allows it (`strtok_right_iff`).
-/

namespace Jstr

open Words Iterators

/-! ## The functions -/

/-- `jstr_strstrnul`. -/
def strstrnul (cfg : ChrnulBuild) (mem : Mem) (hs ne : Nat) : Run Nat :=
  if mem ne ≠ 0 ∧ mem (ne + 1) ≠ 0 then do
    match ← libcStrstr id mem hs ne with
    | some p => .ok p
    | none => do
      let n ← strlen mem hs
      return hs + n
  else strchrnul cfg mem hs (mem ne)

/-- `jstr_memmemnul`. -/
def memmemnul (cfg : Build) (mem : Mem) (hs hsLen ne neLen : Nat) : Run Nat := do
  match ← memmem cfg mem hs hsLen ne neLen with
  | some r => .ok r
  | none => .ok (hs + hsLen)

/-- `jstr_strstrnul_len`. -/
def strstrnulLen (cfg : Build) (mem : Mem) (hs hsLen ne neLen : Nat) : Run Nat :=
  memmemnul cfg mem hs hsLen ne neLen

/-- `jstr_strtok_ne_len`: the token, and `*save_ptr` after the call. -/
def strtokNeLen (cfg : Build) (mem : Mem) (e ne neLen savePtr : Nat) : Run (Option Nat × Nat) :=
  let s := savePtr
  if mem s = 0 then .ok (none, savePtr)
  else do
    let savePtr ← strstrnulLen cfg mem s (e - s) ne neLen
    if mem savePtr ≠ 0 then .ok (some s, savePtr + neLen) else .ok (some s, savePtr)

/-- `jstr_strtok_ne`. -/
def strtokNe (cfg : ChrnulBuild) (mem : Mem) (ne savePtr : Nat) : Run (Option Nat × Nat) :=
  let s := savePtr
  if mem s = 0 then .ok (none, savePtr)
  else do
    let savePtr ← strstrnul cfg mem s ne
    if mem savePtr ≠ 0 then do
      let n ← strlen mem ne
      .ok (some s, savePtr + n)
    else .ok (some s, savePtr)

/-- One turn of `while ((tok = strtok(&save)))`: the token, with the save
pointer after it. -/
def tokenLoop (strtok : Nat → Run (Option Nat × Nat)) (save : Nat) :
    Run (Option ((Nat × Nat) × Nat)) := do
  match ← strtok save with
  | (none, _) => .ok none
  | (some tok, save) => .ok (some ((tok, save), save))

/-! ## One call -/

/-- Where the delimiter behind the token at offset `i` ends, or the text. -/
def tokenEnd (NE l : Bytes) (i : Nat) : Nat :=
  match search NE (l.drop i) with
  | some k => i + k + NE.length
  | none => l.length

theorem tokenEnd_le {NE l : Bytes} {i : Nat} (hi : i ≤ l.length) : tokenEnd NE l i ≤ l.length := by
  rw [tokenEnd]
  cases hk : search NE (l.drop i) with
  | none => exact Nat.le_refl _
  | some k =>
      have := search_lt hk
      rw [List.length_drop] at this
      simp only
      omega

theorem tokenEnd_gt {NE l : Bytes} {i : Nat} (hne : NE ≠ []) (hi : i < l.length) :
    i < tokenEnd NE l i := by
  have hpos := List.length_pos_of_ne_nil hne
  rw [tokenEnd]
  cases search NE (l.drop i) with
  | none => exact hi
  | some k =>
      simp only
      omega

section Call

variable {mem : Mem} {s ne : Nat} {l NE : Bytes} {i : Nat}

/-- Found inside the text a non-NUL byte is pointed to, else the terminator. -/
theorem CStr.found_ne_zero (h : CStr mem s l) (hi : i < l.length) {k : Nat}
    (hk : search NE (l.drop i) = some k) : mem (s + i + k) ≠ 0 := by
  have hle := search_lt hk
  rw [List.length_drop] at hle
  have hlt : i + k < l.length := by
    rcases Nat.lt_or_eq_of_le (show i + k ≤ l.length by omega) with hlt | heq
    · exact hlt
    · -- only the empty delimiter is found at the end, and it is found before
      obtain rfl : NE = [] := List.eq_nil_of_length_eq_zero (by omega)
      rw [search_nil] at hk
      cases hk
      omega
  rw [Nat.add_assoc]
  exact h.ne_zero hlt

theorem CStr.strtokNeLen_eq (h : CStr mem s l) (hn : MemAt mem ne NE) (cfg : Build)
    (hi : i < l.length) :
    strtokNeLen cfg mem (s + l.length) ne NE.length (s + i)
      = .ok (some (s + i), s + tokenEnd NE l i) := by
  have hfind := memmem_spec cfg (h.bytes.drop (Nat.le_of_lt hi)) hn
  rw [List.length_drop] at hfind
  simp only [strtokNeLen, if_neg (h.ne_zero hi), strstrnulLen, memmemnul,
    show s + l.length - (s + i) = l.length - i by omega, hfind, bind, Except.bind, tokenEnd]
  cases hk : search NE (l.drop i) with
  | none =>
      simp only [Option.map_none, show s + i + (l.length - i) = s + l.length by omega, h.nul,
        ne_eq, not_true_eq_false, if_false]
  | some k =>
      simp only [Option.map_some, if_pos (h.found_ne_zero hi hk)]
      rw [Nat.add_assoc, Nat.add_assoc, Nat.add_assoc]

/-- A string of one byte, or of more. -/
theorem CStr.strstrnul_eq (h : CStr mem s l) (hn : CStr mem ne NE) (hne : NE ≠ [])
    (cfg : ChrnulBuild) : strstrnul cfg mem s ne
      = .ok (match search NE l with
        | some k => s + k
        | none => s + l.length) := by
  rw [strstrnul]
  match NE, hn, hne with
  | [c], hn, _ =>
      have hnul : mem (ne + 1) = 0 := hn.nul
      rw [if_neg fun hc => hc.2 hnul, hn.head, h.strchrnul_eq cfg, search_singleton]
      by_cases hend : l.idxOf c = l.length
      · simp only [if_pos hend]
        rw [hend]
      · simp only [if_neg hend]
  | c :: d :: NE, hn, _ =>
      have hfind := @libcStrstr_spec id mem s ne l (c :: d :: NE) h hn
      rw [if_pos ⟨hn.head ▸ hn.head_ne, hn.tail.head ▸ hn.tail.head_ne⟩, hfind, List.map_id,
        List.map_id, h.strlen_eq]
      cases search (c :: d :: NE) l with
      | none => rfl
      | some k => rfl

theorem CStr.strtokNe_eq (h : CStr mem s l) (hn : CStr mem ne NE) (hne : NE ≠ [])
    (cfg : ChrnulBuild) (hi : i < l.length) :
    strtokNe cfg mem ne (s + i) = .ok (some (s + i), s + tokenEnd NE l i) := by
  have hfind := (h.drop (Nat.le_of_lt hi)).strstrnul_eq hn hne cfg
  rw [List.length_drop] at hfind
  simp only [strtokNe, if_neg (h.ne_zero hi), hfind, hn.strlen_eq, bind, Except.bind, tokenEnd]
  cases hk : search NE (l.drop i) with
  | none =>
      simp only [show s + i + (l.length - i) = s + l.length by omega, h.nul, ne_eq,
        not_true_eq_false, if_false]
  | some k =>
      simp only [if_pos (h.found_ne_zero hi hk)]
      rw [Nat.add_assoc, Nat.add_assoc, Nat.add_assoc]

end Call

/-! ## The loops -/

/-- Each pair starts where the one before ends, from `s` to `e`, and none is
empty. -/
def Tiles (e : Nat) : Nat → List (Nat × Nat) → Prop
  | s, [] => s = e
  | s, (tok, save) :: pairs => tok = s ∧ tok < save ∧ Tiles e save pairs

theorem Tiles.le {e : Nat} : ∀ {s : Nat} {pairs : List (Nat × Nat)}, Tiles e s pairs → s ≤ e
  | _, [], h => Nat.le_of_eq h
  | _, _ :: _, h => by
      have := h.2.2.le
      have := h.2.1
      have := h.1
      omega

/-- The slices of a tiling put together are the text. -/
theorem Tiles.flatten {e : Nat} (mem : Mem) : ∀ {s : Nat} {pairs : List (Nat × Nat)},
    Tiles e s pairs →
      (pairs.map fun (tok, save) => window mem tok (save - tok)).flatten = window mem s (e - s)
  | s, [], h => by
      have hs : s = e := h
      rw [hs, Nat.sub_self]
      rfl
  | s, (tok, save) :: pairs, h => by
      obtain ⟨rfl, hlt, hrest⟩ := h
      have hle := hrest.le
      rw [List.map_cons, List.flatten_cons, hrest.flatten mem]
      simp only
      rw [show e - tok = (save - tok) + (e - save) by omega, window_add,
        show tok + (save - tok) = save by omega]

section Loop

variable {mem : Mem} {s ne : Nat} {l NE : Bytes}

/-- A position of the text. -/
def InText (s : Nat) (l : Bytes) (p : Nat) : Prop := ∃ i ≤ l.length, p = s + i

/-- Every call hands out the token up to `f`, further on, until the terminator. -/
structure Strtoks (s : Nat) (l : Bytes) (f : Nat → Nat) (strtok : Nat → Run (Option Nat × Nat)) :
    Prop where
  ended : tokenLoop strtok (s + l.length) = .ok none
  token : ∀ i < l.length, tokenLoop strtok (s + i) = .ok (some ((s + i, s + f i), s + f i))

/-- The two variants at one place. -/
theorem CStr.strtoks (h : CStr mem s l) (hn : CStr mem ne NE) (cfg : ChrnulBuild) :
    Strtoks s l (tokenEnd NE l) (strtokNeLen cfg.toBuild mem (s + l.length) ne NE.length) ∧
      (NE ≠ [] → Strtoks s l (tokenEnd NE l) (strtokNe cfg mem ne)) := by
  refine ⟨⟨?_, fun i hi => ?_⟩, fun hne => ⟨?_, fun i hi => ?_⟩⟩
  · simp only [tokenLoop, strtokNeLen, if_pos h.nul]
    rfl
  · rw [tokenLoop, h.strtokNeLen_eq hn.bytes cfg.toBuild hi]
    rfl
  · simp only [tokenLoop, strtokNe, if_pos h.nul]
    rfl
  · rw [tokenLoop, h.strtokNe_eq hn hne cfg hi]
    rfl

variable {f : Nat → Nat} {strtok strtok' : Nat → Run (Option Nat × Nat)}

/-- At the terminator nothing is left; before it a token is handed out. -/
theorem Strtoks.cases (h : Strtoks s l f strtok) {p : Nat} (hp : InText s l p) :
    (p = s + l.length ∧ tokenLoop strtok p = .ok none) ∨ ∃ i < l.length, p = s + i ∧
      tokenLoop strtok p = .ok (some ((p, s + f i), s + f i)) := by
  obtain ⟨i, hi, rfl⟩ := hp
  rcases Nat.lt_or_eq_of_le hi with hlt | rfl
  · exact .inr ⟨i, hlt, rfl, h.token i hlt⟩
  · exact .inl ⟨rfl, h.ended⟩

variable (hgt : ∀ i < l.length, i < f i) (hle : ∀ i < l.length, f i ≤ l.length)

include hle in
/-- Where a call leads is in the text again. -/
theorem Strtoks.stays (h : Strtoks s l f strtok) (p : Nat) (v : Nat × Nat) (q : Nat)
    (hp : InText s l p) (hc : tokenLoop strtok p = .ok (some (v, q))) : InText s l q := by
  rcases h.cases hp with ⟨-, hnone⟩ | ⟨i, hi, -, hmore⟩
  · cases hnone.symm.trans hc
  · cases hmore.symm.trans hc
    exact ⟨f i, hle i hi, rfl⟩

include hgt hle in
/-- The distance to the terminator decreases with every token. -/
theorem Strtoks.ends (h : Strtoks s l f strtok) :
    ∃ pairs, Yields (tokenLoop strtok) s pairs := by
  have hs : InText s l s := ⟨0, Nat.zero_le _, rfl⟩
  refine exists_yields (fun p => s + l.length - p) (fun p hp => ?_) hs
  rcases h.cases hp with ⟨-, hnone⟩ | ⟨i, hi, rfl, hmore⟩
  · exact .inl hnone
  · have := hgt i hi
    have := hle i hi
    exact .inr ⟨_, _, hmore, ⟨f i, hle i hi, rfl⟩, by omega⟩

include hgt hle in
theorem tiles_of_yields (h : Strtoks s l f strtok) {p : Nat} {pairs : List (Nat × Nat)}
    (hy : Yields (tokenLoop strtok) p pairs) (hp : InText s l p) :
    Tiles (s + l.length) p pairs := by
  induction hy with
  | done hc =>
      rcases h.cases hp with ⟨rfl, -⟩ | ⟨i, hi, -, hmore⟩
      · rfl
      · cases hc.symm.trans hmore
  | more hc _ ih =>
      rcases h.cases hp with ⟨-, hnone⟩ | ⟨i, hi, rfl, hmore⟩
      · cases hc.symm.trans hnone
      · cases hc.symm.trans hmore
        exact ⟨rfl, Nat.add_lt_add_left (hgt i hi) s, ih ⟨f i, hle i hi, rfl⟩⟩

/-- Two loops whose calls lead to the same places. -/
theorem Strtoks.agree (h : Strtoks s l f strtok) (h' : Strtoks s l f strtok') (p : Nat)
    (hp : InText s l p) : tokenLoop strtok p = tokenLoop strtok' p := by
  obtain ⟨i, hi, rfl⟩ := hp
  rcases Nat.lt_or_eq_of_le hi with hlt | rfl
  · rw [h.token i hlt, h'.token i hlt]
  · rw [h.ended, h'.ended]

end Loop

/-- Both loops end, hand out the same pairs, and these cut the text into
slices that put together are the text. -/
def StrtokRight (cfg : ChrnulBuild) (mem : Mem) (s ne : Nat) (l NE : Bytes) : Prop :=
  ∃ pairs, Yields (tokenLoop (strtokNe cfg mem ne)) s pairs ∧
    Yields (tokenLoop (strtokNeLen cfg.toBuild mem (s + l.length) ne NE.length)) s pairs ∧
    Tiles (s + l.length) s pairs ∧
    (pairs.map fun (tok, save) => window mem tok (save - tok)).flatten = l

/-- Exactly when the delimiter is not empty, or there is nothing to cut. -/
theorem strtok_right_iff (cfg : ChrnulBuild) {mem : Mem} {s ne : Nat} {l NE : Bytes}
    (h : CStr mem s l) (hn : CStr mem ne NE) :
    StrtokRight cfg mem s ne l NE ↔ NE ≠ [] ∨ l = [] := by
  obtain ⟨hlen, hstr⟩ := h.strtoks hn cfg
  constructor
  · rintro ⟨pairs, -, hy, -⟩
    by_contra hno
    obtain ⟨hNE, hl⟩ := not_or.mp hno
    have hnil : NE = [] := Classical.not_not.mp hNE
    have hpos := List.length_pos_of_ne_nil hl
    -- the empty delimiter is found at once, and the save pointer stays
    have hend : tokenEnd NE l 0 = 0 := by
      rw [tokenEnd, hnil, search_nil]
      rfl
    have hcall := hlen.token 0 hpos
    rw [hend, Nat.add_zero] at hcall
    exact not_yields_of_stuck hcall pairs hy
  · intro hcond
    by_cases hl : l = []
    · subst hl
      have hnul : mem s = 0 := h.nul
      refine ⟨[], .done ?_, .done hlen.ended, rfl, rfl⟩
      simp only [tokenLoop, strtokNe, if_pos hnul]
      rfl
    · have hne := hcond.resolve_right hl
      have hgt : ∀ i < l.length, i < tokenEnd NE l i := fun i hi => tokenEnd_gt hne hi
      have hle : ∀ i < l.length, tokenEnd NE l i ≤ l.length := fun i hi =>
        tokenEnd_le (Nat.le_of_lt hi)
      have hs : InText s l s := ⟨0, Nat.zero_le _, rfl⟩
      obtain ⟨pairs, hy⟩ := hlen.ends hgt hle
      have htiles := tiles_of_yields hgt hle hlen hy hs
      have hsame := hy.congr (hlen.agree (hstr hne)) (hlen.stays hle) hs
      refine ⟨pairs, hsame, hy, htiles, ?_⟩
      rw [htiles.flatten mem, Nat.add_sub_cancel_left, window_of_memAt h.bytes]

theorem cstr_commas : CStr (memOf [97, 44, 98, 44, 0, 44, 0]) 0 [97, 44, 98, 44] :=
  ⟨by decide, by decide, by decide, by decide⟩

/-- "a,b," cut at the commas. -/
theorem strtok_right_iff_commas :
    StrtokRight ⟨sse2Build, true, false⟩ (memOf [97, 44, 98, 44, 0, 44, 0]) 0 5
      [97, 44, 98, 44] [44] ↔ ([44] : Bytes) ≠ [] ∨ ([97, 44, 98, 44] : Bytes) = [] :=
  strtok_right_iff ⟨sse2Build, true, false⟩ cstr_commas
    ⟨by decide, by decide, by decide, by decide⟩

/-- "a,b," with the empty delimiter: the first call leaves the save pointer
where it is. -/
theorem not_strtok_right :
    ¬∀ (cfg : ChrnulBuild) (mem : Mem) (s ne : Nat) (l NE : Bytes), CStr mem s l →
      CStr mem ne NE → StrtokRight cfg mem s ne l NE := by
  intro hall
  have hempty : CStr (memOf [97, 44, 98, 44, 0, 44, 0]) 4 [] :=
    ⟨by decide, by decide, by decide, by decide⟩
  obtain ⟨pairs, -, hy, -⟩ := hall ⟨sse2Build, true, false⟩ _ 0 4 _ _ cstr_commas hempty
  have hcall : tokenLoop (strtokNeLen sse2Build (memOf [97, 44, 98, 44, 0, 44, 0]) 4 4 0) 0
      = .ok (some ((0, 0), 0)) := rfl
  exact not_yields_of_stuck hcall pairs hy

end Jstr
