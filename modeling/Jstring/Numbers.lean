import Jstring.Thousep
import Jstring.Tokens

/-!
# Lists of numbers as text

A list of numbers written into a string, one call of `include/itoa.h` and a
`jstr_pushback` of the delimiter for each, and read again: `jstr_rmallchr_len`
of `include/replace.h` takes out the thousands separators, `jstr_strtok` cuts
the string at the delimiters, and the decoder of the type reads every token.

- `toa_spec`: one call, where its bound on the digits is enough;
- `toaText_filter`: without its separators a text is the plain one;
- `Listed`: the calls that write;
- `numbers_roundtrip`: the loop of the reader ends, has a token for every
  number, and reads the number back exactly if it is not negative.
-/

namespace Jstr

open Words Iterators Numeral

/-- `jstr_rmnchr_len`. -/
def rmnchrLen (env : Mem) (j : JstrTy) (c : UInt8) (n : Nat) : Run (Nat × JstrTy) :=
  rmnchrLenFrom env j 0 c n

/-- `jstr_rmallchr_len`. -/
def rmallchrLen (env : Mem) (j : JstrTy) (c : UInt8) : Run (Nat × JstrTy) :=
  rmnchrLen env j c sizeMax

/-! ## One number -/

/-- A byte no number is written with. -/
def Marks (c : UInt8) : Prop := c ≠ 0 ∧ c ≠ 45 ∧ isdigit c = false

section Number

variable {ty : IntTy} {v : Int} {sep delim : UInt8}

/-- The rule for the calls that append a number. -/
theorem toa_spec {al : Alloc} {j : JstrTy} {l : Bytes} {base : Nat} (sep : Option UInt8)
    (hc : Content j l) (hv : ty.Has v) (hb : 2 ≤ base) (hb' : base ≤ 36)
    (hfull : ¬FullNegative ty base v)
    (hfit : l.length + countudigits ty.bits sep.isSome base + 1 ≤ sizeMax) :
    Safe j (fun j' => Str j' (l ++ toaText sep base v)) (toa al j v base ty sep) := by
  obtain ⟨f, hrun, hf⟩ := @toa_eq base ty sep v al j hv hb hb'
  have hlen := @length_toaText_le ty sep base v hv hb hb' hfull
  rw [hrun]
  refine growBy_spec hc hfit fun b hroom hat => ?_
  have hin : b.InRange (b.addr + l.length) ((toaText sep base v).length + 1) :=
    ⟨Nat.le_add_right _ _, by omega⟩
  refine ⟨_, ?_, stores_back hat (m := toaText sep base v) (by omega)⟩
  rw [hf b l.length (by omega), writtenAt, if_pos hin, List.length_append, Nat.add_assoc]

theorem not_fullNegative_ten (hv : ty.Has v) : ¬FullNegative ty 10 v := by
  rintro ⟨hneg, hle⟩
  have hlt := natAbs_le_of_neg hv hneg
  have hpow : 2 ^ (ty.bits - 1) < 10 ^ (ty.bits / digitBits ty.bits 10) := by
    cases ty <;> decide
  omega

theorem countudigits_ten_le (ty : IntTy) (isThousep : Bool) :
    countudigits ty.bits isThousep 10 ≤ 29 := by
  cases ty <;> cases isThousep <;> decide

theorem isdigit_itoaDigit {d : Nat} (h : d < 10) : isdigit (itoaDigit d) = true := by
  have hall : ∀ d < 10, isdigit (itoaDigit d) = true := by decide
  exact hall d h

/-- The digits of a text and its sign are no marks. -/
theorem not_mem_toaText {c : UInt8} (hc : c ≠ 45 ∧ isdigit c = false) (v : Int) :
    c ∉ toaText none 10 v := by
  obtain ⟨ds, hds, hlt, -⟩ := numeral_digits v.natAbs
  have hdig : c ∉ numeral 10 v.natAbs := by
    rw [hds, List.mem_map]
    rintro ⟨d, hd, rfl⟩
    have := isdigit_itoaDigit (hlt d hd)
    rw [hc.2] at this
    cases this
  rw [toaText, signed]
  split
  · exact List.not_mem_cons_of_ne_of_not_mem hc.1 hdig
  · exact hdig

theorem toaText_ne_nil (v : Int) : toaText none 10 v ≠ [] := by
  have hlen := length_toaText none 10 v
  have hpos := List.length_pos_of_ne_nil (lsd_ne_nil 10 v.natAbs)
  intro h
  rw [h, List.length_nil] at hlen
  omega

/-- Without its separators a text is the plain one. -/
theorem toaText_filter (hsep : Marks sep) (v : Int) :
    (toaText (some sep) 10 v).filter (· ≠ sep) = toaText none 10 v := by
  have hnum : sep ∉ numeral 10 v.natAbs := by
    have h := not_mem_toaText hsep.2 v.natAbs
    rwa [toaText, signed, if_neg (by omega), Int.natAbs_natCast] at h
  have hgroups : sepNumeral sep 10 v.natAbs = grouped sep (numeral 10 v.natAbs) :=
    (sepNumeral_eq_iff (by decide) _).mpr fun h => by
      rw [ShortcutSkips] at h
      omega
  have hmag : (sepNumeral sep 10 v.natAbs).filter (· ≠ sep) = numeral 10 v.natAbs := by
    rw [hgroups, filter_grouped sep _ hnum]
  rw [toaText, toaText, signed, signed]
  split
  · rw [List.filter_cons, if_pos (decide_eq_true hsep.2.1.symm)]
    exact congrArg _ hmag
  · exact hmag

end Number

/-! ## The list -/

/-- The numbers, each with the delimiter behind it. -/
def listText (sep : Option UInt8) (delim : UInt8) (vs : List Int) : Bytes :=
  vs.flatMap fun v => toaText sep 10 v ++ [delim]

/-- `jstr_itoa`, or the call of the type with separators or without, and
`jstr_pushback` for one number after the other. -/
inductive Listed (al : Alloc) (ty : IntTy) (sep : Option UInt8) (delim : UInt8) :
    JstrTy → List Int → JstrTy → Prop where
  | nil {j : JstrTy} : Listed al ty sep delim j [] j
  | cons {j j₁ j₂ j' : JstrTy} {v : Int} {vs : List Int}
      (hnum : toa al j v 10 ty sep = .ok (.succ, j₁))
      (hdelim : pushback al j₁ delim = .ok (.succ, j₂))
      (hrest : Listed al ty sep delim j₂ vs j') : Listed al ty sep delim j (v :: vs) j'

section List

variable {ty : IntTy} {sep delim : UInt8} {vs : List Int}

theorem length_listText_le (hvs : ∀ v ∈ vs, ty.Has v) (sep : Option UInt8) :
    (listText sep delim vs).length ≤ 30 * vs.length := by
  induction vs with
  | nil => exact Nat.le_refl _
  | cons v vs ih =>
      have hv := hvs v List.mem_cons_self
      have htext := @length_toaText_le ty sep 10 v hv (by decide) (by decide)
        (not_fullNegative_ten hv)
      have hcount := countudigits_ten_le ty sep.isSome
      have hrest := ih fun w hw => hvs w (List.mem_cons_of_mem v hw)
      rw [listText] at hrest ⊢
      rw [List.flatMap_cons, List.length_append, List.length_append, List.length_singleton,
        List.length_cons]
      omega

/-- What the calls write. -/
theorem Listed.str {al : Alloc} {sep : Option UInt8} {j j' : JstrTy}
    (h : Listed al ty sep delim j vs j') : ∀ {l : Bytes}, Content j l → (∀ v ∈ vs, ty.Has v) →
      l.length + 32 * vs.length + 32 ≤ sizeMax →
      Content j' (l ++ listText sep delim vs) ∧ (vs ≠ [] → Str j' (l ++ listText sep delim vs)) := by
  induction h with
  | nil =>
      intro l hc _ _
      rw [listText, List.flatMap_nil, List.append_nil]
      exact ⟨hc, fun h => absurd rfl h⟩
  | @cons j j₁ j₂ j' v vs hnum hdelim hrest ih =>
      intro l hc hvs hfit
      have hv := hvs v List.mem_cons_self
      have hcount := countudigits_ten_le ty sep.isSome
      have htext := @length_toaText_le ty sep 10 v hv (by decide) (by decide)
        (not_fullNegative_ten hv)
      rw [List.length_cons] at hfit
      have h₁ := (toa_spec sep hc hv (by decide) (by decide) (not_fullNegative_ten hv)
        (by omega)).outcomes.2.1 _ hnum
      have hlen : (l ++ toaText sep 10 v).length = l.length + (toaText sep 10 v).length :=
        List.length_append
      have h₂ := (pushback_spec delim h₁.content (by omega)).outcomes.2.1 _ hdelim
      obtain ⟨hcont, hstr⟩ := ih h₂.content (fun w hw => hvs w (List.mem_cons_of_mem v hw)) (by
        rw [List.length_append, hlen, List.length_singleton]
        omega)
      rw [listText, List.flatMap_cons, ← List.append_assoc, ← List.append_assoc]
      refine ⟨hcont, fun _ => ?_⟩
      cases hrest with
      | nil =>
          rw [List.flatMap_nil, List.append_nil]
          exact h₂
      | cons _ _ _ => exact hstr (List.cons_ne_nil _ _)

theorem listText_filter (hsep : Marks sep) (hne : delim ≠ sep) (vs : List Int) :
    (listText (some sep) delim vs).filter (· ≠ sep) = listText none delim vs := by
  induction vs with
  | nil => rfl
  | cons v vs ih =>
      rw [listText] at ih ⊢
      rw [List.flatMap_cons, List.filter_append, ih, List.filter_append, toaText_filter hsep,
        List.filter_cons, if_pos (decide_eq_true hne)]
      rfl

theorem not_mem_listText (hdelim : Marks delim) (vs : List Int) :
    0 ∉ listText none delim vs := by
  rw [listText, List.mem_flatMap]
  rintro ⟨v, -, hv⟩
  rcases List.mem_append.mp hv with hv | hv
  · exact not_mem_toaText (by decide) v hv
  · exact hdelim.1 (List.mem_singleton.mp hv).symm

/-- The tokens are the numbers. -/
theorem tokens_listText (hdelim : Marks delim) (vs : List Int) :
    tokens [delim] (listText none delim vs) = vs.map (toaText none 10) := by
  induction vs with
  | nil => rfl
  | cons v vs ih =>
      rw [listText] at ih ⊢
      have hno : ∀ x ∈ toaText none 10 v, x ∉ [delim] := by
        intro x hx hd
        rw [List.mem_singleton.mp hd] at hx
        exact not_mem_toaText hdelim.2 v hx
      rw [List.flatMap_cons, List.append_assoc,
        tokens_word hno (toaText_ne_nil v) (fun x hx => by
          rw [List.singleton_append, List.head?_cons] at hx
          cases hx
          exact List.mem_singleton_self _),
        List.singleton_append, tokens_delim (List.mem_singleton_self _), ih, List.map_cons]

/-- Removing all bytes of a kind is filtering. -/
theorem removeN_eq_filter {c : UInt8} : ∀ {n : Nat} {l : Bytes}, l.length ≤ n →
    removeN c n l = l.filter (· ≠ c)
  | n, [], _ => by
      cases n <;> rfl
  | n + 1, x :: l, h => by
      rw [List.length_cons] at h
      rw [removeN, List.filter_cons]
      by_cases hx : x = c
      · rw [if_pos hx, if_neg (by simpa using hx), removeN_eq_filter (by omega)]
      · rw [if_neg hx, if_pos (by simpa using hx), removeN_eq_filter (by omega)]

theorem rmallchrLen_spec {env : Mem} {j : JstrTy} {s : Bytes} (hs : Str j s) (h0 : 0 ∉ s)
    (hfit : s.length ≤ sizeMax) (c : UInt8) :
    ∃ n j', rmallchrLen env j c = .ok (n, j') ∧ Str j' (s.filter (· ≠ c)) ∧
      n + j'.size = j.size := by
  obtain ⟨j', hrun, hj'⟩ := @rmnchrLenFrom_spec env j s hs h0 0 c sizeMax
  obtain ⟨heq, hlen⟩ := replaceN_singleton c sizeMax s
  rw [List.take_zero, List.nil_append, List.drop_zero, heq, removeN_eq_filter hfit] at hj'
  rw [removeN_eq_filter hfit] at hlen
  refine ⟨_, j', hrun, hj', ?_⟩
  rw [List.drop_zero, hj'.content.size, hs.content.size]
  exact hlen

/-- What memory has inside a text of the block, the block has there. -/
theorem at_window {env : Mem} {b : Blk} {p q n : Nat} {s : Bytes} (hat : b.At p s) (hq : p ≤ q)
    (hn : q + n ≤ p + s.length) : b.At q (window (b.over env) q n) := by
  obtain ⟨k, rfl⟩ := Nat.exists_eq_add_of_le hq
  have hpart := (hat.drop (n := k) (by omega)).take n
  have hlen : ((s.drop k).take n).length = n := by
    rw [List.length_take, List.length_drop]
    omega
  have hwin := window_of_memAt (@memAt_over env _ _ _ hpart)
  rw [hlen] at hwin
  rwa [hwin]

/-- The numbers are written with separators and a delimiter behind each. When the
separators are removed, the loop over the tokens ends, has a token for every number, and the
decoder reads the number back from it, exactly if it is not negative. -/
theorem numbers_roundtrip {al : Alloc} {env : Mem} {j j' : JstrTy} (hc : Content j [])
    (hrun : Listed al ty (some sep) delim j vs j') (hne : vs ≠ []) (hvs : ∀ v ∈ vs, ty.Has v)
    (hfit : 32 * vs.length + 32 ≤ sizeMax) (hsep : Marks sep) (hdelim : Marks delim)
    (hdist : delim ≠ sep) :
    ∃ n j'' b, rmallchrLen env j' sep = .ok (n, j'') ∧ n + j''.size = j'.size ∧
      Str j'' (listText none delim vs) ∧ j''.data = some b ∧
      (b.addr + b.size ≤ sizeMax → ∃ pairs,
        Yields (tokenLoop (strtok (b.over env) [delim])) b.addr pairs ∧
        List.Forall₂ (fun pair v => ∃ r, ato b pair.1 (pair.2 - pair.1) ty = .ok r ∧
          (r = some v ↔ 0 ≤ v)) pairs vs) := by
  have hstr := (hrun.str hc hvs (by rw [List.length_nil]; omega)).2 hne
  rw [List.nil_append] at hstr
  have hlen := @length_listText_le ty delim vs hvs (some sep)
  have h0 : 0 ∉ listText (some sep) delim vs := by
    intro h
    have hmem : 0 ∈ (listText (some sep) delim vs).filter (· ≠ sep) :=
      List.mem_filter.mpr ⟨h, decide_eq_true hsep.1.symm⟩
    rw [listText_filter hsep hdist] at hmem
    exact not_mem_listText hdelim vs hmem
  obtain ⟨n, j'', hrm, hj'', hn⟩ := @rmallchrLen_spec env j' _ hstr h0 (by omega) sep
  rw [listText_filter hsep hdist] at hj''
  obtain ⟨b, hd, hcap, hsize, hat⟩ := id hj''
  refine ⟨n, j'', b, hrm, hn, hj'', hd, fun haddr => ?_⟩
  have hin := hat.inRange.2
  rw [List.length_append, List.length_singleton] at hin
  have hcstr : CStr (b.over env) b.addr (listText none delim vs) :=
    cstr_over hat (not_mem_listText hdelim vs) (by omega)
  obtain ⟨pairs, hy, hcuts⟩ := hcstr.strtok_yields [delim] _ rfl
  have heq := hcuts.tokens_eq
  rw [Nat.add_sub_cancel_left, window_of_memAt hcstr.bytes, tokens_listText hdelim] at heq
  refine ⟨pairs, hy, List.forall₂_iff_get.mpr ⟨by simpa using congrArg List.length heq,
    fun i h₁ h₂ => ?_⟩⟩
  have hi := congrArg (·[i]?) heq
  simp only [List.getElem?_map, List.getElem?_eq_getElem h₁, List.getElem?_eq_getElem h₂,
    Option.map_some, Option.some.injEq] at hi
  obtain ⟨hle, hlt, hend⟩ := hcuts.inside _ (List.getElem_mem h₁)
  have htok := @at_window env b _ _ (pairs[i].2 - pairs[i].1) _ hat.left hle (by omega)
  rw [hi] at htok
  have hlen := congrArg List.length hi
  rw [length_window] at hlen
  rw [List.get_eq_getElem, List.get_eq_getElem, hlen]
  exact ato_text (hvs _ (List.getElem_mem h₂)) htok

/-- "1,234" and "-5" on lines of their own. -/
theorem numbers_roundtrip_lines : ∃ j' n j'' b,
    Listed (Alloc.filling 64 0) .int (some 44) 10 .init [1234, -5] j' ∧
    rmallchrLen (memOf []) j' 44 = .ok (n, j'') ∧ n + j''.size = j'.size ∧
      Str j'' (listText none 10 [1234, -5]) ∧ j''.data = some b ∧
      (b.addr + b.size ≤ sizeMax → ∃ pairs,
        Yields (tokenLoop (strtok (b.over (memOf [])) [10])) b.addr pairs ∧
        List.Forall₂ (fun pair v => ∃ r, ato b pair.1 (pair.2 - pair.1) .int = .ok r ∧
          (r = some v ↔ 0 ≤ v)) pairs [1234, -5]) := by
  have hrun : ∃ j', Listed (Alloc.filling 64 0) .int (some 44) 10 .init [1234, -5] j' :=
    ⟨_, .cons rfl rfl (.cons rfl rfl .nil)⟩
  have hvs : ∀ v ∈ [1234, -5], IntTy.int.Has v := by
    intro v hv
    rcases List.mem_pair.mp hv with rfl | rfl
    · exact ⟨by decide, by decide⟩
    · exact ⟨by decide, by decide⟩
  obtain ⟨j', hrun⟩ := hrun
  obtain ⟨n, j'', b, h⟩ := @numbers_roundtrip .int 44 10 [1234, -5] (Alloc.filling 64 0) (memOf [])
    .init j' (.inl ⟨rfl, rfl⟩) hrun (by decide) hvs (by decide) ⟨by decide, by decide, by decide⟩
    ⟨by decide, by decide, by decide⟩ (by decide)
  exact ⟨j', n, j'', b, hrun, h⟩

end List

end Jstr
