import Jstring.InsertAfterAll

/-!
# Back references in a replacement

The engine behind the `\\d` of `jstr_re_rplcn_backref_len_from_exec`
(`include/regex.h`): where the first and the last reference are, how long
the replacement gets, and the copying. All of them read the
replacement in pairs: a backslash and the byte behind it.

- `expand`: what a replacement stands for;
- `backrefcpy_spec`: that is what is written;
- `backrefstrlen_eq`: as many bytes are reserved, although only the
  part between the first and the last reference is measured;
- `backrefstrlen_right_iff`: nothing checks that the sum stays below
  `(size_t)-1`, and it is right exactly while it does.
-/

namespace Jstr

open Words

/-- `'\\'`. -/
def backslash : UInt8 := 92

/-- A `regmatch_t` with `rm_so >= 0`. -/
structure Regmatch where
  so : Nat
  eo : Nat
  deriving DecidableEq, Repr

/-- The `regmatch_t` array filled by a match: the match itself and the
groups. One whose `rm_so` is -1 did not participate. -/
structure Groups where
  whole : Regmatch
  group : Nat → Option Regmatch

/-- `rm[c]`. -/
def Groups.get (rm : Groups) (c : Nat) : Option Regmatch :=
  if c = 0 then some rm.whole else rm.group c

/-- `rm[c]`, unless `c >= nmatch || rm[c].rm_so < 0`. -/
def Groups.ref (rm : Groups) (nmatch c : Nat) : Option Regmatch :=
  if c ≥ nmatch then none else rm.get c

/-! ## The functions -/

/-- The loop of `jstr_internal_re_rplcbackreffirst`. From behind `last` the
length given to `memchr` wraps, and the search leaves the replacement. -/
def backreffirstLoop (env : Mem) (last : Nat) : Nat → Nat → Run (Option Nat)
  | 0, _ => .error .diverge
  | fuel + 1, p =>
    if p > last then .error .bounds
    else
      match memchr env p backslash (last - p) with
      | none => .ok none
      | some q =>
        if isdigit (env (q + 1)) then .ok (some q) else backreffirstLoop env last fuel (q + 2)

/-- `jstr_internal_re_rplcbackreffirst`. -/
def backreffirst (env : Mem) (backref backrefLen : Nat) : Run (Option Nat) :=
  if backrefLen < 2 then .ok none
  else backreffirstLoop env (backref + backrefLen - 1) backrefLen backref

/-- The loop of `jstr_internal_re_rplcbackreflast`. -/
def backreflastLoop (cfg : Build) (env : Mem) (s0 : Nat) : Nat → Nat → Run (Option Nat)
  | 0, _ => .error .diverge
  | fuel + 1, e =>
    if e ≤ s0 then .ok none
    else do
      match ← memrchr cfg env s0 backslash (e - s0) with
      | none => .ok none
      | some p =>
        if e - p ≥ 2 ∧ isdigit (env (p + 1)) then .ok (some (p + 2))
        else backreflastLoop cfg env s0 fuel p

/-- `jstr_internal_re_rplcbackreflast`. -/
def backreflast (cfg : Build) (env : Mem) (backref backrefLen : Nat) : Run (Option Nat) :=
  if backrefLen ≥ 4 then
    backreflastLoop cfg env (backref + 2) (backrefLen + 1) (backref + backrefLen)
  else .ok none

/-- `jstr_internal_re_rplcbackrefstrlen`; `sizeMax` is `(size_t)-1`. -/
def backrefstrlen (env : Mem) (rm : Groups) (nmatch rplcE : Nat) : Nat → Nat → Nat → Run Nat
  | 0, _, _ => .error .diverge
  | fuel + 1, rplc, rplcLen =>
    match memchr env rplc backslash (rplcE - rplc) with
    | none => .ok rplcLen
    | some rplc =>
      if rplc = rplcE - 1 then .ok sizeMax
      else
        let c := env (rplc + 1)
        if isdigit c then
          match rm.ref nmatch (c - 48).toNat with
          | none => backrefstrlen env rm nmatch rplcE fuel (rplc + 2) rplcLen
          | some r =>
            backrefstrlen env rm nmatch rplcE fuel (rplc + 2)
              (addSz rplcLen (subSz (r.eo - r.so) 2))
        else backrefstrlen env rm nmatch rplcE fuel (rplc + 2) rplcLen

/-- `jstr_internal_re_rplcbackrefcpy`. -/
def backrefcpy (env : Mem) (rm : Groups) (nmatch mtcSrc rplcE : Nat) :
    Nat → Blk → Nat → Nat → Run Blk
  | 0, _, _, _ => .error .diverge
  | fuel + 1, b, mtcDst, rplcO =>
    match memchr env rplcO backslash (rplcE - rplcO) with
    | none => b.write mtcDst (window env rplcO (rplcE - rplcO))
    | some rplc => do
      let (b, mtcDst) ← mempcpy b mtcDst (window env rplcO (rplc - rplcO))
      if rplc = rplcE - 1 then b.write mtcDst [backslash]
      else
        let c := env (rplc + 1)
        if isdigit c then
          match rm.ref nmatch (c - 48).toNat with
          | none => do
            let b ← b.write mtcDst [backslash]
            let b ← b.write (mtcDst + 1) [c - 48 + 48]
            backrefcpy env rm nmatch mtcSrc rplcE fuel b (mtcDst + 2) (rplc + 2)
          | some r => do
            let (b, mtcDst) ← mempmove b mtcDst (mtcSrc + r.so) (r.eo - r.so)
            backrefcpy env rm nmatch mtcSrc rplcE fuel b mtcDst (rplc + 2)
        else do
          let b ← b.write mtcDst [backslash]
          let b ← b.write (mtcDst + 1) [c]
          backrefcpy env rm nmatch mtcSrc rplcE fuel b (mtcDst + 2) (rplc + 2)

/-! ## What a replacement stands for -/

/-- The replacement with each reference to a group that `text` knows
replaced by its text. The other pairs stay. -/
def expand (text : Nat → Option Bytes) : Bytes → Bytes
  | [] => []
  | [c] => [c]
  | c :: d :: rest =>
    if c = backslash then
      if isdigit d then
        match text (d - 48).toNat with
        | some t => t ++ expand text rest
        | none => c :: d :: expand text rest
      else c :: d :: expand text rest
    else c :: expand text (d :: rest)

section Expand

variable {text : Nat → Option Bytes}

theorem expand_cons {c : UInt8} (hc : c ≠ backslash) (l : Bytes) :
    expand text (c :: l) = c :: expand text l := by
  cases l with
  | nil => rw [expand, expand]
  | cons d l => rw [expand, if_neg hc]

theorem expand_append_of_not_mem {x : Bytes} (hx : backslash ∉ x) (l : Bytes) :
    expand text (x ++ l) = x ++ expand text l := by
  induction x with
  | nil => rfl
  | cons c x ih =>
      rw [List.cons_append, expand_cons (fun h => hx (h ▸ List.mem_cons_self)),
        ih fun h => hx (List.mem_cons_of_mem _ h), List.cons_append]

/-- What a pair stands for. -/
def pair (text : Nat → Option Bytes) (d : UInt8) : Bytes :=
  if isdigit d then (text (d - 48).toNat).getD [backslash, d] else [backslash, d]

theorem expand_pair (d : UInt8) (l : Bytes) :
    expand text (backslash :: d :: l) = pair text d ++ expand text l := by
  rw [expand, if_pos rfl, pair]
  split
  · cases text (d - 48).toNat <;> rfl
  · rfl

/-- A replacement that does not end in a backslash is not read on into
what follows. -/
theorem expand_append (m : Bytes) : ∀ l : Bytes, l.getLast? ≠ some backslash →
    expand text (l ++ m) = expand text l ++ expand text m
  | [], _ => rfl
  | [c], h => by
      have hc : c ≠ backslash := fun hc => h (by rw [hc]; rfl)
      rw [List.singleton_append, expand_cons hc]
      rfl
  | c :: d :: l, h => by
      have hd : (d :: l).getLast? ≠ some backslash := by rwa [List.getLast?_cons_cons] at h
      have hl : l.getLast? ≠ some backslash := by
        cases l with
        | nil => simp
        | cons e l => rwa [List.getLast?_cons_cons] at hd
      by_cases hc : c = backslash
      · subst hc
        rw [List.cons_append, List.cons_append, expand_pair, expand_pair, expand_append m l hl,
          List.append_assoc]
      · rw [List.cons_append, expand_cons hc, expand_append m (d :: l) hd, expand_cons hc,
          List.cons_append]

/-- No backslash stands before a digit. -/
def NoRef (l : Bytes) : Prop :=
  ∀ i d, l[i]? = some backslash → l[i + 1]? = some d → isdigit d = false

theorem NoRef.drop {l : Bytes} (h : NoRef l) (k : Nat) : NoRef (l.drop k) := by
  intro i d h1 h2
  rw [List.getElem?_drop] at h1 h2
  exact h (k + i) d h1 h2

theorem expand_of_noRef : ∀ l : Bytes, NoRef l → expand text l = l
  | [], _ => rfl
  | [_], _ => rfl
  | c :: d :: l, h => by
      by_cases hc : c = backslash
      · subst hc
        rw [expand_pair, expand_of_noRef l (h.drop 2), pair, h 0 d rfl rfl]
        rfl
      · rw [expand_cons hc, expand_of_noRef (d :: l) (h.drop 1)]

end Expand

/-! ### References -/

/-- The references of a replacement read in pairs from its beginning, each
as the offset of its backslash; the first byte has offset `i`. -/
def refsFrom : Nat → Bytes → List Nat
  | _, [] => []
  | _, [_] => []
  | i, c :: d :: rest =>
    if c = backslash then
      if isdigit d then i :: refsFrom (i + 2) rest else refsFrom (i + 2) rest
    else refsFrom (i + 1) (d :: rest)

/-- The last two bytes are a pair. -/
def endsInPair : Bytes → Bool
  | [] => false
  | [_] => false
  | c :: d :: rest => if c = backslash then rest.isEmpty || endsInPair rest else endsInPair (d :: rest)

theorem refsFrom_cons {c : UInt8} (hc : c ≠ backslash) (i : Nat) (l : Bytes) :
    refsFrom i (c :: l) = refsFrom (i + 1) l := by
  cases l with
  | nil => rfl
  | cons d l => rw [refsFrom, if_neg hc]

theorem endsInPair_cons {c : UInt8} (hc : c ≠ backslash) (l : Bytes) :
    endsInPair (c :: l) = endsInPair l := by
  cases l with
  | nil => rfl
  | cons d l => rw [endsInPair, if_neg hc]

theorem refsFrom_append {x : Bytes} (hx : backslash ∉ x) (l : Bytes) : ∀ {i : Nat},
    refsFrom i (x ++ l) = refsFrom (i + x.length) l := by
  induction x with
  | nil => intro i; rfl
  | cons c x ih =>
      intro i
      rw [List.cons_append, refsFrom_cons (fun h => hx (h ▸ List.mem_cons_self)),
        ih fun h => hx (List.mem_cons_of_mem _ h), List.length_cons, Nat.add_assoc,
        Nat.add_comm 1]

theorem endsInPair_append {x : Bytes} (hx : backslash ∉ x) (l : Bytes) :
    endsInPair (x ++ l) = endsInPair l := by
  induction x with
  | nil => rfl
  | cons c x ih =>
      rw [List.cons_append, endsInPair_cons (fun h => hx (h ▸ List.mem_cons_self)),
        ih fun h => hx (List.mem_cons_of_mem _ h)]

theorem refsFrom_pair (i : Nat) (d : UInt8) (l : Bytes) :
    refsFrom i (backslash :: d :: l)
      = if isdigit d then i :: refsFrom (i + 2) l else refsFrom (i + 2) l := by
  rw [refsFrom, if_pos rfl]

theorem endsInPair_pair (d : UInt8) (l : Bytes) :
    endsInPair (backslash :: d :: l) = (l.isEmpty || endsInPair l) := by
  rw [endsInPair, if_pos rfl]

theorem refsFrom_shift : ∀ (l : Bytes) (i : Nat), refsFrom i l = (refsFrom 0 l).map (i + ·)
  | [], _ => rfl
  | [_], _ => rfl
  | c :: d :: l, i => by
      rw [refsFrom, refsFrom]
      have h1 := refsFrom_shift (d :: l)
      have h2 := refsFrom_shift l
      split
      · rw [h2 (i + 2), h2 (0 + 2)]
        split <;> simp [Nat.add_assoc]
      · rw [h1 (i + 1), h1 (0 + 1)]
        simp [Nat.add_assoc]

/-- At a reference there are a backslash and a digit. -/
theorem mem_refsFrom : ∀ {l : Bytes} {i j : Nat}, j ∈ refsFrom i l →
    i ≤ j ∧ l[j - i]? = some backslash ∧ ∃ d, l[j - i + 1]? = some d ∧ isdigit d = true
  | [], _, _, h => nomatch h
  | [_], _, _, h => nomatch h
  | c :: d :: l, i, j, h => by
      rw [refsFrom] at h
      have hskip : j ∈ refsFrom (i + 2) l → i ≤ j ∧ (c :: d :: l)[j - i]? = some backslash ∧
          ∃ e, (c :: d :: l)[j - i + 1]? = some e ∧ isdigit e = true := by
        intro hj
        obtain ⟨hle, hb, e, he, hdig⟩ := mem_refsFrom hj
        rw [show j - i = j - (i + 2) + 1 + 1 by omega]
        exact ⟨by omega, hb, e, he, hdig⟩
      by_cases hc : c = backslash
      · rw [if_pos hc] at h
        split at h
        · rename_i hdig
          rcases List.mem_cons.mp h with rfl | hj
          · rw [Nat.sub_self]
            exact ⟨Nat.le_refl _, by rw [hc]; rfl, d, rfl, hdig⟩
          · exact hskip hj
        · exact hskip h
      · rw [if_neg hc] at h
        obtain ⟨hle, hb, e, he, hdig⟩ := mem_refsFrom h
        rw [show j - i = j - (i + 1) + 1 by omega]
        exact ⟨by omega, hb, e, he, hdig⟩

/-- The first reference is before the others. -/
theorem head_le_of_mem_refsFrom : ∀ {l : Bytes} {i k j : Nat} {ks : List Nat},
    refsFrom i l = k :: ks → j ∈ k :: ks → k ≤ j
  | [], _, _, _, _, h, _ => nomatch h
  | [_], _, _, _, _, h, _ => nomatch h
  | c :: d :: l, i, k, j, ks, h, hj => by
      rw [refsFrom] at h
      split at h
      · split at h
        · cases h
          rcases List.mem_cons.mp hj with rfl | hj
          · exact Nat.le_refl _
          · exact le_trans (Nat.le_add_right _ 2) (mem_refsFrom hj).1
        · exact head_le_of_mem_refsFrom h hj
      · exact head_le_of_mem_refsFrom h hj

/-- Without a reference a replacement stands for itself. -/
theorem expand_of_refsFrom_nil (text : Nat → Option Bytes) : ∀ {l : Bytes} {i : Nat},
    refsFrom i l = [] → expand text l = l
  | [], _, _ => rfl
  | [_], _, _ => rfl
  | c :: d :: l, i, h => by
      rw [refsFrom] at h
      by_cases hc : c = backslash
      · subst hc
        rw [if_pos rfl] at h
        split at h
        · cases h
        · rename_i hdig
          rw [expand_pair, expand_of_refsFrom_nil text h, pair, if_neg hdig]
          rfl
      · rw [if_neg hc] at h
        rw [expand_cons hc, expand_of_refsFrom_nil text h]

/-- What is before the first reference stands for itself. -/
theorem expand_of_refsFrom_cons (text : Nat → Option Bytes) : ∀ {l : Bytes} {i k : Nat}
    {ks : List Nat}, refsFrom i l = k :: ks →
    ∃ u d m, l = u ++ backslash :: d :: m ∧ k = i + u.length ∧ isdigit d = true ∧
      expand text l = u ++ expand text (backslash :: d :: m)
  | [], _, _, _, h => nomatch h
  | [_], _, _, _, h => nomatch h
  | c :: d :: l, i, k, ks, h => by
      rw [refsFrom] at h
      by_cases hc : c = backslash
      · subst hc
        rw [if_pos rfl] at h
        split at h
        · rename_i hdig
          cases h
          exact ⟨[], d, l, rfl, rfl, hdig, rfl⟩
        · rename_i hdig
          obtain ⟨u, e, m, rfl, rfl, he, hexp⟩ := expand_of_refsFrom_cons text h
          refine ⟨backslash :: d :: u, e, m, rfl, by simp only [List.length_cons]; omega, he, ?_⟩
          rw [expand_pair, pair, if_neg hdig, hexp]
          rfl
      · rw [if_neg hc] at h
        obtain ⟨u, e, m, heq, rfl, he, hexp⟩ := expand_of_refsFrom_cons text h
        rw [heq] at hexp ⊢
        refine ⟨c :: u, e, m, rfl, by simp only [List.length_cons]; omega, he, ?_⟩
        rw [expand_cons hc, hexp]
        rfl

/-- The text of a group that may be referred to, the match having been
searched in `w`. -/
def Groups.text (rm : Groups) (nmatch : Nat) (w : Bytes) (c : Nat) : Option Bytes :=
  (rm.ref nmatch c).map fun r => (w.drop r.so).take (r.eo - r.so)

/-- The match and every group that took part lie in a window of `n`
bytes. -/
def Groups.Within (rm : Groups) (n : Nat) : Prop :=
  ∀ c r, rm.get c = some r → r.so ≤ r.eo ∧ r.eo ≤ n

theorem Groups.Within.ref {rm : Groups} {n nmatch c : Nat} {r : Regmatch} (h : rm.Within n)
    (hr : rm.ref nmatch c = some r) : r.so ≤ r.eo ∧ r.eo ≤ n := by
  rw [Groups.ref] at hr
  split at hr
  · cases hr
  · exact h c r hr

/-- A pair is a group that takes part in the match, or itself. -/
theorem Groups.Within.pair_cases {rm : Groups} {w : Bytes} (h : rm.Within w.length) (nmatch : Nat)
    (d : UInt8) :
    (∃ r, isdigit d = true ∧ rm.ref nmatch (d - 48).toNat = some r ∧ r.so ≤ r.eo ∧
      r.eo ≤ w.length ∧ pair (rm.text nmatch w) d = (w.drop r.so).take (r.eo - r.so) ∧
      (pair (rm.text nmatch w) d).length = r.eo - r.so) ∨
    ((isdigit d = true → rm.ref nmatch (d - 48).toNat = none) ∧
      pair (rm.text nmatch w) d = [backslash, d]) := by
  by_cases hdig : isdigit d = true
  · cases hr : rm.ref nmatch (d - 48).toNat with
    | none =>
        refine .inr ⟨fun _ => rfl, ?_⟩
        rw [pair, if_pos hdig, Groups.text, hr]
        rfl
    | some r =>
        obtain ⟨hle, hrw⟩ := h.ref hr
        have hpair : pair (rm.text nmatch w) d = (w.drop r.so).take (r.eo - r.so) := by
          rw [pair, if_pos hdig, Groups.text, hr]
          rfl
        refine .inl ⟨r, hdig, rfl, hle, hrw, hpair, ?_⟩
        rw [hpair, List.length_take, List.length_drop]
        omega
  · exact .inr ⟨fun hd => absurd hd hdig, by rw [pair, if_neg hdig]⟩

/-! ## The copying -/

section Read

variable {env : Mem} {p k : Nat} {l : Bytes}

/-- What `memchr` finds in a replacement: the bytes before the first
backslash, and the byte behind it unless that was the last one. -/
theorem memchr_backslash (h : MemAt env p l) :
    (memchr env p backslash l.length = none ∧ backslash ∉ l) ∨
      ∃ u, backslash ∉ u ∧ memchr env p backslash l.length = some (p + u.length) ∧
        window env p u.length = u ∧
        (l = u ++ [backslash] ∨ ∃ d rest, l = u ++ backslash :: d :: rest ∧
          env (p + u.length + 1) = d ∧ MemAt env (p + u.length + 2) rest) := by
  rw [memchr_eq_search h]
  cases hk : search [backslash] l with
  | none => exact .inl ⟨rfl, not_mem_of_search_none hk⟩
  | some k =>
      obtain ⟨hl, hlen⟩ := eq_append_of_search hk
      rw [List.append_assoc] at hl
      have hu := not_mem_take_of_search hk
      generalize l.take k = u at *
      generalize l.drop (k + [backslash].length) = rest at *
      subst hl hlen
      obtain ⟨h1, h2⟩ := memAt_append.mp h
      refine .inr ⟨u, hu, rfl, window_of_memAt h1, ?_⟩
      cases rest with
      | nil => exact .inl rfl
      | cons d rest =>
          have h3 := (memAt_append.mp h2).2
          rw [List.length_singleton] at h3
          refine .inr ⟨d, rest, rfl, memAt_head h3 rfl, ?_⟩
          exact (@memAt_append env _ [d] rest |>.mp h3).2

end Read

section Copy

variable {env : Mem} {rm : Groups} {nmatch mtcSrc rplcE : Nat} {w : Bytes}

/-- Two bytes stored behind what was written. -/
theorem write_two {b : Blk} {dst : Nat} {u : Bytes} (x y : UInt8) (hlo : b.addr ≤ dst)
    (hhi : dst + u.length + 2 ≤ b.addr + b.size) :
    ∃ b₁, Blk.write (b.put dst u) (dst + u.length) [x] = .ok b₁ ∧
      b₁.write (dst + u.length + 1) [y] = .ok (b.put dst (u ++ [x, y])) := by
  have h₁ := @Blk.write_put b dst u [x] ⟨hlo, by rw [List.length_singleton]; omega⟩
  have h₂ := @Blk.write_put b dst (u ++ [x]) [y]
    ⟨hlo, by rw [List.length_append, List.length_singleton, List.length_singleton]; omega⟩
  rw [List.length_append, List.length_singleton, List.append_assoc] at h₂
  exact ⟨_, h₁, h₂⟩

/-- The text of a group is copied behind what is written. -/
theorem mempmove_group {b : Blk} {dst so eo : Nat} {u : Bytes} (hw : b.At mtcSrc w)
    (hdst : mtcSrc + w.length ≤ dst ∨ dst + u.length ≤ mtcSrc) (hle : so ≤ eo ∧ eo ≤ w.length)
    (hin : b.InRange dst (u.length + (eo - so))) :
    mempmove (b.put dst u) (dst + u.length) (mtcSrc + so) (eo - so)
      = .ok (b.put dst (u ++ (w.drop so).take (eo - so)), dst + u.length + (eo - so)) := by
  have hlen : ((w.drop so).take (eo - so)).length = eo - so := by
    rw [List.length_take, List.length_drop]
    omega
  have hlo := hin.1
  have hhi := hin.2
  have hsrc := ((@Memory.Block.At.put_of_disjoint _ b dst _ u w hw hdst).drop
    (show so ≤ w.length by omega)).take (eo - so)
  have hmove := @mempmove_eq (b.put dst u) (dst + u.length) (mtcSrc + so) (eo - so) _ hsrc hlen
    ⟨by rw [Memory.Block.put_addr]; omega, by
      rw [Memory.Block.put_addr, Memory.Block.put_size]; omega⟩
  rwa [Memory.Block.put_append] at hmove

/-- One turn of the loop at a pair: what came before it and what it stands for
are stored. -/
theorem backrefcpy_pair (hrm : rm.Within w.length) (fuel : Nat) {b : Blk} {dst p : Nat}
    {l u : Bytes} {d : UInt8} (hsome : memchr env p backslash l.length = some (p + u.length))
    (hwin : window env p u.length = u) (hd : env (p + u.length + 1) = d)
    (he : rplcE = p + l.length) (hlen : u.length + 2 ≤ l.length) (hw : b.At mtcSrc w)
    (hdst : mtcSrc + w.length ≤ dst ∨ dst + u.length ≤ mtcSrc)
    (hin : b.InRange dst (u ++ pair (rm.text nmatch w) d).length) :
    backrefcpy env rm nmatch mtcSrc rplcE (fuel + 1) b dst p
      = backrefcpy env rm nmatch mtcSrc rplcE fuel (b.put dst (u ++ pair (rm.text nmatch w) d))
          (dst + (u ++ pair (rm.text nmatch w) d).length) (p + u.length + 2) := by
  have hlo := hin.1
  have hout := hin.2
  rw [List.length_append] at hout
  have hcpy := @mempcpy_eq b dst u ⟨hlo, by omega⟩
  rw [backrefcpy, show rplcE - p = l.length by omega, hsome]
  simp only [Nat.add_sub_cancel_left, hwin, hcpy, bind, Except.bind]
  rw [if_neg (by omega), hd]
  rcases hrm.pair_cases nmatch d with ⟨r, hdig, hr, hle, hrw, hpair, htext⟩ | ⟨hnone, hpair⟩
  · rw [if_pos hdig, List.length_append, htext]
    rw [htext] at hout
    have hmove := @mempmove_group mtcSrc w b dst r.so r.eo u hw hdst ⟨hle, hrw⟩ ⟨hlo, by omega⟩
    simp only [hr, hmove, hpair, Nat.add_assoc]
  · -- a pair that stands for itself
    rw [hpair, List.length_cons, List.length_singleton] at hout
    obtain ⟨b₁, hw₁, hw₂⟩ := @write_two b dst u backslash d hlo (by omega)
    rw [hpair, List.length_append, ← Nat.add_assoc]
    by_cases hdig : isdigit d = true
    · rw [if_pos hdig]
      simp only [hnone hdig, hw₁, UInt8.sub_add_cancel, hw₂]
      rfl
    · rw [if_neg hdig]
      simp only [hw₁, hw₂]
      rfl

theorem backrefcpy_spec (hrm : rm.Within w.length) : ∀ (fuel : Nat) {b : Blk} {dst p : Nat}
    {l : Bytes}, MemAt env p l → rplcE = p + l.length → l.length < fuel → b.At mtcSrc w →
    (mtcSrc + w.length ≤ dst ∨ dst + (expand (rm.text nmatch w) l).length ≤ mtcSrc) →
    b.InRange dst (expand (rm.text nmatch w) l).length →
    backrefcpy env rm nmatch mtcSrc rplcE fuel b dst p
      = .ok (b.put dst (expand (rm.text nmatch w) l))
  | 0, b, dst, p, l, _, _, hf, _, _, _ => absurd hf (Nat.not_lt_zero _)
  | fuel + 1, b, dst, p, l, hl, he, hf, hw, hdst, hin => by
      rcases memchr_backslash hl with ⟨hnone, hmem⟩ | ⟨u, hu, hsome, hwin, hl'⟩
      · have hexp : expand (rm.text nmatch w) l = l := by
          have := @expand_append_of_not_mem (rm.text nmatch w) l hmem []
          rwa [List.append_nil, expand, List.append_nil] at this
        rw [hexp] at hin ⊢
        rw [backrefcpy, show rplcE - p = l.length by omega, hnone]
        simp only [window_of_memAt hl]
        exact Blk.write_eq hin
      rcases hl' with rfl | ⟨d, rest, rfl, hd, hrest⟩
      · have hexp : expand (rm.text nmatch w) (u ++ [backslash]) = u ++ [backslash] :=
          expand_append_of_not_mem hu _
        have hlen : (u ++ [backslash]).length = u.length + 1 := by
          rw [List.length_append, List.length_singleton]
        rw [hexp] at hin ⊢
        have hcpy := @mempcpy_eq b dst u ⟨hin.1, by have := hin.2; omega⟩
        rw [backrefcpy, show rplcE - p = (u ++ [backslash]).length by omega, hsome]
        simp only [Nat.add_sub_cancel_left, hwin, hcpy, bind, Except.bind]
        rw [if_pos (by omega)]
        rw [List.length_append] at hin
        exact Blk.write_put hin
      · have hlen : (u ++ backslash :: d :: rest).length = u.length + 2 + rest.length := by
          simp only [List.length_append, List.length_cons]
          omega
        rw [expand_append_of_not_mem hu, expand_pair, ← List.append_assoc] at hin hdst ⊢
        obtain ⟨hlo, hhi⟩ := hin
        rw [List.length_append] at hhi hdst
        have hpre : u.length ≤ (u ++ pair (rm.text nmatch w) d).length := by
          rw [List.length_append]
          exact Nat.le_add_right _ _
        have hturn := @backrefcpy_pair env rm nmatch mtcSrc rplcE w hrm fuel b dst p _ u d hsome
          hwin hd he (by omega) hw (by omega) ⟨hlo, by omega⟩
        have hnext := @backrefcpy_spec hrm fuel (b.put dst (u ++ pair (rm.text nmatch w) d))
          (dst + (u ++ pair (rm.text nmatch w) d).length) _ rest hrest (by omega) (by omega)
          (hw.put_of_disjoint (by omega)) (by omega)
          ⟨by rw [Memory.Block.put_addr]; omega, by
            rw [Memory.Block.put_addr, Memory.Block.put_size]; omega⟩
        rwa [Memory.Block.put_append, ← hturn] at hnext

end Copy

/-! ## The length -/

section Length

variable {env : Mem} {rm : Groups} {nmatch : Nat} {w : Bytes}

theorem getLast_rest {u rest : Bytes} {c d : UInt8}
    (h : (u ++ c :: d :: rest).getLast? ≠ some backslash) : rest.getLast? ≠ some backslash := by
  rw [List.getLast?_append_of_ne_nil _ (List.cons_ne_nil _ _), List.getLast?_cons_cons] at h
  cases rest with
  | nil => simp
  | cons e rest => rwa [List.getLast?_cons_cons] at h

/-- Adding a difference that may be negative, in `size_t`. -/
theorem addSz_subSz_mod {x a c : Nat} (hc : c ≤ sizeMax) :
    (addSz x (subSz a c) + c) % 18446744073709551616 = (x + a) % 18446744073709551616 := by
  simp only [sizeMax] at hc
  rw [addSz, subSz]
  split <;> omega

/-- Each reference adds the length of its text less that of the
reference. -/
theorem backrefstrlen_spec (hrm : rm.Within w.length) {e : Nat} : ∀ (fuel : Nat) {p x : Nat}
    {l : Bytes}, MemAt env p l → e = p + l.length → l.length < fuel →
    l.getLast? ≠ some backslash → x ≤ sizeMax →
    ∃ y ≤ sizeMax, backrefstrlen env rm nmatch e fuel p x = .ok y ∧
      (y + l.length) % 18446744073709551616
        = (x + (expand (rm.text nmatch w) l).length) % 18446744073709551616
  | 0, p, x, l, _, _, hf, _, _ => absurd hf (Nat.not_lt_zero _)
  | fuel + 1, p, x, l, hl, he, hf, hlast, hx => by
      rw [backrefstrlen, show e - p = l.length by omega]
      rcases memchr_backslash hl with ⟨hnone, hmem⟩ | ⟨u, hu, hsome, -, rfl | ⟨d, rest, rfl, hd, hrest⟩⟩
      · have hexp := @expand_append_of_not_mem (rm.text nmatch w) l hmem []
        rw [List.append_nil, expand, List.append_nil] at hexp
        exact ⟨x, hx, by rw [hnone], by rw [hexp]⟩
      · exact absurd (by simp) hlast
      · rw [hsome]
        rw [expand_append_of_not_mem hu, expand_pair]
        simp only [List.length_append, List.length_cons] at he hf ⊢
        -- the length once the pair is accounted for
        have hnext : ∀ x' ≤ sizeMax, (x' + 2) % 18446744073709551616
              = (x + (pair (rm.text nmatch w) d).length) % 18446744073709551616 →
            ∃ y ≤ sizeMax, backrefstrlen env rm nmatch e fuel (p + u.length + 2) x' = .ok y ∧
              (y + (u.length + (rest.length + 1 + 1))) % 18446744073709551616
                = (x + (u.length + ((pair (rm.text nmatch w) d).length
                  + (expand (rm.text nmatch w) rest).length))) % 18446744073709551616 := by
          intro x' hx' hpair
          obtain ⟨y, hymax, hy, hlen⟩ := @backrefstrlen_spec hrm e fuel (p + u.length + 2) x' rest
            hrest (by omega) (by omega) (getLast_rest hlast) hx'
          exact ⟨y, hymax, hy, by omega⟩
        rw [if_neg (by omega), hd]
        rcases hrm.pair_cases nmatch d with ⟨r, hdig, hr, -, -, -, hlen⟩ | ⟨hnone, hpair⟩
        · rw [if_pos hdig, hr]
          refine hnext _ (Nat.le_of_lt_succ (Nat.mod_lt _ (by decide))) ?_
          rw [hlen]
          exact addSz_subSz_mod (by decide)
        · have hself := hnext x hx (by rw [hpair]; rfl)
          by_cases hdig : isdigit d = true
          · rw [if_pos hdig, hnone hdig]
            exact hself
          · rw [if_neg hdig]
            exact hself

/-! ## The first reference -/

/-- The bytes at the cursor, up to the first backslash found in the window
that ends before the last one. -/
theorem backreffirst_window {p : Nat} {l' : Bytes} {c : UInt8} (hl : MemAt env p (l' ++ [c])) :
    (memchr env p backslash l'.length = none ∧ backslash ∉ l') ∨
      ∃ u d m, backslash ∉ u ∧ memchr env p backslash l'.length = some (p + u.length) ∧
        l' ++ [c] = u ++ backslash :: d :: m ∧ env (p + u.length + 1) = d ∧
        MemAt env (p + u.length + 2) m := by
  obtain ⟨hl', hc⟩ := memAt_append.mp hl
  rcases memchr_backslash hl' with hnone | ⟨u, hu, hsome, -, rfl | ⟨d, rest, rfl, hd, hrest⟩⟩
  · exact .inl hnone
  · rw [List.length_append, List.length_singleton, ← Nat.add_assoc] at hc
    exact .inr ⟨u, c, [], hu, hsome, by simp, memAt_head hc rfl,
      fun i hi => absurd hi (Nat.not_lt_zero i)⟩
  · refine .inr ⟨u, d, rest ++ [c], hu, hsome, by simp, hd, memAt_append.mpr ⟨hrest, ?_⟩⟩
    simp only [List.length_append, List.length_cons] at hc
    rwa [show p + u.length + 2 + rest.length = p + (u.length + (rest.length + 1 + 1)) by omega]

/-- The scan finds the first reference. Where there is none, it leaves the
replacement when a pair ends where the replacement ends. -/
theorem backreffirstLoop_eq {last : Nat} : ∀ (fuel : Nat) {p : Nat} {l : Bytes}, MemAt env p l →
    last + 1 = p + l.length → l.length < 2 * fuel →
    backreffirstLoop env last fuel p
      = if refsFrom 0 l = [] ∧ (l = [] ∨ endsInPair l = true) then .error .bounds
        else .ok ((refsFrom 0 l).head?.map (p + ·))
  | 0, _, _, _, _, hf => absurd hf (Nat.not_lt_zero _)
  | fuel + 1, p, l, hl, hlast, hf => by
      rw [backreffirstLoop]
      rcases List.eq_nil_or_concat l with rfl | ⟨l', c, rfl⟩
      · rw [List.length_nil] at hlast
        rw [if_pos (by omega), if_pos ⟨rfl, .inl rfl⟩]
      rw [List.concat_eq_append] at hl hlast hf ⊢
      rw [List.length_append, List.length_singleton] at hlast hf
      rw [if_neg (by omega), show last - p = l'.length by omega]
      rcases backreffirst_window hl with ⟨hnone, hmem⟩ | ⟨u, d, m, hu, hsome, heq, hd, hm⟩
      · rw [hnone, refsFrom_append hmem, endsInPair_append hmem,
          if_neg fun h => h.2.elim (by simp) (fun h => nomatch h)]
        rfl
      · rw [hsome, heq, refsFrom_append hu, endsInPair_append hu]
        simp only [hd]
        by_cases hdig : isdigit d = true
        · rw [if_pos hdig, refsFrom_pair, if_pos hdig, if_neg (by simp)]
          simp
        · have hlen := congrArg List.length heq
          simp only [List.length_append, List.length_cons, List.length_nil] at hlen
          rw [if_neg hdig, backreffirstLoop_eq fuel hm (by omega) (by omega), refsFrom_pair,
            if_neg hdig, endsInPair_pair, refsFrom_shift m (0 + u.length + 2)]
          cases hr : refsFrom 0 m with
          | nil =>
              cases m with
              | nil => simp
              | cons e m => simp
          | cons k ks =>
              simp
              omega

/-- `jstr_internal_re_rplcbackreffirst`, of any replacement. -/
theorem backreffirst_eq {p : Nat} {l : Bytes} (hl : MemAt env p l) :
    backreffirst env p l.length
      = if refsFrom 0 l = [] ∧ endsInPair l = true then .error .bounds
        else .ok ((refsFrom 0 l).head?.map (p + ·)) := by
  rw [backreffirst]
  by_cases hlen : l.length < 2
  · rw [if_pos hlen]
    match l, hlen with
    | [], _ => rfl
    | [c], _ => rfl
    | _ :: _ :: _, hlen => exact absurd hlen (by simp)
  · have hne : l ≠ [] := by
      rintro rfl
      exact hlen (by simp)
    rw [if_neg hlen, backreffirstLoop_eq l.length hl (by omega) (by omega)]
    simp only [hne, false_or]

theorem backreffirst_some {p q : Nat} {l : Bytes} (hl : MemAt env p l)
    (h : backreffirst env p l.length = .ok (some q)) :
    ∃ k ks, refsFrom 0 l = k :: ks ∧ q = p + k := by
  rw [backreffirst_eq hl] at h
  split at h
  · cases h
  · cases hr : refsFrom 0 l with
    | nil =>
        rw [hr] at h
        cases h
    | cons k ks =>
        rw [hr] at h
        cases h
        exact ⟨k, ks, rfl, rfl⟩

/-- There is no reference at or behind offset `n`, and none reaches it. -/
structure NoRefFrom (l : Bytes) (n : Nat) : Prop where
  behind : ∀ i d, n ≤ i → l[i]? = some backslash → l[i + 1]? = some d → isdigit d = false
  border : ∀ d, l[n]? = some d → isdigit d = false

theorem NoRefFrom.length (l : Bytes) : NoRefFrom l l.length where
  behind := by
    intro i d hi h1
    rw [List.getElem?_eq_none hi] at h1
    cases h1
  border := by
    intro d h
    rw [List.getElem?_eq_none (Nat.le_refl _)] at h
    cases h

theorem backreflastLoop_spec (cfg : Build) {s0 : Nat} {l : Bytes} (hl : MemAt env s0 l)
    (hs0 : 0 < s0) : ∀ (fuel n : Nat), n < fuel → n ≤ l.length → NoRefFrom l n →
    ∃ r, backreflastLoop cfg env s0 fuel (s0 + n) = .ok r ∧
      match r with
      | none => NoRef l
      | some e => ∃ m d, e = s0 + m + 1 ∧ l[m]? = some d ∧ isdigit d = true ∧
          NoRef (l.drop (m + 1))
  | 0, n, hf, _, _ => absurd hf (Nat.not_lt_zero _)
  | fuel + 1, n, hf, hn, hno => by
      -- no reference before the bytes searched either
      have hdone : (∀ i < n, l[i]? ≠ some backslash) → NoRef l := by
        intro hmiss i d h1 h2
        by_cases hi : i < n
        · exact absurd h1 (hmiss i hi)
        · exact hno.behind i d (by omega) h1 h2
      rw [backreflastLoop]
      by_cases h0 : s0 + n ≤ s0
      · rw [if_pos h0]
        exact ⟨none, rfl, hdone fun i hi => by omega⟩
      rw [if_neg h0, Nat.add_sub_cancel_left]
      obtain ⟨r, hr, hright⟩ := @memrchr_rightmost env s0 n backslash cfg hs0
      have hget : ∀ i < n, l[i]? = some (env (s0 + i)) := fun i hi => hl.getElem? (by omega)
      rw [hr]
      cases r with
      | none =>
          refine ⟨none, rfl, hdone fun i hi h => hright i ⟨hi, ?_⟩⟩
          rw [hget i hi] at h
          exact Option.some.inj h
      | some k =>
          obtain ⟨⟨hk, hkb⟩, hmiss⟩ := hright
          have hbet : ∀ i, k < i → i < n → l[i]? ≠ some backslash := by
            intro i hki hin h
            rw [hget i hin] at h
            exact hmiss i hki ⟨hin, Option.some.inj h⟩
          simp only [Option.map_some, bind, Except.bind]
          rw [show s0 + n - (s0 + k) = n - k by omega]
          by_cases href : n - k ≥ 2 ∧ isdigit (env (s0 + k + 1)) = true
          · rw [if_pos href]
            refine ⟨_, rfl, k + 1, env (s0 + k + 1), rfl, ?_, href.2, ?_⟩
            · rw [Nat.add_assoc]
              exact hget (k + 1) (by omega)
            · intro i d h1 h2
              rw [List.getElem?_drop] at h1 h2
              by_cases hin : k + 1 + 1 + i < n
              · exact absurd h1 (hbet _ (by omega) hin)
              · exact hno.behind _ d (by omega) h1 h2
          · rw [if_neg href]
            refine backreflastLoop_spec cfg hl hs0 fuel k (by omega) (by omega) ⟨?_, ?_⟩
            · intro i d hki h1 h2
              by_cases hin : n ≤ i
              · exact hno.behind i d hin h1 h2
              · rcases Nat.lt_or_eq_of_le hki with hlt | rfl
                · exact absurd h1 (hbet i hlt (by omega))
                · rcases Nat.lt_or_ge (k + 1) n with hlt | hge
                  · rw [hget _ hlt, ← Nat.add_assoc] at h2
                    have hnd : ¬isdigit (env (s0 + k + 1)) = true := fun h => href ⟨by omega, h⟩
                    rw [← Option.some.inj h2]
                    exact Bool.eq_false_iff.mpr hnd
                  · rw [show k + 1 = n by omega] at h2
                    exact hno.border d h2
            · intro d hd
              rw [hget k hk, hkb] at hd
              rw [← Option.some.inj hd]
              rfl

/-- The last reference, of a text that begins with one. -/
theorem backreflast_spec (cfg : Build) {p : Nat} {l : Bytes} (hl : MemAt env p l)
    (hlen : 2 ≤ l.length) (hd : ∀ d, l[1]? = some d → isdigit d = true) :
    ∃ r, backreflast cfg env p l.length = .ok r ∧
      ∃ m d, r.getD (p + 2) = p + m + 1 ∧ l[m]? = some d ∧ isdigit d = true ∧
        NoRef (l.drop (m + 1)) := by
  have hfirst : ∃ d, l[1]? = some d ∧ isdigit d = true :=
    ⟨l[1], List.getElem?_eq_getElem (by omega), hd _ (List.getElem?_eq_getElem (by omega))⟩
  obtain ⟨d₁, hd₁, hdig₁⟩ := hfirst
  rw [backreflast]
  by_cases h4 : l.length ≥ 4
  · rw [if_pos h4, show p + l.length = p + 2 + (l.drop 2).length by rw [List.length_drop]; omega]
    obtain ⟨r, hr, hspec⟩ := backreflastLoop_spec cfg (hl.drop (show 2 ≤ l.length by omega))
      (show 0 < p + 2 by omega) (l.length + 1) (l.drop 2).length
      (by rw [List.length_drop]; omega) (Nat.le_refl _)
      (NoRefFrom.length _)
    refine ⟨r, hr, ?_⟩
    cases r with
    | none => exact ⟨1, d₁, rfl, hd₁, hdig₁, hspec⟩
    | some e =>
        obtain ⟨m, d, he, hm, hdig, hno⟩ := hspec
        rw [List.getElem?_drop] at hm
        rw [List.drop_drop] at hno
        exact ⟨2 + m, d, by rw [Option.getD_some, he]; omega, hm, hdig, hno⟩
  · rw [if_neg h4]
    refine ⟨none, rfl, 1, d₁, rfl, hd₁, hdig₁, fun i d _ h2 => ?_⟩
    rw [List.getElem?_drop, List.getElem?_eq_none (by omega)] at h2
    cases h2

/-- Measured between the first and the last reference, the length is that
of the whole expansion, in `size_t`. -/
theorem backrefstrlen_mod (cfg : Build) (hrm : rm.Within w.length) {p q : Nat} {l : Bytes}
    {r : Option Nat} (hl : MemAt env p l) (hq : backreffirst env p l.length = .ok (some q))
    (hr : backreflast cfg env q (l.length - (q - p)) = .ok r) (hlmax : l.length ≤ sizeMax) :
    backrefstrlen env rm nmatch (r.getD (q + 2)) (l.length + 1) q l.length
      = .ok ((expand (rm.text nmatch w) l).length % 18446744073709551616) := by
  obtain ⟨k, ks, hrefs, rfl⟩ := backreffirst_some hl hq
  obtain ⟨u, d, m, rfl, rfl, hdig, hexp⟩ := expand_of_refsFrom_cons (rm.text nmatch w) hrefs
  rw [Nat.zero_add] at hq hr ⊢
  have hB := (memAt_append.mp hl).2
  have hlen : (u ++ backslash :: d :: m).length = u.length + (backslash :: d :: m).length :=
    List.length_append
  have hB2 : 2 ≤ (backslash :: d :: m).length := by
    simp only [List.length_cons]
    omega
  rw [show (u ++ backslash :: d :: m).length - (p + u.length - p) = (backslash :: d :: m).length by
    omega] at hr
  obtain ⟨r', hr', n, dn, hn, hget, hdn, hno⟩ := backreflast_spec cfg hB hB2
    (fun d' h => by cases h; exact hdig)
  obtain rfl : r = r' := by
    rw [hr] at hr'
    exact Except.ok.inj hr'
  rw [hexp]
  generalize hBdef : backslash :: d :: m = B at *
  have hnlt : n < B.length := (List.getElem?_eq_some_iff.mp hget).1
  have htake : (B.take (n + 1)).length = n + 1 := by rw [List.length_take]; omega
  -- the part measured ends in a digit
  have hlast : (B.take (n + 1)).getLast? ≠ some backslash := by
    rw [List.getLast?_eq_getElem?, htake, Nat.add_sub_cancel, List.getElem?_take_of_lt
      (Nat.lt_succ_self n), hget]
    intro h
    rw [Option.some.inj h] at hdn
    exact absurd hdn (by decide)
  have hsplit : expand (rm.text nmatch w) B
      = expand (rm.text nmatch w) (B.take (n + 1)) ++ B.drop (n + 1) := by
    conv_lhs => rw [← List.take_append_drop (n + 1) B]
    rw [expand_append _ _ hlast, expand_of_noRef _ hno]
  have hrest : (B.drop (n + 1)).length = B.length - (n + 1) := List.length_drop
  have htotal : (u ++ expand (rm.text nmatch w) B).length = u.length
      + (expand (rm.text nmatch w) (B.take (n + 1))).length + (B.drop (n + 1)).length := by
    rw [hsplit, ← List.append_assoc, List.length_append, List.length_append]
  rw [htotal]
  obtain ⟨y, hymax, hy, hylen⟩ := @backrefstrlen_spec env rm nmatch w hrm (r.getD (p + u.length + 2))
    ((u ++ B).length + 1) (p + u.length) (u ++ B).length (B.take (n + 1)) (hB.take (n + 1))
    (by rw [hn, htake]; omega) (by rw [htake, hlen]; omega) hlast hlmax
  rw [hy]
  congr 1
  simp only [sizeMax] at hymax
  omega

theorem backrefstrlen_eq (cfg : Build) (hrm : rm.Within w.length) {p q : Nat} {l : Bytes}
    {r : Option Nat} (hl : MemAt env p l) (hq : backreffirst env p l.length = .ok (some q))
    (hr : backreflast cfg env q (l.length - (q - p)) = .ok r) (hlmax : l.length ≤ sizeMax)
    (hfit : (expand (rm.text nmatch w) l).length ≤ sizeMax) :
    backrefstrlen env rm nmatch (r.getD (q + 2)) (l.length + 1) q l.length
      = .ok (expand (rm.text nmatch w) l).length := by
  have hmod := @backrefstrlen_mod env rm nmatch w cfg hrm p q l r hl hq hr hlmax
  have hlt : (expand (rm.text nmatch w) l).length < 18446744073709551616 := Nat.lt_succ_of_le hfit
  rwa [Nat.mod_eq_of_lt hlt] at hmod

/-- Offset `e` is inside the replacement, behind every reference, and not
right behind a backslash. -/
structure RefsEnd (l : Bytes) (e : Nat) : Prop where
  inside : e ≤ l.length
  behind : ∀ i ∈ refsFrom 0 l, i + 2 ≤ e
  unbroken : l[e - 1]? ≠ some backslash

/-- The end the caller computes once the first reference has been found. -/
theorem backreflast_end (cfg : Build) {p q : Nat} {l : Bytes} (hl : MemAt env p l)
    (hq : backreffirst env p l.length = .ok (some q)) :
    ∃ r e, backreflast cfg env q (l.length - (q - p)) = .ok r ∧ r.getD (q + 2) = p + e ∧
      RefsEnd l e := by
  obtain ⟨k, ks, hrefs, rfl⟩ := backreffirst_some hl hq
  obtain ⟨u, d, m, rfl, rfl, hdig, -⟩ := expand_of_refsFrom_cons (fun _ => none) hrefs
  have hB := (memAt_append.mp hl).2
  generalize hBdef : backslash :: d :: m = B at *
  have hB2 : 2 ≤ B.length := by
    rw [← hBdef]
    simp only [List.length_cons]
    omega
  have hlen : (u ++ B).length = u.length + B.length := List.length_append
  obtain ⟨r, hr, n, e, hn, hget, he, hno⟩ := backreflast_spec cfg hB hB2 fun d' h => by
    rw [← hBdef] at h
    cases h
    exact hdig
  have hnlt := (List.getElem?_eq_some_iff.mp hget).1
  refine ⟨r, u.length + n + 1, ?_, ?_, by omega, fun i hi => ?_, ?_⟩
  · rw [Nat.zero_add, show (u ++ B).length - (p + u.length - p) = B.length by omega]
    exact hr
  · rw [Nat.zero_add, hn]
    omega
  · -- behind the last digit there is no reference
    obtain ⟨-, hb, d', hd', hdig'⟩ := mem_refsFrom hi
    rw [hrefs, Nat.zero_add] at hi
    rw [Nat.zero_add] at hrefs
    have hle := head_le_of_mem_refsFrom hrefs hi
    rw [Nat.sub_zero, List.getElem?_append_right hle] at hb
    rw [Nat.sub_zero, List.getElem?_append_right (by omega),
      show i + 1 - u.length = i - u.length + 1 by omega] at hd'
    by_contra hlt
    rcases Nat.lt_or_ge n (i - u.length) with hlt' | hge
    · have := hno (i - u.length - (n + 1)) d'
        (by rw [List.getElem?_drop, Nat.add_sub_cancel' hlt']; exact hb)
        (by rw [List.getElem?_drop, ← Nat.add_assoc, Nat.add_sub_cancel' hlt']; exact hd')
      rw [hdig'] at this
      cases this
    · rw [show i - u.length = n by omega, hget] at hb
      rw [Option.some.inj hb] at he
      exact absurd he (by decide)
  · rw [Nat.add_sub_cancel, List.getElem?_append_right (Nat.le_add_right _ _),
      Nat.add_sub_cancel_left, hget]
    intro h
    rw [Option.some.inj h] at he
    exact absurd he (by decide)

/-- What is asked of the two scans: no byte behind the replacement is read,
the first reference is found, and the end computed from it is that of the
references. -/
def ScansRefs (cfg : Build) (env : Mem) (p : Nat) (l : Bytes) : Prop :=
  ∃ r, backreffirst env p l.length = .ok r ∧ r = (refsFrom 0 l).head?.map (p + ·) ∧
    ∀ q, r = some q → ∃ last e, backreflast cfg env q (l.length - (q - p)) = .ok last ∧
      last.getD (q + 2) = p + e ∧ RefsEnd l e

/-- What the copying is given: a block with the searched text in it and, elsewhere, room for `n`
bytes at `dst`. -/
structure CopyRoom (b : Blk) (mtcSrc : Nat) (w : Bytes) (dst n : Nat) : Prop where
  src : b.At mtcSrc w
  apart : mtcSrc + w.length ≤ dst ∨ dst + n ≤ mtcSrc
  room : b.InRange dst n

/-- The copying of the replacement writes `out`, wherever there is room for it. -/
def BackrefCopies (env : Mem) (rm : Groups) (nmatch : Nat) (w : Bytes) (p : Nat) (l out : Bytes) :
    Prop :=
  ∀ (b : Blk) (mtcSrc dst : Nat), CopyRoom b mtcSrc w dst out.length →
    backrefcpy env rm nmatch mtcSrc (p + l.length) (l.length + 1) b dst p = .ok (b.put dst out)

/-- The length measured on the part between the two scans is the number of bytes that the copying
of the whole replacement writes, and not the error value. -/
def LengthRight (cfg : Build) (env : Mem) (rm : Groups) (nmatch : Nat) (w : Bytes) (p : Nat)
    (l : Bytes) : Prop :=
  ∃ q r n out, backreffirst env p l.length = .ok (some q) ∧
    backreflast cfg env q (l.length - (q - p)) = .ok r ∧
    backrefstrlen env rm nmatch (r.getD (q + 2)) (l.length + 1) q l.length = .ok n ∧
    BackrefCopies env rm nmatch w p l out ∧ n = out.length ∧ n ≠ sizeMax

variable {p : Nat} {l : Bytes}

theorem backrefCopies_expand (nmatch : Nat) (hrm : rm.Within w.length) (hl : MemAt env p l) :
    BackrefCopies env rm nmatch w p l (expand (rm.text nmatch w) l) :=
  fun _ _ _ hroom => backrefcpy_spec hrm _ hl rfl (Nat.lt_succ_self _) hroom.src hroom.apart
    hroom.room

/-- What is copied behind the text tells how much it is: the rest of the block stays. -/
theorem BackrefCopies.length_le {out out' : Bytes} (h : BackrefCopies env rm nmatch w p l out)
    (h' : BackrefCopies env rm nmatch w p l out') : out'.length ≤ out.length := by
  by_contra hlt
  have hrest : ∀ c : UInt8,
      out'.drop out.length = List.replicate (out'.length - out.length) c := by
    intro c
    obtain ⟨b, hb⟩ : ∃ b : Blk, b = ⟨0, w ++ List.replicate out'.length c⟩ := ⟨_, rfl⟩
    have hat : b.At 0 (w ++ List.replicate out'.length c) := by
      rw [hb]
      exact ⟨⟨Nat.le_refl 0, Nat.le_refl (0 + _)⟩, fun i _ => by
        rw [Memory.Block.cell?, if_pos (Nat.zero_le _), Nat.zero_add, Nat.sub_zero]⟩
    have hfill := hat.right
    have hroom := hfill.inRange.2
    rw [List.length_replicate] at hroom
    rw [Nat.zero_add] at hfill hroom
    have hlo : b.addr ≤ w.length := by
      rw [hb]
      exact Nat.zero_le _
    have hsame := (h b 0 w.length ⟨hat.left, .inl (by omega), hlo, by omega⟩).symm.trans
      (h' b 0 w.length ⟨hat.left, .inl (by omega), hlo, hroom⟩)
    have hrest := hfill.drop (n := out.length) (by rw [List.length_replicate]; omega)
    have hold := hrest.put_of_disjoint (p := w.length) (l := out) (.inr (by omega))
    have hnew := (Memory.Block.at_put (l := out') ⟨hlo, hroom⟩).drop (n := out.length) (by omega)
    rw [← Except.ok.inj hsame] at hnew
    rw [List.drop_replicate] at hold
    exact hnew.eq_of_length hold (by rw [List.length_drop, List.length_replicate])
  have hsame := (hrest 0).symm.trans (hrest 1)
  obtain ⟨k, hk⟩ := Nat.exists_eq_add_of_lt (Nat.lt_of_not_le hlt)
  rw [show out'.length - out.length = k + 1 by omega] at hsame
  exact absurd (List.cons.inj hsame).1 (by decide)

/-- A length that is right has not wrapped, nor come to the error value. -/
theorem LengthRight.lt_sizeMax {cfg : Build} (h : LengthRight cfg env rm nmatch w p l)
    (hrm : rm.Within w.length) (hl : MemAt env p l) (hlmax : l.length ≤ sizeMax) :
    (expand (rm.text nmatch w) l).length < sizeMax := by
  obtain ⟨q, r, n, out, hq, hr, hn, hout, rfl, hne⟩ := h
  have hmod := Except.ok.inj ((backrefstrlen_mod cfg hrm hl hq hr hlmax).symm.trans hn)
  have hcopies := backrefCopies_expand nmatch hrm hl
  have hle := hout.length_le hcopies
  have hge := hcopies.length_le hout
  have hmax := Nat.mod_lt (expand (rm.text nmatch w) l).length
    (show 0 < 18446744073709551616 by decide)
  simp only [sizeMax] at hne ⊢
  omega

/-- For every table and every replacement with a reference, the length is that of what is copied
exactly when that is below `(size_t)-1`; beyond, it wraps, and at `(size_t)-1` it is the error
value. -/
theorem backrefstrlen_right_iff (cfg : Build) (nmatch : Nat) (hrm : rm.Within w.length)
    (hl : MemAt env p l) (hlmax : l.length ≤ sizeMax) (hrefs : refsFrom 0 l ≠ []) :
    LengthRight cfg env rm nmatch w p l ↔ (expand (rm.text nmatch w) l).length < sizeMax := by
  refine ⟨fun h => h.lt_sizeMax hrm hl hlmax, fun hlt => ?_⟩
  cases hks : refsFrom 0 l with
  | nil => exact absurd hks hrefs
  | cons k ks =>
      have hq : backreffirst env p l.length = .ok (some (p + k)) := by
        rw [backreffirst_eq hl, if_neg fun h => hrefs h.1, hks]
        rfl
      obtain ⟨r, -, hr, -, -⟩ := backreflast_end cfg hl hq
      have hmod : (expand (rm.text nmatch w) l).length % 18446744073709551616
          = (expand (rm.text nmatch w) l).length :=
        Nat.mod_eq_of_lt (Nat.lt_succ_of_lt hlt)
      have hlen := @backrefstrlen_mod env rm nmatch w cfg hrm p (p + k) l r hl hq hr hlmax
      rw [hmod] at hlen
      exact ⟨p + k, r, _, _, hq, hr, hlen, backrefCopies_expand nmatch hrm hl, rfl,
        Nat.ne_of_lt hlt⟩

/-- An escaped backslash, a reference to "x", and a backslash at the end. -/
theorem backrefstrlen_right_iff_escaped :
    LengthRight sse2Build (memOf [92, 92, 92, 49, 97, 92]) ⟨⟨0, 1⟩, fun _ => some ⟨0, 1⟩⟩ 2 [120] 0
        [92, 92, 92, 49, 97, 92] ↔
      ([92, 92, 120, 97, 92] : Bytes).length < sizeMax := by
  have hrm : (⟨⟨0, 1⟩, fun _ => some ⟨0, 1⟩⟩ : Groups).Within ([120] : Bytes).length := by
    intro c r hr
    simp only [Groups.get, ite_self, Option.some.injEq] at hr
    rw [← hr]
    decide
  exact @backrefstrlen_right_iff (memOf [92, 92, 92, 49, 97, 92]) _ [120] 0
    [92, 92, 92, 49, 97, 92] sse2Build 2 hrm (by decide) (by decide) (by decide)

/-! ### A length that wraps -/

/-- `n` references to the whole match. -/
def wholeRefs (n : Nat) : Bytes := (List.replicate n [backslash, 48]).flatten

/-- A memory that holds nothing else from 0 on. -/
def memWholeRefs : Mem := fun p => if p % 2 = 0 then backslash else 48

theorem wholeRefs_succ (n : Nat) : wholeRefs (n + 1) = [backslash, 48] ++ wholeRefs n := by
  rw [wholeRefs, List.replicate_succ, List.flatten_cons, wholeRefs]

theorem length_wholeRefs (n : Nat) : (wholeRefs n).length = 2 * n := by
  induction n with
  | zero => rfl
  | succ n ih =>
      rw [wholeRefs_succ, List.length_append, ih]
      show 2 + 2 * n = 2 * (n + 1)
      omega

theorem memAt_wholeRefs (n k : Nat) : MemAt memWholeRefs (2 * k) (wholeRefs n) := by
  induction n generalizing k with
  | zero => exact fun i hi => absurd hi (Nat.not_lt_zero i)
  | succ n ih =>
      rw [wholeRefs_succ]
      refine memAt_append.mpr ⟨fun i hi => ?_, ih (k + 1)⟩
      have hi : i < 2 := hi
      rcases (show i = 0 ∨ i = 1 by omega) with rfl | rfl
      · exact if_pos (by omega)
      · exact if_neg (by omega)

theorem length_expand_wholeRefs {text : Nat → Option Bytes} {u : Bytes} (h : text 0 = some u)
    (n : Nat) : (expand text (wholeRefs n)).length = n * u.length := by
  induction n with
  | zero => rw [wholeRefs, List.replicate_zero, List.flatten_nil, expand, Nat.zero_mul]; rfl
  | succ n ih =>
      have hpair : pair text 48 = u := by
        rw [pair, if_pos (by decide), show ((48 : UInt8) - 48).toNat = 0 from rfl, h]
        rfl
      rw [wholeRefs_succ, List.cons_append, List.singleton_append, expand_pair, hpair,
        List.length_append, ih, Nat.succ_mul, Nat.add_comm]

/-- 2 ^ 34 references to a match of 2 ^ 30 bytes: the length is 0. -/
theorem not_lengthRight :
    ¬∀ (cfg : Build) (env : Mem) (rm : Groups) (nmatch : Nat) (w : Bytes) (p : Nat) (l : Bytes),
      rm.Within w.length → MemAt env p l → l.length ≤ sizeMax → refsFrom 0 l ≠ [] →
      LengthRight cfg env rm nmatch w p l := by
  intro hall
  obtain ⟨n, hn⟩ : ∃ n, n = 17179869184 := ⟨_, rfl⟩
  obtain ⟨m, hm⟩ : ∃ m, m = 1073741824 := ⟨_, rfl⟩
  obtain ⟨w, hw⟩ : ∃ w : Bytes, w = List.replicate m 97 := ⟨_, rfl⟩
  have hwlen : w.length = m := by rw [hw, List.length_replicate]
  obtain ⟨rm, hrm⟩ : ∃ rm : Groups, rm = ⟨⟨0, m⟩, fun _ => none⟩ := ⟨_, rfl⟩
  have hwithin : rm.Within w.length := by
    rintro (_ | c) r hr
    · rw [hrm] at hr
      cases hr
      exact ⟨Nat.zero_le m, Nat.le_of_eq hwlen.symm⟩
    · rw [hrm] at hr
      cases hr
  have htext : rm.text 1 w 0 = some w := by
    rw [hrm]
    show some ((w.drop 0).take (m - 0)) = some w
    rw [List.drop_zero, Nat.sub_zero, ← hwlen, List.take_length]
  have hlen := length_wholeRefs n
  have hrefs : refsFrom 0 (wholeRefs n) ≠ [] := by
    obtain ⟨k, hk⟩ : ∃ k, n = k + 1 := ⟨17179869183, hn⟩
    rw [hk, wholeRefs_succ, List.cons_append, List.singleton_append, refsFrom_pair,
      if_pos (by decide)]
    exact List.cons_ne_nil _ _
  have hfit : (wholeRefs n).length ≤ sizeMax := by
    rw [hlen, sizeMax]
    omega
  have hmem := memAt_wholeRefs n 0
  have hright := (hall sse2Build _ rm 1 w _ _ hwithin hmem hfit hrefs).lt_sizeMax hwithin hmem hfit
  rw [length_expand_wholeRefs htext, hwlen, hn, hm] at hright
  exact absurd hright (by decide)

end Length

/-- The scan leaves a replacement without a reference that ends in a pair,
and no other. -/
theorem scansRefs_iff (cfg : Build) {env : Mem} {p : Nat} {l : Bytes} (hl : MemAt env p l) :
    ScansRefs cfg env p l ↔ ¬(refsFrom 0 l = [] ∧ endsInPair l = true) := by
  have heq := backreffirst_eq hl
  constructor
  · rintro ⟨r, hr, -⟩ hbad
    rw [heq, if_pos hbad] at hr
    cases hr
  · intro hgood
    rw [if_neg hgood] at heq
    refine ⟨_, heq, rfl, fun q hq => ?_⟩
    rw [hq] at heq
    exact backreflast_end cfg hl heq

/-- A replacement with a reference behind an escaped backslash. -/
theorem scansRefs_iff_escaped :
    ScansRefs sse2Build (memOf [92, 92, 92, 49]) 0 [92, 92, 92, 49] ↔
      ¬(refsFrom 0 [92, 92, 92, 49] = [] ∧ endsInPair [92, 92, 92, 49] = true) :=
  scansRefs_iff sse2Build (by decide)

/-- From "\\a" the scan goes on behind the end. -/
theorem not_scansRefs_escaped : ¬ScansRefs sse2Build (memOf [92, 97]) 0 [92, 97] := by
  rintro ⟨r, hr, -⟩
  rw [show backreffirst (memOf [92, 97]) 0 ([92, 97] : Bytes).length = .error .bounds by decide] at hr
  cases hr

end Jstr
