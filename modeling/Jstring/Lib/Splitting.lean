import Jstring.Lib.Occurrence

/-!
# Splitting at the leftmost occurrences

- `splitN`: the text cut at its first at most `n` leftmost,
  non-overlapping occurrences, scanned left to right - the pieces before
  each occurrence and what is left;
- `joinWith`/`replaceN`: the pieces glued back with a replacement.

The lemmas are what a loop that looks for one occurrence at a time needs:
`splitN_succ_some` peels the first piece, `search_take` lets the loop
search a window that ends at (or after) the occurrence, and
`splitN_eq_of_le` forgets a bound that is too large to matter.
-/

namespace Words

variable {α : Type*} [DecidableEq α]

/-! ## What a search may skip -/

theorem search_nil (hs : List α) : search [] hs = some 0 :=
  search_eq_some_iff.mpr ⟨⟨by simp, by simp⟩, fun j hj => absurd hj (Nat.not_lt_zero j)⟩

theorem search_lt {ne hs : List α} {i : Nat} (h : search ne hs = some i) :
    i + ne.length ≤ hs.length :=
  (search_eq_some_iff.mp h).1.1

/-- Cutting the text at or after the end of the leftmost occurrence does
not change what is found. -/
theorem search_take {ne hs : List α} {i m : Nat} (h : search ne hs = some i)
    (him : i + ne.length ≤ m) : search ne (hs.take m) = some i := by
  obtain ⟨hocc, hmin⟩ := search_eq_some_iff.mp h
  by_cases hm : m ≤ hs.length
  · exact search_eq_some_iff.mpr ⟨(occursAt_take hm).mpr ⟨hocc, him⟩,
      fun j hj hj' => hmin j hj ((occursAt_take hm).mp hj').1⟩
  · rwa [List.take_of_length_le (by omega)]

/-- Positions that cannot match may be skipped. -/
theorem search_drop {ne hs : List α} {m : Nat} (hm : m ≤ hs.length)
    (hskip : ∀ j < m, ¬OccursAt ne hs j) :
    search ne hs = (search ne (hs.drop m)).map (m + ·) := by
  cases hr : search ne (hs.drop m) with
  | none =>
      refine search_eq_none_iff.mpr fun i hi => ?_
      rcases Nat.lt_or_ge i m with hlt | hge
      · exact hskip i hlt hi
      · rw [show i = m + (i - m) by omega] at hi
        exact search_eq_none_iff.mp hr _ ((occursAt_drop hm).mpr hi)
  | some k =>
      obtain ⟨hocc, hmin⟩ := search_eq_some_iff.mp hr
      rw [Option.map_some]
      refine search_eq_some_iff.mpr ⟨(occursAt_drop hm).mp hocc, fun j hj hj' => ?_⟩
      rcases Nat.lt_or_ge j m with hlt | hge
      · exact hskip j hlt hj'
      · rw [show j = m + (j - m) by omega] at hj'
        exact hmin (j - m) (by omega) ((occursAt_drop hm).mpr hj')

/-- Nothing starts before the first place of the first letter. -/
theorem search_drop_head {ne hs : List α} {a : α} {k : Nat} (hne : ne[0]? = some a)
    (hk : k ≤ hs.length) (hmin : ∀ j < k, hs[j]? ≠ some a) :
    search ne hs = (search ne (hs.drop k)).map (k + ·) := by
  refine search_drop hk fun j hj hocc => hmin j hj ?_
  have hpos : 0 < ne.length := by
    by_contra h0
    rw [List.getElem?_eq_none (by omega)] at hne
    cases hne
  have := hocc.2 0 hpos
  rwa [Nat.add_zero, hne] at this

/-- One letter is found where it stands at the head. -/
theorem search_eq_zero_of_head {ne hs : List α} {a : α} (h1 : ne.length = 1)
    (hne : ne[0]? = some a) (hhs : hs[0]? = some a) : search ne hs = some 0 := by
  have hpos : 0 < hs.length := (List.getElem?_eq_some_iff.mp hhs).1
  refine search_eq_some_iff.mpr ⟨⟨by omega, fun i hi => ?_⟩, fun j hj => absurd hj (Nat.not_lt_zero j)⟩
  obtain rfl : i = 0 := by omega
  rw [Nat.add_zero, hne, hhs]

theorem search_of_length_lt {ne hs : List α} (h : hs.length < ne.length) :
    search ne hs = none :=
  search_eq_none_iff.mpr fun i hi => by have := hi.1; omega

/-! ## Splitting at the leftmost occurrences -/

/-- The text before each of the first at most `n` leftmost,
non-overlapping occurrences of `find`, and the text after the last. -/
def splitN (find : List α) : Nat → List α → List (List α) × List α
  | 0, t => ([], t)
  | n + 1, t =>
      match search find t with
      | none => ([], t)
      | some i =>
          let (ps, r) := splitN find n (t.drop (i + find.length))
          (t.take i :: ps, r)

/-- The pieces with `glue` after each, then the rest. -/
def joinWith (glue : List α) (ps : List (List α)) (r : List α) : List α :=
  (ps.map (· ++ glue)).flatten ++ r

/-- The first at most `n` occurrences of `find` replaced by `rplc`. -/
def replaceN (find rplc : List α) (n : Nat) (t : List α) : List α :=
  joinWith rplc (splitN find n t).1 (splitN find n t).2

/-- The number of occurrences `replaceN` replaces. -/
def countN (find : List α) (n : Nat) (t : List α) : Nat :=
  (splitN find n t).1.length

/-- Where the occurrences behind each piece begin, the first piece
being at offset `a`. -/
def starts (find : List α) : Nat → List (List α) → List Nat
  | _, [] => []
  | a, p :: ps => (a + p.length) :: starts find (a + p.length + find.length) ps

theorem splitN_succ_none {find t : List α} {n : Nat} (h : search find t = none) :
    splitN find (n + 1) t = ([], t) := by
  rw [splitN, h]

theorem splitN_succ_some {find t : List α} {n i : Nat} (h : search find t = some i) :
    splitN find (n + 1) t
      = (t.take i :: (splitN find n (t.drop (i + find.length))).1,
          (splitN find n (t.drop (i + find.length))).2) := by
  rw [splitN, h]

omit [DecidableEq α] in
@[simp] theorem joinWith_nil (glue r : List α) : joinWith glue [] r = r := rfl

omit [DecidableEq α] in
@[simp] theorem joinWith_cons (glue p r : List α) (ps : List (List α)) :
    joinWith glue (p :: ps) r = p ++ glue ++ joinWith glue ps r := by
  simp [joinWith]

omit [DecidableEq α] in
theorem joinWith_concat (glue p r : List α) (ps : List (List α)) :
    joinWith glue (ps ++ [p]) r = joinWith glue ps (p ++ glue ++ r) := by
  simp [joinWith]

omit [DecidableEq α] in
theorem joinWith_append_rest (glue r r' : List α) (ps : List (List α)) :
    joinWith glue ps (r ++ r') = joinWith glue ps r ++ r' := by
  simp [joinWith]

omit [DecidableEq α] in
theorem length_joinWith (g g' r : List α) (ps : List (List α)) :
    (joinWith g ps r).length + ps.length * g'.length
      = (joinWith g' ps r).length + ps.length * g.length := by
  induction ps with
  | nil => simp
  | cons p ps ih =>
      simp only [joinWith_cons, List.length_append, List.length_cons, Nat.add_mul] at ih ⊢
      omega

/-- Gluing the pieces with `find` itself gives the text back. -/
theorem joinWith_splitN (find : List α) : ∀ (n : Nat) (t : List α),
    joinWith find (splitN find n t).1 (splitN find n t).2 = t
  | 0, t => rfl
  | n + 1, t => by
      cases hs : search find t with
      | none => rw [splitN_succ_none hs]; rfl
      | some i =>
          rw [splitN_succ_some hs]
          simp only [joinWith_cons, joinWith_splitN find n]
          exact (search_eq_some_iff.mp hs).1.eq_append.symm

theorem replaceN_self (find : List α) (n : Nat) (t : List α) :
    replaceN find find n t = t :=
  joinWith_splitN find n t

theorem length_replaceN (find rplc : List α) (n : Nat) (t : List α) :
    (replaceN find rplc n t).length + countN find n t * find.length
      = t.length + countN find n t * rplc.length := by
  have h := length_joinWith rplc find (splitN find n t).2 (splitN find n t).1
  rw [joinWith_splitN] at h
  exact h

theorem countN_le (find : List α) (n : Nat) (t : List α) : countN find n t ≤ n := by
  induction n generalizing t with
  | zero => exact Nat.le_refl 0
  | succ n ih =>
      rw [countN]
      cases hs : search find t with
      | none => rw [splitN_succ_none hs]; exact Nat.zero_le _
      | some i =>
          rw [splitN_succ_some hs, List.length_cons]
          exact Nat.succ_le_succ (ih _)

theorem replaceN_zero (find rplc t : List α) : replaceN find rplc 0 t = t := rfl

theorem replaceN_succ_some {find rplc t : List α} {n i : Nat}
    (h : search find t = some i) :
    replaceN find rplc (n + 1) t
      = t.take i ++ rplc ++ replaceN find rplc n (t.drop (i + find.length)) := by
  rw [replaceN, splitN_succ_some h, joinWith_cons]; rfl

theorem replaceN_succ_none {find rplc t : List α} {n : Nat}
    (h : search find t = none) : replaceN find rplc (n + 1) t = t := by
  rw [replaceN, splitN_succ_none h]; rfl

/-- Whatever is in the result was in the text, or was put in for an occurrence. -/
theorem mem_replaceN {find rplc : List α} {x : α} : ∀ {n : Nat} {t : List α},
    x ∈ replaceN find rplc n t → x ∈ t ∨ x ∈ rplc ∧ find ⊆ t
  | 0, t, h => .inl h
  | n + 1, t, h => by
      cases hs : search find t with
      | none =>
          rw [replaceN_succ_none hs] at h
          exact .inl h
      | some i =>
          have hdrop : t.drop (i + find.length) ⊆ t := List.drop_subset _ _
          have hocc := (search_eq_some_iff.mp hs).1.eq_append
          rw [replaceN_succ_some hs, List.mem_append, List.mem_append] at h
          rcases h with (h | h) | h
          · exact .inl (List.mem_of_mem_take h)
          · refine .inr ⟨h, fun y hy => ?_⟩
            rw [hocc]
            exact List.mem_append_left _ (List.mem_append_right _ hy)
          · rcases mem_replaceN h with hx | ⟨hx, hsub⟩
            · exact .inl (hdrop hx)
            · exact .inr ⟨hx, fun y hy => hdrop (hsub hy)⟩

theorem countN_succ_some {find t : List α} {n i : Nat} (h : search find t = some i) :
    countN find (n + 1) t = countN find n (t.drop (i + find.length)) + 1 := by
  rw [countN, splitN_succ_some h]; rfl

theorem countN_succ_none {find t : List α} {n : Nat} (h : search find t = none) :
    countN find (n + 1) t = 0 := by
  rw [countN, splitN_succ_none h]; rfl

/-- The text around its leftmost occurrence. -/
theorem eq_append_of_search {find t : List α} {i : Nat} (h : search find t = some i) :
    t = t.take i ++ find ++ t.drop (i + find.length) ∧ (t.take i).length = i :=
  ⟨(search_eq_some_iff.mp h).1.eq_append,
    by rw [List.length_take]; have := search_lt h; omega⟩

/-- The text cut at `start` and around the first match from there. -/
theorem eq_append_of_search_from {find t : List α} {start k : Nat}
    (h : search find (t.drop start) = some k) (hstart : start ≤ t.length) :
    t = t.take start ++ (t.drop start).take k ++ find ++ (t.drop start).drop (k + find.length) ∧
      (t.take start ++ (t.drop start).take k).length = start + k := by
  obtain ⟨hrest, hk⟩ := eq_append_of_search h
  refine ⟨?_, ?_⟩
  · conv_lhs => rw [← List.take_append_drop start t, hrest]
    simp only [List.append_assoc]
  · rw [List.length_append, hk, List.length_take]
    omega

theorem splitN_nil {find : List α} (hfind : find ≠ []) (n : Nat) :
    splitN find n ([] : List α) = ([], []) := by
  cases n with
  | zero => rfl
  | succ n => exact splitN_succ_none (search_of_length_lt (List.length_pos_of_ne_nil hfind))

theorem replaceN_nil {find : List α} (hfind : find ≠ []) (rplc : List α) (n : Nat) :
    replaceN find rplc n [] = [] := by
  rw [replaceN, splitN_nil hfind]; rfl

theorem countN_nil {find : List α} (hfind : find ≠ []) (n : Nat) : countN find n [] = 0 := by
  rw [countN, splitN_nil hfind]; rfl

/-- Each piece ends where the text has its leftmost occurrence. -/
def Cuts (find : List α) : List (List α) → List α → Prop
  | [], _ => True
  | p :: ps, r => search find (joinWith find (p :: ps) r) = some p.length ∧ Cuts find ps r

theorem cuts_splitN (find : List α) : ∀ (n : Nat) (t : List α),
    Cuts find (splitN find n t).1 (splitN find n t).2
  | 0, _ => trivial
  | n + 1, t => by
      cases hs : search find t with
      | none => rw [splitN_succ_none hs]; trivial
      | some i =>
          have hjoin := joinWith_splitN find (n + 1) t
          have hlen := search_lt hs
          rw [splitN_succ_some hs] at hjoin ⊢
          refine ⟨?_, cuts_splitN find n _⟩
          rw [hjoin, hs, List.length_take, Nat.min_eq_left (by omega)]

/-- A bound at least the length of the text does not cut anything off. -/
theorem splitN_eq_of_le {find : List α} (hfind : find ≠ []) :
    ∀ {n m : Nat} {t : List α}, t.length ≤ n → t.length ≤ m →
      splitN find n t = splitN find m t := by
  have hpos := List.length_pos_of_ne_nil hfind
  have hempty : ∀ (n : Nat) (t : List α), t.length ≤ 0 → splitN find n t = ([], t) := by
    intro n t ht
    cases n with
    | zero => rfl
    | succ n => exact splitN_succ_none (search_of_length_lt (by omega))
  intro n
  induction n with
  | zero => intro m t hn _; rw [hempty m t hn, hempty 0 t hn]
  | succ n ih =>
      intro m t hn hm
      cases m with
      | zero => rw [hempty _ t hm, hempty _ t hm]
      | succ m =>
          cases hs : search find t with
          | none => rw [splitN_succ_none hs, splitN_succ_none hs]
          | some i =>
              have hlen : (t.drop (i + find.length)).length + 1 ≤ t.length := by
                have := search_lt hs
                rw [List.length_drop]; omega
              have hrest : splitN find n (t.drop (i + find.length))
                  = splitN find m (t.drop (i + find.length)) := ih (by omega) (by omega)
              rw [splitN_succ_some hs, splitN_succ_some hs, hrest]

omit [DecidableEq α] in
theorem length_starts (find : List α) : ∀ (a : Nat) (ps : List (List α)),
    (starts find a ps).length = ps.length
  | _, [] => rfl
  | _, _ :: ps => congrArg Nat.succ (length_starts find _ ps)

omit [DecidableEq α] in
theorem starts_concat (find : List α) (p : List α) : ∀ (a : Nat) (ps : List (List α)),
    starts find a (ps ++ [p]) = starts find a ps ++ [a + (joinWith find ps p).length]
  | a, [] => rfl
  | a, q :: ps => by
      rw [List.cons_append, starts, starts_concat find p, starts, joinWith_cons,
        List.length_append, List.length_append]
      simp only [List.cons_append, Nat.add_assoc]

/-- With room for all of them, no occurrence is left in the rest. -/
theorem search_splitN_rest {find : List α} (hfind : find ≠ []) : ∀ {n : Nat} {t : List α},
    t.length < n → search find (splitN find n t).2 = none
  | 0, t, h => absurd h (Nat.not_lt_zero _)
  | n + 1, t, h => by
      have hpos := List.length_pos_of_ne_nil hfind
      cases hs : search find t with
      | none => rwa [splitN_succ_none hs]
      | some i =>
          have hlen := search_lt hs
          rw [splitN_succ_some hs]
          exact search_splitN_rest hfind (by rw [List.length_drop]; omega)

/-! ## All occurrences -/

/-- Every leftmost, non-overlapping occurrence replaced. -/
def replaceAll (find rplc t : List α) : List α := replaceN find rplc t.length t

/-- The number of leftmost, non-overlapping occurrences. -/
def countAll (find t : List α) : Nat := countN find t.length t

theorem replaceN_eq_replaceAll {find t : List α} (hfind : find ≠ []) (rplc : List α) {n : Nat}
    (hn : t.length ≤ n) : replaceN find rplc n t = replaceAll find rplc t := by
  rw [replaceAll, replaceN, replaceN, splitN_eq_of_le hfind hn (Nat.le_refl _)]

theorem countN_eq_countAll {find t : List α} (hfind : find ≠ []) {n : Nat}
    (hn : t.length ≤ n) : countN find n t = countAll find t := by
  rw [countAll, countN, countN, splitN_eq_of_le hfind hn (Nat.le_refl _)]

/-- The text in pieces: all occurrences replaced is the pieces joined
again. -/
theorem exists_pieces {find : List α} (hfind : find ≠ []) (t : List α) :
    ∃ ps r, splitN find (t.length + 1) t = (ps, r) ∧ joinWith find ps r = t ∧
      (∀ rplc, replaceAll find rplc t = joinWith rplc ps r) ∧ countAll find t = ps.length ∧
      Cuts find ps r ∧ search find r = none :=
  ⟨(splitN find (t.length + 1) t).1, (splitN find (t.length + 1) t).2, rfl,
    joinWith_splitN find (t.length + 1) t,
    fun rplc => (replaceN_eq_replaceAll hfind rplc (Nat.le_succ _)).symm,
    (countN_eq_countAll hfind (Nat.le_succ _)).symm, cuts_splitN find (t.length + 1) t,
    search_splitN_rest hfind (Nat.lt_succ_self _)⟩

theorem countAll_of_search_none {find t : List α} (h : search find t = none) :
    countAll find t = 0 := by
  rw [countAll]
  cases t.length with
  | zero => rfl
  | succ n => exact countN_succ_none h

theorem countAll_of_search_some {find t : List α} (hfind : find ≠ []) {i : Nat}
    (h : search find t = some i) : countAll find t = countAll find (t.drop (i + find.length)) + 1 := by
  have hpos := List.length_pos_of_ne_nil hfind
  have hlen := search_lt h
  obtain ⟨n, hn⟩ : ∃ n, t.length = n + 1 := ⟨t.length - 1, by omega⟩
  rw [countAll, hn, countN_succ_some h, countN_eq_countAll hfind]
  rw [List.length_drop]
  omega

/-- The bound on their number is all that tells `countN` from `countAll`. -/
theorem countN_eq_min {find : List α} (hfind : find ≠ []) : ∀ (n : Nat) (t : List α),
    countN find n t = min n (countAll find t)
  | 0, t => by rw [Nat.zero_min]; rfl
  | n + 1, t => by
      cases h : search find t with
      | none => rw [countN_succ_none h, countAll_of_search_none h, Nat.min_zero]
      | some i =>
          rw [countN_succ_some h, countAll_of_search_some hfind h, countN_eq_min hfind,
            Nat.succ_min_succ]

/-- Before its leftmost occurrence a letter does not occur. -/
theorem not_mem_take_of_search {c : α} {t : List α} {i : Nat} (h : search [c] t = some i) :
    c ∉ t.take i := by
  intro hmem
  obtain ⟨k, hk, hget⟩ := List.mem_iff_getElem.mp hmem
  rw [List.length_take] at hk
  rw [List.getElem_take] at hget
  refine (search_eq_some_iff.mp h).2 k (by omega) ⟨by simp only [List.length_singleton]; omega, ?_⟩
  intro j hj
  obtain rfl : j = 0 := by simpa using hj
  rw [Nat.add_zero, List.getElem?_eq_getElem (by omega), hget]
  rfl

theorem not_mem_of_search_none {c : α} {t : List α} (h : search [c] t = none) : c ∉ t := by
  intro hmem
  obtain ⟨k, hk, hget⟩ := List.mem_iff_getElem.mp hmem
  refine search_eq_none_iff.mp h k ⟨by simp only [List.length_singleton]; omega, ?_⟩
  intro j hj
  obtain rfl : j = 0 := by simpa using hj
  rw [Nat.add_zero, List.getElem?_eq_getElem hk, hget]
  rfl

/-- Cut at a letter, no piece contains it. -/
theorem not_mem_of_cuts {c : α} : ∀ {ps : List (List α)} {r : List α}, Cuts [c] ps r →
    ∀ p ∈ ps, c ∉ p
  | [], _, _ => fun p hp => absurd hp List.not_mem_nil
  | q :: ps, r, ⟨hq, hcuts⟩ => by
      intro p hp
      rcases List.mem_cons.mp hp with rfl | hps
      · have := not_mem_take_of_search hq
        rwa [joinWith_cons, List.append_assoc, List.take_left] at this
      · exact not_mem_of_cuts hcuts p hps

/-- Occurrences of a letter do not overlap. -/
theorem countAll_singleton (c : α) (t : List α) : countAll [c] t = t.count c := by
  induction hn : t.length using Nat.strong_induction_on generalizing t with
  | _ n ih =>
      cases h : search [c] t with
      | none =>
          rw [countAll_of_search_none h, List.count_eq_zero_of_not_mem (not_mem_of_search_none h)]
      | some i =>
          obtain ⟨hsplit, -⟩ := eq_append_of_search h
          have hlen := search_lt h
          have hlt : (t.drop (i + 1)).length < n := by
            rw [List.length_singleton] at hlen
            rw [List.length_drop]
            omega
          rw [countAll_of_search_some (List.cons_ne_nil _ _) h, List.length_singleton,
            ih _ hlt _ rfl]
          conv_rhs => rw [hsplit]
          rw [List.count_append, List.count_append, List.length_singleton,
            List.count_eq_zero_of_not_mem (not_mem_take_of_search h), List.count_singleton_self]
          omega

end Words
