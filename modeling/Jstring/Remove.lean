import Jstring.Regex
import Jstring.Rplcspn
import Jstring.Numbers

/-!
# Removing the first occurrence

`jstr_rm_len_from_exec` and its wrappers of `include/replace.h`. They remove
one occurrence by `jstr_rmat_len_p`, with no cursors; `jstr_rmn_len_from_exec`
told to remove one leaves the same text (`removals`). Removing the first
occurrence until there is none is another thing than removing all of them,
since what comes together may be an occurrence: the loop ends at the first text
without one, and for a single byte it does leave what `jstr_rmallchr_len`
leaves. The needle is compiled once for all turns.
-/

namespace Jstr

open Words Iterators

/-- `jstr_rm_len_from_exec`. It does not check the index as the other functions
do; nothing is found at a null pointer. -/
def rmLenFromExec (cfg : Build) (env : Mem) (t : TwowayTy) (j : JstrTy)
    (startIdx find findLen : Nat) : Run (Nat × JstrTy) :=
  if findLen = 0 then .ok (0, j)
  else
    match j.data with
    | none => .ok (0, j)
    | some b => do
      match ← memmemExec cfg (b.over env) t (b.addr + startIdx) (subSz j.size startIdx) find
          findLen with
      | none => .ok (0, j)
      | some p => do
        let (b', e) ← rmatLenP b j.size (p - b.addr) findLen
        .ok (1, { j with data := some b', size := e - b.addr })

/-- `jstr_rm_len_exec`. -/
def rmLenExec (cfg : Build) (env : Mem) (t : TwowayTy) (j : JstrTy) (find findLen : Nat) :
    Run (Nat × JstrTy) :=
  rmLenFromExec cfg env t j 0 find findLen

/-- `jstr_rm_len_from`. -/
def rmLenFrom (cfg : Build) (env : Mem) (j : JstrTy) (startIdx find findLen : Nat) :
    Run (Nat × JstrTy) := do
  let t ← memmemComp cfg env cfg.uninitTable find findLen
  rmLenFromExec cfg env t j startIdx find findLen

/-- `jstr_rm_len`. -/
def rmLen (cfg : Build) (env : Mem) (j : JstrTy) (find findLen : Nat) : Run (Nat × JstrTy) :=
  rmLenFrom cfg env j 0 find findLen

/-! ## One call -/

section Remove

variable {cfg : Build} {env : Mem} {t : TwowayTy} {j : JstrTy} {s FIND : Bytes} {start find : Nat}

/-- The first occurrence from the index on is removed, and the needle stays
where it is. -/
theorem rmLenFromExec_spec (hs : Str j s) (hf : Needle cfg env j t find FIND)
    (hstart : start ≤ s.length) :
    ∃ j', rmLenFromExec cfg env t j start find FIND.length
        = .ok (countN FIND 1 (s.drop start), j') ∧
      Str j' (s.take start ++ replaceN FIND [] 1 (s.drop start)) ∧
      Needle cfg env j' t find FIND := by
  obtain ⟨b, hd, hcap, hsz, hat⟩ := hs
  have hneedle : MemAt (b.over env) find FIND := memAt_over_of_apart hf.mem (hf.apart b hd)
  have hrest : MemAt (b.over env) (b.addr + start) (s.drop start) :=
    memAt_over (hat.left.drop hstart)
  have hfound := memmemExec_prepared hf.prepared hrest hneedle
  rw [List.length_drop] at hfound
  have hpos : FIND.length ≠ 0 := fun h => hf.ne_nil (List.length_eq_zero_iff.mp h)
  rw [rmLenFromExec, if_neg hpos, hd]
  simp only [hsz, subSz_eq hstart, hfound, bind, Except.bind]
  cases hk : search FIND (s.drop start) with
  | none =>
      rw [countN_succ_none hk, replaceN_succ_none hk, List.take_append_drop]
      exact ⟨j, rfl, ⟨b, hd, hcap, hsz, hat⟩, hf⟩
  | some k =>
      have hin := search_lt hk
      rw [List.length_drop] at hin
      obtain ⟨b', hrm, hst⟩ := @rmatLenP_spec b s (start + k) FIND.length hat (by omega)
      have hidx : b.addr + start + k - b.addr = start + k := by omega
      simp only [Option.map_some, hidx, hrm, Nat.add_sub_cancel_left]
      rw [countN_succ_some hk, replaceN_succ_some hk]
      refine ⟨_, rfl, ?_, hf.prepared, hf.mem, hf.ne_nil, ?_⟩
      · have htext : s.take start ++ ((s.drop start).take k ++ [] ++
            replaceN FIND [] 0 ((s.drop start).drop (k + FIND.length)))
            = s.take (start + k) ++ s.drop (start + k + FIND.length) := by
          rw [List.append_nil, replaceN_zero, List.drop_drop, ← List.append_assoc, List.take_add,
            Nat.add_assoc]
        rw [htext]
        exact hst.str hcap
      · intro b'' hb''
        obtain rfl := Option.some.inj hb''
        exact (hf.apart b hd).same ⟨hst.addr, hst.size⟩

/-- Compiling the needle anew makes no difference. -/
theorem rmLenFrom_eq (hs : Str j s) (hf : Needle cfg env j t find FIND)
    (hstart : start ≤ s.length) :
    rmLenFrom cfg env j start find FIND.length
      = rmLenFromExec cfg env t j start find FIND.length := by
  obtain ⟨b, hd, -, hsz, hat⟩ := hs
  have hneedle : MemAt (b.over env) find FIND := memAt_over_of_apart hf.mem (hf.apart b hd)
  have hrest : MemAt (b.over env) (b.addr + start) (s.drop start) :=
    memAt_over (hat.left.drop hstart)
  obtain ⟨t', hcomp, ht'⟩ := memmemComp_prepared cfg hf.mem cfg.uninitTable
  have hfound := memmemExec_prepared hf.prepared hrest hneedle
  have hfound' := memmemExec_prepared ht' hrest hneedle
  rw [List.length_drop] at hfound hfound'
  rw [rmLenFrom, hcomp]
  simp only [bind, Except.bind, rmLenFromExec, hd, hsz, subSz_eq hstart, hfound, hfound']

/-! ## Until there is none -/

/-- The text without its first occurrence. -/
def withoutFirst (find l : Bytes) : Bytes := replaceN find [] 1 l

theorem length_withoutFirst {l : Bytes} (h : search FIND l ≠ none) :
    (withoutFirst FIND l).length + FIND.length = l.length := by
  obtain ⟨k, hk⟩ := Option.ne_none_iff_exists'.mp h
  have hlen := length_replaceN FIND [] 1 l
  rw [countN_succ_some hk] at hlen
  have hzero : countN FIND 0 (l.drop (k + FIND.length)) = 0 := rfl
  rw [hzero, List.length_nil] at hlen
  rw [withoutFirst]
  omega

/-- As often as there was an occurrence, as much shorter. -/
theorem length_iterate_withoutFirst : ∀ {k : Nat} {l : Bytes},
    (∀ i < k, search FIND ((withoutFirst FIND)^[i] l) ≠ none) →
      ((withoutFirst FIND)^[k] l).length + k * FIND.length = l.length
  | 0, l, _ => by
      rw [Nat.zero_mul]
      rfl
  | k + 1, l, h => by
      have hfirst := length_withoutFirst (h 0 (Nat.succ_pos k))
      have hrest := length_iterate_withoutFirst (k := k) (l := withoutFirst FIND l)
        fun i hi => h (i + 1) (Nat.succ_lt_succ hi)
      rw [Function.iterate_succ_apply, Nat.succ_mul]
      rw [Function.iterate_zero_apply] at hfirst
      omega

/-- One byte less is nothing to a filter that drops it. -/
theorem filter_removeN (c : UInt8) : ∀ (n : Nat) (l : Bytes),
    (removeN c n l).filter (· ≠ c) = l.filter (· ≠ c)
  | n, [] => by
      cases n <;> rfl
  | 0, _ :: _ => rfl
  | n + 1, x :: l => by
      rw [removeN]
      by_cases hx : x = c
      · rw [if_pos hx, filter_removeN c n l, List.filter_cons, if_neg (by simpa using hx)]
      · rw [if_neg hx, List.filter_cons, List.filter_cons, filter_removeN c (n + 1) l]

theorem filter_iterate_withoutFirst (c : UInt8) : ∀ (k : Nat) (l : Bytes),
    ((withoutFirst [c])^[k] l).filter (· ≠ c) = l.filter (· ≠ c)
  | 0, _ => rfl
  | k + 1, l => by
      rw [Function.iterate_succ_apply, filter_iterate_withoutFirst c k, withoutFirst,
        (replaceN_singleton c 1 l).1, filter_removeN]

/-- The loop over a record that holds a text and does not cover the needle. -/
theorem rmLenExec_drains (hs : Str j s) (hf : Needle cfg env j t find FIND) :
    ∃ k j', Drains (whileChanged fun j => rmLenExec cfg env t j find FIND.length) j
        (List.replicate k 1) j' ∧
      Str j' ((withoutFirst FIND)^[k] s) ∧ search FIND ((withoutFirst FIND)^[k] s) = none ∧
      ∀ i < k, search FIND ((withoutFirst FIND)^[i] s) ≠ none := by
  have hstep : ∀ j l, Str j l ∧ Needle cfg env j t find FIND →
      ∃ j', rmLenExec cfg env t j find FIND.length = .ok (countN FIND 1 l, j') ∧
        Str j' (withoutFirst FIND l) ∧ Needle cfg env j' t find FIND := by
    rintro j l ⟨hl, hn⟩
    have hrun := rmLenFromExec_spec hl hn (Nat.zero_le l.length)
    rwa [List.drop_zero, List.take_zero, List.nil_append] at hrun
  have hdone : ∀ j l, Str j l ∧ Needle cfg env j t find FIND → search FIND l = none →
      whileChanged (fun j => rmLenExec cfg env t j find FIND.length) j = .ok none := by
    intro j l hl hnone
    obtain ⟨j', hrun, -⟩ := hstep j l hl
    rw [countN_succ_none hnone] at hrun
    exact whileChanged_zero hrun
  have hmore : ∀ j l, Str j l ∧ Needle cfg env j t find FIND → ¬search FIND l = none →
      ∃ j', whileChanged (fun j => rmLenExec cfg env t j find FIND.length) j
          = .ok (some (1, j')) ∧
        (Str j' (withoutFirst FIND l) ∧ Needle cfg env j' t find FIND) ∧
        (withoutFirst FIND l).length < l.length := by
    intro j l hl hsome
    obtain ⟨j', hrun, hj'⟩ := hstep j l hl
    obtain ⟨i, hi⟩ := Option.ne_none_iff_exists'.mp hsome
    rw [countN_succ_some hi] at hrun
    have hlen := length_withoutFirst hsome
    have hpos := List.length_pos_of_ne_nil hf.ne_nil
    exact ⟨j', whileChanged_pos hrun (Nat.succ_pos _), hj', by omega⟩
  obtain ⟨k, j', hdrains, hj', hnone, hleast⟩ :=
    drains_iterate List.length hdone hmore (s.length + 1) (Nat.lt_succ_self _) ⟨hs, hf⟩
  exact ⟨k, j', hdrains, hj'.1, hnone, hleast⟩

/-- Removing one occurrence by either function, with the needle compiled now or before, leaves
one text and returns whether there was one. Called until it returns 0, the loop ends at the
first text without an occurrence, shorter by the needle for each call; for a single byte that
text is the one, and the number of calls the number, of removing all at once. -/
theorem removals (hs : Str j s) (h0 : 0 ∉ s) (hf : Needle cfg env j t find FIND)
    (hfit : s.length ≤ sizeMax) :
    (∀ start ≤ s.length,
      rmLenFrom cfg env j start find FIND.length
          = rmLenFromExec cfg env t j start find FIND.length ∧
        ∃ n j' j'' l, rmLenFromExec cfg env t j start find FIND.length = .ok (n, j') ∧
          rmnLenFromExec cfg env t j start find FIND.length 1 = .ok (n, j'') ∧
          Str j' l ∧ Str j'' l) ∧
    rmLen cfg env j find FIND.length = rmLenExec cfg env t j find FIND.length ∧
    ∃ k j' l, Drains (whileChanged fun j => rmLenExec cfg env t j find FIND.length) j
        (List.replicate k 1) j' ∧
      Str j' l ∧ l = (withoutFirst FIND)^[k] s ∧ (∀ i, ¬OccursAt FIND l i) ∧
      (∀ i < k, ∃ p, OccursAt FIND ((withoutFirst FIND)^[i] s) p) ∧
      l.length + k * FIND.length = s.length ∧
      ∀ c, FIND = [c] → ∃ j'', rmallchrLen env j c = .ok (k, j'') ∧ Str j'' l := by
  refine ⟨fun start hstart => ?_, rmLenFrom_eq hs hf (Nat.zero_le _), ?_⟩
  · obtain ⟨j', hrm, hj', -⟩ := rmLenFromExec_spec hs hf hstart
    obtain ⟨j'', hrmn, hj''⟩ := rmnLenFromExec_spec hs h0 hf start 1
    exact ⟨rmLenFrom_eq hs hf hstart, _, j', j'', _, hrm, hrmn, hj', hj''⟩
  · obtain ⟨k, j', hdrains, hj', hnone, hleast⟩ := rmLenExec_drains hs hf
    have hlen := length_iterate_withoutFirst hleast
    refine ⟨k, j', _, hdrains, hj', rfl, search_eq_none_iff.mp hnone, fun i hi => ?_, hlen, ?_⟩
    · by_contra hnot
      exact hleast i hi (search_eq_none_iff.mpr fun p hp => hnot ⟨p, hp⟩)
    · rintro c rfl
      have hno := not_mem_of_search_none hnone
      have hkeeps : ∀ x ∈ (withoutFirst [c])^[k] s, decide (x ≠ c) = true := by
        intro x hx
        exact decide_eq_true fun hxc => hno (hxc ▸ hx)
      have hfilter := filter_iterate_withoutFirst c k s
      rw [List.filter_eq_self.mpr hkeeps] at hfilter
      obtain ⟨n, j'', hrun, hj'', hn⟩ := rmallchrLen_spec hs h0 hfit c
      rw [← hfilter] at hj''
      rw [hj''.content.size, hs.content.size] at hn
      rw [List.length_singleton] at hlen
      obtain rfl : n = k := by omega
      exact ⟨j'', hrun, hj''⟩

end Remove

/-- The needle "ab" of "aabb", compiled: two calls remove it, one pass would remove one. -/
theorem removals_aabb : ∃ t, memmemComp sse2Build (memOf [97, 98]) sse2Build.uninitTable 0 2
      = .ok t ∧
    ∃ k j' l, Drains (whileChanged fun j => rmLenExec sse2Build (memOf [97, 98]) t j 0 2)
        ⟨some ⟨64, [97, 97, 98, 98, 0]⟩, 4, 5⟩ (List.replicate k 1) j' ∧
      Str j' l ∧ l.length + k * 2 = 4 := by
  have hmem : MemAt (memOf [97, 98]) 0 ([97, 98] : Bytes) := by decide
  obtain ⟨t, hcomp, ht⟩ := memmemComp_prepared sse2Build hmem sse2Build.uninitTable
  have hs : Str ⟨some ⟨64, [97, 97, 98, 98, 0]⟩, 4, 5⟩ ([97, 97, 98, 98] : Bytes) :=
    ⟨_, rfl, by decide, by decide, ⟨by decide, by decide⟩⟩
  have hneedle : Needle sse2Build (memOf [97, 98]) ⟨some ⟨64, [97, 97, 98, 98, 0]⟩, 4, 5⟩ t 0
      ([97, 98] : Bytes) := by
    refine ⟨ht, hmem, by decide, fun b hb => ?_⟩
    cases hb
    exact .inl (by decide)
  obtain ⟨-, -, k, j', l, hdrains, hj', -, -, -, hlen, -⟩ :=
    removals hs (by decide) hneedle (by decide)
  exact ⟨t, hcomp, k, j', l, hdrains, hj', hlen⟩

end Jstr
