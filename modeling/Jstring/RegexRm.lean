import Jstring.Regex

/-!
# Removing what a regular expression matches

The search made while a text is being rewritten, what both loops do with a
match, and `jstr_re_rmn_from_exec`.

- `reSearch_eq`: the answer is that on the unchanged text, as long as the
  text is unchanged from the byte before the place on;
- `Compact`: the text while it is compacted in place;
- `reRmnFromExec_ends`: the matches are cut out of the text.
-/

namespace Jstr

open Splice

/-! ## The search -/

section Search

variable {env : Mem} {re : ReTy} {fl : Eflags} {b : Blk} {t : Bytes} {pos : Nat}

theorem strlen_of_zero {mem : Mem} {p : Nat} (h : mem p = 0) : strlen mem p = .ok 0 := by
  rw [strlen, @scan_eq _ mem 0 _ p (by simp [h]) (fun i hi => absurd hi (Nat.not_lt_zero i))
    (Nat.succ_pos _)]
  simp [bind, Except.bind, pure, Except.pure]

theorem reExecLen_eq {mem : Mem} {p : Nat} {w : Bytes} (h : MemAt mem p (w ++ [0])) :
    reExecLen re mem p w.length fl = .ok (re.regexec w fl) := by
  obtain ⟨hw, h0⟩ := memAt_append.mp h
  rw [reExecLen]
  split
  · rename_i hlen
    obtain rfl := List.length_eq_zero_iff.mp hlen
    have hz : mem p = 0 := memAt_head h0 rfl
    rw [strlen_of_zero hz]
    rfl
  · rw [window_of_memAt hw]

/-- The text unchanged from the byte before `pos` on, a search from `pos`
gets the answer on the unchanged text. -/
theorem reSearch_eq (hat : b.At (b.addr + (pos - 1)) (t.drop (pos - 1) ++ [0]))
    (hpos : pos ≤ t.length) :
    reSearch re env fl b (b.addr + t.length) (b.addr + pos) = .ok (re.answer fl t pos) := by
  have hmem := @memAt_over env b _ _ hat
  have hflag : notbol (b.over env) b.addr pos re.newline
      = decide (pos ≠ 0 ∧ ¬(re.newline = true ∧ t[pos - 1]? = some newlineChr)) := by
    rw [notbol]
    by_cases h0 : pos = 0
    · simp [h0]
    · have hget : t[pos - 1]? = some (b.over env (b.addr + pos - 1)) := by
        have := hmem.getElem? (show 0 < (t.drop (pos - 1) ++ [0]).length by simp)
        rw [List.getElem?_append_left (by rw [List.length_drop]; omega), List.getElem?_drop] at this
        rw [Nat.add_sub_assoc (by omega)]
        exact this
      rw [if_pos h0, hget]
      by_cases hn : re.newline = true ∧ b.over env (b.addr + pos - 1) = newlineChr
      · simp [hn]
      · rw [if_neg hn]
        simp only [Option.some.injEq, h0, ne_eq, not_false_eq_true, hn, and_self, decide_true]
  have hw : MemAt (b.over env) (b.addr + pos) (t.drop pos ++ [0]) := by
    rcases Nat.eq_zero_or_pos pos with rfl | hp
    · exact hmem
    · have hdrop := hmem.drop (show 1 ≤ (t.drop (pos - 1) ++ [0]).length by simp)
      rw [List.drop_append_of_le_length (by rw [List.length_drop]; omega), List.drop_drop,
        Nat.add_assoc, Nat.sub_add_cancel hp] at hdrop
      exact hdrop
  rw [reSearch, ReTy.answer, ReTy.flagsAt, Nat.add_sub_cancel_left, hflag,
    show b.addr + t.length - (b.addr + pos) = (t.drop pos).length by rw [List.length_drop]; omega]
  exact reExecLen_eq hw

end Search

/-! ## One match -/

section Put

variable {b : Blk} {t : Bytes} {f : Found} {dst src : Nat} {piece x : Bytes}

/-- Copying the byte behind an empty match. -/
theorem skipByte_eq (hat : b.At (b.addr + f.stop) (t.drop f.stop ++ [0]))
    (hstop : f.stop ≤ t.length) (hin : b.InRange dst (f.skipped t).length) :
    skipByte b dst (b.addr + f.stop) (b.addr + t.length) (f.rm.whole.eo - f.rm.whole.so)
      = .ok (b.put dst (f.skipped t), dst + (f.skipped t).length, b.addr + f.next t.length) := by
  have hlen := f.length_skipped hstop
  rw [skipByte]
  by_cases hskip : f.empty = true ∧ f.stop < t.length
  · have hnext : f.next t.length = f.stop + 1 := if_pos hskip
    have hbyte : f.skipped t = [t.get ⟨f.stop, hskip.2⟩] := by
      rw [Found.skipped, hnext, Nat.add_sub_cancel_left, List.drop_eq_getElem_cons hskip.2]
      rfl
    have hcons : t.drop f.stop = f.skipped t ++ t.drop (f.stop + 1) := by
      rw [hbyte, List.drop_eq_getElem_cons hskip.2]
      rfl
    rw [hcons, List.append_assoc] at hat
    rw [hbyte] at hat hin ⊢
    rw [if_pos ⟨by simpa [Found.empty] using hskip.1, by omega⟩, Blk.read_eq hat.left]
    simp only [bind, Except.bind, Blk.write_eq hin, hnext, List.length_singleton, Nat.add_assoc]
  · have hnext : f.next t.length = f.stop := if_neg hskip
    have hnil : f.skipped t = [] := by
      rw [← List.length_eq_zero_iff, hlen, hnext, Nat.sub_self]
    rw [if_neg (fun h => hskip ⟨by simpa [Found.empty] using h.1, by omega⟩), hnil, Blk.put_nil,
      hnext]
    rfl

/-- A match processed: `piece` before it copied, `x` put in its place, and
the byte behind it, all to `dst`. The text behind the match is not
touched. -/
theorem putMatch_eq {put : Blk → Nat → Run (Blk × Nat)}
    (hpiece : b.At (b.addr + src) piece) (hsrc : src + piece.length = f.start)
    (hrest : b.At (b.addr + f.stop) (t.drop f.stop ++ [0])) (hstop : f.stop ≤ t.length)
    (hput : put (b.put dst piece) (dst + piece.length)
      = .ok (b.put dst (piece ++ x), dst + (piece ++ x).length))
    (hin : b.InRange dst (piece ++ x ++ f.skipped t).length)
    (hapart : dst + (piece ++ x).length ≤ b.addr + f.stop ∨ b.addr + t.length < dst) :
    putMatch put (b.addr + t.length) f.rm.whole b ⟨dst, b.addr + src, b.addr + f.pos⟩
      = .ok (b.put dst (piece ++ (x ++ f.skipped t)),
          ⟨dst + (piece ++ (x ++ f.skipped t)).length, b.addr + f.next t.length,
            b.addr + f.next t.length⟩) := by
  obtain ⟨hlo, hhi⟩ := hin
  rw [List.length_append] at hhi
  have hpre : mempmove b dst (b.addr + src) piece.length
      = .ok (b.put dst piece, dst + piece.length) := by
    refine mempmove_eq hpiece rfl ⟨hlo, ?_⟩
    rw [List.length_append] at hhi
    omega
  have hrest' : (b.put dst (piece ++ x)).At (b.addr + f.stop) (t.drop f.stop ++ [0]) := by
    refine hrest.put_of_disjoint ?_
    rw [List.length_append, List.length_drop, List.length_singleton]
    omega
  have hskip := @skipByte_eq (b.put dst (piece ++ x)) t f (dst + (piece ++ x).length) hrest' hstop
    ⟨by rw [Memory.Block.put_addr]; omega,
      by rw [Memory.Block.put_addr, Memory.Block.put_size]; omega⟩
  have hprev : b.addr + f.pos + f.rm.whole.so - (b.addr + src) = piece.length := by
    have : f.start = f.pos + f.rm.whole.so := rfl
    omega
  have heo : b.addr + f.pos + f.rm.whole.eo = b.addr + f.stop := Nat.add_assoc _ _ _
  rw [Memory.Block.put_addr, Memory.Block.put_append, List.append_assoc] at hskip
  rw [putMatch]
  simp only [hprev, hpre, bind, Except.bind, hput, heo, hskip]
  rw [← List.append_assoc, @List.length_append _ (piece ++ x),
    Nat.add_assoc]

end Put

/-! ## Removing in place -/

/-- `out` is written at the start of the block, the text behind it is not
touched, and the part from `src` on is still to be read. Where nothing has
been removed `out` is the text. -/
structure Compact (b : Blk) (t out : Bytes) (src : Nat) : Prop where
  content : b.At b.addr (out ++ (t.drop out.length ++ [0]))
  below : out.length ≤ src
  fits : src ≤ t.length
  same : out.length = src → out = t.take src

section Compact

variable {b : Blk} {t out : Bytes} {src k : Nat}

theorem Compact.rest (h : Compact b t out src) (hk : out.length ≤ k) (hkt : k ≤ t.length) :
    b.At (b.addr + k) (t.drop k ++ [0]) := by
  have := h.content.right.drop (show k - out.length ≤ (t.drop out.length ++ [0]).length by
    rw [List.length_append, List.length_drop]
    omega)
  rwa [List.drop_append_of_le_length (by rw [List.length_drop]; omega), List.drop_drop,
    Nat.add_sub_cancel' hk, Nat.add_assoc, Nat.add_sub_cancel' hk] at this

/-- The byte looked at behind is that of the text, too. -/
theorem Compact.lookBehind (h : Compact b t out src) (hk : src ≤ k) (hkt : k ≤ t.length) :
    b.At (b.addr + (k - 1)) (t.drop (k - 1) ++ [0]) := by
  have hbelow := h.below
  rcases Nat.lt_or_ge out.length k with hlt | hge
  · exact h.rest (by omega) (by omega)
  · have hlen : out.length = src := by omega
    have hcontent := h.content
    rw [h.same hlen, List.length_take, Nat.min_eq_left (by omega), ← List.append_assoc,
      List.take_append_drop] at hcontent
    have := hcontent.drop (show k - 1 ≤ (t ++ [0]).length by rw [List.length_append]; omega)
    rwa [List.drop_append_of_le_length (by omega)] at this

/-- More of the text written, or what replaces a part of it. -/
theorem Compact.put {l : Bytes} (h : Compact b t out src) (hl : out.length + l.length ≤ k)
    (hk : k ≤ t.length) (hsame : out.length + l.length = k → out ++ l = t.take k) :
    Compact (b.put (b.addr + out.length) l) t (out ++ l) k where
  content := by
    have hmid : t.drop out.length = (t.drop out.length).take l.length
        ++ t.drop (out ++ l).length := by
      conv_lhs => rw [← List.take_append_drop l.length (t.drop out.length)]
      rw [List.drop_drop, List.length_append]
    have hcontent := h.content
    rw [hmid, List.append_assoc, ← List.append_assoc] at hcontent
    exact hcontent.put_mid (by rw [List.length_take, List.length_drop]; omega)
  below := by rwa [List.length_append]
  fits := hk
  same := by rwa [List.length_append]

theorem take_append_take_drop (hle : src ≤ k) : t.take src ++ (t.drop src).take (k - src)
    = t.take k := by
  rw [← List.take_add, Nat.add_sub_cancel' hle]

/-- One match removed. -/
theorem Compact.remove {f : Found} (h : Compact b t out src) (hsrc : src ≤ f.start)
    (hle : f.start ≤ f.stop) (hstop : f.stop ≤ t.length) :
    ∃ b', putMatch (fun b dst => .ok (b, dst)) (b.addr + t.length) f.rm.whole b
        ⟨b.addr + out.length, b.addr + src, b.addr + f.pos⟩
        = .ok (b', ⟨b.addr + (out ++ f.written (fun _ => []) t src).length,
            b.addr + f.next t.length, b.addr + f.next t.length⟩) ∧
      SameBlock b b' ∧ Compact b' t (out ++ f.written (fun _ => []) t src) (f.next t.length) := by
  have hbelow := h.below
  have hnext := f.stop_le_next t.length
  have hfits := Found.next_le hstop
  have hwritten := @Found.length_written t (fun _ => []) f src hsrc hle hstop
  have hlen : ((t.drop src).take (f.start - src)).length = f.start - src := by
    rw [List.length_take, List.length_drop]
    omega
  rw [List.length_nil, Nat.zero_add] at hwritten
  have hin := h.content.inRange.2
  rw [List.length_append, List.length_append, List.length_drop] at hin
  have hput := @putMatch_eq b t f (b.addr + out.length) src ((t.drop src).take (f.start - src)) []
    (fun b dst => .ok (b, dst))
    ((h.rest hbelow h.fits).left.take _) (by omega) (h.rest (by omega) hstop) hstop
    (by rw [List.append_nil])
    ⟨Nat.le_add_right _ _, by
      rw [List.append_assoc]
      show b.addr + out.length + (f.written (fun _ => []) t src).length ≤ _
      omega⟩
    (.inl (by simp only [List.append_nil, hlen]; omega))
  refine ⟨_, ?_, sameBlock_put b _ _, h.put ?_ hfits fun hl => ?_⟩
  · rw [hput, ← Found.written.eq_def (fun _ => []) t src f, List.length_append, Nat.add_assoc]
  · rw [hwritten]
    omega
  · -- nothing removed: the match is empty, and nothing was before
    rw [hwritten] at hl
    have hsame := h.same (by omega)
    rw [hsame, Found.written, List.nil_append, ← List.append_assoc, take_append_take_drop hsrc,
      show f.start = f.stop by omega, Found.skipped, take_append_take_drop hnext]

end Compact

theorem stopsAt_iff {a pos n : Nat} {z : Bool} (hpos : pos ≤ n) :
    stopsAt (a + pos) (a + n) z ↔ pos = n ∧ z = false := by
  constructor
  · rintro (⟨h, hz⟩ | h)
    · exact ⟨by omega, hz⟩
    · omega
  · rintro ⟨rfl, hz⟩
    exact .inl ⟨rfl, hz⟩

/-- What a loop that has changed `changed` matches returns. -/
def outcome (changed : Nat) (q : List Found × Option ReErr) : ReOff :=
  match q.2 with
  | none => .changed (changed + q.1.length)
  | some e => .neg e

theorem outcome_cons (changed : Nat) (f : Found) (q : List Found × Option ReErr) :
    outcome changed (f :: q.1, q.2) = outcome (changed + 1) q := by
  rw [outcome, outcome]
  cases q.2 with
  | none =>
      simp only [List.length_cons]
      congr 1
      omega
  | some e => rfl

theorem outcome_of_error {n start : Nat} {e : ReErr} (he : reError re fl t n start = some e) :
    outcome 0 (reRun re fl t n start true) = .neg e := by
  rw [outcome, show (reRun re fl t n start true).2 = some e from he]

theorem outcome_of_done {n start : Nat} (he : reError re fl t n start = none) :
    outcome 0 (reRun re fl t n start true) = .changed (reMatches re fl t n start).length := by
  rw [outcome, show (reRun re fl t n start true).2 = none from he]
  simp only [Nat.zero_add]
  rfl

section Remove

variable {env : Mem} {re : ReTy} {fl : Eflags} {t : Bytes}

/-- What the loop returns: the text without the matches is written, up to
where they end or an error is met. -/
def Removed (t out : Bytes) (src : Nat) (b : Blk) (changed : Nat) (q : List Found × Option ReErr)
    (r : Run (Blk × Inplace × ReOff)) : Prop :=
  ∃ b' i, r = .ok (b', i, outcome changed q) ∧ SameBlock b b' ∧
    Compact b' t (out ++ built (fun _ => []) t src q.1) (resume t.length src q.1) ∧
    i.dst = b.addr + (out ++ built (fun _ => []) t src q.1).length ∧
    i.src = b.addr + resume t.length src q.1

theorem removed_nil {b : Blk} {out : Bytes} {src pos changed : Nat} (e : Option ReErr)
    (h : Compact b t out src) : Removed t out src b changed ([], e)
      (.ok (b, ⟨b.addr + out.length, b.addr + src, b.addr + pos⟩, outcome changed ([], e))) := by
  rw [Removed, built, List.append_nil]
  exact ⟨b, _, rfl, SameBlock.refl b, h, rfl, rfl⟩

theorem rmnLoop_spec (hre : re.Sound) : ∀ (n : Nat) {b : Blk} {out : Bytes} {src pos : Nat}
    (changed : Nat) (z : Bool), Compact b t out src → src ≤ pos → pos ≤ t.length →
    Removed t out src b changed (reRun re fl t n pos z)
      (rmnLoop env re fl (b.addr + t.length) n b
        ⟨b.addr + out.length, b.addr + src, b.addr + pos⟩ z changed) := by
  intro n
  induction n with
  | zero => intro b out src pos changed z h _ _; exact removed_nil none h
  | succ n ih =>
      intro b out src pos changed z h hsrc hpos
      rw [rmnLoop]
      by_cases hstop : pos = t.length ∧ z = false
      · rw [if_pos ((stopsAt_iff hpos).mpr hstop), reRun_stop hstop]
        exact removed_nil none h
      rw [if_neg fun hs => hstop ((stopsAt_iff hpos).mp hs),
        reSearch_eq (h.lookBehind hsrc hpos) hpos]
      simp only [bind, Except.bind]
      cases hans : re.answer fl t pos with
      | noMatch =>
          rw [reRun_noMatch hans]
          exact removed_nil none h
      | err e =>
          rw [reRun_err hstop hans]
          exact removed_nil (some e) h
      | noerror rm =>
          obtain ⟨-, hle, hend⟩ := hre.range hans hpos
          obtain ⟨f, rfl, rfl⟩ : ∃ f : Found, f.pos = pos ∧ f.rm = rm := ⟨⟨pos, rm⟩, rfl, rfl⟩
          obtain ⟨b₁, hput, hb₁, h₁⟩ := @Compact.remove b t out src f h
            (le_trans hsrc (Nat.le_add_right _ _)) (Nat.add_le_add_left hle _) hend
          have hnext : f.next t.length ≤ t.length := Found.next_le hend
          rw [reRun_found hstop hans]
          simp only [hput]
          by_cases hat : f.pos = t.length
          · -- a match searched at the end is the last one
            rw [if_pos hat, if_pos (by rw [hat])]
            refine ⟨b₁, _, rfl, hb₁, ?_⟩
            rw [built, built, List.append_nil]
            exact ⟨h₁, rfl, rfl⟩
          · rw [if_neg hat, if_neg (by omega)]
            obtain ⟨b', i, hrun, hb', h', hdst, hsrc'⟩ :=
              ih (changed + 1) f.empty h₁ (Nat.le_refl _) hnext
            rw [hb₁.1] at hrun hdst hsrc'
            refine ⟨b', i, ?_, hb₁.trans hb', ?_⟩
            · rw [outcome_cons]
              exact hrun
            · rw [built, resume, ← List.append_assoc]
              exact ⟨h', hdst, hsrc'⟩

/-- The capacities asked for, one for each match. -/
def requests (text : Found → Bytes) (t : Bytes) : Nat → Nat → List Found → List Nat
  | _, _, [] => []
  | w, src, f :: fs =>
    (t.length + 1 + w + (t.length - src) + 2 + ((text f).length - (f.stop - f.start)))
      :: requests text t (w + (f.written text t src).length) (f.next t.length) fs

/-- What a call asks room for: twice the text and then for each match, or, for a match replaced
in its place, the new text. -/
def asked (text : Found → Bytes) (t : Bytes) (fs : List Found) : List Nat :=
  (2 * t.length + 2) :: ((splice t 0 (fs.map (Found.edit text))).length + 1)
    :: requests text t 0 0 fs

/-- One of the requests in `ns` is refused. -/
def Lacks (al : Alloc) (ns : List Nat) : Prop := ∃ j n, n ∈ ns ∧ Denied al j n

theorem Lacks.mono {al : Alloc} {ns ns' : List Nat} (h : Lacks al ns) (hsub : ∀ n ∈ ns, n ∈ ns') :
    Lacks al ns' := by
  obtain ⟨j, n, hn, hden⟩ := h
  exact ⟨j, n, hsub n hn, hden⟩

theorem Lacks.realloc {al : Alloc} {ns : List Nat} (h : Lacks al ns) :
    ∃ o m, al.realloc o m = none := by
  obtain ⟨j, n, -, hden⟩ := h
  exact hden.realloc

theorem Lacks.le {al : Alloc} {ns : List Nat} {m : Nat} (h : Lacks al ns) (hle : ∀ n ∈ ns, n ≤ m) :
    ∃ j, ∃ n ∈ ns, n ≤ m ∧ Denied al j n := by
  obtain ⟨j, n, hn, hden⟩ := h
  exact ⟨j, n, hn, hle n hn, hden⟩

/-- How a call that replaces up to `n` matches from `start` on ends: with
the text spliced, or with an error of the matcher or the allocator. What is
left of the text then is up to `left`; `starved` says when memory runs out
in the middle. -/
inductive Ends (al : Alloc) (re : ReTy) (fl : Eflags) (t : Bytes) (text : Found → Bytes)
    (start n : Nat) (j : JstrTy) (starved : (Nat → Bool) → Bool) (left : JstrTy → Prop) :
    Run (ReOff × JstrTy) → Prop where
  | replaced {j' : JstrTy} : (∀ R, Decides al R → starved R = false) →
      reError re fl t n start = none →
      Str j' (splice t 0 ((reMatches re fl t n start).map (Found.edit text))) →
      Ends al re fl t text start n j starved left
        (.ok (.changed (reMatches re fl t n start).length, j'))
  | failed {e : ReErr} {j' : JstrTy} : (∀ R, Decides al R → starved R = false) →
      reError re fl t n start = some e → left j' →
      Ends al re fl t text start n j starved left (.ok (.neg e, j'))
  | noRoom : Lacks al (asked text t (reMatches re fl t n start)) →
      (∀ R, Decides al R → starved R = false) →
      Ends al re fl t text start n j starved left (.ok (.neg .espace, j))
  | starved {j' : JstrTy} : Lacks al (asked text t (reMatches re fl t n start)) →
      (∀ R, Decides al R → starved R = true) → j'.size ≠ t.length →
      Ends al re fl t text start n j starved left (.ok (.neg .espace, j'))

section Ends

variable {al : Alloc} {text : Found → Bytes} {start n : Nat} {j : JstrTy}
  {starved : (Nat → Bool) → Bool} {left : JstrTy → Prop} {r : Run (ReOff × JstrTy)}

theorem ends_zero (hs : Str j t) (hstarved : ∀ R, Decides al R → starved R = false) :
    Ends al re fl t text start 0 j starved left (.ok (.changed 0, j)) :=
  .replaced hstarved rfl hs

/-- In an empty text at most one match is replaced. -/
theorem reRun_of_one (hn : 0 < n) (hend : n = 1 ∨ start = t.length) :
    reRun re fl t n start true = reRun re fl t 1 start true := by
  obtain ⟨n, rfl⟩ : ∃ m, n = m + 1 := ⟨n - 1, by omega⟩
  rcases hend with hn1 | rfl
  · rw [hn1]
  · exact reRun_end n

theorem Ends.of_run {m : Nat} (hrun : reRun re fl t n start true = reRun re fl t m start true)
    (h : Ends al re fl t text start m j starved left r) :
    Ends al re fl t text start n j starved left r := by
  have hm : reMatches re fl t n start = reMatches re fl t m start := congrArg Prod.fst hrun
  have he : reError re fl t n start = reError re fl t m start := congrArg Prod.snd hrun
  cases h with
  | replaced h1 h2 h3 =>
      rw [← hm] at h3 ⊢
      exact .replaced h1 (he.trans h2) h3
  | failed h1 h2 h3 => exact .failed h1 (he.trans h2) h3
  | noRoom h1 h2 => exact .noRoom (hm ▸ h1) h2
  | starved h1 h2 h3 => exact .starved (hm ▸ h1) h2 h3

theorem Ends.congr {starved' : (Nat → Bool) → Bool} {left' : JstrTy → Prop}
    (h : Ends al re fl t text start n j starved left r) (hstarved : ∀ R, starved' R = starved R)
    (hleft : ∀ j', left j' → left' j') : Ends al re fl t text start n j starved' left' r := by
  obtain rfl : starved' = starved := funext hstarved
  cases h with
  | replaced h1 h2 h3 => exact .replaced h1 h2 h3
  | failed h1 h2 h3 => exact .failed h1 h2 (hleft _ h3)
  | noRoom h1 h2 => exact .noRoom h1 h2
  | starved h1 h2 h3 => exact .starved h1 h2 h3

end Ends

theorem compact_take {b : Blk} {k : Nat} (hat : b.At b.addr (t ++ [0])) (hk : k ≤ t.length) :
    Compact b t (t.take k) k := by
  have hlen : (t.take k).length = k := by
    rw [List.length_take]
    omega
  refine ⟨?_, le_of_eq hlen, hk, fun _ => rfl⟩
  rwa [hlen, ← List.append_assoc, List.take_append_drop]

/-- A search in the text before anything is changed. -/
theorem reSearch_str {b : Blk} {start : Nat} (hat : b.At b.addr (t ++ [0]))
    (hstart : start ≤ t.length) :
    reSearch re env fl b (b.addr + t.length) (b.addr + start) = .ok (re.answer fl t start) :=
  reSearch_eq ((compact_take hat hstart).lookBehind (Nat.le_refl _) hstart) hstart

/-- The answers of a call that may replace one match. -/
theorem reRun_one {start : Nat} : reRun re fl t 1 start true
    = match re.answer fl t start with
      | .noerror rm => ([⟨start, rm⟩], none)
      | .noMatch => ([], none)
      | .err e => ([], some e) := by
  rw [reRun, if_neg (by simp)]
  cases re.answer fl t start with
  | noerror rm =>
      show (if start = t.length then (([⟨start, rm⟩] : List Found), none) else _) = _
      split <;> rfl
  | noMatch => rfl
  | err e => rfl

/-- A call for one match that finds none. -/
theorem ends_none {al : Alloc} {text : Found → Bytes} {start : Nat} {j : JstrTy}
    {left : JstrTy → Prop} (hans : re.answer fl t start = .noMatch) (hs : Str j t) :
    Ends al re fl t text start 1 j (fun _ => false) left (.ok (.changed 0, j)) := by
  have hone := @reRun_one re fl t start
  rw [hans] at hone
  have hm : reMatches re fl t 1 start = [] := congrArg Prod.fst hone
  have hends := @Ends.replaced al re fl t text start 1 j (fun _ => false) left j (fun _ _ => rfl)
    (congrArg Prod.snd hone) (by rw [hm]; exact hs)
  rwa [hm] at hends

/-- One that finds it, and puts it down. -/
theorem ends_one {al : Alloc} {text : Found → Bytes} {start : Nat} {j j' : JstrTy}
    {left : JstrTy → Prop} {rm : Groups} (hans : re.answer fl t start = .noerror rm)
    (hs : Str j' (splice t 0 [Found.edit text ⟨start, rm⟩])) :
    Ends al re fl t text start 1 j (fun _ => false) left (.ok (.changed 1, j')) := by
  have hone := @reRun_one re fl t start
  rw [hans] at hone
  have hm : reMatches re fl t 1 start = [⟨start, rm⟩] := congrArg Prod.fst hone
  have hends := @Ends.replaced al re fl t text start 1 j (fun _ => false) left j' (fun _ _ => rfl)
    (congrArg Prod.snd hone) (by rw [hm]; exact hs)
  rwa [hm] at hends

/-- `start` is checked by every function. -/
theorem not_badStart {start n : Nat} (h : start = 0 ∨ start < n) : ¬badStart start n := by
  rintro (hlt | ⟨heq, hne⟩) <;> omega

/-- The text overwritten by the shorter `out`. -/
def Overwritten (t out : Bytes) (j : JstrTy) : Prop :=
  j.size = t.length ∧ ∃ b, j.data = some b ∧ b.At b.addr (out ++ (t.drop out.length ++ [0]))

/-- Nothing is written before the first match. -/
theorem overwritten_take {j : JstrTy} {start : Nat} (hs : Str j t) (hpos : start ≤ t.length) :
    Overwritten t (t.take start) j := by
  obtain ⟨b, hd, -, hsz, hat⟩ := hs
  exact ⟨hsz, b, hd, (compact_take hat hpos).content⟩

/-- What has been written by removing the matches of a call. -/
def compacted (re : ReTy) (fl : Eflags) (t : Bytes) (n start : Nat) : Bytes :=
  t.take start ++ built (fun _ => []) t start (reMatches re fl t n start)

theorem reRmFromExec_ends (al : Alloc) {j : JstrTy} {start : Nat} (hs : Str j t) (hre : re.Sound)
    (hstart : start = 0 ∨ start < t.length) :
    Ends al re fl t (fun _ => []) start 1 j (fun _ => false)
      (Overwritten t (compacted re fl t 1 start)) (reRmFromExec env re j start fl) := by
  have hs' := hs
  obtain ⟨b, hd, hb, hsz, hat⟩ := hs
  have hpos : start ≤ t.length := by omega
  have hone := @reRun_one re fl t start
  rw [reRmFromExec, hsz, if_neg (not_badStart hstart)]
  simp only [JstrTy.deref, hd, bind, Except.bind, reSearch_str hat hpos]
  cases hans : re.answer fl t start with
  | noMatch => exact ends_none hans hs'
  | err e =>
      rw [hans] at hone
      have hm : reMatches re fl t 1 start = [] := congrArg Prod.fst hone
      refine .failed (fun _ _ => rfl) (congrArg Prod.snd hone) ?_
      rw [compacted, hm, built, List.append_nil]
      exact overwritten_take hs' hpos
  | noerror rm =>
      obtain ⟨-, hle, hend⟩ := hre.range hans hpos
      have hstop : start + rm.whole.so + (rm.whole.eo - rm.whole.so) = start + rm.whole.eo := by
        omega
      obtain ⟨b', hrm, hst⟩ := rmatLenP_spec hat (hstop.trans_le hend)
      rw [hstop] at hrm hst
      simp only [hrm, Nat.add_sub_cancel_left]
      exact ends_one hans (hst.str hb)

theorem rmnMany_ends (al : Alloc) {j : JstrTy} {start n : Nat} (hs : Str j t) (hre : re.Sound)
    (hpos : start ≤ t.length) :
    Ends al re fl t (fun _ => []) start n j (fun _ => false)
      (Overwritten t (compacted re fl t n start)) (rmnMany env re j start fl n) := by
  obtain ⟨b, hd, hb, hsz, hat⟩ := hs
  have htake : (t.take start).length = start := by
    rw [List.length_take]
    omega
  obtain ⟨b', i, hrun, hb', h, hdst, hsrc⟩ := @rmnLoop_spec env re fl t hre n b (t.take start) start
    start 0 true (compact_take hat hpos) (Nat.le_refl _) hpos
  rw [htake] at hrun
  rw [rmnMany]
  simp only [JstrTy.deref, hd, hsz, bind, Except.bind, hrun]
  cases he : reError re fl t n start with
  | some e =>
      rw [outcome_of_error he]
      exact .failed (fun _ _ => rfl) he ⟨rfl, b', rfl, h.content⟩
  | none =>
      have hbelow := h.below
      have hfits := h.fits
      have hroom := h.content.inRange.2
      simp only [List.length_append, List.length_drop, List.length_singleton] at hroom hbelow
      have hchain := @chained_reRun re fl t hre n start true hpos
      have hspliced : t.take start ++ built (fun _ => []) t start (reRun re fl t n start true).1
          ++ t.drop (resume t.length start (reRun re fl t n start true).1)
          = splice t 0 ((reMatches re fl t n start).map (Found.edit fun _ => [])) := by
        rw [reMatches, splice_skip hchain.ordered (Nat.zero_le start), hchain.splice,
          List.drop_zero, Nat.sub_zero, List.append_assoc]
      generalize t.take start ++ built (fun _ => []) t start (reRun re fl t n start true).1 = out at *
      generalize resume t.length start (reRun re fl t n start true).1 = src at *
      have hcur : Cursor b' out (t.drop src) i.dst i.src (src - out.length) :=
        ⟨h.content.left, by rw [hdst, hb'.1], by
          rw [hsrc, ← hb'.1]
          exact (h.rest h.below hfits).left, by have := h.below; omega⟩
      have hroom' := h.content.inRange.2
      rw [List.length_append, List.length_append, List.length_drop] at hroom'
      obtain ⟨b₂, hmove, hst⟩ := hcur.finish (by
        have := h.below
        rw [List.length_drop]
        omega)
      have hlen : b.addr + t.length - i.src = (t.drop src).length := by
        rw [List.length_drop]
        omega
      rw [outcome_of_done he]
      simp only [hlen, hmove, hb'.1, Nat.add_sub_cancel_left]
      refine .replaced (fun _ _ => rfl) he ?_
      rw [← hspliced]
      exact hst.str (by rw [hb'.2, hb])

/-- Removing: the text with up to `n` matches cut out. -/
theorem reRmnFromExec_ends (al : Alloc) {j : JstrTy} {start : Nat} (n : Nat) (hs : Str j t)
    (hre : re.Sound) (hstart : start = 0 ∨ start < t.length) :
    Ends al re fl t (fun _ => []) start n j (fun _ => false)
      (Overwritten t (compacted re fl t n start)) (reRmnFromExec env re j start fl n) := by
  have hsz := hs.content.size
  rw [reRmnFromExec, hsz, if_neg (not_badStart hstart)]
  split
  · rename_i h0
    subst h0
    exact ends_zero hs fun _ _ => rfl
  · rename_i hn0
    have hone : n = 1 ∨ start = t.length → Ends al re fl t (fun _ => []) start n j (fun _ => false)
        (Overwritten t (compacted re fl t n start)) (reRmFromExec env re j start fl) := by
      intro hend
      have hrun := @reRun_of_one re fl t start n (Nat.pos_of_ne_zero hn0) hend
      have h := @reRmFromExec_ends env re fl t al j start hs hre hstart
      rw [compacted, reMatches, hrun]
      exact h.of_run hrun
    simp only
    by_cases h0 : t.length = 0
    · rw [if_pos h0, if_pos rfl]
      exact hone (.inr (by omega))
    · rw [if_neg h0]
      by_cases h1 : n = 1
      · rw [if_pos h1]
        exact hone (.inl h1)
      · rw [if_neg h1]
        exact rmnMany_ends al hs hre (by omega)

end Remove

end Jstr
