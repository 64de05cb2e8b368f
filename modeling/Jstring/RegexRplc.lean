import Jstring.RegexRm

/-!
# Replacing what a regular expression matches

The loop of `jstr_internal_re_rplcn_backref_len_from_exec`. The text stays
at the start of the buffer and is only read; the new text grows behind its
terminator, and the buffer with it, so that the pointers into it may move
in the middle of the loop.

- `Upper`: the two texts, and the room there always is for the rest;
- `rplcnLoop_spec`: what is built is the text spliced;
- `reRplcn_splices`: so is what the three functions leave.
-/

namespace Jstr

open Splice

/-! ## The replacement -/

/-- What replaces a match: the replacement `l`, its references resolved if
it has any. -/
def Rplc.text (p : Rplc) (l t : Bytes) (f : Found) : Bytes :=
  match p.backref with
  | some _ => expand (f.rm.text p.nmatch (t.drop f.pos)) l
  | none => l

/-- The replacement is `l`, and its first and last reference have been
searched. -/
structure Rplc.Ready (cfg : Build) (env : Mem) (p : Rplc) (l : Bytes) : Prop where
  mem : MemAt env p.addr l
  len : p.len = l.length
  refs : ∀ q e, p.backref = some (q, e) → backreffirst env p.addr l.length = .ok (some q) ∧
    ∃ r, backreflast cfg env q (l.length - (q - p.addr)) = .ok r ∧ e = r.getD (q + 2)

section Rplc

variable {cfg : Build} {env : Mem} {p : Rplc} {l t : Bytes} {f : Found}

theorem Rplc.Ready.withBackrefLen_eq (h : p.Ready cfg env l)
    (hrm : f.rm.Within (t.drop f.pos).length) (hfit : l.length + (p.text l t f).length ≤ sizeMax) :
    p.withBackrefLen env f.rm = .ok (p.text l t f).length := by
  rw [Rplc.withBackrefLen, h.len]
  rw [Rplc.text] at hfit ⊢
  rcases hb : p.backref with _ | ⟨q, e⟩
  · rfl
  · obtain ⟨hq, r, hr, rfl⟩ := h.refs q e hb
    rw [hb] at hfit
    exact backrefstrlen_eq cfg hrm h.mem hq hr (by omega) (by simp only at hfit; omega)

theorem Rplc.Ready.copy_eq {b : Blk} {srcE dst : Nat} (h : p.Ready cfg env l)
    (hrm : f.rm.Within (t.drop f.pos).length) (hsrc : b.At srcE (t.drop f.pos))
    (hdst : srcE + (t.drop f.pos).length ≤ dst) (hin : b.InRange dst (p.text l t f).length) :
    p.copy env f.rm srcE (p.text l t f).length b dst
      = .ok (b.put dst (p.text l t f), dst + (p.text l t f).length) := by
  rw [Rplc.copy, h.len]
  rw [Rplc.text] at hin ⊢
  rcases hb : p.backref with _ | ⟨q, e⟩
  · rw [hb] at hin
    simp only [window_of_memAt h.mem]
    exact mempcpy_eq hin
  · rw [hb] at hin
    have hcpy := @backrefcpy_spec env f.rm p.nmatch srcE (p.addr + l.length) _ hrm (l.length + 1) b
      dst p.addr l h.mem rfl (Nat.lt_succ_self _) hsrc (.inl hdst) hin
    simp only [hcpy, bind, Except.bind]

end Rplc

/-! ## The two texts -/

/-- The pointers, as offsets from `s`: the text of `n` bytes, its
terminator, and `w` bytes written. -/
def cursorsAt (s n w src pos : Nat) : Cursors where
  i := ⟨s + (n + 1 + w), s + src, s + pos⟩
  dstS := s + (n + 1)
  e := s + n

theorem rebase_cursorsAt (s s' n w src pos : Nat) :
    (cursorsAt s n w src pos).rebase s s' = cursorsAt s' n w src pos := by
  simp only [cursorsAt, Cursors.rebase, Nat.add_sub_cancel_left]

/-- The text is at the start of the buffer and `out` behind its terminator,
with room for what is still to be read. -/
structure Upper (j : JstrTy) (b : Blk) (t out : Bytes) (src : Nat) : Prop where
  data : j.data = some b
  backed : b.size = j.capacity
  size : j.size = t.length
  content : b.At b.addr (t ++ [0] ++ out)
  fits : src ≤ t.length
  room : t.length + 1 + out.length + (t.length - src) ≤ b.size

section Upper

variable {j : JstrTy} {b : Blk} {t out : Bytes} {src pos : Nat}

theorem Upper.deref (h : Upper j b t out src) : j.deref = .ok b := by
  rw [JstrTy.deref, h.data]

theorem Upper.rest (h : Upper j b t out src) {k : Nat} (hk : k ≤ t.length) :
    b.At (b.addr + k) (t.drop k ++ [0]) := by
  have := h.content.left.drop (show k ≤ (t ++ [0]).length by rw [List.length_append]; omega)
  rwa [List.drop_append_of_le_length hk] at this

/-- The capacity asked for before a match is processed. -/
theorem newCapOf_eq {s n w wlen findLen : Nat} (hsrc : src ≤ n)
    (hfit : n + 1 + w + (n - src) + 2 + (wlen - findLen) ≤ sizeMax) :
    newCapOf s (cursorsAt s n w src pos) wlen findLen
      = n + 1 + w + (n - src) + 2 + (wlen - findLen) := by
  have hdst : s + (n + 1 + w) - s = n + 1 + w := Nat.add_sub_cancel_left _ _
  have hend : s + n - (s + src) = n - src := by omega
  rw [newCapOf]
  simp only [cursorsAt, hdst, hend]
  rw [@addSz_eq (n + 1 + w) _ (by omega), @addSz_eq _ 2 (by omega)]
  split
  · exact addSz_eq hfit
  · omega

/-- Growing moves everything, and leaves it as it is. When memory cannot be
had, the size is that of what lies below `dst`. -/
theorem Upper.grow (al : Alloc) (h : Upper j b t out src) {newCap : Nat} (hnew : 0 < newCap)
    (hlim : newCap ≤ 9223372036854775808) :
    (∃ j' c', growAt al j (cursorsAt b.addr t.length out.length src pos) newCap
          = .ok (.err, j', c') ∧
        j'.size ≠ t.length ∧ (∃ j₀, Denied al j₀ newCap) ∧
        ∀ R, Decides al R → refusesAt R b.size newCap = true) ∨
      ∃ j' b', growAt al j (cursorsAt b.addr t.length out.length src pos) newCap
          = .ok (.succ, j', cursorsAt b'.addr t.length out.length src pos) ∧
        Upper j' b' t out src ∧ newCap ≤ b'.size ∧ b'.size = capAfter b.size newCap ∧
        ∀ R, Decides al R → refusesAt R b.size newCap = false := by
  obtain ⟨hd, hb, hsz, hat, hfits, hroom⟩ := h
  rw [growAt]
  by_cases hlt : j.capacity < newCap
  · rw [if_pos hlt]
    have hderef : j.deref = .ok b := by rw [JstrTy.deref, hd]
    simp only [hderef, bind, Except.bind]
    generalize hj₀ : ({ j with size := _ } : JstrTy) = j₀
    have hback : Backed j₀ := by
      rw [← hj₀, Backed]
      simp only [hd, hb]
    have hd₀ : j₀.data = some b := by rw [← hj₀, ← hd]
    have hcap₀ : j₀.capacity = b.size := by rw [← hj₀, hb]
    have hsize₀ : j₀.size = t.length + 1 + out.length := by
      rw [← hj₀]
      exact Nat.add_sub_cancel_left _ _
    rcases @reserve_decided al j₀ newCap hback hnew hlim with
      ⟨hr, hden, href⟩ | ⟨j', hr, hg, hcap, href⟩
    · rw [hcap₀] at href
      rw [hr]
      exact .inl ⟨_, _, rfl, by omega, ⟨j₀, hden⟩, href⟩
    · rw [hcap₀] at hcap href
      obtain ⟨b', hd', hb', hle⟩ := hg.room
      obtain ⟨hgrow, hkeep⟩ := hg.keeps b b' hd₀ hd'
      rw [hr]
      simp only [JstrTy.deref, hd', rebase_cursorsAt]
      exact .inr ⟨_, b', rfl, ⟨rfl, hb', hsz, hkeep _ hat, hfits, by omega⟩, hle,
        by rw [hb', hcap], href⟩
  · rw [if_neg hlt]
    have hle : newCap ≤ b.size := by omega
    refine .inr ⟨j, b, rfl, ⟨hd, hb, hsz, hat, hfits, hroom⟩, hle, (if_pos hle).symm, fun R _ => ?_⟩
    rw [refusesAt, decide_eq_false (Nat.not_lt.mpr hle), Bool.false_and]

/-- One match replaced, given room for it. -/
theorem Upper.replace {f : Found} {text : Found → Bytes} {put : Blk → Nat → Run (Blk × Nat)}
    (h : Upper j b t out src) (hsrc : src ≤ f.start) (hle : f.start ≤ f.stop)
    (hstop : f.stop ≤ t.length)
    (hput : ∀ b' dst, b'.At (b.addr + f.pos) (t.drop f.pos) → b.addr + t.length ≤ dst →
      b'.InRange dst (text f).length → put b' dst = .ok (b'.put dst (text f), dst + (text f).length))
    (hroom : t.length + 1 + out.length + (t.length - src) + (text f).length
      ≤ b.size + (f.stop - f.start)) :
    ∃ b', putMatch put (b.addr + t.length) f.rm.whole b
        (cursorsAt b.addr t.length out.length src f.pos).i
        = .ok (b', (cursorsAt b.addr t.length (out ++ f.written text t src).length
            (f.next t.length) (f.next t.length)).i) ∧
      SameBlock b b' ∧
      Upper { j with data := some b' } b' t (out ++ f.written text t src) (f.next t.length) := by
  have hnext := f.stop_le_next t.length
  have hfits := Found.next_le hstop
  have hpos : f.pos ≤ f.start := Nat.le_add_right _ _
  have hdrop : (t.drop f.pos).length = t.length - f.pos := List.length_drop
  have hnew := @Found.length_written t text f src hsrc hle hstop
  have hskip := f.length_skipped hstop
  rw [Found.written] at hnew ⊢
  generalize hpiece : (t.drop src).take (f.start - src) = piece at *
  have hlen : piece.length = f.start - src := by
    rw [← hpiece, List.length_take, List.length_drop]
    omega
  have hat := h.content
  have hin := hat.inRange.2
  simp only [List.length_append, List.length_singleton] at hin
  generalize hdst : b.addr + (t.length + 1 + out.length) = dst
  have hput' : put (b.put dst piece) (dst + piece.length)
      = .ok (b.put dst (piece ++ text f), dst + (piece ++ text f).length) := by
    rw [hput _ _ (((h.rest (by omega)).left).put_of_disjoint (.inl (by omega))) (by omega)
      ⟨by rw [Memory.Block.put_addr]; omega,
        by rw [Memory.Block.put_addr, Memory.Block.put_size]; omega⟩,
      Memory.Block.put_append, List.length_append, Nat.add_assoc]
  have hfound := @putMatch_eq b t f dst src piece (text f) put
    (by rw [← hpiece]; exact (h.rest h.fits).left.take _) (by omega) (h.rest hstop) hstop hput'
    ⟨by omega, by simp only [List.length_append]; omega⟩ (.inr (by omega))
  generalize piece ++ (text f ++ f.skipped t) = y at *
  refine ⟨b.put dst y, ?_, sameBlock_put b dst y, rfl, ?_, h.size, ?_, hfits, ?_⟩
  · rw [cursorsAt, hdst, hfound, cursorsAt, @List.length_append _ out]
    congr 3
    omega
  · rw [Memory.Block.put_size, h.backed]
  · rw [Memory.Block.put_addr, ← List.append_assoc]
    have hend : b.addr + (t ++ [0] ++ out).length = dst := by
      simp only [List.length_append, List.length_singleton]
      omega
    refine Memory.Block.at_append.mpr ⟨hat.put_of_disjoint (.inl (le_of_eq hend)), ?_⟩
    rw [hend]
    exact Memory.Block.at_put ⟨by omega, by rw [hnew]; omega⟩
  · rw [Memory.Block.put_size, List.length_append, hnew]
    have := h.fits
    omega

/-- The text is copied behind itself, where nothing is built yet. -/
theorem upper_start (hb : b.size = j.capacity) (hsz : j.size = t.length)
    (hat : b.At b.addr (t ++ [0])) (hroom : 2 * t.length + 2 ≤ b.size) :
    ∃ b₁, b.memmove (b.addr + t.length + 1) b.addr t.length = .ok b₁ ∧ b₁.addr = b.addr ∧
      b₁.size = b.size ∧ Upper { j with data := some b₁ } b₁ t [] 0 := by
  have hmove := @Blk.memmove_eq b (b.addr + t.length + 1) b.addr t.length t hat.left rfl
    ⟨by omega, by omega⟩
  refine ⟨_, hmove, Memory.Block.put_addr _ _ _, Memory.Block.put_size _ _ _, rfl, ?_, hsz, ?_,
    Nat.zero_le _, ?_⟩
  · rw [Memory.Block.put_size, hb]
  · rw [List.append_nil, Memory.Block.put_addr]
    refine hat.put_of_disjoint (.inl ?_)
    rw [List.length_append, List.length_singleton, Nat.add_assoc]
  · rw [List.length_nil, Memory.Block.put_size]
    omega

/-- The rest of the text is copied behind what is built, and all of it moved down. -/
theorem Upper.finish (h : Upper j b t out src) :
    ∃ b₁ q b₂, mempmove b (b.addr + (t.length + 1 + out.length)) (b.addr + src)
        (b.addr + t.length - (b.addr + src)) = .ok (b₁, q) ∧
      q - (b.addr + (t.length + 1)) = (out ++ t.drop src).length ∧
      strmoveLen b₁ b₁.addr (b.addr + (t.length + 1)) (out ++ t.drop src).length = .ok b₂ ∧
      Str { j with data := some b₂, size := (out ++ t.drop src).length } (out ++ t.drop src) := by
  have hroom := h.room
  have hfits := h.fits
  have hlen : (t.drop src).length = t.length - src := List.length_drop
  have hsub : b.addr + t.length - (b.addr + src) = t.length - src := by omega
  have hcpy := @mempmove_eq b (b.addr + (t.length + 1 + out.length)) (b.addr + src) _
    (t.drop src) (h.rest hfits).left hlen ⟨by omega, by omega⟩
  have hbuilt : (b.put (b.addr + (t.length + 1 + out.length)) (t.drop src)).At
      (b.addr + (t.length + 1)) (out ++ t.drop src) := by
    have hout := h.content.right
    rw [List.length_append, List.length_singleton] at hout
    refine Memory.Block.at_append.mpr ⟨hout.put_of_disjoint (.inl (by omega)), ?_⟩
    rw [Nat.add_assoc b.addr]
    exact Memory.Block.at_put ⟨by omega, by omega⟩
  have hdown := @strmoveLen_eq _ b.addr _ _ _ hbuilt rfl
    ⟨by rw [Memory.Block.put_addr], by
      rw [Memory.Block.put_addr, Memory.Block.put_size, List.length_append]
      omega⟩
  have hst := @stores_all (b.put (b.addr + (t.length + 1 + out.length)) (t.drop src))
    (out ++ t.drop src) (by rw [Memory.Block.put_size, List.length_append]; omega)
  rw [Memory.Block.put_addr] at hst
  rw [hsub]
  refine ⟨_, _, _, hcpy, ?_, hdown, hst.str (by rw [Memory.Block.put_size, h.backed])⟩
  rw [List.length_append, hlen]
  omega

end Upper

/-! ## The loop -/



section Loop

variable {cfg : Build} {env : Mem} {re : ReTy} {fl : Eflags} {t l out : Bytes} {p : Rplc}
  {text : Found → Bytes} {al : Alloc} {src changed cap : Nat} {q : List Found × Option ReErr}
  {r : Run (JstrTy × Cursors × ReOff)}

/-- What the loop returns: the new text is built, up to where the matches
end or an error is met, or memory runs out. -/
inductive Built (al : Alloc) (t : Bytes) (text : Found → Bytes) (out : Bytes) (src changed cap : Nat)
    (q : List Found × Option ReErr) : Run (JstrTy × Cursors × ReOff) → Prop where
  | finished {j' : JstrTy} {b' : Blk} {pos' : Nat} :
      (∀ R, Decides al R → starvedBy R cap (requests text t out.length src q.1) = false) →
      Upper j' b' t (out ++ built text t src q.1) (resume t.length src q.1) →
      Built al t text out src changed cap q
        (.ok (j', cursorsAt b'.addr t.length (out ++ built text t src q.1).length
          (resume t.length src q.1) pos', outcome changed q))
  | starved {j' : JstrTy} {c' : Cursors} : Lacks al (requests text t out.length src q.1) →
      (∀ R, Decides al R → starvedBy R cap (requests text t out.length src q.1) = true) →
      j'.size ≠ t.length → Built al t text out src changed cap q (.ok (j', c', .neg .espace))

theorem built_nil {j : JstrTy} {b : Blk} {pos : Nat} (e : Option ReErr) (h : Upper j b t out src) :
    Built al t text out src changed cap ([], e)
      (.ok (j, cursorsAt b.addr t.length out.length src pos, outcome changed ([], e))) := by
  have hup : Upper j b t (out ++ built text t src []) (resume t.length src []) := by
    rw [built, List.append_nil]
    exact h
  have := @Built.finished al t text out src changed cap ([], e) j b pos (fun _ _ => rfl) hup
  rwa [built, List.append_nil] at this

/-- What is built behind a match belongs to it, and what is asked for, too. -/
theorem Built.cons {f : Found} {newCap : Nat}
    (hcap : newCap = t.length + 1 + out.length + (t.length - src) + 2
      + ((text f).length - (f.stop - f.start)))
    (href : ∀ R, Decides al R → refusesAt R cap newCap = false)
    (h : Built al t text (out ++ f.written text t src) (f.next t.length) (changed + 1)
      (capAfter cap newCap) q r) : Built al t text out src changed cap (f :: q.1, q.2) r := by
  have hreq : ∀ R, Decides al R →
      starvedBy R cap (requests text t out.length src (f :: q.1))
        = starvedBy R (capAfter cap newCap)
          (requests text t (out ++ f.written text t src).length (f.next t.length) q.1) := by
    intro R hR
    rw [requests, starvedBy, ← hcap, href R hR, Bool.false_or, List.length_append]
  cases h with
  | finished h1 h2 =>
      rw [← outcome_cons changed f q]
      rw [List.append_assoc] at h2 ⊢
      exact .finished (fun R hR => (hreq R hR).trans (h1 R hR)) h2
  | starved h1 h2 h3 =>
      refine .starved (h1.mono fun n hn => ?_) (fun R hR => (hreq R hR).trans (h2 R hR)) h3
      rw [requests]
      rw [List.length_append] at hn
      exact List.mem_cons_of_mem _ hn

/-- What the loop computes fits: each capacity it asks for, and the length
of the replacement with what its references stand for. -/
structure LoopFits (t l : Bytes) (text : Found → Bytes) (w src : Nat) (fs : List Found) : Prop where
  requests : ∀ r ∈ requests text t w src fs, r ≤ 9223372036854775808
  texts : ∀ f ∈ fs, l.length + (text f).length ≤ sizeMax

theorem LoopFits.tail {f : Found} {fs : List Found} {w : Nat}
    (h : LoopFits t l text w src (f :: fs)) :
    LoopFits t l text (w + (f.written text t src).length) (f.next t.length) fs :=
  ⟨fun r hr => h.requests r (List.mem_cons_of_mem _ hr),
    fun f' hf => h.texts f' (List.mem_cons_of_mem _ hf)⟩

theorem rplcnLoop_spec (al : Alloc) (hre : re.Sound) (hp : p.Ready cfg env l) : ∀ (n : Nat)
    {j : JstrTy} {b : Blk} {out : Bytes} {src pos : Nat} (changed : Nat) (z : Bool),
    Upper j b t out src → src ≤ pos → pos ≤ t.length →
    LoopFits t l (p.text l t) out.length src (reRun re fl t n pos z).1 →
    Built al t (p.text l t) out src changed b.size (reRun re fl t n pos z)
      (rplcnLoop env al re fl p n j (cursorsAt b.addr t.length out.length src pos) z changed) := by
  intro n
  induction n with
  | zero => intro j b out src pos changed z h _ _ _; exact built_nil none h
  | succ n ih =>
      intro j b out src pos changed z h hsrc hpos hfit
      rw [rplcnLoop]
      have hstopAt : stopsAt (cursorsAt b.addr t.length out.length src pos).i.srcE
          (cursorsAt b.addr t.length out.length src pos).e z ↔ pos = t.length ∧ z = false :=
        stopsAt_iff hpos
      by_cases hstop : pos = t.length ∧ z = false
      · rw [if_pos (hstopAt.mpr hstop), reRun_stop hstop]
        exact built_nil none h
      have hsearch : reSearch re env fl b (cursorsAt b.addr t.length out.length src pos).e
          (cursorsAt b.addr t.length out.length src pos).i.srcE = .ok (re.answer fl t pos) :=
        reSearch_eq (h.rest (by omega)) hpos
      rw [if_neg fun hs => hstop (hstopAt.mp hs)]
      simp only [h.deref, hsearch, bind, Except.bind]
      cases hans : re.answer fl t pos with
      | noMatch =>
          rw [reRun_noMatch hans]
          exact built_nil none h
      | err e =>
          rw [reRun_err hstop hans]
          exact built_nil (some e) h
      | noerror rm =>
          obtain ⟨hw, hle, hend⟩ := hre.range hans hpos
          obtain ⟨f, rfl, rfl⟩ : ∃ f : Found, f.pos = pos ∧ f.rm = rm := ⟨⟨pos, rm⟩, rfl, rfl⟩
          have hstart : src ≤ f.start := le_trans hsrc (Nat.le_add_right _ _)
          have hlen : f.start ≤ f.stop := Nat.add_le_add_left hle _
          have hstop' : f.stop ≤ t.length := hend
          have hnext : f.next t.length ≤ t.length := Found.next_le hstop'
          have hfind : f.rm.whole.eo - f.rm.whole.so = f.stop - f.start := by
            rw [Found.start, Found.stop]
            omega
          have hdrop : (t.drop f.pos).length = t.length - f.pos := List.length_drop
          obtain ⟨q, hq, hqnil, hqrun⟩ := @reRun_cons re fl t n z f hstop hans
          rw [hq] at hfit ⊢
          have hreq := hfit.requests _ List.mem_cons_self
          have hsum := hfit.texts f List.mem_cons_self
          have hne : (p.text l t f).length ≠ sizeMax := by
            simp only [sizeMax]
            omega
          have hcapEq := @newCapOf_eq src f.pos b.addr t.length out.length (p.text l t f).length
            (f.stop - f.start) h.fits (by simp only [sizeMax]; omega)
          simp only [hp.withBackrefLen_eq hw hsum, if_neg hne, hfind, hcapEq]
          rcases @Upper.grow j b t out src f.pos al h (t.length + 1 + out.length + (t.length - src)
            + 2 + ((p.text l t f).length - (f.stop - f.start))) (by omega) hreq with
            ⟨j₁, c₁, hgrow, hsize, ⟨j₀, hden⟩, href⟩ | ⟨j₁, b₁, hgrow, h₁, hcap, hafter, href⟩
          · rw [hgrow]
            refine .starved ⟨j₀, _, List.mem_cons_self, hden⟩ (fun R hR => ?_) hsize
            rw [requests, starvedBy, href R hR, Bool.true_or]
          · obtain ⟨b₂, hput, hb₂, h₂⟩ := @Upper.replace j₁ b₁ t out src f (p.text l t)
              (p.copy env f.rm (b₁.addr + f.pos) (p.text l t f).length) h₁ hstart hlen hstop'
              (fun b' dst hat hdst hin => hp.copy_eq hw hat (by omega) hin) (by omega)
            have hsrcE : (cursorsAt b₁.addr t.length out.length src f.pos).i.srcE
                = b₁.addr + f.pos := rfl
            have he : (cursorsAt b₁.addr t.length out.length src f.pos).e
                = b₁.addr + t.length := rfl
            have hdstS : (cursorsAt b₁.addr t.length out.length src f.pos).dstS
                = b₁.addr + (t.length + 1) := rfl
            simp only [hgrow, h₁.deref, hsrcE, he, hput, hdstS, Nat.add_left_cancel_iff]
            rw [← hb₂.1]
            refine Built.cons rfl href ?_
            rw [← hafter, ← hb₂.2]
            by_cases hat : f.pos = t.length
            · -- a match searched at the end is the last one
              rw [if_pos hat, hqnil hat]
              exact built_nil none h₂
            · have hfit' := hfit.tail
              rw [hqrun hat] at hfit' ⊢
              rw [if_neg hat, ← hfind]
              rw [← List.length_append] at hfit'
              exact ih (changed + 1) f.empty h₂ (Nat.le_refl _) hnext hfit'

end Loop

/-! ## The functions -/

/-- Every size a rebuilding computes fits in a `regoff_t`. -/
structure SizesFit (t l : Bytes) (text : Found → Bytes) (fs : List Found) : Prop where
  first : 2 * t.length + 2 ≤ 9223372036854775808
  loop : LoopFits t l text 0 0 fs

/-- Memory runs out in the loop, `cap` being the capacity before the call:
not at the first reservation, but at a later one. -/
def starvesAt (cap : Nat) (t : Bytes) (text : Found → Bytes) (fs : List Found)
    (R : Nat → Bool) : Bool :=
  !refusesAt R cap (2 * t.length + 2) &&
    starvedBy R (capAfter cap (2 * t.length + 2)) (requests text t 0 0 fs)

section Functions

variable {cfg : Build} {env : Mem} {re : ReTy} {fl : Eflags} {t l : Bytes} {j : JstrTy}
  {start n : Nat}

theorem rplcnMany_ends (al : Alloc) {p : Rplc} (hs : Str j t) (hre : re.Sound)
    (hp : p.Ready cfg env l) (hpos : start ≤ t.length)
    (hfit : SizesFit t l (p.text l t) (reMatches re fl t n start)) :
    Ends al re fl t (p.text l t) start n j
      (starvesAt j.capacity t (p.text l t) (reMatches re fl t n start)) (fun j' => Str j' t)
      (rplcnMany env al re j start p fl n) := by
  have hfirst := hfit.first
  have hreq : addSz (mulSz j.size 2) 2 = 2 * t.length + 2 := by
    rw [hs.content.size, mulSz_eq (by simp only [sizeMax]; omega),
      addSz_eq (by simp only [sizeMax]; omega), Nat.mul_comm]
  rw [rplcnMany, hreq]
  rcases @reserve_decided al j _ hs.content.backed (Nat.succ_pos (2 * t.length + 1)) hfirst with
    ⟨hr, hden, href⟩ | ⟨j₁, hr, hg, hcap, href⟩
  · rw [hr]
    refine .noRoom ⟨j, _, List.mem_cons_self, hden⟩ fun R hR => ?_
    rw [starvesAt, href R hR]
    rfl
  have hstarves : ∀ R, Decides al R →
      starvesAt j.capacity t (p.text l t) (reMatches re fl t n start) R
        = starvedBy R j₁.capacity (requests (p.text l t) t 0 0 (reMatches re fl t n start)) := by
    intro R hR
    rw [starvesAt, href R hR, hcap]
    rfl
  obtain ⟨⟨b, hd, hb, hsz, hat⟩, b', hd', hroom⟩ := hs.grown hg
  rw [hd] at hd'
  cases hd'
  obtain ⟨b₁, hmove, haddr, hsize, hup⟩ := upper_start hb hsz hat hroom
  rw [hr]
  simp only [JstrTy.deref, hd, hsz, bind, Except.bind, hmove]
  have hrun := @rplcnLoop_spec cfg env re fl t l p al hre hp n _ _ _ 0 start 0
    true hup (Nat.zero_le _) hpos hfit.loop
  have hcur : (⟨⟨b.addr + t.length + 1, b.addr, b.addr + start⟩, b.addr + t.length + 1,
      b.addr + t.length⟩ : Cursors) = cursorsAt b₁.addr t.length ([] : Bytes).length 0 start := by
    rw [haddr]
    rfl
  simp only [hsz] at hrun
  simp only [hcur]
  rw [hsize, hb] at hrun
  generalize rplcnLoop env al re fl p n _ _ _ _ = run at hrun ⊢
  cases hrun with
  | starved hnone hyes hne =>
      refine .starved (hnone.mono fun m hm => ?_) (fun R hR => (hstarves R hR).trans (hyes R hR)) hne
      exact List.mem_cons_of_mem _ (List.mem_cons_of_mem _ hm)
  | @finished j₂ b₂ pos hno h₂ =>
      have hno' : ∀ R, Decides al R →
          starvesAt j.capacity t (p.text l t) (reMatches re fl t n start) R = false :=
        fun R hR => (hstarves R hR).trans (hno R hR)
      have hchain := (@chained_reRun re fl t hre n start true hpos).mono (Nat.zero_le start)
      have hspliced : built (p.text l t) t 0 (reRun re fl t n start true).1
          ++ t.drop (resume t.length 0 (reRun re fl t n start true).1)
          = splice t 0 ((reMatches re fl t n start).map (Found.edit (p.text l t))) :=
        hchain.splice.symm
      rw [List.nil_append] at h₂
      simp only [List.nil_append]
      cases he : reError re fl t n start with
      | some e =>
          rw [outcome_of_error he]
          exact .failed hno' he ⟨b₂, h₂.data, h₂.backed, h₂.size, h₂.content.left⟩
      | none =>
          obtain ⟨b₃, q, b₄, hcpy, hnew, hdown, hstr⟩ := h₂.finish
          rw [outcome_of_done he]
          simp only [cursorsAt, h₂.data, hcpy, hnew, hdown]
          refine .replaced hno' he ?_
          rw [← hspliced]
          exact hstr

/-- A text around a match. -/
theorem split_match (t : Bytes) {so eo : Nat} (h : so ≤ eo) :
    t = t.take so ++ (t.drop so).take (eo - so) ++ t.drop eo := by
  conv_rhs => rw [← Nat.add_sub_cancel' h, Nat.add_sub_cancel_left, ← List.drop_drop]
  rw [List.append_assoc, List.take_append_drop, List.take_append_drop]

theorem reRplcLenFromExec_ends (al : Alloc) {rplc : Nat} (hs : Str j t) (hre : re.Sound)
    (hl : MemAt env rplc l) (hstart : start = 0 ∨ start < t.length)
    (hfit : SizesFit t l (fun _ => l) (reMatches re fl t 1 start)) :
    Ends al re fl t (fun _ => l) start 1 j (fun _ => false) (fun j' => Str j' t)
      (reRplcLenFromExec env al re j start rplc l.length fl) := by
  have hs' := hs
  obtain ⟨b, hd, hb, hsz, hat⟩ := hs
  have hpos : start ≤ t.length := by omega
  have hone := @reRun_one re fl t start
  rw [reRplcLenFromExec, hsz, if_neg (not_badStart hstart)]
  simp only [JstrTy.deref, hd, bind, Except.bind, reSearch_str hat hpos]
  cases hans : re.answer fl t start with
  | noMatch => exact ends_none hans hs'
  | err e =>
      rw [hans] at hone
      exact .failed (fun _ _ => rfl) (congrArg Prod.snd hone) hs'
  | noerror rm =>
      rw [hans] at hone
      have hm : reMatches re fl t 1 start = [⟨start, rm⟩] := congrArg Prod.fst hone
      obtain ⟨-, hle, hend⟩ := hre.range hans hpos
      have hreq := hfit.loop.requests
      rw [hm] at hreq
      have hreq := hreq _ List.mem_cons_self
      simp only [Found.start, Found.stop] at hreq
      have hsplit := split_match t (show start + rm.whole.so ≤ start + rm.whole.eo by omega)
      rw [Nat.add_sub_add_left] at hsplit
      have htake : (t.take (start + rm.whole.so)).length = start + rm.whole.so := by
        rw [List.length_take]
        omega
      have hfind : ((t.drop (start + rm.whole.so)).take (rm.whole.eo - rm.whole.so)).length
          = rm.whole.eo - rm.whole.so := by
        rw [List.length_take, List.length_drop]
        omega
      have hlen := congrArg List.length hsplit
      rw [hsplit] at hs'
      have hcat := @rplcatLen_spec al j _ _ l _ hs'
        (by rw [← hlen]; simp only [sizeMax]; omega)
      rw [htake, hfind] at hcat
      simp only [window_of_memAt hl]
      rcases hr : rplcatLen al j (start + rm.whole.so) l (rm.whole.eo - rm.whole.so) with
        f | ⟨_ | q, j'⟩
      · rw [hr] at hcat
        have := hcat.2.2
        simp only [List.length_append, List.length_drop, htake] at this
        omega
      · rw [hr] at hcat
        obtain ⟨rfl, hden⟩ := hcat
        rw [List.append_assoc] at hden
        refine .noRoom ⟨j', _, List.mem_cons_of_mem _ List.mem_cons_self, ?_⟩ fun _ _ => rfl
        rw [hm]
        exact hden
      · rw [hr] at hcat
        rw [List.append_assoc] at hcat
        exact ends_one hans hcat

/-- What replaces a match: `l`, with its references resolved if `backref`. -/
def replacement (backref : Bool) (nmatch : Nat) (l t : Bytes) (f : Found) : Bytes :=
  if backref then expand (f.rm.text nmatch (t.drop f.pos)) l else l

/-- The call builds the new text behind the old one: there is something to
put, and it is put in more than one place or has references. -/
def rebuilds (backref : Bool) (n : Nat) (t l : Bytes) : Bool :=
  n ≠ 0 ∧ l ≠ [] ∧ ((n ≠ 1 ∧ t ≠ []) ∨ (backref = true ∧ refsFrom 0 l ≠ []))

/-- Memory runs out in the middle of the call. -/
def starvesCall (backref : Bool) (nmatch n : Nat) (t l : Bytes) (cap : Nat) (fs : List Found)
    (R : Nat → Bool) : Bool :=
  rebuilds backref n t l && starvesAt cap t (replacement backref nmatch l t) fs R

/-- What a failing matcher leaves: removal has overwritten the text with
`out`. -/
def leftOf (t l out : Bytes) (j : JstrTy) : Prop :=
  if l = [] then Overwritten t out j else Str j t

/-- From `check` on, without references. -/
theorem rplcnCheck_ends (al : Alloc) {rplc nmatch n' : Nat} (hs : Str j t) (hre : re.Sound)
    (hl : MemAt env rplc l) (hstart : start = 0 ∨ start < t.length) (hn : n ≠ 0)
    (hn' : n' = if t.length = 0 then 1 else n)
    (hfit : SizesFit t l (fun _ => l) (reMatches re fl t n start)) :
    Ends al re fl t (fun _ => l) start n j
      (fun R => (n ≠ 1 ∧ t ≠ [] : Bool)
        && starvesAt j.capacity t (fun _ => l) (reMatches re fl t n start) R) (fun j' => Str j' t)
      (rplcnCheck env al re j start rplc l.length fl nmatch n') := by
  rw [rplcnCheck, hs.content.size]
  by_cases hone : n = 1 ∨ t.length = 0
  · have hone' : n' = 1 ∨ t.length = 0 := by
      rw [hn']
      split <;> omega
    have hrun : reRun re fl t n start true = reRun re fl t 1 start true :=
      reRun_of_one (Nat.pos_of_ne_zero hn) (hone.imp id fun h => by omega)
    have hfalse : (n ≠ 1 ∧ t ≠ [] : Bool) = false := by
      rw [decide_eq_false_iff_not]
      rintro ⟨h1, h2⟩
      exact hone.elim h1 fun h => h2 (List.length_eq_zero_iff.mp h)
    rw [if_pos hone', reMatches, hrun]
    rw [reMatches, hrun] at hfit
    refine ((reRplcLenFromExec_ends al hs hre hl hstart hfit).of_run hrun).congr (fun R => ?_)
      fun _ h => h
    rw [hfalse, Bool.false_and]
  · have hn'' : n' = n := by
      rw [hn', if_neg fun h => hone (.inr h)]
    have htrue : (n ≠ 1 ∧ t ≠ [] : Bool) = true := by
      rw [decide_eq_true_iff]
      refine ⟨fun h => hone (.inl h), ?_⟩
      rintro rfl
      exact hone (.inr rfl)
    rw [if_neg (by rw [hn'']; exact hone), hn'']
    refine (@rplcnMany_ends sse2Build env re fl t l j start n al ⟨rplc, l.length, nmatch, none⟩ hs
      hre ⟨hl, rfl, fun _ _ h => by cases h⟩ (by omega) hfit).congr (fun R => ?_) fun _ h => h
    rw [htrue, Bool.true_and]
    rfl

theorem rplcnInternal_ends (cfg : Build) (al : Alloc) {rplc : Nat} (nmatch n : Nat)
    (backref : Bool) (hs : Str j t) (hre : re.Sound) (hl : MemAt env rplc l)
    (hstart : start = 0 ∨ start < t.length)
    (hstays : backref = true → ¬(refsFrom 0 l = [] ∧ endsInPair l = true))
    (hfit : SizesFit t l (replacement backref nmatch l t) (reMatches re fl t n start)) :
    Ends al re fl t (replacement backref nmatch l t) start n j
      (starvesCall backref nmatch n t l j.capacity (reMatches re fl t n start))
      (leftOf t l (compacted re fl t n start))
      (rplcnBackrefLenFromExecInternal cfg env al re j start rplc l.length fl nmatch n backref) := by
  have hsz := hs.content.size
  rw [rplcnBackrefLenFromExecInternal]
  by_cases hn : n = 0
  · subst hn
    rw [if_pos rfl]
    exact ends_zero hs fun _ _ => rfl
  rw [if_neg hn]
  by_cases hlen : l.length = 0
  · -- an empty replacement, references or not
    obtain rfl := List.length_eq_zero_iff.mp hlen
    have hnil : replacement backref nmatch [] t = fun _ => [] := by
      funext f
      rw [replacement]
      split <;> rfl
    rw [if_pos hlen, hnil]
    refine (reRmnFromExec_ends al n hs hre hstart).congr (fun R => ?_) fun j' h => ?_
    · rw [starvesCall, rebuilds]
      simp
    · rwa [leftOf, if_pos rfl]
  have hne : l ≠ [] := fun h => hlen (by rw [h]; rfl)
  have hleft : ∀ j', Str j' t → leftOf t l (compacted re fl t n start) j' := by
    intro j' h
    rwa [leftOf, if_neg hne]
  rw [if_neg hlen, hsz, if_neg (not_badStart hstart)]
  simp only
  generalize hn' : (if t.length = 0 then 1 else n) = n'
  cases backref with
  | false =>
      refine (@rplcnCheck_ends env re fl t l j start n al rplc nmatch n' hs hre hl hstart hn
        hn'.symm hfit).congr (fun R => ?_) hleft
      simp only [starvesCall, rebuilds, ne_eq, hn, hne, not_false_eq_true, true_and, Bool.false_eq_true,
        false_and, or_false]
      rfl
  | true =>
      have heq := backreffirst_eq hl
      rw [if_neg (hstays rfl)] at heq
      simp only [if_true, heq, bind, Except.bind]
      cases hrefs : refsFrom 0 l with
      | nil =>
          rw [hrefs] at heq
          have hplain : replacement true nmatch l t = fun _ => l := by
            funext f
            exact expand_of_refsFrom_nil _ hrefs
          rw [hplain] at hfit ⊢
          refine (@rplcnCheck_ends env re fl t l j start n al rplc nmatch n' hs hre hl hstart hn
            hn'.symm hfit).congr (fun R => ?_) hleft
          simp only [starvesCall, rebuilds, hplain, ne_eq, hn, hne, hrefs, not_false_eq_true,
            true_and, not_true_eq_false, and_false, or_false]
      | cons k ks =>
          rw [hrefs] at heq
          obtain ⟨e, -, he, -, -⟩ := backreflast_end cfg hl heq
          have hrun : reRun re fl t n' start true = reRun re fl t n start true := by
            rw [← hn']
            split
            · exact (reRun_of_one (Nat.pos_of_ne_zero hn) (.inr (by omega))).symm
            · rfl
          have hm : reMatches re fl t n' start = reMatches re fl t n start := congrArg Prod.fst hrun
          rw [← hm] at hfit ⊢
          simp only [List.head?_cons, Option.map_some] at heq he ⊢
          simp only [he]
          refine ((@rplcnMany_ends cfg env re fl t l j start n' al
            ⟨rplc, l.length, nmatch, some (rplc + k, e.getD (rplc + k + 2))⟩ hs hre
            ⟨hl, rfl, fun _ _ h => ?_⟩ (by omega) hfit).of_run hrun.symm).congr (fun R => ?_) hleft
          · cases h
            exact ⟨heq, e, he, rfl⟩
          · simp only [starvesCall, rebuilds, ne_eq, hn, hne, hrefs, not_false_eq_true, reduceCtorEq,
              or_true, and_self, decide_true, Bool.true_and]
            rfl

/-- The call returns, and with a count it has replaced that many matches, at
most `n`, by what `text` gives for them. The matches lie one behind the other
from `start` on; each is the answer on the unchanged text, searched where the
one before says. -/
def ReplacesMatches (re : ReTy) (fl : Eflags) (t : Bytes) (text : Found → Bytes) (start n : Nat)
    (r : Run (ReOff × JstrTy)) : Prop :=
  ∃ o j', r = .ok (o, j') ∧ ∀ k, o = .changed k → ∃ fs, fs = reMatches re fl t n start ∧
    k = fs.length ∧ k ≤ n ∧ Searched re fl t start fs ∧
    Ordered t.length start (fs.map (Found.edit text)) ∧
    Str j' (splice t 0 (fs.map (Found.edit text)))

theorem Ends.replacesMatches {al : Alloc} {text : Found → Bytes} {starved : (Nat → Bool) → Bool}
    {left : JstrTy → Prop} {r : Run (ReOff × JstrTy)} (hre : re.Sound) (hpos : start ≤ t.length)
    (h : Ends al re fl t text start n j starved left r) :
    ReplacesMatches re fl t text start n r := by
  cases h with
  | replaced _ _ hstr =>
      refine ⟨_, _, rfl, fun k hk => ?_⟩
      cases hk
      exact ⟨_, rfl, rfl, length_reRun_le n start true, searched_reRun n start true,
        (chained_reRun hre n start true hpos).ordered, hstr⟩
  | failed => exact ⟨_, _, rfl, fun k hk => nomatch hk⟩
  | noRoom => exact ⟨_, _, rfl, fun k hk => nomatch hk⟩
  | starved => exact ⟨_, _, rfl, fun k hk => nomatch hk⟩

theorem stays_of_ok {rplc : Nat} {r : Option Nat} (hl : MemAt env rplc l)
    (h : backreffirst env rplc l.length = .ok r) : ¬(refsFrom 0 l = [] ∧ endsInPair l = true) := by
  intro hbad
  rw [backreffirst_eq hl, if_pos hbad] at h
  cases h

/-- The three functions: whatever the matcher answers, a call that reports
no error leaves the text with the matches replaced. -/
theorem re_replacesMatches (cfg : Build) (al : Alloc) (n : Nat) (hs : Str j t) (hre : re.Sound)
    (hstart : start = 0 ∨ start < t.length) {rplc : Nat} (hl : MemAt env rplc l) :
    ReplacesMatches re fl t (fun _ => []) start n (reRmnFromExec env re j start fl n) ∧
      (SizesFit t l (fun _ => l) (reMatches re fl t n start) →
        ReplacesMatches re fl t (fun _ => l) start n
          (reRplcnLenFromExec cfg env al re j start rplc l.length fl n)) ∧
      ∀ nmatch r, backreffirst env rplc l.length = .ok r →
        SizesFit t l (replacement true nmatch l t) (reMatches re fl t n start) →
        ReplacesMatches re fl t (replacement true nmatch l t) start n
          (reRplcnBackrefLenFromExec cfg env al re j start rplc l.length fl nmatch n) := by
  have hpos : start ≤ t.length := by omega
  refine ⟨(reRmnFromExec_ends al n hs hre hstart).replacesMatches hre hpos, fun hfit => ?_,
    fun nmatch r hr hfit => ?_⟩
  · exact (rplcnInternal_ends cfg al 1 n false hs hre hl hstart (fun h => nomatch h)
      hfit).replacesMatches hre hpos
  · exact (rplcnInternal_ends cfg al nmatch n true hs hre hl hstart (fun _ => stays_of_ok hl hr)
      hfit).replacesMatches hre hpos

/-- The expression that is one literal byte. -/
def literal (c : UInt8) : ReTy where
  regexec w _ := match Words.search [c] w with
    | some k => .noerror ⟨⟨k, k + 1⟩, fun _ => none⟩
    | none => .noMatch
  newline := false

theorem literal_sound (c : UInt8) : (literal c).Sound := by
  intro w fl rm h i r hr
  simp only [literal] at h
  cases hk : Words.search [c] w with
  | none =>
      rw [hk] at h
      cases h
  | some k =>
      have hlt := Words.search_lt hk
      rw [hk] at h
      cases h
      rw [Groups.get] at hr
      split at hr
      · cases hr
        exact ⟨Nat.le_succ k, hlt⟩
      · cases hr

/-- "aba" at address 64: each "a" removed, replaced by "xy", and doubled. -/
theorem re_replacesMatches_aba :
    ReplacesMatches (literal 97) ⟨false, false⟩ [97, 98, 97] (fun _ => []) 0 5
        (reRmnFromExec (memOf [120, 121]) (literal 97) ⟨some ⟨64, [97, 98, 97, 0]⟩, 3, 4⟩ 0
          ⟨false, false⟩ 5) ∧
      ReplacesMatches (literal 97) ⟨false, false⟩ [97, 98, 97] (fun _ => [120, 121]) 0 5
        (reRplcnLenFromExec sse2Build (memOf [120, 121]) (Alloc.filling 4096 0) (literal 97)
          ⟨some ⟨64, [97, 98, 97, 0]⟩, 3, 4⟩ 0 0 2 ⟨false, false⟩ 5) ∧
      ReplacesMatches (literal 97) ⟨false, false⟩ [97, 98, 97]
        (replacement true 1 [92, 48, 92, 48] [97, 98, 97]) 0 5
        (reRplcnBackrefLenFromExec sse2Build (memOf [92, 48, 92, 48]) (Alloc.filling 4096 0)
          (literal 97) ⟨some ⟨64, [97, 98, 97, 0]⟩, 3, 4⟩ 0 0 4 ⟨false, false⟩ 1 5) := by
  have hs : Str ⟨some ⟨64, [97, 98, 97, 0]⟩, 3, 4⟩ [97, 98, 97] :=
    ⟨_, rfl, rfl, rfl, by decide, by decide⟩
  have hplain := @re_replacesMatches (memOf [120, 121]) (literal 97) ⟨false, false⟩ _ [120, 121] _ 0
    sse2Build (Alloc.filling 4096 0) 5 hs (literal_sound 97) (.inl rfl) 0 (by decide)
  have hrefs := @re_replacesMatches (memOf [92, 48, 92, 48]) (literal 97) ⟨false, false⟩ _
    [92, 48, 92, 48] _ 0 sse2Build (Alloc.filling 4096 0) 5 hs (literal_sound 97) (.inl rfl) 0
    (by decide)
  exact ⟨hplain.1, hplain.2.1 ⟨by decide, by decide, by decide⟩,
    hrefs.2.2 1 (some 0) (by decide) ⟨by decide, by decide, by decide⟩⟩

end Functions

end Jstr
