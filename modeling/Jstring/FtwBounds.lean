import Jstring.FtwStart

/-!
# The room for the path

The walk builds every path in a buffer of `JSTR_IO_PATH_MAX` bytes. The model
lets the buffer grow, so whether the paths fit is a statement about its length. The
guard before an entry adds the lengths of the directory's path and of the
name, and both its forms say the same (`tooLong_eq_false`). It counts
neither the slash between them nor the terminator, so that what it lets pass
fits but for the one sum that needs a byte more than there is.

- `PathBuilt`: the entries whose path is built, by some callbacks or other;
- `readLoop_keeps`: what building those paths keeps, the loop keeps;
- `Continues.built_le`: where everything is let pass they are built;
- `pathsFit_iff`.
-/

namespace Jstr

/-! ## The buffer -/

/-- The buffer holds what was written to it. -/
def FtwState.Fits (s : FtwState) : Prop := s.dirpath.length ≤ ioPathMax

/-- Whatever the callbacks are and answer, the paths fit. -/
def PathsFit (o : FtwOpts) (start : Start) (dirpath : Bytes) : Prop :=
  ∀ a : FtwData, a.opts = o → (ioFtwLen a start dirpath).2.Fits

/-- Both forms of the guard compare the sum of the lengths. -/
theorem tooLong_eq_false {o : FtwOpts} {n : Nat} {name : Name} :
    o.tooLong n name = false ↔ n + name.chrs.length < ioPathMax := by
  have hle := name.le
  unfold FtwOpts.tooLong
  split
  · rw [decide_eq_false_iff_not]
    omega
  · rw [decide_eq_false_iff_not]
    simp only [ioNameMax, ioPathMax] at hle ⊢
    omega

theorem length_appendpathLenP (path fname : Bytes) (sz : Nat) :
    path.length ≤ (appendpathLenP path sz fname).1.length ∧
      (appendpathLenP path sz fname).1.length ≤ max path.length (sz + fname.length + 2) ∧
      (sz ≤ path.length → sz + fname.length + 2 ≤ (appendpathLenP path sz fname).1.length) := by
  simp only [appendpathLenP, List.length_append, List.length_take, List.length_cons,
    List.length_drop]
  omega

/-! ## The entries whose path is built -/

/-- The path of the first entry is built; for a file, if `FUNC_MATCH` is asked about the
path or lets it pass. -/
def FtwOpts.builds (o : FtwOpts) : Dir → Bool
  | .done => false
  | .file _ type _ => !o.useAtfile || o.reports type
  | .lost _ _ _ => !o.useAtfile
  | .sub _ _ _ _ _ => !o.useAtfile || !(o.nosubdir && !o.reportsDirs)

/-- The walk goes on behind the first entry, if it is not stopped. -/
def FtwOpts.goesPast (o : FtwOpts) : Dir → Nat → Bool
  | .done, _ => false
  | .file name _ _, n => o.ignored name || !o.tooLong n name
  | .lost name e _, n => o.ignored name || (!o.tooLong n name && e.nonfatal)
  | .sub name openErr dirErr entries _, n =>
    o.ignored name || (!o.tooLong n name &&
      !o.passesUp openErr dirErr (Fails o entries (n + 1 + name.chrs.length)))

/-- The path of the entry `name` of a directory whose own takes `m` bytes is
built, in `d` at a path of `n` bytes or below it. -/
inductive PathBuilt (o : FtwOpts) : Dir → Nat → Nat → Name → Prop where
  | here {d name rest n} (hd : Heads d name rest) (hi : o.ignored name = false)
      (hl : o.tooLong n name = false) (hb : o.builds d = true) : PathBuilt o d n n name
  | later {d name rest n m name'} (hd : Heads d name rest) (hgo : o.goesPast d n = true)
      (h : PathBuilt o rest n m name') : PathBuilt o d n m name'
  | inner {name openErr entries rest n m name'} (hi : o.ignored name = false)
      (hl : o.tooLong n name = false) (hent : o.enters openErr = true)
      (h : PathBuilt o entries (n + 1 + name.chrs.length) m name') :
      PathBuilt o (.sub name openErr none entries rest) n m name'

/-! ## The buffer after each piece -/

section Pieces

variable {a : FtwData} {c : List Name} {p : Bytes} {name : Name} {s : FtwState}

theorem func_dirpath (a : FtwData) (entry : List Name) (s : FtwState) :
    (func a entry s).2.dirpath = s.dirpath := by
  obtain ⟨flow, s₂, hr, hfunc⟩ := func_report a entry s
  rw [hfunc]
  exact hr.dirpath.1

theorem ready_dirpath (a : FtwData) (n : Nat) (name : Name) (s : FtwState) :
    (ready a n name s).dirpath
      = if a.opts.useAtfile then s.dirpath else (fillPathAlways n name s).dirpath := by
  unfold ready
  split
  · rfl
  · rfl

/-- Nothing is built for a file, or its path is. -/
theorem doReg_dirpath (a : FtwData) (c : List Name) (n : Nat) (name : Name) (s : FtwState) :
    (doReg a c n name (ready a n name s)).2.dirpath = (ready a n name s).dirpath ∨
      (doReg a c n name (ready a n name s)).2.dirpath = (fillPathAlways n name s).dirpath := by
  have hsame : ∀ ms, (fillPath a n name { ready a n name s with matchCalls := ms }).dirpath
      = (fillPathAlways n name s).dirpath := by
    intro ms
    rw [← fillPath_ready a, fillPath, fillPath]
    split <;> rfl
  unfold doReg
  cases a.funcMatch with
  | none =>
      rw [fillPath_ready]
      exact .inr (func_dirpath a _ _)
  | some m =>
      by_cases hmp : a.opts.matchpath
      · refine .inr ?_
        simp only [if_pos hmp, fillPath_ready, callMatch]
        cases m (cstr (fillPathAlways n name s).dirpath) (fillPathAlways n name s).dirpathLen with
        | true => rfl
        | false => exact func_dirpath a _ _
      · simp only [if_neg hmp, callMatch]
        rcases Bool.eq_false_or_eq_true (m name.chrs name.chrs.length) with hrej | hrej
        · simp only [hrej]
          exact .inl rfl
        · simp only [hrej]
          exact .inr ((func_dirpath a _ _).trans (hsame _))

theorem fileEntry_dirpath (c : List Name) (s : FtwState) (rest : Dir)
    (hi : a.opts.ignored name = false) (hl : a.opts.tooLong p.length name = false)
    (type : FileType) :
    (fileEntry a c p.length name type s).2.dirpath = s.dirpath ∨
      a.opts.builds (.file name type rest) = true ∧
        (fileEntry a c p.length name type s).2.dirpath
          = (fillPathAlways p.length name s).dirpath := by
  have hready := ready_dirpath a p.length name s
  have hreg := doReg_dirpath a c p.length name s
  rw [fileEntry_past c s hi hl, FtwOpts.builds]
  cases hat : a.opts.useAtfile <;> cases hrep : a.opts.reports type <;>
    simp_all

theorem lostEntry_dirpath (c : List Name) (s : FtwState) (rest : Dir)
    (hi : a.opts.ignored name = false) (hl : a.opts.tooLong p.length name = false) (e : Errno) :
    (lostEntry a c p.length name e s).2.dirpath
      = if a.opts.builds (.lost name e rest) then (fillPathAlways p.length name s).dirpath
        else s.dirpath := by
  have hsame : (lostEntry a c p.length name e s).2.dirpath = (ready a p.length name s).dirpath := by
    rw [lostEntry_eq c hi hl]
    split
    · split
      · exact func_dirpath a _ _
      · rfl
    · rfl
  rw [hsame, ready_dirpath, FtwOpts.builds]
  cases a.opts.useAtfile <;> rfl

/-- Calling `FUNC` on a directory, and looking whether to go into it, builds nothing. -/
theorem enter_spec (a : FtwData) (entry : List Name) (openErr : Option Errno) (s : FtwState) :
    let x := Piece.andThen (if a.opts.reportsDirs then funcDir a entry s else (.on, s))
      (gate a openErr)
    x.2.dirpath = s.dirpath ∧ x.2.dirpathLen = s.dirpathLen ∧
      (x.1 = .on → a.opts.enters openErr = true) ∧
      (x.1 = .next → a.opts.actionretval = true ∨ a.opts.enters openErr = false) := by
  have hgate : ∀ s : FtwState, (gate a openErr s).2.dirpath = s.dirpath ∧
      (gate a openErr s).2.dirpathLen = s.dirpathLen ∧
      ((gate a openErr s).1 = .on → a.opts.enters openErr = true) ∧
      ((gate a openErr s).1 = .next → a.opts.actionretval = true ∨
        a.opts.enters openErr = false) := by
    intro s
    rw [gate_eq]
    rcases Bool.eq_false_or_eq_true (a.opts.enters openErr) with hent | hent
    · rw [if_pos hent]
      exact ⟨rfl, rfl, fun _ => hent, (by intro h; cases h)⟩
    · rw [hent]
      exact ⟨rfl, rfl, (by intro h; cases h), fun _ => .inr rfl⟩
  intro x
  obtain ⟨flow, s₂, hr, hfunc⟩ := funcDir_report a entry s
  simp only [x]
  split
  · rw [hfunc]
    cases flow with
    | on =>
        obtain ⟨hpath, hlen, hrest⟩ := hgate s₂
        exact ⟨hpath.trans hr.dirpath.1, hlen.trans hr.dirpath.2, hrest⟩
    | next =>
        exact ⟨hr.dirpath.1, hr.dirpath.2, (by intro h; cases h),
          fun _ => .inl hr.actionretval_of_next⟩
    | brk => exact ⟨hr.dirpath.1, hr.dirpath.2, (by intro h; cases h), (by intro h; cases h)⟩
    | ret r => exact ⟨hr.dirpath.1, hr.dirpath.2, (by intro h; cases h), (by intro h; cases h)⟩
  · exact hgate s

/-- A directory: its path is built or not, it is gone into at that path. -/
theorem dirEntry_spec (c : List Name) (s : FtwState) (dirErr : Option Errno) (entries rest : Dir)
    (hi : a.opts.ignored name = false) (hl : a.opts.tooLong p.length name = false)
    (openErr : Option Errno) :
    let x := dirEntry a c p.length name openErr s
    x.2.dirpath = (if a.opts.builds (.sub name openErr dirErr entries rest) then
        (fillPathAlways p.length name s).dirpath else s.dirpath) ∧
      (x.1 = .on → a.opts.enters openErr = true ∧ x.2.dirpathLen = (under p name).length) ∧
      (x.1 = .next → a.opts.actionretval = true ∨ a.opts.enters openErr = false) := by
  intro x
  have hskip : (a.opts.nosubdir ∧ a.opts.reg ∧ ¬a.opts.dir) ↔
      (a.opts.nosubdir && !a.opts.reportsDirs) = true := by
    rw [FtwOpts.reportsDirs]
    cases a.opts.nosubdir <;> cases a.opts.reg <;> cases a.opts.dir <;> decide
  have hx : x = if a.opts.nosubdir && !a.opts.reportsDirs then (.next, ready a p.length name s)
      else Piece.andThen (if a.opts.reportsDirs then
          funcDir a (c ++ [name]) (fillPathAlways p.length name s)
        else (.on, fillPathAlways p.length name s)) (gate a openErr) := by
    simp only [x]
    rw [dirEntry, screen_eq hi hl]
    simp only [Piece.andThen, fillPath_ready, ite_reports (reportsDirs_iff a.opts), hskip]
    rfl
  rw [hx, FtwOpts.builds]
  cases hs : (a.opts.nosubdir && !a.opts.reportsDirs) with
  | true =>
      have hent : a.opts.enters openErr = false := by
        rw [Bool.and_eq_true] at hs
        rw [FtwOpts.enters, hs.1]
        rfl
      rw [if_pos rfl, ready_dirpath]
      refine ⟨?_, (by intro h; cases h), fun _ => .inr hent⟩
      cases a.opts.useAtfile <;> rfl
  | false =>
      obtain ⟨hpath, hlen, hon, hnext⟩ :=
        enter_spec a (c ++ [name]) openErr (fillPathAlways p.length name s)
      rw [if_neg Bool.false_ne_true]
      refine ⟨?_, fun h => ⟨hon h, ?_⟩, hnext⟩
      · rw [Bool.not_false, Bool.or_true, if_pos rfl]
        exact hpath
      · rw [length_under]
        exact hlen

/-- An entry that is ignored changes nothing, one that is too long ends the loop. -/
theorem readLoop_ignored {d rest : Dir} (hd : Heads d name rest) (n : Nat)
    (hi : a.opts.ignored name = true) : readLoop a d c n s = readLoop a rest c n s := by
  cases hd with
  | file =>
      rw [readLoop, fileEntry, screen_ignored _ hi]
      rfl
  | lost =>
      rw [readLoop, lostEntry, screen_ignored _ hi]
      rfl
  | sub =>
      rw [readLoop, dirEntry, screen_ignored _ hi]
      rfl

theorem readLoop_tooLong {d rest : Dir} {n : Nat} (hd : Heads d name rest)
    (hi : a.opts.ignored name = false) (hl : a.opts.tooLong n name = true) :
    readLoop a d c n s = (.err, { s with failed := true }) := by
  cases hd with
  | file =>
      rw [readLoop, fileEntry, screen_tooLong hi hl]
      rfl
  | lost =>
      rw [readLoop, lostEntry, screen_tooLong hi hl]
      rfl
  | sub =>
      rw [readLoop, dirEntry, screen_tooLong hi hl]
      rfl

theorem goesPast_of_ignored {o : FtwOpts} {d rest : Dir} (hd : Heads d name rest) (n : Nat)
    (hi : o.ignored name = true) : o.goesPast d n = true := by
  cases hd <;> simp only [FtwOpts.goesPast, hi, Bool.true_or]

/-- The directory's path is still in front once the path of an entry is built. -/
theorem fillPathAlways_prefix (hp : p <+: s.dirpath) (h0 : 0 ∉ p) (name : Name) :
    p <+: (fillPathAlways p.length name s).dirpath :=
  have hready := (fillPathAlways_ready hp h0 name).1
  hready.dirpath_prefix hp

theorem under_prefix (hp : p <+: s.dirpath) (h0 : 0 ∉ p) (name : Name) :
    under p name <+: (fillPathAlways p.length name s).dirpath := by
  rw [← (fillPathAlways_ready hp h0 name).2.path]
  exact List.takeWhile_prefix _

/-- The path of a directory that is gone into is built. -/
theorem builds_of_enters {o : FtwOpts} {openErr : Option Errno} (dirErr : Option Errno)
    (entries rest : Dir) (h : o.enters openErr = true) :
    o.builds (.sub name openErr dirErr entries rest) = true := by
  rw [FtwOpts.enters, Bool.and_eq_true, Bool.not_eq_true'] at h
  rw [FtwOpts.builds, h.1, Bool.false_and, Bool.not_false, Bool.or_true]

end Pieces

/-! ## What the loop keeps -/

section Keeps

variable {a : FtwData} {P : Bytes → Prop}

/-- The buffer after an entry: as it was, or with the path of the entry. -/
structure BufferAfter (P : Bytes → Prop) (p : Bytes) (s₁ : FtwState) : Prop where
  keeps : P s₁.dirpath
  front : p <+: s₁.dirpath

theorem eq_or_of_ite {α : Type} {b : Bool} {x y z : α} (h : x = if b then y else z) :
    x = z ∨ b = true ∧ x = y := by
  cases b with
  | true => exact .inr ⟨rfl, h⟩
  | false => exact .inl h

theorem bufferAfter_of_dirpath {p : Bytes} {name : Name} {s s₁ : FtwState} {b : Prop}
    (hs : BufferAfter P p s) (h0 : 0 ∉ p)
    (hP : b → ∀ buf, P buf → P (appendpathLenP buf p.length name.chrs).1)
    (h : s₁.dirpath = s.dirpath ∨ b ∧ s₁.dirpath = (fillPathAlways p.length name s).dirpath) :
    BufferAfter P p s₁ := by
  rcases h with heq | ⟨hb, heq⟩
  · exact ⟨heq ▸ hs.keeps, heq ▸ hs.front⟩
  · exact ⟨heq ▸ hP hb s.dirpath hs.keeps, heq ▸ fillPathAlways_prefix hs.front h0 name⟩

theorem settle_keeps {p : Bytes} {x : Piece} {k : FtwState → RetTy × FtwState}
    (hx : BufferAfter P p x.2)
    (hk : x.1 = .next ∨ x.1 = .on → ∀ s, BufferAfter P p s → P (k s).2.dirpath) :
    P (x.settle k).2.dirpath := by
  obtain ⟨flow, s⟩ := x
  cases flow with
  | next => exact hk (.inl rfl) s hx
  | on => exact hk (.inr rfl) s hx
  | brk => exact hx.keeps
  | ret r => exact hx.keeps

/-- Only an entry that is neither ignored nor too long is looked into. -/
theorem head_keeps {d rest : Dir} {name : Name} {c : List Name} {p : Bytes} {s : FtwState}
    (hd : Heads d name rest) (hs : BufferAfter P p s)
    (hrest : a.opts.goesPast d p.length = true → ∀ s, BufferAfter P p s →
      P (readLoop a rest c p.length s).2.dirpath)
    (hpast : a.opts.ignored name = false → a.opts.tooLong p.length name = false →
      P (readLoop a d c p.length s).2.dirpath) :
    P (readLoop a d c p.length s).2.dirpath := by
  rcases Bool.eq_false_or_eq_true (a.opts.ignored name) with hi | hi
  · rw [readLoop_ignored hd _ hi]
    exact hrest (goesPast_of_ignored hd _ hi) s hs
  rcases Bool.eq_false_or_eq_true (a.opts.tooLong p.length name) with hl | hl
  · rw [readLoop_tooLong hd hi hl]
    exact hs.keeps
  · exact hpast hi hl

/-- What follows the walk of a nested directory, or its failing to open. -/
theorem nested_keeps {p : Bytes} {r : RetTy × FtwState} {k : FtwState → RetTy × FtwState}
    (hr : BufferAfter P p r.2)
    (hk : GoesOn a r.1 r.2 → ∀ s, BufferAfter P p s → P (k s).2.dirpath) :
    P ((nested a r).settle k).2.dirpath := by
  rcases nested_settle a r k with ⟨hgo, hset⟩ | ⟨-, hset⟩
  · rw [hset]
    exact hk hgo r.2 hr
  · rw [hset]
    exact hr.keeps

/-- The walk of a nested directory at its own path leaves that of the directory it is in,
and if the loop goes on no error is passed up. -/
theorem inner_bufferAfter {p : Bytes} {name : Name} {s s₁ : FtwState} {c : List Name}
    {openErr : Option Errno} (dirErr : Option Errno) (entries : Dir) (hp : p <+: s.dirpath)
    (h0 : 0 ∉ p) (hpath : s₁.dirpath = (fillPathAlways p.length name s).dirpath)
    (hlen : s₁.dirpathLen = (under p name).length) (hs : P s₁.dirpath)
    (hin : dirErr = none → ∀ s, BufferAfter P (under p name) s →
      P (readLoop a entries c (under p name).length s).2.dirpath) :
    let r := match dirErr with
      | some e => unopened a c e s₁.dirpathLen s₁
      | none => readLoop a entries c s₁.dirpathLen s₁
    BufferAfter P p r.2 ∧ (GoesOn a r.1 r.2 →
      a.opts.passesUp openErr dirErr (Fails a.opts entries (under p name).length) = false) := by
  have hunder : under p name <+: s₁.dirpath := hpath ▸ under_prefix hp h0 name
  have hfront : p <+: under p name := List.prefix_append _ _
  cases dirErr with
  | some e =>
      have hsame := unopened_dirpath a c e s₁.dirpathLen s₁
      exact ⟨⟨hsame ▸ hs, hsame ▸ hfront.trans hunder⟩, passesUp_unopened_of_goesOn _ _⟩
  | none =>
      obtain ⟨hreads, hleft⟩ :=
        readLoop_reads a entries c (under p name) s₁ (noNul_under h0 name) hunder
      simp only [hlen]
      exact ⟨⟨hin rfl s₁ ⟨hs, hunder⟩, hfront.trans hleft⟩, hreads.passesUp_of_goesOn _⟩

/-- What building the path of every entry keeps, the loop keeps. -/
theorem readLoop_keeps (d : Dir) (c : List Name) (p : Bytes) (s : FtwState) (h0 : 0 ∉ p)
    (hs : BufferAfter P p s)
    (h : ∀ m name, PathBuilt a.opts d p.length m name →
      ∀ buf, P buf → P (appendpathLenP buf m name.chrs).1) :
    P (readLoop a d c p.length s).2.dirpath := by
  induction d generalizing c p s with
  | done => exact hs.keeps
  | file name type rest ih =>
      have hrest : a.opts.goesPast (.file name type rest) p.length = true → ∀ s, BufferAfter P p s →
          P (readLoop a rest c p.length s).2.dirpath :=
        fun hgo s hs => ih c p s h0 hs fun m n hb => h m n (.later .file hgo hb)
      refine head_keeps .file hs hrest fun hi hl => ?_
      have hbuf := bufferAfter_of_dirpath hs h0 (fun hb => h _ _ (.here .file hi hl hb))
        (fileEntry_dirpath c s rest hi hl type)
      refine settle_keeps hbuf fun _ => hrest ?_
      rw [FtwOpts.goesPast, hl, Bool.not_false, Bool.or_true]
  | lost name e rest ih =>
      have hrest : a.opts.goesPast (.lost name e rest) p.length = true → ∀ s, BufferAfter P p s →
          P (readLoop a rest c p.length s).2.dirpath :=
        fun hgo s hs => ih c p s h0 hs fun m n hb => h m n (.later .lost hgo hb)
      refine head_keeps .lost hs hrest fun hi hl => ?_
      have hbuf := bufferAfter_of_dirpath hs h0 (fun hb => h _ _ (.here .lost hi hl hb))
        (eq_or_of_ite (lostEntry_dirpath c s rest hi hl e))
      refine settle_keeps hbuf fun hflow => hrest ?_
      rw [FtwOpts.goesPast, hl, Bool.not_false, Bool.true_and]
      rcases Bool.eq_false_or_eq_true e.nonfatal with he | he
      · rw [he, Bool.or_true]
      · rw [lostEntry_eq c hi hl, he] at hflow
        rcases hflow with hflow | hflow <;> exact nomatch hflow
  | sub name openErr dirErr entries rest ihIn ihRest =>
      have hrest : a.opts.goesPast (.sub name openErr dirErr entries rest) p.length = true →
          ∀ s, BufferAfter P p s → P (readLoop a rest c p.length s).2.dirpath :=
        fun hgo s hs => ihRest c p s h0 hs fun m n hb => h m n (.later .sub hgo hb)
      refine head_keeps .sub hs hrest fun hi hl => ?_
      have hgo :
          a.opts.passesUp openErr dirErr (Fails a.opts entries (under p name).length) = false →
          a.opts.goesPast (.sub name openErr dirErr entries rest) p.length = true := by
        intro hup
        rw [length_under] at hup
        rw [FtwOpts.goesPast, hl, hup]
        exact Bool.or_true _
      obtain ⟨hpath, hon, hnext⟩ := dirEntry_spec c s dirErr entries rest hi hl openErr
      have hbuf := bufferAfter_of_dirpath hs h0 (fun hb => h _ _ (.here .sub hi hl hb))
        (eq_or_of_ite hpath)
      rw [readLoop]
      rcases hx : dirEntry a c p.length name openErr s with ⟨flow, s₁⟩
      rw [hx] at hbuf hon hnext
      cases flow with
      | next =>
          refine hrest (hgo ?_) s₁ hbuf
          rcases hnext rfl with hact | hent
          · exact passesUp_of_actionretval hact _ _ _
          · rw [FtwOpts.passesUp, hent]
            rfl
      | brk | ret => exact hbuf.keeps
      | on =>
          obtain ⟨hent, hlen⟩ := hon rfl
          rw [builds_of_enters dirErr entries rest hent, if_pos rfl, hx] at hpath
          obtain ⟨hleft, hup⟩ := inner_bufferAfter dirErr entries hs.front h0 hpath hlen hbuf.keeps
            fun hnone s hs => ihIn (c ++ [name]) (under p name) s (noNul_under h0 name) hs
              fun m n hb => h m n (by
                subst hnone
                exact .inner hi hl hent (length_under p name ▸ hb))
          exact nested_keeps hleft fun hgoes => hrest (hgo (hup hgoes))

end Keeps

/-! ## The paths are built where everything is let pass -/

section Continues

variable {a : FtwData} {c : List Name} {p : Bytes} {name : Name} {s : FtwState}

theorem Continues.func_eq (hcont : Continues a) (entry : List Name) (s : FtwState) :
    func a entry s = (.next, s.called entry) := by
  obtain ⟨flow, s₂, hr, hfunc⟩ := func_report a entry s
  obtain ⟨rfl, rfl⟩ := hr.of_continues hcont
  rw [hfunc]
  rfl

theorem Continues.funcDir_eq (hcont : Continues a) (entry : List Name) (s : FtwState) :
    funcDir a entry s = (.on, s.called entry) := by
  obtain ⟨flow, s₂, hr, hfunc⟩ := funcDir_report a entry s
  obtain ⟨rfl, rfl⟩ := hr.of_continues hcont
  exact hfunc

/-- The state after an entry that the walk goes past. -/
structure GonePast (p : Bytes) (s s₁ : FtwState) : Prop where
  front : p <+: s₁.dirpath
  stop : s₁.actionStop = s.actionStop

theorem Ready.gonePast {ms : List FtwCall} {s₁ : FtwState} (h : Ready (under p name) ms s s₁)
    (hp : p <+: s.dirpath) : GonePast p s s₁ :=
  { front := h.dirpath_prefix hp, stop := h.stop }

/-- A file is gone past, and its path is built if it can be. -/
theorem Continues.fileEntry_eq (hcont : Continues a) (hmatch : a.funcMatch = none)
    (c : List Name) (rest : Dir) (hp : p <+: s.dirpath) (h0 : 0 ∉ p)
    (hi : a.opts.ignored name = false) (hl : a.opts.tooLong p.length name = false)
    (type : FileType) :
    ∃ s₁, fileEntry a c p.length name type s = (.next, s₁) ∧ GonePast p s s₁ ∧
      (a.opts.builds (.file name type rest) = true →
        s₁.dirpath = (fillPathAlways p.length name s).dirpath) := by
  have hfill := (fillPathAlways_ready hp h0 name).1.gonePast hp
  have hready := (ready_spec a hp h0 name).1.gonePast hp
  rw [fileEntry_past c s hi hl, FtwOpts.builds]
  cases a.opts.reports type with
  | true =>
      rw [if_pos rfl, doReg, hmatch]
      simp only [fillPath_ready, hcont.func_eq]
      exact ⟨_, rfl, ⟨hfill.front, hfill.stop⟩, fun _ => rfl⟩
  | false =>
      rw [if_neg Bool.false_ne_true]
      refine ⟨_, rfl, hready, fun hb => ?_⟩
      rw [Bool.or_false, Bool.not_eq_true'] at hb
      rw [ready_dirpath, hb]
      rfl

/-- A directory is gone into, or past. -/
theorem Continues.dirEntry_eq (hcont : Continues a) (c : List Name) (hp : p <+: s.dirpath)
    (h0 : 0 ∉ p) (hi : a.opts.ignored name = false) (hl : a.opts.tooLong p.length name = false)
    (openErr : Option Errno) :
    ∃ s₁, dirEntry a c p.length name openErr s
        = (if a.opts.enters openErr then .on else .next, s₁) ∧ GonePast p s s₁ := by
  obtain ⟨s', hready, -, hrun⟩ := Jstr.dirEntry_eq c hi hl hp h0 openErr
  have hpast := hready.gonePast hp
  have hon : ∃ s₂, (if a.opts.reportsDirs then funcDir a (c ++ [name]) s' else (.on, s'))
      = (.on, s₂) ∧ GonePast p s s₂ := by
    rw [hcont.funcDir_eq]
    split
    · exact ⟨_, rfl, hpast.front, hpast.stop⟩
    · exact ⟨_, rfl, hpast⟩
  obtain ⟨s₂, hon, hpast₂⟩ := hon
  rw [hrun, hon]
  simp only [Piece.andThen, gate_eq]
  split
  · exact ⟨_, rfl, hpast₂⟩
  · exact ⟨_, rfl, hpast₂.front, hpast₂.stop⟩

/-- One that is gone into is gone into at its own path. -/
theorem Continues.dirEntry_enters (hcont : Continues a) (c : List Name) (hp : p <+: s.dirpath)
    (h0 : 0 ∉ p) (hi : a.opts.ignored name = false) (hl : a.opts.tooLong p.length name = false)
    {openErr : Option Errno} (hent : a.opts.enters openErr = true) :
    ∃ s₁, dirEntry a c p.length name openErr s = (.on, s₁) ∧ GonePast p s s₁ ∧
      s₁.dirpath = (fillPathAlways p.length name s).dirpath ∧
      s₁.dirpathLen = (under p name).length := by
  obtain ⟨s₁, hrun, hpast⟩ := hcont.dirEntry_eq c hp h0 hi hl openErr
  obtain ⟨hpath, hon, -⟩ := dirEntry_spec c s none .done .done hi hl openErr
  rw [builds_of_enters none .done .done hent, if_pos rfl, hrun] at hpath
  rw [hrun, hent] at hon
  rw [hrun, hent]
  exact ⟨s₁, rfl, hpast, hpath, (hon rfl).2⟩

/-- A nested directory is left with an error that is passed up, or gone past. -/
theorem Continues.nested_eq (hcont : Continues a) {dirErr openErr : Option Errno} {entries : Dir}
    {s₁ : FtwState} (c : List Name) (hp : p <+: s.dirpath) (h0 : 0 ∉ p)
    (hpath : s₁.dirpath = (fillPathAlways p.length name s).dirpath)
    (hlen : s₁.dirpathLen = (under p name).length) (hstop : s₁.actionStop = false)
    (hent : a.opts.enters openErr = true)
    (hup : a.opts.passesUp openErr dirErr (Fails a.opts entries (under p name).length) = false) :
    let r := match dirErr with
      | some e => unopened a c e s₁.dirpathLen s₁
      | none => readLoop a entries c s₁.dirpathLen s₁
    GoesOn a r.1 r.2 ∧ p <+: r.2.dirpath ∧ r.2.actionStop = false := by
  intro r
  obtain ⟨hleft, -⟩ := @inner_bufferAfter a (fun _ => True) p name s s₁ c openErr dirErr entries
    hp h0 hpath hlen trivial fun _ _ _ => trivial
  have hunder : under p name <+: s₁.dirpath := hpath ▸ under_prefix hp h0 name
  cases dirErr with
  | some e =>
      have hstop' : r.2.actionStop = false := (unopened_actionStop a c e _ s₁).trans hstop
      refine ⟨?_, hleft.front, hstop'⟩
      by_contra hgo
      exact absurd (passesUp_of_unopened hstop hent hgo) (by rw [hup]; decide)
  | none =>
      have hreads : Reads a entries c (under p name) s₁ r.1 r.2 := by
        simp only [r, hlen]
        exact (readLoop_reads a entries c (under p name) s₁ (noNul_under h0 name) hunder).1
      have hstop' : r.2.actionStop = false := (hreads.actionStop hcont.neverStops).trans hstop
      refine ⟨?_, hleft.front, hstop'⟩
      by_contra hgo
      obtain ⟨hact, herr⟩ := err_of_not_goesOn hstop' hgo
      rw [FtwOpts.passesUp, hent, hact, Option.elim_none,
        hreads.fails_of_err hcont hstop herr] at hup
      cases hup

/-- The loop goes on behind the first entry. -/
theorem Continues.goesPast (hcont : Continues a) (hmatch : a.funcMatch = none) {d rest : Dir}
    (hd : Heads d name rest) (c : List Name) (hp : p <+: s.dirpath) (h0 : 0 ∉ p)
    (hstop : s.actionStop = false) (hgo : a.opts.goesPast d p.length = true) :
    ∃ s₁, readLoop a d c p.length s = readLoop a rest c p.length s₁ ∧ p <+: s₁.dirpath ∧
      s₁.actionStop = false := by
  rcases Bool.eq_false_or_eq_true (a.opts.ignored name) with hi | hi
  · exact ⟨s, readLoop_ignored hd _ hi, hp, hstop⟩
  cases hd with
  | file =>
      rw [FtwOpts.goesPast, hi, Bool.false_or, Bool.not_eq_true'] at hgo
      obtain ⟨s₁, hrun, hpast, -⟩ := hcont.fileEntry_eq hmatch c rest hp h0 hi hgo _
      rw [readLoop, hrun]
      exact ⟨s₁, rfl, hpast.front, hpast.stop.trans hstop⟩
  | lost =>
      rw [FtwOpts.goesPast, hi, Bool.false_or, Bool.and_eq_true, Bool.not_eq_true'] at hgo
      have hready := (ready_spec a hp h0 name).1.gonePast hp
      rw [readLoop, lostEntry_eq c hi hgo.1, if_pos hgo.2, hcont.func_eq]
      split
      · exact ⟨_, rfl, hready.front, hready.stop.trans hstop⟩
      · exact ⟨_, rfl, hready.front, hready.stop.trans hstop⟩
  | @sub name openErr dirErr entries rest =>
      rw [FtwOpts.goesPast, hi, Bool.false_or, Bool.and_eq_true, Bool.not_eq_true',
        Bool.not_eq_true', ← length_under] at hgo
      obtain ⟨hl, hup⟩ := hgo
      rcases Bool.eq_false_or_eq_true (a.opts.enters openErr) with hent | hent
      · obtain ⟨s₁, hrun, hpast, hpath, hlen⟩ := hcont.dirEntry_enters c hp h0 hi hl hent
        obtain ⟨hgoes, hfront, hstop'⟩ := hcont.nested_eq (c ++ [name]) hp h0 hpath hlen
          (hpast.stop.trans hstop) hent hup
        rw [readLoop, hrun]
        rcases nested_settle a _ (readLoop a rest c p.length) with ⟨-, hset⟩ | ⟨hnot, -⟩
        · exact ⟨_, hset, hfront, hstop'⟩
        · exact absurd hgoes hnot
      · obtain ⟨s₁, hrun, hpast⟩ := hcont.dirEntry_eq c hp h0 hi hl openErr
        rw [readLoop, hrun, hent]
        exact ⟨s₁, rfl, hpast.front, hpast.stop.trans hstop⟩

/-- The buffer never shrinks. -/
theorem readLoop_grows (a : FtwData) (d : Dir) (c : List Name) {L : Nat} (h0 : 0 ∉ p)
    (hs : BufferAfter (fun buf => L ≤ buf.length) p s) :
    L ≤ (readLoop a d c p.length s).2.dirpath.length :=
  readLoop_keeps d c p s h0 hs fun m name _ buf hbuf =>
    hbuf.trans (length_appendpathLenP buf name.chrs m).1

/-- The buffer is at least as long as every path that is built needs. -/
theorem Continues.built_le (hcont : Continues a) (hmatch : a.funcMatch = none) {d : Dir} {n m : Nat}
    (h : PathBuilt a.opts d n m name) (c : List Name) (p : Bytes) (s : FtwState) (hn : n = p.length)
    (h0 : 0 ∉ p) (hp : p <+: s.dirpath) (hstop : s.actionStop = false) :
    m + name.chrs.length + 2 ≤ (readLoop a d c p.length s).2.dirpath.length := by
  induction h generalizing c p s with
  | @here d name rest n hd hi hl hb =>
      subst hn
      have hfill : BufferAfter (fun buf => p.length + name.chrs.length + 2 ≤ buf.length) p
          (fillPathAlways p.length name s) :=
        ⟨(length_appendpathLenP s.dirpath name.chrs p.length).2.2 hp.length_le,
          fillPathAlways_prefix hp h0 name⟩
      cases hd with
      | file =>
          obtain ⟨s₁, hrun, hpast, hbuf⟩ := hcont.fileEntry_eq hmatch c rest hp h0 hi hl _
          rw [readLoop, hrun]
          exact readLoop_grows a rest c h0 ⟨hbuf hb ▸ hfill.keeps, hpast.front⟩
      | @lost name e rest =>
          have hbuf := lostEntry_dirpath c s rest hi hl e
          rw [if_pos hb] at hbuf
          exact settle_keeps ⟨hbuf ▸ hfill.keeps, hbuf ▸ hfill.front⟩
            fun _ s hs => readLoop_grows a rest c h0 hs
      | @sub name openErr dirErr entries rest =>
          rcases Bool.eq_false_or_eq_true (a.opts.enters openErr) with hent | hent
          · obtain ⟨s₁, hrun, -, hpath, hlen⟩ := hcont.dirEntry_enters c hp h0 hi hl hent
            obtain ⟨hleft, -⟩ := @inner_bufferAfter a _ p name s s₁ (c ++ [name]) openErr dirErr
              entries hp h0 hpath hlen (hpath ▸ hfill.keeps)
              fun _ s hs => readLoop_grows a entries (c ++ [name]) (noNul_under h0 name) hs
            rw [readLoop, hrun]
            exact nested_keeps hleft fun _ s hs => readLoop_grows a rest c h0 hs
          · obtain ⟨s₁, hrun, hpast⟩ := hcont.dirEntry_eq c hp h0 hi hl openErr
            have hpath := (dirEntry_spec c s dirErr entries rest hi hl openErr).1
            rw [if_pos hb, hrun] at hpath
            rw [readLoop, hrun, hent]
            exact readLoop_grows a rest c h0 ⟨hpath ▸ hfill.keeps, hpast.front⟩
  | later hd hgo h ih =>
      subst hn
      obtain ⟨s₁, hrun, hfront, hstop'⟩ := hcont.goesPast hmatch hd c hp h0 hstop hgo
      rw [hrun]
      exact ih c p s₁ rfl h0 hfront hstop'
  | @inner name openErr entries rest n m name' hi hl hent h ih =>
      subst hn
      obtain ⟨s₁, hrun, hpast, hpath, hlen⟩ := hcont.dirEntry_enters c hp h0 hi hl hent
      have hunder : under p name <+: s₁.dirpath := hpath ▸ under_prefix hp h0 name
      have hin := ih (c ++ [name]) (under p name) s₁ (length_under p name).symm
        (noNul_under h0 name) hunder (hpast.stop.trans hstop)
      obtain ⟨hleft, -⟩ := @inner_bufferAfter a (fun _ => True) p name s s₁ (c ++ [name]) openErr
        none entries hp h0 hpath hlen trivial fun _ _ _ => trivial
      rw [← hlen] at hin
      rw [readLoop, hrun]
      exact nested_keeps (P := fun buf => m + name'.chrs.length + 2 ≤ buf.length)
        ⟨hin, hleft.front⟩ fun _ s hs => readLoop_grows a rest c h0 hs

end Continues

/-! ## The walk -/

/-- What is read from the start on. -/
def Start.entries : Start → Dir
  | .dir none entries => entries
  | _ => .done

theorem PathBuilt.lt {o : FtwOpts} {d : Dir} {n m : Nat} {name : Name}
    (h : PathBuilt o d n m name) :
    m + name.chrs.length < ioPathMax := by
  induction h with
  | here hd hi hl hb => exact tooLong_eq_false.mp hl
  | later hd hgo h ih => exact ih
  | inner hi hl hent h ih => exact ih

theorem not_built_done {o : FtwOpts} {n m : Nat} {name : Name} : ¬PathBuilt o .done n m name := by
  intro h
  cases h with
  | here hd => cases hd
  | later hd => cases hd

section Start

variable {o : FtwOpts} {start : Start} {dirpath : Bytes} {name : Name} {m : Nat}

/-- Before anything is read the buffer holds the start. -/
theorem startState_fits (hlen : dirpath.length < ioPathMax) :
    (startPath dirpath ++ [(0 : UInt8)]).length ≤ ioPathMax := by
  have hle := stripLen_le dirpath dirpath.length
  rw [List.length_append, List.length_singleton, length_startPath]
  omega

theorem matchStart_dirpath (a : FtwData) (f : Bytes → Nat → Bool) (n : Nat) (s : FtwState) :
    (matchStart a f n s).2.dirpath = s.dirpath := by
  unfold matchStart
  split
  · rfl
  · split
    · split
      · rfl
      · rfl
    · rfl

/-- What building the paths keeps, the walk keeps. -/
theorem ioFtwLen_keeps {P : Bytes → Prop} (a : FtwData) (hne : dirpath ≠ [])
    (hlen : dirpath.length < ioPathMax) (h0 : 0 ∉ dirpath) (hs : P (startPath dirpath ++ [0]))
    (h : ∀ m name, PathBuilt a.opts start.entries (startPath dirpath).length m name →
      ∀ buf, P buf → P (appendpathLenP buf m name.chrs).1) :
    P (ioFtwLen a start dirpath).2.dirpath := by
  have hlong := walked_path hne hlen
  cases start with
  | refused =>
      rw [ioFtwLen, if_neg hlong]
      exact hs
  | file type =>
      rcases ioFtwLen_file a type hne hlen with ⟨-, hrun⟩ | ⟨-, s₁, hs₁, hrun⟩
      · rw [hrun]
        exact hs
      · have hsame : s₁.dirpath = startPath dirpath ++ [0] := by
          rcases hs₁ with ⟨-, rfl⟩ | ⟨f, -, rfl⟩
          · rfl
          · exact matchStart_dirpath a f _ _
        rcases hrun with hrun | hrun
        · rw [hrun, hsame]
          exact hs
        · rw [hrun]
          show P s₁.dirpath
          rw [hsame]
          exact hs
  | dir dirErr entries =>
      have hstart : BufferAfter P (startPath dirpath) (enterState a.opts dirpath) := by
        constructor <;> rw [enterState_dirpath]
        · exact hs
        · exact List.prefix_append _ _
      rcases ioFtwLen_enter a dirErr entries hne hlen with ⟨-, hrun⟩ | hrun
      · rw [hrun]
        exact hstart.keeps
      · rw [hrun]
        cases dirErr with
        | some e =>
            have hsame :=
              unopened_dirpath a [] e (startPath dirpath).length (enterState a.opts dirpath)
            exact hsame ▸ hstart.keeps
        | none => exact readLoop_keeps entries [] _ _ (noNul_startPath h0) hstart h

/-- What is built in some walk fits only if it leaves room for the terminator. -/
theorem PathsFit.built_le (h : PathsFit o start dirpath) (hne : dirpath ≠ [])
    (hlen : dirpath.length < ioPathMax) (h0 : 0 ∉ dirpath)
    (hb : PathBuilt o start.entries (startPath dirpath).length m name) :
    m + name.chrs.length + 2 ≤ ioPathMax := by
  have hcont : Continues ⟨o, fun _ => 1, none⟩ := by
    intro log
    unfold FtwData.answer
    split
    · rfl
    · rfl
  have hfits := h ⟨o, fun _ => 1, none⟩ rfl
  cases start with
  | refused => exact absurd hb not_built_done
  | file type => exact absurd hb not_built_done
  | dir dirErr entries =>
      cases dirErr with
      | some e => exact absurd hb not_built_done
      | none =>
          rcases ioFtwLen_enter ⟨o, fun _ => 1, none⟩ none entries hne hlen with
            ⟨⟨log, hlog⟩, -⟩ | hrun
          · exact absurd hlog (hcont.neverStops log)
          · rw [hrun] at hfits
            have hfront : startPath dirpath <+: (enterState o dirpath).dirpath := by
              rw [enterState_dirpath]
              exact List.prefix_append _ _
            exact (hcont.built_le rfl hb [] _ _ rfl (noNul_startPath h0) hfront
              (enterState_actionStop o dirpath)).trans hfits

/-- The paths fit exactly where no path that is built is of `JSTR_IO_PATH_MAX` bytes: the
guard lets it pass, and its terminator is written behind the buffer. -/
theorem pathsFit_iff (hne : dirpath ≠ []) (hlen : dirpath.length < ioPathMax) (h0 : 0 ∉ dirpath) :
    PathsFit o start dirpath ↔
      ∀ m name, PathBuilt o start.entries (startPath dirpath).length m name →
        m + name.chrs.length ≠ ioPathMax - 1 := by
  constructor
  · intro h m name hb
    have := h.built_le hne hlen h0 hb
    omega
  · intro h a ha
    subst ha
    refine @ioFtwLen_keeps start dirpath (fun buf => buf.length ≤ ioPathMax) a hne hlen h0
      (startState_fits hlen) fun m name hb buf hbuf => ?_
    have hle := (length_appendpathLenP buf name.chrs m).2.1
    have hlt := hb.lt
    have hne := h m name hb
    omega

/-- In `/t` there is a file `a`. -/
theorem pathsFit_iff_t :
    let o : FtwOpts := ⟨true, false, false, true, false, false, false, false⟩
    let start : Start :=
      .dir none (.file ⟨[97], by decide, by decide, by decide, by decide⟩ .reg .done)
    PathsFit o start [47, 116] ↔
      ∀ m name, PathBuilt o start.entries (startPath [47, 116]).length m name →
        m + name.chrs.length ≠ ioPathMax - 1 :=
  pathsFit_iff (by decide) (by decide) (by decide)

theorem stripLen_concat (u : Bytes) {b : UInt8} (hb : b ≠ 47) :
    stripLen (u ++ [b]) (u.length + 1) = u.length + 1 := by
  rw [stripLen, if_neg]
  rintro ⟨-, hlast⟩
  rw [List.getElem?_append_right (Nat.le_refl _), Nat.sub_self] at hlast
  exact hb (Option.some.inj hlast)

/-- `./././.` and so on, 4093 bytes of it, and in it a file `ab`: 4095 in all, and
its path needs 4097. -/
theorem not_pathsFit :
    ¬∀ (o : FtwOpts) (start : Start) (dirpath : Bytes), dirpath ≠ [] →
      dirpath.length < ioPathMax → 0 ∉ dirpath → PathsFit o start dirpath := by
  intro hall
  have hlen : ((List.replicate 2046 ([46, 47] : Bytes)).flatten).length = 4092 := by
    simp only [List.length_flatten, List.map_replicate, List.sum_replicate]
    decide
  generalize hu : (List.replicate 2046 ([46, 47] : Bytes)).flatten = u at hlen
  have h0 : 0 ∉ u ++ [(46 : UInt8)] := by
    rw [← hu, List.mem_append]
    rintro (h | h)
    · obtain ⟨l, hl, h⟩ := List.mem_flatten.mp h
      rw [List.eq_of_mem_replicate hl] at h
      exact absurd h (by decide)
    · exact absurd h (by decide)
  have hcount : (u ++ [(46 : UInt8)]).length = 4093 := by
    rw [List.length_append, hlen]
    rfl
  have hstart : (startPath (u ++ [46])).length = 4093 := by
    have hstrip := stripLen_concat u (show (46 : UInt8) ≠ 47 by decide)
    rw [length_startPath, List.length_append, List.length_singleton, hstrip, hlen]
  have hfits := hall ⟨true, false, false, false, false, false, false, false⟩
    (.dir none (.file ⟨[97, 98], by decide, by decide, by decide, by decide⟩ .reg .done))
    (u ++ [46]) (by simp) (by rw [hcount]; decide) h0
  have hroom := hfits.built_le (by simp) (by rw [hcount]; decide) h0
    (.here .file (by decide) (by rw [hstart]; decide) (by decide))
  rw [hstart] at hroom
  exact absurd hroom (by decide)

end Start

end Jstr
