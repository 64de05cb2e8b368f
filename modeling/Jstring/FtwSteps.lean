import Jstring.Ftw
import Jstring.Lib.Traversal

/-!
# The steps of the directory walk

What each piece of the loop does, for a directory whose path `p` is at the
start of the buffer.

- `answer`: what the walk makes of what `FUNC` returns; `func_eq`,
  `funcDir_eq`;
- `Ready`, `PathIs`: the state when `FUNC` may be called;
- `fileEntry_eq`, `lostEntry_eq`, `dirEntry_eq`: the entries, where they are
  neither ignored nor too long.
-/

namespace Jstr

open Traversal

/-! ## Paths -/

/-- The path of `name` in the directory `p`. -/
def under (p : Bytes) (name : Name) : Bytes := p ++ 47 :: name.chrs

theorem length_under (p : Bytes) (name : Name) :
    (under p name).length = p.length + 1 + name.chrs.length := by
  rw [under, List.length_append, List.length_cons]
  omega

theorem noNul_under {p : Bytes} (h : 0 ∉ p) (name : Name) : 0 ∉ under p name := by
  rw [under, List.mem_append, List.mem_cons]
  rintro (hp | h47 | hname)
  · exact h hp
  · exact absurd h47 (by decide)
  · exact name.noNul hname

theorem cstr_append {p : Bytes} (h : 0 ∉ p) (r : Bytes) : cstr (p ++ 0 :: r) = p := by
  have hall : ∀ c ∈ p, decide (c ≠ 0) = true := by
    intro c hc
    exact decide_eq_true fun h0 => h (h0 ▸ hc)
  rw [cstr, List.takeWhile_append_of_pos hall, List.takeWhile_cons_of_neg (by decide),
    List.append_nil]

/-! ## The state between the calls -/

/-- `q` is the path that would be passed. -/
structure PathIs (q : Bytes) (s : FtwState) : Prop where
  path : cstr s.dirpath = q
  len : s.dirpathLen = q.length

/-- From `s` to `s'` nothing happened but calls `ms` of `FUNC_MATCH`, and
that the path was made `q`, if it was changed. -/
structure Ready (q : Bytes) (ms : List FtwCall) (s s' : FtwState) : Prop where
  buf : s'.dirpath = s.dirpath ∨ ∃ r, s'.dirpath = q ++ 0 :: r
  calls : s'.calls = s.calls
  stop : s'.actionStop = s.actionStop
  failed : s'.failed = s.failed
  matchCalls : s'.matchCalls = s.matchCalls ++ ms

theorem Ready.refl (q : Bytes) (s : FtwState) : Ready q [] s s :=
  ⟨.inl rfl, rfl, rfl, rfl, (List.append_nil _).symm⟩

/-- The directory is still at the start of the buffer. -/
theorem Ready.dirpath_prefix {p : Bytes} {name : Name} {ms : List FtwCall} {s s' : FtwState}
    (h : Ready (under p name) ms s s') (hp : p <+: s.dirpath) : p <+: s'.dirpath := by
  rcases h.buf with heq | ⟨r, heq⟩
  · rwa [heq]
  · rw [heq, under, List.append_assoc]
    exact List.prefix_append _ _

/-- The state once `FUNC` was called for `entry`. -/
def FtwState.called (s : FtwState) (entry : List Name) : FtwState :=
  { s with calls := s.calls ++ [⟨entry, cstr s.dirpath, s.dirpathLen⟩] }

theorem called_calls {entry : List Name} {q : Bytes} {s : FtwState} (h : PathIs q s) :
    (s.called entry).calls = s.calls ++ [⟨entry, q, q.length⟩] := by
  rw [← h.len, ← h.path]
  rfl

/-- The call of `FUNC` for an entry of the directory `c` at the path `p`. -/
def callAt (c : List Name) (p : Bytes) (name : Name) : FtwCall :=
  ⟨c ++ [name], under p name, (under p name).length⟩

/-- The state once `FUNC_MATCH` was called. -/
def FtwState.matched (s : FtwState) (m : FtwCall) : FtwState :=
  { s with matchCalls := s.matchCalls ++ [m] }

theorem Ready.matched {q : Bytes} {s s' : FtwState} (h : Ready q [] s s') (m : FtwCall) :
    Ready q [m] s (s'.matched m) :=
  ⟨h.buf, h.calls, h.stop, h.failed, by
    show s'.matchCalls ++ [m] = _
    rw [h.matchCalls, List.append_nil]⟩

section Steps

variable {a : FtwData} {c : List Name} {p : Bytes} {name : Name} {s : FtwState}

theorem fillPathAlways_ready (hp : p <+: s.dirpath) (h0 : 0 ∉ p) (name : Name) :
    Ready (under p name) [] s (fillPathAlways p.length name s) ∧
      PathIs (under p name) (fillPathAlways p.length name s) := by
  have htake : s.dirpath.take p.length = p := (List.prefix_iff_eq_take.mp hp).symm
  have hbuf : (fillPathAlways p.length name s).dirpath = under p name
      ++ 0 :: s.dirpath.drop (p.length + 1 + name.chrs.length + 1) := by
    simp only [fillPathAlways, appendpathLenP, htake, under, List.append_assoc, List.cons_append]
  refine ⟨⟨.inr ⟨_, hbuf⟩, rfl, rfl, rfl, (List.append_nil _).symm⟩, ?_, ?_⟩
  · rw [hbuf, cstr_append (noNul_under h0 name)]
  · rw [length_under]
    rfl

/-- What is passed is built before `stat`, or between `FUNC_MATCH` and `FUNC`. -/
def ready (a : FtwData) (n : Nat) (name : Name) (s : FtwState) : FtwState :=
  if a.opts.useAtfile then s else fillPathAlways n name s

theorem ready_spec (a : FtwData) (hp : p <+: s.dirpath) (h0 : 0 ∉ p) (name : Name) :
    Ready (under p name) [] s (ready a p.length name s) ∧
      (a.opts.useAtfile = false → PathIs (under p name) (ready a p.length name s)) := by
  obtain ⟨hfill, hpath⟩ := fillPathAlways_ready hp h0 name
  rw [ready]
  split
  · rename_i hat
    exact ⟨Ready.refl _ s, fun h => absurd hat (by rw [h]; decide)⟩
  · exact ⟨hfill, fun _ => hpath⟩

/-- With `FILL_PATH` behind it the path is there. -/
theorem fillPath_ready (a : FtwData) (n : Nat) (name : Name) (s : FtwState) :
    fillPath a n name (ready a n name s) = fillPathAlways n name s := by
  rw [fillPath, ready]
  by_cases hat : a.opts.useAtfile
  · rw [if_pos hat, if_pos hat]
  · rw [if_neg hat, if_neg hat]

/-! ## The answers -/

/-- What the walk makes of what `FUNC` returns. -/
def FtwData.answer (a : FtwData) (log : List FtwCall) : Answer :=
  if a.opts.actionretval then
    if a.func log = 1 then .proceed
    else if a.func log = 3 then .skipSubtree
    else if a.func log = 2 then .skipSiblings
    else .stop
  else if a.func log = -1 then .stop
  else .proceed

theorem answer_eq_stop {log : List FtwCall} : a.answer log = .stop ↔
    if a.opts.actionretval then a.func log ≠ 1 ∧ a.func log ≠ 3 ∧ a.func log ≠ 2
    else a.func log = -1 := by
  rw [FtwData.answer]
  split_ifs <;> simp [*]

/-- A walk that is to stop. -/
def stopPiece (a : FtwData) (s : FtwState) : Piece :=
  if a.opts.actionretval then (.ret .succ, { s with actionStop := true }) else (.ret .err, s)

/-- What is done with the answer, where the walk goes on as `go`. -/
theorem answerPiece_eq (a : FtwData) (go : Flow) (log : List FtwCall) (s : FtwState) :
    ((if a.opts.actionretval then
        if a.func log = 1 then (go, s)
        else if a.func log = 3 then (.next, s)
        else if a.func log = 2 then (.brk, s)
        else (.ret .succ, { s with actionStop := true })
      else if a.func log = -1 then (.ret .err, s)
      else (go, s)) : Piece)
      = match a.answer log with
        | .proceed => (go, s)
        | .skipSubtree => (.next, s)
        | .skipSiblings => (.brk, s)
        | .stop => stopPiece a s := by
  rw [FtwData.answer, stopPiece]
  split_ifs <;> rfl

theorem funcDir_eq (a : FtwData) (entry : List Name) (s : FtwState) : funcDir a entry s =
    match a.answer (s.called entry).calls with
    | .proceed => (.on, s.called entry)
    | .skipSubtree => (.next, s.called entry)
    | .skipSiblings => (.brk, s.called entry)
    | .stop => stopPiece a (s.called entry) :=
  answerPiece_eq a .on (s.called entry).calls (s.called entry)

theorem func_eq (a : FtwData) (entry : List Name) (s : FtwState) : func a entry s =
    match a.answer (s.called entry).calls with
    | .proceed | .skipSubtree => (.next, s.called entry)
    | .skipSiblings => (.brk, s.called entry)
    | .stop => stopPiece a (s.called entry) := by
  have heq := answerPiece_eq a .next (s.called entry).calls (s.called entry)
  have hfunc : func a entry s = (if a.opts.actionretval then
        if a.func (s.called entry).calls = 1 ∨ a.func (s.called entry).calls = 3 then
          (.next, s.called entry)
        else if a.func (s.called entry).calls = 2 then (.brk, s.called entry)
        else (.ret .succ, { s.called entry with actionStop := true })
      else if a.func (s.called entry).calls = -1 then (.ret .err, s.called entry)
      else (.next, s.called entry)) := rfl
  rw [hfunc, ite_or, heq]

/-! ## The entries -/

/-- `FUNC` is to be called on a file of the type. -/
def FtwOpts.reports (o : FtwOpts) : FileType → Bool
  | .reg => !(o.dir && !o.reg)
  | .other => !(o.dir || o.reg)

/-- `FUNC` is to be called on directories. -/
def FtwOpts.reportsDirs (o : FtwOpts) : Bool := !(o.reg && !o.dir)

theorem reports_reg (o : FtwOpts) : ¬(o.dir = true ∧ ¬o.reg = true) ↔ o.reports .reg = true := by
  rw [FtwOpts.reports]
  cases o.dir <;> cases o.reg <;> decide

theorem reports_other (o : FtwOpts) : ¬(o.dir = true ∨ o.reg = true) ↔ o.reports .other = true := by
  rw [FtwOpts.reports]
  cases o.dir <;> cases o.reg <;> decide

theorem reportsDirs_iff (o : FtwOpts) :
    ¬(o.reg = true ∧ ¬o.dir = true) ↔ o.reportsDirs = true := by
  rw [FtwOpts.reportsDirs]
  cases o.dir <;> cases o.reg <;> decide

/-- `FUNC_MATCH` lets the file pass. -/
def FtwData.accepts (a : FtwData) (p : Bytes) (name : Name) : Bool :=
  match a.funcMatch with
  | some m =>
    if a.opts.matchpath then !m (under p name) (under p name).length
    else !m name.chrs name.chrs.length
  | none => true

/-- What `FUNC_MATCH` is to be given. -/
def FtwOpts.matchCall (o : FtwOpts) (c : List Name) (p : Bytes) (name : Name) : FtwCall :=
  if o.matchpath then ⟨c ++ [name], under p name, (under p name).length⟩
  else ⟨c ++ [name], name.chrs, name.chrs.length⟩

/-- `FUNC` is called, at the path of the entry, if `FUNC_MATCH` lets it. -/
theorem doReg_eq (a : FtwData) (c : List Name) (hp : p <+: s.dirpath) (h0 : 0 ∉ p) (name : Name) :
    ∃ ms s', (∀ m ∈ ms, m = a.opts.matchCall c p name) ∧ Ready (under p name) ms s s' ∧
      (a.accepts p name = true → PathIs (under p name) s') ∧
      doReg a c p.length name (ready a p.length name s)
        = if a.accepts p name then func a (c ++ [name]) s' else (.next, s') := by
  obtain ⟨hfill, hpath⟩ := fillPathAlways_ready hp h0 name
  obtain ⟨hready, -⟩ := ready_spec a hp h0 name
  rw [doReg, FtwData.accepts, FtwOpts.matchCall]
  cases a.funcMatch with
  | none =>
      refine ⟨[], _, fun m h => absurd h (List.not_mem_nil), hfill, fun _ => hpath, ?_⟩
      simp only [fillPath_ready, if_true]
  | some m =>
      by_cases hmp : a.opts.matchpath
      · refine ⟨[_], _, fun m h => List.mem_singleton.mp h, hfill.matched _,
          fun _ => ⟨hpath.path, hpath.len⟩, ?_⟩
        have hcall : callMatch m (c ++ [name]) (cstr (fillPathAlways p.length name s).dirpath)
            (fillPathAlways p.length name s).dirpathLen (fillPathAlways p.length name s)
            = (m (under p name) (under p name).length, (fillPathAlways p.length name s).matched
                ⟨c ++ [name], under p name, (under p name).length⟩) := by
          rw [← hpath.len, ← hpath.path]
          rfl
        simp only [fillPath_ready, if_pos hmp, hcall]
        cases m (under p name) (under p name).length <;> rfl
      · rw [if_neg hmp]
        simp only [if_neg hmp, callMatch]
        rcases Bool.eq_false_or_eq_true (m name.chrs name.chrs.length) with hrej | hrej
        · simp only [hrej]
          exact ⟨[_], _, fun m h => List.mem_singleton.mp h, hready.matched _,
            fun h => absurd h (by decide), rfl⟩
        · have hcomm : ∀ m, fillPath a p.length name ((ready a p.length name s).matched m)
              = (fillPathAlways p.length name s).matched m := by
            intro m
            rw [← fillPath_ready a, fillPath, fillPath]
            split <;> rfl
          simp only [hrej]
          refine ⟨[_], _, fun m h => List.mem_singleton.mp h, hfill.matched _,
            fun _ => ⟨hpath.path, hpath.len⟩, ?_⟩
          rw [← hcomm]
          rfl

theorem screen_eq (hi : a.opts.ignored name = false) (hl : a.opts.tooLong p.length name = false) :
    screen a p.length name s = (.on, ready a p.length name s) := by
  rw [screen, hi, hl]
  rfl

theorem screen_ignored (n : Nat) (hi : a.opts.ignored name = true) :
    screen a n name s = (.next, s) := by
  rw [screen, if_pos hi]

theorem screen_tooLong {n : Nat} (hi : a.opts.ignored name = false)
    (hl : a.opts.tooLong n name = true) :
    screen a n name s = (.ret .err, { s with failed := true }) := by
  rw [screen, hi, if_neg Bool.false_ne_true, if_pos hl]

theorem ite_reports {C : Prop} [Decidable C] {b : Bool} {x y : Piece} (h : ¬C ↔ b = true) :
    (if C then x else y) = if b then y else x := by
  by_cases hc : C
  · rw [if_pos hc, if_neg fun hb => h.mpr hb hc]
  · rw [if_neg hc, if_pos (h.mp hc)]

/-- A file that is not screened out. -/
theorem fileEntry_past (c : List Name) (s : FtwState) (hi : a.opts.ignored name = false)
    (hl : a.opts.tooLong p.length name = false) (type : FileType) :
    fileEntry a c p.length name type s
      = if a.opts.reports type then doReg a c p.length name (ready a p.length name s)
        else (.next, ready a p.length name s) := by
  rw [fileEntry, screen_eq hi hl]
  cases type with
  | reg => exact ite_reports (reports_reg a.opts)
  | other => exact ite_reports (reports_other a.opts)

/-- `FUNC` is called on it, or it is passed over. -/
theorem fileEntry_eq (c : List Name) (hi : a.opts.ignored name = false)
    (hl : a.opts.tooLong p.length name = false) (hp : p <+: s.dirpath) (h0 : 0 ∉ p)
    (type : FileType) :
    ∃ ms s', (∀ m ∈ ms, m = a.opts.matchCall c p name) ∧ Ready (under p name) ms s s' ∧
      ((a.opts.reports type && a.accepts p name) = true → PathIs (under p name) s') ∧
      fileEntry a c p.length name type s
        = if a.opts.reports type && a.accepts p name then func a (c ++ [name]) s'
          else (.next, s') := by
  rw [fileEntry_past c s hi hl]
  by_cases hrep : a.opts.reports type = true
  · rw [if_pos hrep, hrep, Bool.true_and]
    exact doReg_eq a c hp h0 name
  · rw [if_neg hrep, Bool.not_eq_true _ |>.mp hrep, Bool.false_and]
    exact ⟨[], _, fun m h => absurd h List.not_mem_nil, (ready_spec a hp h0 name).1,
      fun h => absurd h (by decide), rfl⟩

/-- An entry that cannot be stat'ed: with the `*at` functions no path was
built for it. -/
theorem lostEntry_eq (c : List Name) (hi : a.opts.ignored name = false)
    (hl : a.opts.tooLong p.length name = false) (e : Errno) :
    lostEntry a c p.length name e s = if e.nonfatal then
        if a.opts.reports .other then func a (c ++ [name]) (ready a p.length name s)
        else (.next, ready a p.length name s)
      else (.ret .err, { ready a p.length name s with failed := true }) := by
  rw [lostEntry, screen_eq hi hl]
  simp only [Piece.andThen]
  split
  · exact ite_reports (reports_other a.opts)
  · rfl

/-- Whether the directory is read once `FUNC` was called. -/
def gate (a : FtwData) (openErr : Option Errno) (s : FtwState) : Piece :=
  if a.opts.nosubdir then (.next, s)
  else if a.opts.useAtfile then
    match openErr with
    | some e => (.next, { s with failed := s.failed || !e.nonfatal })
    | none => (.on, s)
  else (.on, s)

/-- A directory: `FUNC` is called on it, or it is just read. -/
theorem dirEntry_eq (c : List Name) (hi : a.opts.ignored name = false)
    (hl : a.opts.tooLong p.length name = false) (hp : p <+: s.dirpath) (h0 : 0 ∉ p)
    (openErr : Option Errno) :
    ∃ s', Ready (under p name) [] s s' ∧
      (a.opts.nosubdir = false ∨ a.opts.reportsDirs = true → PathIs (under p name) s') ∧
      dirEntry a c p.length name openErr s
        = (if a.opts.reportsDirs then funcDir a (c ++ [name]) s' else (.on, s')).andThen
          (gate a openErr) := by
  obtain ⟨hfill, hpath⟩ := fillPathAlways_ready hp h0 name
  rw [dirEntry, screen_eq hi hl]
  simp only [Piece.andThen]
  by_cases hskip : a.opts.nosubdir ∧ a.opts.reg ∧ ¬a.opts.dir
  · have hrep : ¬a.opts.reportsDirs = true := fun h => (reportsDirs_iff a.opts).mpr h hskip.2
    refine ⟨ready a p.length name s, (ready_spec a hp h0 name).1, fun h => ?_, ?_⟩
    · rcases h with h | h
      · exact absurd hskip.1 (by rw [h]; decide)
      · exact absurd h hrep
    · rw [if_pos hskip, if_neg hrep]
      simp only [gate, if_pos hskip.1]
  · refine ⟨_, hfill, fun _ => hpath, ?_⟩
    rw [if_neg hskip, fillPath_ready, ite_reports (reportsDirs_iff a.opts)]
    rfl

/-! ## The start -/

/-- The path the walk starts at, without its trailing slashes. -/
def startPath (dirpath : Bytes) : Bytes := dirpath.take (stripLen dirpath dirpath.length)

theorem stripLen_le (dirpath : Bytes) (n : Nat) : stripLen dirpath n ≤ n := by
  induction n with
  | zero => exact le_refl 0
  | succ n ih =>
      rw [stripLen]
      split
      · omega
      · exact le_refl _

theorem length_startPath (dirpath : Bytes) :
    (startPath dirpath).length = stripLen dirpath dirpath.length := by
  rw [startPath, List.length_take, Nat.min_eq_left (stripLen_le dirpath _)]

theorem noNul_startPath {dirpath : Bytes} (h : 0 ∉ dirpath) : 0 ∉ startPath dirpath :=
  fun h' => h (List.mem_of_mem_take h')

/-- The state the walk starts in. -/
def startState (dirpath : Bytes) : FtwState :=
  ⟨startPath dirpath ++ [0], (startPath dirpath).length, false, [], [], false⟩

theorem startState_pathIs {dirpath : Bytes} (h0 : 0 ∉ dirpath) :
    PathIs (startPath dirpath) (startState dirpath) :=
  ⟨cstr_append (noNul_startPath h0) [], rfl⟩

/-- `FUNC` on the start ends the walk, or not. -/
theorem funcStart_eq (a : FtwData) (s : FtwState) : ∃ r, funcStart a s
    = (if a.answer (s.called []).calls = .stop then some r else none, s.called []) := by
  have hcalls : s.calls ++ [⟨[], cstr s.dirpath, s.dirpathLen⟩] = (s.called []).calls := rfl
  have hiff := @answer_eq_stop a (s.called []).calls
  rw [funcStart, callFunc]
  simp only [hcalls]
  by_cases hact : a.opts.actionretval
  · rw [if_pos hact] at hiff ⊢
    by_cases h0 : a.func (s.called []).calls = 0
    · exact ⟨0, by rw [if_pos h0, if_pos (hiff.mpr (by omega))]; rfl⟩
    rw [if_neg h0]
    by_cases hbad : a.func (s.called []).calls ≠ 1 ∧ a.func (s.called []).calls ≠ 3 ∧
        a.func (s.called []).calls ≠ 2
    · exact ⟨-1, by rw [if_pos hbad, if_pos (hiff.mpr hbad)]; rfl⟩
    · exact ⟨0, by rw [if_neg hbad, if_neg (hbad ∘ hiff.mp)]; rfl⟩
  · rw [if_neg hact] at hiff ⊢
    by_cases hm : a.func (s.called []).calls = -1
    · exact ⟨-1, by rw [if_pos hm, if_pos (hiff.mpr hm)]; rfl⟩
    · exact ⟨0, by rw [if_neg hm, if_neg (hm ∘ hiff.mp)]; rfl⟩

/-- The same where `FUNC` may be called on the start: for `/` no length is
passed. -/
def rootState (dirpath : Bytes) : FtwState :=
  if startPath dirpath = [47] then { startState dirpath with dirpathLen := 0 }
  else startState dirpath

/-- The walk below the start. -/
def walkFrom (a : FtwData) (dirErr : Option Errno) (entries : Dir) (n : Nat) (s : FtwState) :
    Int × FtwState :=
  ((internalFtwLen a dirErr entries [] n s).1.toInt, (internalFtwLen a dirErr entries [] n s).2)

/-- The check of the path lets it pass. -/
theorem walked_path {dirpath : Bytes} (hne : dirpath ≠ []) (hlen : dirpath.length < ioPathMax) :
    ¬(dirpath.length = 0 ∨ ioPathMax ≤ dirpath.length) := by
  rw [List.length_eq_zero_iff]
  exact not_or.mpr ⟨hne, Nat.not_le.mpr hlen⟩

/-- What holds of the paths that do not pass, and of the others when `Q` does. -/
theorem iff_of_badPath {dirpath : Bytes} {P Q : Prop}
    (hbad : dirpath.length = 0 ∨ ioPathMax ≤ dirpath.length → P)
    (hgood : dirpath ≠ [] → dirpath.length < ioPathMax → (P ↔ Q)) :
    P ↔ dirpath = [] ∨ ioPathMax ≤ dirpath.length ∨ Q := by
  by_cases h : dirpath.length = 0 ∨ ioPathMax ≤ dirpath.length
  · refine iff_of_true (hbad h) ?_
    rw [List.length_eq_zero_iff] at h
    exact h.imp_right .inl
  · have hne : dirpath ≠ [] := fun hnil => h (.inl (by rw [hnil]; rfl))
    have hlen : dirpath.length < ioPathMax := Nat.not_le.mp fun hle => h (.inr hle)
    rw [hgood hne hlen]
    refine ⟨fun hq => .inr (.inr hq), fun hq => ?_⟩
    exact (hq.resolve_left hne).resolve_left (Nat.not_le.mpr hlen)

/-- A walk that starts at a directory. -/
theorem ioFtwLen_dir (a : FtwData) (dirErr : Option Errno) (entries : Dir) {dirpath : Bytes}
    (hne : dirpath ≠ []) (hlen : dirpath.length < ioPathMax) :
    ∃ r, ioFtwLen a (.dir dirErr entries) dirpath
      = if a.opts.reportsDirs then
          if a.answer ((rootState dirpath).called []).calls = .stop then
            (r, (rootState dirpath).called [])
          else walkFrom a dirErr entries (startPath dirpath).length ((rootState dirpath).called [])
        else walkFrom a dirErr entries (startPath dirpath).length (rootState dirpath) := by
  obtain ⟨r, hr⟩ := funcStart_eq a (rootState dirpath)
  have hlong := walked_path hne hlen
  have hlen' := length_startPath dirpath
  refine ⟨r, ?_⟩
  have hroot : (if dirpath.take (stripLen dirpath dirpath.length) = [47] then
      { (⟨dirpath.take (stripLen dirpath dirpath.length) ++ [0], stripLen dirpath dirpath.length,
        false, [], [], false⟩ : FtwState) with dirpathLen := 0 }
      else ⟨dirpath.take (stripLen dirpath dirpath.length) ++ [0],
        stripLen dirpath dirpath.length, false, [], [], false⟩) = rootState dirpath := by
    rw [rootState, startState, ← startPath, hlen']
  rw [ioFtwLen, if_neg hlong]
  simp only [hroot]
  by_cases hrep : a.opts.reportsDirs = true
  · rw [if_pos hrep, if_neg ((reportsDirs_iff a.opts).mpr hrep), hr, hlen']
    by_cases hstop : a.answer ((rootState dirpath).called []).calls = .stop
    · simp only [if_pos hstop]
    · simp only [if_neg hstop]
      rfl
  · rw [if_neg hrep, if_pos (not_not.mp (hrep ∘ (reportsDirs_iff a.opts).mp)), hlen']
    rfl

end Steps

end Jstr
