import Mathlib.Data.List.DropRight
import Jstring.FtwPaths

/-!
# The paths given to the callbacks

Which walks give all callbacks the path of their entry, the start joined with
the names of the entries by one slash each, and its length. From `/` every
path below gets a slash too many. What is not a directory at the start is
given for a name the length of the whole path but one, and so is right only
where its last slash is its first byte.

- `PathsKept`: what every call should be given;
- `PathsMeet`: the walks it is given in;
- `pathsKept_iff`: they are those.
-/

namespace Jstr

open Traversal

/-! ## What should be given -/

/-- The start without its trailing slashes, with each name behind a slash. -/
def entryPath (start : Bytes) (entry : List Name) : Bytes :=
  if entry = [] then start else entry.foldl under (if start = [47] then [] else start)

/-- What is behind the last slash. -/
def lastPart (start : Bytes) : Bytes := start.rtakeWhile (· ≠ 47)

/-- The name of an entry; for the start, of what it is a path to. -/
def baseName (start : Bytes) (entry : List Name) : Bytes :=
  match entry.getLast? with
  | some name => name.chrs
  | none => lastPart start

/-- `FUNC` is given the path of the entry, and its length. -/
def CallRight (start : Bytes) (x : FtwCall) : Prop :=
  x.path = entryPath start x.entry ∧ x.len = x.path.length

/-- Without `MATCHPATH`, `FUNC_MATCH` is given the name, and its length. -/
def MatchRight (o : FtwOpts) (start : Bytes) (m : FtwCall) : Prop :=
  o.matchpath = false → m.path = baseName start m.entry ∧ m.len = m.path.length

/-- Whatever the callbacks are and answer, they are given what they should. -/
def PathsKept (o : FtwOpts) (start : Start) (dirpath : Bytes) : Prop :=
  ∀ a : FtwData, a.opts = o →
    AllRight (CallRight (startPath dirpath)) (MatchRight o (startPath dirpath))
      (ioFtwLen a start dirpath).2

/-- When all calls are given the right paths. From `/` no call of `FUNC` is. -/
def PathsMeet (o : FtwOpts) (dirpath : Bytes) : Start → Prop
  | .refused => True
  | .file type => (o.reg = true ∧ type ≠ .reg) ∨ o.matchpath = true ∨
      ∀ i, (startPath dirpath)[i]? = some (47 : UInt8) → i = 0
  | .dir dirErr entries =>
    if startPath dirpath = [47] then
      o.reportsDirs = false ∧ (dirErr = none → Comes o ⟨true, false, false⟩ entries 1 = false)
    else
      match dirErr with
      | some e => o.matchpath = true ∨ o.reportsDirs = false ∨ e.nonfatal = false ∨
          47 ∉ startPath dirpath
      | none =>
        Comes o ⟨false, o.useAtfile, !o.matchpath⟩ entries (startPath dirpath).length = false

/-! ## The paths of entries -/

section Start

variable {q u v : Bytes} {c : List Name} {name : Name} {o : FtwOpts}

theorem entryPath_append (hq : q ≠ [47]) (c : List Name) (name : Name) :
    entryPath q (c ++ [name]) = under (c.foldl under q) name := by
  rw [entryPath, if_neg (List.append_ne_nil_of_right_ne_nil c (List.cons_ne_nil name [])),
    if_neg hq, List.foldl_append]
  rfl

theorem length_foldl_under (c : List Name) : ∀ p : Bytes,
    (c.foldl under p).length = p.length + (c.foldl under []).length := by
  induction c with
  | nil => exact fun p => rfl
  | cons name c ih =>
      intro p
      rw [List.foldl_cons, List.foldl_cons, ih (under p name), ih (under [] name), length_under,
        length_under, List.length_nil]
      omega

/-- Below `/` there is a slash too many. -/
theorem not_callRight_root (c : List Name) (name : Name) :
    ¬CallRight [47] (callAt c (c.foldl under [47]) name) := by
  rintro ⟨hpath, -⟩
  have hlen := congrArg List.length hpath
  rw [callAt, entryPath, if_neg (List.append_ne_nil_of_right_ne_nil c (List.cons_ne_nil name [])),
    if_pos rfl, List.foldl_append, List.foldl_cons, List.foldl_nil, length_under, length_under,
    length_foldl_under c [47], List.length_cons] at hlen
  omega

theorem baseName_append (q : Bytes) (c : List Name) (name : Name) :
    baseName q (c ++ [name]) = name.chrs := by
  rw [baseName, List.getLast?_append, List.getLast?_singleton]
  rfl

theorem matchRight_matchCall (o : FtwOpts) (q : Bytes) (c : List Name) (p : Bytes) (name : Name) :
    MatchRight o q (o.matchCall c p name) := by
  intro hoff
  rw [FtwOpts.matchCall, hoff, if_neg Bool.false_ne_true]
  exact ⟨(baseName_append q c name).symm, rfl⟩

/-- A path is not a name. -/
theorem not_matchRight_callAt (hoff : o.matchpath = false) (q : Bytes) (c : List Name) (p : Bytes)
    (name : Name) : ¬MatchRight o q (callAt c p name) := by
  intro h
  have hlen := congrArg List.length (h hoff).1
  rw [callAt, baseName_append, length_under] at hlen
  omega

/-! ## The loop -/

theorem covers_below (o : FtwOpts) (hq : q ≠ [47]) :
    Covers o ⟨false, o.useAtfile, !o.matchpath⟩ q (CallRight q) (MatchRight o q) where
  dirs _ := rfl
  call _ c name := ⟨(entryPath_append hq c name).symm, rfl⟩
  matchCall := matchRight_matchCall o q
  lost hat _ := hat
  unread hk _ c p name := fun hoff => by
    rw [hoff] at hk
    cases hk

theorem betrays_below (o : FtwOpts) (hq : q ≠ [47]) :
    Betrays o ⟨false, o.useAtfile, !o.matchpath⟩ q (CallRight q) (MatchRight o q) where
  file hk := nomatch hk
  lost hat := ⟨hat, fun c name _ _ hne h => hne (h.1.trans (entryPath_append hq c name))⟩
  unread hk c p name := not_matchRight_callAt (Bool.not_eq_true' _ |>.mp hk) q c p name

theorem covers_root (o : FtwOpts) (hdirs : o.reportsDirs = false) :
    Covers o ⟨true, false, false⟩ [47] (CallRight [47]) (MatchRight o [47]) where
  dirs h := nomatch hdirs.symm.trans h
  call hk := nomatch hk
  matchCall := matchRight_matchCall o [47]
  lost _ h := nomatch hdirs.symm.trans (reportsDirs_of_other h)
  unread _ h := nomatch hdirs.symm.trans h

theorem betrays_root (o : FtwOpts) :
    Betrays o ⟨true, false, false⟩ [47] (CallRight [47]) (MatchRight o [47]) where
  file _ := not_callRight_root
  lost hk := nomatch hk
  unread hk := nomatch hk

/-! ## A directory -/

variable {a : FtwData} {dirpath : Bytes} {entries : Dir}

/-- The state the walk below the start begins in. -/
def enterState (o : FtwOpts) (dirpath : Bytes) : FtwState :=
  if o.reportsDirs then (rootState dirpath).called [] else rootState dirpath

theorem rootState_dirpath (dirpath : Bytes) :
    (rootState dirpath).dirpath = startPath dirpath ++ [0] := by
  rw [rootState]
  split <;> rfl

theorem rootState_calls (dirpath : Bytes) :
    (rootState dirpath).calls = [] ∧ (rootState dirpath).matchCalls = [] ∧
      (rootState dirpath).actionStop = false ∧ (rootState dirpath).failed = false := by
  rw [rootState]
  split <;> exact ⟨rfl, rfl, rfl, rfl⟩

theorem enterState_dirpath (o : FtwOpts) (dirpath : Bytes) :
    (enterState o dirpath).dirpath = startPath dirpath ++ [0] := by
  rw [enterState]
  split <;> exact rootState_dirpath dirpath

theorem enterState_actionStop (o : FtwOpts) (dirpath : Bytes) :
    (enterState o dirpath).actionStop = false := by
  rw [enterState]
  split <;> exact (rootState_calls dirpath).2.2.1

theorem enterState_pathIs (o : FtwOpts) (h0 : 0 ∉ dirpath) (hq : startPath dirpath ≠ [47]) :
    PathIs (startPath dirpath) (enterState o dirpath) := by
  have hpath := startState_pathIs h0
  rw [enterState, rootState, if_neg hq]
  split <;> exact ⟨hpath.path, hpath.len⟩

theorem enterState_right (o : FtwOpts) (h0 : 0 ∉ dirpath) (hq : startPath dirpath ≠ [47]) :
    AllRight (CallRight (startPath dirpath)) (MatchRight o (startPath dirpath))
      (enterState o dirpath) := by
  obtain ⟨hcalls, hmatch, -⟩ := rootState_calls dirpath
  have hnone : AllRight (CallRight (startPath dirpath)) (MatchRight o (startPath dirpath))
      (rootState dirpath) := by
    refine ⟨fun x hx => ?_, fun m hm => ?_⟩
    · rw [hcalls] at hx
      exact absurd hx List.not_mem_nil
    · rw [hmatch] at hm
      exact absurd hm List.not_mem_nil
  rw [enterState]
  split
  · refine hnone.called ?_
    rw [rootState, if_neg hq, (startState_pathIs h0).callAt]
    exact ⟨rfl, rfl⟩
  · exact hnone

/-- Unless `FUNC` stops it at the start, the walk goes below. -/
theorem ioFtwLen_enter (a : FtwData) (dirErr : Option Errno) (entries : Dir) (hne : dirpath ≠ [])
    (hlen : dirpath.length < ioPathMax) :
    (∃ log, a.answer log = .stop) ∧
        (ioFtwLen a (.dir dirErr entries) dirpath).2 = enterState a.opts dirpath ∨
      ioFtwLen a (.dir dirErr entries) dirpath
        = walkFrom a dirErr entries (startPath dirpath).length (enterState a.opts dirpath) := by
  obtain ⟨r, hrun⟩ := ioFtwLen_dir a dirErr entries hne hlen
  rw [hrun, enterState]
  by_cases hrep : a.opts.reportsDirs = true
  · rw [if_pos hrep, if_pos hrep]
    by_cases hstop : a.answer ((rootState dirpath).called []).calls = .stop
    · rw [if_pos hstop]
      exact .inl ⟨⟨_, hstop⟩, rfl⟩
    · rw [if_neg hstop]
      exact .inr rfl
  · rw [if_neg hrep, if_neg hrep]
    exact .inr rfl

/-- Callbacks that let everything pass. -/
def passing (o : FtwOpts) : FtwData := ⟨o, fun _ => 1, some fun _ _ => false⟩

theorem passing_continues (o : FtwOpts) : Continues (passing o) := by
  intro log
  rw [FtwData.answer, passing]
  split <;> rfl

theorem passing_accepts (o : FtwOpts) (p : Bytes) (name : Name) :
    (passing o).accepts p name = true := by
  show (if o.matchpath = true then !false else !false) = true
  split <;> rfl

theorem ioFtwLen_passing (o : FtwOpts) (dirErr : Option Errno) (entries : Dir)
    (hne : dirpath ≠ []) (hlen : dirpath.length < ioPathMax) :
    (ioFtwLen (passing o) (.dir dirErr entries) dirpath).2
      = (internalFtwLen (passing o) dirErr entries [] (startPath dirpath).length
        (enterState o dirpath)).2 := by
  rcases ioFtwLen_enter (passing o) dirErr entries hne hlen with ⟨⟨log, hlog⟩, -⟩ | h
  · exact nomatch (passing_continues o log).symm.trans hlog
  · rw [h]
    rfl

variable {k : Kinds} {Q R : FtwCall → Prop}

/-- All walks from a directory make right calls only if none of the kinds is
come to. -/
theorem allRight_iff (hne : dirpath ≠ []) (hlen : dirpath.length < ioPathMax) (h0 : 0 ∉ dirpath)
    (hdis : entries.Distinct) (hcov : Covers o k (startPath dirpath) Q R)
    (hbet : Betrays o k (startPath dirpath) Q R) (henter : AllRight Q R (enterState o dirpath)) :
    (∀ a : FtwData, a.opts = o → AllRight Q R (ioFtwLen a (.dir none entries) dirpath).2) ↔
      Comes o k entries (startPath dirpath).length = false := by
  have hnul := noNul_startPath h0
  have hbuf : startPath dirpath <+: (enterState o dirpath).dirpath := by
    rw [enterState_dirpath]
    exact List.prefix_append _ _
  refine ⟨fun hall => ?_, fun hcomes a ha => ?_⟩
  · by_contra hcomes
    have hreads := (readLoop_reads (passing o) entries [] _ _ hnul hbuf).1
    have hfresh : Fresh (startPath dirpath) entries (enterState o dirpath) := by
      refine ⟨[], .inl ?_, fun _ _ => List.not_mem_nil⟩
      rw [enterState_dirpath]
      exact cstr_append hnul []
    have hright := hall (passing o) rfl
    rw [ioFtwLen_passing o none entries hne hlen] at hright
    exact hreads.wrong (passing_continues o) rfl (passing_accepts o) hbet rfl hnul hdis
      (enterState_actionStop o dirpath) hfresh (Bool.not_eq_false _ |>.mp hcomes) hright
  · subst ha
    rcases ioFtwLen_enter a none entries hne hlen with ⟨-, h⟩ | h
    · rw [h]
      exact henter
    · rw [h]
      exact (readLoop_reads a entries [] _ _ hnul hbuf).1.right hcov rfl hcomes henter

theorem pathsKept_below (hne : dirpath ≠ []) (hlen : dirpath.length < ioPathMax)
    (h0 : 0 ∉ dirpath) (hq : startPath dirpath ≠ [47]) (hdis : entries.Distinct) :
    PathsKept o (.dir none entries) dirpath ↔
      Comes o ⟨false, o.useAtfile, !o.matchpath⟩ entries (startPath dirpath).length = false := by
  rw [← allRight_iff hne hlen h0 hdis (covers_below o hq) (betrays_below o hq)
    (enterState_right o h0 hq), PathsKept]

theorem lastPart_of_noSlash (h : 47 ∉ q) : lastPart q = q :=
  List.rtakeWhile_eq_self_iff.mpr fun _ hc => decide_eq_true fun h47 => h (h47 ▸ hc)

theorem noSlash_lastPart (q : Bytes) : 47 ∉ lastPart q := by
  intro h
  have h47 := @List.mem_rtakeWhile_imp _ (fun c : UInt8 => decide (c ≠ 47)) q 47 h
  exact absurd h47 (by decide)

theorem lastPart_append (u : Bytes) (h : 47 ∉ v) : lastPart (u ++ 47 :: v) = v := by
  have hv : ∀ c ∈ v.reverse, decide (c ≠ 47) = true :=
    fun c hc => decide_eq_true fun h47 => h (h47 ▸ List.mem_reverse.mp hc)
  rw [lastPart, List.rtakeWhile, List.reverse_append, List.reverse_cons, List.append_assoc,
    List.takeWhile_append_of_pos hv, List.singleton_append,
    List.takeWhile_cons_of_neg (by decide), List.append_nil, List.reverse_reverse]

/-- A start that `opendir` fails on. -/
theorem pathsKept_unopened {e : Errno} (hne : dirpath ≠ []) (hlen : dirpath.length < ioPathMax)
    (h0 : 0 ∉ dirpath) (hq : startPath dirpath ≠ [47]) :
    PathsKept o (.dir (some e) entries) dirpath ↔ o.matchpath = true ∨ o.reportsDirs = false ∨
      e.nonfatal = false ∨ 47 ∉ startPath dirpath := by
  have hpath := enterState_pathIs o h0 hq
  have henter := enterState_right o h0 hq
  have hmatch : MatchRight o (startPath dirpath)
      ⟨[], startPath dirpath, (startPath dirpath).length⟩ ↔
        o.matchpath = true ∨ 47 ∉ startPath dirpath := by
    rw [MatchRight]
    rcases Bool.eq_false_or_eq_true o.matchpath with hmp | hmp
    · exact ⟨fun _ => .inl hmp, fun _ h => nomatch hmp.symm.trans h⟩
    · refine ⟨fun h => .inr ?_, fun h _ => ⟨?_, rfl⟩⟩
      · have hname : startPath dirpath = lastPart (startPath dirpath) := (h hmp).1
        rw [hname]
        exact noSlash_lastPart _
      · rcases h with h | h
        · exact nomatch hmp.symm.trans h
        · exact (lastPart_of_noSlash h).symm
  refine ⟨fun hkept => ?_, fun hmeet a ha => ?_⟩
  · have hright := hkept (passing o) rfl
    rw [ioFtwLen_passing o (some e) entries hne hlen] at hright
    by_contra hno
    rw [not_or, not_or, not_or, Bool.not_eq_false, Bool.not_eq_false] at hno
    obtain ⟨hmp, hrep, he, hslash⟩ := hno
    refine not_allRight_unopened rfl he hrep hpath (fun h => ?_) hright
    exact (hmatch.mp h).elim hmp hslash
  · subst ha
    rcases ioFtwLen_enter a (some e) entries hne hlen with ⟨-, h⟩ | h
    · rw [h]
      exact henter
    · rw [h]
      have hlen' := hpath.len
      show AllRight _ _ (unopened a [] e (startPath dirpath).length _).2
      rw [← hlen']
      refine henter.unopened hpath (fun he hrep => hmatch.mpr ?_) fun _ => ⟨rfl, rfl⟩
      rcases hmeet with h' | h' | h' | h'
      · exact .inl h'
      · exact nomatch hrep.symm.trans h'
      · exact nomatch he.symm.trans h'
      · exact .inr h'

theorem internalFtwLen_grows (a : FtwData) (dirErr : Option Errno) (entries : Dir) (c : List Name)
    {p : Bytes} {s : FtwState} (h0 : 0 ∉ p) (hp : p <+: s.dirpath) :
    Grows s (internalFtwLen a dirErr entries c p.length s).2 := by
  cases dirErr with
  | some e => exact unopened_grows a c e p.length s
  | none => exact (readLoop_reads a entries c p s h0 hp).1.grows

/-- From `/`, where no call of `FUNC` is right. -/
theorem pathsKept_root (dirErr : Option Errno) (hne : dirpath ≠ [])
    (hlen : dirpath.length < ioPathMax) (h0 : 0 ∉ dirpath) (hq : startPath dirpath = [47])
    (hdis : entries.Distinct) :
    PathsKept o (.dir dirErr entries) dirpath ↔ o.reportsDirs = false ∧
      (dirErr = none → Comes o ⟨true, false, false⟩ entries 1 = false) := by
  have hroot : rootState dirpath = { startState dirpath with dirpathLen := 0 } := if_pos hq
  have hbuf : startPath dirpath <+: ((rootState dirpath).called []).dirpath :=
    (rootState_dirpath dirpath).symm ▸ List.prefix_append _ _
  rcases Bool.eq_false_or_eq_true o.reportsDirs with hrep | hrep
  · refine ⟨fun hkept => ?_, fun h => nomatch hrep.symm.trans h.1⟩
    have hright := hkept (passing o) rfl
    rw [ioFtwLen_passing o dirErr entries hne hlen, enterState, if_pos hrep] at hright
    have hgrows := internalFtwLen_grows (passing o) dirErr entries [] (noNul_startPath h0) hbuf
    refine absurd (hright.of_grows hgrows) (not_allRight_called fun h => ?_)
    have hlen0 : (rootState dirpath).dirpathLen = 0 := by rw [hroot]
    have hlen1 : (rootState dirpath).dirpathLen = (cstr (rootState dirpath).dirpath).length := h.2
    rw [hlen0, rootState_dirpath, cstr_append (noNul_startPath h0), hq] at hlen1
    cases hlen1
  · have henter : AllRight (CallRight [47]) (MatchRight o [47]) (enterState o dirpath) := by
      rw [enterState, hrep, hroot]
      exact ⟨fun _ h => absurd h List.not_mem_nil, fun _ h => absurd h List.not_mem_nil⟩
    rw [PathsKept, hq]
    cases dirErr with
    | some e =>
        refine ⟨fun _ => ⟨hrep, nofun⟩, fun _ a ha => ?_⟩
        subst ha
        rcases ioFtwLen_enter a (some e) entries hne hlen with ⟨-, h⟩ | h
        · rw [h]
          exact henter
        · rw [h]
          show AllRight _ _ (unopened a [] e _ _).2
          rcases unopened_cases a [] e (startPath dirpath).length (enterState a.opts dirpath) with
            ⟨-, h'⟩ | ⟨-, -, h'⟩ | ⟨-, hno, -⟩
          · rw [h']
            exact ⟨henter.calls, henter.matchCalls⟩
          · rw [h']
            exact henter
          · exact nomatch hrep.symm.trans hno
    | none =>
        have hcov := covers_root o hrep
        have hbet := betrays_root o
        rw [← hq] at hcov hbet henter ⊢
        rw [allRight_iff hne hlen h0 hdis hcov hbet henter, hq]
        exact ⟨fun h => ⟨hrep, fun _ => h⟩, fun h => h.2 rfl⟩

/-! ## What is not a directory -/

theorem stripLen_last (dirpath : Bytes) (n : Nat) :
    stripLen dirpath n ≤ 1 ∨ dirpath[stripLen dirpath n - 1]? ≠ some 47 := by
  induction n with
  | zero => exact .inl (Nat.zero_le 1)
  | succ n ih =>
      rw [stripLen]
      split
      · exact ih
      · rename_i h
        by_cases h1 : n + 1 = 1
        · exact .inl (le_of_eq h1)
        · exact .inr fun h47 => h ⟨h1, h47⟩

/-- Behind a last slash there is a name, but for `/` itself. -/
theorem startPath_slash (h : startPath dirpath = u ++ [47]) : u = [] := by
  have hlen := congrArg List.length h
  rw [length_startPath, List.length_append, List.length_singleton] at hlen
  rcases stripLen_last dirpath dirpath.length with hle | hne
  · exact List.length_eq_zero_iff.mp (by omega)
  · refine absurd ?_ hne
    rw [hlen, Nat.add_sub_cancel]
    have hget : (startPath dirpath)[u.length]? = some 47 := by
      rw [h, List.getElem?_append_right (le_refl _), Nat.sub_self]
      rfl
    rw [startPath, List.getElem?_take] at hget
    split at hget
    · exact hget
    · cases hget

/-- The last slash of a string, as `memrchr` finds it. -/
theorem memrchr_slash (q w : Bytes) :
    47 ∉ q ∧ libcMemrchr (memOf (q ++ w)) 0 47 q.length = none ∨
      ∃ u v, q = u ++ 47 :: v ∧ 47 ∉ v ∧
        libcMemrchr (memOf (q ++ w)) 0 47 q.length = some u.length := by
  have hmem : ∀ i, (h : i < q.length) → memOf (q ++ w) (0 + i) = q[i] := by
    intro i h
    rw [Nat.zero_add, memOf, List.getD_append _ _ _ _ h, List.getD_eq_getElem _ _ h]
  obtain ⟨r, hr, hright⟩ := libcMemrchr_rightmost (memOf (q ++ w)) 0 47 q.length
  cases r with
  | none =>
      refine .inl ⟨fun h47 => ?_, hr⟩
      obtain ⟨i, hi, heq⟩ := List.getElem_of_mem h47
      exact hright i ⟨hi, (hmem i hi).trans heq⟩
  | some i =>
      obtain ⟨⟨hi, hhit⟩, hlast⟩ := hright
      have hq : q = q.take i ++ 47 :: q.drop (i + 1) := by
        rw [← hhit, hmem i hi, List.getElem_cons_drop, List.take_append_drop]
      refine .inr ⟨q.take i, q.drop (i + 1), hq, fun h47 => ?_, ?_⟩
      · obtain ⟨j, hj, heq⟩ := List.getElem_of_mem h47
        rw [List.getElem_drop] at heq
        rw [List.length_drop] at hj
        exact hlast (i + 1 + j) (by omega) ⟨by omega, (hmem _ (by omega)).trans heq⟩
      · rw [hr, List.length_take, Nat.min_eq_left (Nat.le_of_lt hi)]
        exact congrArg some (Nat.zero_add i)

/-- The last slash, and what is passed then. -/
theorem matchStart_cases (a : FtwData) (m : Bytes → Nat → Bool) (h0 : 0 ∉ dirpath)
    (hmp : a.opts.matchpath = false) :
    47 ∉ startPath dirpath ∧
        matchStart a m (startPath dirpath).length (startState dirpath)
          = callMatch m [] (startPath dirpath) (startPath dirpath).length (startState dirpath) ∨
      (∃ u v, startPath dirpath = u ++ 47 :: v ∧ 47 ∉ v ∧ v ≠ [] ∧
        matchStart a m (startPath dirpath).length (startState dirpath)
          = callMatch m [] v (u.length + v.length) (startState dirpath)) ∨
      startPath dirpath = [47] ∧
        matchStart a m (startPath dirpath).length (startState dirpath)
          = (false, startState dirpath) := by
  have hnul := noNul_startPath h0
  have hcstr : cstr (startState dirpath).dirpath = startPath dirpath := cstr_append hnul []
  have hoff : ¬a.opts.matchpath = true := by rw [hmp]; exact Bool.false_ne_true
  rw [matchStart, if_neg hoff]
  rcases memrchr_slash (startPath dirpath) [0] with ⟨h47, hr⟩ | ⟨u, v, hq, h47, hr⟩
  · refine .inl ⟨h47, ?_⟩
    rw [startState, hr]
    show callMatch m [] (cstr (startState dirpath).dirpath) _ _ = _
    rw [hcstr]
  · have hbuf : (startState dirpath).dirpath = u ++ 47 :: (v ++ [0]) := by
      show startPath dirpath ++ [0] = _
      rw [hq, List.append_assoc, List.cons_append]
    have hdrop : (u ++ 47 :: (v ++ [0])).drop (u.length + 1) = v ++ [0] := by
      rw [← List.drop_drop, List.drop_left]
      rfl
    have hnext : memOf (startState dirpath).dirpath (u.length + 1) = (v ++ [0]).getD 0 0 := by
      rw [memOf, hbuf, List.getD_append_right _ _ _ _ (by omega), Nat.add_sub_cancel_left]
      rfl
    have hr' : libcMemrchr (memOf (startState dirpath).dirpath) 0 47 (startPath dirpath).length
        = some u.length := hr
    rw [hr']
    simp only [hnext]
    cases v with
    | nil =>
        have hu := startPath_slash hq
        exact .inr (.inr ⟨by rw [hq, hu]; rfl, rfl⟩)
    | cons b v =>
        have hb : b ≠ 0 := by
          rintro rfl
          refine hnul ?_
          rw [hq]
          exact List.mem_append_right _ (List.mem_cons_of_mem _ List.mem_cons_self)
        have hv : 0 ∉ b :: v := by
          intro h
          refine hnul ?_
          rw [hq]
          exact List.mem_append_right _ (List.mem_cons_of_mem _ h)
        refine .inr (.inl ⟨u, b :: v, hq, h47, List.cons_ne_nil _ _, ?_⟩)
        have hlen : (startPath dirpath).length - 1 = u.length + (b :: v).length := by
          rw [hq, List.length_append, List.length_cons]
          omega
        rw [List.cons_append, List.getD_cons_zero, if_pos hb, hbuf, hdrop, cstr_append hv [], hlen]

theorem ioFtwLen_file (a : FtwData) (type : FileType) (hne : dirpath ≠ [])
    (hlen : dirpath.length < ioPathMax) :
    (a.opts.reg = true ∧ type ≠ .reg) ∧
        (ioFtwLen a (.file type) dirpath).2 = startState dirpath ∨
      ¬(a.opts.reg = true ∧ type ≠ .reg) ∧ ∃ s₁,
        (a.funcMatch = none ∧ s₁ = startState dirpath ∨ ∃ m, a.funcMatch = some m ∧
          s₁ = (matchStart a m (startPath dirpath).length (startState dirpath)).2) ∧
        ((ioFtwLen a (.file type) dirpath).2 = s₁ ∨
          (ioFtwLen a (.file type) dirpath).2 = s₁.called []) := by
  have hlong := walked_path hne hlen
  have hstate : (⟨dirpath.take (stripLen dirpath dirpath.length) ++ [0],
      stripLen dirpath dirpath.length, false, [], [], false⟩ : FtwState) = startState dirpath := by
    rw [startState, length_startPath, startPath]
  rw [ioFtwLen, if_neg hlong]
  simp only [hstate]
  rw [← length_startPath]
  by_cases hreg : a.opts.reg = true ∧ type ≠ .reg
  · rw [if_pos hreg]
    exact .inl ⟨hreg, rfl⟩
  · rw [if_neg hreg]
    refine .inr ⟨hreg, ?_⟩
    cases hm : a.funcMatch with
    | none => exact ⟨_, .inl ⟨rfl, rfl⟩, .inr rfl⟩
    | some m =>
        refine ⟨_, .inr ⟨m, rfl, rfl⟩, ?_⟩
        simp only
        split
        · exact .inl rfl
        · exact .inr rfl

/-- What `FUNC_MATCH` is given, if it is called. -/
theorem matchStart_right (a : FtwData) (m : Bytes → Nat → Bool) (h0 : 0 ∉ dirpath)
    (hmeet : a.opts.matchpath = true ∨
      ∀ i, (startPath dirpath)[i]? = some (47 : UInt8) → i = 0) :
    (matchStart a m (startPath dirpath).length (startState dirpath)).2 = startState dirpath ∨
      ∃ x, MatchRight a.opts (startPath dirpath) x ∧
        (matchStart a m (startPath dirpath).length (startState dirpath)).2
          = (startState dirpath).matched x := by
  rcases Bool.eq_false_or_eq_true a.opts.matchpath with hmp | hmp
  · rw [matchStart, if_pos hmp]
    exact .inr ⟨_, fun h => (nomatch hmp.symm.trans h), rfl⟩
  rcases matchStart_cases a m h0 hmp with ⟨h47, h⟩ | ⟨u, v, hq, h47, -, h⟩ | ⟨-, h⟩
  · rw [h]
    exact .inr ⟨_, fun _ => ⟨(lastPart_of_noSlash h47).symm, rfl⟩, rfl⟩
  · have hu : u.length = 0 := by
      rcases hmeet with hmeet | hmeet
      · exact nomatch hmp.symm.trans hmeet
      · refine hmeet u.length ?_
        rw [hq, List.getElem?_append_right (le_refl _), Nat.sub_self]
        rfl
    rw [h, hu, Nat.zero_add]
    refine .inr ⟨_, fun _ => ⟨?_, rfl⟩, rfl⟩
    show v = lastPart (startPath dirpath)
    rw [hq, lastPart_append u h47]
  · rw [h]
    exact .inl rfl

/-- Its answer aside, a length that is right leaves one place for a slash. -/
theorem slash_of_right (a : FtwData) (m : Bytes → Nat → Bool) (h0 : 0 ∉ dirpath)
    (hmp : a.opts.matchpath = false)
    (hright : ∀ x ∈ (matchStart a m (startPath dirpath).length (startState dirpath)).2.matchCalls,
      MatchRight a.opts (startPath dirpath) x) :
    ∀ i, (startPath dirpath)[i]? = some (47 : UInt8) → i = 0 := by
  intro i hi
  rcases matchStart_cases a m h0 hmp with ⟨h47, -⟩ | ⟨u, v, hq, h47, -, h⟩ | ⟨hq, -⟩
  · exact absurd (List.mem_of_getElem? hi) h47
  · rw [h] at hright
    have hlen := (hright ⟨[], v, u.length + v.length⟩ List.mem_cons_self hmp).2
    have hu : u = [] := List.length_eq_zero_iff.mp (by
      have hlen' : u.length + v.length = v.length := hlen
      omega)
    rw [hq, hu, List.nil_append] at hi
    cases i with
    | zero => rfl
    | succ i =>
        have hi' : v[i]? = some 47 := hi
        exact absurd (List.mem_of_getElem? hi') h47
  · rw [hq] at hi
    cases i with
    | zero => rfl
    | succ i => exact nomatch hi

theorem pathsKept_file (type : FileType) (hne : dirpath ≠ []) (hlen : dirpath.length < ioPathMax)
    (h0 : 0 ∉ dirpath) :
    PathsKept o (.file type) dirpath ↔ (o.reg = true ∧ type ≠ .reg) ∨ o.matchpath = true ∨
      ∀ i, (startPath dirpath)[i]? = some (47 : UInt8) → i = 0 := by
  have hstart : AllRight (CallRight (startPath dirpath)) (MatchRight o (startPath dirpath))
      (startState dirpath) :=
    ⟨fun _ h => absurd h List.not_mem_nil, fun _ h => absurd h List.not_mem_nil⟩
  refine ⟨fun hkept => ?_, fun hmeet a ha => ?_⟩
  · rcases Bool.eq_false_or_eq_true o.matchpath with hmp | hmp
    · exact .inr (.inl hmp)
    have hright := (hkept (passing o) rfl).matchCalls
    rcases ioFtwLen_file (passing o) type hne hlen with ⟨hreg, -⟩ | ⟨-, s₁, hs₁, h⟩
    · exact .inl hreg
    · refine .inr (.inr (slash_of_right (passing o) (fun _ _ => false) h0 hmp fun x hx => ?_))
      rcases hs₁ with ⟨hnone, -⟩ | ⟨m, hm, rfl⟩
      · exact nomatch hnone
      · cases hm
        refine hright x ?_
        rcases h with h | h <;> rw [h]
        · exact hx
        · exact hx
  · subst ha
    rcases ioFtwLen_file a type hne hlen with ⟨-, h⟩ | ⟨hreg, s₁, hs₁, h⟩
    · rw [h]
      exact hstart
    have hmeet' := hmeet.resolve_left hreg
    have hs : s₁ = startState dirpath ∨ ∃ x, MatchRight a.opts (startPath dirpath) x ∧
        s₁ = (startState dirpath).matched x := by
      rcases hs₁ with ⟨-, rfl⟩ | ⟨m, -, rfl⟩
      · exact .inl rfl
      · exact matchStart_right a m h0 hmeet'
    have hright : AllRight (CallRight (startPath dirpath)) (MatchRight a.opts (startPath dirpath))
        s₁ := by
      rcases hs with rfl | ⟨x, hx, rfl⟩
      · exact hstart
      · exact ⟨hstart.calls, fun y hy => List.mem_singleton.mp hy ▸ hx⟩
    have hpath : PathIs (startPath dirpath) s₁ := by
      have hpath' := startState_pathIs h0
      rcases hs with rfl | ⟨x, -, rfl⟩
      · exact hpath'
      · exact ⟨hpath'.path, hpath'.len⟩
    rcases h with h | h <;> rw [h]
    · exact hright
    · refine hright.called ?_
      rw [hpath.callAt]
      exact ⟨rfl, rfl⟩

/-! ## The walk -/

/-- All callbacks are given the right paths, whatever they are, in the walks
that are refused at once and those of `PathsMeet`. -/
theorem pathsKept_iff (o : FtwOpts) (start : Start) (h0 : 0 ∉ dirpath)
    (hdis : ∀ dirErr entries, start = .dir dirErr entries → entries.Distinct) :
    PathsKept o start dirpath ↔
      dirpath = [] ∨ ioPathMax ≤ dirpath.length ∨ PathsMeet o dirpath start := by
  have hnone : ∀ a : FtwData, (ioFtwLen a start dirpath).2.calls = [] →
      (ioFtwLen a start dirpath).2.matchCalls = [] →
      AllRight (CallRight (startPath dirpath)) (MatchRight o (startPath dirpath))
        (ioFtwLen a start dirpath).2 := by
    refine fun a hc hm => ⟨fun x hx => ?_, fun m hx => ?_⟩
    · rw [hc] at hx
      exact absurd hx List.not_mem_nil
    · rw [hm] at hx
      exact absurd hx List.not_mem_nil
  refine iff_of_badPath (fun hbad a _ => hnone a ?_ ?_) fun hne hlen => ?_
  · unfold ioFtwLen
    rw [if_pos hbad]
  · unfold ioFtwLen
    rw [if_pos hbad]
  cases start with
  | refused =>
      refine ⟨fun _ => trivial, fun _ a _ => hnone a ?_ ?_⟩
      · unfold ioFtwLen
        rw [if_neg (walked_path hne hlen)]
      · unfold ioFtwLen
        rw [if_neg (walked_path hne hlen)]
  | file type => exact pathsKept_file type hne hlen h0
  | dir dirErr entries =>
      have hdis' := hdis dirErr entries rfl
      dsimp only [PathsMeet]
      by_cases hq : startPath dirpath = [47]
      · rw [if_pos hq]
        exact pathsKept_root dirErr hne hlen h0 hq hdis'
      · rw [if_neg hq]
        cases dirErr with
        | some e => exact pathsKept_unopened hne hlen h0 hq
        | none => exact pathsKept_below hne hlen h0 hq hdis'

/-- In `/t` there are two files. -/
theorem pathsKept_iff_t :
    let o : FtwOpts := ⟨true, false, false, true, false, false, false, false⟩
    let a : Name := ⟨[97], by decide, by decide, by decide, by decide⟩
    let b : Name := ⟨[98], by decide, by decide, by decide, by decide⟩
    let start : Start := .dir none (.file a .reg (.file b .reg .done))
    PathsKept o start [47, 116] ↔
      ([47, 116] : Bytes) = [] ∨ ioPathMax ≤ ([47, 116] : Bytes).length ∨
        PathsMeet o [47, 116] start := by
  intro o a b start
  refine pathsKept_iff o start (by decide) fun dirErr entries h => ?_
  cases (show Start.dir none (.file a .reg (.file b .reg .done)) = .dir dirErr entries from h)
  exact ⟨by decide, by decide, trivial⟩

/-- `/a` is passed as `//a`. -/
theorem not_pathsKept_root :
    ¬PathsKept ⟨true, false, false, true, false, false, false, false⟩
      (.dir none (.file ⟨[97], by decide, by decide, by decide, by decide⟩ .reg .done)) [47] := by
  intro h
  have hcall := (h (passing ⟨true, false, false, true, false, false, false, false⟩) rfl).calls
    ⟨[⟨[97], by decide, by decide, by decide, by decide⟩], [47, 47, 97], 3⟩ (by decide)
  exact absurd hcall.1 (by decide)

end Start

end Jstr
