import Jstring.FtwSteps

/-!
# The runs of the directory walk

The loop of a directory as a relation: what it does with the next entry, by
the kind of the entry and the answer of `FUNC`. Whatever holds of every walk
is proved by induction on it.

- `Report`: a call of `FUNC`, or none;
- `Met`: the entries that are neither ignored nor in error;
- `Reads`: the loop, and `readLoop_reads`.
-/

namespace Jstr

open Traversal

/-! ## One entry -/

/-- The first entry, and the rest. -/
inductive Heads : Dir → Name → Dir → Prop where
  | file {name type rest} : Heads (.file name type rest) name rest
  | lost {name e rest} : Heads (.lost name e rest) name rest
  | sub {name openErr dirErr inner rest} :
      Heads (.sub name openErr dirErr inner rest) name rest

/-- What there is to read if the first entry is a directory. -/
def Dir.sub? : Dir → Option (Option Errno × Option Errno × Dir)
  | .sub _ openErr dirErr inner _ => some (openErr, dirErr, inner)
  | _ => none

/-- `FUNC` is called for `entry` or not, and what comes next. -/
inductive Report (a : FtwData) (entry : List Name) (s : FtwState) :
    Bool → Flow → FtwState → Prop where
  | pass : Report a entry s false .on s
  | proceed (h : a.answer (s.called entry).calls = .proceed) :
      Report a entry s true .on (s.called entry)
  | skipSubtree (h : a.answer (s.called entry).calls = .skipSubtree) :
      Report a entry s true .next (s.called entry)
  | skipSiblings (h : a.answer (s.called entry).calls = .skipSiblings) :
      Report a entry s true .brk (s.called entry)
  | stop (h : a.answer (s.called entry).calls = .stop) (hact : a.opts.actionretval = true) :
      Report a entry s true (.ret .succ) { s.called entry with actionStop := true }
  | fail (h : a.answer (s.called entry).calls = .stop) (hact : a.opts.actionretval = false) :
      Report a entry s true (.ret .err) (s.called entry)

/-- The first entry of the directory `c` at the path `p` is neither ignored
nor too long, and `stat` works or fails in a way that is ignored. `rep` says
whether `FUNC` is called, in the state `s'`. -/
inductive Met (a : FtwData) (c : List Name) (p : Bytes) (s : FtwState) :
    Dir → Name → Dir → Bool → FtwState → Prop where
  | file {name type rest ms s'} (hms : ∀ m ∈ ms, m = a.opts.matchCall c p name)
      (hready : Ready (under p name) ms s s')
      (hpath : (a.opts.reports type && a.accepts p name) = true → PathIs (under p name) s') :
      Met a c p s (.file name type rest) name rest (a.opts.reports type && a.accepts p name) s'
  | lost {name e rest} (he : e.nonfatal = true)
      (hready : Ready (under p name) [] s (ready a p.length name s))
      (hpath : a.opts.useAtfile = false → PathIs (under p name) (ready a p.length name s)) :
      Met a c p s (.lost name e rest) name rest (a.opts.reports .other) (ready a p.length name s)
  | sub {name openErr dirErr inner rest s'} (hready : Ready (under p name) [] s s')
      (hpath : a.opts.nosubdir = false ∨ a.opts.reportsDirs = true → PathIs (under p name) s') :
      Met a c p s (.sub name openErr dirErr inner rest) name rest a.opts.reportsDirs s'

/-- A directory is gone into. -/
def FtwOpts.enters (o : FtwOpts) (openErr : Option Errno) : Bool :=
  !o.nosubdir && (!o.useAtfile || openErr.isNone)

/-- A directory that is not gone into could not be opened, and not on account
of `EACCES` or `ENOENT`. -/
def FtwOpts.shuts (o : FtwOpts) (openErr : Option Errno) : Bool :=
  !o.nosubdir && o.useAtfile && openErr.any fun e => !e.nonfatal

/-- The result for a nested directory is taken for a success. -/
def GoesOn (a : FtwData) (r : RetTy) (s : FtwState) : Prop :=
  if a.opts.actionretval then s.actionStop = false else r = .succ

/-! ## The loop -/

inductive Reads (a : FtwData) :
    Dir → List Name → Bytes → FtwState → RetTy → FtwState → Prop where
  | done {c p s} : Reads a .done c p s .succ s
  | ignored {d name rest c p s r s'} (hd : Heads d name rest) (hi : a.opts.ignored name = true)
      (h : Reads a rest c p s r s') : Reads a d c p s r s'
  | tooLong {d name rest c p s} (hd : Heads d name rest) (hi : a.opts.ignored name = false)
      (hl : a.opts.tooLong p.length name = true) :
      Reads a d c p s .err { s with failed := true }
  | fatal {name e rest c p s} (hi : a.opts.ignored name = false)
      (hl : a.opts.tooLong p.length name = false) (he : e.nonfatal = false)
      (hready : Ready (under p name) [] s (ready a p.length name s)) :
      Reads a (.lost name e rest) c p s .err { ready a p.length name s with failed := true }
  | ret {d name rest c p s rep s₁ r s₂} (hi : a.opts.ignored name = false)
      (hl : a.opts.tooLong p.length name = false) (hm : Met a c p s d name rest rep s₁)
      (hr : Report a (c ++ [name]) s₁ rep (.ret r) s₂) : Reads a d c p s r s₂
  | brk {d name rest c p s rep s₁ s₂} (hi : a.opts.ignored name = false)
      (hl : a.opts.tooLong p.length name = false) (hm : Met a c p s d name rest rep s₁)
      (hr : Report a (c ++ [name]) s₁ rep .brk s₂) : Reads a d c p s .succ s₂
  | skip {d name rest c p s rep s₁ s₂ r s'} (hi : a.opts.ignored name = false)
      (hl : a.opts.tooLong p.length name = false) (hm : Met a c p s d name rest rep s₁)
      (hr : Report a (c ++ [name]) s₁ rep .next s₂) (h : Reads a rest c p s₂ r s') :
      Reads a d c p s r s'
  | leaf {d name rest c p s rep s₁ s₂ r s'} (hi : a.opts.ignored name = false)
      (hl : a.opts.tooLong p.length name = false) (hm : Met a c p s d name rest rep s₁)
      (hr : Report a (c ++ [name]) s₁ rep .on s₂) (hsub : d.sub? = none)
      (h : Reads a rest c p s₂ r s') : Reads a d c p s r s'
  | shut {d name rest c p s rep s₁ s₂ openErr dirErr inner r s'}
      (hi : a.opts.ignored name = false) (hl : a.opts.tooLong p.length name = false)
      (hm : Met a c p s d name rest rep s₁) (hr : Report a (c ++ [name]) s₁ rep .on s₂)
      (hsub : d.sub? = some (openErr, dirErr, inner)) (hent : a.opts.enters openErr = false)
      (h : Reads a rest c p { s₂ with failed := s₂.failed || a.opts.shuts openErr } r s') :
      Reads a d c p s r s'
  | unopened {d name rest c p s rep s₁ s₂ openErr e inner r s'}
      (hi : a.opts.ignored name = false) (hl : a.opts.tooLong p.length name = false)
      (hm : Met a c p s d name rest rep s₁) (hr : Report a (c ++ [name]) s₁ rep .on s₂)
      (hsub : d.sub? = some (openErr, some e, inner)) (hent : a.opts.enters openErr = true)
      (hgo : GoesOn a (unopened a (c ++ [name]) e s₂.dirpathLen s₂).1
        (unopened a (c ++ [name]) e s₂.dirpathLen s₂).2)
      (h : Reads a rest c p (unopened a (c ++ [name]) e s₂.dirpathLen s₂).2 r s') :
      Reads a d c p s r s'
  | unopenedLeave {d name rest c p s rep s₁ s₂ openErr e inner}
      (hi : a.opts.ignored name = false) (hl : a.opts.tooLong p.length name = false)
      (hm : Met a c p s d name rest rep s₁) (hr : Report a (c ++ [name]) s₁ rep .on s₂)
      (hsub : d.sub? = some (openErr, some e, inner)) (hent : a.opts.enters openErr = true)
      (hgo : ¬GoesOn a (unopened a (c ++ [name]) e s₂.dirpathLen s₂).1
        (unopened a (c ++ [name]) e s₂.dirpathLen s₂).2) :
      Reads a d c p s (if a.opts.actionretval then .succ else .err)
        (unopened a (c ++ [name]) e s₂.dirpathLen s₂).2
  | nested {d name rest c p s rep s₁ s₂ openErr inner r₃ s₃ r s'}
      (hi : a.opts.ignored name = false) (hl : a.opts.tooLong p.length name = false)
      (hm : Met a c p s d name rest rep s₁) (hr : Report a (c ++ [name]) s₁ rep .on s₂)
      (hsub : d.sub? = some (openErr, none, inner)) (hent : a.opts.enters openErr = true)
      (hin : Reads a inner (c ++ [name]) (under p name) s₂ r₃ s₃) (hgo : GoesOn a r₃ s₃)
      (h : Reads a rest c p s₃ r s') : Reads a d c p s r s'
  | nestedLeave {d name rest c p s rep s₁ s₂ openErr inner r₃ s₃}
      (hi : a.opts.ignored name = false) (hl : a.opts.tooLong p.length name = false)
      (hm : Met a c p s d name rest rep s₁) (hr : Report a (c ++ [name]) s₁ rep .on s₂)
      (hsub : d.sub? = some (openErr, none, inner)) (hent : a.opts.enters openErr = true)
      (hin : Reads a inner (c ++ [name]) (under p name) s₂ r₃ s₃) (hgo : ¬GoesOn a r₃ s₃) :
      Reads a d c p s (if a.opts.actionretval then .succ else .err) s₃

section Reads

variable {a : FtwData} {c : List Name} {p : Bytes} {name : Name} {s : FtwState}

theorem funcDir_report (a : FtwData) (entry : List Name) (s : FtwState) : ∃ flow s₂,
    Report a entry s true flow s₂ ∧ funcDir a entry s = (flow, s₂) := by
  rw [funcDir_eq]
  cases h : a.answer (s.called entry).calls with
  | proceed => exact ⟨.on, _, .proceed h, rfl⟩
  | skipSubtree => exact ⟨.next, _, .skipSubtree h, rfl⟩
  | skipSiblings => exact ⟨.brk, _, .skipSiblings h, rfl⟩
  | stop =>
      rw [stopPiece]
      by_cases hact : a.opts.actionretval
      · exact ⟨_, _, .stop h hact, by rw [if_pos hact]⟩
      · exact ⟨_, _, .fail h (Bool.not_eq_true _ |>.mp hact), by rw [if_neg hact]⟩

/-- A call for a file goes on to the next entry where one for a directory
would go into it. -/
theorem func_eq_funcDir (a : FtwData) (entry : List Name) (s : FtwState) : func a entry s =
    (if (funcDir a entry s).1 = .on then .next else (funcDir a entry s).1,
      (funcDir a entry s).2) := by
  rw [func_eq, funcDir_eq]
  cases a.answer (s.called entry).calls with
  | proceed => rfl
  | skipSubtree => rfl
  | skipSiblings => rfl
  | stop =>
      rw [stopPiece]
      by_cases hact : a.opts.actionretval
      · rw [if_pos hact]
        rfl
      · rw [if_neg hact]
        rfl

theorem func_report (a : FtwData) (entry : List Name) (s : FtwState) : ∃ flow s₂,
    Report a entry s true flow s₂ ∧ func a entry s = (if flow = .on then .next else flow, s₂) := by
  obtain ⟨flow, s₂, hr, hfunc⟩ := funcDir_report a entry s
  exact ⟨flow, s₂, hr, by rw [func_eq_funcDir, hfunc]⟩

/-- A call leaves the path alone. -/
theorem Report.dirpath {entry : List Name} {rep : Bool} {flow : Flow} {s₂ : FtwState}
    (h : Report a entry s rep flow s₂) : s₂.dirpath = s.dirpath ∧ s₂.dirpathLen = s.dirpathLen := by
  cases h <;> exact ⟨rfl, rfl⟩

theorem Met.dirpath_prefix {d rest : Dir} {rep : Bool} {s₁ : FtwState} (h : Met a c p s d name rest rep s₁)
    (hp : p <+: s.dirpath) : p <+: s₁.dirpath := by
  cases h with
  | file hms hready hpath => exact hready.dirpath_prefix hp
  | lost he hready hpath => exact hready.dirpath_prefix hp
  | sub hready hpath => exact hready.dirpath_prefix hp

/-- A directory that `opendir` fails on: an error; or it is passed over; or
`FUNC_MATCH` is asked about the path there is, and `FUNC` called or not. -/
theorem unopened_cases (a : FtwData) (c : List Name) (e : Errno) (n : Nat) (s : FtwState) :
    e.nonfatal = false ∧ unopened a c e n s = (.err, { s with failed := true }) ∨
      e.nonfatal = true ∧ a.opts.reportsDirs = false ∧ unopened a c e n s = (.succ, s) ∨
      e.nonfatal = true ∧ a.opts.reportsDirs = true ∧ ∃ s₁,
        (a.funcMatch = none ∧ s₁ = s ∨
          a.funcMatch.isSome ∧ s₁ = s.matched ⟨c, cstr s.dirpath, s.dirpathLen⟩) ∧
        (unopened a c e n s = (.succ, s₁) ∨
          unopened a c e n s = (.succ, { s₁ with dirpathLen := n }.called c)) := by
  rw [unopened]
  rcases Bool.eq_false_or_eq_true e.nonfatal with he | he
  swap
  · exact .inl ⟨he, by rw [he]; rfl⟩
  rw [if_pos he]
  rcases Bool.eq_false_or_eq_true a.opts.reportsDirs with hrep | hrep
  swap
  · have hno := not_not.mp fun h => Bool.false_ne_true (hrep ▸ (reportsDirs_iff a.opts).mp h)
    exact .inr (.inl ⟨he, hrep, if_pos hno⟩)
  rw [if_neg ((reportsDirs_iff a.opts).mpr hrep)]
  refine .inr (.inr ⟨he, hrep, ?_⟩)
  cases a.funcMatch with
  | none => exact ⟨s, .inl ⟨rfl, rfl⟩, .inr rfl⟩
  | some m =>
      refine ⟨_, .inr ⟨rfl, rfl⟩, ?_⟩
      by_cases hrej : m (cstr s.dirpath) s.dirpathLen = true
      · exact .inl (if_pos hrej)
      · exact .inr (if_neg hrej)

theorem unopened_dirpath (a : FtwData) (c : List Name) (e : Errno) (n : Nat) (s : FtwState) :
    (unopened a c e n s).2.dirpath = s.dirpath := by
  rcases unopened_cases a c e n s with ⟨-, h⟩ | ⟨-, -, h⟩ | ⟨-, -, s₁, hs₁, h | h⟩
  · rw [h]
  · rw [h]
  · rw [h]
    rcases hs₁ with ⟨-, rfl⟩ | ⟨-, rfl⟩ <;> rfl
  · rw [h]
    rcases hs₁ with ⟨-, rfl⟩ | ⟨-, rfl⟩ <;> rfl

/-- It fails if the error is not ignored. -/
theorem unopened_ret (a : FtwData) (c : List Name) (e : Errno) (n : Nat) (s : FtwState) :
    (unopened a c e n s).1 = (if e.nonfatal then .succ else .err) ∧
      (unopened a c e n s).2.failed = (s.failed || !e.nonfatal) := by
  rcases unopened_cases a c e n s with ⟨he, h⟩ | ⟨he, -, h⟩ | ⟨he, -, s₁, hs₁, h⟩
  · rw [h, he]
    exact ⟨rfl, (Bool.or_true _).symm⟩
  · rw [h, he]
    exact ⟨rfl, (Bool.or_false _).symm⟩
  · have hf : s₁.failed = s.failed := by
      rcases hs₁ with ⟨-, rfl⟩ | ⟨-, rfl⟩ <;> rfl
    rcases h with h | h <;> rw [h, he]
    · exact ⟨rfl, hf.trans (Bool.or_false _).symm⟩
    · exact ⟨rfl, hf.trans (Bool.or_false _).symm⟩

theorem gate_eq (a : FtwData) (openErr : Option Errno) (s : FtwState) : gate a openErr s
    = if a.opts.enters openErr then (.on, s)
      else (.next, { s with failed := s.failed || a.opts.shuts openErr }) := by
  rcases Bool.eq_false_or_eq_true a.opts.nosubdir with hsub | hsub
  · simp [gate, FtwOpts.enters, FtwOpts.shuts, hsub]
  rcases Bool.eq_false_or_eq_true a.opts.useAtfile with hat | hat
  · cases openErr <;> simp [gate, FtwOpts.enters, FtwOpts.shuts, hsub, hat]
  · simp [gate, FtwOpts.enters, hsub, hat]

/-- What follows a nested walk. -/
theorem nested_settle (a : FtwData) (r : RetTy × FtwState) (k : FtwState → RetTy × FtwState) :
    GoesOn a r.1 r.2 ∧ (nested a r).settle k = k r.2 ∨
      ¬GoesOn a r.1 r.2 ∧
        (nested a r).settle k = (if a.opts.actionretval then .succ else .err, r.2) := by
  rw [nested, GoesOn]
  by_cases hact : a.opts.actionretval
  · rw [if_pos hact, if_pos hact, if_pos hact]
    rcases Bool.eq_false_or_eq_true r.2.actionStop with h | h
    · exact .inr ⟨by rw [h]; decide, by rw [if_pos h]; rfl⟩
    · exact .inl ⟨h, by rw [h]; rfl⟩
  · rw [if_neg hact, if_neg hact, if_neg hact]
    cases h : r.1 with
    | err => exact .inr ⟨by decide, rfl⟩
    | succ => exact .inl ⟨rfl, rfl⟩

theorem Met.heads {d rest : Dir} {rep : Bool} {s₁ : FtwState} (h : Met a c p s d name rest rep s₁) :
    Heads d name rest := by
  cases h with
  | file hms hready hpath => exact .file
  | lost he hready hpath => exact .lost
  | sub hready hpath => exact .sub

theorem Met.eq_sub {d rest inner : Dir} {rep : Bool} {s₁ : FtwState}
    {openErr dirErr : Option Errno} (h : Met a c p s d name rest rep s₁)
    (hsub : d.sub? = some (openErr, dirErr, inner)) :
    d = .sub name openErr dirErr inner rest := by
  cases h with
  | file hms hready hpath => exact nomatch hsub
  | lost he hready hpath => exact nomatch hsub
  | sub hready hpath =>
      cases hsub
      rfl

/-- Where a directory is gone into, its path is the one there is. -/
theorem Met.path_of_enters {d rest inner : Dir} {rep : Bool} {s₁ : FtwState}
    {openErr dirErr : Option Errno} (h : Met a c p s d name rest rep s₁)
    (hsub : d.sub? = some (openErr, dirErr, inner)) (hent : a.opts.enters openErr = true) :
    PathIs (under p name) s₁ := by
  cases h with
  | file hms hready hpath => exact nomatch hsub
  | lost he hready hpath => exact nomatch hsub
  | sub hready hpath =>
      rw [FtwOpts.enters, Bool.and_eq_true] at hent
      exact hpath (.inl (Bool.not_eq_true' _ |>.mp hent.1))

theorem Report.pathIs {entry : List Name} {rep : Bool} {flow : Flow} {s₂ : FtwState} {q : Bytes}
    (h : Report a entry s rep flow s₂) (hq : PathIs q s) : PathIs q s₂ :=
  ⟨by rw [h.dirpath.1, hq.path], by rw [h.dirpath.2, hq.len]⟩

/-- What comes of the loop over `d` is one of the runs, and the path of its
directory is left. -/
def Follows (a : FtwData) (d : Dir) (c : List Name) (p : Bytes) (s : FtwState)
    (r : RetTy × FtwState) : Prop :=
  Reads a d c p s r.1 r.2 ∧ p <+: r.2.dirpath

variable {d rest : Dir} {rep : Bool} {s₁ s₂ : FtwState}

/-- Behind a file, or what cannot be stat'ed. -/
theorem follows_leaf (hi : a.opts.ignored name = false) (hl : a.opts.tooLong p.length name = false)
    (hm : Met a c p s d name rest rep s₁) (hsub : d.sub? = none) (hp : p <+: s₁.dirpath)
    (hrest : ∀ s, p <+: s.dirpath → Follows a rest c p s (readLoop a rest c p.length s)) :
    Follows a d c p s ((if rep then func a (c ++ [name]) s₁ else (.next, s₁)).settle
      (readLoop a rest c p.length)) := by
  cases rep with
  | false => exact ⟨.leaf hi hl hm .pass hsub (hrest s₁ hp).1, (hrest s₁ hp).2⟩
  | true =>
      obtain ⟨flow, s₂, hr, hfunc⟩ := func_report a (c ++ [name]) s₁
      have hp₂ : p <+: s₂.dirpath := hr.dirpath.1 ▸ hp
      rw [if_pos rfl, hfunc]
      cases flow with
      | on => exact ⟨.leaf hi hl hm hr hsub (hrest s₂ hp₂).1, (hrest s₂ hp₂).2⟩
      | next => exact ⟨.skip hi hl hm hr (hrest s₂ hp₂).1, (hrest s₂ hp₂).2⟩
      | brk => exact ⟨.brk hi hl hm hr, hp₂⟩
      | ret r => exact ⟨.ret hi hl hm hr, hp₂⟩

/-- Behind a directory that is gone into. -/
theorem follows_inner {openErr dirErr : Option Errno} {inner : Dir}
    (hi : a.opts.ignored name = false) (hl : a.opts.tooLong p.length name = false)
    (hm : Met a c p s d name rest rep s₁) (hr : Report a (c ++ [name]) s₁ rep .on s₂)
    (hsub : d.sub? = some (openErr, dirErr, inner)) (hent : a.opts.enters openErr = true)
    (hp : p <+: s₂.dirpath)
    (hinner : ∀ s, under p name <+: s.dirpath → Follows a inner (c ++ [name]) (under p name) s
      (readLoop a inner (c ++ [name]) (under p name).length s))
    (hrest : ∀ s, p <+: s.dirpath → Follows a rest c p s (readLoop a rest c p.length s)) :
    Follows a d c p s ((nested a <| match dirErr with
        | some e => unopened a (c ++ [name]) e s₂.dirpathLen s₂
        | none => readLoop a inner (c ++ [name]) s₂.dirpathLen s₂).settle
      (readLoop a rest c p.length)) := by
  cases dirErr with
  | some e =>
      have hp₃ : p <+: (unopened a (c ++ [name]) e s₂.dirpathLen s₂).2.dirpath := by
        rwa [unopened_dirpath]
      rcases nested_settle a (unopened a (c ++ [name]) e s₂.dirpathLen s₂)
        (readLoop a rest c p.length) with ⟨hgo, hset⟩ | ⟨hgo, hset⟩
      · simp only [hset]
        exact ⟨.unopened hi hl hm hr hsub hent hgo (hrest _ hp₃).1, (hrest _ hp₃).2⟩
      · simp only [hset]
        exact ⟨.unopenedLeave hi hl hm hr hsub hent hgo, hp₃⟩
  | none =>
      have hpath := hr.pathIs (hm.path_of_enters hsub hent)
      have hunder : under p name <+: s₂.dirpath := by
        rw [← hpath.path]
        exact List.takeWhile_prefix _
      obtain ⟨hin, hin'⟩ := hinner s₂ hunder
      have hp₃ : p <+: (readLoop a inner (c ++ [name]) (under p name).length s₂).2.dirpath := by
        refine List.IsPrefix.trans ?_ hin'
        rw [under]
        exact List.prefix_append _ _
      simp only [hpath.len]
      rcases nested_settle a (readLoop a inner (c ++ [name]) (under p name).length s₂)
        (readLoop a rest c p.length) with ⟨hgo, hset⟩ | ⟨hgo, hset⟩
      · rw [hset]
        exact ⟨.nested hi hl hm hr hsub hent hin hgo (hrest _ hp₃).1, (hrest _ hp₃).2⟩
      · rw [hset]
        exact ⟨.nestedLeave hi hl hm hr hsub hent hin hgo, hp₃⟩

/-- The loop is one of the runs. -/
theorem readLoop_reads (a : FtwData) (d : Dir) : ∀ (c : List Name) (p : Bytes) (s : FtwState),
    0 ∉ p → p <+: s.dirpath → Follows a d c p s (readLoop a d c p.length s) := by
  induction d with
  | done => exact fun c p s _ hp => ⟨.done, hp⟩
  | file name type rest ih =>
      intro c p s h0 hp
      rw [readLoop]
      rcases Bool.eq_false_or_eq_true (a.opts.ignored name) with hi | hi
      · rw [fileEntry, screen_ignored _ hi]
        exact ⟨.ignored .file hi (ih c p s h0 hp).1, (ih c p s h0 hp).2⟩
      rcases Bool.eq_false_or_eq_true (a.opts.tooLong p.length name) with hl | hl
      · rw [fileEntry, screen_tooLong hi hl]
        exact ⟨.tooLong .file hi hl, hp⟩
      obtain ⟨ms, s₁, hms, hready, hpath, hrun⟩ := fileEntry_eq c hi hl hp h0 type
      rw [hrun]
      exact follows_leaf hi hl (.file hms hready hpath) rfl (hready.dirpath_prefix hp)
        fun s hp => ih c p s h0 hp
  | lost name e rest ih =>
      intro c p s h0 hp
      rw [readLoop]
      rcases Bool.eq_false_or_eq_true (a.opts.ignored name) with hi | hi
      · rw [lostEntry, screen_ignored _ hi]
        exact ⟨.ignored .lost hi (ih c p s h0 hp).1, (ih c p s h0 hp).2⟩
      rcases Bool.eq_false_or_eq_true (a.opts.tooLong p.length name) with hl | hl
      · rw [lostEntry, screen_tooLong hi hl]
        exact ⟨.tooLong .lost hi hl, hp⟩
      obtain ⟨hready, hpath⟩ := ready_spec a hp h0 name
      rw [lostEntry_eq c hi hl e]
      rcases Bool.eq_false_or_eq_true e.nonfatal with he | he
      · rw [if_pos he]
        exact follows_leaf hi hl (.lost he hready hpath) rfl (hready.dirpath_prefix hp)
          fun s hp => ih c p s h0 hp
      · rw [he]
        exact ⟨.fatal hi hl he hready, hready.dirpath_prefix hp⟩
  | sub name openErr dirErr inner rest ihInner ihRest =>
      intro c p s h0 hp
      rw [readLoop]
      rcases Bool.eq_false_or_eq_true (a.opts.ignored name) with hi | hi
      · rw [dirEntry, screen_ignored _ hi]
        exact ⟨.ignored .sub hi (ihRest c p s h0 hp).1, (ihRest c p s h0 hp).2⟩
      rcases Bool.eq_false_or_eq_true (a.opts.tooLong p.length name) with hl | hl
      · rw [dirEntry, screen_tooLong hi hl]
        exact ⟨.tooLong .sub hi hl, hp⟩
      obtain ⟨s₁, hready, hpath, hrun⟩ := dirEntry_eq c hi hl hp h0 openErr
      have hmet : Met a c p s (.sub name openErr dirErr inner rest) name rest _ s₁ :=
        .sub hready hpath
      have hon : ∃ flow s₂, Report a (c ++ [name]) s₁ a.opts.reportsDirs flow s₂ ∧
          (if a.opts.reportsDirs then funcDir a (c ++ [name]) s₁ else (.on, s₁)) = (flow, s₂) := by
        rcases Bool.eq_false_or_eq_true a.opts.reportsDirs with hrep | hrep
        · rw [hrep]
          exact funcDir_report a _ _
        · rw [hrep]
          exact ⟨_, _, .pass, rfl⟩
      obtain ⟨flow, s₂, hr, hfunc⟩ := hon
      have hp₂ : p <+: s₂.dirpath := hr.dirpath.1 ▸ hready.dirpath_prefix hp
      rw [hrun, hfunc]
      cases flow with
      | next => exact ⟨.skip hi hl hmet hr (ihRest c p s₂ h0 hp₂).1, (ihRest c p s₂ h0 hp₂).2⟩
      | brk => exact ⟨.brk hi hl hmet hr, hp₂⟩
      | ret r => exact ⟨.ret hi hl hmet hr, hp₂⟩
      | on =>
          simp only [Piece.andThen, gate_eq]
          rcases Bool.eq_false_or_eq_true (a.opts.enters openErr) with hent | hent
          · simp only [if_pos hent]
            exact follows_inner hi hl hmet hr rfl hent hp₂
              (fun s hp => ihInner _ _ s (noNul_under h0 name) hp) fun s hp => ihRest c p s h0 hp
          · obtain ⟨hih, hih'⟩ := ihRest c p
              { s₂ with failed := s₂.failed || a.opts.shuts openErr } h0 hp₂
            rw [hent]
            exact ⟨.shut hi hl hmet hr rfl hent hih, hih'⟩

/-! ## What every run does -/

/-- Up to the call of `FUNC` nothing has happened but calls of `FUNC_MATCH`. -/
theorem Met.ready {d rest : Dir} {rep : Bool} {s₁ : FtwState} (h : Met a c p s d name rest rep s₁) :
    ∃ ms, (∀ m ∈ ms, m = a.opts.matchCall c p name) ∧ Ready (under p name) ms s s₁ := by
  cases h with
  | file hms hready hpath => exact ⟨_, hms, hready⟩
  | lost he hready hpath => exact ⟨[], fun m h => absurd h List.not_mem_nil, hready⟩
  | sub hready hpath => exact ⟨[], fun m h => absurd h List.not_mem_nil, hready⟩

/-- Only with `ACTIONRETVAL` is anything skipped. -/
theorem actionretval_of_skip {log : List FtwCall}
    (h : a.answer log = .skipSubtree ∨ a.answer log = .skipSiblings) :
    a.opts.actionretval = true := by
  rw [FtwData.answer] at h
  split at h
  · assumption
  · exfalso
    split at h <;> rcases h with h | h <;> cases h

theorem Report.actionretval_of_next {entry : List Name} {rep : Bool} {s₂ : FtwState}
    (h : Report a entry s rep .next s₂) : a.opts.actionretval = true := by
  cases h with
  | skipSubtree h => exact actionretval_of_skip (.inl h)

theorem Report.actionretval_of_brk {entry : List Name} {rep : Bool} {s₂ : FtwState}
    (h : Report a entry s rep .brk s₂) : a.opts.actionretval = true := by
  cases h with
  | skipSiblings h => exact actionretval_of_skip (.inr h)

/-- What there was of calls stays, and an error that was met is not forgotten. -/
structure Grows (s s' : FtwState) : Prop where
  calls : s.calls <+: s'.calls
  matchCalls : s.matchCalls <+: s'.matchCalls
  failed : s.failed = true → s'.failed = true

theorem Grows.refl (s : FtwState) : Grows s s :=
  ⟨List.prefix_refl _, List.prefix_refl _, fun h => h⟩

theorem Grows.trans {s₁ s₂ s₃ : FtwState} (h : Grows s₁ s₂) (h' : Grows s₂ s₃) : Grows s₁ s₃ :=
  ⟨h.calls.trans h'.calls, h.matchCalls.trans h'.matchCalls, fun hf => h'.failed (h.failed hf)⟩

theorem Ready.grows {q : Bytes} {ms : List FtwCall} {s' : FtwState} (h : Ready q ms s s') :
    Grows s s' :=
  ⟨by rw [h.calls], by rw [h.matchCalls]; exact List.prefix_append _ _, h.failed.trans⟩

theorem Report.grows {entry : List Name} {rep : Bool} {flow : Flow} {s₂ : FtwState}
    (h : Report a entry s rep flow s₂) : Grows s s₂ := by
  cases h with
  | pass => exact Grows.refl s
  | proceed h => exact ⟨List.prefix_append _ _, List.prefix_refl _, fun hf => hf⟩
  | skipSubtree h => exact ⟨List.prefix_append _ _, List.prefix_refl _, fun hf => hf⟩
  | skipSiblings h => exact ⟨List.prefix_append _ _, List.prefix_refl _, fun hf => hf⟩
  | stop h hact => exact ⟨List.prefix_append _ _, List.prefix_refl _, fun hf => hf⟩
  | fail h hact => exact ⟨List.prefix_append _ _, List.prefix_refl _, fun hf => hf⟩

theorem Met.grows {d rest : Dir} {rep : Bool} {s₁ : FtwState}
    (h : Met a c p s d name rest rep s₁) : Grows s s₁ := by
  obtain ⟨ms, -, hready⟩ := h.ready
  exact hready.grows

theorem unopened_grows (a : FtwData) (c : List Name) (e : Errno) (n : Nat) (s : FtwState) :
    Grows s (unopened a c e n s).2 := by
  have hmatched : ∀ s₁, (a.funcMatch = none ∧ s₁ = s ∨
      a.funcMatch.isSome ∧ s₁ = s.matched ⟨c, cstr s.dirpath, s.dirpathLen⟩) → Grows s s₁ := by
    rintro s₁ (⟨-, rfl⟩ | ⟨-, rfl⟩)
    · exact Grows.refl _
    · exact ⟨List.prefix_refl _, List.prefix_append _ _, fun hf => hf⟩
  rcases unopened_cases a c e n s with ⟨-, h⟩ | ⟨-, -, h⟩ | ⟨-, -, s₁, hs₁, h | h⟩ <;> rw [h]
  · exact ⟨List.prefix_refl _, List.prefix_refl _, fun _ => rfl⟩
  · exact Grows.refl s
  · exact hmatched s₁ hs₁
  · exact (hmatched s₁ hs₁).trans ⟨List.prefix_append _ _, List.prefix_refl _, fun hf => hf⟩

theorem Reads.grows {d : Dir} {r : RetTy} {s' : FtwState} (h : Reads a d c p s r s') :
    Grows s s' := by
  induction h with
  | done => exact Grows.refl _
  | ignored hd hi h ih => exact ih
  | tooLong hd hi hl => exact ⟨List.prefix_refl _, List.prefix_refl _, fun _ => rfl⟩
  | fatal hi hl he hready => exact ⟨hready.grows.calls, hready.grows.matchCalls, fun _ => rfl⟩
  | ret hi hl hm hr => exact hm.grows.trans hr.grows
  | brk hi hl hm hr => exact hm.grows.trans hr.grows
  | skip hi hl hm hr h ih => exact (hm.grows.trans hr.grows).trans ih
  | leaf hi hl hm hr hsub h ih => exact (hm.grows.trans hr.grows).trans ih
  | shut hi hl hm hr hsub hent h ih =>
      exact (hm.grows.trans hr.grows).trans
        ⟨ih.calls, ih.matchCalls, fun hf => ih.failed (by rw [hf, Bool.true_or])⟩
  | unopened hi hl hm hr hsub hent hgo h ih =>
      exact ((hm.grows.trans hr.grows).trans (unopened_grows _ _ _ _ _)).trans ih
  | unopenedLeave hi hl hm hr hsub hent hgo =>
      exact (hm.grows.trans hr.grows).trans (unopened_grows _ _ _ _ _)
  | nested hi hl hm hr hsub hent hin hgo h ihIn ih =>
      exact ((hm.grows.trans hr.grows).trans ihIn).trans ih
  | nestedLeave hi hl hm hr hsub hent hin hgo ihIn =>
      exact (hm.grows.trans hr.grows).trans ihIn

/-! ## Walks that are not stopped -/

theorem unopened_actionStop (a : FtwData) (c : List Name) (e : Errno) (n : Nat) (s : FtwState) :
    (unopened a c e n s).2.actionStop = s.actionStop := by
  rcases unopened_cases a c e n s with ⟨-, h⟩ | ⟨-, -, h⟩ | ⟨-, -, s₁, hs₁, h | h⟩ <;> rw [h]
  · rcases hs₁ with ⟨-, rfl⟩ | ⟨-, rfl⟩ <;> rfl
  · rcases hs₁ with ⟨-, rfl⟩ | ⟨-, rfl⟩ <;> rfl

theorem Met.actionStop {d rest : Dir} {rep : Bool} {s₁ : FtwState}
    (h : Met a c p s d name rest rep s₁) : s₁.actionStop = s.actionStop := by
  obtain ⟨ms, -, hready⟩ := h.ready
  exact hready.stop

/-- `FUNC` does not ask to stop, whatever was reported. -/
def NeverStops (a : FtwData) : Prop := ∀ log, a.answer log ≠ .stop

theorem Report.not_ret {entry : List Name} {rep : Bool} {r : RetTy} {s₂ : FtwState}
    (hnever : NeverStops a) : ¬Report a entry s rep (.ret r) s₂ := by
  intro h
  cases h with
  | stop h hact => exact hnever _ h
  | fail h hact => exact hnever _ h

theorem Report.actionStop {entry : List Name} {rep : Bool} {flow : Flow} {s₂ : FtwState}
    (hnever : NeverStops a) (h : Report a entry s rep flow s₂) : s₂.actionStop = s.actionStop := by
  cases h with
  | pass => rfl
  | proceed h => rfl
  | skipSubtree h => rfl
  | skipSiblings h => rfl
  | stop h hact => exact absurd h (hnever _)
  | fail h hact => exact absurd h (hnever _)

/-- Up to the end of a call the walk is not stopped. -/
theorem Met.actionStop_report {d rest : Dir} {entry : List Name} {rep : Bool} {flow : Flow}
    {s₁ s₂ : FtwState} (hm : Met a c p s d name rest rep s₁) (hnever : NeverStops a)
    (hr : Report a entry s₁ rep flow s₂) : s₂.actionStop = s.actionStop :=
  (hr.actionStop hnever).trans hm.actionStop

theorem Reads.actionStop {d : Dir} {r : RetTy} {s' : FtwState} (hnever : NeverStops a)
    (h : Reads a d c p s r s') : s'.actionStop = s.actionStop := by
  induction h with
  | done => rfl
  | ignored hd hi h ih => exact ih
  | tooLong hd hi hl => rfl
  | fatal hi hl he hready => exact hready.stop
  | ret hi hl hm hr => exact absurd hr (Report.not_ret hnever)
  | brk hi hl hm hr => exact hm.actionStop_report hnever hr
  | skip hi hl hm hr h ih => exact ih.trans (hm.actionStop_report hnever hr)
  | leaf hi hl hm hr hsub h ih => exact ih.trans (hm.actionStop_report hnever hr)
  | shut hi hl hm hr hsub hent h ih =>
      have hs₂ := hm.actionStop_report hnever hr
      exact ih.trans hs₂
  | unopened hi hl hm hr hsub hent hgo h ih =>
      exact ih.trans ((unopened_actionStop _ _ _ _ _).trans
        (hm.actionStop_report hnever hr))
  | unopenedLeave hi hl hm hr hsub hent hgo =>
      exact (unopened_actionStop _ _ _ _ _).trans (hm.actionStop_report hnever hr)
  | nested hi hl hm hr hsub hent hin hgo h ihIn ih =>
      exact ih.trans (ihIn.trans (hm.actionStop_report hnever hr))
  | nestedLeave hi hl hm hr hsub hent hin hgo ihIn =>
      exact ihIn.trans (hm.actionStop_report hnever hr)

/-- Then a nested directory is left on an error only. -/
theorem err_of_not_goesOn {r : RetTy} (hstop : s.actionStop = false) (h : ¬GoesOn a r s) :
    a.opts.actionretval = false ∧ r = .err := by
  rw [GoesOn] at h
  by_cases hact : a.opts.actionretval = true
  · rw [if_pos hact] at h
    exact absurd hstop h
  · rw [if_neg hact] at h
    refine ⟨Bool.not_eq_true _ |>.mp hact, ?_⟩
    cases r with
    | err => rfl
    | succ => exact absurd rfl h

end Reads

end Jstr
