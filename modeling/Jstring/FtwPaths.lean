import Jstring.FtwReads

/-!
# The paths below a directory

Which calls of `FUNC` and `FUNC_MATCH` in the loop of a directory are given
the path of their entry, with its length. Those for entries that cannot be
stat'ed are not, where no path was built before; nor is `FUNC_MATCH` for
directories that `opendir` fails on, which gets their path for a name.

- `Comes`: a walk that skips nothing comes to one of those entries;
- `Reads.right`: no call goes wrong where it does not;
- `Reads.wrong`: one does where it does.
-/

namespace Jstr

open Traversal

/-! ## Entries that are come to -/

/-- All calls up to now have the two properties. -/
structure AllRight (Q R : FtwCall → Prop) (s : FtwState) : Prop where
  calls : ∀ x ∈ s.calls, Q x
  matchCalls : ∀ m ∈ s.matchCalls, R m

/-- The names in a directory. -/
def Dir.names : Dir → List Name
  | done => []
  | file name _ rest => name :: rest.names
  | lost name _ rest => name :: rest.names
  | sub name _ _ _ rest => name :: rest.names

/-- No directory has two entries of one name. -/
def Dir.Distinct : Dir → Prop
  | done => True
  | file name _ rest => name ∉ rest.names ∧ rest.Distinct
  | lost name _ rest => name ∉ rest.names ∧ rest.Distinct
  | sub name _ _ inner rest => name ∉ rest.names ∧ inner.Distinct ∧ rest.Distinct

/-- An error in a nested directory is passed up: it is gone into, and `opendir`
fails or the walk of it does. -/
def FtwOpts.passesUp (o : FtwOpts) (openErr dirErr : Option Errno) (fails : Bool) : Bool :=
  o.enters openErr && !o.actionretval && dirErr.elim fails fun e => !e.nonfatal

/-- The walk of a directory, if it is not stopped and nothing is skipped, ends
in an error. -/
def Fails (o : FtwOpts) : Dir → Nat → Bool
  | .done, _ => false
  | .file name _ rest, n =>
    if o.ignored name then Fails o rest n else o.tooLong n name || Fails o rest n
  | .lost name e rest, n =>
    if o.ignored name then Fails o rest n
    else o.tooLong n name || (!e.nonfatal || Fails o rest n)
  | .sub name openErr dirErr inner rest, n =>
    if o.ignored name then Fails o rest n
    else
      o.tooLong n name ||
        (o.passesUp openErr dirErr (Fails o inner (n + 1 + name.chrs.length)) || Fails o rest n)

/-- Kinds of entries: files that are reported, entries that cannot be stat'ed
and are reported, directories that `opendir` fails on and `FUNC_MATCH` is
asked about. -/
structure Kinds where
  file : Bool
  lost : Bool
  unread : Bool

/-- There is one in a nested directory, or it is one: it is gone into, and
`opendir` fails, or the walk of it comes to one. -/
def FtwOpts.comesBelow (o : FtwOpts) (k : Kinds) (openErr dirErr : Option Errno)
    (comes : Bool) : Bool :=
  o.enters openErr && dirErr.elim comes fun e => k.unread && e.nonfatal && o.reportsDirs

/-- The walk of a directory, if it is not stopped and nothing is skipped, comes
to an entry of these kinds. -/
def Comes (o : FtwOpts) (k : Kinds) : Dir → Nat → Bool
  | .done, _ => false
  | .file name type rest, n =>
    if o.ignored name then Comes o k rest n
    else !o.tooLong n name && ((k.file && o.reports type) || Comes o k rest n)
  | .lost name e rest, n =>
    if o.ignored name then Comes o k rest n
    else
      !o.tooLong n name && (e.nonfatal && ((k.lost && o.reports .other) || Comes o k rest n))
  | .sub name openErr dirErr inner rest, n =>
    if o.ignored name then Comes o k rest n
    else
      !o.tooLong n name &&
        (o.comesBelow k openErr dirErr (Comes o k inner (n + 1 + name.chrs.length)) ||
          (!o.passesUp openErr dirErr (Fails o inner (n + 1 + name.chrs.length)) &&
            Comes o k rest n))

section Paths

variable {a : FtwData} {k : Kinds} {d rest : Dir} {c : List Name} {p : Bytes} {name : Name}
  {s s' : FtwState} {r : RetTy}

/-! ## Entry by entry -/

theorem Fails.ignored {n : Nat} {o : FtwOpts} (hd : Heads d name rest)
    (hi : o.ignored name = true) : Fails o d n = Fails o rest n := by
  cases hd <;> simp only [Fails, hi, if_true]

theorem Fails.tooLong {n : Nat} {o : FtwOpts} (hd : Heads d name rest)
    (hi : o.ignored name = false) (hl : o.tooLong n name = true) : Fails o d n = true := by
  cases hd <;> simp only [Fails, hi, hl, Bool.true_or] <;> rfl

theorem Fails.leaf {rep : Bool} {s₁ : FtwState} (hi : a.opts.ignored name = false)
    (hl : a.opts.tooLong p.length name = false) (hm : Met a c p s d name rest rep s₁)
    (hsub : d.sub? = none) : Fails a.opts d p.length = Fails a.opts rest p.length := by
  cases hm with
  | file hms hready hpath => simp [Fails, hi, hl]
  | lost he hready hpath => simp [Fails, hi, hl, he]
  | sub hready hpath => exact nomatch hsub

theorem Fails.sub {rep : Bool} {s₁ : FtwState} {openErr dirErr : Option Errno} {inner : Dir}
    (hi : a.opts.ignored name = false) (hl : a.opts.tooLong p.length name = false)
    (hm : Met a c p s d name rest rep s₁) (hsub : d.sub? = some (openErr, dirErr, inner)) :
    Fails a.opts d p.length
      = (a.opts.passesUp openErr dirErr (Fails a.opts inner (under p name).length) ||
        Fails a.opts rest p.length) := by
  rw [hm.eq_sub hsub, length_under]
  simp [Fails, hi, hl]

theorem Comes.ignored {n : Nat} {o : FtwOpts} (hd : Heads d name rest)
    (hi : o.ignored name = true) : Comes o k d n = Comes o k rest n := by
  cases hd <;> simp only [Comes, hi, if_true]

theorem Comes.tooLong {n : Nat} {o : FtwOpts} (hd : Heads d name rest)
    (hi : o.ignored name = false) (hl : o.tooLong n name = true) : Comes o k d n = false := by
  cases hd <;> simp only [Comes, hi, hl, Bool.not_true, Bool.false_and] <;> rfl

theorem Comes.sub {rep : Bool} {s₁ : FtwState} {openErr dirErr : Option Errno} {inner : Dir}
    (hi : a.opts.ignored name = false) (hl : a.opts.tooLong p.length name = false)
    (hm : Met a c p s d name rest rep s₁) (hsub : d.sub? = some (openErr, dirErr, inner)) :
    Comes a.opts k d p.length
      = (a.opts.comesBelow k openErr dirErr (Comes a.opts k inner (under p name).length) ||
        (!a.opts.passesUp openErr dirErr (Fails a.opts inner (under p name).length) &&
          Comes a.opts k rest p.length)) := by
  rw [hm.eq_sub hsub, length_under]
  simp [Comes, hi, hl]

theorem Comes.rest_of_leaf {rep : Bool} {s₁ : FtwState} (hi : a.opts.ignored name = false)
    (hl : a.opts.tooLong p.length name = false) (hm : Met a c p s d name rest rep s₁)
    (hsub : d.sub? = none) (h : Comes a.opts k d p.length = false) :
    Comes a.opts k rest p.length = false := by
  cases hm with
  | file hms hready hpath =>
      simp [Comes, hi, hl] at h
      exact h.2
  | lost he hready hpath =>
      simp [Comes, hi, hl, he] at h
      exact h.2
  | sub hready hpath => exact nomatch hsub

theorem Comes.below {rep : Bool} {s₁ : FtwState} {openErr dirErr : Option Errno} {inner : Dir}
    (hi : a.opts.ignored name = false) (hl : a.opts.tooLong p.length name = false)
    (hm : Met a c p s d name rest rep s₁) (hsub : d.sub? = some (openErr, dirErr, inner))
    (h : Comes a.opts k d p.length = false) :
    a.opts.comesBelow k openErr dirErr (Comes a.opts k inner (under p name).length) = false := by
  rw [Comes.sub hi hl hm hsub, Bool.or_eq_false_iff] at h
  exact h.1

theorem Comes.rest_of_sub {rep : Bool} {s₁ : FtwState} {openErr dirErr : Option Errno}
    {inner : Dir} (hi : a.opts.ignored name = false) (hl : a.opts.tooLong p.length name = false)
    (hm : Met a c p s d name rest rep s₁) (hsub : d.sub? = some (openErr, dirErr, inner))
    (h : Comes a.opts k d p.length = false)
    (hup : a.opts.passesUp openErr dirErr (Fails a.opts inner (under p name).length) = false) :
    Comes a.opts k rest p.length = false := by
  rw [Comes.sub hi hl hm hsub, hup, Bool.or_eq_false_iff] at h
  exact h.2

theorem passesUp_of_actionretval {o : FtwOpts} (h : o.actionretval = true)
    (openErr dirErr : Option Errno) (fails : Bool) : o.passesUp openErr dirErr fails = false := by
  rw [FtwOpts.passesUp, h, Bool.not_true, Bool.and_false, Bool.false_and]

theorem Comes.rest_of_actionretval {rep : Bool} {s₁ : FtwState}
    (hi : a.opts.ignored name = false) (hl : a.opts.tooLong p.length name = false)
    (hm : Met a c p s d name rest rep s₁) (hact : a.opts.actionretval = true)
    (h : Comes a.opts k d p.length = false) : Comes a.opts k rest p.length = false := by
  cases hsub : d.sub? with
  | none => exact Comes.rest_of_leaf hi hl hm hsub h
  | some x => exact Comes.rest_of_sub hi hl hm hsub h (passesUp_of_actionretval hact _ _ _)

/-! ## Failing -/

/-- Where the walk goes on behind a directory that `opendir` fails on, no error
is passed up. -/
theorem passesUp_unopened_of_goesOn {e : Errno} {n : Nat} (openErr : Option Errno) (fails : Bool)
    (hgo : GoesOn a (unopened a c e n s).1 (unopened a c e n s).2) :
    a.opts.passesUp openErr (some e) fails = false := by
  rcases Bool.eq_false_or_eq_true a.opts.actionretval with hact | hact
  · exact passesUp_of_actionretval hact _ _ _
  · rw [GoesOn, hact, if_neg Bool.false_ne_true, (unopened_ret a c e n s).1] at hgo
    rw [FtwOpts.passesUp, Option.elim_some]
    rcases Bool.eq_false_or_eq_true e.nonfatal with he | he
    · rw [he, Bool.not_true, Bool.and_false]
    · rw [he, if_neg Bool.false_ne_true] at hgo
      cases hgo

/-- Without `ACTIONRETVAL` errors are passed up, whatever is answered. -/
theorem Reads.err_of_fails (h : Reads a d c p s r s') (hact : a.opts.actionretval = false)
    (hf : Fails a.opts d p.length = true) : r = .err := by
  have hon : ∀ {b : Bool}, b = true → b = false → False := by
    intro b h1 h2
    rw [h1] at h2
    cases h2
  induction h with
  | done => cases hf
  | ignored hd hi h ih => exact ih (by rwa [Fails.ignored hd hi] at hf)
  | tooLong hd hi hl => rfl
  | fatal hi hl he hready => rfl
  | ret hi hl hm hr =>
      cases hr with
      | stop h hact' => exact (hon hact' hact).elim
      | fail h _ => rfl
  | brk hi hl hm hr => exact (hon hr.actionretval_of_brk hact).elim
  | skip hi hl hm hr h ih => exact (hon hr.actionretval_of_next hact).elim
  | leaf hi hl hm hr hsub h ih => exact ih (by rwa [Fails.leaf hi hl hm hsub] at hf)
  | shut hi hl hm hr hsub hent h ih =>
      rw [Fails.sub hi hl hm hsub, FtwOpts.passesUp, hent] at hf
      exact ih hf
  | unopened hi hl hm hr hsub hent hgo h ih =>
      rw [Fails.sub hi hl hm hsub, passesUp_unopened_of_goesOn _ _ hgo, Bool.false_or] at hf
      exact ih hf
  | unopenedLeave hi hl hm hr hsub hent hgo => rw [hact]; rfl
  | nested hi hl hm hr hsub hent hin hgo h ihIn ih =>
      rw [GoesOn, hact, if_neg Bool.false_ne_true] at hgo
      rw [Fails.sub hi hl hm hsub, Bool.or_eq_true] at hf
      rcases hf with hf | hf
      · rw [FtwOpts.passesUp, Bool.and_eq_true] at hf
        rw [ihIn hf.2] at hgo
        cases hgo
      · exact ih hf
  | nestedLeave hi hl hm hr hsub hent hin hgo ihIn => rw [hact]; rfl

/-- Nor where it goes on behind the walk of a nested directory. -/
theorem Reads.passesUp_of_goesOn {inner : Dir} {r₃ : RetTy} {s₃ : FtwState} {q : Bytes}
    (openErr : Option Errno) (hin : Reads a inner c q s r₃ s₃) (hgo : GoesOn a r₃ s₃) :
    a.opts.passesUp openErr none (Fails a.opts inner q.length) = false := by
  rcases Bool.eq_false_or_eq_true a.opts.actionretval with hact | hact
  · exact passesUp_of_actionretval hact _ _ _
  · rw [GoesOn, hact, if_neg Bool.false_ne_true] at hgo
    rw [FtwOpts.passesUp, Option.elim_none]
    by_contra hup
    rw [Bool.not_eq_false, Bool.and_eq_true] at hup
    rw [hin.err_of_fails hact hup.2] at hgo
    cases hgo

/-! ## No call goes wrong -/

/-- What the kinds are to be, for calls with the properties `Q` and `R`, where
the buffer starts with `base`. -/
structure Covers (o : FtwOpts) (k : Kinds) (base : Bytes) (Q R : FtwCall → Prop) : Prop where
  dirs : o.reportsDirs = true → k.file = false
  call : k.file = false → ∀ c name, Q (callAt c (c.foldl under base) name)
  matchCall : ∀ c p name, R (o.matchCall c p name)
  lost : o.useAtfile = true → o.reports .other = true → k.lost = true
  unread : k.unread = false → o.reportsDirs = true → ∀ c p name, R (callAt c p name)

variable {base : Bytes} {Q R : FtwCall → Prop}

theorem reportsDirs_of_other {o : FtwOpts} (h : o.reports .other = true) :
    o.reportsDirs = true := by
  have hno := (reports_other o).mpr h
  exact (reportsDirs_iff o).mp fun h' => hno (.inr h'.1)

theorem AllRight.ready {q : Bytes} {ms : List FtwCall} (h : AllRight Q R s)
    (hready : Ready q ms s s') (hms : ∀ m ∈ ms, R m) : AllRight Q R s' := by
  refine ⟨by rw [hready.calls]; exact h.calls, fun m hm => ?_⟩
  rw [hready.matchCalls, List.mem_append] at hm
  exact hm.elim (h.matchCalls m) (hms m)

theorem AllRight.called {entry : List Name} (h : AllRight Q R s)
    (hq : Q ⟨entry, cstr s.dirpath, s.dirpathLen⟩) : AllRight Q R (s.called entry) := by
  refine ⟨fun x hx => ?_, h.matchCalls⟩
  rcases List.mem_append.mp hx with hx | hx
  · exact h.calls x hx
  · rw [List.mem_singleton.mp hx]
    exact hq

theorem AllRight.report {entry : List Name} {rep : Bool} {flow : Flow} (h : AllRight Q R s)
    (hr : Report a entry s rep flow s') (hq : rep = true → Q ⟨entry, cstr s.dirpath, s.dirpathLen⟩) :
    AllRight Q R s' := by
  cases hr with
  | pass => exact h
  | proceed hans => exact h.called (hq rfl)
  | skipSubtree hans => exact h.called (hq rfl)
  | skipSiblings hans => exact h.called (hq rfl)
  | stop hans hact => exact ⟨(h.called (hq rfl)).calls, h.matchCalls⟩
  | fail hans hact => exact h.called (hq rfl)

theorem PathIs.callAt {q : Bytes} (h : PathIs q s) (entry : List Name) :
    (⟨entry, cstr s.dirpath, s.dirpathLen⟩ : FtwCall) = ⟨entry, q, q.length⟩ := by
  rw [h.len, h.path]

/-- Of an entry that is none of the kinds, the path is right. -/
theorem Met.right {rep : Bool} {s₁ : FtwState} (hcov : Covers a.opts k base Q R)
    (hi : a.opts.ignored name = false) (hl : a.opts.tooLong p.length name = false)
    (hm : Met a c p s d name rest rep s₁) (hcomes : Comes a.opts k d p.length = false)
    (hp : p = c.foldl under base) (hrep : rep = true) :
    Q ⟨c ++ [name], cstr s₁.dirpath, s₁.dirpathLen⟩ := by
  have hcall : k.file = false → PathIs (under p name) s₁ →
      Q ⟨c ++ [name], cstr s₁.dirpath, s₁.dirpathLen⟩ := by
    intro hk hpath
    rw [hpath.callAt, hp]
    exact hcov.call hk c name
  cases hm with
  | file hms hready hpath =>
      refine hcall ?_ (hpath hrep)
      rw [Bool.and_eq_true] at hrep
      simp [Comes, hi, hl, hrep.1] at hcomes
      exact hcomes.1
  | lost he hready hpath =>
      refine hcall (hcov.dirs (reportsDirs_of_other hrep)) (hpath ?_)
      simp [Comes, hi, hl, he, hrep] at hcomes
      by_contra hat
      rw [hcov.lost (Bool.not_eq_false _ |>.mp hat) hrep] at hcomes
      exact Bool.noConfusion hcomes.1
  | sub hready hpath => exact hcall (hcov.dirs hrep) (hpath (.inr hrep))

theorem AllRight.met {rep : Bool} {s₁ : FtwState} (hcov : Covers a.opts k base Q R)
    (h : AllRight Q R s) (hm : Met a c p s d name rest rep s₁) : AllRight Q R s₁ := by
  obtain ⟨ms, hms, hready⟩ := hm.ready
  refine h.ready hready fun m hmem => ?_
  rw [hms m hmem]
  exact hcov.matchCall c p name

theorem AllRight.unopened {entry : List Name} {q : Bytes} {e : Errno} (h : AllRight Q R s)
    (hpath : PathIs q s)
    (hmatch : e.nonfatal = true → a.opts.reportsDirs = true → R ⟨entry, q, q.length⟩)
    (hcall : a.opts.reportsDirs = true → Q ⟨entry, q, q.length⟩) :
    AllRight Q R (Jstr.unopened a entry e s.dirpathLen s).2 := by
  rcases unopened_cases a entry e s.dirpathLen s with
    ⟨-, h'⟩ | ⟨-, -, h'⟩ | ⟨he, hrep, s₁, hs₁, h'⟩
  · rw [h']
    exact ⟨h.calls, h.matchCalls⟩
  · rw [h']
    exact h
  · have hright : AllRight Q R s₁ := by
      rcases hs₁ with ⟨-, rfl⟩ | ⟨-, rfl⟩
      · exact h
      · refine ⟨h.calls, fun m hm => ?_⟩
        rcases List.mem_append.mp hm with hm | hm
        · exact h.matchCalls m hm
        · rw [List.mem_singleton.mp hm, hpath.callAt]
          exact hmatch he hrep
    have hbuf : s₁.dirpath = s.dirpath := by
      rcases hs₁ with ⟨-, rfl⟩ | ⟨-, rfl⟩ <;> rfl
    rcases h' with h' | h' <;> rw [h']
    · exact hright
    · refine AllRight.called ⟨hright.calls, hright.matchCalls⟩ ?_
      show Q ⟨_, cstr s₁.dirpath, s.dirpathLen⟩
      rw [hbuf, hpath.callAt]
      exact hcall hrep

/-- The same for a directory that is not of the kinds. -/
theorem AllRight.unread {e : Errno} (hcov : Covers a.opts k base Q R) (h : AllRight Q R s)
    (hpath : PathIs (under p name) s) (hp : p = c.foldl under base)
    (hk : (k.unread && e.nonfatal && a.opts.reportsDirs) = false) :
    AllRight Q R (Jstr.unopened a (c ++ [name]) e s.dirpathLen s).2 := by
  refine h.unopened hpath (fun he hrep => ?_) fun hrep => ?_
  · rw [he, hrep, Bool.and_true, Bool.and_true] at hk
    exact hcov.unread hk hrep c p name
  · rw [hp]
    exact hcov.call (hcov.dirs hrep) c name

/-- A walk that comes to none of the kinds, whether it skips anything or not. -/
theorem Reads.right (hcov : Covers a.opts k base Q R) (h : Reads a d c p s r s') :
    p = c.foldl under base → Comes a.opts k d p.length = false → AllRight Q R s →
      AllRight Q R s' := by
  induction h with
  | done => exact fun _ _ hs => hs
  | ignored hd hi h ih =>
      intro hp hcomes hs
      exact ih hp (by rwa [Comes.ignored hd hi] at hcomes) hs
  | tooLong hd hi hl => exact fun _ _ hs => ⟨hs.calls, hs.matchCalls⟩
  | fatal hi hl he hready =>
      intro hp hcomes hs
      have hs₁ := hs.ready hready fun m hm => absurd hm List.not_mem_nil
      exact ⟨hs₁.calls, hs₁.matchCalls⟩
  | ret hi hl hm hr =>
      intro hp hcomes hs
      exact (hs.met hcov hm).report hr (hm.right hcov hi hl hcomes hp)
  | brk hi hl hm hr =>
      intro hp hcomes hs
      exact (hs.met hcov hm).report hr (hm.right hcov hi hl hcomes hp)
  | skip hi hl hm hr h ih =>
      intro hp hcomes hs
      exact ih hp (Comes.rest_of_actionretval hi hl hm hr.actionretval_of_next hcomes)
        ((hs.met hcov hm).report hr (hm.right hcov hi hl hcomes hp))
  | leaf hi hl hm hr hsub h ih =>
      intro hp hcomes hs
      exact ih hp (Comes.rest_of_leaf hi hl hm hsub hcomes)
        ((hs.met hcov hm).report hr (hm.right hcov hi hl hcomes hp))
  | shut hi hl hm hr hsub hent h ih =>
      intro hp hcomes hs
      have hs₂ := (hs.met hcov hm).report hr (hm.right hcov hi hl hcomes hp)
      refine ih hp (Comes.rest_of_sub hi hl hm hsub hcomes ?_) ⟨hs₂.calls, hs₂.matchCalls⟩
      rw [FtwOpts.passesUp, hent, Bool.false_and, Bool.false_and]
  | unopened hi hl hm hr hsub hent hgo h ih =>
      intro hp hcomes hs
      have hs₂ := (hs.met hcov hm).report hr (hm.right hcov hi hl hcomes hp)
      have hbelow := Comes.below hi hl hm hsub hcomes
      rw [FtwOpts.comesBelow, hent, Bool.true_and] at hbelow
      exact ih hp
        (Comes.rest_of_sub hi hl hm hsub hcomes (passesUp_unopened_of_goesOn _ _ hgo))
        (hs₂.unread hcov (hr.pathIs (hm.path_of_enters hsub hent)) hp hbelow)
  | unopenedLeave hi hl hm hr hsub hent hgo =>
      intro hp hcomes hs
      have hs₂ := (hs.met hcov hm).report hr (hm.right hcov hi hl hcomes hp)
      have hbelow := Comes.below hi hl hm hsub hcomes
      rw [FtwOpts.comesBelow, hent, Bool.true_and] at hbelow
      exact hs₂.unread hcov (hr.pathIs (hm.path_of_enters hsub hent)) hp hbelow
  | nested hi hl hm hr hsub hent hin hgo h ihIn ih =>
      intro hp hcomes hs
      have hs₂ := (hs.met hcov hm).report hr (hm.right hcov hi hl hcomes hp)
      have hbelow := Comes.below hi hl hm hsub hcomes
      rw [FtwOpts.comesBelow, hent, Bool.true_and] at hbelow
      refine ih hp (Comes.rest_of_sub hi hl hm hsub hcomes (hin.passesUp_of_goesOn _ hgo))
        (ihIn ?_ hbelow hs₂)
      rw [List.foldl_append, ← hp]
      rfl
  | nestedLeave hi hl hm hr hsub hent hin hgo ihIn =>
      intro hp hcomes hs
      have hs₂ := (hs.met hcov hm).report hr (hm.right hcov hi hl hcomes hp)
      have hbelow := Comes.below hi hl hm hsub hcomes
      rw [FtwOpts.comesBelow, hent, Bool.true_and] at hbelow
      refine ihIn ?_ hbelow hs₂
      rw [List.foldl_append, ← hp]
      rfl

/-! ## Walks that skip nothing -/

/-- `FUNC` neither stops the walk nor skips anything. -/
def Continues (a : FtwData) : Prop := ∀ log, a.answer log = .proceed

theorem Continues.neverStops (h : Continues a) : NeverStops a :=
  fun log hstop => nomatch (h log).symm.trans hstop

theorem Report.of_continues {entry : List Name} {rep : Bool} {flow : Flow} (hcont : Continues a)
    (h : Report a entry s rep flow s') : flow = .on ∧ s' = if rep then s.called entry else s := by
  cases h with
  | pass => exact ⟨rfl, rfl⟩
  | proceed h => exact ⟨rfl, rfl⟩
  | skipSubtree h => exact nomatch (hcont _).symm.trans h
  | skipSiblings h => exact nomatch (hcont _).symm.trans h
  | stop h hact => exact nomatch (hcont _).symm.trans h
  | fail h hact => exact nomatch (hcont _).symm.trans h

theorem passesUp_of_unopened {e : Errno} {n : Nat} {openErr : Option Errno} {fails : Bool}
    (hstop : s.actionStop = false) (hent : a.opts.enters openErr = true)
    (h : ¬GoesOn a (unopened a c e n s).1 (unopened a c e n s).2) :
    a.opts.passesUp openErr (some e) fails = true := by
  obtain ⟨hoff, herr⟩ := err_of_not_goesOn ((unopened_actionStop a c e n s).trans hstop) h
  rw [(unopened_ret a c e n s).1] at herr
  rw [FtwOpts.passesUp, hent, hoff, Option.elim_some]
  rcases Bool.eq_false_or_eq_true e.nonfatal with he | he
  · rw [if_pos he] at herr
    cases herr
  · rw [he]
    rfl

/-- Such a walk ends in an error only where it fails. -/
theorem Reads.fails_of_err (hcont : Continues a) (h : Reads a d c p s r s') :
    s.actionStop = false → r = .err → Fails a.opts d p.length = true := by
  have hnever := hcont.neverStops
  induction h with
  | done => exact fun _ h => nomatch h
  | ignored hd hi h ih =>
      rw [Fails.ignored hd hi]
      exact ih
  | tooLong hd hi hl => exact fun _ _ => Fails.tooLong hd hi hl
  | fatal hi hl he hready => exact fun _ _ => by simp [Fails, hi, hl, he]
  | ret hi hl hm hr => exact nomatch (hr.of_continues hcont).1
  | brk hi hl hm hr => exact nomatch (hr.of_continues hcont).1
  | skip hi hl hm hr h ih => exact nomatch (hr.of_continues hcont).1
  | leaf hi hl hm hr hsub h ih =>
      intro hs
      rw [Fails.leaf hi hl hm hsub]
      exact ih ((hm.actionStop_report hnever hr).trans hs)
  | shut hi hl hm hr hsub hent h ih =>
      intro hs herr
      rw [Fails.sub hi hl hm hsub, ih ((hm.actionStop_report hnever hr).trans hs) herr,
        Bool.or_true]
  | unopened hi hl hm hr hsub hent hgo h ih =>
      intro hs herr
      have hs₂ := (hm.actionStop_report hnever hr).trans hs
      rw [Fails.sub hi hl hm hsub, ih ((unopened_actionStop _ _ _ _ _).trans hs₂) herr, Bool.or_true]
  | unopenedLeave hi hl hm hr hsub hent hgo =>
      intro hs herr
      have hs₂ := (hm.actionStop_report hnever hr).trans hs
      rw [Fails.sub hi hl hm hsub, passesUp_of_unopened hs₂ hent hgo, Bool.true_or]
  | nested hi hl hm hr hsub hent hin hgo h ihIn ih =>
      intro hs herr
      have hs₂ := (hm.actionStop_report hnever hr).trans hs
      rw [Fails.sub hi hl hm hsub, ih ((hin.actionStop hnever).trans hs₂) herr, Bool.or_true]
  | nestedLeave hi hl hm hr hsub hent hin hgo ihIn =>
      intro hs herr
      have hs₂ := (hm.actionStop_report hnever hr).trans hs
      obtain ⟨hoff, herr₃⟩ := err_of_not_goesOn ((hin.actionStop hnever).trans hs₂) hgo
      rw [Fails.sub hi hl hm hsub, FtwOpts.passesUp, hent, hoff, Option.elim_none, ihIn hs₂ herr₃]
      rfl

/-! ## What an old path is -/

/-- The path in the buffer is that of the directory, or of one of `prev` or
below it. -/
def Stale (p : Bytes) (prev : List Name) (s : FtwState) : Prop :=
  cstr s.dirpath = p ∨ ∃ m ∈ prev, ∃ t, cstr s.dirpath = under p m ++ t ∧
    (t = [] ∨ t.head? = some 47)

theorem Stale.mono {prev prev' : List Name} (h : Stale p prev s) (hsub : ∀ m ∈ prev, m ∈ prev') :
    Stale p prev' s := by
  rcases h with h | ⟨m, hm, t, ht⟩
  · exact .inl h
  · exact .inr ⟨m, hsub m hm, t, ht⟩

theorem Stale.of_dirpath {prev : List Name} (h : Stale p prev s) (heq : s'.dirpath = s.dirpath) :
    Stale p prev s' := by
  rw [Stale, heq]
  exact h

/-- It is not that of another name. -/
theorem Stale.ne_under {prev : List Name} (h : Stale p prev s) (hname : name ∉ prev) :
    cstr s.dirpath ≠ under p name := by
  rcases h with h | ⟨m, hm, t, ht, hcut⟩
  · intro heq
    have hlen := congrArg List.length (h.symm.trans heq)
    rw [length_under] at hlen
    omega
  · intro heq
    rw [ht, under, under, List.append_assoc, List.append_cancel_left_eq, List.cons_append,
      List.cons.injEq] at heq
    have hchrs := heq.2
    rcases hcut with rfl | hslash
    · rw [List.append_nil] at hchrs
      refine hname ?_
      have : m = name := by
        cases m
        cases name
        cases hchrs
        rfl
      exact this ▸ hm
    · refine name.noSlash ?_
      rw [← hchrs]
      exact List.mem_append_right _ (List.mem_of_mem_head? hslash)

theorem Ready.stale {ms : List FtwCall} {prev : List Name} (h : Ready (under p name) ms s s')
    (h0 : 0 ∉ p) (hs : Stale p prev s) : Stale p (name :: prev) s' := by
  rcases h.buf with heq | ⟨t, heq⟩
  · exact (hs.of_dirpath heq).mono fun m hm => List.mem_cons_of_mem _ hm
  · refine .inr ⟨name, List.mem_cons_self, [], ?_, .inl rfl⟩
    rw [heq, cstr_append (noNul_under h0 name), List.append_nil]

/-- The path is still that of the entry, or of something below it. -/
theorem Stale.up {all prev : List Name} (h : Stale (under p name) all s) :
    Stale p (name :: prev) s := by
  rcases h with h | ⟨m, -, t, ht, -⟩
  · exact .inr ⟨name, List.mem_cons_self, [], by rw [h, List.append_nil], .inl rfl⟩
  · exact .inr ⟨name, List.mem_cons_self, 47 :: (m.chrs ++ t), by
      rw [ht, under, List.append_assoc, List.cons_append], .inr rfl⟩

theorem Reads.stale (h : Reads a d c p s r s') : 0 ∉ p → ∀ {prev}, Stale p prev s →
    ∃ all, Stale p all s' := by
  induction h with
  | done => exact fun _ _ hs => ⟨_, hs⟩
  | ignored hd hi h ih => exact fun h0 _ hs => ih h0 hs
  | tooLong hd hi hl => exact fun _ _ hs => ⟨_, hs⟩
  | fatal hi hl he hready => exact fun h0 _ hs => ⟨_, hready.stale h0 hs⟩
  | ret hi hl hm hr =>
      obtain ⟨ms, -, hready⟩ := hm.ready
      exact fun h0 _ hs => ⟨_, (hready.stale h0 hs).of_dirpath hr.dirpath.1⟩
  | brk hi hl hm hr =>
      obtain ⟨ms, -, hready⟩ := hm.ready
      exact fun h0 _ hs => ⟨_, (hready.stale h0 hs).of_dirpath hr.dirpath.1⟩
  | skip hi hl hm hr h ih =>
      obtain ⟨ms, -, hready⟩ := hm.ready
      exact fun h0 _ hs => ih h0 ((hready.stale h0 hs).of_dirpath hr.dirpath.1)
  | leaf hi hl hm hr hsub h ih =>
      obtain ⟨ms, -, hready⟩ := hm.ready
      exact fun h0 _ hs => ih h0 ((hready.stale h0 hs).of_dirpath hr.dirpath.1)
  | shut hi hl hm hr hsub hent h ih =>
      obtain ⟨ms, -, hready⟩ := hm.ready
      exact fun h0 _ hs => ih h0 ((hready.stale h0 hs).of_dirpath hr.dirpath.1)
  | unopened hi hl hm hr hsub hent hgo h ih =>
      obtain ⟨ms, -, hready⟩ := hm.ready
      exact fun h0 _ hs => ih h0 (((hready.stale h0 hs).of_dirpath hr.dirpath.1).of_dirpath
        (unopened_dirpath _ _ _ _ _))
  | unopenedLeave hi hl hm hr hsub hent hgo =>
      obtain ⟨ms, -, hready⟩ := hm.ready
      exact fun h0 _ hs => ⟨_, ((hready.stale h0 hs).of_dirpath hr.dirpath.1).of_dirpath
        (unopened_dirpath _ _ _ _ _)⟩
  | nested hi hl hm hr hsub hent hin hgo h ihIn ih =>
      intro h0 prev hs
      have hpath := hr.pathIs (hm.path_of_enters hsub hent)
      obtain ⟨all, hall⟩ := @ihIn (noNul_under h0 _) [] (.inl hpath.path)
      exact ih h0 (@Stale.up _ _ _ all prev hall)
  | nestedLeave hi hl hm hr hsub hent hin hgo ihIn =>
      intro h0 prev hs
      have hpath := hr.pathIs (hm.path_of_enters hsub hent)
      obtain ⟨all, hall⟩ := @ihIn (noNul_under h0 _) [] (.inl hpath.path)
      exact ⟨_, @Stale.up _ _ _ all prev hall⟩

/-- The entries still to be read have none of the names in the buffer. -/
def Fresh (p : Bytes) (d : Dir) (s : FtwState) : Prop :=
  ∃ prev, Stale p prev s ∧ ∀ m ∈ d.names, m ∉ prev

theorem Heads.names (h : Heads d name rest) : d.names = name :: rest.names := by
  cases h <;> rfl

theorem Heads.distinct (h : Heads d name rest) (hd : d.Distinct) :
    name ∉ rest.names ∧ rest.Distinct := by
  cases h with
  | file => exact hd
  | lost => exact hd
  | sub => exact ⟨hd.1, hd.2.2⟩

theorem Dir.distinct_sub {openErr dirErr : Option Errno} {inner : Dir}
    (hsub : d.sub? = some (openErr, dirErr, inner)) (hd : d.Distinct) : inner.Distinct := by
  cases d with
  | done => exact nomatch hsub
  | file name type rest => exact nomatch hsub
  | lost name e rest => exact nomatch hsub
  | sub name openErr' dirErr' inner' rest =>
      cases hsub
      exact hd.2.1

/-- A directory that was just come to. -/
theorem fresh_of_pathIs (h : PathIs p s) : Fresh p d s :=
  ⟨[], .inl h.path, fun _ _ => List.not_mem_nil⟩

theorem Fresh.ne_under (h : Fresh p d s) (hd : Heads d name rest) :
    cstr s.dirpath ≠ under p name := by
  obtain ⟨prev, hst, hprev⟩ := h
  exact hst.ne_under (hprev name (by rw [hd.names]; exact List.mem_cons_self))

theorem Fresh.step (h : Fresh p d s) (hd : Heads d name rest) (hdis : d.Distinct)
    (hst : ∀ {prev}, Stale p prev s → Stale p (name :: prev) s') : Fresh p rest s' := by
  obtain ⟨prev, hs, hprev⟩ := h
  refine ⟨name :: prev, hst hs, fun m hm hmem => ?_⟩
  rcases List.mem_cons.mp hmem with rfl | hmem
  · exact (hd.distinct hdis).1 hm
  · exact hprev m (by rw [hd.names]; exact List.mem_cons_of_mem _ hm) hmem

theorem Met.stale {rep : Bool} {s₁ : FtwState} {prev : List Name}
    (h : Met a c p s d name rest rep s₁) (h0 : 0 ∉ p) (hs : Stale p prev s) :
    Stale p (name :: prev) s₁ := by
  obtain ⟨ms, -, hready⟩ := h.ready
  exact hready.stale h0 hs

/-! ## A call goes wrong -/

/-- Calls for entries of these kinds do not have the properties. -/
structure Betrays (o : FtwOpts) (k : Kinds) (base : Bytes) (Q R : FtwCall → Prop) : Prop where
  file : k.file = true → ∀ c name, ¬Q (callAt c (c.foldl under base) name)
  lost : k.lost = true → o.useAtfile = true ∧
    ∀ c name x n, x ≠ under (c.foldl under base) name → ¬Q ⟨c ++ [name], x, n⟩
  unread : k.unread = true → ∀ c p name, ¬R (callAt c p name)

theorem AllRight.of_grows (h : AllRight Q R s') (hg : Grows s s') : AllRight Q R s :=
  ⟨fun x hx => h.calls x (hg.calls.subset hx), fun m hm => h.matchCalls m (hg.matchCalls.subset hm)⟩

theorem not_allRight_called {entry : List Name} (h : ¬Q ⟨entry, cstr s.dirpath, s.dirpathLen⟩) :
    ¬AllRight Q R (s.called entry) :=
  fun h' => h (h'.calls _ (List.mem_append_right _ List.mem_cons_self))

/-- A directory that `opendir` fails on, `FUNC_MATCH` being there. -/
theorem not_allRight_unopened {entry : List Name} {q : Bytes} {e : Errno} {n : Nat}
    (hmatch : a.funcMatch.isSome = true) (he : e.nonfatal = true)
    (hrep : a.opts.reportsDirs = true) (hpath : PathIs q s) (hR : ¬R ⟨entry, q, q.length⟩) :
    ¬AllRight Q R (unopened a entry e n s).2 := by
  rcases unopened_cases a entry e n s with ⟨hno, -⟩ | ⟨-, hno, -⟩ | ⟨-, -, s₁, hs₁, h'⟩
  · rw [he] at hno
    cases hno
  · rw [hrep] at hno
    cases hno
  · have hmem : ⟨entry, q, q.length⟩ ∈ s₁.matchCalls := by
      rcases hs₁ with ⟨hnone, -⟩ | ⟨-, rfl⟩
      · rw [hnone] at hmatch
        cases hmatch
      · rw [← hpath.callAt]
        exact List.mem_append_right _ List.mem_cons_self
    rcases h' with h' | h' <;> rw [h']
    · exact fun h => hR (h.matchCalls _ hmem)
    · exact fun h => hR (h.matchCalls _ hmem)

/-- An entry of the kinds that is not a directory. -/
theorem Met.wrong {rep : Bool} {s₁ s₂ : FtwState} (hcont : Continues a)
    (hacc : ∀ p name, a.accepts p name = true) (hbet : Betrays a.opts k base Q R)
    (hi : a.opts.ignored name = false) (hl : a.opts.tooLong p.length name = false)
    (hm : Met a c p s d name rest rep s₁) (hr : Report a (c ++ [name]) s₁ rep .on s₂)
    (hsub : d.sub? = none) (hp : p = c.foldl under base) (hfresh : Fresh p d s)
    (hcomes : Comes a.opts k d p.length = true) :
    ¬AllRight Q R s₂ ∨ Comes a.opts k rest p.length = true := by
  have hs₂ := (hr.of_continues hcont).2
  have hne := hfresh.ne_under hm.heads
  cases hm with
  | @file _ type _ _ _ hms hready hpath =>
      simp [Comes, hi, hl] at hcomes
      refine hcomes.imp_left fun hfound => ?_
      obtain ⟨hk, hrep⟩ := hfound
      have hcall : (a.opts.reports type && a.accepts p name) = true := by rw [hrep, hacc]; rfl
      rw [hs₂, if_pos hcall]
      refine not_allRight_called ?_
      rw [(hpath hcall).callAt, hp]
      exact hbet.file hk c name
  | lost he hready hpath =>
      simp [Comes, hi, hl, he] at hcomes
      refine hcomes.imp_left fun hfound => ?_
      obtain ⟨hk, hrep⟩ := hfound
      obtain ⟨hat, hQ⟩ := hbet.lost hk
      rw [hs₂, if_pos hrep]
      refine not_allRight_called (hQ c name _ _ ?_)
      rwa [Jstr.ready, if_pos hat, ← hp]
  | sub hready hpath => cases hsub

/-- Coming to an entry of the kinds, such a walk makes a call that is wrong. -/
theorem Reads.wrong (hcont : Continues a) (hmatch : a.funcMatch.isSome = true)
    (hacc : ∀ p name, a.accepts p name = true) (hbet : Betrays a.opts k base Q R)
    (h : Reads a d c p s r s') : p = c.foldl under base → 0 ∉ p → d.Distinct →
      s.actionStop = false → Fresh p d s → Comes a.opts k d p.length = true →
      ¬AllRight Q R s' := by
  have hnever := hcont.neverStops
  induction h with
  | done => exact fun _ _ _ _ _ h => nomatch h
  | ignored hd hi h ih =>
      intro hp h0 hdis hs hfresh hcomes
      rw [Comes.ignored hd hi] at hcomes
      refine ih hp h0 (hd.distinct hdis).2 hs (hfresh.step hd hdis fun hst => ?_) hcomes
      exact hst.mono fun m hm => List.mem_cons_of_mem _ hm
  | tooLong hd hi hl =>
      intro hp h0 hdis hs hfresh hcomes
      rw [Comes.tooLong hd hi hl] at hcomes
      cases hcomes
  | fatal hi hl he hready =>
      intro hp h0 hdis hs hfresh hcomes
      simp [Comes, hi, hl, he] at hcomes
  | ret hi hl hm hr => exact nomatch (hr.of_continues hcont).1
  | brk hi hl hm hr => exact nomatch (hr.of_continues hcont).1
  | skip hi hl hm hr h ih => exact nomatch (hr.of_continues hcont).1
  | leaf hi hl hm hr hsub h ih =>
      intro hp h0 hdis hs hfresh hcomes
      rcases hm.wrong hcont hacc hbet hi hl hr hsub hp hfresh hcomes with hwrong | hrest
      · exact fun hall => hwrong (hall.of_grows h.grows)
      · exact ih hp h0 (hm.heads.distinct hdis).2 ((hm.actionStop_report hnever hr).trans hs)
          (hfresh.step hm.heads hdis fun hst => (hm.stale h0 hst).of_dirpath hr.dirpath.1) hrest
  | shut hi hl hm hr hsub hent h ih =>
      intro hp h0 hdis hs hfresh hcomes
      rw [Comes.sub hi hl hm hsub, FtwOpts.comesBelow, hent, Bool.false_and, Bool.false_or,
        Bool.and_eq_true] at hcomes
      exact ih hp h0 (hm.heads.distinct hdis).2 ((hm.actionStop_report hnever hr).trans hs)
        (hfresh.step hm.heads hdis fun hst => (hm.stale h0 hst).of_dirpath hr.dirpath.1) hcomes.2
  | unopened hi hl hm hr hsub hent hgo h ih =>
      intro hp h0 hdis hs hfresh hcomes
      have hs₂ := (hm.actionStop_report hnever hr).trans hs
      have hpath := hr.pathIs (hm.path_of_enters hsub hent)
      rw [Comes.sub hi hl hm hsub, FtwOpts.comesBelow, hent, Bool.true_and, Bool.or_eq_true,
        Bool.and_eq_true] at hcomes
      rcases hcomes with hk | ⟨-, hrest⟩
      · rw [Option.elim_some, Bool.and_eq_true, Bool.and_eq_true] at hk
        exact fun hall => not_allRight_unopened hmatch hk.1.2 hk.2 hpath (hbet.unread hk.1.1 _ _ _)
          (hall.of_grows h.grows)
      · refine ih hp h0 (hm.heads.distinct hdis).2 ((unopened_actionStop _ _ _ _ _).trans hs₂)
          (hfresh.step hm.heads hdis fun hst => ?_) hrest
        exact ((hm.stale h0 hst).of_dirpath hr.dirpath.1).of_dirpath (unopened_dirpath _ _ _ _ _)
  | unopenedLeave hi hl hm hr hsub hent hgo =>
      intro hp h0 hdis hs hfresh hcomes
      have hs₂ := (hm.actionStop_report hnever hr).trans hs
      have hpath := hr.pathIs (hm.path_of_enters hsub hent)
      rw [Comes.sub hi hl hm hsub, passesUp_of_unopened hs₂ hent hgo, Bool.not_true,
        Bool.false_and, Bool.or_false, FtwOpts.comesBelow, hent, Bool.true_and, Option.elim_some,
        Bool.and_eq_true, Bool.and_eq_true] at hcomes
      exact not_allRight_unopened hmatch hcomes.1.2 hcomes.2 hpath (hbet.unread hcomes.1.1 _ _ _)
  | nested hi hl hm hr hsub hent hin hgo h ihIn ih =>
      intro hp h0 hdis hs hfresh hcomes
      have hs₂ := (hm.actionStop_report hnever hr).trans hs
      have hpath := hr.pathIs (hm.path_of_enters hsub hent)
      have hdis' := Dir.distinct_sub hsub hdis
      rw [Comes.sub hi hl hm hsub, FtwOpts.comesBelow, hent, Bool.true_and, Option.elim_none,
        Bool.or_eq_true, Bool.and_eq_true] at hcomes
      rcases hcomes with hbelow | ⟨-, hrest⟩
      · have hwrong := ihIn (by rw [List.foldl_append, ← hp]; rfl) (noNul_under h0 _) hdis' hs₂
          (fresh_of_pathIs hpath) hbelow
        exact fun hall => hwrong (hall.of_grows h.grows)
      · have hstale := @Reads.stale _ _ _ _ _ _ _ hin (noNul_under h0 _) [] (.inl hpath.path)
        obtain ⟨all, hall⟩ := hstale
        exact ih hp h0 (hm.heads.distinct hdis).2 ((hin.actionStop hnever).trans hs₂)
          (hfresh.step hm.heads hdis fun _ => hall.up) hrest
  | nestedLeave hi hl hm hr hsub hent hin hgo ihIn =>
      intro hp h0 hdis hs hfresh hcomes
      have hs₂ := (hm.actionStop_report hnever hr).trans hs
      have hpath := hr.pathIs (hm.path_of_enters hsub hent)
      obtain ⟨hoff, herr⟩ := err_of_not_goesOn ((hin.actionStop hnever).trans hs₂) hgo
      -- the error is passed up, so what is behind is not come to
      rw [Comes.sub hi hl hm hsub, FtwOpts.passesUp, hent, hoff, Option.elim_none, hin.fails_of_err hcont hs₂ herr,
        FtwOpts.comesBelow, hent, Option.elim_none] at hcomes
      exact ihIn (by rw [List.foldl_append, ← hp]; rfl) (noNul_under h0 _)
        (Dir.distinct_sub hsub hdis) hs₂ (fresh_of_pathIs hpath) (by simpa using hcomes)

end Paths

end Jstr
