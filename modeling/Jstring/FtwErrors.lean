import Jstring.FtwStart

/-!
# The errors of the directory walk

An error other than `EACCES` and `ENOENT` is to be returned. It is, if it is
met in the directory the walk starts at. One met below is passed up without
`ACTIONRETVAL` and lost with it, and where `openat` fails it is always lost;
the walk then returns a success, unless another error follows.

- `Outlook`: what can become of the loop of a directory;
- `Reads.foreseen`: nothing else does;
- `Reads.brought`: what can does, for some `FUNC`;
- `errorsReturned_iff`: when all errors are returned.
-/

namespace Jstr

open Traversal

/-! ## What can become of a walk -/

/-- For the loop of a directory that is not stopped: whether errors are met,
whether it can end well, and whether it can although errors were met. -/
structure Outlook where
  hits : Bool
  ends : Bool
  loses : Bool

/-- What is met in a nested directory: `openat` fails, or it is gone into, and
`opendir` fails or errors are met. -/
def FtwOpts.below (o : FtwOpts) (openErr dirErr : Option Errno) (hits : Bool) : Bool :=
  o.shuts openErr || (o.enters openErr && dirErr.elim hits fun e => !e.nonfatal)

/-- The loop from the entry `name` on, which is reported or not; `below` says
whether errors are met below it, and `up` whether one is passed up. `FUNC` may
skip the siblings of the names in `B`, and does skip those of the names in
`A`. -/
def Outlook.behind (v : Outlook) (o : FtwOpts) (A B : Name → Bool) (name : Name)
    (rep below up : Bool) : Outlook :=
  ⟨below || v.hits, (o.actionretval && rep && B name) || (!up && v.ends),
    !(o.actionretval && rep && A name) && (!up && ((below && v.ends) || v.loses))⟩

/-- What can become of the loop over the entries of a directory whose path
takes `n` bytes. Until an error was lost the siblings of no name but those in
`A` are skipped, from then on at most those of the names in `B`. -/
def outlook (o : FtwOpts) (A B : Name → Bool) : Dir → Nat → Outlook
  | .done, _ => ⟨false, true, false⟩
  | .file name type rest, n =>
    if o.ignored name then outlook o A B rest n
    else if o.tooLong n name then ⟨true, false, false⟩
    else (outlook o A B rest n).behind o A B name (o.reports type) false false
  | .lost name e rest, n =>
    if o.ignored name then outlook o A B rest n
    else if o.tooLong n name || !e.nonfatal then ⟨true, false, false⟩
    else (outlook o A B rest n).behind o A B name (o.reports .other) false false
  | .sub name openErr dirErr inner rest, n =>
    if o.ignored name then outlook o A B rest n
    else if o.tooLong n name then ⟨true, false, false⟩
    else
      (outlook o A B rest n).behind o A B name o.reportsDirs
        (o.below openErr dirErr (outlook o A B inner (n + 1 + name.chrs.length)).hits)
        (o.passesUp openErr dirErr (Fails o inner (n + 1 + name.chrs.length)))

/-- Errors are returned, whatever the callbacks are, unless `FUNC` stops the
walk. -/
def ErrorsReturned (o : FtwOpts) (start : Start) (dirpath : Bytes) : Prop :=
  ∀ a : FtwData, a.opts = o → NeverStops a → (ioFtwLen a start dirpath).2.failed = true →
    (ioFtwLen a start dirpath).1 = -1

/-- No error can be lost. -/
def NothingLost (o : FtwOpts) (dirpath : Bytes) : Start → Prop
  | .dir none entries =>
    (outlook o (fun _ => false) (fun _ => true) entries (startPath dirpath).length).loses = false
  | _ => True

section Errors

variable {a : FtwData} {o : FtwOpts} {A B : Name → Bool} {d rest : Dir} {c : List Name} {p : Bytes}
  {name : Name} {s s' : FtwState} {r : RetTy}

/-! ## Entry by entry -/

/-- `FUNC` is to be called on the first entry. -/
def Dir.told (o : FtwOpts) : Dir → Bool
  | .done => false
  | .file _ type _ => o.reports type
  | .lost _ _ _ => o.reports .other
  | .sub _ _ _ _ _ => o.reportsDirs

theorem Met.told {rep : Bool} {s₁ : FtwState} (h : Met a c p s d name rest rep s₁) :
    (rep = true → d.told a.opts = true) ∧ (a.funcMatch = none → rep = d.told a.opts) := by
  cases h with
  | file hms hready hpath =>
      refine ⟨fun h => (Bool.and_eq_true _ _ |>.mp h).1, fun hm => ?_⟩
      rw [FtwData.accepts, hm]
      exact Bool.and_true _
  | lost he hready hpath => exact ⟨fun h => h, fun _ => rfl⟩
  | sub hready hpath => exact ⟨fun h => h, fun _ => rfl⟩

theorem outlook_ignored {n : Nat} (hd : Heads d name rest) (hi : o.ignored name = true) :
    outlook o A B d n = outlook o A B rest n := by
  cases hd <;> simp only [outlook, hi, if_true]

theorem outlook_tooLong {n : Nat} (hd : Heads d name rest) (hi : o.ignored name = false)
    (hl : o.tooLong n name = true) : outlook o A B d n = ⟨true, false, false⟩ := by
  cases hd <;> simp only [outlook, hi, hl, Bool.true_or, if_true] <;> rfl

theorem outlook_fatal {e : Errno} {n : Nat} (hi : o.ignored name = false)
    (he : e.nonfatal = false) : outlook o A B (.lost name e rest) n = ⟨true, false, false⟩ := by
  rw [outlook, hi, he, Bool.not_false, Bool.or_true]
  rfl

theorem outlook_leaf {rep : Bool} {s₁ : FtwState} (hi : a.opts.ignored name = false)
    (hl : a.opts.tooLong p.length name = false) (hm : Met a c p s d name rest rep s₁)
    (hsub : d.sub? = none) : outlook a.opts A B d p.length
      = (outlook a.opts A B rest p.length).behind a.opts A B name (d.told a.opts) false false := by
  cases hm with
  | file hms hready hpath =>
      rw [outlook, hi, hl]
      rfl
  | lost he hready hpath =>
      rw [outlook, hi, hl, he]
      rfl
  | sub hready hpath => exact nomatch hsub

theorem outlook_sub {rep : Bool} {s₁ : FtwState} {openErr dirErr : Option Errno} {inner : Dir}
    (hi : a.opts.ignored name = false) (hl : a.opts.tooLong p.length name = false)
    (hm : Met a c p s d name rest rep s₁) (hsub : d.sub? = some (openErr, dirErr, inner)) :
    outlook a.opts A B d p.length
      = (outlook a.opts A B rest p.length).behind a.opts A B name (d.told a.opts)
        (a.opts.below openErr dirErr (outlook a.opts A B inner (under p name).length).hits)
        (a.opts.passesUp openErr dirErr (Fails a.opts inner (under p name).length)) := by
  rw [hm.eq_sub hsub, outlook, hi, hl, length_under]
  rfl

/-- An entry of either kind. With `ACTIONRETVAL` nothing is passed up. -/
theorem outlook_met {rep : Bool} {s₁ : FtwState} (hi : a.opts.ignored name = false)
    (hl : a.opts.tooLong p.length name = false) (hm : Met a c p s d name rest rep s₁) :
    ∃ below up, (a.opts.actionretval = true → up = false) ∧ outlook a.opts A B d p.length
      = (outlook a.opts A B rest p.length).behind a.opts A B name (d.told a.opts) below up := by
  cases hsub : d.sub? with
  | none => exact ⟨false, false, fun _ => rfl, outlook_leaf hi hl hm hsub⟩
  | some x =>
      exact ⟨_, _, fun hact => passesUp_of_actionretval hact _ _ _, outlook_sub hi hl hm hsub⟩

/-! ## Nothing else does -/

/-- What became of a loop was to be expected. -/
structure Foreseen (v : Outlook) (r : RetTy) (s s' : FtwState) : Prop where
  hits : s'.failed = true → s.failed = true ∨ v.hits = true
  ends : r = .succ → v.ends = true
  loses : r = .succ → s'.failed = true → s.failed = true ∨ v.loses = true
  errs : r = .err → s'.failed = true

/-- From the rest of a loop to the loop. -/
theorem Foreseen.behind {v : Outlook} {s₁ : FtwState} {rep below up : Bool}
    (h : Foreseen v r s₁ s') (hs₁ : s₁.failed = true → s.failed = true ∨ below = true)
    (hup : up = false) :
    Foreseen (v.behind o (fun _ => false) B name rep below up) r s s' := by
  subst hup
  refine ⟨fun hf => ?_, fun hr => ?_, fun hr hf => ?_, h.errs⟩
  · rcases h.hits hf with hf₁ | hv
    · refine (hs₁ hf₁).imp_right fun hb => ?_
      rw [Outlook.behind, hb, Bool.true_or]
    · exact .inr (by rw [Outlook.behind, hv, Bool.or_true])
  · rw [Outlook.behind, h.ends hr, Bool.not_false, Bool.true_and, Bool.or_true]
  · rw [Outlook.behind, Bool.and_false, Bool.not_false, Bool.true_and, Bool.true_and]
    rcases h.loses hr hf with hf₁ | hv
    · refine (hs₁ hf₁).imp_right fun hb => ?_
      rw [hb, h.ends hr]
      rfl
    · exact .inr (by rw [hv, Bool.or_true]; rfl)

theorem Report.failed {entry : List Name} {rep : Bool} {flow : Flow}
    (h : Report a entry s rep flow s') : s'.failed = s.failed := by
  cases h <;> rfl

theorem Met.failed {rep : Bool} {s₁ : FtwState} (h : Met a c p s d name rest rep s₁) :
    s₁.failed = s.failed := by
  obtain ⟨ms, -, hready⟩ := h.ready
  exact hready.failed

theorem Report.rep_of_brk {entry : List Name} {rep : Bool} (h : Report a entry s rep .brk s') :
    rep = true := by
  cases h
  rfl

theorem below_of_enters {openErr dirErr : Option Errno} {hits : Bool}
    (hent : o.enters openErr = true) (h : (dirErr.elim hits fun e => !e.nonfatal) = true) :
    o.below openErr dirErr hits = true := by
  rw [FtwOpts.below, hent, h]
  exact Bool.or_true _

/-- A loop that is left because of an error in a nested directory. -/
theorem foreseen_leave {v : Outlook} {rep below up : Bool} (hact : o.actionretval = false)
    (hf : s'.failed = true) (hbelow : s.failed = true ∨ below = true) :
    Foreseen (v.behind o A B name rep below up) (if o.actionretval then .succ else .err) s s' := by
  rw [hact]
  refine ⟨fun _ => hbelow.imp_right fun hb => ?_, nofun, nofun, fun _ => hf⟩
  rw [Outlook.behind, hb, Bool.true_or]

/-- What becomes of a loop that is not stopped was to be expected. -/
theorem Reads.foreseen (hnever : NeverStops a) (h : Reads a d c p s r s') :
    s.actionStop = false →
      Foreseen (outlook a.opts (fun _ => false) (fun _ => true) d p.length) r s s' := by
  induction h with
  | done => exact fun _ => ⟨.inl, fun _ => rfl, fun _ => .inl, nofun⟩
  | ignored hd hi h ih =>
      rw [outlook_ignored hd hi]
      exact ih
  | tooLong hd hi hl =>
      rw [outlook_tooLong hd hi hl]
      exact fun _ => ⟨fun _ => .inr rfl, nofun, nofun, fun _ => rfl⟩
  | fatal hi hl he hready =>
      rw [outlook_fatal hi he]
      exact fun _ => ⟨fun _ => .inr rfl, nofun, nofun, fun _ => rfl⟩
  | ret hi hl hm hr => exact absurd hr (Report.not_ret hnever)
  | brk hi hl hm hr =>
      intro hs
      have hfailed := hr.failed.trans hm.failed
      obtain ⟨below, up, -, heq⟩ := @outlook_met a (fun _ => false) (fun _ => true) _ _ _ _ _ _ _ _
        hi hl hm
      rw [heq]
      refine ⟨fun h => .inl (hfailed.symm.trans h), fun _ => ?_,
        fun _ h => .inl (hfailed.symm.trans h), nofun⟩
      rw [Outlook.behind, hr.actionretval_of_brk, hm.told.1 hr.rep_of_brk]
      rfl
  | skip hi hl hm hr h ih =>
      intro hs
      have hs₂ := (hm.actionStop_report hnever hr).trans hs
      have hfailed := hr.failed.trans hm.failed
      obtain ⟨below, up, hup, heq⟩ := @outlook_met a (fun _ => false) (fun _ => true) _ _ _ _ _ _ _
        _ hi hl hm
      rw [heq]
      exact (ih hs₂).behind (fun h => .inl (hfailed.symm.trans h)) (hup hr.actionretval_of_next)
  | leaf hi hl hm hr hsub h ih =>
      intro hs
      have hs₂ := (hm.actionStop_report hnever hr).trans hs
      have hfailed := hr.failed.trans hm.failed
      rw [outlook_leaf hi hl hm hsub]
      exact (ih hs₂).behind (fun h => .inl (hfailed.symm.trans h)) rfl
  | shut hi hl hm hr hsub hent h ih =>
      intro hs
      have hs₂ := (hm.actionStop_report hnever hr).trans hs
      have hfailed := hr.failed.trans hm.failed
      rw [outlook_sub hi hl hm hsub]
      refine (ih hs₂).behind (fun h => ?_) ?_
      · rw [hfailed, Bool.or_eq_true] at h
        refine h.imp_right fun hshut => ?_
        rw [FtwOpts.below, hshut, Bool.true_or]
      · rw [FtwOpts.passesUp, hent, Bool.false_and, Bool.false_and]
  | unopened hi hl hm hr hsub hent hgo h ih =>
      intro hs
      have hs₂ := (hm.actionStop_report hnever hr).trans hs
      have hfailed := hr.failed.trans hm.failed
      rw [outlook_sub hi hl hm hsub]
      refine (ih ((unopened_actionStop _ _ _ _ _).trans hs₂)).behind (fun h => ?_)
        (passesUp_unopened_of_goesOn _ _ hgo)
      rw [(unopened_ret _ _ _ _ _).2, hfailed, Bool.or_eq_true] at h
      exact h.imp_right (below_of_enters hent)
  | unopenedLeave hi hl hm hr hsub hent hgo =>
      intro hs
      have hs₂ := (hm.actionStop_report hnever hr).trans hs
      obtain ⟨hoff, herr⟩ := err_of_not_goesOn ((unopened_actionStop _ _ _ _ _).trans hs₂) hgo
      rw [outlook_sub hi hl hm hsub]
      rw [(unopened_ret _ _ _ _ _).1] at herr
      rename_i e _
      have he : e.nonfatal = false := by
        by_contra he
        rw [if_pos (Bool.not_eq_false _ |>.mp he)] at herr
        cases herr
      refine foreseen_leave hoff ?_ (.inr (below_of_enters hent ?_))
      · rw [(unopened_ret _ _ _ _ _).2, he, Bool.not_false, Bool.or_true]
      · rw [Option.elim_some, he]
        rfl
  | nested hi hl hm hr hsub hent hin hgo h ihIn ih =>
      intro hs
      have hs₂ := (hm.actionStop_report hnever hr).trans hs
      have hfailed := hr.failed.trans hm.failed
      rw [outlook_sub hi hl hm hsub]
      refine (ih ((hin.actionStop hnever).trans hs₂)).behind (fun h => ?_)
        (hin.passesUp_of_goesOn _ hgo)
      rcases (ihIn hs₂).hits h with hf | hhits
      · exact .inl (hfailed.symm.trans hf)
      · exact .inr (below_of_enters hent hhits)
  | nestedLeave hi hl hm hr hsub hent hin hgo ihIn =>
      intro hs
      have hs₂ := (hm.actionStop_report hnever hr).trans hs
      obtain ⟨hoff, herr⟩ := err_of_not_goesOn ((hin.actionStop hnever).trans hs₂) hgo
      rw [outlook_sub hi hl hm hsub]
      have hf := (ihIn hs₂).errs herr
      refine foreseen_leave hoff hf (((ihIn hs₂).hits hf).imp (fun h => ?_) (below_of_enters hent))
      exact (hr.failed.trans hm.failed).symm.trans h

/-! ## What can does -/

/-- A `FUNC` that skips the siblings of the names in `B`, in the directory the
walk starts at, and lets all else pass. -/
def skipping (o : FtwOpts) (B : Name → Bool) : FtwData where
  opts := o
  func log :=
    match log.getLast? with
    | some ⟨[name], _, _⟩ => if B name then 2 else 1
    | _ => 1
  funcMatch := none

theorem answer_of_one {log : List FtwCall} (h : a.func log = 1) : a.answer log = .proceed := by
  rw [FtwData.answer, h]
  split <;> rfl

theorem answer_of_two {log : List FtwCall} (h : a.func log = 2) :
    a.answer log = if a.opts.actionretval then .skipSiblings else .proceed := by
  rw [FtwData.answer, h]
  split <;> rfl

theorem skipping_neverStops (o : FtwOpts) (B : Name → Bool) : NeverStops (skipping o B) := by
  intro log hstop
  have hfunc : (skipping o B).func log = 1 ∨ (skipping o B).func log = 2 := by
    dsimp only [skipping]
    split
    · split
      · exact .inr rfl
      · exact .inl rfl
    · exact .inl rfl
  rcases hfunc with h | h
  · exact nomatch (answer_of_one h).symm.trans hstop
  · rw [answer_of_two h] at hstop
    split at hstop <;> cases hstop

/-- Below the directory it starts at the walk goes on. -/
theorem Report.skipping_deep {rep : Bool} {flow : Flow} (hc : c ≠ [])
    (h : Report (skipping o B) (c ++ [name]) s rep flow s') : flow = .on := by
  have hans : (skipping o B).answer (s.called (c ++ [name])).calls = .proceed := by
    refine answer_of_one ?_
    obtain ⟨m, c, rfl⟩ := List.exists_cons_of_ne_nil hc
    simp only [skipping, FtwState.called, List.getLast?_concat]
    cases c <;> rfl
  cases h with
  | pass => rfl
  | proceed h => rfl
  | skipSubtree h => exact nomatch hans.symm.trans h
  | skipSiblings h => exact nomatch hans.symm.trans h
  | stop h hact => exact nomatch hans.symm.trans h
  | fail h hact => exact nomatch hans.symm.trans h

/-- In it the loop is left at the names in `B`. -/
theorem Report.skipping_top {rep : Bool} {flow : Flow}
    (h : Report (skipping o B) [name] s rep flow s') :
    flow = .on ∧ (o.actionretval && rep && B name) = false ∨
      flow = .brk ∧ (o.actionretval && rep && B name) = true := by
  have hans : (skipping o B).answer (s.called [name]).calls
      = if o.actionretval && B name then .skipSiblings else .proceed := by
    have hfunc : (skipping o B).func (s.called [name]).calls = if B name then 2 else 1 := by
      simp only [skipping, FtwState.called, List.getLast?_concat]
    cases hB : B name with
    | false =>
        rw [hB] at hfunc
        rw [answer_of_one hfunc, Bool.and_false]
        rfl
    | true =>
        rw [hB] at hfunc
        rw [answer_of_two hfunc, Bool.and_true]
        rfl
  cases h with
  | pass => exact .inl ⟨rfl, by rw [Bool.and_false, Bool.false_and]⟩
  | proceed h =>
      rw [h] at hans
      refine .inl ⟨rfl, ?_⟩
      rw [Bool.and_true]
      by_contra hB
      rw [if_pos (Bool.not_eq_false _ |>.mp hB)] at hans
      cases hans
  | skipSiblings h =>
      rw [h] at hans
      refine .inr ⟨rfl, ?_⟩
      rw [Bool.and_true]
      by_contra hB
      rw [if_neg hB] at hans
      cases hans
  | skipSubtree h =>
      rw [h] at hans
      split at hans <;> cases hans
  | stop h hact => exact absurd h (skipping_neverStops o B _)
  | fail h hact => exact absurd h (skipping_neverStops o B _)

/-- `FUNC` is called on all files and does so. -/
structure Skips (a : FtwData) (B : Name → Bool) : Prop where
  funcMatch : a.funcMatch = none
  never : NeverStops a
  deep : ∀ {c name s rep flow s'}, c ≠ [] → Report a (c ++ [name]) s rep flow s' → flow = .on
  top : ∀ {name s rep flow s'}, Report a [name] s rep flow s' →
    flow = .on ∧ (a.opts.actionretval && rep && B name) = false ∨
      flow = .brk ∧ (a.opts.actionretval && rep && B name) = true

theorem skipping_skips (o : FtwOpts) (B : Name → Bool) : Skips (skipping o B) B :=
  ⟨rfl, skipping_neverStops o B, Report.skipping_deep, Report.skipping_top⟩

theorem below_eq {openErr dirErr : Option Errno} {hits : Bool} (hent : o.enters openErr = true) :
    o.below openErr dirErr hits = dirErr.elim hits fun e => !e.nonfatal := by
  have hshut : o.shuts openErr = false := by
    rw [FtwOpts.enters, Bool.and_eq_true, Bool.or_eq_true] at hent
    rcases hent.2 with hat | hopen
    · rw [FtwOpts.shuts, Bool.not_eq_true' _ |>.mp hat, Bool.and_false, Bool.false_and]
    · rw [FtwOpts.shuts, Option.isNone_iff_eq_none.mp hopen, Option.any_none, Bool.and_false]
  rw [FtwOpts.below, hshut, hent, Bool.false_or, Bool.true_and]

theorem failed_of_unopened {openErr : Option Errno} {e : Errno} {n : Nat} {hits : Bool}
    (hent : a.opts.enters openErr = true) (h : a.opts.below openErr (some e) hits = true) :
    (unopened a c e n s).2.failed = true := by
  rw [below_eq hent, Option.elim_some] at h
  rw [(unopened_ret a c e n s).2, h, Bool.or_true]

/-- A loop that is left because of an error in a nested directory. -/
theorem Reads.failed_of_leave (hnever : NeverStops a)
    (h : Reads a d c p s (if a.opts.actionretval then .succ else .err) s')
    (hoff : a.opts.actionretval = false) (hs : s.actionStop = false) : s'.failed = true :=
  (h.foreseen hnever hs).errs (by rw [hoff]; rfl)

/-- Below the start errors are met, if there are any. -/
theorem Reads.hits (hsk : Skips a B) (h : Reads a d c p s r s') : c ≠ [] → s.actionStop = false →
    (outlook a.opts A B d p.length).hits = true → s'.failed = true := by
  have hnever := hsk.never
  induction h with
  | done => exact fun _ _ h => nomatch h
  | ignored hd hi h ih =>
      rw [outlook_ignored hd hi]
      exact ih
  | tooLong hd hi hl => exact fun _ _ _ => rfl
  | fatal hi hl he hready => exact fun _ _ _ => rfl
  | ret hi hl hm hr => exact absurd hr (Report.not_ret hnever)
  | brk hi hl hm hr => exact fun hc => nomatch hsk.deep hc hr
  | skip hi hl hm hr h ih => exact fun hc => nomatch hsk.deep hc hr
  | leaf hi hl hm hr hsub h ih =>
      intro hc hs hhits
      rw [outlook_leaf hi hl hm hsub] at hhits
      exact ih hc ((hm.actionStop_report hnever hr).trans hs) hhits
  | shut hi hl hm hr hsub hent h ih =>
      intro hc hs hhits
      rw [outlook_sub hi hl hm hsub, Outlook.behind, FtwOpts.below, hent, Bool.false_and,
        Bool.or_false, Bool.or_eq_true] at hhits
      rcases hhits with hshut | hhits
      · exact h.grows.failed (by rw [hshut, Bool.or_true])
      · exact ih hc ((hm.actionStop_report hnever hr).trans hs) hhits
  | unopened hi hl hm hr hsub hent hgo h ih =>
      intro hc hs hhits
      have hs₂ := (hm.actionStop_report hnever hr).trans hs
      rw [outlook_sub hi hl hm hsub, Outlook.behind, Bool.or_eq_true] at hhits
      rcases hhits with hbelow | hhits
      · exact h.grows.failed (failed_of_unopened hent hbelow)
      · exact ih hc ((unopened_actionStop _ _ _ _ _).trans hs₂) hhits
  | unopenedLeave hi hl hm hr hsub hent hgo =>
      intro hc hs hhits
      have hs₂ := (hm.actionStop_report hnever hr).trans hs
      obtain ⟨hoff, -⟩ := err_of_not_goesOn ((unopened_actionStop _ _ _ _ _).trans hs₂) hgo
      exact (Reads.unopenedLeave hi hl hm hr hsub hent hgo).failed_of_leave hnever hoff hs
  | nested hi hl hm hr hsub hent hin hgo h ihIn ih =>
      intro hc hs hhits
      have hs₂ := (hm.actionStop_report hnever hr).trans hs
      rw [outlook_sub hi hl hm hsub, Outlook.behind, below_eq hent, Option.elim_none,
        Bool.or_eq_true] at hhits
      rcases hhits with hbelow | hhits
      · exact h.grows.failed (ihIn (List.append_ne_nil_of_right_ne_nil _ (List.cons_ne_nil _ _))
          hs₂ hbelow)
      · exact ih hc ((hin.actionStop hnever).trans hs₂) hhits
  | nestedLeave hi hl hm hr hsub hent hin hgo ihIn =>
      intro hc hs hhits
      have hs₂ := (hm.actionStop_report hnever hr).trans hs
      obtain ⟨hoff, -⟩ := err_of_not_goesOn ((hin.actionStop hnever).trans hs₂) hgo
      exact (Reads.nestedLeave hi hl hm hr hsub hent hin hgo).failed_of_leave hnever hoff hs

/-- What can become of the loop at the start does. -/
structure Brought (v : Outlook) (r : RetTy) (s' : FtwState) : Prop where
  ends : v.ends = true → r = .succ
  loses : v.loses = true → r = .succ ∧ s'.failed = true

/-- From the rest of a loop to the loop. -/
theorem Brought.behind {v : Outlook} {rep below up : Bool} (h : Brought v r s')
    (hon : (o.actionretval && rep && B name) = false) (hbelow : below = true → s'.failed = true) :
    Brought (v.behind o B B name rep below up) r s' := by
  refine ⟨fun hv => ?_, fun hv => ?_⟩
  · rw [Outlook.behind, hon, Bool.false_or, Bool.and_eq_true] at hv
    exact h.ends hv.2
  · rw [Outlook.behind, hon, Bool.not_false, Bool.true_and, Bool.and_eq_true, Bool.or_eq_true,
      Bool.and_eq_true] at hv
    rcases hv.2 with ⟨hb, hends⟩ | hloses
    · exact ⟨h.ends hends, hbelow hb⟩
    · exact h.loses hloses

/-- A loop that an error is passed up through. -/
theorem brought_leave {v : Outlook} {rep below : Bool}
    (hon : (o.actionretval && rep && B name) = false) :
    Brought (v.behind o B B name rep below true) r s' := by
  refine ⟨fun hv => ?_, fun hv => ?_⟩
  · rw [Outlook.behind, hon] at hv
    cases hv
  · rw [Outlook.behind, hon] at hv
    cases hv

theorem NeverStops.continues (h : NeverStops a) (hoff : a.opts.actionretval = false) :
    Continues a := by
  intro log
  have hlog := h log
  rw [FtwData.answer, hoff, if_neg Bool.false_ne_true] at hlog ⊢
  split at hlog
  · exact absurd rfl hlog
  · rename_i hm
    rw [if_neg hm]

/-- An entry that is gone on behind is not one the siblings of which are skipped. -/
theorem Met.on {rep : Bool} {s₁ : FtwState} (hm : Met a c p s d name rest rep s₁)
    (hsk : Skips a B) (hr : Report a [name] s₁ rep .on s') :
    (a.opts.actionretval && d.told a.opts && B name) = false := by
  rw [← hm.told.2 hsk.funcMatch]
  rcases hsk.top hr with ⟨-, h⟩ | ⟨h, -⟩
  · exact h
  · cases h

theorem Reads.brought (hsk : Skips a B) (h : Reads a d c p s r s') : c = [] →
    s.actionStop = false → Brought (outlook a.opts B B d p.length) r s' := by
  have hnever := hsk.never
  induction h with
  | done => exact fun _ _ => ⟨fun _ => rfl, nofun⟩
  | ignored hd hi h ih =>
      rw [outlook_ignored hd hi]
      exact ih
  | tooLong hd hi hl =>
      rw [outlook_tooLong hd hi hl]
      exact fun _ _ => ⟨nofun, nofun⟩
  | fatal hi hl he hready =>
      rw [outlook_fatal hi he]
      exact fun _ _ => ⟨nofun, nofun⟩
  | ret hi hl hm hr => exact absurd hr (Report.not_ret hnever)
  | brk hi hl hm hr =>
      intro hc hs
      subst hc
      obtain ⟨below, up, -, heq⟩ := @outlook_met a B B _ _ _ _ _ _ _ _ hi hl hm
      rw [heq]
      refine ⟨fun _ => rfl, fun hv => ?_⟩
      rcases hsk.top hr with ⟨h, -⟩ | ⟨-, h⟩
      · cases h
      · rw [Outlook.behind, ← hm.told.2 hsk.funcMatch, h] at hv
        cases hv
  | skip hi hl hm hr h ih =>
      intro hc hs
      subst hc
      rcases hsk.top hr with ⟨h, -⟩ | ⟨h, -⟩ <;> cases h
  | leaf hi hl hm hr hsub h ih =>
      intro hc hs
      subst hc
      rw [outlook_leaf hi hl hm hsub]
      exact (ih rfl ((hm.actionStop_report hnever hr).trans hs)).behind
        (hm.on hsk hr) nofun
  | shut hi hl hm hr hsub hent h ih =>
      intro hc hs
      subst hc
      rw [outlook_sub hi hl hm hsub]
      refine (ih rfl ((hm.actionStop_report hnever hr).trans hs)).behind
        (hm.on hsk hr) fun hbelow => h.grows.failed ?_
      rw [FtwOpts.below, hent, Bool.false_and, Bool.or_false] at hbelow
      rw [hbelow, Bool.or_true]
  | unopened hi hl hm hr hsub hent hgo h ih =>
      intro hc hs
      subst hc
      have hs₂ := (hm.actionStop_report hnever hr).trans hs
      rw [outlook_sub hi hl hm hsub]
      exact (ih rfl ((unopened_actionStop _ _ _ _ _).trans hs₂)).behind (hm.on hsk hr)
        fun hbelow => h.grows.failed (failed_of_unopened hent hbelow)
  | unopenedLeave hi hl hm hr hsub hent hgo =>
      intro hc hs
      subst hc
      have hs₂ := (hm.actionStop_report hnever hr).trans hs
      rw [outlook_sub hi hl hm hsub, passesUp_of_unopened hs₂ hent hgo]
      exact brought_leave (hm.on hsk hr)
  | nested hi hl hm hr hsub hent hin hgo h ihIn ih =>
      intro hc hs
      subst hc
      have hs₂ := (hm.actionStop_report hnever hr).trans hs
      rw [outlook_sub hi hl hm hsub]
      refine (ih rfl ((hin.actionStop hnever).trans hs₂)).behind (hm.on hsk hr)
        fun hbelow => h.grows.failed ?_
      rw [below_eq hent, Option.elim_none] at hbelow
      exact hin.hits hsk (List.cons_ne_nil _ _) hs₂ hbelow
  | nestedLeave hi hl hm hr hsub hent hin hgo ihIn =>
      intro hc hs
      subst hc
      have hs₂ := (hm.actionStop_report hnever hr).trans hs
      obtain ⟨hoff, herr⟩ := err_of_not_goesOn ((hin.actionStop hnever).trans hs₂) hgo
      have hup := hin.fails_of_err (hnever.continues hoff) hs₂ herr
      rw [outlook_sub hi hl hm hsub, FtwOpts.passesUp, hent, hoff, Option.elim_none, hup]
      exact brought_leave (hm.on hsk hr)

/-! ## Which siblings to skip -/

theorem outlook_hits_eq (o : FtwOpts) (A B A' B' : Name → Bool) (d : Dir) : ∀ n,
    (outlook o A B d n).hits = (outlook o A' B' d n).hits := by
  induction d with
  | done => exact fun n => rfl
  | file name type rest ih =>
      intro n
      simp only [outlook]
      split_ifs
      · exact ih n
      · rfl
      · exact ih n
  | lost name e rest ih =>
      intro n
      simp only [outlook]
      split_ifs
      · exact ih n
      · rfl
      · exact ih n
  | sub name openErr dirErr inner rest ihInner ihRest =>
      intro n
      simp only [outlook]
      split_ifs
      · exact ihRest n
      · rfl
      · simp only [Outlook.behind, ihInner, ihRest n]

theorem outlook_ends_congr {A' B' : Name → Bool} (d : Dir) : ∀ n,
    (∀ m ∈ d.names, B m = B' m) → (outlook o A B d n).ends = (outlook o A' B' d n).ends := by
  induction d with
  | done => exact fun n _ => rfl
  | file name type rest ih =>
      intro n hB
      have hrest := ih n fun m hm => hB m (List.mem_cons_of_mem _ hm)
      simp only [outlook]
      split_ifs
      · exact hrest
      · rfl
      · simp only [Outlook.behind, hrest, hB name List.mem_cons_self]
  | lost name e rest ih =>
      intro n hB
      have hrest := ih n fun m hm => hB m (List.mem_cons_of_mem _ hm)
      simp only [outlook]
      split_ifs
      · exact hrest
      · rfl
      · simp only [Outlook.behind, hrest, hB name List.mem_cons_self]
  | sub name openErr dirErr inner rest ihInner ihRest =>
      intro n hB
      have hrest := ihRest n fun m hm => hB m (List.mem_cons_of_mem _ hm)
      simp only [outlook]
      split_ifs
      · exact hrest
      · rfl
      · simp only [Outlook.behind, hrest, hB name List.mem_cons_self]

/-- What `outlook_loses` says of a directory. -/
def LosesFor (o : FtwOpts) (d : Dir) (n : Nat) : Prop :=
  ∃ B : Name → Bool, (∀ m, B m = true → m ∈ d.names) ∧ (outlook o B B d n).loses = true

theorem LosesFor.ignored {n : Nat} (hd : Heads d name rest) (hi : o.ignored name = true)
    (h : LosesFor o rest n) : LosesFor o d n := by
  obtain ⟨B, hB, hloses⟩ := h
  refine ⟨B, fun m hm => ?_, by rwa [outlook_ignored hd hi]⟩
  rw [hd.names]
  exact List.mem_cons_of_mem _ (hB m hm)

/-- An entry that is not of the names the siblings of which are skipped. -/
theorem LosesFor.behind {n : Nat} {rep below : Bool} (hd : Heads d name rest)
    (hname : name ∉ rest.names)
    (heq : ∀ B, outlook o B B d n = (outlook o B B rest n).behind o B B name rep below false)
    (h : LosesFor o rest n) : LosesFor o d n := by
  obtain ⟨B, hB, hloses⟩ := h
  refine ⟨B, fun m hm => ?_, ?_⟩
  · rw [hd.names]
    exact List.mem_cons_of_mem _ (hB m hm)
  · have hno : B name = false := Bool.not_eq_true _ |>.mp fun h => hname (hB name h)
    rw [heq, Outlook.behind, hno, hloses, Bool.and_false, Bool.or_true]
    rfl

/-- An entry below which there is nothing. -/
theorem LosesFor.behind_plain {n : Nat} {rep : Bool} (hd : Heads d name rest)
    (hname : name ∉ rest.names)
    (heq : ∀ A B, outlook o A B d n = (outlook o A B rest n).behind o A B name rep false false)
    (ih : (outlook o (fun _ => false) (fun _ => true) rest n).loses = true → LosesFor o rest n)
    (h : (outlook o (fun _ => false) (fun _ => true) d n).loses = true) : LosesFor o d n := by
  rw [heq] at h
  simp only [Outlook.behind, Bool.and_false, Bool.not_false, Bool.true_and, Bool.false_and,
    Bool.false_or] at h
  exact .behind hd hname (fun B => heq B B) (ih h)

/-- If an error can be lost at all, it is where the siblings of some set of
names are skipped. -/
theorem outlook_loses (d : Dir) : ∀ n, d.Distinct →
    (outlook o (fun _ => false) (fun _ => true) d n).loses = true → LosesFor o d n := by
  induction d with
  | done => exact fun n _ h => nomatch h
  | file name type rest ih =>
      rintro n ⟨hname, hrest⟩ h
      by_cases hi : o.ignored name = true
      · rw [outlook_ignored .file hi] at h
        exact .ignored .file hi (ih n hrest h)
      by_cases hl : o.tooLong n name = true
      · rw [outlook_tooLong .file (Bool.not_eq_true _ |>.mp hi) hl] at h
        cases h
      · have heq : ∀ A B, outlook o A B (.file name type rest) n
            = (outlook o A B rest n).behind o A B name (o.reports type) false false := by
          intro A B
          rw [outlook, if_neg hi, if_neg hl]
        exact .behind_plain .file hname heq (ih n hrest) h
  | lost name e rest ih =>
      rintro n ⟨hname, hrest⟩ h
      by_cases hi : o.ignored name = true
      · rw [outlook_ignored .lost hi] at h
        exact .ignored .lost hi (ih n hrest h)
      by_cases hl : (o.tooLong n name || !e.nonfatal) = true
      · rw [outlook, if_neg hi, if_pos hl] at h
        cases h
      · have heq : ∀ A B, outlook o A B (.lost name e rest) n
            = (outlook o A B rest n).behind o A B name (o.reports .other) false false := by
          intro A B
          rw [outlook, if_neg hi, if_neg hl]
        exact .behind_plain .lost hname heq (ih n hrest) h
  | sub name openErr dirErr inner rest ihInner ihRest =>
      rintro n ⟨hname, -, hrest⟩ h
      by_cases hi : o.ignored name = true
      · rw [outlook_ignored .sub hi] at h
        exact .ignored .sub hi (ihRest n hrest h)
      by_cases hl : o.tooLong n name = true
      · rw [outlook_tooLong .sub (Bool.not_eq_true _ |>.mp hi) hl] at h
        cases h
      have heq : ∀ A B, outlook o A B (.sub name openErr dirErr inner rest) n
          = (outlook o A B rest n).behind o A B name o.reportsDirs
            (o.below openErr dirErr (outlook o (fun _ => false) (fun _ => true) inner
              (n + 1 + name.chrs.length)).hits)
            (o.passesUp openErr dirErr (Fails o inner (n + 1 + name.chrs.length))) := by
        intro A B
        rw [outlook, if_neg hi, if_neg hl, outlook_hits_eq o A B (fun _ => false) (fun _ => true)]
      rw [heq] at h
      simp only [Outlook.behind, Bool.and_false, Bool.not_false, Bool.true_and, Bool.and_eq_true,
        Bool.or_eq_true, Bool.not_eq_true'] at h
      obtain ⟨hup, ⟨hbelow, hends⟩ | hloses⟩ := h
      · -- an error is met below: from here on siblings may be skipped
        refine ⟨fun m => decide (m ∈ rest.names), fun m hm => ?_, ?_⟩
        · exact List.mem_cons_of_mem _ (of_decide_eq_true hm)
        · have hagree : ∀ m ∈ rest.names, decide (m ∈ rest.names) = true :=
            fun m hm => decide_eq_true hm
          rw [heq, Outlook.behind, hup, hbelow, decide_eq_false hname,
            outlook_ends_congr rest n hagree, hends, Bool.and_false]
          rfl
      · rw [hup] at heq
        exact .behind .sub hname (fun B => heq B B) (ihRest n hrest hloses)

/-! ## The walk -/

variable {dirpath : Bytes}

theorem enterState_failed (o : FtwOpts) (dirpath : Bytes) : (enterState o dirpath).failed = false := by
  rw [enterState]
  split <;> exact (rootState_calls dirpath).2.2.2

theorem matchStart_failed (a : FtwData) (m : Bytes → Nat → Bool) (n : Nat) (s : FtwState) :
    (matchStart a m n s).2.failed = s.failed := by
  rw [matchStart]
  split
  · rfl
  · split
    · split <;> rfl
    · rfl

/-- No error is met where the start is not a directory. -/
theorem ioFtwLen_file_failed (a : FtwData) (type : FileType) (hne : dirpath ≠ [])
    (hlen : dirpath.length < ioPathMax) : (ioFtwLen a (.file type) dirpath).2.failed = false := by
  rcases ioFtwLen_file a type hne hlen with ⟨-, h⟩ | ⟨-, s₁, hs₁, h⟩
  · rw [h]
    rfl
  · have hf : s₁.failed = false := by
      rcases hs₁ with ⟨-, rfl⟩ | ⟨m, -, rfl⟩
      · rfl
      · rw [matchStart_failed]
        rfl
    rcases h with h | h <;> rw [h] <;> exact hf

/-- A walk that is not stopped at the start goes below. -/
theorem ioFtwLen_of_neverStops (hnever : NeverStops a) (dirErr : Option Errno) (entries : Dir)
    (hne : dirpath ≠ []) (hlen : dirpath.length < ioPathMax) :
    ioFtwLen a (.dir dirErr entries) dirpath
      = walkFrom a dirErr entries (startPath dirpath).length (enterState a.opts dirpath) := by
  rcases ioFtwLen_enter a dirErr entries hne hlen with ⟨⟨log, hlog⟩, -⟩ | h
  · exact absurd hlog (hnever log)
  · exact h

theorem errorsReturned_unopened {e : Errno} {entries : Dir} (hne : dirpath ≠ [])
    (hlen : dirpath.length < ioPathMax) : ErrorsReturned o (.dir (some e) entries) dirpath := by
  intro a ha hnever hf
  rw [ioFtwLen_of_neverStops hnever (some e) entries hne hlen] at hf ⊢
  obtain ⟨hret, hfailed⟩ := unopened_ret a [] e (startPath dirpath).length (enterState a.opts dirpath)
  have hfatal : (unopened a [] e (startPath dirpath).length (enterState a.opts dirpath)).2.failed
      = true := hf
  rw [hfailed, enterState_failed, Bool.false_or, Bool.not_eq_true'] at hfatal
  rw [hfatal, if_neg Bool.false_ne_true] at hret
  exact congrArg RetTy.toInt hret

theorem errorsReturned_below {entries : Dir} (hne : dirpath ≠ [])
    (hlen : dirpath.length < ioPathMax) (h0 : 0 ∉ dirpath) (hdis : entries.Distinct) :
    ErrorsReturned o (.dir none entries) dirpath ↔ NothingLost o dirpath (.dir none entries) := by
  have hreads := fun a => (readLoop_reads a entries [] (startPath dirpath) (enterState o dirpath)
    (noNul_startPath h0) (by rw [enterState_dirpath]; exact List.prefix_append _ _)).1
  have hstop := enterState_actionStop o dirpath
  rw [NothingLost]
  refine ⟨fun hret => ?_, fun hlost a ha hnever hf => ?_⟩
  · by_contra hloses
    obtain ⟨B, -, hB⟩ := outlook_loses entries _ hdis (Bool.not_eq_false _ |>.mp hloses)
    have hsk := skipping_skips o B
    obtain ⟨hsucc, hfailed⟩ := ((hreads (skipping o B)).brought hsk rfl hstop).loses hB
    have hres := hret (skipping o B) rfl hsk.never
    rw [ioFtwLen_of_neverStops hsk.never none entries hne hlen] at hres
    have herr : (readLoop (skipping o B) entries [] (startPath dirpath).length
        (enterState o dirpath)).1.toInt = -1 := hres hfailed
    rw [hsucc] at herr
    cases herr
  · subst ha
    rw [ioFtwLen_of_neverStops hnever none entries hne hlen] at hf ⊢
    have hfore := (hreads a).foreseen hnever hstop
    show (readLoop a entries [] (startPath dirpath).length (enterState a.opts dirpath)).1.toInt = -1
    cases hr : (readLoop a entries [] (startPath dirpath).length (enterState a.opts dirpath)).1 with
    | err => rfl
    | succ =>
        rcases hfore.loses hr hf with h | h
        · rw [enterState_failed] at h
          cases h
        · rw [hlost] at h
          cases h

/-- Errors are returned, whatever the callbacks are, as long as they do not
stop the walk, where none can be lost. -/
theorem errorsReturned_iff (o : FtwOpts) (start : Start) (h0 : 0 ∉ dirpath)
    (hdis : ∀ dirErr entries, start = .dir dirErr entries → entries.Distinct) :
    ErrorsReturned o start dirpath ↔
      dirpath = [] ∨ ioPathMax ≤ dirpath.length ∨ NothingLost o dirpath start := by
  refine iff_of_badPath (fun hbad a _ _ _ => ?_) fun hne hlen => ?_
  · unfold ioFtwLen
    rw [if_pos hbad]
  cases start with
  | refused =>
      refine ⟨fun _ => trivial, fun _ a _ _ _ => ?_⟩
      unfold ioFtwLen
      rw [if_neg (walked_path hne hlen)]
  | file type =>
      refine ⟨fun _ => trivial, fun _ a _ _ hf => ?_⟩
      rw [ioFtwLen_file_failed a type hne hlen] at hf
      cases hf
  | dir dirErr entries =>
      cases dirErr with
      | some e => exact ⟨fun _ => trivial, fun _ => errorsReturned_unopened hne hlen⟩
      | none => exact errorsReturned_below hne hlen h0 (hdis none entries rfl)

/-- In `/t` there is a directory that cannot be read, and a file. -/
theorem errorsReturned_iff_t :
    let o : FtwOpts := ⟨true, false, false, true, false, false, false, false⟩
    let d : Name := ⟨[100], by decide, by decide, by decide, by decide⟩
    let a : Name := ⟨[97], by decide, by decide, by decide, by decide⟩
    let start : Start := .dir none (.sub d none (some .other) .done (.file a .reg .done))
    ErrorsReturned o start [47, 116] ↔
      ([47, 116] : Bytes) = [] ∨ ioPathMax ≤ ([47, 116] : Bytes).length ∨
        NothingLost o [47, 116] start := by
  intro o d a start
  refine errorsReturned_iff o start (by decide) fun dirErr entries h => ?_
  cases (show Start.dir none (.sub d none (some .other) .done (.file a .reg .done))
    = .dir dirErr entries from h)
  exact ⟨by decide, trivial, by decide, trivial⟩

/-- With `ACTIONRETVAL` the error is lost. -/
theorem not_errorsReturned_t :
    ¬ErrorsReturned ⟨true, false, false, true, false, false, false, true⟩
      (.dir none (.sub ⟨[100], by decide, by decide, by decide, by decide⟩ none (some .other) .done
        .done)) [47, 116] := by
  intro h
  have hret := h (skipping ⟨true, false, false, true, false, false, false, true⟩ fun _ => false) rfl
    (skipping_neverStops _ _) (by decide)
  exact absurd hret (by decide)

end Errors

end Jstr
