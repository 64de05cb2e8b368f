import Jstring.FtwSteps

/-!
# The order of the calls

On a tree of regular files and directories, without errors and with every
path within the limit, the walk is a guided traversal: `FUNC` is called on
the nodes of `forest` in preorder, and each answer prunes what it says.

- `forest`: the tree with what the flags and `FUNC_MATCH` leave to report;
- `readLoop_visit`: the loop of a directory, nested ones included;
- `reference_of_proceed`: with nothing cut short it is the preorder;
- `ioFtwLen_calls`: the whole walk.
-/

namespace Jstr

open Traversal

/-! ## The reference -/

/-- Regular files and directories, no errors; every path fits with its
terminator. -/
def Sound : Dir → Nat → Prop
  | .done, _ => True
  | .file name type rest, n =>
    type = .reg ∧ n + 1 + name.chrs.length + 1 ≤ ioPathMax ∧ Sound rest n
  | .lost _ _ _, _ => False
  | .sub name openErr dirErr inner rest, n =>
    openErr = none ∧ dirErr = none ∧ n + 1 + name.chrs.length + 1 ≤ ioPathMax ∧
      Sound inner (n + 1 + name.chrs.length) ∧ Sound rest n

/-- What there is to report: ignored entries are dropped with what is below
them, files that are not reported and directories that are not have no
label, and `NOSUBDIR` leaves directories empty. -/
def forest (a : FtwData) : Dir → List Name → Bytes → Forest FtwCall
  | .done, _, _ => .nil
  | .file name type rest, c, p =>
    if a.opts.ignored name then forest a rest c p
    else
      .node (if a.opts.reports type && a.accepts p name then some (callAt c p name) else none)
        .nil (forest a rest c p)
  | .lost _ _ rest, c, p => forest a rest c p
  | .sub name _ _ inner rest, c, p =>
    if a.opts.ignored name then forest a rest c p
    else
      .node (if a.opts.reportsDirs then some (callAt c p name) else none)
        (if a.opts.nosubdir then .nil else forest a inner (c ++ [name]) (under p name))
        (forest a rest c p)

/-- The calls of a walk from the directory `start`. Nothing is skipped on
account of what is answered for `start` itself. -/
def reference (a : FtwData) (entries : Dir) (start : Bytes) : List FtwCall :=
  if a.opts.reportsDirs then
    if a.answer [⟨[], start, start.length⟩] = .stop then [⟨[], start, start.length⟩]
    else (visit a.answer (forest a entries [] start) [⟨[], start, start.length⟩]).2
  else (visit a.answer (forest a entries [] start) []).2

section Order

variable {a : FtwData} {c : List Name} {p : Bytes} {name : Name} {s : FtwState}

theorem tooLong_of_fits (o : FtwOpts) {n : Nat} (h : n + 1 + name.chrs.length + 1 ≤ ioPathMax) :
    o.tooLong n name = false := by
  rw [FtwOpts.tooLong]
  split
  · exact decide_eq_false (by omega)
  · exact decide_eq_false (by omega)

/-! ## The loop -/

/-- How a loop over a directory at `p` ends when the traversal ends as `v`. -/
structure Walked (a : FtwData) (p : Bytes) (v : Bool × List FtwCall) (r : RetTy × FtwState) :
    Prop where
  calls : r.2.calls = v.2
  ends : r.1 = if v.1 && !a.opts.actionretval then .err else .succ
  stop : r.2.actionStop = (v.1 && a.opts.actionretval)
  buf : p <+: r.2.dirpath

/-- A stop ends the loop. -/
theorem stopPiece_walked (hp : p <+: s.dirpath) (hstop : s.actionStop = false)
    (k : FtwState → RetTy × FtwState) :
    Walked a p (true, s.calls) ((stopPiece a s).settle k) := by
  rw [stopPiece]
  by_cases hact : a.opts.actionretval
  · rw [if_pos hact]
    exact ⟨rfl, by rw [hact]; rfl, by rw [hact]; rfl, hp⟩
  · rw [if_neg hact]
    have hoff : a.opts.actionretval = false := Bool.not_eq_true _ |>.mp hact
    exact ⟨rfl, by rw [hoff]; rfl, by rw [hoff]; exact hstop, hp⟩

/-- What follows a nested walk. -/
theorem nested_walked {v : Bool × List FtwCall} {r : RetTy × FtwState} {q : Bytes}
    (h : Walked a q v r) (hpq : p <+: q) {k : FtwState → RetTy × FtwState}
    {w : Bool × List FtwCall}
    (hk : ∀ s, s.calls = v.2 → s.actionStop = false → p <+: s.dirpath → Walked a p w (k s)) :
    Walked a p (if v.1 then v else w) ((nested a r).settle k) := by
  have hbuf := hpq.trans h.buf
  have hends := h.ends
  have hstop := h.stop
  rw [nested]
  by_cases hact : a.opts.actionretval
  · rw [hact, Bool.and_true] at hstop
    rw [if_pos hact, hstop]
    by_cases hv : v.1
    · rw [if_pos hv, if_pos hv]
      exact ⟨h.calls, by rw [hv, hact]; rfl, hstop.trans (by rw [hact, Bool.and_true]), hbuf⟩
    · rw [if_neg hv, if_neg hv]
      exact hk _ h.calls (by rw [hstop]; exact Bool.not_eq_true _ |>.mp hv) hbuf
  · have hoff : a.opts.actionretval = false := Bool.not_eq_true _ |>.mp hact
    rw [hoff, Bool.not_false, Bool.and_true] at hends
    rw [hoff, Bool.and_false] at hstop
    rw [if_neg hact, hends]
    by_cases hv : v.1
    · rw [if_pos hv, if_pos hv, if_pos rfl]
      exact ⟨h.calls, by rw [hv, hoff]; rfl, by rw [hoff, Bool.and_false]; exact hstop, hbuf⟩
    · rw [if_neg hv, if_neg hv, if_neg (by decide)]
      exact hk _ h.calls hstop hbuf

/-- The loops over `d` go as the traversals of its forest. -/
def Visits (a : FtwData) (d : Dir) (c : List Name) (p : Bytes) : Prop :=
  ∀ s : FtwState, p <+: s.dirpath → s.actionStop = false →
    Walked a p (visit a.answer (forest a d c p) s.calls) (readLoop a d c p.length s)

/-- Behind a directory that is not skipped, which is read or not. -/
theorem below_walked {inner rest : Dir} (hinner : Visits a inner (c ++ [name]) (under p name))
    (hrest : Visits a rest c p) (hpath : a.opts.nosubdir = false → PathIs (under p name) s)
    (hp : p <+: s.dirpath) (hstop : s.actionStop = false) :
    Walked a p (visit a.answer (.node none (if a.opts.nosubdir then .nil
        else forest a inner (c ++ [name]) (under p name)) (forest a rest c p)) s.calls)
      (((gate a none s).andThen fun s => nested a
        (readLoop a inner (c ++ [name]) s.dirpathLen s)).settle (readLoop a rest c p.length)) := by
  rw [visit_none]
  by_cases hsub : a.opts.nosubdir = true
  · rw [if_pos hsub, gate, if_pos hsub]
    exact hrest s hp hstop
  · have hpath' := hpath (Bool.not_eq_true _ |>.mp hsub)
    have hgate : gate a none s = (.on, s) := by
      rw [gate, if_neg hsub]
      split <;> rfl
    rw [if_neg hsub, hgate]
    simp only [Piece.andThen]
    have hunder : under p name <+: s.dirpath := by
      rw [← hpath'.path]
      exact List.takeWhile_prefix _
    rw [hpath'.len]
    refine nested_walked (hinner s hunder hstop) ?_ ?_
    · rw [under]
      exact List.prefix_append _ _
    · intro s₂ hc₂ hstop₂ hp₂
      rw [← hc₂]
      exact hrest s₂ hp₂ hstop₂

theorem stopPiece_andThen (a : FtwData) (s : FtwState) (k : FtwState → Piece) :
    (stopPiece a s).andThen k = stopPiece a s := by
  rw [stopPiece]
  split <;> rfl

/-- A sound directory is walked as its forest is traversed. -/
theorem readLoop_visit (a : FtwData) (d : Dir) : ∀ (c : List Name) (p : Bytes) (s : FtwState),
    Sound d p.length → 0 ∉ p → p <+: s.dirpath → s.actionStop = false →
    Walked a p (visit a.answer (forest a d c p) s.calls) (readLoop a d c p.length s) := by
  induction d with
  | done =>
      intro c p s _ _ hp hstop
      exact ⟨rfl, rfl, hstop, hp⟩
  | lost name e rest ih => exact fun c p s h => absurd h not_false
  | file name type rest ih =>
      rintro c p s ⟨-, hfits, hrest⟩ h0 hp hstop
      rw [readLoop, forest]
      by_cases hi : a.opts.ignored name = true
      · rw [if_pos hi, fileEntry, screen_ignored _ hi]
        exact ih c p s hrest h0 hp hstop
      rw [if_neg hi]
      obtain ⟨ms, s', -, hready, hpath, hrun⟩ := fileEntry_eq c (Bool.not_eq_true _ |>.mp hi)
        (tooLong_of_fits a.opts hfits) hp h0 type
      have hp' := hready.dirpath_prefix hp
      have hstop' := hready.stop.trans hstop
      rw [hrun]
      by_cases hrep : (a.opts.reports type && a.accepts p name) = true
      · have hcalls : (s'.called (c ++ [name])).calls = s.calls ++ [callAt c p name] := by
          rw [called_calls (hpath hrep), hready.calls]
          rfl
        have hnext := ih c p (s'.called (c ++ [name])) hrest h0 hp' hstop'
        rw [if_pos hrep, if_pos hrep, func_eq, hcalls, visit]
        rw [hcalls] at hnext
        cases hans : a.answer (s.calls ++ [callAt c p name]) with
        | proceed => exact hnext
        | skipSubtree => exact hnext
        | skipSiblings => exact ⟨hcalls, rfl, hstop', hp'⟩
        | stop =>
            rw [← hcalls]
            exact @stopPiece_walked a p (s'.called (c ++ [name])) hp' hstop' _
      · rw [if_neg hrep, if_neg hrep, visit]
        have hnext := ih c p s' hrest h0 hp' hstop'
        rw [hready.calls] at hnext
        exact hnext
  | sub name openErr dirErr inner rest ihInner ihRest =>
      rintro c p s ⟨rfl, rfl, hfits, hinner, hrest⟩ h0 hp hstop
      rw [readLoop, forest]
      by_cases hi : a.opts.ignored name = true
      · rw [if_pos hi, dirEntry, screen_ignored _ hi]
        exact ihRest c p s hrest h0 hp hstop
      rw [if_neg hi]
      obtain ⟨s', hready, hpath, hrun⟩ := dirEntry_eq c (Bool.not_eq_true _ |>.mp hi)
        (tooLong_of_fits a.opts hfits) hp h0 none
      have hp' := hready.dirpath_prefix hp
      have hstop' := hready.stop.trans hstop
      have hin : Visits a inner (c ++ [name]) (under p name) :=
        fun s => ihInner _ _ s (by rwa [length_under]) (noNul_under h0 name)
      have hre : Visits a rest c p := fun s => ihRest c p s hrest h0
      rw [hrun]
      by_cases hrep : a.opts.reportsDirs = true
      · have hcalls : (s'.called (c ++ [name])).calls = s.calls ++ [callAt c p name] := by
          rw [called_calls (hpath (.inr hrep)), hready.calls]
          rfl
        rw [if_pos hrep, if_pos hrep, funcDir_eq, hcalls]
        cases hans : a.answer (s.calls ++ [callAt c p name]) with
        | proceed =>
            rw [visit_proceed hans, ← hcalls]
            exact @below_walked a c p name (s'.called (c ++ [name])) _ _ hin hre
              (fun hsub => ⟨(hpath (.inl hsub)).path, (hpath (.inl hsub)).len⟩) hp' hstop'
        | skipSubtree =>
            have hnext := ihRest c p (s'.called (c ++ [name])) hrest h0 hp' hstop'
            rw [visit, hans]
            rw [hcalls] at hnext
            exact hnext
        | skipSiblings =>
            rw [visit, hans]
            exact ⟨hcalls, rfl, hstop', hp'⟩
        | stop =>
            rw [visit, hans, ← hcalls]
            simp only [stopPiece_andThen]
            exact @stopPiece_walked a p (s'.called (c ++ [name])) hp' hstop' _
      · have hnext := below_walked hin hre (fun hsub => hpath (.inl hsub)) hp' hstop'
        rw [hready.calls] at hnext
        rw [if_neg hrep, if_neg hrep]
        exact hnext

/-! ## The walk -/

/-- Where `FUNC` lets everything pass the reference is the preorder. -/
theorem reference_of_proceed (h : ∀ log, a.answer log = .proceed) (entries : Dir) (start : Bytes) :
    reference a entries start = (if a.opts.reportsDirs then [⟨[], start, start.length⟩] else [])
      ++ (forest a entries [] start).preorder := by
  have hno : ¬Answer.proceed = Answer.stop := by decide
  rw [reference, h, if_neg hno]
  split
  · rw [visit_of_proceed h]
  · rw [visit_of_proceed h]

/-- A walk from a directory other than `/`: the calls of `FUNC` are those of
the reference, and none follows one that was answered with a stop. -/
theorem ioFtwLen_calls (a : FtwData) {dirpath : Bytes} {entries : Dir} (hne : dirpath ≠ [])
    (hlen : dirpath.length < ioPathMax) (h0 : 0 ∉ dirpath) (hroot : startPath dirpath ≠ [47])
    (hs : Sound entries (startPath dirpath).length) :
    (ioFtwLen a (.dir none entries) dirpath).2.calls = reference a entries (startPath dirpath) ∧
      ∀ m, m ≠ [] → m <+: (ioFtwLen a (.dir none entries) dirpath).2.calls → a.answer m = .stop →
        m = (ioFtwLen a (.dir none entries) dirpath).2.calls := by
  have hroot' : rootState dirpath = startState dirpath := if_neg hroot
  have hnul := noNul_startPath h0
  have hcalls : ((startState dirpath).called []).calls
      = [⟨[], startPath dirpath, (startPath dirpath).length⟩] := by
    rw [called_calls (startState_pathIs h0)]
    rfl
  have hbuf : startPath dirpath <+: (startState dirpath).dirpath := List.prefix_append _ _
  obtain ⟨r, hrun⟩ := ioFtwLen_dir a none entries hne hlen
  rw [hrun, hroot', reference]
  by_cases hrep : a.opts.reportsDirs = true
  · rw [if_pos hrep, if_pos hrep, hcalls]
    by_cases hstop : a.answer [⟨[], startPath dirpath, (startPath dirpath).length⟩] = .stop
    · rw [if_pos hstop, if_pos hstop]
      refine ⟨hcalls, fun m hm hpre _ => ?_⟩
      rw [hcalls] at hpre ⊢
      exact hpre.eq_of_length_le (List.length_pos_iff.mpr hm)
    · rw [if_neg hstop, if_neg hstop]
      have hw := readLoop_visit a entries [] (startPath dirpath) ((startState dirpath).called [])
        hs hnul hbuf rfl
      rw [hcalls] at hw
      refine ⟨hw.calls, fun m hm hpre hans => ?_⟩
      have hlog : (walkFrom a none entries (startPath dirpath).length
          ((startState dirpath).called [])).2.calls = _ := hw.calls
      rw [hlog] at hpre ⊢
      rcases Nat.lt_or_ge 1 m.length with hlong | hshort
      · exact (visit_stop a.answer (forest a entries [] (startPath dirpath))
          [⟨[], startPath dirpath, (startPath dirpath).length⟩] m hlong hpre hans).1
      · -- the first call is the one that was not answered so
        obtain ⟨l, hl, -⟩ := visit_sublist a.answer (forest a entries [] (startPath dirpath))
          [⟨[], startPath dirpath, (startPath dirpath).length⟩]
        rw [hl] at hpre
        have hone := List.prefix_of_prefix_length_le hpre (List.prefix_append _ l) hshort
        rw [hone.eq_of_length_le (List.length_pos_iff.mpr hm)] at hans
        exact absurd hans hstop
  · rw [if_neg hrep, if_neg hrep]
    have hw := readLoop_visit a entries [] (startPath dirpath) (startState dirpath) hs hnul hbuf rfl
    refine ⟨hw.calls, fun m hm hpre hans => ?_⟩
    have hlog : (walkFrom a none entries (startPath dirpath).length
        (startState dirpath)).2.calls = _ := hw.calls
    rw [hlog] at hpre ⊢
    exact (visit_stop a.answer (forest a entries [] (startPath dirpath)) [] m
      (List.length_pos_iff.mpr hm) hpre hans).1

/-- In `/t` there is a directory `d` with a file `a`, and a file `b`. -/
theorem ioFtwLen_calls_t :
    let d : Name := ⟨[100], by decide, by decide, by decide, by decide⟩
    let a : Name := ⟨[97], by decide, by decide, by decide, by decide⟩
    let b : Name := ⟨[98], by decide, by decide, by decide, by decide⟩
    let walk : FtwData := ⟨⟨true, false, false, true, true, false, true, true⟩, fun _ => 1, none⟩
    let entries : Dir := .sub d none none (.file a .reg .done) (.file b .reg .done)
    (ioFtwLen walk (.dir none entries) [47, 116]).2.calls
        = reference walk entries (startPath [47, 116]) ∧
      ∀ m, m ≠ [] → m <+: (ioFtwLen walk (.dir none entries) [47, 116]).2.calls →
        walk.answer m = .stop → m = (ioFtwLen walk (.dir none entries) [47, 116]).2.calls := by
  intro d a b walk entries
  exact ioFtwLen_calls walk (by decide) (by decide) (by decide) (by decide)
    ⟨rfl, rfl, by decide, ⟨rfl, by decide, trivial⟩, rfl, by decide, trivial⟩

end Order

end Jstr
