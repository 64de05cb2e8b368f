import Jstring.Builder

/-!
# Runs of calls on one string

`Call` is one call of the growing interface with its arguments, `effect`
what it does to the content as a list of bytes. Two laws over runs that
start at `JSTR_INIT`:

- `runLaw_of_meets`: in a run of successful calls that meet their
  conditions the record is unallocated or terminated with room to spare,
  the content is the list effect of the calls, and the next call that
  meets its condition touches nothing outside the block;
- `errAtomic_iff`: a call that fails leaves the record as it was, unless
  one of the exact reserve routines had already recorded the capacity.
-/

namespace Jstr

/-! ## Calls -/

/-- A call with its arguments; `popback` and `popfront` store the returned
end as the size. -/
inductive Call where
  | append (src : Bytes)
  | prepend (src : Bytes)
  | assign (src : Bytes)
  | assignnchr (c : UInt8) (n : Nat)
  | pushback (c : UInt8)
  | pushbackn (c : UInt8) (n : Nat)
  | pushfront (c : UInt8)
  | pushfrontn (c : UInt8) (n : Nat)
  | cat (args : List Bytes)
  | insert (at' : Nat) (src : Bytes)
  | popback
  | popfront
  | reserve (newCap : Nat)
  | reservealways (newCap : Nat)
  | reserveexact (newCap : Nat)
  | reserveexactalways (newCap : Nat)
  | shrinkToFit

namespace Call

def exec (al : Alloc) (j : JstrTy) : Call → Run (RetTy × JstrTy)
  | append src => appendLen al j src
  | prepend src => prependLen al j src
  | assign src => assignLen al j src
  | assignnchr c n => Jstr.assignnchr al j c n
  | pushback c => Jstr.pushback al j c
  | pushbackn c n => Jstr.pushbackn al j c n
  | pushfront c => Jstr.pushfront al j c
  | pushfrontn c n => Jstr.pushfrontn al j c n
  | cat args => Jstr.cat al j args
  | insert at' src => insertLen al j at' src
  | popback => popbackP j
  | popfront => popfrontP j
  | reserve n => Jstr.reserve al j n
  | reservealways n => Jstr.reservealways al j n
  | reserveexact n => Jstr.reserveexact al j n
  | reserveexactalways n => Jstr.reserveexactalways al j n
  | shrinkToFit => Jstr.shrinkToFit al j

/-- What a call means for the content. -/
def effect (l : Bytes) : Call → Bytes
  | append src => l ++ src
  | prepend src => src ++ l
  | assign src => src
  | assignnchr c n => List.replicate n c
  | pushback c => l ++ [c]
  | pushbackn c n => l ++ List.replicate n c
  | pushfront c => c :: l
  | pushfrontn c n => List.replicate n c ++ l
  | cat args => l ++ args.flatten
  | insert at' src => l.take at' ++ src ++ l.drop at'
  | popback => l.dropLast
  | popfront => l.tail
  | reserve _ | reservealways _ | reserveexact _ | reserveexactalways _ | shrinkToFit => l

/-- The calls that are there to change the content. -/
def Changes : Call → Prop
  | reserve _ | reservealways _ | reserveexact _ | reserveexactalways _ | shrinkToFit => False
  | _ => True

/-- The bytes passed to a call. -/
def given : Call → Bytes
  | append src | prepend src | assign src | insert _ src => src
  | assignnchr c n | pushbackn c n | pushfrontn c n => List.replicate n c
  | pushback c | pushfront c => [c]
  | cat args => args.flatten
  | _ => []

end Call

/-- The content after the calls, in the order made. -/
def effects (cs : List Call) : Bytes := cs.foldl Call.effect []

/-- Some call was there to change the content. -/
def Changed (cs : List Call) : Prop := ∃ c ∈ cs, c.Changes

theorem effects_concat (cs : List Call) (c : Call) : effects (cs ++ [c]) = c.effect (effects cs) := by
  rw [effects, List.foldl_append]
  rfl

theorem Call.effect_of_not_changes {c : Call} (h : ¬ c.Changes) (l : Bytes) : c.effect l = l := by
  cases c <;> first | rfl | exact absurd trivial h

theorem changed_concat {cs : List Call} {c : Call} :
    Changed (cs ++ [c]) ↔ Changed cs ∨ c.Changes := by
  simp only [Changed, List.mem_append, List.mem_singleton, or_and_right, exists_or,
    exists_eq_left]

theorem effects_of_not_changed {cs : List Call} (h : ¬ Changed cs) : effects cs = [] := by
  induction cs using List.reverseRecOn with
  | nil => rfl
  | append_singleton cs c ih =>
      rw [changed_concat, not_or] at h
      rw [effects_concat, Call.effect_of_not_changes h.2, ih h.1]

/-! ## Runs of successful calls -/

/-- The states reached from `JSTR_INIT` by successful calls, each of them
allowed by `ok` where it was made. -/
inductive Runs (ok : List Call → JstrTy → Call → Prop) : List Call → JstrTy → Prop
  | init : Runs ok [] JstrTy.init
  | call {cs j j' c} (al : Alloc) : Runs ok cs j → ok cs j c → c.exec al j = .ok (.succ, j') →
      Runs ok (cs ++ [c]) j'

/-- What is promised of a run: the content, the terminator once the
content was touched, and that the next call stays inside the block. -/
structure RunLaw (ok : List Call → JstrTy → Call → Prop) (cs : List Call) (j : JstrTy) :
    Prop where
  content : Content j (effects cs)
  ended : Changed cs → Ended j
  access : ∀ al c f, ok cs j c → c.exec al j = .error f → f = .diverge

/-- `size + n + 1` does not wrap. -/
def Fits (j : JstrTy) (n : Nat) : Prop := j.size + n + 1 ≤ sizeMax

/-- Where the run law was promised for: the calls it lists, no NUL among
the bytes, sizes that do not wrap, `shrink_to_fit` on a non-empty string. -/
def Call.Listed (_ : List Call) (j : JstrTy) (c : Call) : Prop :=
  0 ∉ c.given ∧ Fits j c.given.length ∧
  match c with
  | .shrinkToFit => j.size ≠ 0
  | .insert _ _ | .reservealways _ | .reserveexact _ | .reserveexactalways _ => False
  | _ => True

/-- Reserving first moves an unallocated string to a block without a
terminator: fine until something counts on the terminator. -/
def MayAllocate (cs : List Call) (j : JstrTy) : Prop := j.data = none → ¬ Changed cs

/-- When a call keeps the run law. -/
def Call.Meets (cs : List Call) (j : JstrTy) : Call → Prop
  | .append src | .prepend src | .assign src => Fits j src.length
  | .assignnchr _ n => n + 1 ≤ sizeMax ∧ (n = 0 → j.data ≠ none)
  | .pushback _ | .pushfront _ => Fits j 1
  | .pushbackn _ n => Fits j n ∧ j.size + n < j.capacity ∧ j.byte? (j.size + n) = some 0
  | .pushfrontn _ n => Fits j n
  | .cat args => Fits j args.flatten.length ∧ (args.flatten = [] → Ended j)
  | .insert at' src => Fits j src.length ∧ at' ≤ j.size ∧ j.data ≠ none ∧ Ended j
  | .popback | .popfront => j.size = 0 → Ended j
  | .reserve n | .reserveexact n => n = 0 ∨ MayAllocate cs j
  | .reservealways _ => MayAllocate cs j
  | .reserveexactalways n => n = 0 ∨ j.size < n ∧ MayAllocate cs j
  | .shrinkToFit => Fits j 0 ∧ MayAllocate cs j

/-! ## One call -/

/-- A call that may move the block where `ma` holds, keeping what it has. -/
def Keeps (j : JstrTy) (ma : Prop) : Run (RetTy × JstrTy) → Prop
  | .error f => f = .diverge
  | .ok (.err, _) => True
  | .ok (.succ, j') => Kept j j' ∧ (ma ∨ j' = j)

theorem Safe.keeps {j : JstrTy} {n : Nat} {ma : Prop} {r : Run (RetTy × JstrTy)}
    (h : Safe j (Grown j n) r) (hn : 0 < n) (ha : ma) : Keeps j ma r := by
  rcases r with f | ⟨_ | _, j'⟩
  · exact h
  · trivial
  · exact ⟨h.kept hn, .inl ha⟩

theorem reserveexactalways_keeps {al : Alloc} {j : JstrTy} {n : Nat} {ma : Prop}
    (hn : n = 0 ∨ j.size < n ∧ ma) : Keeps j ma (reserveexactalways al j n) := by
  rcases h : reserveexactalways al j n with f | ⟨r, j'⟩
  · rw [reserveexactalways] at h
    split at h
    · simp only at h
      split at h <;> cases h
    · cases h
  · rcases reserveexactalways_spec h with ⟨_, rfl, rfl⟩ | ⟨_, _, rfl, _⟩ | ⟨tmp, h0, hr, rfl, rfl⟩
    · exact ⟨Kept.refl _, .inr rfl⟩
    · trivial
    · obtain ⟨hlt, ha⟩ := hn.resolve_left h0
      exact ⟨kept_exact hlt hr, .inl ha⟩

/-- A call that is there to change the content does so and ends it. -/
theorem Call.exec_changes {al : Alloc} {cs : List Call} {j : JstrTy} {l : Bytes} {c : Call}
    (hc : Content j l) (he : l ≠ [] → Ended j) (hm : c.Meets cs j) (hch : c.Changes) :
    Safe j (fun j' => Content j' (c.effect l) ∧ Ended j') (c.exec al j) := by
  have of_str {l'} {r} (h : Safe j (fun j' => Str j' l') r) :
      Safe j (fun j' => Content j' l' ∧ Ended j') r :=
    h.mono fun j' hs => ⟨hs.content, hs.ended⟩
  have hsz := hc.size
  have hpop (h : j.size = 0 → Ended j) : Ended j := by
    by_cases hl : l = []
    · exact h (by rw [hsz, hl]; rfl)
    · exact he hl
  cases c with
  | append src => exact of_str (appendLen_spec hc (by rw [← hsz]; exact hm))
  | prepend src => exact of_str (prependLen_spec hc (by rw [← hsz]; exact hm))
  | assign src => exact of_str (assignLen_spec hc (by rw [← hsz]; exact hm))
  | assignnchr c n => exact of_str (assignnchr_spec c hc hm.1 hm.2)
  | pushback c => exact of_str (pushback_spec c hc (by rw [← hsz]; exact hm))
  | pushbackn c n =>
      obtain ⟨hfit, hroom, hz⟩ := hm
      rw [Fits, hsz] at hfit
      rw [hsz] at hroom hz
      exact of_str (pushbackn_spec c hc hfit hroom hz)
  | pushfront c => exact of_str (pushfront_spec c hc (by rw [← hsz]; exact hm))
  | pushfrontn c n => exact of_str (pushfrontn_spec c hc (by rw [← hsz]; exact hm))
  | cat args => exact cat_spec hc (by rw [← hsz]; exact hm.1) hm.2
  | insert at' src =>
      obtain ⟨hfit, hat, hd, hend⟩ := hm
      rw [Fits, hsz] at hfit
      exact of_str (insertLen_spec (hc.str hd hend) hfit (by omega))
  | popback => exact popbackP_spec hc fun h => hm (by rw [hsz, h]; rfl)
  | popfront => exact popfrontP_spec hc (hpop hm)
  | reserve n => exact hch.elim
  | reservealways n => exact hch.elim
  | reserveexact n => exact hch.elim
  | reserveexactalways n => exact hch.elim
  | shrinkToFit => exact hch.elim

/-- The other calls keep content and terminator, and leave a string
unallocated when they were not allowed to allocate it. -/
theorem Call.exec_keeps {al : Alloc} {cs : List Call} {j : JstrTy} {l : Bytes} {c : Call}
    (hc : Content j l) (hm : c.Meets cs j) (hch : ¬ c.Changes) :
    Keeps j (MayAllocate cs j) (c.exec al j) := by
  cases c with
  | reserve n =>
      rw [exec]
      by_cases hn : n = 0
      · rw [hn, Jstr.reserve, if_pos (Nat.zero_le _)]
        exact ⟨Kept.refl _, .inr rfl⟩
      · have hpos := Nat.pos_of_ne_zero hn
        exact (reserve_spec hc.backed hpos).keeps hpos (hm.resolve_left hn)
  | reservealways n =>
      exact (reservealways_spec hc.backed n).keeps
        (Nat.lt_of_lt_of_le (by decide) (Nat.le_max_right n minCap)) hm
  | reserveexact n =>
      rw [exec, Jstr.reserveexact]
      split
      · exact ⟨Kept.refl _, .inr rfl⟩
      · rename_i hcap
        refine reserveexactalways_keeps ?_
        by_cases hn : n = 0
        · exact .inl hn
        · refine .inr ⟨?_, hm.resolve_left hn⟩
          rcases hc with ⟨rfl, rfl⟩ | ⟨b, hh⟩
          · exact Nat.pos_of_ne_zero hn
          · have := hh.lt
            have := hh.size
            have := hh.backed
            omega
  | reserveexactalways n => exact reserveexactalways_keeps hm
  | shrinkToFit =>
      have hfit : j.size + 1 ≤ sizeMax := hm.1
      rw [exec, Jstr.shrinkToFit, addSz_eq hfit]
      exact reserveexactalways_keeps (.inr ⟨Nat.lt_succ_self _, hm.2⟩)
  | append src => exact (hch trivial).elim
  | prepend src => exact (hch trivial).elim
  | assign src => exact (hch trivial).elim
  | assignnchr c n => exact (hch trivial).elim
  | pushback c => exact (hch trivial).elim
  | pushbackn c n => exact (hch trivial).elim
  | pushfront c => exact (hch trivial).elim
  | pushfrontn c n => exact (hch trivial).elim
  | cat args => exact (hch trivial).elim
  | insert at' src => exact (hch trivial).elim
  | popback => exact (hch trivial).elim
  | popfront => exact (hch trivial).elim

/-! ## The run law -/

/-- What holds of every state of a run: its content, and the terminator
once the content was touched. -/
structure RunInv (cs : List Call) (j : JstrTy) : Prop where
  content : Content j (effects cs)
  ended : Changed cs → Ended j

theorem runInv_init : RunInv [] JstrTy.init where
  content := .inl ⟨rfl, rfl⟩
  ended _ := .inl rfl

/-- A string with content was touched, so it is terminated. -/
theorem RunInv.ended_of_ne_nil {cs : List Call} {j : JstrTy} (h : RunInv cs j)
    (hl : effects cs ≠ []) : Ended j :=
  h.ended (not_not.mp fun hn => hl (effects_of_not_changed hn))

/-- One step of a run. -/
theorem RunInv.call {cs : List Call} {j j' : JstrTy} {c : Call} {al : Alloc}
    (h : RunInv cs j) (hm : c.Meets cs j) (hx : c.exec al j = .ok (.succ, j')) :
    RunInv (cs ++ [c]) j' := by
  by_cases hch : c.Changes
  · have hs := @Call.exec_changes al cs j _ c h.content h.ended_of_ne_nil hm hch
    rw [hx] at hs
    exact ⟨by rw [effects_concat]; exact hs.1, fun _ => hs.2⟩
  · have hk := @Call.exec_keeps al cs j _ c h.content hm hch
    rw [hx] at hk
    obtain ⟨hkept, hma⟩ := hk
    refine ⟨?_, fun hcs => ?_⟩
    · rw [effects_concat, Call.effect_of_not_changes hch]
      exact hkept.content _ h.content
    · have hcs' := (changed_concat.mp hcs).resolve_right hch
      have hend := h.ended hcs'
      by_cases hd : j.data = none
      · have hj := hma.resolve_left fun ha => ha hd hcs'
        rwa [hj]
      · exact (hkept.str _ (h.content.str hd hend)).ended

/-- The next call faults nowhere but in an endless loop. -/
theorem RunInv.access {cs : List Call} {j : JstrTy} (h : RunInv cs j) {c : Call}
    (hm : c.Meets cs j) {al : Alloc} {f : Fault} (hx : c.exec al j = .error f) :
    f = .diverge := by
  by_cases hch : c.Changes
  · have hs := @Call.exec_changes al cs j _ c h.content h.ended_of_ne_nil hm hch
    rw [hx] at hs
    exact hs
  · have hk := @Call.exec_keeps al cs j _ c h.content hm hch
    rw [hx] at hk
    exact hk

theorem Runs.inv {cs : List Call} {j : JstrTy}
    (h : Runs (fun cs j c => c.Meets cs j) cs j) : RunInv cs j := by
  induction h with
  | init => exact runInv_init
  | call al _ hm hx ih => exact ih.call hm hx

/-- In a run of successful calls that each meet their condition, the
record stays unallocated or holds the list effect of the calls with room
to spare, terminated once the content was touched, and no call that meets
its condition goes outside the block. -/
theorem runLaw_of_meets {cs : List Call} {j : JstrTy}
    (h : Runs (fun cs j c => c.Meets cs j) cs j) :
    RunLaw (fun cs j c => c.Meets cs j) cs j where
  content := h.inv.content
  ended := h.inv.ended
  access _ _ _ hm hx := h.inv.access hm hx

/-- `append "ab"`, `popfront`. -/
theorem runLaw_of_meets_appendPop :
    RunLaw (fun cs j c => c.Meets cs j) [.append [97, 98], .popfront]
      ⟨some ⟨0, [98, 0] ++ 0 :: List.replicate 21 1⟩, 1, 24⟩ := by
  have happend : Runs (fun cs j c => c.Meets cs j) [.append [97, 98]]
      ⟨some ⟨0, [97, 98, 0] ++ List.replicate 21 1⟩, 2, 24⟩ :=
    .call (Alloc.filling 0 1) .init (show 0 + 2 + 1 ≤ sizeMax by decide) rfl
  exact runLaw_of_meets (happend.call (Alloc.filling 0 1) (fun h => nomatch h) rfl)

/-- `jstr_pushbackn` on the empty string leaves its last byte unterminated. -/
theorem not_runLaw_pushbackn :
    ¬ ∀ cs j, Runs Call.Listed cs j → RunLaw Call.Listed cs j := by
  intro h
  have hrun : Runs Call.Listed [.pushbackn 97 1]
      ⟨some ⟨0, 97 :: List.replicate 23 1⟩, 1, 24⟩ :=
    .call (Alloc.filling 0 1) .init ⟨by decide, show 0 + 1 + 1 ≤ sizeMax by decide, trivial⟩ rfl
  rcases (h _ _ hrun).ended ⟨_, List.mem_singleton_self _, trivial⟩ with hd | hb
  · exact nomatch hd
  · exact absurd hb (by decide)

/-! ## Calls that fail -/

/-- The states reached from `JSTR_INIT` by calls that succeed or fail,
each of them allowed by `ok` where it was made. -/
inductive Reached (ok : Alloc → JstrTy → Call → Prop) : JstrTy → Prop
  | init : Reached ok JstrTy.init
  | call {j j' c r} (al : Alloc) : Reached ok j → ok al j c → c.exec al j = .ok (r, j') →
      Reached ok j'

/-- A call that reports `JSTR_RET_ERR` left everything as it was. -/
def Call.ErrAtomic (al : Alloc) (j : JstrTy) (c : Call) : Prop :=
  ∀ j', c.exec al j = .ok (.err, j') → j' = j

/-- `jstr_reserveexactalways` has nothing to undo: it asks for nothing or
for the capacity it has, or `realloc` answers. -/
def ExactSafe (al : Alloc) (j : JstrTy) (n : Nat) : Prop :=
  n = 0 ∨ n = j.capacity ∨ al.realloc j.data n ≠ none

/-- When a failing call leaves the record as it was. -/
def Call.FailsCleanly (al : Alloc) (j : JstrTy) : Call → Prop
  | .reserveexact n => n < j.capacity ∨ ExactSafe al j n
  | .reserveexactalways n => ExactSafe al j n
  | .shrinkToFit => ExactSafe al j (addSz j.size 1)
  | _ => True

theorem reservealways_err {al : Alloc} {j j' : JstrTy} {n : Nat}
    (h : reservealways al j n = .ok (.err, j')) : j' = j := by
  obtain ⟨-, -, hj⟩ | ⟨cap, b, -, hr, -⟩ := reservealways_ok h
  · exact hj
  · cases hr

theorem reserve_err {al : Alloc} {j j' : JstrTy} {n : Nat}
    (h : reserve al j n = .ok (.err, j')) : j' = j := by
  rw [reserve] at h
  split at h
  · cases h
  · exact reservealways_err h

/-- A body that only reports success. -/
abbrev NoErr (r : Run (RetTy × JstrTy)) : Prop := Ensures (fun x => x.1 = .succ) r

theorem noErr_bind {α : Type} {r : Run α} {f : α → Run (RetTy × JstrTy)} (h : ∀ a, NoErr (f a)) :
    NoErr (r >>= f) :=
  @Ensures.bind α _ _ (fun _ => True) r f (fun _ _ => trivial) fun a _ => h a

theorem noErr_succ (j : JstrTy) : NoErr (.ok (.succ, j)) := ensures_ok rfl

theorem orErr_err {r : Run (RetTy × JstrTy)} {rest : JstrTy → Run (RetTy × JstrTy)}
    {j' : JstrTy} (h : orErr r rest = .ok (.err, j')) (hrest : ∀ j, NoErr (rest j)) :
    r = .ok (.err, j') := by
  rcases r with f | ⟨_ | _, j⟩
  · exact h
  · exact h
  · exact nomatch hrest j _ h

theorem growBy_err {al : Alloc} {j j' : JstrTy} {n : Nat} {f : Blk → Nat → Run (Blk × Nat)}
    (h : growBy al j n f = .ok (.err, j')) : j' = j :=
  reserve_err (orErr_err h fun _ => noErr_bind fun _ => noErr_bind fun _ => noErr_succ _)

theorem popWith_err {j j' : JstrTy} {f : Blk → Nat → Run (Blk × Nat)}
    (h : popWith j f = .ok (.err, j')) : j' = j := by
  have hn : NoErr (popWith j f) := by
    rw [popWith]
    split
    · exact noErr_bind fun _ => noErr_bind fun _ => noErr_succ _
    · exact noErr_succ _
  cases hn _ h

theorem reserveexactalways_err_iff {al : Alloc} {j : JstrTy} {n : Nat} :
    (∀ j', reserveexactalways al j n = .ok (.err, j') → j' = j) ↔ ExactSafe al j n := by
  constructor
  · intro h
    by_cases hn : n = 0
    · exact .inl hn
    · rcases hr : al.realloc j.data n with _ | tmp
      · have := h { j with capacity := n } (by rw [reserveexactalways, if_pos hn]; simp only [hr])
        exact .inr (.inl (congrArg JstrTy.capacity this))
      · exact .inr (.inr (by rw [hr]; exact Option.some_ne_none _))
  · intro hs j' h
    rcases reserveexactalways_spec h with ⟨_, hf, _⟩ | ⟨hn, hr, _, rfl⟩ | ⟨_, _, _, hf, _⟩
    · cases hf
    · rcases hs with h0 | hcap | hsome
      · exact absurd h0 hn
      · rw [hcap]
      · exact absurd hr hsome
    · cases hf

/-- One call: it fails cleanly exactly when the condition holds. -/
theorem Call.errAtomic_iff_failsCleanly (al : Alloc) (j : JstrTy) (c : Call) :
    c.ErrAtomic al j ↔ c.FailsCleanly al j := by
  have of_err (h : ∀ j', c.exec al j = .ok (.err, j') → j' = j) (hf : c.FailsCleanly al j) :
      c.ErrAtomic al j ↔ c.FailsCleanly al j := ⟨fun _ => hf, fun _ => h⟩
  cases c with
  | append src => exact of_err (fun _ h => growBy_err h) trivial
  | prepend src => exact of_err (fun _ h => growBy_err h) trivial
  | assign src =>
      exact of_err (fun _ h => reserve_err (orErr_err h fun _ =>
        noErr_bind fun _ => noErr_bind fun _ => noErr_succ _)) trivial
  | assignnchr c n =>
      refine of_err (fun j' h => ?_) trivial
      have h' := orErr_err h fun _ =>
        noErr_bind fun _ => noErr_bind fun _ => noErr_bind fun _ => noErr_succ _
      split at h'
      · exact reservealways_err h'
      · cases h'
  | pushback c => exact of_err (fun _ h => growBy_err h) trivial
  | pushbackn c n => exact of_err (fun _ h => growBy_err h) trivial
  | pushfront c => exact of_err (fun _ h => growBy_err h) trivial
  | pushfrontn c n => exact of_err (fun _ h => growBy_err h) trivial
  | cat args =>
      refine of_err (fun j' h => ?_) trivial
      rw [exec, Jstr.cat] at h
      simp only at h
      split at h
      · cases h
      · exact reserve_err (orErr_err h fun _ =>
          noErr_bind fun _ => noErr_bind fun _ => noErr_bind fun _ => noErr_succ _)
  | insert at' src =>
      exact of_err (fun _ h => reserve_err (orErr_err h fun _ =>
        noErr_bind fun _ => noErr_bind fun _ => noErr_succ _)) trivial
  | popback =>
      refine of_err (fun _ h => ?_) trivial
      rw [exec, popbackP] at h
      exact popWith_err h
  | popfront =>
      refine of_err (fun _ h => ?_) trivial
      rw [exec, popfrontP] at h
      exact popWith_err h
  | reserve n => exact of_err (fun _ h => reserve_err h) trivial
  | reservealways n => exact of_err (fun _ h => reservealways_err h) trivial
  | reserveexact n =>
      simp only [ErrAtomic, FailsCleanly, exec, Jstr.reserveexact]
      split
      · rename_i hlt
        exact ⟨fun _ => .inl hlt, fun _ _ h => by cases h⟩
      · rename_i hlt
        rw [reserveexactalways_err_iff]
        exact ⟨.inr, fun h => h.resolve_left hlt⟩
  | reserveexactalways n => exact reserveexactalways_err_iff
  | shrinkToFit => exact reserveexactalways_err_iff

/-! ### The recorded capacity -/

/-- The block a body works on has the recorded capacity. -/
theorem Backed.deref {j : JstrTy} (h : Backed j) :
    Ensures (fun b : Blk => b.size = j.capacity) j.deref := by
  intro b hd
  rw [JstrTy.deref] at hd
  rcases hj : j.data with _ | b'
  · rw [hj] at hd
    cases hd
  · rw [hj] at hd
    cases hd
    rwa [Backed, hj] at h

/-- A body that puts back a block of the size it got. -/
theorem backed_put {j : JstrTy} {b : Blk} {n : Nat} (h : b.size = j.capacity) :
    Ensures (fun x : RetTy × JstrTy => Backed x.2)
      (.ok (.succ, { j with data := some b, size := n })) :=
  ensures_ok h

theorem Safe.backed {j : JstrTy} {n : Nat} {r : Run (RetTy × JstrTy)} (hb : Backed j)
    (h : Safe j (Grown j n) r) : Ensures (fun x => Backed x.2) r := by
  rintro ⟨_ | _, j'⟩ rfl
  · have hj : j' = j := h
    rwa [hj]
  · obtain ⟨b, hd, hsz, _⟩ := Grown.room h
    show Backed j'
    rwa [Backed, hd]

theorem reserve_backed {al : Alloc} {j : JstrTy} {n : Nat} (hb : Backed j) :
    Ensures (fun x => Backed x.2) (reserve al j n) := by
  by_cases hn : 0 < n
  · exact (reserve_spec hb hn).backed hb
  · rw [reserve, if_pos (by omega)]
    exact ensures_ok hb

theorem orErr_backed {r : Run (RetTy × JstrTy)} {rest : JstrTy → Run (RetTy × JstrTy)}
    (h : Ensures (fun x => Backed x.2) r)
    (hrest : ∀ j, Backed j → Ensures (fun x => Backed x.2) (rest j)) :
    Ensures (fun x => Backed x.2) (orErr r rest) := by
  rcases r with f | ⟨_ | _, j⟩
  · exact h
  · exact h
  · exact hrest j (h (.succ, j) rfl)

theorem growBy_backed {al : Alloc} {j : JstrTy} {n : Nat} {f : Blk → Nat → Run (Blk × Nat)}
    (hb : Backed j)
    (hf : ∀ b sz, Ensures (fun x : Blk × Nat => x.1.size = b.size) (f b sz)) :
    Ensures (fun x => Backed x.2) (growBy al j n f) :=
  orErr_backed (reserve_backed hb) fun _ hb' => hb'.deref.bind fun b hsz =>
    (hf b _).bind fun _ hx => backed_put (hx.trans hsz)

theorem popWith_backed {j : JstrTy} {f : Blk → Nat → Run (Blk × Nat)} (hb : Backed j)
    (hf : ∀ b sz, Ensures (fun x : Blk × Nat => x.1.size = b.size) (f b sz)) :
    Ensures (fun x => Backed x.2) (popWith j f) := by
  rw [popWith]
  split
  · exact hb.deref.bind fun b hsz => (hf b _).bind fun _ hx => backed_put (hx.trans hsz)
  · exact ensures_ok hb

theorem catArgs_size {args : List Bytes} : ∀ (b : Blk) (p : Nat),
    Ensures (fun x : Blk × Nat => x.1.size = b.size) (catArgs b p args) := by
  induction args with
  | nil => exact fun _ _ => ensures_ok rfl
  | cons a args ih =>
      exact fun b p => (b.write_size p a).bind fun b' h x hx => (ih b' _ x hx).trans h

theorem reserveexactalways_backed {al : Alloc} {j : JstrTy} {n : Nat} (hb : Backed j)
    (hs : ExactSafe al j n) : Ensures (fun x => Backed x.2) (reserveexactalways al j n) := by
  rintro ⟨r, j'⟩ h
  rcases reserveexactalways_spec h with ⟨_, _, rfl⟩ | ⟨hn, hr, _, rfl⟩ | ⟨tmp, _, hr, _, rfl⟩
  · exact hb
  · rcases hs with h0 | hcap | hsome
    · exact absurd h0 hn
    · rwa [hcap]
    · exact absurd hr hsome
  · exact al.size_eq hr

/-- No call records a capacity its block does not have, unless it fails
uncleanly. -/
theorem Call.exec_backed {al : Alloc} {j : JstrTy} {c : Call} (hb : Backed j)
    (hc : c.FailsCleanly al j) : Ensures (fun x => Backed x.2) (c.exec al j) := by
  cases c with
  | append src =>
      exact growBy_backed hb fun b sz =>
        (strcpyLen_size b (b.addr + sz) src).bind fun _ h => ensures_ok h
  | prepend src =>
      refine growBy_backed hb fun b sz => ?_
      rw [prependLenUnsafeP]
      split
      · exact (strmoveLen_size b _ _ sz).bind fun b' h =>
          (Blk.write_size b' _ src).bind fun _ h' => ensures_ok (h'.trans h)
      · exact (b.write_size _ [0]).bind fun b' h =>
          (Blk.write_size b' _ src).bind fun _ h' => ensures_ok (h'.trans h)
  | assign src =>
      exact orErr_backed (reserve_backed hb) fun _ hb' => hb'.deref.bind fun b hsz =>
        (strcpyLen_size b b.addr src).bind fun _ h => backed_put (h.trans hsz)
  | assignnchr c n =>
      refine orErr_backed ?_ fun _ hb' => hb'.deref.bind fun b hsz =>
        (b.write_size _ _).bind fun b' h =>
          (Blk.write_size b' _ [0]).bind fun _ h' => backed_put ((h'.trans h).trans hsz)
      split
      · exact (reservealways_spec hb _).backed hb
      · exact ensures_ok hb
  | pushback c =>
      exact growBy_backed hb fun b sz => (b.write_size _ [c]).bind fun b' h =>
        (Blk.write_size b' _ [0]).bind fun _ h' => ensures_ok (h'.trans h)
  | pushbackn c n => exact growBy_backed hb fun b sz => mempset_size b _ c n
  | pushfront c =>
      exact growBy_backed hb fun b sz => (strmoveLen_size b _ _ sz).bind fun b' h =>
        (Blk.write_size b' _ [c]).bind fun _ h' => ensures_ok (h'.trans h)
  | pushfrontn c n =>
      exact growBy_backed hb fun b sz => (strmoveLen_size b _ _ sz).bind fun b' h =>
        (mempset_size b' _ c n).bind fun _ h' => ensures_ok (h'.trans h)
  | cat args =>
      rw [exec, Jstr.cat]
      simp only
      split
      · exact ensures_ok hb
      · exact orErr_backed (reserve_backed hb) fun _ hb' => hb'.deref.bind fun b hsz =>
          (catArgs_size b _).bind fun x h =>
            (Blk.write_size x.1 _ [0]).bind fun _ h' => backed_put ((h'.trans h).trans hsz)
  | insert at' src =>
      exact orErr_backed (reserve_backed hb) fun _ hb' => hb'.deref.bind fun b hsz =>
        ((b.memmove_size _ _ _).bind fun b' h b'' hb'' =>
          (Blk.write_size b' _ src b'' hb'').trans h).bind fun _ h => backed_put (h.trans hsz)
  | popback =>
      refine popWith_backed hb fun b sz => (b.write_size _ [0]).bind fun b' h => ?_
      exact ensures_ok h
  | popfront =>
      refine popWith_backed hb fun b sz => (b.memmove_size _ _ sz).bind fun b' h => ?_
      exact ensures_ok h
  | reserve n => exact reserve_backed hb
  | reservealways n => exact (reservealways_spec hb n).backed hb
  | reserveexact n =>
      rw [exec, Jstr.reserveexact]
      split
      · exact ensures_ok hb
      · rename_i hlt
        exact reserveexactalways_backed hb (hc.resolve_left hlt)
  | reserveexactalways n => exact reserveexactalways_backed hb hc
  | shrinkToFit => exact reserveexactalways_backed hb hc

/-- A call that fails leaves the record as it was exactly when it fails
cleanly; and as long as calls do, the recorded capacity is that of the
block. -/
theorem errAtomic_iff (al : Alloc) (j : JstrTy) (c : Call) :
    (c.ErrAtomic al j ↔ c.FailsCleanly al j) ∧
      (Reached (fun al j c => c.FailsCleanly al j) j → Backed j) := by
  refine ⟨c.errAtomic_iff_failsCleanly al j, fun h => ?_⟩
  induction h with
  | init => exact rfl
  | call al _ hc hx ih => exact Call.exec_backed ih hc _ hx

/-- `jstr_append_len` of "a", then `jstr_reserveexact` of 100 bytes, which
fails: the capacity reads 100 over a block of 24. -/
theorem not_errAtomic_reserveexact :
    ¬ ∀ j, Reached (fun _ _ _ => True) j → ∀ al (c : Call), c.ErrAtomic al j := by
  intro h
  have hreach : Reached (fun _ _ _ => True) ⟨some ⟨0, 97 :: 0 :: List.replicate 22 1⟩, 1, 24⟩ :=
    @Reached.call _ _ _ (.append [97]) .succ (Alloc.filling 0 1) .init trivial rfl
  have := h _ hreach Alloc.failing (.reserveexact 100) _ rfl
  exact absurd (congrArg JstrTy.capacity this) (by decide)

end Jstr
