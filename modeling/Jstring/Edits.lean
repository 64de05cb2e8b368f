import Jstring.Sprintf
import Jstring.RegexLiteral
import Jstring.InsertAfterAll
import Jstring.Place
import Jstring.Strip
import Jstring.Rplcspn
import Jstring.Rplcchr
import Jstring.Trim
import Jstring.Reverse

/-!
# Editing a string

The calls of the other modules on one record, in any order: the builder,
formatted text, insertion, removal and replacement of strings, bytes and
sets of bytes, trimming and reversing. `Edit.exec` runs the code of a call
and `Edit.effect` says what it is for, on lists. `edits_run` is the
refinement: after any number of calls, some of which found no memory, the
record holds the terminated text that the list effects of the others give,
and a call that is ready stays inside the block.
-/

namespace Jstr

open Words

/-! ## The calls -/

/-- A string to look for, in the memory around the record. -/
structure Word (env : Mem) where
  addr : Nat
  bytes : Bytes
  at_ : MemAt env addr bytes
  ne_nil : bytes ≠ []

/-- What stays as it is while the calls are made. -/
structure Desk where
  fmt : FmtEnv
  chrnul : ChrnulBuild
  env : Mem
  malloc : Nat → Bool

/-- A call with its arguments. Those that return an end have it stored as the size. -/
inductive Edit (env : Mem) where
  | call (c : Call)
  | print (c : Print env)
  | place (at' : Nat) (src : Bytes)
  | insertafterall (w : Word env) (src : Bytes)
  | rmn (startIdx : Nat) (w : Word env) (n : Nat)
  | rplcn (startIdx : Nat) (w : Word env) (rplc : Bytes) (n : Nat)
  | rmnchr (startIdx : Nat) (c : UInt8) (n : Nat)
  | rmnchrLen (startIdx : Nat) (c : UInt8) (n : Nat)
  | rmallspn (startIdx : Nat) (reject : Bytes)
  | stripspn (startIdx : Nat) (reject : Bytes)
  | rplcallspn (startIdx : Nat) (reject : Bytes) (rplc : UInt8)
  | rplcnchr (find rplc : UInt8) (n : Nat)
  | trim
  | rev

/-- A call that returns how much it changed, -1 for want of memory. -/
def countRet (r : Run (Nat × JstrTy)) : Run (RetTy × JstrTy) := do
  let (changed, j) ← r
  .ok (if changed = sizeMax then .err else .succ, j)

/-- A call that returns how much it changed and does not allocate. -/
def countSucc (r : Run (Nat × JstrTy)) : Run (RetTy × JstrTy) := do
  let (_, j) ← r
  .ok (.succ, j)

namespace Edit

variable (d : Desk)

def exec (al : Alloc) (j : JstrTy) : Edit d.env → Run (RetTy × JstrTy)
  | call c => c.exec al j
  | print c => c.exec d.fmt al j
  | place at' src => placeLen al j at' src
  | insertafterall w src =>
    insertafterallLen d.fmt.cfg d.env al d.malloc j w.addr w.bytes.length src
  | rmn startIdx w n => countSucc (rmnLenFrom d.fmt.cfg d.env j startIdx w.addr w.bytes.length n)
  | rplcn startIdx w rplc n =>
    countRet (rplcnLenFrom d.fmt.cfg d.env al j startIdx w.addr w.bytes.length rplc n)
  | rmnchr startIdx c n => countSucc (rmnchrFrom d.chrnul d.env j startIdx c n)
  | rmnchrLen startIdx c n => countSucc (rmnchrLenFrom d.env j startIdx c n)
  | rmallspn startIdx reject => countSucc (rmallspnFrom d.env j startIdx reject)
  | stripspn startIdx reject => countSucc (stripspnFrom d.env j startIdx reject)
  | rplcallspn startIdx reject rplc => countSucc (rplcallspnFrom d.env j startIdx reject rplc)
  | rplcnchr find rplc n => do
    let b ← j.deref
    let (_, b) ← Jstr.rplcnchr d.env b b.addr find rplc n
    .ok (.succ, { j with data := some b })
  | trim => do
    let b ← j.deref
    let (b, e) ← trimLenP b b.addr j.size
    .ok (.succ, { j with data := some b, size := e - b.addr })
  | rev => do
    let b ← j.deref
    let b ← revLen b b.addr j.size
    .ok (.succ, { j with data := some b })

/-- What a call means for the text. -/
def effect (t : Bytes) : Edit d.env → Bytes
  | call c => c.effect t
  | print c => c.effect d.fmt t
  | place at' src => placed t at' src
  | insertafterall w src => replaceAll w.bytes (w.bytes ++ src) t
  | rmn startIdx w n => t.take startIdx ++ replaceN w.bytes [] n (t.drop startIdx)
  | rplcn startIdx w rplc n => t.take startIdx ++ replaceN w.bytes rplc n (t.drop startIdx)
  | rmnchr startIdx c n | rmnchrLen startIdx c n =>
    t.take startIdx ++ replaceN [c] [] n (t.drop startIdx)
  | rmallspn startIdx reject | stripspn startIdx reject =>
    t.take startIdx ++ kept reject (t.drop startIdx)
  | rplcallspn startIdx reject rplc =>
    t.take startIdx ++ overwritten reject rplc (t.drop startIdx)
  | rplcnchr find rplc n => replaceN [find] [rplc] n t
  | trim => ltrim (rtrim t)
  | rev => t.reverse

/-- The string to look for does not lie in the block. -/
def Outside (j : JstrTy) (w : Word d.env) : Prop :=
  ∀ b, j.data = some b → Apart b w.addr w.bytes.length

/-- The caller's part when the record holds `t`: no NUL is put in, arguments
are not in the block, sums do not wrap, and what only a string in memory can
be used for is not used before there is one. -/
def Ready (al : Alloc) (j : JstrTy) (t : Bytes) : Edit d.env → Prop
  | call c => c.Changes ∧ c.Meets [] j ∧ 0 ∉ c.given
  | print c => c.Recovers ∧ c.Ready d.fmt j ∧ 0 ∉ c.format.text d.fmt.wc
  | place at' src => j.data ≠ none ∧ j.capacity ≤ sizeMax ∧ at' ≤ t.length ∧ 0 ∉ src ∧
      PlaceMeets al j at' src.length True
  | insertafterall w src => j.data ≠ none ∧ Outside d j w ∧
      AllocApart al w.addr w.bytes.length ∧ al.NonNull ∧ 0 ∉ src ∧
      (replaceAll w.bytes (w.bytes ++ src) t).length + 1 ≤ sizeMax ∧
      countAll w.bytes t * 8 ≤ sizeMax
  | rmn _ w _ => j.data ≠ none ∧ Outside d j w
  | rplcn startIdx w rplc n => j.data ≠ none ∧ Outside d j w ∧
      AllocApart al w.addr w.bytes.length ∧ 0 ∉ rplc ∧
      t.length + (t.take startIdx ++ replaceN w.bytes rplc n (t.drop startIdx)).length + 1 ≤ sizeMax
  | rmnchr _ _ _ | rmallspn _ _ => j.data ≠ none ∧ Addressed j
  | stripspn startIdx _ => j.data ≠ none ∧ Addressed j ∧ startIdx < t.length
  | rplcallspn _ _ rplc => j.data ≠ none ∧ Addressed j ∧ rplc ≠ 0
  | rplcnchr find rplc _ => j.data ≠ none ∧ Addressed j ∧ find ≠ 0 ∧ rplc ≠ 0
  | rmnchrLen _ _ _ | trim | rev => j.data ≠ none

end Edit

/-! ## One call -/

/-- The record holds `t`, which has no NUL in it, terminated once there is a
block. -/
structure Text (j : JstrTy) (t : Bytes) : Prop where
  content : Content j t
  ended : Ended j
  clean : 0 ∉ t

theorem Text.str {j : JstrTy} {t : Bytes} (h : Text j t) (hd : j.data ≠ none) : Str j t :=
  h.content.str hd h.ended

/-- A call on a record with `t` that is for `t'`. -/
def Edited (t t' : Bytes) : Run (RetTy × JstrTy) → Prop
  | .error f => f = .diverge
  | .ok (.err, j') => Content j' t ∧ Ended j'
  | .ok (.succ, j') => Content j' t' ∧ Ended j'

section Outcomes

variable {j : JstrTy} {t t' : Bytes} {r : Run (RetTy × JstrTy)} {k room : Nat} {al : Alloc}

theorem Safe.edited (h : Text j t) (hs : Safe j (fun j' => Content j' t' ∧ Ended j') r) :
    Edited t t' r := by
  rcases r with f | ⟨_ | _, j'⟩
  · exact hs
  · cases (show j' = j from hs)
    exact ⟨h.content, h.ended⟩
  · exact hs

theorem Safe.edited_str (h : Text j t) (hs : Safe j (fun j' => Str j' t') r) : Edited t t' r :=
  Safe.edited h (hs.mono fun _ hj => ⟨hj.content, hj.ended⟩)

theorem Inserted.edited {FIND : Bytes} {lost : Prop} (hs : Inserted al j FIND t t' lost r) :
    Edited t t' r := by
  rcases r with f | ⟨_ | _, j'⟩
  · exact hs.1
  · exact ⟨hs.1.content, hs.1.ended⟩
  · exact ⟨Str.content hs, Str.ended hs⟩

theorem edited_countSucc {r : Run (Nat × JstrTy)} (hs : ∃ j', r = .ok (k, j') ∧ Str j' t') :
    Edited t t' (countSucc r) := by
  obtain ⟨j', rfl, hj⟩ := hs
  exact ⟨hj.content, hj.ended⟩

theorem Replaced.edited {r : Run (Nat × JstrTy)} (h : Text j t) (hk : k ≠ sizeMax)
    (hs : Replaced al room j t' k r) : Edited t t' (countRet r) := by
  rcases r with f | ⟨changed, j'⟩
  · exact hs.1
  · rcases hs with ⟨rfl, rfl, -⟩ | ⟨rfl, hj⟩
    · simp only [countRet, bind, Except.bind, if_true]
      exact ⟨h.content, h.ended⟩
    · simp only [countRet, bind, Except.bind, if_neg hk]
      exact ⟨hj.content, hj.ended⟩

end Outcomes

theorem Call.effect_clean {t : Bytes} {c : Call} (h0 : 0 ∉ t) (hgiven : 0 ∉ c.given) :
    0 ∉ c.effect t := by
  cases c with
  | append src => exact fun h => (List.mem_append.mp h).elim h0 hgiven
  | prepend src => exact fun h => (List.mem_append.mp h).elim hgiven h0
  | assign src => exact hgiven
  | assignnchr c n => exact hgiven
  | pushback c => exact fun h => (List.mem_append.mp h).elim h0 hgiven
  | pushbackn c n => exact fun h => (List.mem_append.mp h).elim h0 hgiven
  | pushfront c => exact fun h => (List.mem_append.mp (show 0 ∈ [c] ++ t from h)).elim hgiven h0
  | pushfrontn c n => exact fun h => (List.mem_append.mp h).elim hgiven h0
  | cat args => exact fun h => (List.mem_append.mp h).elim h0 hgiven
  | insert at' src =>
      intro h
      rcases List.mem_append.mp h with h | h
      · exact (List.mem_append.mp h).elim (fun h => h0 (List.mem_of_mem_take h)) hgiven
      · exact h0 (List.mem_of_mem_drop h)
  | popback => exact fun h => h0 (List.mem_of_mem_dropLast h)
  | popfront => exact fun h => h0 (List.mem_of_mem_tail h)
  | reserve n => exact h0
  | reservealways n => exact h0
  | reserveexact n => exact h0
  | reserveexactalways n => exact h0
  | shrinkToFit => exact h0

/-- No call puts a NUL into the text. -/
theorem Edit.effect_clean {d : Desk} {al : Alloc} {j : JstrTy} {t : Bytes} {e : Edit d.env}
    (h0 : 0 ∉ t) (hr : e.Ready d al j t) : 0 ∉ e.effect d t := by
  have hsub : ∀ {n : Nat} {find rplc l : Bytes}, 0 ∉ l → 0 ∉ rplc → 0 ∉ replaceN find rplc n l :=
    fun hl hrplc hmem => (mem_replaceN hmem).elim hl fun h => hrplc h.1
  have htake : ∀ k, 0 ∉ t.take k := fun k hmem => h0 (List.mem_of_mem_take hmem)
  have hdrop : ∀ k, 0 ∉ t.drop k := fun k hmem => h0 (List.mem_of_mem_drop hmem)
  cases e with
  | call c =>
      obtain ⟨-, -, hgiven⟩ := hr
      exact Call.effect_clean h0 hgiven
  | print c =>
      obtain ⟨hrec, -, htext⟩ := hr
      cases c with
      | whole F => exact hrec.elim
      | append F =>
          rw [effect, Print.effect, List.mem_append]
          exact not_or.mpr ⟨h0, htext⟩
      | behind i F =>
          rw [effect, Print.effect, List.mem_append]
          exact not_or.mpr ⟨htake i, htext⟩
  | place at' src =>
      obtain ⟨-, -, hat, hsrc, -⟩ := hr
      rw [effect, placed_of_le hat, List.mem_append, List.mem_append]
      exact not_or.mpr ⟨not_or.mpr ⟨htake at', hsrc⟩, hdrop _⟩
  | insertafterall w src =>
      obtain ⟨-, -, -, -, hsrc, -⟩ := hr
      intro hmem
      rcases mem_replaceN hmem with h | ⟨h, hw⟩
      · exact h0 h
      · exact (List.mem_append.mp h).elim (fun h => h0 (hw h)) hsrc
  | rmn i w n =>
      rw [effect, List.mem_append]
      exact not_or.mpr ⟨htake i, hsub (hdrop i) List.not_mem_nil⟩
  | rplcn i w rplc n =>
      obtain ⟨-, -, -, hrplc, -⟩ := hr
      rw [effect, List.mem_append]
      exact not_or.mpr ⟨htake i, hsub (hdrop i) hrplc⟩
  | rmnchr i c n =>
      rw [effect, List.mem_append]
      exact not_or.mpr ⟨htake i, hsub (hdrop i) List.not_mem_nil⟩
  | rmnchrLen i c n =>
      rw [effect, List.mem_append]
      exact not_or.mpr ⟨htake i, hsub (hdrop i) List.not_mem_nil⟩
  | rmallspn i reject =>
      rw [effect, List.mem_append, kept]
      exact not_or.mpr ⟨htake i, fun h => hdrop i (List.mem_filter.mp h).1⟩
  | stripspn i reject =>
      rw [effect, List.mem_append, kept]
      exact not_or.mpr ⟨htake i, fun h => hdrop i (List.mem_filter.mp h).1⟩
  | rplcallspn i reject rplc =>
      obtain ⟨-, -, hrplc⟩ := hr
      rw [effect, List.mem_append, overwritten]
      refine not_or.mpr ⟨htake i, fun h => ?_⟩
      obtain ⟨x, hx, heq⟩ := List.mem_map.mp h
      split at heq
      · exact hrplc heq
      · exact hdrop i (heq ▸ hx)
  | rplcnchr find rplc n =>
      obtain ⟨-, -, -, hrplc⟩ := hr
      exact hsub h0 fun h => hrplc (List.mem_singleton.mp h).symm
  | trim =>
      rw [effect, ltrim, rtrim]
      exact fun h => h0 ((List.rdropWhile_prefix _ _).subset ((List.dropWhile_sublist _).subset h))
  | rev => exact fun h => h0 (List.mem_reverse.mp h)

/-- Each call does what it is for, or fails and leaves the text. -/
theorem Edit.exec_spec {d : Desk} {al : Alloc} {j : JstrTy} {t : Bytes} {e : Edit d.env}
    (h : Text j t) (hr : e.Ready d al j t) : Edited t (e.effect d t) (e.exec d al j) := by
  have h0 := h.clean
  cases e with
  | call c =>
      obtain ⟨hch, hm, -⟩ := hr
      exact (Call.exec_changes h.content (fun _ => h.ended) hm hch).edited h
  | print c =>
      obtain ⟨hrec, hready, -⟩ := hr
      obtain ⟨hfault, hsucc, herr⟩ := @Print.exec_spec d.env d.fmt j t c al h.content hready
      rcases hrun : c.exec d.fmt al j with f | ⟨_ | _, j'⟩
      · rw [exec, hrun]
        exact hfault f hrun
      · rw [exec, hrun, herr j' hrun hrec]
        exact ⟨h.content, h.ended⟩
      · rw [exec, hrun]
        exact ⟨(hsucc j' hrun).content, (hsucc j' hrun).ended⟩
  | place at' src =>
      obtain ⟨hd, hcap, hat, -, hm⟩ := hr
      have hle : at' ≤ sizeMax := by
        rw [← h.content.size] at hat
        exact hat.trans (h.content.size_le.trans hcap)
      refine Safe.edited_str h ((placeLen_iff (h.str hd) hcap hle).mpr ?_)
      simpa only [effect] using hm
  | insertafterall w src =>
      obtain ⟨hd, hap, hal, hnull, -, hfit, hoffs⟩ := hr
      exact (insertafterallLen_spec (h.str hd) w.at_ w.ne_nil hap hal hnull hfit hoffs).edited
  | rmn i w n =>
      obtain ⟨hd, hap⟩ := hr
      exact edited_countSucc (rmnLenFrom_spec _ (h.str hd) h0 w.ne_nil w.at_ hap i n)
  | rplcn i w rplc n =>
      obtain ⟨hd, hap, hal, -, hfit⟩ := hr
      refine (rplcnLenFrom_spec (h.str hd) h0 w.at_ w.ne_nil hap hal i n hfit).edited h ?_
      have hlen := length_replaceN w.bytes [] n (t.drop i)
      have hle : countN w.bytes n (t.drop i) ≤ countN w.bytes n (t.drop i) * w.bytes.length :=
        Nat.le_mul_of_pos_right _ (List.length_pos_of_ne_nil w.ne_nil)
      rw [List.length_nil, Nat.mul_zero, List.length_drop] at hlen
      omega
  | rmnchr i c n =>
      obtain ⟨hd, haddr⟩ := hr
      exact edited_countSucc (rmnchrFrom_spec (h.str hd) h0 haddr i c n)
  | rmnchrLen i c n => exact edited_countSucc (rmnchrLenFrom_spec (h.str hr) h0 i c n)
  | rmallspn i reject =>
      obtain ⟨hd, haddr⟩ := hr
      exact edited_countSucc (rmallspnFrom_spec (h.str hd) h0 haddr i reject)
  | stripspn i reject =>
      obtain ⟨hd, haddr, hi⟩ := hr
      rw [← h.content.size] at hi
      exact edited_countSucc (stripspnFrom_spec (h.str hd) h0 haddr hi reject)
  | rplcallspn i reject rplc =>
      obtain ⟨hd, haddr, -⟩ := hr
      exact edited_countSucc (rplcallspnFrom_spec (h.str hd) h0 haddr i reject rplc)
  | rplcnchr find rplc n =>
      obtain ⟨hd, haddr, hfind, -⟩ := hr
      obtain ⟨b, hb⟩ := Option.ne_none_iff_exists'.mp hd
      obtain ⟨b', hrun, -, hstr⟩ := rplcnchr_spec d.env (h.str hd) hb h0 haddr hfind rplc n
      simp only [exec, JstrTy.deref, hb, bind, Except.bind, hrun]
      exact ⟨hstr.content, hstr.ended⟩
  | trim =>
      obtain ⟨b, hb, hcap, hsize, hat⟩ := h.str hr
      obtain ⟨b', hrun, haddr, hsz, hat', -⟩ := (trimLenP_rewrites hat).result hat
      have hstr : Str { j with data := some b', size := (ltrim (rtrim t)).length }
          (ltrim (rtrim t)) := ⟨b', rfl, hsz.trans hcap, rfl, haddr ▸ hat'⟩
      simp only [exec, JstrTy.deref, hb, bind, Except.bind, hsize, hrun, haddr,
        Nat.add_sub_cancel_left]
      exact ⟨hstr.content, hstr.ended⟩
  | rev =>
      obtain ⟨b, hb, hcap, hsize, hat⟩ := h.str hr
      have hrun := revLen_eq (Memory.Block.at_append.mp hat).1
      have hput := @Memory.Block.At.put_mid _ b b.addr [] t t.reverse [0] hat List.length_reverse
      have hstr : Str { j with data := some (b.put b.addr t.reverse), size := t.length }
          t.reverse :=
        ⟨_, rfl, (Memory.Block.put_size _ _ _).trans hcap, List.length_reverse.symm, hput⟩
      simp only [exec, JstrTy.deref, hb, bind, Except.bind, hsize, hrun]
      exact ⟨hstr.content, hstr.ended⟩

/-! ## Any number of calls -/

/-- The text after the calls, in the order made. -/
def editEffects (d : Desk) (t : Bytes) (es : List (Edit d.env)) : Bytes :=
  es.foldl (Edit.effect d) t

theorem editEffects_concat (d : Desk) (t : Bytes) (es : List (Edit d.env)) (e : Edit d.env) :
    editEffects d t (es ++ [e]) = e.effect d (editEffects d t es) := by
  rw [editEffects, List.foldl_concat]
  rfl

/-- The calls made on `j₀`, which held `t₀`: those in `es` succeeded, any
number of others between them failed. Each was ready. -/
inductive EditRun (d : Desk) (j₀ : JstrTy) (t₀ : Bytes) : List (Edit d.env) → JstrTy → Prop
  | start : EditRun d j₀ t₀ [] j₀
  | done {es j j'} {e : Edit d.env} (al : Alloc) : EditRun d j₀ t₀ es j →
      e.Ready d al j (editEffects d t₀ es) → e.exec d al j = .ok (.succ, j') →
      EditRun d j₀ t₀ (es ++ [e]) j'
  | failed {es j j'} {e : Edit d.env} (al : Alloc) : EditRun d j₀ t₀ es j →
      e.Ready d al j (editEffects d t₀ es) → e.exec d al j = .ok (.err, j') →
      EditRun d j₀ t₀ es j'

section Runs

variable {d : Desk} {j j' j₀ j₁ : JstrTy} {t₀ : Bytes} {es : List (Edit d.env)}

theorem EditRun.text (h₀ : Text j₀ t₀) (h : EditRun d j₀ t₀ es j) :
    Text j (editEffects d t₀ es) := by
  induction h with
  | start => exact h₀
  | done al _ hready hexec ih =>
      have hedit := Edit.exec_spec ih hready
      rw [hexec] at hedit
      rw [editEffects_concat]
      exact ⟨hedit.1, hedit.2, Edit.effect_clean ih.clean hready⟩
  | failed al _ hready hexec ih =>
      have hedit := Edit.exec_spec ih hready
      rw [hexec] at hedit
      exact ⟨hedit.1, hedit.2, ih.clean⟩

/-- The calls refine the list effects: whatever was done before and however often
memory was refused, the record holds the text, with no NUL in it and one
behind it, that the calls that succeeded are for, and the next call that
is ready ends inside the block with one more effect or none. Two
records on which the same calls succeeded agree byte for byte. -/
theorem edits_run (h₀ : Text j₀ t₀) (h : EditRun d j₀ t₀ es j) :
    Text j (editEffects d t₀ es) ∧
      (∀ al (e : Edit d.env), e.Ready d al j (editEffects d t₀ es) →
        Edited (editEffects d t₀ es) (editEffects d t₀ (es ++ [e])) (e.exec d al j)) ∧
      (Text j₁ t₀ → EditRun d j₁ t₀ es j' → j.data ≠ none → j'.data ≠ none →
        j.size = j'.size ∧ ∀ i ≤ j.size, j.byte? i = j'.byte? i) := by
  have htext := h.text h₀
  refine ⟨htext, fun al e hready => ?_, fun h₁ h' hd hd' => ?_⟩
  · rw [editEffects_concat]
    exact Edit.exec_spec htext hready
  · exact (htext.str hd).agree ((h'.text h₁).str hd')

end Runs

/-- " ab" appended, 30 bytes for which there is no memory, and trimmed. -/
theorem edits_run_ab :
    let d : Desk := ⟨narrowEnv, ⟨sse2Build, true, false⟩, memOf [], fun _ => true⟩
    Text ⟨some ⟨0, [97, 98, 0, 0] ++ List.replicate 20 1⟩, 2, 24⟩
      (editEffects d [] [.call (.append [32, 97, 98]), .trim]) := by
  intro d
  have happend : EditRun d JstrTy.init [] [.call (.append [32, 97, 98])]
      ⟨some ⟨0, [32, 97, 98, 0] ++ List.replicate 20 1⟩, 3, 24⟩ := by
    refine .done (Alloc.filling 0 1) .start ⟨trivial, ?_, by decide⟩ rfl
    exact (by decide : 0 + 3 + 1 ≤ sizeMax)
  have hrefused : EditRun d JstrTy.init [] [.call (.append [32, 97, 98])]
      ⟨some ⟨0, [32, 97, 98, 0] ++ List.replicate 20 1⟩, 3, 24⟩ := by
    refine .failed (e := .call (.append (List.replicate 30 97))) Alloc.failing happend
      ⟨trivial, ?_, by decide⟩ rfl
    exact (by decide : 3 + 30 + 1 ≤ sizeMax)
  have htrim := hrefused.done (e := .trim) Alloc.failing (fun h => by cases h) rfl
  exact (@edits_run d _ JstrTy.init _ JstrTy.init [] _
    ⟨.inl ⟨rfl, rfl⟩, .inl rfl, List.not_mem_nil⟩ htrim).1

end Jstr
