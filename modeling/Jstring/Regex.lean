import Jstring.Backref
import Jstring.Lib.Splice

/-!
# Removing and replacing what a regular expression matches

`jstr_re_rmn_from_exec`, `jstr_re_rplcn_len_from_exec` and
`jstr_re_rplcn_backref_len_from_exec` of `include/regex.h`. `regexec` is
not part of the repository: it is whatever answer a `ReTy` gives to a
text and the flags.

- `reRun`: the answers on the unchanged text, each searched from the end of
  the one before;
- `built`, `resume`: what the loops write for them, and where they stand;
- `Chained.splice`: together that is the text spliced.
-/

namespace Jstr

open Splice

/-! ## `regexec` -/

/-- The `eflags` that matter to a match. `REG_STARTEND` says where the text
ends. -/
structure Eflags where
  notbol : Bool
  noteol : Bool
  deriving DecidableEq, Repr

/-- `eflags | JSTR_RE_EF_NOTBOL`, if `x`. -/
def Eflags.orNotbol (fl : Eflags) (x : Bool) : Eflags := { fl with notbol := fl.notbol || x }

/-- The error codes: `JSTR_RE_RET_ESPACE`, the only one the library returns
by itself, and those of `regexec`. -/
inductive ReErr where
  | espace
  | other (code : Nat)
  deriving DecidableEq, Repr

/-- `jstr_re_ret_ty`, with the array filled by a match. -/
inductive ReRet where
  | noerror (rm : Groups)
  | noMatch
  | err (e : ReErr)

/-- `jstr_re_ty`: what `regexec` answers to a text and the flags, and
whether `cflags` has `REG_NEWLINE`. -/
structure ReTy where
  regexec : Bytes → Eflags → ReRet
  newline : Bool

/-- `jstr_re_off_ty`: a count, or the negated error code. -/
inductive ReOff where
  | changed (n : Nat)
  | neg (e : ReErr)
  deriving DecidableEq, Repr

/-- `'\n'`. -/
def newlineChr : UInt8 := 10

/-- `jstr_internal_re_notbol`. -/
def notbol (mem : Mem) (str currIdx : Nat) (newline : Bool) : Bool :=
  if currIdx ≠ 0 then
    if newline ∧ mem (str + currIdx - 1) = newlineChr then false else true
  else false

/-- `jstr_re_exec_len`, also `jstr_re_search_len`. A text without a byte is
given as a NUL-terminated string. -/
def reExecLen (re : ReTy) (mem : Mem) (s sz : Nat) (eflags : Eflags) : Run ReRet :=
  if sz = 0 then do
    let n ← strlen mem s
    .ok (re.regexec (window mem s n) eflags)
  else .ok (re.regexec (window mem s sz) eflags)

/-- The search from `p` up to `e`, with `IS_NOTBOL` computed for its place
in the string. -/
def reSearch (re : ReTy) (env : Mem) (eflags : Eflags) (b : Blk) (e p : Nat) : Run ReRet :=
  reExecLen re (b.over env) p (e - p)
    (eflags.orNotbol (notbol (b.over env) b.addr (p - b.addr) re.newline))

/-! ## Removing -/

/-- The check of `start_idx` all the functions begin with. -/
def badStart (startIdx sz : Nat) : Prop := startIdx > sz ∨ (startIdx = sz ∧ startIdx ≠ 0)

instance (startIdx sz : Nat) : Decidable (badStart startIdx sz) :=
  inferInstanceAs (Decidable (_ ∨ _))

/-- `jstr_rmat_len_p`. -/
def rmatLenP (b : Blk) (sz at' findLen : Nat) : Run (Blk × Nat) := do
  let s := b.addr
  let b ← strmoveLen b (s + at') (s + at' + findLen) (subSz (s + sz) (s + at' + findLen))
  .ok (b, s + sz - findLen)

/-- The rest of the text is moved down. -/
theorem rmatLenP_spec {b : Blk} {t : Bytes} {i n : Nat} (hat : b.At b.addr (t ++ [0]))
    (hin : i + n ≤ t.length) :
    ∃ b', rmatLenP b t.length i n = .ok (b', b.addr + (t.take i ++ t.drop (i + n)).length) ∧
      Stores b (t.take i ++ t.drop (i + n)) b' := by
  have htake : (t.take i).length = i := by
    rw [List.length_take]
    omega
  have hdrop : (t.drop (i + n)).length = t.length - (i + n) := List.length_drop
  have hroom := hat.inRange.2
  rw [List.length_append, List.length_singleton] at hroom
  have hst := @stores_back b (t.take i) (t.drop (i + n)) (hat.left.take _) (by omega)
  have hmove := strmoveLen_eq (hat.left.drop hin) hdrop
    (show b.InRange (b.addr + i) _ from ⟨Nat.le_add_right _ _, by omega⟩)
  have hlen : subSz (b.addr + t.length) (b.addr + (i + n)) = t.length - (i + n) := by
    rw [subSz_eq (by omega)]
    omega
  have hnew : b.addr + t.length - n = b.addr + (t.take i ++ t.drop (i + n)).length := by
    rw [List.length_append, htake, hdrop]
    omega
  rw [htake] at hst
  refine ⟨_, ?_, hst⟩
  rw [rmatLenP]
  simp only [Nat.add_assoc b.addr i n, hlen, hmove, hnew, bind, Except.bind]

/-- `jstr_re_rm_from_exec`. -/
def reRmFromExec (env : Mem) (re : ReTy) (j : JstrTy) (startIdx : Nat) (eflags : Eflags) :
    Run (ReOff × JstrTy) :=
  if badStart startIdx j.size then .ok (.changed 0, j)
  else do
    let b ← j.deref
    match ← reSearch re env eflags b (b.addr + j.size) (b.addr + startIdx) with
    | .noerror rm => do
      let (b', p) ← rmatLenP b j.size (startIdx + rm.whole.so) (rm.whole.eo - rm.whole.so)
      .ok (.changed 1, { j with data := some b', size := p - b.addr })
    | .noMatch => .ok (.changed 0, j)
    | .err e => .ok (.neg e, j)

/-- Whether the loops stop before they search: `src_e` at the end, unless
the match before was empty, or beyond it. -/
def stopsAt (srcE e : Nat) (prevZero : Bool) : Prop :=
  (srcE = e ∧ prevZero = false) ∨ srcE > e

instance (srcE e : Nat) (prevZero : Bool) : Decidable (stopsAt srcE e prevZero) :=
  inferInstanceAs (Decidable (_ ∨ _))

/-- The byte copied after an empty match, when one is left. -/
def skipByte (b : Blk) (dst src e findLen : Nat) : Run (Blk × Nat × Nat) :=
  if findLen = 0 ∧ src < e then do
    let c ← b.read src
    let b ← b.write dst [c]
    .ok (b, dst + 1, src + 1)
  else .ok (b, dst, src)

/-- What both loops do with a match: copy the text before it, `put` what
replaces it, step over it. -/
def putMatch (put : Blk → Nat → Run (Blk × Nat)) (e : Nat) (rm : Regmatch) (b : Blk)
    (i : Inplace) : Run (Blk × Inplace) := do
  let (b, dst) ← mempmove b i.dst i.src (i.srcE + rm.so - i.src)
  let (b, dst) ← put b dst
  let (b, dst, src) ← skipByte b dst (i.srcE + rm.eo) e (rm.eo - rm.so)
  .ok (b, ⟨dst, src, src⟩)

/-- The loop of `jstr_re_rmn_from_exec`. -/
def rmnLoop (env : Mem) (re : ReTy) (eflags : Eflags) (e : Nat) :
    Nat → Blk → Inplace → Bool → Nat → Run (Blk × Inplace × ReOff)
  | 0, b, i, _, changed => .ok (b, i, .changed changed)
  | n + 1, b, i, prevZero, changed =>
    if stopsAt i.srcE e prevZero then .ok (b, i, .changed changed)
    else do
      match ← reSearch re env eflags b e i.srcE with
      | .noerror rm => do
        let (b, i') ← putMatch (fun b dst => .ok (b, dst)) e rm.whole b i
        if i.srcE = e then .ok (b, i', .changed (changed + 1))
        else rmnLoop env re eflags e n b i' (rm.whole.eo - rm.whole.so = 0) (changed + 1)
      | .noMatch => .ok (b, i, .changed changed)
      | .err err => .ok (b, i, .neg err)

/-- `jstr_re_rmn_from_exec`, with more than one match to remove. -/
def rmnMany (env : Mem) (re : ReTy) (j : JstrTy) (startIdx : Nat) (eflags : Eflags) (n : Nat) :
    Run (ReOff × JstrTy) := do
  let b ← j.deref
  let e := b.addr + j.size
  let s := b.addr + startIdx
  let (b, i, r) ← rmnLoop env re eflags e n b ⟨s, s, s⟩ true 0
  match r with
  | .neg err => .ok (.neg err, { j with data := some b })
  | .changed k => do
    let (b', p) ← stpmoveLen b i.dst i.src (e - i.src)
    .ok (.changed k, { j with data := some b', size := p - b.addr })

/-- `jstr_re_rmn_from_exec`. In an empty string at most one match is
removed. -/
def reRmnFromExec (env : Mem) (re : ReTy) (j : JstrTy) (startIdx : Nat) (eflags : Eflags)
    (n : Nat) : Run (ReOff × JstrTy) :=
  if badStart startIdx j.size then .ok (.changed 0, j)
  else if n = 0 then .ok (.changed 0, j)
  else
    let n := if j.size = 0 then 1 else n
    if n = 1 then reRmFromExec env re j startIdx eflags
    else rmnMany env re j startIdx eflags n

/-! ## Replacing -/

/-- `jstr_re_rplc_len_from_exec`. -/
def reRplcLenFromExec (env : Mem) (al : Alloc) (re : ReTy) (j : JstrTy)
    (startIdx rplc rplcLen : Nat) (eflags : Eflags) : Run (ReOff × JstrTy) :=
  if badStart startIdx j.size then .ok (.changed 0, j)
  else do
    let b ← j.deref
    match ← reSearch re env eflags b (b.addr + j.size) (b.addr + startIdx) with
    | .noerror rm => do
      match ← rplcatLen al j (startIdx + rm.whole.so) (window env rplc rplcLen)
        (rm.whole.eo - rm.whole.so) with
      | (some _, j) => .ok (.changed 1, j)
      | (none, j) => .ok (.neg .espace, j)
    | .noMatch => .ok (.changed 0, j)
    | .err e => .ok (.neg e, j)

/-- The pointers of the loop of `rplcn`: `i`, `dst_s` and `end`. -/
structure Cursors where
  i : Inplace
  dstS : Nat
  e : Nat

/-- The pointers after the buffer moved from `s` to `s'`. -/
def Cursors.rebase (c : Cursors) (s s' : Nat) : Cursors where
  i := ⟨s' + (c.i.dst - s), s' + (c.i.src - s), s' + (c.i.srcE - s)⟩
  dstS := s' + (c.dstS - s)
  e := s' + (c.e - s)

/-- Room for `newCap` bytes. While the buffer grows the size is what lies
below `dst`, and it stays so on failure. -/
def growAt (al : Alloc) (j : JstrTy) (c : Cursors) (newCap : Nat) :
    Run (RetTy × JstrTy × Cursors) :=
  if j.capacity < newCap then do
    let b ← j.deref
    match ← reserve al { j with size := c.i.dst - b.addr } newCap with
    | (.err, j') => .ok (.err, j', c)
    | (.succ, j') => do
      let b' ← j'.deref
      .ok (.succ, { j' with size := j.size }, c.rebase b.addr b'.addr)
  else .ok (.succ, j, c)

/-- The arguments about the replacement: where it is, how many groups it
may refer to, and its first reference with the end of the last, if it has
any and `backref` is set. -/
structure Rplc where
  addr : Nat
  len : Nat
  nmatch : Nat
  backref : Option (Nat × Nat)

/-- `rplcwbackref_len`. -/
def Rplc.withBackrefLen (env : Mem) (p : Rplc) (rm : Groups) : Run Nat :=
  match p.backref with
  | some (first, lastE) => backrefstrlen env rm p.nmatch lastE (p.len + 1) first p.len
  | none => .ok p.len

/-- Copy the replacement, `wlen` bytes with its references resolved. -/
def Rplc.copy (env : Mem) (p : Rplc) (rm : Groups) (srcE wlen : Nat) (b : Blk) (dst : Nat) :
    Run (Blk × Nat) :=
  match p.backref with
  | some _ => do
    let b ← backrefcpy env rm p.nmatch srcE (p.addr + p.len) (p.len + 1) b dst p.addr
    .ok (b, dst + wlen)
  | none => mempcpy b dst (window env p.addr p.len)

/-- `new_cap` inside the loop. -/
def newCapOf (s : Nat) (c : Cursors) (wlen findLen : Nat) : Nat :=
  let newCap := addSz (addSz (c.i.dst - s) (c.e - c.i.src)) 2
  if wlen > findLen then addSz newCap (wlen - findLen) else newCap

/-- The loop of `jstr_internal_re_rplcn_backref_len_from_exec`. -/
def rplcnLoop (env : Mem) (al : Alloc) (re : ReTy) (eflags : Eflags) (p : Rplc) :
    Nat → JstrTy → Cursors → Bool → Nat → Run (JstrTy × Cursors × ReOff)
  | 0, j, c, _, changed => .ok (j, c, .changed changed)
  | n + 1, j, c, prevZero, changed =>
    if stopsAt c.i.srcE c.e prevZero then .ok (j, c, .changed changed)
    else do
      let b ← j.deref
      match ← reSearch re env eflags b c.e c.i.srcE with
      | .noerror rm => do
        let findLen := rm.whole.eo - rm.whole.so
        let wlen ← p.withBackrefLen env rm
        if wlen = sizeMax then .ok (j, c, .neg .espace)
        else
          match ← growAt al j c (newCapOf b.addr c wlen findLen) with
          | (.err, j, c) => .ok (j, c, .neg .espace)
          | (.succ, j, c) => do
            let b ← j.deref
            let (b, i) ← putMatch (p.copy env rm c.i.srcE wlen) c.e rm.whole b c.i
            let j' := { j with data := some b }
            let c' := { c with i := i }
            if c.i.srcE = c.e then .ok (j', c', .changed (changed + 1))
            else rplcnLoop env al re eflags p n j' c' (findLen = 0) (changed + 1)
      | .noMatch => .ok (j, c, .changed changed)
      | .err err => .ok (j, c, .neg err)

/-- From the reservation on: the text stays below while the new one is built
behind it, then the new one is moved down. -/
def rplcnMany (env : Mem) (al : Alloc) (re : ReTy) (j : JstrTy) (startIdx : Nat) (p : Rplc)
    (eflags : Eflags) (n : Nat) : Run (ReOff × JstrTy) := do
  match ← reserve al j (addSz (mulSz j.size 2) 2) with
  | (.err, j) => .ok (.neg .espace, j)
  | (.succ, j) => do
    let b ← j.deref
    let s := b.addr
    let b ← b.memmove (s + j.size + 1) s j.size
    let (j, c, r) ← rplcnLoop env al re eflags p n { j with data := some b }
      ⟨⟨s + j.size + 1, s, s + startIdx⟩, s + j.size + 1, s + j.size⟩ true 0
    match r with
    | .neg err => .ok (.neg err, j)
    | .changed k => do
      let b ← j.deref
      let (b, q) ← mempmove b c.i.dst c.i.src (c.e - c.i.src)
      let sz := q - c.dstS
      let b ← strmoveLen b b.addr c.dstS sz
      .ok (.changed k, { j with data := some b, size := sz })

/-- The part behind the label `check`: one replacement needs no rebuilding. -/
def rplcnCheck (env : Mem) (al : Alloc) (re : ReTy) (j : JstrTy) (startIdx rplc rplcLen : Nat)
    (eflags : Eflags) (nmatch n : Nat) : Run (ReOff × JstrTy) :=
  if n = 1 ∨ j.size = 0 then reRplcLenFromExec env al re j startIdx rplc rplcLen eflags
  else rplcnMany env al re j startIdx ⟨rplc, rplcLen, nmatch, none⟩ eflags n

/-- `jstr_internal_re_rplcn_backref_len_from_exec`. -/
def rplcnBackrefLenFromExecInternal (cfg : Build) (env : Mem) (al : Alloc) (re : ReTy) (j : JstrTy)
    (startIdx rplc rplcLen : Nat) (eflags : Eflags) (nmatch n : Nat) (backref : Bool) :
    Run (ReOff × JstrTy) :=
  if n = 0 then .ok (.changed 0, j)
  else if rplcLen = 0 then reRmnFromExec env re j startIdx eflags n
  else if badStart startIdx j.size then .ok (.changed 0, j)
  else
    let n := if j.size = 0 then 1 else n
    if backref then do
      match ← backreffirst env rplc rplcLen with
      | none => rplcnCheck env al re j startIdx rplc rplcLen eflags nmatch n
      | some first => do
        let lastE ← backreflast cfg env first (rplcLen - (first - rplc))
        rplcnMany env al re j startIdx ⟨rplc, rplcLen, nmatch, some (first, lastE.getD (first + 2))⟩
          eflags n
    else rplcnCheck env al re j startIdx rplc rplcLen eflags nmatch n

/-- `jstr_re_rplcn_len_from_exec`. -/
def reRplcnLenFromExec (cfg : Build) (env : Mem) (al : Alloc) (re : ReTy) (j : JstrTy)
    (startIdx rplc rplcLen : Nat) (eflags : Eflags) (n : Nat) : Run (ReOff × JstrTy) :=
  rplcnBackrefLenFromExecInternal cfg env al re j startIdx rplc rplcLen eflags 1 n false

/-- `jstr_re_rplcn_backref_len_from_exec`. -/
def reRplcnBackrefLenFromExec (cfg : Build) (env : Mem) (al : Alloc) (re : ReTy) (j : JstrTy)
    (startIdx rplc rplcLen : Nat) (eflags : Eflags) (nmatch n : Nat) : Run (ReOff × JstrTy) :=
  rplcnBackrefLenFromExecInternal cfg env al re j startIdx rplc rplcLen eflags nmatch n true

/-! ## The answers on the unchanged text -/

/-- The flags of a search from `pos`: `NOTBOL` but at the beginning of the
text, or of a line if `REG_NEWLINE` is set. -/
def ReTy.flagsAt (re : ReTy) (fl : Eflags) (t : Bytes) (pos : Nat) : Eflags :=
  fl.orNotbol (pos ≠ 0 ∧ ¬(re.newline = true ∧ t[pos - 1]? = some newlineChr))

/-- What `regexec` answers to the text from `pos` on. -/
def ReTy.answer (re : ReTy) (fl : Eflags) (t : Bytes) (pos : Nat) : ReRet :=
  re.regexec (t.drop pos) (re.flagsAt fl t pos)

/-- A match, and where it was searched from. -/
structure Found where
  pos : Nat
  rm : Groups

namespace Found

def start (f : Found) : Nat := f.pos + f.rm.whole.so

def stop (f : Found) : Nat := f.pos + f.rm.whole.eo

def empty (f : Found) : Bool := f.rm.whole.eo - f.rm.whole.so = 0

/-- Where the next match is searched from, in a text of `n` bytes: one byte
further behind an empty match. -/
def next (f : Found) (n : Nat) : Nat := if f.empty ∧ f.stop < n then f.stop + 1 else f.stop

/-- The match replaced by `text`. -/
def edit (text : Found → Bytes) (f : Found) : Edit UInt8 := ⟨f.start, f.stop, text f⟩

end Found

/-- The answers from `pos` on: at most `n` matches, and the error that ends
them, if one does. Behind a match that is not empty none is searched at the
end of the text. -/
def reRun (re : ReTy) (fl : Eflags) (t : Bytes) : Nat → Nat → Bool → List Found × Option ReErr
  | 0, _, _ => ([], none)
  | n + 1, pos, prevZero =>
    if pos = t.length ∧ prevZero = false then ([], none)
    else
      match re.answer fl t pos with
      | .noerror rm =>
        let f : Found := ⟨pos, rm⟩
        if pos = t.length then ([f], none)
        else
          let rest := reRun re fl t n (f.next t.length) f.empty
          (f :: rest.1, rest.2)
      | .noMatch => ([], none)
      | .err e => ([], some e)

/-- The matches of a call that may replace `n`, searched from `start` on. -/
def reMatches (re : ReTy) (fl : Eflags) (t : Bytes) (n start : Nat) : List Found :=
  (reRun re fl t n start true).1

/-- The error such a call ends with. -/
def reError (re : ReTy) (fl : Eflags) (t : Bytes) (n start : Nat) : Option ReErr :=
  (reRun re fl t n start true).2

/-- Each match is the answer at the place it was searched from: `pos` for
the first, where the match before it says for every other one. -/
def Searched (re : ReTy) (fl : Eflags) (t : Bytes) : Nat → List Found → Prop
  | _, [] => True
  | pos, f :: fs =>
    f.pos = pos ∧ re.answer fl t pos = .noerror f.rm ∧ Searched re fl t (f.next t.length) fs

/-- The groups `regexec` answers with lie in the text it is given. -/
def ReTy.Sound (re : ReTy) : Prop :=
  ∀ w fl rm, re.regexec w fl = .noerror rm → rm.Within w.length

section Matches

variable {re : ReTy} {fl : Eflags} {t : Bytes} {pos : Nat} {rm : Groups} {text : Found → Bytes}

/-! What a turn of a loop can find. -/

theorem reRun_stop {n : Nat} {z : Bool} (h : pos = t.length ∧ z = false) :
    reRun re fl t n pos z = ([], none) := by
  cases n with
  | zero => rfl
  | succ n => rw [reRun, if_pos h]

theorem reRun_noMatch {n : Nat} {z : Bool} (h : re.answer fl t pos = .noMatch) :
    reRun re fl t n pos z = ([], none) := by
  cases n with
  | zero => rfl
  | succ n =>
      rw [reRun, h]
      split <;> rfl

theorem reRun_err {n : Nat} {z : Bool} {e : ReErr} (hstop : ¬(pos = t.length ∧ z = false))
    (h : re.answer fl t pos = .err e) : reRun re fl t (n + 1) pos z = ([], some e) := by
  rw [reRun, if_neg hstop, h]

theorem reRun_found {n : Nat} {z : Bool} {f : Found} (h : ¬(f.pos = t.length ∧ z = false))
    (hans : re.answer fl t f.pos = .noerror f.rm) :
    reRun re fl t (n + 1) f.pos z = if f.pos = t.length then ([f], none)
      else (f :: (reRun re fl t n (f.next t.length) f.empty).1,
        (reRun re fl t n (f.next t.length) f.empty).2) := by
  rw [reRun, if_neg h, hans]

/-- The matches from a match on are this one and, unless it was searched at the end, those
found behind it. -/
theorem reRun_cons {n : Nat} {z : Bool} {f : Found} (h : ¬(f.pos = t.length ∧ z = false))
    (hans : re.answer fl t f.pos = .noerror f.rm) :
    ∃ q, reRun re fl t (n + 1) f.pos z = (f :: q.1, q.2) ∧
      (f.pos = t.length → q = ([], none)) ∧
      (f.pos ≠ t.length → q = reRun re fl t n (f.next t.length) f.empty) := by
  rw [reRun_found h hans]
  by_cases hat : f.pos = t.length
  · exact ⟨([], none), if_pos hat, fun _ => rfl, fun h => absurd hat h⟩
  · exact ⟨_, if_neg hat, fun h => absurd h hat, fun _ => rfl⟩

/-- At the end of the text one match is all there can be. -/
theorem reRun_end (n : Nat) : reRun re fl t (n + 1) t.length true = reRun re fl t 1 t.length true := by
  have hne : ¬(t.length = t.length ∧ true = false) := by simp
  rw [reRun, reRun, if_neg hne, if_neg hne]
  split
  · rw [if_pos rfl, if_pos rfl]
  · rfl
  · rfl

/-- A property of the matches: what each turn adds to a list keeps it. -/
theorem reRun_induction (P : Nat → Nat → List Found → Prop) (hnil : ∀ n pos, P n pos [])
    (hcons : ∀ n f fs, re.answer fl t f.pos = .noerror f.rm →
      (fs = [] ∨ P n (f.next t.length) fs) → P (n + 1) f.pos (f :: fs)) :
    ∀ n pos z, P n pos (reRun re fl t n pos z).1
  | 0, pos, _ => hnil 0 pos
  | n + 1, pos, z => by
      by_cases hstop : pos = t.length ∧ z = false
      · rw [reRun_stop hstop]
        exact hnil _ pos
      cases hans : re.answer fl t pos with
      | noMatch =>
          rw [reRun_noMatch hans]
          exact hnil _ pos
      | err e =>
          rw [reRun_err hstop hans]
          exact hnil _ pos
      | noerror rm =>
          rw [@reRun_found re fl t n z ⟨pos, rm⟩ hstop hans]
          split
          · exact hcons n ⟨pos, rm⟩ [] hans (.inl rfl)
          · exact hcons n ⟨pos, rm⟩ _ hans (.inr (reRun_induction P hnil hcons n _ _))

theorem length_reRun_le (n pos : Nat) (z : Bool) : (reRun re fl t n pos z).1.length ≤ n := by
  refine reRun_induction (fun n _ fs => fs.length ≤ n) (fun _ _ => Nat.zero_le _) ?_ n pos z
  rintro n f fs - (rfl | h)
  · exact Nat.succ_le_succ (Nat.zero_le n)
  · exact Nat.succ_le_succ h

theorem searched_reRun (n pos : Nat) (z : Bool) :
    Searched re fl t pos (reRun re fl t n pos z).1 := by
  refine reRun_induction (fun _ pos fs => Searched re fl t pos fs) (fun _ _ => trivial) ?_
    n pos z
  rintro n f fs hans (rfl | h)
  · exact ⟨rfl, hans, trivial⟩
  · exact ⟨rfl, hans, h⟩

/-- Where an answer lies in the whole text. -/
theorem ReTy.Sound.range (h : re.Sound) (hans : re.answer fl t pos = .noerror rm)
    (hpos : pos ≤ t.length) : rm.Within (t.drop pos).length ∧ rm.whole.so ≤ rm.whole.eo ∧
      pos + rm.whole.eo ≤ t.length := by
  have hw := h _ _ _ hans
  obtain ⟨h1, h2⟩ := hw 0 rm.whole rfl
  rw [List.length_drop] at h2
  exact ⟨hw, h1, by omega⟩

theorem Found.stop_le_next (f : Found) (n : Nat) : f.stop ≤ f.next n := by
  rw [Found.next]
  split <;> omega

theorem Found.next_le {f : Found} {n : Nat} (h : f.stop ≤ n) : f.next n ≤ n := by
  rw [Found.next]
  split <;> omega

/-- The matches lie one behind the other, the byte behind an empty one left
out. -/
def Chained (n : Nat) : Nat → List Found → Prop
  | src, [] => src ≤ n
  | src, f :: fs => src ≤ f.start ∧ f.start ≤ f.stop ∧ f.stop ≤ n ∧ Chained n (f.next n) fs

theorem chained_reRun (h : re.Sound) (n pos : Nat) (z : Bool) (hpos : pos ≤ t.length) :
    Chained t.length pos (reRun re fl t n pos z).1 := by
  refine reRun_induction (fun _ pos fs => pos ≤ t.length → Chained t.length pos fs)
    (fun _ _ h => h) ?_ n pos z hpos
  rintro n f fs hans hfs hf
  obtain ⟨-, hle, hend⟩ := h.range hans hf
  have hnext := Found.next_le (show f.stop ≤ t.length from hend)
  refine ⟨Nat.le_add_right _ _, Nat.add_le_add_left hle _, hend, ?_⟩
  rcases hfs with rfl | hfs
  · exact hnext
  · exact hfs hnext

theorem Chained.mono {n src src' : Nat} {fs : List Found} (h : Chained n src fs)
    (hle : src' ≤ src) : Chained n src' fs := by
  cases fs with
  | nil => exact le_trans hle h
  | cons f fs => exact ⟨le_trans hle h.1, h.2⟩

theorem Chained.ordered {n src : Nat} {fs : List Found} (h : Chained n src fs) :
    Ordered n src (fs.map (Found.edit text)) := by
  induction fs generalizing src with
  | nil => exact h
  | cons f fs ih =>
      obtain ⟨h1, h2, -, h4⟩ := h
      exact ⟨h1, h2, (ih h4).mono (f.stop_le_next n)⟩

/-- The text copied behind a match before the next search. -/
def Found.skipped (f : Found) (t : Bytes) : Bytes := (t.drop f.stop).take (f.next t.length - f.stop)

theorem Found.length_skipped {f : Found} (h : f.stop ≤ t.length) :
    (f.skipped t).length = f.next t.length - f.stop := by
  have := Found.next_le h
  rw [Found.skipped, List.length_take, List.length_drop]
  omega

/-- What is written for a match: the text before it, `text` in its place,
and the byte behind it if it is empty. -/
def Found.written (text : Found → Bytes) (t : Bytes) (src : Nat) (f : Found) : Bytes :=
  (t.drop src).take (f.start - src) ++ (text f ++ f.skipped t)

theorem Found.length_written {f : Found} {src : Nat} (hsrc : src ≤ f.start)
    (hle : f.start ≤ f.stop) (hstop : f.stop ≤ t.length) :
    (f.written text t src).length
      = f.start - src + ((text f).length + (f.next t.length - f.stop)) := by
  rw [Found.written, List.length_append, List.length_append, Found.length_skipped hstop,
    List.length_take, List.length_drop]
  omega

/-- What is written for the matches, the text being read from `src` on. -/
def built (text : Found → Bytes) (t : Bytes) : Nat → List Found → Bytes
  | _, [] => []
  | src, f :: fs => f.written text t src ++ built text t (f.next t.length) fs

/-- Where the text is read from behind the matches. -/
def resume (n : Nat) : Nat → List Found → Nat
  | src, [] => src
  | _, f :: fs => resume n (f.next n) fs

/-- What is written and what is left make up the text spliced. -/
theorem Chained.splice {src : Nat} {fs : List Found} (h : Chained t.length src fs) :
    Splice.splice t src (fs.map (Found.edit text))
      = built text t src fs ++ t.drop (resume t.length src fs) := by
  induction fs generalizing src with
  | nil => rfl
  | cons f fs ih =>
      obtain ⟨-, -, -, h4⟩ := h
      rw [List.map_cons, splice_cons]
      simp only [Found.edit]
      rw [splice_skip h4.ordered (f.stop_le_next t.length), ih h4, built, resume, Found.written,
        Found.skipped]
      simp only [List.append_assoc]

end Matches

end Jstr
