import Jstring.Memrchr

/-!
# The directory walk

`jstr_io_ftw_len` of `include/io.h` with `jstr_internal_io_ftw_len`, which
it recurses with. What the system calls answer is a `Dir`: the entries in
the order `readdir` yields them, each with what `stat`, `openat` and
`opendir` make of it. `FUNC` and `FUNC_MATCH` are functions, `FUNC` of all
the calls made so far; the calls are kept in the state of the walk.

The path is built in one buffer, which is read back as a C string at every
call. Here it grows; what its fixed size means is told in `FtwBounds`.

Without `d_type` (with it the macros of the file do not expand) an entry is
always stat'ed, so `STATREG` and `NOSTAT` change nothing and are left out.
-/

namespace Jstr

/-! ## What there is to walk -/

/-- `JSTR_IO_PATH_MAX`. -/
def ioPathMax : Nat := 4096

/-- `JSTR_IO_NAME_MAX`. -/
def ioNameMax : Nat := 255

/-- `errno`, as far as it is looked at. -/
inductive Errno where
  | eacces
  | enoent
  | other
  deriving DecidableEq, Repr

/-- `NONFATAL_ERR()`. -/
def Errno.nonfatal : Errno → Bool
  | eacces | enoent => true
  | other => false

/-- `d_name`, without its terminator. -/
structure Name where
  chrs : Bytes
  ne : chrs ≠ []
  noNul : 0 ∉ chrs
  noSlash : 47 ∉ chrs
  le : chrs.length ≤ ioNameMax
  deriving DecidableEq

/-- `st_mode` of what is not a directory. -/
inductive FileType where
  | reg
  | other
  deriving DecidableEq, Repr

/-- What `readdir` yields: a file, an entry that cannot be stat'ed, a
directory. `openErr` is what `openat` fails with, `dirErr` what `opendir` or
`fdopendir` does. -/
inductive Dir where
  | done
  | file (name : Name) (type : FileType) (rest : Dir)
  | lost (name : Name) (e : Errno) (rest : Dir)
  | sub (name : Name) (openErr dirErr : Option Errno) (inner rest : Dir)

/-- What is at the path the walk starts at. It is `refused` where `open` or
`stat` fails. -/
inductive Start where
  | refused
  | file (type : FileType)
  | dir (dirErr : Option Errno) (entries : Dir)

/-! ## The arguments and the state -/

/-- The build, and the flags: `useAtfile` is `USE_ATFILE`, `dNamlen` is
`JSTR_HAVE_DIRENT_D_NAMLEN`. -/
structure FtwOpts where
  useAtfile : Bool
  dNamlen : Bool
  matchpath : Bool
  reg : Bool
  dir : Bool
  nosubdir : Bool
  nohidden : Bool
  actionretval : Bool
  deriving DecidableEq, Repr

/-- A call of `FUNC` or of `FUNC_MATCH`: the string and the length passed.
`entry` is what it is called for, the names from the start on. -/
structure FtwCall where
  entry : List Name
  path : Bytes
  len : Nat
  deriving DecidableEq

/-- The part of `struct jstr_internal_io_ftw_data` that does not change. -/
structure FtwData where
  opts : FtwOpts
  func : List FtwCall → Int
  funcMatch : Option (Bytes → Nat → Bool)

/-- The part that does: `ftw.dirpath`, `ftw.dirpath_len`, `action_stop`; the
calls made; and whether an error other than `EACCES` and `ENOENT` was met. -/
structure FtwState where
  dirpath : Bytes
  dirpathLen : Nat
  actionStop : Bool
  calls : List FtwCall
  matchCalls : List FtwCall
  failed : Bool

/-- What comes after a piece of the loop's body: `next_entry`, `break`,
`return`, or the next piece. -/
inductive Flow where
  | next
  | brk
  | ret (r : RetTy)
  | on
  deriving DecidableEq

abbrev Piece := Flow × FtwState

/-- On with the next piece, unless the first one left. -/
def Piece.andThen (p : Piece) (k : FtwState → Piece) : Piece :=
  match p with
  | (.on, s) => k s
  | p => p

/-- The bytes up to the terminator. -/
def cstr (b : Bytes) : Bytes := b.takeWhile (· ≠ 0)

/-! ## Paths -/

/-- `jstr_io_appendpath_len_p`: the buffer, and where the string ends. -/
def appendpathLenP (path : Bytes) (sz : Nat) (fname : Bytes) : Bytes × Nat :=
  (path.take sz ++ 47 :: (fname ++ 0 :: path.drop (sz + 1 + fname.length + 1)),
    sz + 1 + fname.length)

/-- `FILL_PATH_ALWAYS`; both of its forms do the same. -/
def fillPathAlways (n : Nat) (name : Name) (s : FtwState) : FtwState :=
  let (dirpath, dirpathLen) := appendpathLenP s.dirpath n name.chrs
  { s with dirpath, dirpathLen }

/-- Entries that are ignored: hidden ones, or `.` and `..` alone. -/
def FtwOpts.ignored (o : FtwOpts) (name : Name) : Bool :=
  if o.nohidden then name.chrs.head? = some 46
  else name.chrs = [46] ∨ name.chrs = [46, 46]

/-- The guard, in its two forms. -/
def FtwOpts.tooLong (o : FtwOpts) (n : Nat) (name : Name) : Bool :=
  if o.dNamlen then ioPathMax ≤ n + name.chrs.length
  else ioPathMax - ioNameMax ≤ n ∧ ioPathMax ≤ n + name.chrs.length

section Walk

variable (a : FtwData)

/-- `FILL_PATH`. Without the `*at` functions the path is there already. -/
def fillPath (n : Nat) (name : Name) (s : FtwState) : FtwState :=
  if a.opts.useAtfile then fillPathAlways n name s else s

/-! ## The calls -/

/-- `a->func(&a->ftw, a->func_args)`. -/
def callFunc (entry : List Name) (s : FtwState) : Int × FtwState :=
  let calls := s.calls ++ [⟨entry, cstr s.dirpath, s.dirpathLen⟩]
  (a.func calls, { s with calls })

/-- `a->func_match(fname, fname_len, a->func_match_args)`. -/
def callMatch (m : Bytes → Nat → Bool) (entry : List Name) (fname : Bytes) (fnameLen : Nat)
    (s : FtwState) : Bool × FtwState :=
  (m fname fnameLen, { s with matchCalls := s.matchCalls ++ [⟨entry, fname, fnameLen⟩] })

/-- `func:`, and what becomes of its answer: 0 is `RET_STOP`, 1 `RET_CONTINUE`,
2 `RET_SKIP_SIBLINGS`, 3 `RET_SKIP_SUBTREE`. -/
def func (entry : List Name) (s : FtwState) : Piece :=
  let (tmp, s) := callFunc a entry s
  if a.opts.actionretval then
    if tmp = 1 ∨ tmp = 3 then (.next, s)
    else if tmp = 2 then (.brk, s)
    else (.ret .succ, { s with actionStop := true })
  else if tmp = -1 then (.ret .err, s)
  else (.next, s)

/-- The same on a directory, which is gone into. -/
def funcDir (entry : List Name) (s : FtwState) : Piece :=
  let (tmp, s) := callFunc a entry s
  if a.opts.actionretval then
    if tmp = 1 then (.on, s)
    else if tmp = 3 then (.next, s)
    else if tmp = 2 then (.brk, s)
    else (.ret .succ, { s with actionStop := true })
  else if tmp = -1 then (.ret .err, s)
  else (.on, s)

/-! ## One entry -/

/-- What is done with every entry before its type is known. -/
def screen (n : Nat) (name : Name) (s : FtwState) : Piece :=
  if a.opts.ignored name then (.next, s)
  else if a.opts.tooLong n name then (.ret .err, { s with failed := true })
  else (.on, if a.opts.useAtfile then s else fillPathAlways n name s)

/-- `do_reg:`. -/
def doReg (c : List Name) (n : Nat) (name : Name) (s : FtwState) : Piece :=
  match a.funcMatch with
  | some m =>
    if a.opts.matchpath then
      let s := fillPath a n name s
      let (rejects, s) := callMatch m (c ++ [name]) (cstr s.dirpath) s.dirpathLen s
      if rejects then (.next, s) else func a (c ++ [name]) s
    else
      let (rejects, s) := callMatch m (c ++ [name]) name.chrs name.chrs.length s
      if rejects then (.next, s) else func a (c ++ [name]) (fillPath a n name s)
  | none => func a (c ++ [name]) (fillPath a n name s)

/-- A regular file, or one of another type. -/
def fileEntry (c : List Name) (n : Nat) (name : Name) (type : FileType) (s : FtwState) : Piece :=
  (screen a n name s).andThen fun s =>
    match type with
    | .reg => if a.opts.dir ∧ ¬a.opts.reg then (.next, s) else doReg a c n name s
    | .other => if a.opts.dir ∨ a.opts.reg then (.next, s) else doReg a c n name s

/-- An entry that cannot be stat'ed. -/
def lostEntry (c : List Name) (n : Nat) (name : Name) (e : Errno) (s : FtwState) : Piece :=
  (screen a n name s).andThen fun s =>
    if e.nonfatal then
      if a.opts.dir ∨ a.opts.reg then (.next, s) else func a (c ++ [name]) s
    else (.ret .err, { s with failed := true })

/-- A directory, up to where it is read. -/
def dirEntry (c : List Name) (n : Nat) (name : Name) (openErr : Option Errno) (s : FtwState) :
    Piece :=
  (screen a n name s).andThen fun s =>
    if a.opts.nosubdir ∧ a.opts.reg ∧ ¬a.opts.dir then (.next, s)
    else
      let s := fillPath a n name s
      Piece.andThen
        (if a.opts.reg ∧ ¬a.opts.dir then (.on, s) else funcDir a (c ++ [name]) s) fun s =>
      if a.opts.nosubdir then (.next, s)
      else if a.opts.useAtfile then
        match openErr with
        | some e => (.next, { s with failed := s.failed || !e.nonfatal })
        | none => (.on, s)
      else (.on, s)

/-- `opendir` fails. What `FUNC` answers is not looked at. -/
def unopened (c : List Name) (e : Errno) (n : Nat) (s : FtwState) : RetTy × FtwState :=
  if e.nonfatal then
    if a.opts.reg ∧ ¬a.opts.dir then (.succ, s)
    else
      let (rejects, s) :=
        match a.funcMatch with
        | some m => callMatch m c (cstr s.dirpath) s.dirpathLen s
        | none => (false, s)
      if rejects then (.succ, s) else (.succ, (callFunc a c { s with dirpathLen := n }).2)
  else (.err, { s with failed := true })

/-- What becomes of the result for a nested directory. -/
def nested (r : RetTy × FtwState) : Piece :=
  if a.opts.actionretval then
    if r.2.actionStop then (.ret .succ, r.2) else (.next, r.2)
  else if r.1 = .err then (.ret .err, r.2)
  else (.next, r.2)

/-- How a body ends an iteration; the rest of the loop is `k`. -/
def Piece.settle (p : Piece) (k : FtwState → RetTy × FtwState) : RetTy × FtwState :=
  match p with
  | (.next, s) => k s
  | (.on, s) => k s
  | (.brk, s) => (.succ, s)
  | (.ret r, s) => (r, s)

/-! ## The walk -/

/-- The loop of `jstr_internal_io_ftw_len` over the entries of the directory
`c`, whose path takes `n` bytes of the buffer. -/
def readLoop : Dir → List Name → Nat → FtwState → RetTy × FtwState
  | .done, _, _, s => (.succ, s)
  | .file name type rest, c, n, s => (fileEntry a c n name type s).settle (readLoop rest c n)
  | .lost name e rest, c, n, s => (lostEntry a c n name e s).settle (readLoop rest c n)
  | .sub name openErr dirErr inner rest, c, n, s =>
    ((dirEntry a c n name openErr s).andThen fun s =>
      nested a <| match dirErr with
        | some e => unopened a (c ++ [name]) e s.dirpathLen s
        | none => readLoop inner (c ++ [name]) s.dirpathLen s).settle (readLoop rest c n)

/-- `jstr_internal_io_ftw_len`. -/
def internalFtwLen (dirErr : Option Errno) (entries : Dir) (c : List Name) (n : Nat)
    (s : FtwState) : RetTy × FtwState :=
  match dirErr with
  | some e => unopened a c e n s
  | none => readLoop a entries c n s

/-- Trailing slashes are not copied. -/
def stripLen (dirpath : Bytes) : Nat → Nat
  | 0 => 0
  | n + 1 => if n + 1 ≠ 1 ∧ dirpath[n]? = some 47 then stripLen dirpath n else n + 1

/-- `JSTR_RET_ERR` and `JSTR_RET_SUCC`. -/
def RetTy.toInt : RetTy → Int
  | err => -1
  | succ => 0

/-- `FUNC` on the directory the walk starts at: what the walk ends with, if it
does. -/
def funcStart (s : FtwState) : Option Int × FtwState :=
  let (tmp, s) := callFunc a [] s
  if a.opts.actionretval then
    if tmp = 0 then (some 0, s)
    else if tmp ≠ 1 ∧ tmp ≠ 3 ∧ tmp ≠ 2 then (some (-1), s)
    else (none, s)
  else if tmp = -1 then (some (-1), s)
  else (none, s)

/-- What `FUNC_MATCH` says of a start that is not a directory. -/
def matchStart (m : Bytes → Nat → Bool) (n : Nat) (s : FtwState) : Bool × FtwState :=
  if a.opts.matchpath then callMatch m [] (cstr s.dirpath) n s
  else
    match libcMemrchr (memOf s.dirpath) 0 47 n with
    | some i =>
      if memOf s.dirpath (i + 1) ≠ 0 then
        callMatch m [] (cstr (s.dirpath.drop (i + 1))) (n - 1) s
      else (false, s)
    | none => callMatch m [] (cstr s.dirpath) n s

/-- `jstr_io_ftw_len`. -/
def ioFtwLen (start : Start) (dirpath : Bytes) : Int × FtwState :=
  let n := stripLen dirpath dirpath.length
  let s : FtwState := ⟨dirpath.take n ++ [0], n, false, [], [], false⟩
  if dirpath.length = 0 ∨ ioPathMax ≤ dirpath.length then (-1, s)
  else
    match start with
    | .refused => (-1, s)
    | .dir dirErr entries =>
      let s := if dirpath.take n = [47] then { s with dirpathLen := 0 } else s
      let (ended, s) := if a.opts.reg ∧ ¬a.opts.dir then (none, s) else funcStart a s
      match ended with
      | some r => (r, s)
      | none =>
        let (r, s) := internalFtwLen a dirErr entries [] n s
        (r.toInt, s)
    | .file type =>
      if a.opts.reg ∧ type ≠ .reg then (0, s)
      else
        let (rejects, s) :=
          match a.funcMatch with
          | some m => matchStart a m n s
          | none => (false, s)
        if rejects then (0, s) else callFunc a [] s

end Walk

end Jstr
