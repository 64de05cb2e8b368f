import Jstring.Libc
import Jstring.Lib.Machine
import Jstring.Lib.Printf

/-!
# How much room a format asks for

The branch of `jstr_vsprintf_maxlen` (`include/builder.h`) that goes
through the format itself, for a machine where `int` and `wint_t` have 32
bits, `long`, `long long` and pointers 64, and every argument is passed in
a slot of 64. The loop is a machine with two labels, the head of the `for`
and `cont_switch`.
-/

namespace Jstr

open Machine

/-! ## Sizes -/

/-- `INT_MAX`. -/
def intMax : Nat := 2147483647

/-- `INT` and the others of that enumeration: sizes in bits. -/
def bitsInt : Nat := 32

def bitsLong : Nat := 64

def bitsLongLong : Nat := 64

def bitsSize : Nat := 64

def bitsUintptr : Nat := 64

/-- `DOUBLE`. -/
def bitsDouble : Nat := 1 + 64

/-- `DOUBLE_LONG`. -/
def bitsDoubleLong : Nat := 1 + 128

/-- `DEC_INT` and the others: how many digits so many bits are taken to have. -/
def decDigits (bits : Nat) : Nat := 1 + bits / 10

def octDigits (bits : Nat) : Nat := 1 + bits / 8

def hexDigits (bits : Nat) : Nat := 1 + bits / 16

/-- `base_ty`. -/
inductive BaseTy where
  | dec
  | oct
  | hex
  deriving DecidableEq, Repr

/-- `JSTR_INTERNAL_GETMAXDIGITS`: `2 * DEC_##length` in every base. -/
def getMaxDigits (base : BaseTy) (isThousep : Bool) (bits : Nat) : Nat :=
  match base with
  | .dec => if isThousep then decDigits bits else 2 * decDigits bits
  | .hex => if isThousep then hexDigits bits else 2 * decDigits bits
  | .oct => if isThousep then octDigits bits else 2 * decDigits bits

/-! ## The loop -/

/-- `va_arg(ap, void *)`. -/
def vaArg : List UInt64 → Run (UInt64 × List UInt64)
  | [] => .error .bounds
  | a :: ap => .ok (a, ap)

/-- `(size_t)i`. -/
def sizeOfInt (i : Int) : Nat := (i % 18446744073709551616).toNat

/-- The variables of the loop. `errno_len` stays 0, and `pad_len` is set
before it is used. -/
structure FmtScan where
  fmt : Nat
  ap : List UInt64
  argLen : Nat
  lflag : Nat
  isPad : Bool
  isThousep : Bool
  deriving DecidableEq, Repr

/-- Where the loop is. -/
inductive FmtAt where
  | head (s : FmtScan)
  | contSwitch (s : FmtScan)
  deriving DecidableEq, Repr

/-- `arg_len += n`. -/
def FmtScan.add (s : FmtScan) (n : Nat) : FmtScan := { s with argLen := addSz s.argLen n }

/-- `goto cont_switch`. -/
def FmtScan.again (s : FmtScan) : Run (Next FmtAt Int) := .ok (.goto (.contSwitch s))

/-- `break` out of the switch, what stands behind it, and `++fmt`. -/
def FmtScan.brk (s : FmtScan) : Run (Next FmtAt Int) :=
  .ok (.goto (.head
    { s with fmt := s.fmt + 1, lflag := 0, isPad := false, isThousep := false }))

/-- `goto get_arg`. -/
def FmtScan.getArg (s : FmtScan) : Run (Next FmtAt Int) := do
  let (_, ap) ← vaArg s.ap
  FmtScan.brk { s with ap := ap }

/-- `JSTR_RETURN_ERR(-1)`. -/
def fmtErr : Run (Next FmtAt Int) := .ok (.ret (-1))

/-- `goto check_integer`; `L_INT`, `L_LONG` and `L_LONG_LONG` are 0, 1 and 2. -/
def FmtScan.checkInteger (base : BaseTy) (s : FmtScan) : Run (Next FmtAt Int) :=
  if s.lflag = 0 then (s.add (getMaxDigits base s.isThousep bitsInt)).getArg
  else if s.lflag = 1 then
    FmtScan.getArg { s.add (getMaxDigits base s.isThousep bitsLong) with lflag := 0 }
  else if s.lflag = 2 then
    FmtScan.getArg { s.add (getMaxDigits base s.isThousep bitsLongLong) with lflag := 0 }
  else fmtErr

/-- `for (; jstr_isdigit(*p); ++p) pad_len = (pad_len * 10) + (*p - '0');` -/
def padLoop (mem : Mem) : Nat → Nat → Nat → Run (Nat × Nat)
  | 0, _, _ => .error .diverge
  | fuel + 1, p, padLen =>
    if isdigit (mem p) then
      padLoop mem fuel (p + 1) ((padLen * 10 + (mem p - 48).toNat) % 4294967296)
    else .ok (p, padLen)

/-- The cases '1' to '9'. -/
def FmtScan.padding (mem : Mem) (s : FmtScan) : Run (Next FmtAt Int) :=
  if s.isPad then
    if !isdigit (mem s.fmt) then s.again
    else do
      let (p, padLen) ← padLoop mem (sizeMax + 1) (s.fmt + 1) (mem s.fmt - 48).toNat
      let s := { s with fmt := p - 1 }
      if padLen > intMax then fmtErr else (s.add padLen).again
  else s.again

/-- The cases of the switch, `c` being `*fmt`; `strerror` is where the text
of `errno` is. -/
def FmtScan.onByte (mem : Mem) (strerror : Nat) (s : FmtScan) (c : UInt8) :
    Run (Next FmtAt Int) :=
  match Char.ofUInt8 c with
  | 's' => do
    let (arg, ap) ← vaArg s.ap
    let n ← if arg ≠ 0 then strlen mem arg.toNat else .ok 6
    (FmtScan.add { s with ap := ap } n).brk
  | 'c' =>
    if s.lflag = 0 then (s.add 1).getArg
    else if s.lflag = 1 then FmtScan.getArg { s.add bitsInt with lflag := 0 }
    else fmtErr
  | 'u' | 'd' | 'i' => s.checkInteger .dec
  | 'x' | 'X' => s.checkInteger .hex
  | 'o' => s.checkInteger .oct
  | 'p' => do
    let (arg, ap) ← vaArg s.ap
    (FmtScan.add { s with ap := ap } (if arg ≠ 0 then hexDigits bitsUintptr + 2 else 5)).brk
  | 'n' => (s.add bitsInt).brk
  | 'a' | 'A' | 'e' | 'E' | 'f' | 'F' | 'g' | 'G' =>
    if s.lflag = 0 then (s.add (if s.isThousep then bitsDouble * 2 else bitsDouble)).getArg
    else if s.lflag = 1 then
      FmtScan.getArg
        { s.add (if s.isThousep then bitsDoubleLong * 2 else bitsDoubleLong) with lflag := 0 }
    else fmtErr
  | '%' => (s.add 2).brk
  | 'm' => do
    let n ← strlen mem strerror
    (s.add n).brk
  | '*' => do
    let (arg, ap) ← vaArg s.ap
    (FmtScan.add { s with ap := ap } (sizeOfInt (Printf.slotInt arg))).again
  | '-' => FmtScan.again { s with isPad := true }
  | '+' | '#' | '0' | ' ' => s.again
  | '\x27' => FmtScan.again { s with isThousep := true }
  | '.' => FmtScan.again { s with isPad := true }
  | 'l' => FmtScan.again { s with lflag := s.lflag + 1 }
  | 't' => FmtScan.again { s with lflag := bitsUintptr }
  | 'z' => FmtScan.again { s with lflag := bitsSize }
  | 'h' | 'j' => s.again
  | '1' | '2' | '3' | '4' | '5' | '6' | '7' | '8' | '9' => s.padding mem
  | _ => fmtErr

/-- `switch (*++fmt)`. -/
def FmtScan.switch (mem : Mem) (strerror : Nat) (s : FmtScan) : Run (Next FmtAt Int) :=
  FmtScan.onByte mem strerror { s with fmt := s.fmt + 1 } (mem (s.fmt + 1))

/-- `++arg_len`, and not more than an `int` holds. -/
def clampInt (argLen : Nat) : Int :=
  let argLen := addSz argLen 1
  if argLen > intMax then intMax else argLen

/-- One turn of the `for`, or one of the switch. -/
def maxlenStep (mem : Mem) (strerror : Nat) : FmtAt → Run (Next FmtAt Int)
  | .head s =>
    if mem s.fmt = 37 then .ok (.goto (.contSwitch s))
    else
      let s' := s.add 1
      if mem s.fmt = 0 then .ok (.ret (clampInt s'.argLen))
      else .ok (.goto (.head { s' with fmt := s.fmt + 1 }))
  | .contSwitch s => s.switch mem strerror

/-- `jstr_vsprintf_maxlen`, where it does not ask `vsnprintf`. -/
def vsprintfMaxlen (mem : Mem) (strerror : Nat) (ap : List UInt64) (fmt : Nat) : Run Int :=
  exec Fault.diverge (maxlenStep mem strerror) (sizeMax + 1)
    (.head ⟨fmt, ap, 0, 0, false, false⟩)

end Jstr
