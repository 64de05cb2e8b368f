import Jstring.Lib.Numeral

/-!
# What a format of printf writes

The formats for characters, strings and integers, with a flag, a width, a
precision and a length modifier, and the text they stand for. A format is
a list of pieces, and every directive comes with the arguments it takes, one
slot of 64 bits each; an `int` is in the lower half of its slot.

- `formatBytes` is how the pieces are spelled, `formatArgs` what is passed
  with them;
- `formatText` is what is written. A wide character is written as `wc`
  says, which is left to the locale;
- `length_formatText`: how much that is, without the text itself.
-/

namespace Printf

open Numeral

abbrev Text := List UInt8

/-- The `int` in a slot. -/
def slotInt (a : UInt64) : Int := a.toUInt32.toInt32.toInt

/-! ## Formats -/

/-- A number as it stands in a format. -/
def value (ds : List (Fin 10)) : Nat := horner 10 0 (ds.map Fin.val)

inductive Flag where
  | none
  | minus
  | zero
  deriving DecidableEq, Repr

/-- A decimal width does not begin with 0, which would be the flag. -/
inductive Width where
  | none
  | dec (first : Fin 9) (rest : List (Fin 10))
  | star (arg : UInt64)
  deriving DecidableEq, Repr

inductive IntConv where
  | d
  | i
  | u
  | o
  | x
  | X
  deriving DecidableEq, Repr

inductive LenMod where
  | none
  | l
  | ll
  deriving DecidableEq, Repr

/-- A conversion with its argument. A string comes with the bytes at it, a
wide string with its characters. -/
inductive Conv where
  | int (k : IntConv) (len : LenMod) (arg : UInt64)
  | chr (arg : UInt64)
  | wchr (arg : UInt64)
  | str (arg : UInt64) (s : Text)
  | wstr (arg : UInt64) (ws : List UInt32)
  deriving DecidableEq, Repr

structure Directive where
  flag : Flag
  width : Width
  prec : Option (List (Fin 10))
  conv : Conv
  deriving DecidableEq, Repr

/-- A byte that stands for itself, `%%`, or a directive. -/
inductive Piece where
  | lit (c : {c : UInt8 // c ≠ 0 ∧ c ≠ 37})
  | percent
  | directive (d : Directive)
  deriving DecidableEq

/-! ### Spelling -/

def digitByte (d : Fin 10) : UInt8 := 48 + UInt8.ofNat d

def Flag.bytes : Flag → Text
  | .none => []
  | .minus => [45]
  | .zero => [48]

def Width.digits (first : Fin 9) (rest : List (Fin 10)) : List (Fin 10) := first.succ :: rest

def Width.bytes : Width → Text
  | .none => []
  | .dec first rest => (Width.digits first rest).map digitByte
  | .star _ => [42]

def precBytes : Option (List (Fin 10)) → Text
  | none => []
  | some ds => 46 :: ds.map digitByte

def LenMod.bytes : LenMod → Text
  | .none => []
  | .l => [108]
  | .ll => [108, 108]

def IntConv.letter : IntConv → UInt8
  | .d => 100
  | .i => 105
  | .u => 117
  | .o => 111
  | .x => 120
  | .X => 88

def Conv.bytes : Conv → Text
  | .int k len _ => len.bytes ++ [k.letter]
  | .chr _ => [99]
  | .wchr _ => [108, 99]
  | .str _ _ => [115]
  | .wstr _ _ => [108, 115]

def Directive.bytes (d : Directive) : Text :=
  37 :: (d.flag.bytes ++ (d.width.bytes ++ (precBytes d.prec ++ d.conv.bytes)))

def Piece.bytes : Piece → Text
  | .lit c => [c.val]
  | .percent => [37, 37]
  | .directive d => d.bytes

/-- The format string, without its terminator. -/
def formatBytes (ps : List Piece) : Text := ps.flatMap Piece.bytes

def Width.args : Width → List UInt64
  | .star arg => [arg]
  | _ => []

def Conv.arg : Conv → UInt64
  | .int _ _ arg => arg
  | .chr arg => arg
  | .wchr arg => arg
  | .str arg _ => arg
  | .wstr arg _ => arg

def Piece.args : Piece → List UInt64
  | .directive d => d.width.args ++ [d.conv.arg]
  | _ => []

/-- The arguments, in the order in which they are taken. -/
def formatArgs (ps : List Piece) : List UInt64 := ps.flatMap Piece.args

/-! ## Text -/

def IntConv.base : IntConv → Nat
  | .o => 8
  | .x => 16
  | .X => 16
  | _ => 10

/-- The number in the slot of an integer conversion. -/
def intVal : IntConv → LenMod → UInt64 → Int
  | .d, .none, a => slotInt a
  | .i, .none, a => slotInt a
  | .d, _, a => a.toInt64.toInt
  | .i, _, a => a.toInt64.toInt
  | _, .none, a => a.toUInt32.toNat
  | _, _, a => a.toNat

def IntConv.digit (k : IntConv) (d : Nat) : UInt8 :=
  UInt8.ofNat (if d < 10 then 48 + d else if k = .X then 55 + d else 87 + d)

/-- Zero with the precision 0 has no digits. -/
def magnitude (k : IntConv) (prec : Option Nat) (n : Nat) : Text :=
  if n = 0 ∧ prec = some 0 then [] else (lsd k.base n).reverse.map k.digit

/-- Not fewer digits than the precision says. -/
def intDigits (k : IntConv) (prec : Option Nat) (n : Nat) : Text :=
  List.replicate (prec.getD 1 - (magnitude k prec n).length) 48 ++ magnitude k prec n

/-- The characters that fit into `n` bytes, none of them in part. -/
def wholeChars : Nat → List Text → Text
  | _, [] => []
  | n, t :: ts => if t.length ≤ n then t ++ wholeChars (n - t.length) ts else []

def Conv.sign : Conv → Text
  | .int k len a => if intVal k len a < 0 then [45] else []
  | _ => []

def Conv.body (wc : UInt32 → Text) (prec : Option Nat) : Conv → Text
  | .int k len a => intDigits k prec (intVal k len a).natAbs
  | .chr a => [a.toUInt8]
  | .wchr a => wc a.toUInt32
  | .str _ s => match prec with
    | none => s
    | some n => s.take n
  | .wstr _ ws => match prec with
    | none => ws.flatMap wc
    | some n => wholeChars n (ws.map wc)

def Conv.isInt : Conv → Bool
  | .int _ _ _ => true
  | _ => false

def Width.size : Width → Nat
  | .none => 0
  | .dec first rest => value (Width.digits first rest)
  | .star arg => (slotInt arg).natAbs

/-- A negative width is the flag '-' and its absolute value. -/
def Width.negative : Width → Bool
  | .star arg => slotInt arg < 0
  | _ => false

def Directive.text (wc : UInt32 → Text) (d : Directive) : Text :=
  let sign := d.conv.sign
  let body := d.conv.body wc (d.prec.map value)
  let gap := d.width.size - (sign ++ body).length
  if d.flag = .minus ∨ d.width.negative then sign ++ body ++ List.replicate gap 32
  else if d.flag = .zero ∧ d.conv.isInt ∧ d.prec = none then
    sign ++ List.replicate gap 48 ++ body
  else List.replicate gap 32 ++ (sign ++ body)

def Piece.text (wc : UInt32 → Text) : Piece → Text
  | .lit c => [c.val]
  | .percent => [37]
  | .directive d => d.text wc

/-- What is written, without the terminator. -/
def formatText (wc : UInt32 → Text) (ps : List Piece) : Text := ps.flatMap (Piece.text wc)

/-! ## How much is written -/

/-- How many digits an integer conversion writes. -/
def digitCount (k : IntConv) (prec : Option Nat) (n : Nat) : Nat :=
  max (prec.getD 1) (if n = 0 ∧ prec = some 0 then 0 else (lsd k.base n).length)

def Conv.need (wc : UInt32 → Text) (prec : Option Nat) : Conv → Nat
  | .int k len a =>
    (if intVal k len a < 0 then 1 else 0) + digitCount k prec (intVal k len a).natAbs
  | .chr _ => 1
  | .wchr a => (wc a.toUInt32).length
  | .str _ s => prec.elim s.length fun n => min n s.length
  | .wstr _ ws => (prec.elim (ws.flatMap wc) fun n => wholeChars n (ws.map wc)).length

def Directive.need (wc : UInt32 → Text) (d : Directive) : Nat :=
  max d.width.size (d.conv.need wc (d.prec.map value))

def Piece.need (wc : UInt32 → Text) : Piece → Nat
  | .lit _ => 1
  | .percent => 1
  | .directive d => d.need wc

/-- How many bytes a format writes, without the terminator. -/
def formatNeed (wc : UInt32 → Text) (ps : List Piece) : Nat := (ps.map (Piece.need wc)).sum

theorem length_intDigits (k : IntConv) (prec : Option Nat) (n : Nat) :
    (intDigits k prec n).length = digitCount k prec n := by
  have hlen : (magnitude k prec n).length
      = if n = 0 ∧ prec = some 0 then 0 else (lsd k.base n).length := by
    rw [magnitude]
    split
    · rfl
    · rw [List.length_map, List.length_reverse]
  rw [intDigits, digitCount, List.length_append, List.length_replicate, ← hlen]
  omega

theorem Conv.length_body (wc : UInt32 → Text) (prec : Option Nat) (c : Conv) :
    (c.sign ++ c.body wc prec).length = c.need wc prec := by
  rw [List.length_append]
  cases c with
  | int k len a =>
      simp only [Conv.sign, Conv.body, Conv.need, length_intDigits]
      split <;> rfl
  | chr a => rfl
  | wchr a => exact Nat.zero_add _
  | str a s =>
      cases prec with
      | none => exact Nat.zero_add _
      | some n => simp only [Conv.sign, Conv.body, Conv.need, List.length_nil, List.length_take,
          Option.elim_some, Nat.zero_add]
  | wstr a ws =>
      cases prec with
      | none => exact Nat.zero_add _
      | some n => exact Nat.zero_add _

theorem Directive.length_text (wc : UInt32 → Text) (d : Directive) :
    (d.text wc).length = d.need wc := by
  rw [Directive.need, ← Conv.length_body, Directive.text]
  split
  · rw [List.length_append, List.length_replicate]
    omega
  · split
    · rw [List.length_append, List.length_append, List.length_replicate, List.length_append]
      omega
    · rw [List.length_append, List.length_replicate]
      omega

theorem length_formatText (wc : UInt32 → Text) (ps : List Piece) :
    (formatText wc ps).length = formatNeed wc ps := by
  rw [formatText, formatNeed, List.length_flatMap]
  congr 1
  refine List.map_congr_left fun p _ => ?_
  cases p with
  | lit c => rfl
  | percent => rfl
  | directive d => exact d.length_text wc

end Printf
