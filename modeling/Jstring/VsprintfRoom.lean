import Jstring.VsprintfMaxlen
import Jstring.Spans

/-!
# Whether the room is enough

`vsprintfMaxlen` against what the format writes (`Printf.formatText`). The scan is
followed piece by piece: from the head of the loop to the head behind the
piece, with `pieceRoom` more, or to the return of -1 on a number that no
`int` holds (`checked_piece`). `vsprintfMaxlen_eq` is the sum, and
`vsprintfMaxlen_covers_iff` says when it is enough.
-/

namespace Jstr

open Machine

/-! ## Sums in `size_t` -/

theorem addSz_sizeOfInt (t : Int) (n : Nat) : addSz (sizeOfInt t) n = sizeOfInt (t + n) := by
  rw [addSz, sizeOfInt, sizeOfInt]
  omega

theorem addSz_sizeOfInt_int (t i : Int) :
    addSz (sizeOfInt t) (sizeOfInt i) = sizeOfInt (t + i) := by
  rw [addSz, sizeOfInt, sizeOfInt, sizeOfInt]
  omega

/-! ## Numbers in the format -/

section Numbers

variable {mem : Mem} {p : Nat}

theorem isdigit_digitByte : ∀ d : Fin 10, isdigit (Printf.digitByte d) = true := by decide

theorem toNat_digitByte : ∀ d : Fin 10, (Printf.digitByte d - 48).toNat = d.val := by decide

/-- Digits at `p`, and something else behind them. -/
structure DigitsAt (mem : Mem) (p : Nat) (ds : List (Fin 10)) : Prop where
  bytes : MemAt mem p (ds.map Printf.digitByte)
  stop : isdigit (mem (p + ds.length)) = false

theorem DigitsAt.head {d : Fin 10} {ds : List (Fin 10)} (h : DigitsAt mem p (d :: ds)) :
    mem p = Printf.digitByte d := h.bytes 0 (Nat.succ_pos _)

theorem DigitsAt.tail {d : Fin 10} {ds : List (Fin 10)} (h : DigitsAt mem p (d :: ds)) :
    DigitsAt mem (p + 1) ds where
  bytes := h.bytes.drop (n := 1) (Nat.succ_pos _)
  stop := by
    have hstop := h.stop
    rwa [List.length_cons, Nat.add_comm ds.length, ← Nat.add_assoc] at hstop

/-- The digits are added up in an `unsigned int`. -/
theorem padLoop_eq : ∀ {ds : List (Fin 10)} {fuel p n : Nat}, DigitsAt mem p ds →
    ds.length < fuel → padLoop mem fuel p (n % 4294967296)
      = .ok (p + ds.length, Numeral.horner 10 n (ds.map Fin.val) % 4294967296)
  | _, 0, _, _, _, hf => absurd hf (Nat.not_lt_zero _)
  | [], fuel + 1, p, n, h, _ => by
      have hstop := h.stop
      rw [List.length_nil, Nat.add_zero] at hstop
      rw [padLoop, hstop]
      rfl
  | d :: ds, fuel + 1, p, n, h, hf => by
      have hmod : (n % 4294967296 * 10 + d.val) % 4294967296
          = (n * 10 + d.val) % 4294967296 := by omega
      rw [padLoop, h.head, if_pos (isdigit_digitByte d), toNat_digitByte, hmod,
        padLoop_eq h.tail (Nat.lt_of_succ_lt_succ hf), List.length_cons, List.map_cons,
        Numeral.horner_cons]
      congr 2
      omega

theorem value_cons_zero (ds : List (Fin 10)) : Printf.value (0 :: ds) = Printf.value ds := rfl

end Numbers

/-! ## Single steps -/

section Steps

variable {mem : Mem} {strerror : Nat} {s : FmtScan}

theorem switch_minus (h : mem (s.fmt + 1) = 45) :
    s.switch mem strerror = FmtScan.again { s with fmt := s.fmt + 1, isPad := true } := by
  rw [FmtScan.switch, h]
  rfl

theorem switch_zero (h : mem (s.fmt + 1) = 48) :
    s.switch mem strerror = FmtScan.again { s with fmt := s.fmt + 1 } := by
  rw [FmtScan.switch, h]
  rfl

theorem switch_dot (h : mem (s.fmt + 1) = 46) :
    s.switch mem strerror = FmtScan.again { s with fmt := s.fmt + 1, isPad := true } := by
  rw [FmtScan.switch, h]
  rfl

theorem switch_l (h : mem (s.fmt + 1) = 108) :
    s.switch mem strerror = FmtScan.again { s with fmt := s.fmt + 1, lflag := s.lflag + 1 } := by
  rw [FmtScan.switch, h]
  rfl

theorem switch_digit {d : Fin 10} (hd : d ≠ 0) (h : mem (s.fmt + 1) = Printf.digitByte d) :
    s.switch mem strerror = FmtScan.padding mem { s with fmt := s.fmt + 1 } := by
  rw [FmtScan.switch, h]
  fin_cases d
  · exact absurd rfl hd
  all_goals rfl

theorem switch_int (k : Printf.IntConv) (h : mem (s.fmt + 1) = k.letter) :
    ∃ base, s.switch mem strerror = FmtScan.checkInteger base { s with fmt := s.fmt + 1 } := by
  rw [FmtScan.switch, h]
  cases k with
  | d => exact ⟨.dec, rfl⟩
  | i => exact ⟨.dec, rfl⟩
  | u => exact ⟨.dec, rfl⟩
  | o => exact ⟨.oct, rfl⟩
  | x => exact ⟨.hex, rfl⟩
  | X => exact ⟨.hex, rfl⟩

theorem switch_c (h : mem (s.fmt + 1) = 99) :
    s.switch mem strerror
      = if s.lflag = 0 then (FmtScan.add { s with fmt := s.fmt + 1 } 1).getArg
        else if s.lflag = 1 then
          FmtScan.getArg { FmtScan.add { s with fmt := s.fmt + 1 } bitsInt with lflag := 0 }
        else fmtErr := by
  rw [FmtScan.switch, h]
  rfl

theorem switch_percent (h : mem (s.fmt + 1) = 37) :
    s.switch mem strerror = (FmtScan.add { s with fmt := s.fmt + 1 } 2).brk := by
  rw [FmtScan.switch, h]
  rfl

/-- A string is as long as the bytes in front of its first NUL. -/
theorem switch_s {arg : UInt64} {ap : List UInt64} {l : Bytes} (h : mem (s.fmt + 1) = 115)
    (hap : s.ap = arg :: ap) (harg : arg ≠ 0) (hl : CStr mem arg.toNat l) :
    s.switch mem strerror
      = (FmtScan.add { s with fmt := s.fmt + 1, ap := ap } l.length).brk := by
  have hswitch : s.switch mem strerror = (do
      let q ← vaArg s.ap
      let n ← if q.1 ≠ 0 then strlen mem q.1.toNat else .ok 6
      (FmtScan.add { s with fmt := s.fmt + 1, ap := q.2 } n).brk) := by
    rw [FmtScan.switch, h]
    rfl
  rw [hswitch, hap]
  simp only [vaArg, bind, Except.bind, if_pos harg, hl.strlen_eq]

theorem switch_star {arg : UInt64} {ap : List UInt64} (h : mem (s.fmt + 1) = 42)
    (hap : s.ap = arg :: ap) :
    s.switch mem strerror
      = (FmtScan.add { s with fmt := s.fmt + 1, ap := ap }
          (sizeOfInt (Printf.slotInt arg))).again := by
  have hswitch : s.switch mem strerror = (do
      let q ← vaArg s.ap
      (FmtScan.add { s with fmt := s.fmt + 1, ap := q.2 }
        (sizeOfInt (Printf.slotInt q.1))).again) := by
    rw [FmtScan.switch, h]
    rfl
  rw [hswitch, hap]
  rfl

end Steps

/-! ## What is counted for a piece -/

/-- What a number in the format counts for: nothing unless it is behind a
'-' or a '.'. -/
def counted (pad : Bool) (n : Nat) : Nat := if pad then n % 4294967296 else 0

def widthCounted (pad : Bool) : Printf.Width → Nat
  | .dec first rest => counted pad (Printf.value (Printf.Width.digits first rest))
  | _ => 0

def precCounted (prec : Option (List (Fin 10))) : Nat :=
  prec.elim 0 fun ds => counted true (Printf.value ds)

/-- A `wchar_t` string in memory. -/
def wideBytes (ws : List UInt32) : Bytes :=
  ws.flatMap fun w : UInt32 =>
    [w.toUInt8, (w >>> 8).toUInt8, (w >>> 16).toUInt8, (w >>> 24).toUInt8]

/-- What `strlen` takes for the string when it is wide: the bytes in front of
the first zero byte. -/
def narrow (ws : List UInt32) : Bytes := (wideBytes (ws ++ [0])).takeWhile (· != 0)

/-- The room for an integer in any base, by its length modifier. -/
def intRoom : Printf.LenMod → Nat
  | .none => 8
  | _ => 14

/-- The room for a conversion itself. -/
def convRoom : Printf.Conv → Nat
  | .int _ len _ => intRoom len
  | .chr _ => 1
  | .wchr _ => 32
  | .str _ l => l.length
  | .wstr _ ws => (narrow ws).length

/-- A width that is an argument counts as it is, also a negative one. -/
def widthRoom (pad : Bool) : Printf.Width → Int
  | .star arg => Printf.slotInt arg
  | w => widthCounted pad w

/-- The room for a directive. -/
def directiveRoom (d : Printf.Directive) : Int :=
  widthRoom (d.flag = .minus) d.width + precCounted d.prec + convRoom d.conv

def pieceRoom : Printf.Piece → Int
  | .lit _ => 1
  | .percent => 2
  | .directive d => directiveRoom d

/-- The room for a format, without the two bytes that are added at the end. -/
def formatRoom (ps : List Printf.Piece) : Int := (ps.map pieceRoom).sum

/-- The numbers that are counted are taken for an `int`. -/
def NumbersFit : Printf.Piece → Prop
  | .directive d => widthCounted (d.flag = .minus) d.width ≤ intMax ∧ precCounted d.prec ≤ intMax
  | _ => True

instance : DecidablePred NumbersFit
  | .lit _ => .isTrue trivial
  | .percent => .isTrue trivial
  | .directive _ => inferInstanceAs (Decidable (_ ∧ _))

/-- The argument of a conversion is what it has to be: a string is not null
and where it should be. -/
def ConvArg (mem : Mem) : Printf.Conv → Prop
  | .str arg l => arg ≠ 0 ∧ CStr mem arg.toNat l
  | .wstr arg ws => arg ≠ 0 ∧ 0 ∉ ws ∧ MemAt mem arg.toNat (wideBytes (ws ++ [0])) ∧
      arg.toNat + (wideBytes (ws ++ [0])).length ≤ sizeMax
  | _ => True

def PieceArgs (mem : Mem) : Printf.Piece → Prop
  | .directive d => ConvArg mem d.conv
  | _ => True

/-- A wide string is a string too, one that ends at its first zero byte. -/
theorem cstr_narrow {mem : Mem} {a : Nat} {ws : List UInt32}
    (h : MemAt mem a (wideBytes (ws ++ [0])))
    (hfit : a + (wideBytes (ws ++ [0])).length ≤ sizeMax) : CStr mem a (narrow ws) := by
  have hzero : (0 : UInt8) ∈ wideBytes (ws ++ [0]) := by
    rw [wideBytes, List.flatMap_append]
    exact List.mem_append_right _ (by decide)
  have hpre : narrow ws <+: wideBytes (ws ++ [0]) := List.takeWhile_prefix _
  have hnot : 0 ∉ narrow ws := fun hmem =>
    absurd (List.all_eq_true.mp List.all_takeWhile 0 hmem) (by decide)
  have hlt : (narrow ws).length < (wideBytes (ws ++ [0])).length := by
    refine Nat.lt_of_le_of_ne hpre.length_le fun heq => hnot ?_
    rw [hpre.eq_of_length heq]
    exact hzero
  refine ⟨?_, hnot, ?_, by omega⟩
  · rw [List.prefix_iff_eq_take.mp hpre]
    exact h.take _
  · have hstop := (takeWhile_stop (· != 0) (wideBytes (ws ++ [0]))).2 _ (h.getElem? hlt)
    exact bne_eq_false_iff_eq.mp hstop

/-! ## Through a directive -/

/-- At the head of the loop, `t` being counted so far. -/
def atHead (p : Nat) (ap : List UInt64) (t : Int) : FmtAt :=
  .head ⟨p, ap, sizeOfInt t, 0, false, false⟩

/-- Inside a directive, in front of the byte behind `p`; `pad` after a '-' or
a '.'. -/
def inDirective (p : Nat) (ap : List UInt64) (t : Int) (pad : Bool) : FmtAt :=
  .contSwitch ⟨p, ap, sizeOfInt t, 0, pad, false⟩

section Directive

variable {mem : Mem} {strerror p : Nat} {ap : List UInt64} {t : Int} {pad : Bool}

/-- A number that counts, from its first digit on. -/
theorem padding_eq {d : Fin 10} {ds : List (Fin 10)} (h : DigitsAt mem (p + 1) (d :: ds))
    (hlen : (d :: ds).length ≤ sizeMax) :
    FmtScan.padding mem ⟨p + 1, ap, sizeOfInt t, 0, true, false⟩
      = if counted true (Printf.value (d :: ds)) ≤ intMax then
          .ok (.goto (inDirective (p + 1 + ds.length) ap
            (t + counted true (Printf.value (d :: ds))) true))
        else fmtErr := by
  have hloop := padLoop_eq (n := d.val) h.tail (Nat.lt_succ_of_le (Nat.le_of_succ_le hlen))
  have hval : Numeral.horner 10 d.val (ds.map Fin.val) = Printf.value (d :: ds) := by
    rw [Printf.value, List.map_cons, Numeral.horner_cons, Nat.zero_mul, Nat.zero_add]
  have hend : p + 1 + 1 + ds.length = p + 1 + ds.length + 1 := by omega
  rw [Nat.mod_eq_of_lt (by omega), hval, hend] at hloop
  rw [FmtScan.padding]
  simp only [h.head, isdigit_digitByte, toNat_digitByte, hloop, bind, Except.bind, Bool.not_true,
    Bool.false_eq_true, if_true, if_false, Nat.add_sub_cancel]
  rw [show Printf.value (d :: ds) % 4294967296 = counted true (Printf.value (d :: ds)) from rfl]
  by_cases hfit : counted true (Printf.value (d :: ds)) ≤ intMax
  · rw [if_neg (Nat.not_lt.mpr hfit), if_pos hfit, FmtScan.add, addSz_sizeOfInt]
    rfl
  · rw [if_pos (Nat.lt_of_not_le hfit), if_neg hfit]

/-- A number is passed, and counted if it has to be. -/
theorem checked_digits : ∀ {ds : List (Fin 10)} {p : Nat}, DigitsAt mem (p + 1) ds →
    ds.length ≤ sizeMax →
    Checked (maxlenStep mem strerror) (counted pad (Printf.value ds) ≤ intMax) ds.length
      (inDirective p ap t pad)
      (inDirective (p + ds.length) ap (t + counted pad (Printf.value ds)) pad) (-1)
  | [], p, _, _ => by
      have h0 : counted pad (Printf.value []) = 0 := by
        cases pad <;> rfl
      rw [h0, Int.natCast_zero, Int.add_zero]
      exact (Leads.refl.checked _).congr ⟨fun _ => Nat.zero_le _, fun _ => trivial⟩
  | d :: ds, p, h, hlen => by
      have hrest := checked_digits h.tail (Nat.le_of_succ_le hlen)
      have hfmt : p + (d :: ds).length = p + 1 + ds.length := by
        rw [List.length_cons]
        omega
      rw [hfmt]
      -- one digit that does not count
      have hskip : maxlenStep mem strerror (inDirective p ap t pad)
            = .ok (.goto (inDirective (p + 1) ap t pad)) →
          counted pad (Printf.value (d :: ds)) = counted pad (Printf.value ds) →
          Checked (maxlenStep mem strerror) (counted pad (Printf.value (d :: ds)) ≤ intMax)
            (d :: ds).length (inDirective p ap t pad)
            (inDirective (p + 1 + ds.length) ap (t + counted pad (Printf.value (d :: ds))) pad)
            (-1) := by
        intro hstep hcount
        rw [hcount, List.length_cons, Nat.add_comm]
        exact (((Leads.one hstep).checked _).trans hrest).congr (by rw [true_and])
      by_cases hd : d = 0
      · subst hd
        exact hskip (switch_zero h.head) (by rw [value_cons_zero])
      · have hswitch := @switch_digit mem strerror ⟨p, ap, sizeOfInt t, 0, pad, false⟩ d hd h.head
        cases pad with
        | false => exact hskip hswitch rfl
        | true =>
            have hpad := hswitch.trans (padding_eq h hlen)
            refine ⟨fun hfit => ?_, fun hbig => ?_⟩
            · rw [if_pos hfit] at hpad
              exact (Leads.one hpad).mono (Nat.succ_pos _)
            · rw [if_neg hbig] at hpad
              exact .ret hpad

theorem memAt_next {x y : Bytes} (h : MemAt mem (p + 1) (x ++ y)) :
    MemAt mem (p + 1) x ∧ MemAt mem (p + x.length + 1) y := by
  rw [Nat.add_right_comm]
  exact memAt_append.mp h

theorem leads_flag {flag : Printf.Flag} (h : MemAt mem (p + 1) flag.bytes) :
    Leads (maxlenStep mem strerror) flag.bytes.length (inDirective p ap t false)
      (inDirective (p + flag.bytes.length) ap t (flag = .minus)) := by
  cases flag with
  | none => exact .refl
  | minus => exact .one (switch_minus (h 0 Nat.one_pos))
  | zero => exact .one (switch_zero (h 0 Nat.one_pos))

theorem checked_width {w : Printf.Width} (h : MemAt mem (p + 1) w.bytes)
    (hstop : isdigit (mem (p + w.bytes.length + 1)) = false) (hlen : w.bytes.length ≤ sizeMax) :
    Checked (maxlenStep mem strerror) (widthCounted pad w ≤ intMax) w.bytes.length
      (inDirective p (w.args ++ ap) t pad)
      (inDirective (p + w.bytes.length) ap (t + widthRoom pad w) pad) (-1) := by
  cases w with
  | none =>
      have h0 : t + widthRoom pad .none = t := Int.add_zero t
      rw [h0]
      exact (Leads.refl.checked _).congr ⟨fun _ => Nat.zero_le _, fun _ => trivial⟩
  | dec first rest =>
      rw [Printf.Width.bytes, List.length_map] at hstop hlen ⊢
      exact checked_digits ⟨h, by rwa [Nat.add_right_comm]⟩ hlen
  | star arg =>
      have hstep := @switch_star mem strerror ⟨p, arg :: ap, sizeOfInt t, 0, pad, false⟩ arg ap
        (h 0 Nat.one_pos) rfl
      rw [FmtScan.add, addSz_sizeOfInt_int] at hstep
      exact ((Leads.one hstep).checked _).congr ⟨fun _ => Nat.zero_le _, fun _ => trivial⟩

theorem checked_prec {prec : Option (List (Fin 10))} (h : MemAt mem (p + 1) (Printf.precBytes prec))
    (hstop : isdigit (mem (p + (Printf.precBytes prec).length + 1)) = false)
    (hlen : (Printf.precBytes prec).length ≤ sizeMax) :
    Checked (maxlenStep mem strerror) (precCounted prec ≤ intMax) (Printf.precBytes prec).length
      (inDirective p ap t pad)
      (inDirective (p + (Printf.precBytes prec).length) ap (t + precCounted prec)
        (pad || prec.isSome)) (-1) := by
  cases prec with
  | none =>
      rw [precCounted, Option.elim_none, Int.natCast_zero, Int.add_zero, Option.isSome_none,
        Bool.or_false]
      exact (Leads.refl.checked _).congr ⟨fun _ => Nat.zero_le _, fun _ => trivial⟩
  | some ds =>
      have hdot : maxlenStep mem strerror (inDirective p ap t pad)
          = .ok (.goto (inDirective (p + 1) ap t true)) := switch_dot (h 0 (Nat.succ_pos _))
      rw [Printf.precBytes, List.length_cons, List.length_map] at hstop hlen ⊢
      have hdigits : DigitsAt mem (p + 1 + 1) ds :=
        ⟨h.drop (n := 1) (Nat.succ_pos _), by
          rwa [show p + 1 + 1 + ds.length = p + (ds.length + 1) + 1 by omega]⟩
      rw [Option.isSome_some, Bool.or_true, precCounted, Option.elim_some,
        show p + (ds.length + 1) = p + 1 + ds.length by omega, Nat.add_comm ds.length]
      exact (((Leads.one hdot).checked _).trans
        (checked_digits hdigits (Nat.le_of_succ_le hlen))).congr (by rw [true_and])

/-! ### The conversion -/

/-- `lflag` behind a length modifier. -/
def lflagOf : Printf.LenMod → Nat
  | .none => 0
  | .l => 1
  | .ll => 2

theorem leads_len {len : Printf.LenMod} (h : MemAt mem (p + 1) len.bytes) :
    Leads (maxlenStep mem strerror) len.bytes.length (inDirective p ap t pad)
      (.contSwitch ⟨p + len.bytes.length, ap, sizeOfInt t, lflagOf len, pad, false⟩) := by
  have hl : mem (p + 1) = 108 → maxlenStep mem strerror (inDirective p ap t pad)
      = .ok (.goto (.contSwitch ⟨p + 1, ap, sizeOfInt t, 1, pad, false⟩)) :=
    fun h => @switch_l mem strerror ⟨p, ap, sizeOfInt t, 0, pad, false⟩ h
  cases len with
  | none => exact .refl
  | l => exact .one (hl (h 0 Nat.one_pos))
  | ll =>
      have hll : maxlenStep mem strerror (.contSwitch ⟨p + 1, ap, sizeOfInt t, 1, pad, false⟩)
          = .ok (.goto (.contSwitch ⟨p + 1 + 1, ap, sizeOfInt t, 2, pad, false⟩)) :=
        @switch_l mem strerror ⟨p + 1, ap, sizeOfInt t, 1, pad, false⟩ (h 1 (by decide))
      exact .step (hl (h 0 (by decide))) (.one hll)

theorem checkInteger_eq (base : BaseTy) (len : Printf.LenMod) (arg : UInt64) :
    FmtScan.checkInteger base ⟨p, arg :: ap, sizeOfInt t, lflagOf len, pad, false⟩
      = .ok (.goto (atHead (p + 1) ap (t + intRoom len))) := by
  rw [atHead, ← addSz_sizeOfInt]
  cases len <;> cases base <;> rfl

theorem leads_conv {c : Printf.Conv} (h : MemAt mem (p + 1) c.bytes) (harg : ConvArg mem c) :
    Leads (maxlenStep mem strerror) c.bytes.length (inDirective p (c.arg :: ap) t pad)
      (atHead (p + c.bytes.length + 1) ap (t + convRoom c)) := by
  cases c with
  | int k len arg =>
      obtain ⟨hlen, hletter⟩ := memAt_next h
      obtain ⟨base, hstep⟩ := @switch_int mem strerror
        ⟨p + len.bytes.length, arg :: ap, sizeOfInt t, lflagOf len, pad, false⟩ k
        (hletter 0 Nat.one_pos)
      have hint := hstep.trans (checkInteger_eq base len arg)
      have hall := (leads_len hlen).trans (@Leads.one _ _ _ (maxlenStep mem strerror) _ _ hint)
      rwa [Printf.Conv.bytes, List.length_append, List.length_singleton]
  | chr arg =>
      have hstep := @switch_c mem strerror ⟨p, arg :: ap, sizeOfInt t, 0, pad, false⟩
        (h 0 Nat.one_pos)
      refine .one (hstep.trans ?_)
      rw [if_pos rfl, FmtScan.add, addSz_sizeOfInt]
      rfl
  | wchr arg =>
      obtain ⟨hlen, hletter⟩ := @memAt_next mem p [108] [99] h
      have hstep := @switch_c mem strerror ⟨p + 1, arg :: ap, sizeOfInt t, 1, pad, false⟩
        (hletter 0 Nat.one_pos)
      refine (@leads_len mem strerror p _ t pad .l hlen).trans (.one (hstep.trans ?_))
      rw [if_neg Nat.one_ne_zero, if_pos rfl, FmtScan.add, addSz_sizeOfInt]
      rfl
  | str arg l =>
      have hstep := @switch_s mem strerror ⟨p, arg :: ap, sizeOfInt t, 0, pad, false⟩ arg ap l
        (h 0 Nat.one_pos) rfl harg.1 harg.2
      refine .one (hstep.trans ?_)
      rw [FmtScan.add, addSz_sizeOfInt]
      rfl
  | wstr arg ws =>
      obtain ⟨hlen, hletter⟩ := @memAt_next mem p [108] [115] h
      have hstep := @switch_s mem strerror ⟨p + 1, arg :: ap, sizeOfInt t, 1, pad, false⟩ arg ap
        (narrow ws) (hletter 0 Nat.one_pos) rfl harg.1 (cstr_narrow harg.2.2.1 harg.2.2.2)
      refine (@leads_len mem strerror p _ t pad .l hlen).trans (.one (hstep.trans ?_))
      rw [FmtScan.add, addSz_sizeOfInt]
      rfl

/-! ### From '%' to the conversion -/

theorem conv_bytes (c : Printf.Conv) : ∃ b l, c.bytes = b :: l ∧ isdigit b = false := by
  cases c with
  | int k len arg => cases len <;> cases k <;> exact ⟨_, _, rfl, rfl⟩
  | chr arg => exact ⟨_, _, rfl, rfl⟩
  | wchr arg => exact ⟨_, _, rfl, rfl⟩
  | str arg l => exact ⟨_, _, rfl, rfl⟩
  | wstr arg ws => exact ⟨_, _, rfl, rfl⟩

theorem conv_stop {c : Printf.Conv} (h : MemAt mem (p + 1) c.bytes) :
    isdigit (mem (p + 1)) = false := by
  obtain ⟨b, l, hc, hb⟩ := conv_bytes c
  rw [hc] at h
  rw [show mem (p + 1) = b from h 0 (Nat.succ_pos _)]
  exact hb

theorem prec_stop {prec : Option (List (Fin 10))} {c : Printf.Conv}
    (h : MemAt mem (p + 1) (Printf.precBytes prec ++ c.bytes)) :
    isdigit (mem (p + 1)) = false := by
  cases prec with
  | none => exact conv_stop h
  | some ds =>
      rw [show mem (p + 1) = 46 from h 0 (Nat.succ_pos _)]
      rfl

theorem checked_directive {d : Printf.Directive} (h : MemAt mem p d.bytes)
    (harg : ConvArg mem d.conv) (hfit : d.bytes.length ≤ sizeMax) :
    Checked (maxlenStep mem strerror) (NumbersFit (.directive d)) d.bytes.length
      (atHead p ((Printf.Piece.directive d).args ++ ap) t)
      (atHead (p + d.bytes.length) ap (t + directiveRoom d)) (-1) := by
  obtain ⟨hflag, hbehind⟩ := memAt_next (h.drop (n := 1) (Nat.succ_pos _))
  obtain ⟨hwidth, hrest⟩ := memAt_next hbehind
  obtain ⟨hprec, hconv⟩ := memAt_next hrest
  have hlen : d.bytes.length = 1 + d.flag.bytes.length + (d.width.bytes.length +
      ((Printf.precBytes d.prec).length + d.conv.bytes.length)) := by
    simp only [Printf.Directive.bytes, List.length_cons, List.length_append]
    omega
  have hend : p + d.bytes.length = p + d.flag.bytes.length + d.width.bytes.length +
      (Printf.precBytes d.prec).length + d.conv.bytes.length + 1 := by omega
  have hroom : t + directiveRoom d = t + widthRoom (d.flag = .minus) d.width +
      precCounted d.prec + convRoom d.conv := by
    rw [directiveRoom]
    omega
  have hargs : (Printf.Piece.directive d).args ++ ap = d.width.args ++ (d.conv.arg :: ap) :=
    List.append_assoc _ _ _
  have hpercent : maxlenStep mem strerror (atHead p (d.width.args ++ (d.conv.arg :: ap)) t)
      = .ok (.goto (inDirective p (d.width.args ++ (d.conv.arg :: ap)) t false)) :=
    if_pos (h 0 (Nat.succ_pos _))
  rw [hend, hroom, hargs, hlen]
  exact ((((Leads.one hpercent).trans (leads_flag hflag)).checked _).trans
    ((checked_width hwidth (prec_stop hrest) (by omega)).trans
      ((checked_prec hprec (conv_stop hconv) (by omega)).trans
        ((leads_conv hconv harg).checked _)))).congr
    (by rw [true_and, and_true]; rfl)

theorem checked_piece {pc : Printf.Piece} (h : MemAt mem p pc.bytes) (harg : PieceArgs mem pc)
    (hfit : pc.bytes.length ≤ sizeMax) :
    Checked (maxlenStep mem strerror) (NumbersFit pc) pc.bytes.length
      (atHead p (pc.args ++ ap) t) (atHead (p + pc.bytes.length) ap (t + pieceRoom pc)) (-1) := by
  cases pc with
  | lit c =>
      have hc : mem p = c.val := h 0 Nat.one_pos
      have hstep : maxlenStep mem strerror (atHead p ap t)
          = .ok (.goto (atHead (p + 1) ap (t + 1))) := by
        rw [atHead, maxlenStep, if_neg (by rw [hc]; exact c.property.2),
          if_neg (by rw [hc]; exact c.property.1), FmtScan.add, addSz_sizeOfInt]
        rfl
      exact (Leads.one hstep).checked _
  | percent =>
      have hhead : maxlenStep mem strerror (atHead p ap t)
          = .ok (.goto (inDirective p ap t false)) := if_pos (h 0 (Nat.succ_pos _))
      have hstep := @switch_percent mem strerror ⟨p, ap, sizeOfInt t, 0, false, false⟩
        (h 1 (by decide))
      rw [FmtScan.add, addSz_sizeOfInt] at hstep
      exact (Leads.step hhead (.one hstep)).checked _
  | directive d => exact checked_directive h harg hfit

/-- A whole format. -/
theorem checked_format : ∀ {ps : List Printf.Piece} {p : Nat} {t : Int},
    MemAt mem p (Printf.formatBytes ps) → (∀ pc ∈ ps, PieceArgs mem pc) →
    (Printf.formatBytes ps).length ≤ sizeMax →
    Checked (maxlenStep mem strerror) (∀ pc ∈ ps, NumbersFit pc) (Printf.formatBytes ps).length
      (atHead p (Printf.formatArgs ps) t)
      (atHead (p + (Printf.formatBytes ps).length) [] (t + formatRoom ps)) (-1)
  | [], p, t, _, _, _ => by
      have h0 : t + formatRoom [] = t := Int.add_zero t
      rw [h0]
      exact (Leads.refl.checked _).congr ⟨fun _ => List.forall_mem_nil _, fun _ => trivial⟩
  | pc :: ps, p, t, h, hargs, hfit => by
      have hbytes : Printf.formatBytes (pc :: ps) = pc.bytes ++ Printf.formatBytes ps :=
        List.flatMap_cons
      have hroom : t + formatRoom (pc :: ps) = t + pieceRoom pc + formatRoom ps := by
        rw [formatRoom, List.map_cons, List.sum_cons, ← formatRoom]
        omega
      rw [hbytes] at h hfit ⊢
      rw [List.length_append] at hfit ⊢
      rw [hroom, ← Nat.add_assoc]
      obtain ⟨hpiece, hrest⟩ := memAt_append.mp h
      exact ((checked_piece hpiece (hargs pc (List.mem_cons_self ..)) (by omega)).trans
        (checked_format hrest (fun q hq => hargs q (List.mem_cons_of_mem _ hq)) (by omega))).congr
        List.forall_mem_cons.symm

end Directive

/-! ## The sum -/

section Room

variable {mem : Mem} {strerror fmt : Nat}

theorem clampInt_eq (t : Int) :
    clampInt (sizeOfInt t) = (min (sizeOfInt (t + 1)) intMax : Nat) := by
  have h1 := addSz_sizeOfInt t 1
  rw [Int.natCast_one] at h1
  rw [clampInt, h1]
  split <;> omega

/-- What is returned for a format. -/
theorem vsprintfMaxlen_eq {ps : List Printf.Piece} (hfmt : CStr mem fmt (Printf.formatBytes ps))
    (hargs : ∀ pc ∈ ps, PieceArgs mem pc) :
    vsprintfMaxlen mem strerror (Printf.formatArgs ps) fmt
      = .ok (if ∀ pc ∈ ps, NumbersFit pc then
          ((min (sizeOfInt (formatRoom ps + 2)) intMax : Nat) : Int) else -1) := by
  have hfit : (Printf.formatBytes ps).length ≤ sizeMax :=
    Nat.le_trans (Nat.le_add_left ..) hfmt.fits
  have hrun := @checked_format mem strerror ps fmt 0 hfmt.bytes hargs hfit
  rw [Int.zero_add] at hrun
  refine exec_of_ends (n := (Printf.formatBytes ps).length) ?_ (Nat.lt_succ_of_le hfit)
  by_cases hnum : ∀ pc ∈ ps, NumbersFit pc
  · have hnul : maxlenStep mem strerror
        (atHead (fmt + (Printf.formatBytes ps).length) [] (formatRoom ps))
        = .ok (.ret (min (sizeOfInt (formatRoom ps + 2)) intMax : Nat)) := by
      have hclamp := clampInt_eq (formatRoom ps + 1)
      rw [← Int.natCast_one, ← addSz_sizeOfInt, Int.natCast_one, Int.add_assoc] at hclamp
      rw [atHead, maxlenStep, hfmt.nul, if_neg (by decide), if_pos rfl, FmtScan.add, hclamp]
      rfl
    rw [if_pos hnum]
    exact ⟨_, hrun.pass hnum, hnul⟩
  · rw [if_neg hnum]
    exact hrun.fail hnum

/-! ### Against what is written -/

/-- What a piece leaves of its room, less than nothing where it writes more. -/
def pieceSpare (wc : UInt32 → Bytes) : Printf.Piece → Int
  | .lit _ => 0
  | .percent => 1
  | .directive d => directiveRoom d - d.need wc

def formatSpare (wc : UInt32 → Bytes) (ps : List Printf.Piece) : Int :=
  (ps.map (pieceSpare wc)).sum

/-- The room is enough: the numbers that are counted are `int`s, so is the
length with the terminator, and of the room at most one byte is missing. A sum
that is negative is a large number in `size_t`. -/
structure RoomFits (wc : UInt32 → Bytes) (ps : List Printf.Piece) : Prop where
  numbers : ∀ pc ∈ ps, NumbersFit pc
  short : Printf.formatNeed wc ps < intMax
  spare : sizeOfInt (formatSpare wc ps + 1) + Printf.formatNeed wc ps < sizeMax

theorem formatRoom_eq (wc : UInt32 → Bytes) (ps : List Printf.Piece) :
    formatRoom ps = Printf.formatNeed wc ps + formatSpare wc ps := by
  induction ps with
  | nil => rfl
  | cons pc ps ih =>
      have hpiece : pieceRoom pc = pc.need wc + pieceSpare wc pc := by
        cases pc with
        | lit c => rfl
        | percent => rfl
        | directive d =>
            rw [pieceRoom, pieceSpare, Printf.Piece.need]
            omega
      rw [formatRoom, Printf.formatNeed, formatSpare, List.map_cons, List.map_cons, List.map_cons,
        List.sum_cons, List.sum_cons, List.sum_cons, ← formatRoom, ← Printf.formatNeed,
        ← formatSpare, ih, hpiece]
      omega

/-- One byte missing is made up for by the two that are added at the end. -/
theorem spare_iff {n : Nat} (hn : n < intMax) (spare : Int) :
    n < sizeOfInt (n + spare + 2) ↔ sizeOfInt (spare + 1) + n < sizeMax := by
  simp only [sizeOfInt, sizeMax, intMax] at *
  omega

/-- The number covers what is written, with the terminator, exactly where
the room is enough. -/
theorem vsprintfMaxlen_covers_iff (wc : UInt32 → Bytes) {ps : List Printf.Piece}
    (hfmt : CStr mem fmt (Printf.formatBytes ps)) (hargs : ∀ pc ∈ ps, PieceArgs mem pc) :
    ∃ r, vsprintfMaxlen mem strerror (Printf.formatArgs ps) fmt = .ok r ∧
      (((Printf.formatText wc ps).length : Int) + 1 ≤ r ↔ RoomFits wc ps) := by
  refine ⟨_, vsprintfMaxlen_eq hfmt hargs, ?_⟩
  rw [Printf.length_formatText]
  by_cases hnum : ∀ pc ∈ ps, NumbersFit pc
  · rw [if_pos hnum]
    have hmin : ((Printf.formatNeed wc ps : Int) + 1
          ≤ (min (sizeOfInt (formatRoom ps + 2)) intMax : Nat))
        ↔ Printf.formatNeed wc ps < sizeOfInt (formatRoom ps + 2) ∧
          Printf.formatNeed wc ps < intMax := by omega
    rw [hmin, formatRoom_eq wc]
    constructor
    · rintro ⟨hcover, hshort⟩
      exact ⟨hnum, hshort, (spare_iff hshort _).mp hcover⟩
    · intro hroom
      exact ⟨(spare_iff hroom.short _).mpr hroom.spare, hroom.short⟩
  · rw [if_neg hnum]
    constructor
    · intro hneg
      omega
    · intro hroom
      exact absurd hroom.numbers hnum

/-- "n=%-5d%s", with 42 and the string at 9. -/
def paddedFormat : List Printf.Piece :=
  [.lit ⟨110, by decide⟩, .lit ⟨61, by decide⟩,
    .directive ⟨.minus, .dec 4 [], none, .int .d .none 42⟩,
    .directive ⟨.none, .none, none, .str 9 [97, 98]⟩]

theorem vsprintfMaxlen_covers_iff_padded :
    ∃ r, vsprintfMaxlen (memOf [110, 61, 37, 45, 53, 100, 37, 115, 0, 97, 98]) 0 [42, 9] 0 = .ok r ∧
      (((Printf.formatText (fun _ => []) paddedFormat).length : Int) + 1 ≤ r
        ↔ RoomFits (fun _ => []) paddedFormat) := by
  have hfmt : CStr (memOf [110, 61, 37, 45, 53, 100, 37, 115, 0, 97, 98]) 0
      (Printf.formatBytes paddedFormat) := ⟨by decide, by decide, by decide, by decide⟩
  have hstr : CStr (memOf [110, 61, 37, 45, 53, 100, 37, 115, 0, 97, 98]) 9 [97, 98] :=
    ⟨by decide, by decide, by decide, by decide⟩
  refine vsprintfMaxlen_covers_iff _ hfmt fun pc hpc => ?_
  simp only [paddedFormat, List.mem_cons, List.not_mem_nil, or_false] at hpc
  rcases hpc with rfl | rfl | rfl | rfl
  · trivial
  · trivial
  · trivial
  · exact ⟨by decide, hstr⟩

/-- "%d" with the smallest `int` writes 11 bytes and the terminator; 10 is
returned. -/
theorem not_vsprintfMaxlen_covers :
    ¬∀ (mem : Mem) (strerror fmt : Nat) (wc : UInt32 → Bytes) (ps : List Printf.Piece),
      CStr mem fmt (Printf.formatBytes ps) → (∀ pc ∈ ps, PieceArgs mem pc) →
      ∃ r, vsprintfMaxlen mem strerror (Printf.formatArgs ps) fmt = .ok r ∧
        ((Printf.formatText wc ps).length : Int) + 1 ≤ r := by
  intro hall
  have hfmt : CStr (memOf [37, 100]) 0
      (Printf.formatBytes [.directive ⟨.none, .none, none, .int .d .none 2147483648⟩]) :=
    ⟨by decide, by decide, by decide, by decide⟩
  have hargs : ∀ pc ∈ [Printf.Piece.directive ⟨.none, .none, none, .int .d .none 2147483648⟩],
      PieceArgs (memOf [37, 100]) pc := fun pc hpc => by
    rw [List.mem_singleton.mp hpc]
    trivial
  obtain ⟨r, hr, hcover⟩ := hall (memOf [37, 100]) 0 0 (fun _ => []) _ hfmt hargs
  have hten : r = 10 := Except.ok.inj (hr.symm.trans (vsprintfMaxlen_eq hfmt hargs))
  rw [hten] at hcover
  exact absurd hcover (by decide)

end Room

end Jstr
