import Jstring.VsprintfRoom
import Jstring.Calls

/-!
# Formatted text

`jstr_asprintf`, `jstr_asprintf_append` and `jstr_asprintf_from`, with the
room found by `vsnprintf` or, under `JSTR_TEST`, by hand. A format comes
with its arguments in place (`Format`), and `vsprintf` writes the text it
stands for. `printed_run` is about any number of such calls on one
record: the text is that of the calls that succeeded, and formats appended
one after the other are one format.
-/

namespace Jstr

/-! ## The functions -/

section Calls

variable {mem : Mem}

/-- A format in memory, with its arguments where they should be. -/
structure Format (mem : Mem) where
  fmt : Nat
  pieces : List Printf.Piece
  bytes : CStr mem fmt (Printf.formatBytes pieces)
  args : ∀ pc ∈ pieces, PieceArgs mem pc

/-- What the format stands for; `wc` are the bytes of a wide character. -/
def Format.text (wc : UInt32 → Bytes) (F : Format mem) : Bytes := Printf.formatText wc F.pieces

/-- What a call is made with: the build, the bytes of a wide character, and
where the text of `errno` is. -/
structure FmtEnv where
  cfg : Build
  wc : UInt32 → Bytes
  strerror : Nat

variable (env : FmtEnv)

/-- `vsprintf`: the text with its terminator, or -1 for a length that no
`int` holds. -/
def vsprintf (F : Format mem) (b : Blk) (s : Nat) : Run (Blk × Int) :=
  if (F.text env.wc).length ≤ intMax then do
    let b ← b.write s (F.text env.wc ++ [0])
    .ok (b, (F.text env.wc).length)
  else .ok (b, -1)

/-- `vsnprintf(NULL, 0, fmt, ap)`. -/
def vsnprintfNull (F : Format mem) : Int :=
  if (F.text env.wc).length ≤ intMax then (F.text env.wc).length else -1

/-- `jstr_vsprintf_maxlen`, by the `#if` it stands behind. -/
def vsprintfMaxlenBy (F : Format mem) : Run Int :=
  if env.cfg.test then vsprintfMaxlen mem env.strerror (Printf.formatArgs F.pieces) F.fmt
  else
    let ret := vsnprintfNull env F
    if 0 ≤ ret then .ok (ret + 1) else .ok (-1)

/-- `jstr_sprintf_from`; `jstr_sprintf` begins at 0. -/
def sprintfFrom (F : Format mem) (j : JstrTy) (startIdx : Nat) : Run (RetTy × JstrTy) := do
  let b ← j.deref
  let (b, ret) ← vsprintf env F b (b.addr + startIdx)
  if ret < 0 then .ok (.err, { j with data := some b })
  else .ok (.succ, { j with data := some b, size := addSz ret.toNat startIdx })

/-- What the three have in common: room behind `startIdx` by `res`, then the
text there. -/
def asprintfWith (res : JstrTy → Nat → Run (RetTy × JstrTy)) (F : Format mem) (j : JstrTy)
    (startIdx : Nat) : Run (RetTy × JstrTy) := do
  let ret ← vsprintfMaxlenBy env F
  if ret < 0 then .ok (.err, j)
  else orErr (res j (addSz startIdx ret.toNat)) fun j => sprintfFrom env F j startIdx

/-- `jstr_asprintf`. -/
def asprintf (al : Alloc) (F : Format mem) (j : JstrTy) : Run (RetTy × JstrTy) :=
  asprintfWith env (reserveexact al) F j 0

/-- `jstr_asprintf_append`. -/
def asprintfAppend (al : Alloc) (F : Format mem) (j : JstrTy) : Run (RetTy × JstrTy) :=
  asprintfWith env (reserve al) F j j.size

/-- `jstr_asprintf_from`. -/
def asprintfFrom (al : Alloc) (F : Format mem) (j : JstrTy) (startIdx : Nat) :
    Run (RetTy × JstrTy) :=
  asprintfWith env (reserve al) F j startIdx

end Calls

/-! ## The room -/

/-- The length with the terminator is an `int`, and the room that is counted
by hand is enough. -/
structure Sized {mem : Mem} (env : FmtEnv) (F : Format mem) : Prop where
  short : (F.text env.wc).length < intMax
  room : env.cfg.test → RoomFits env.wc F.pieces

section Room

variable {mem : Mem} {env : FmtEnv} {F : Format mem}

theorem vsprintf_eq {b : Blk} {s : Nat} (h : Sized env F)
    (hroom : b.InRange s ((F.text env.wc).length + 1)) :
    vsprintf env F b s
      = .ok (b.put s (F.text env.wc ++ [0]), (F.text env.wc).length) := by
  rw [vsprintf, if_pos (Nat.le_of_lt h.short), Blk.write_eq]
  · rfl
  · rwa [List.length_append, List.length_singleton]

/-- Both ways of counting give room for the text with its terminator, in an
`int`. -/
theorem vsprintfMaxlenBy_covers (h : Sized env F) :
    ∃ n : Nat, vsprintfMaxlenBy env F = .ok n ∧ (F.text env.wc).length + 1 ≤ n ∧ n ≤ intMax := by
  unfold vsprintfMaxlenBy
  cases htest : env.cfg.test with
  | false =>
      refine ⟨(F.text env.wc).length + 1, ?_, le_refl _, h.short⟩
      rw [if_neg Bool.false_ne_true, vsnprintfNull, if_pos (Nat.le_of_lt h.short)]
      exact if_pos (Int.natCast_nonneg _)
  | true =>
      have hroom := h.room htest
      have hlen : (F.text env.wc).length = Printf.formatNeed env.wc F.pieces :=
        Printf.length_formatText _ _
      have hcover := (spare_iff hroom.short _).mpr hroom.spare
      rw [← formatRoom_eq] at hcover
      refine ⟨min (sizeOfInt (formatRoom F.pieces + 2)) intMax, ?_, ?_, Nat.min_le_right _ _⟩
      · rw [if_pos rfl, vsprintfMaxlen_eq F.bytes F.args, if_pos hroom.numbers]
      · have hshort := h.short
        omega

end Room

/-! ## One call -/

section Call

variable {mem : Mem} {env : FmtEnv} {F : Format mem} {j : JstrTy} {l : Bytes}

/-- With room behind `i`, the text stands there instead of what was there. -/
theorem sprintfFrom_spec {i : Nat} {b : Blk} (h : Sized env F) (hi : i ≤ l.length)
    (hd : j.data = some b) (hb : b.size = j.capacity) (hat : b.At b.addr l)
    (hroom : i + (F.text env.wc).length + 1 ≤ b.size) (hfit : i + intMax ≤ sizeMax) :
    ∃ j', sprintfFrom env F j i = .ok (.succ, j') ∧ Str j' (l.take i ++ F.text env.wc) := by
  have htake : b.At b.addr (l.take i) := by
    have hsplit := l.take_append_drop i
    rw [← hsplit] at hat
    exact (Memory.Block.at_append.mp hat).1
  have hlen : (l.take i).length = i := List.length_take_of_le hi
  have hstore := stores_back (m := F.text env.wc) htake (by rw [hlen]; exact hroom)
  rw [hlen] at hstore
  have hshort := h.short
  have hnn : ¬ ((F.text env.wc).length : Int) < 0 := not_lt.mpr (Int.natCast_nonneg _)
  have hprint := vsprintf_eq (b := b) (s := b.addr + i) h ⟨Nat.le_add_right _ _, by omega⟩
  have hsum : addSz (F.text env.wc).length i = (F.text env.wc).length + i :=
    addSz_eq (by omega)
  refine ⟨{ j with
    data := some (b.put (b.addr + i) (F.text env.wc ++ [0]))
    size := addSz (F.text env.wc).length i }, ?_, ?_⟩
  · simp only [sprintfFrom, JstrTy.deref, hd, bind, Except.bind, hprint, if_neg hnn,
      Int.toNat_natCast]
  · refine ⟨_, rfl, hstore.size.trans hb, ?_, hstore.addr ▸ hstore.content⟩
    rw [List.length_append, hlen, Nat.add_comm i]
    exact hsum

/-- What `jstr_asprintf_append` and `jstr_asprintf_from` do. -/
theorem asprintfWith_spec {al : Alloc} {i : Nat} (hc : Content j l) (h : Sized env F)
    (hi : i ≤ l.length) (hfit : i + intMax ≤ sizeMax) :
    Safe j (fun j' => Str j' (l.take i ++ F.text env.wc))
      (asprintfWith env (reserve al) F j i) := by
  obtain ⟨n, hn, hcover, hmax⟩ := vsprintfMaxlenBy_covers h
  have hnn : ¬ (n : Int) < 0 := not_lt.mpr (Int.natCast_nonneg _)
  have hsum : addSz i n = i + n := addSz_eq (by omega)
  simp only [asprintfWith, hn, bind, Except.bind, if_neg hnn, Int.toNat_natCast, hsum]
  refine (reserve_spec hc.backed (by omega)).orErr fun j' hg => ?_
  obtain ⟨b, hd, hb, hroom⟩ := hg.room
  have hat : b.At b.addr l := by
    rcases (hg.kept (by omega)).content l hc with ⟨rfl, _⟩ | ⟨b', hh⟩
    · cases hd
    · cases hd.symm.trans hh.data
      exact hh.content
  exact sprintfFrom_spec h hi hd hb hat (by omega) hfit

/-- `jstr_asprintf` leaves the text alone in the record. Where there is no
memory for it, the string is still there, behind a capacity that is not. -/
theorem asprintf_spec {al : Alloc} (hc : Content j l) (h : Sized env F) :
    ∃ r j', asprintf env al F j = .ok (r, j') ∧
      (r = .succ → Str j' (F.text env.wc)) ∧
      (r = .err → j'.data = j.data ∧ j'.size = j.size) := by
  obtain ⟨n, hn, hcover, hmax⟩ := vsprintfMaxlenBy_covers h
  have hnn : ¬ (n : Int) < 0 := not_lt.mpr (Int.natCast_nonneg _)
  have hsum : addSz 0 n = n := by
    rw [addSz_eq (by rw [sizeMax]; rw [intMax] at hmax; omega), Nat.zero_add]
  have hprint : ∀ j' b, j'.data = some b → b.size = j'.capacity → n ≤ b.size →
      ∃ j'', sprintfFrom env F j' 0 = .ok (.succ, j'') ∧ Str j'' (F.text env.wc) := by
    intro j' b hd hb hroom
    exact sprintfFrom_spec (l := []) h (le_refl _) hd hb
      (Memory.Block.at_nil ⟨le_refl _, Nat.le_add_right _ _⟩) (by omega)
      (by rw [sizeMax, intMax]; omega)
  simp only [asprintf, asprintfWith, hn, bind, Except.bind, if_neg hnn, Int.toNat_natCast, hsum]
  by_cases hcap : n < j.capacity
  · rw [reserveexact, if_pos hcap, orErr]
    have hb := hc.backed
    unfold Backed at hb
    cases hd : j.data with
    | none =>
        rw [hd] at hb
        omega
    | some b =>
        rw [hd] at hb
        obtain ⟨j'', hrun, hstr⟩ := hprint j b hd hb (by omega)
        exact ⟨.succ, j'', hrun, fun _ => hstr, fun h => by cases h⟩
  · rw [reserveexact, if_neg hcap, reserveexactalways_eq (by omega)]
    cases hr : al.realloc j.data n with
    | none => exact ⟨.err, _, rfl, (fun h => by cases h), fun _ => ⟨rfl, rfl⟩⟩
    | some tmp =>
        obtain ⟨j'', hrun, hstr⟩ := hprint { j with data := some tmp, capacity := n } tmp rfl
          (al.size_eq hr) (al.size_eq hr).ge
        exact ⟨.succ, j'', hrun, fun _ => hstr, fun h => by cases h⟩

end Call

/-! ## Runs of calls -/

/-- A call with its format. -/
inductive Print (mem : Mem) where
  | whole (F : Format mem)
  | append (F : Format mem)
  | behind (startIdx : Nat) (F : Format mem)

namespace Print

variable {mem : Mem} (env : FmtEnv)

def format : Print mem → Format mem
  | whole F | append F | behind _ F => F

def exec (al : Alloc) (j : JstrTy) : Print mem → Run (RetTy × JstrTy)
  | whole F => asprintf env al F j
  | append F => asprintfAppend env al F j
  | behind i F => asprintfFrom env al F j i

/-- What a call means for the text. -/
def effect (l : Bytes) : Print mem → Bytes
  | whole F => F.text env.wc
  | append F => l ++ F.text env.wc
  | behind i F => l.take i ++ F.text env.wc

/-- Where a call begins to write. -/
def start (j : JstrTy) : Print mem → Nat
  | whole _ => 0
  | append _ => j.size
  | behind i _ => i

/-- The caller's part: a format with room for its text, not behind the end,
and a sum that does not wrap. -/
structure Ready (j : JstrTy) (c : Print mem) : Prop where
  sized : Sized env c.format
  start : c.start j ≤ j.size
  fits : c.start j + intMax ≤ sizeMax

/-- The call reports a failure that leaves the record as it was. -/
def Recovers : Print mem → Prop
  | whole _ => False
  | _ => True

end Print

/-- The calls on `j₀`, of which `cs` succeeded. A record whose
`jstr_asprintf` failed is not used any more. -/
inductive Printed (mem : Mem) (env : FmtEnv) (j₀ : JstrTy) : List (Print mem) → JstrTy → Prop
  | start : Printed mem env j₀ [] j₀
  | done {cs j j'} {c : Print mem} (al : Alloc) : Printed mem env j₀ cs j → c.Ready env j →
      c.exec env al j = .ok (.succ, j') → Printed mem env j₀ (cs ++ [c]) j'
  | failed {cs j j'} {c : Print mem} (al : Alloc) : Printed mem env j₀ cs j → c.Ready env j →
      c.Recovers →
      c.exec env al j = .ok (.err, j') → Printed mem env j₀ cs j'

/-- The text after the calls, in the order made. -/
def printEffects {mem : Mem} (env : FmtEnv) (l : Bytes) (cs : List (Print mem)) : Bytes :=
  cs.foldl (Print.effect env) l

section Runs

variable {mem : Mem} {env : FmtEnv} {j j₀ : JstrTy} {l : Bytes}

/-- One call: outside the block it never writes, a success has the effect,
and a failure leaves what it should. -/
theorem Print.exec_spec {c : Print mem} {al : Alloc} (hc : Content j l) (h : c.Ready env j) :
    (∀ f, c.exec env al j = .error f → f = .diverge) ∧
      (∀ j', c.exec env al j = .ok (.succ, j') → Str j' (c.effect env l)) ∧
      (∀ j', c.exec env al j = .ok (.err, j') → c.Recovers → j' = j) := by
  have hrest : ∀ {F : Format mem} {i : Nat}, Sized env F → i ≤ j.size → i + intMax ≤ sizeMax →
      Safe j (fun j' => Str j' (l.take i ++ F.text env.wc))
        (asprintfWith env (reserve al) F j i) := fun hs hi hf =>
    asprintfWith_spec hc hs (hi.trans_eq hc.size) hf
  cases c with
  | whole F =>
      obtain ⟨r, j', hrun, hsucc, -⟩ := @asprintf_spec mem env F j l al hc h.sized
      refine ⟨fun f hf => ?_, fun j'' hj => ?_, fun _ _ hr => hr.elim⟩
      · cases hrun.symm.trans hf
      · cases hrun.symm.trans hj
        exact hsucc rfl
  | append F =>
      have hsafe := hrest h.sized h.start h.fits
      simp only [Print.start, hc.size, List.take_length] at hsafe
      rw [← hc.size] at hsafe
      obtain ⟨hfault, hsucc, herr⟩ := hsafe.outcomes
      exact ⟨hfault, hsucc, fun j' hj _ => herr j' hj⟩
  | behind i F =>
      obtain ⟨hfault, hsucc, herr⟩ := (hrest h.sized h.start h.fits).outcomes
      exact ⟨hfault, hsucc, fun j' hj _ => herr j' hj⟩

/-- Formats in a row write what the format they make up writes. -/
theorem printEffects_append : ∀ {Fs : List (Format mem)} {l : Bytes},
    printEffects env l (Fs.map .append)
      = l ++ Printf.formatText env.wc (Fs.flatMap (·.pieces))
  | [], l => (List.append_nil l).symm
  | F :: Fs, l => by
      have ih := @printEffects_append Fs (l ++ F.text env.wc)
      simp only [printEffects, List.map_cons, List.foldl_cons, Print.effect] at ih ⊢
      rw [ih, Format.text, List.flatMap_cons, Printf.formatText, Printf.formatText,
        Printf.formatText, List.flatMap_append, List.append_assoc]

/-- After any calls, some of which found no memory, the record holds the
text of those that succeeded, the next call that is ready stays inside the
block, and formats appended in a row are one format. -/
theorem printed_run {cs : List (Print mem)} (hc : Content j₀ l) (h : Printed mem env j₀ cs j) :
    Content j (printEffects env l cs) ∧
      (∀ al (c : Print mem) f, c.Ready env j → c.exec env al j = .error f → f = .diverge) ∧
      ∀ (Fs : List (Format mem)) (H : Format mem), cs = Fs.map .append →
        H.pieces = Fs.flatMap (·.pieces) →
        Content j (Print.effect env l (.append H)) := by
  have hrun : Content j (printEffects env l cs) := by
    induction h with
    | start => exact hc
    | done al _ hready hexec ih =>
        have hstr := (Print.exec_spec ih hready).2.1 _ hexec
        rw [printEffects, List.foldl_concat]
        exact hstr.content
    | failed al _ hready hrec hexec ih =>
        rw [(Print.exec_spec ih hready).2.2 _ hexec hrec]
        exact ih
  refine ⟨hrun, fun al c f hready => (Print.exec_spec hrun hready).1 f, ?_⟩
  rintro Fs H rfl hH
  rw [printEffects_append, ← hH] at hrun
  exact hrun

/-- "a%s" with the string at 4. -/
def letterFormat : Format (memOf [97, 37, 115, 0, 98, 99]) where
  fmt := 0
  pieces := [.lit ⟨97, by decide⟩, .directive ⟨.none, .none, none, .str 4 [98, 99]⟩]
  bytes := ⟨by decide, by decide, by decide, by decide⟩
  args := by
    intro pc hpc
    simp only [List.mem_cons, List.not_mem_nil, or_false] at hpc
    rcases hpc with rfl | rfl
    · trivial
    · exact ⟨by decide, by decide, by decide, by decide, by decide⟩

/-- A build without wide characters. -/
def narrowEnv : FmtEnv := ⟨sse2Build, fun _ => [], 0⟩

theorem printed_run_abc :
    Content ⟨some ⟨0, [97, 98, 99, 0] ++ List.replicate 20 1⟩, 3, 24⟩
      (printEffects narrowEnv [] [.append letterFormat]) := by
  have hready : (Print.append letterFormat).Ready narrowEnv JstrTy.init :=
    ⟨⟨by decide, fun h => absurd h (by decide)⟩, le_refl _, by decide⟩
  have hexec : (Print.append letterFormat).exec narrowEnv (Alloc.filling 0 1) JstrTy.init
      = .ok (.succ, ⟨some ⟨0, [97, 98, 99, 0] ++ List.replicate 20 1⟩, 3, 24⟩) := by
    rfl
  exact (printed_run (.inl ⟨rfl, rfl⟩) (.done (Alloc.filling 0 1) .start hready hexec)).1

end Runs

end Jstr
