import Jstring.Files

/-!
# Files by name and through streams

The functions of `include/io.h` that open the file themselves or use a `FILE`:
`jstr_io_writefile_len`, `jstr_io_fwritefilefp_len`, `jstr_io_fwritefile_len`,
`jstr_io_readfilefd`, `jstr_io_readfile_len`, `jstr_io_freadfilefp_len`,
`jstr_io_freadfilefp`, `jstr_io_freadfile_len` and `jstr_io_freadfile`. What
the system answers is given: whether `open`, `fopen`, `fstat` and `close`
succeed, how many bytes `fwrite` takes and `fread` gives, and what reaches the
file when `fclose` fails. Whichever way a buffer was written with success,
whichever way it is read (`streams_roundtrip`).
-/

namespace Jstr

/-! ## Writing -/

/-- What is in the file once the stream is closed: all of it, or so many bytes
when that failed. -/
def flushed (lost : Option Nat) (out : Bytes) : Bytes :=
  match lost with
  | none => out
  | some k => out.take k

/-- `jstr_io_fwritefilefp_len`, where `fwrite` takes `took` bytes at most and
`puts` says whether `putc` succeeds; with what the stream was given. -/
def fwritefilefpLen (took : Nat) (puts : Bool) (mem : Mem) (s sz : Nat) : RetTy × Bytes :=
  if sz = 0 then (.succ, [])
  else
    let out := window mem s (min took sz)
    if min took sz ≠ sz then (.err, out)
    else if mem (s + (sz - 1)) ≠ 10 then
      if puts then (.succ, out ++ [10]) else (.err, out)
    else (.succ, out)

/-- `jstr_io_fwritefile_len`. -/
def fwritefileLen (opens : Bool) (took : Nat) (puts : Bool) (lost : Option Nat) (mem : Mem)
    (s sz : Nat) : RetTy × Bytes :=
  if !opens then (.err, [])
  else
    match fwritefilefpLen took puts mem s sz with
    | (.err, out) => (.err, flushed lost out)
    | (.succ, out) =>
      match lost with
      | some k => (.err, flushed (some k) out)
      | none => (.succ, out)

/-- `jstr_io_writefile_len`, given how its build of `jstr_io_writefilefd_len`
ends on the descriptor. -/
def writefileLen (opens closes : Bool) (writefilefd : Run (RetTy × Bytes)) :
    Run (RetTy × Bytes) :=
  if !opens then .ok (.err, [])
  else do
    match ← writefilefd with
    | (.err, file) => .ok (.err, file)
    | (.succ, file) => if !closes then .ok (.err, file) else .ok (.succ, file)

/-! ## Reading -/

/-- `jstr_io_readfilefd`. -/
def readfilefd (al : Alloc) (stats : Bool) (answers : Nat → Option Nat) (file : Bytes)
    (j : JstrTy) : Run (RetTy × JstrTy) :=
  if !stats then .ok (.err, j) else readfilefdLen al answers file j file.length

/-- Close what was opened: an error in what came before stands, one in closing
is returned. -/
def closing (closes : Bool) (r : Run (RetTy × JstrTy)) : Run (RetTy × JstrTy) :=
  orErr r fun j => .ok (if !closes then .err else .succ, j)

/-- `jstr_io_readfile_len`. -/
def readfileLen (al : Alloc) (opens closes : Bool) (answers : Nat → Option Nat) (file : Bytes)
    (j : JstrTy) (fileSize : Nat) : Run (RetTy × JstrTy) :=
  if !opens then .ok (.err, j)
  else closing closes (readfilefdLen al answers file j fileSize)

/-- `jstr_io_freadfilefp_len`, where `fread` gives `took` bytes at most. -/
def freadfilefpLen (al : Alloc) (took : Nat) (file : Bytes) (j : JstrTy) (fileSize : Nat) :
    Run (RetTy × JstrTy) :=
  orErr (reserve al j (addSz fileSize 1)) fun j => do
    let b ← j.deref
    let got := file.take (min took fileSize)
    let b ← b.write b.addr got
    let j := { j with data := some b }
    if fileSize ≠ got.length then .ok (.err, j) else endAt j fileSize

/-- `jstr_io_freadfilefp`; `stats` says whether the size is found, by `fileno`
and `fstat` or by `stat`. -/
def freadfilefp (al : Alloc) (stats : Bool) (took : Nat) (file : Bytes) (j : JstrTy) :
    Run (RetTy × JstrTy) :=
  if !stats then .ok (.err, j) else freadfilefpLen al took file j file.length

/-- `jstr_io_freadfile_len`. -/
def freadfileLen (al : Alloc) (opens closes : Bool) (took : Nat) (file : Bytes) (j : JstrTy)
    (fileSize : Nat) : Run (RetTy × JstrTy) :=
  if !opens then .ok (.err, j)
  else closing closes (freadfilefpLen al took file j fileSize)

/-- `jstr_io_freadfile`. -/
def freadfile (al : Alloc) (opens stats closes : Bool) (took : Nat) (file : Bytes) (j : JstrTy) :
    Run (RetTy × JstrTy) :=
  if !opens then .ok (.err, j)
  else if !stats then .ok (.err, j)
  else closing closes (freadfilefpLen al took file j file.length)

/-! ## What is written -/

section Writing

variable {mem : Mem} {s nl : Nat} {l : Bytes}

/-- The stream is given the front of what the file is to hold, and all of it
exactly when `fwrite` takes the whole and `putc` what it is needed for. -/
theorem fwritefilefpLen_spec (h : MemAt mem s l) (took : Nat) (puts : Bool) :
    ∃ ret out, fwritefilefpLen took puts mem s l.length = (ret, out) ∧ out <+: written l ∧
      (ret = .succ → out = written l) ∧ (l.length ≤ took → puts → ret = .succ) := by
  rw [fwritefilefpLen, window_take h (Nat.min_le_right took l.length)]
  by_cases hl : l = []
  · rw [if_pos (List.length_eq_zero_iff.mpr hl), written, if_pos hl]
    exact ⟨_, _, rfl, List.prefix_rfl, fun _ => rfl, fun _ _ => rfl⟩
  have hne : l.length ≠ 0 := fun h0 => hl (List.length_eq_zero_iff.mp h0)
  have hw : written l = withNewline l := if_neg hl
  have hlast : mem (s + (l.length - 1)) = 10 ↔ l.getLast? = some 10 := by
    rw [List.getLast?_eq_getElem?, h.getElem? (by omega)]
    exact ⟨congrArg some, Option.some.inj⟩
  have hfront : l <+: withNewline l := by
    rw [withNewline]
    split
    · exact List.prefix_rfl
    · exact List.prefix_append _ _
  rw [if_neg hne, hw]
  by_cases hall : min took l.length = l.length
  · simp only [hall, ne_eq, not_true_eq_false, if_false, List.take_length]
    by_cases h10 : mem (s + (l.length - 1)) = 10
    · rw [if_neg (not_not_intro h10), withNewline, if_pos (hlast.mp h10)]
      exact ⟨_, _, rfl, List.prefix_rfl, fun _ => rfl, fun _ _ => rfl⟩
    · have hnew : withNewline l = l ++ [10] := if_neg fun h => h10 (hlast.mpr h)
      rw [if_pos h10, hnew]
      cases puts with
      | true => exact ⟨_, _, rfl, List.prefix_rfl, fun _ => rfl, fun _ _ => rfl⟩
      | false =>
          refine ⟨_, _, rfl, List.prefix_append _ _, fun h => ?_, fun _ h => ?_⟩
          · cases h
          · cases h
  · simp only [ne_eq, hall, not_false_eq_true, if_true]
    refine ⟨_, _, rfl, (List.take_prefix _ _).trans hfront, fun h => ?_, fun h => ?_⟩
    · cases h
    · exact absurd (Nat.min_eq_right h) hall

theorem flushed_front (lost : Option Nat) (out : Bytes) : flushed lost out <+: out := by
  cases lost with
  | none => exact List.prefix_rfl
  | some k => exact List.take_prefix k out

theorem fwritefileLen_spec (h : MemAt mem s l) (opens : Bool) (took : Nat) (puts : Bool)
    (lost : Option Nat) :
    ∃ ret file, fwritefileLen opens took puts lost mem s l.length = (ret, file) ∧
      file <+: written l ∧ (ret = .succ → file = written l) ∧
      (opens → l.length ≤ took → puts → lost = none → ret = .succ) := by
  obtain ⟨ret, out, hrun, hfront, hall, hdone⟩ := fwritefilefpLen_spec h took puts
  rw [fwritefileLen]
  cases opens with
  | false =>
      refine ⟨_, _, rfl, List.nil_prefix, fun h => ?_, fun h => ?_⟩
      · cases h
      · cases h
  | true =>
      rw [hrun]
      have hflushed := (flushed_front lost out).trans hfront
      cases ret with
      | err =>
          refine ⟨_, _, rfl, hflushed, fun h => ?_, fun _ htook hputs _ => hdone htook hputs⟩
          cases h
      | succ =>
          cases lost with
          | none => exact ⟨_, _, rfl, hfront, fun _ => hall rfl, fun _ _ _ _ => rfl⟩
          | some k =>
              refine ⟨_, _, rfl, hflushed, fun h => ?_, fun _ _ _ h => ?_⟩
              · cases h
              · cases h

/-- Success is reported by one of the ways of writing `sz` bytes, to a
descriptor, a stream or a name, and the file is as given. -/
inductive WroteBy (mem : Mem) (s nl sz : Nat) : Bytes → Prop where
  | fd {file : Bytes} (h : Wrote mem s nl sz file) : WroteBy mem s nl sz file
  | name {file : Bytes} {opens closes : Bool} {r : Run (RetTy × Bytes)}
      (hr : (∃ answers, r = writefilefdLenByWrite answers mem s sz nl) ∨
        ∃ c : Nat → Nat, (∀ i, 1 ≤ c i) ∧ r = writefilefdLen (fun i => some (c i)) mem s sz nl)
      (hrun : writefileLen opens closes r = .ok (.succ, file)) : WroteBy mem s nl sz file
  | stream {file : Bytes} {took : Nat} {puts : Bool}
      (hrun : fwritefilefpLen took puts mem s sz = (.succ, file)) : WroteBy mem s nl sz file
  | named {file : Bytes} {opens : Bool} {took : Nat} {puts : Bool} {lost : Option Nat}
      (hrun : fwritefileLen opens took puts lost mem s sz = (.succ, file)) :
      WroteBy mem s nl sz file

/-- The descriptor is what decides. -/
theorem writefileLen_succ {opens closes : Bool} {r : Run (RetTy × Bytes)} {file : Bytes}
    (hrun : writefileLen opens closes r = .ok (.succ, file)) : r = .ok (.succ, file) := by
  rw [writefileLen] at hrun
  cases opens with
  | false => cases hrun
  | true =>
      rcases r with f | ⟨_ | _, out⟩
      · cases hrun
      · cases hrun
      · cases closes with
        | false => cases hrun
        | true =>
            cases hrun
            rfl

theorem WroteBy.eq {file : Bytes} (h : MemAt mem s l) (hnl : mem nl = 10)
    (hfit : l.length < sizeMax) (hw : WroteBy mem s nl l.length file) : file = written l := by
  cases hw with
  | fd hw => exact hw.eq h hnl hfit
  | name hr hrun =>
      have hsucc := writefileLen_succ hrun
      rcases hr with ⟨answers, rfl⟩ | ⟨c, hc, rfl⟩
      · exact Wrote.eq h hnl hfit (.inl ⟨answers, hsucc⟩)
      · exact Wrote.eq h hnl hfit (.inr ⟨c, hc, hsucc⟩)
  | @stream took puts hrun =>
      obtain ⟨ret, out, hspec, -, hall, -⟩ := fwritefilefpLen_spec h took puts
      cases hspec.symm.trans hrun
      exact hall rfl
  | @named opens took puts lost hrun =>
      obtain ⟨ret, out, hspec, -, hall, -⟩ := fwritefileLen_spec h opens took puts lost
      cases hspec.symm.trans hrun
      exact hall rfl

end Writing

/-! ## What is read -/

/-- A read of `n` bytes ends with the first `n` of the file in the record, terminated, or
reports an error; where no call to the system fails and the file has as many, only that `j` has
too little room and more is refused can be the reason. -/
structure ReadsFront (al : Alloc) (j : JstrTy) (file : Bytes) (n : Nat) (works : Prop)
    (r : Run (RetTy × JstrTy)) : Prop where
  access : ∀ f, r = .error f → f = .diverge
  text : ∀ j', r = .ok (.succ, j') → n ≤ file.length ∧ Str j' (file.take n)
  done : works → n ≤ file.length →
    FailsFor (Denied al j (n + 1)) r ∨ ∃ j', r = .ok (.succ, j')

section Reading

variable {al : Alloc} {file : Bytes} {j : JstrTy} {n : Nat} {works : Prop}

/-- An error where something that has to work does not. -/
theorem readsFront_err {j' : JstrTy} (hworks : ¬works) :
    ReadsFront al j file n works (.ok (.err, j')) := by
  refine ⟨fun f h => ?_, fun j' h => ?_, fun h => absurd h hworks⟩
  · cases h
  · cases h

theorem ReadsFront.mono {works' : Prop} {r : Run (RetTy × JstrTy)}
    (h : ReadsFront al j file n works r) (hmono : works' → works) :
    ReadsFront al j file n works' r :=
  ⟨h.access, h.text, fun hw => h.done (hmono hw)⟩

/-- Behind a check. -/
theorem ReadsFront.unless {check : Bool} {r : Run (RetTy × JstrTy)}
    (h : ReadsFront al j file n works r) :
    ReadsFront al j file n (check ∧ works) (if !check then .ok (.err, j) else r) := by
  cases check with
  | false => exact readsFront_err fun hw => Bool.false_ne_true hw.1
  | true => exact h.mono And.right

/-- With the file closed behind it. -/
theorem ReadsFront.closing {closes : Bool} {r : Run (RetTy × JstrTy)}
    (h : ReadsFront al j file n works r) :
    ReadsFront al j file n (closes ∧ works) (closing closes r) := by
  rcases r with f | ⟨_ | _, j'⟩
  · exact ⟨h.access, h.text, fun hw hn => h.done hw.2 hn⟩
  · exact ⟨h.access, h.text, fun hw hn => h.done hw.2 hn⟩
  · cases closes with
    | false => exact readsFront_err fun hw => Bool.false_ne_true hw.1
    | true => exact h.mono And.right

theorem readfilefdLen_readsFront {answers : Nat → Option Nat} (hb : Backed j)
    (hfit : n + 1 ≤ 9223372036854775808) :
    ReadsFront al j file n (Answering answers) (readfilefdLen al answers file j n) := by
  obtain ⟨hfault, htext, hdone⟩ := @readWhole_spec answers file al true j n hb hfit
  exact ⟨hfault, htext, fun ha hn => hdone ha rfl hn⟩

theorem freadfilefpLen_readsFront {took : Nat} (hb : Backed j)
    (hfit : n + 1 ≤ 9223372036854775808) :
    ReadsFront al j file n (n ≤ took) (freadfilefpLen al took file j n) := by
  have hsum : addSz n 1 = n + 1 := addSz_eq (by rw [sizeMax]; omega)
  rw [freadfilefpLen, hsum]
  rcases @reserve_decided al j (n + 1) hb (Nat.succ_pos n) hfit with
    ⟨hr, hden, -⟩ | ⟨j₁, hr, hg, -⟩
  · rw [hr]
    refine ⟨fun f h => ?_, fun j' h => ?_, fun _ _ => .inl ⟨hden, j, rfl⟩⟩
    · cases h
    · cases h
  · obtain ⟨b, hd, hcap, hroom⟩ := hg.room
    have hle : (file.take (min took n)).length ≤ n := by
      rw [List.length_take]
      omega
    have hwrite : b.write b.addr (file.take (min took n))
        = .ok (b.put b.addr (file.take (min took n))) :=
      Blk.write_eq ⟨Nat.le_refl _, by omega⟩
    simp only [hr, orErr, JstrTy.deref, hd, bind, Except.bind, hwrite]
    by_cases hall : n = (file.take (min took n)).length
    · have hn : n ≤ took ∧ n ≤ file.length := by
        rw [List.length_take] at hall
        omega
      have hmin : min took n = n := Nat.min_eq_right hn.1
      rw [hmin] at hall ⊢
      have hat : Memory.Block.At (b.put b.addr (file.take n))
          (Memory.Block.addr (b.put b.addr (file.take n))) (file.take n) :=
        Memory.Block.at_put ⟨Nat.le_refl _, by omega⟩
      obtain ⟨j₂, hend, hstr⟩ := endAt_spec
        (j := { j₁ with data := some (b.put b.addr (file.take n)) }) rfl
        ((Memory.Block.put_size b b.addr _).trans hcap) hat
        (by rw [Memory.Block.put_size, ← hall]; exact hroom)
      rw [← hall] at hend
      rw [if_neg (not_not_intro hall), hend]
      refine ⟨fun f h => ?_, fun j' h => ?_, fun _ _ => .inr ⟨j₂, rfl⟩⟩
      · cases h
      · cases h
        exact ⟨hn.2, hstr⟩
    · rw [if_pos hall]
      refine ⟨fun f h => ?_, fun j' h => ?_, fun htook hn => ?_⟩
      · cases h
      · cases h
      · rw [List.length_take, Nat.min_eq_right htook, Nat.min_eq_left hn] at hall
        exact absurd rfl hall

end Reading

/-- A buffer written with success, by any of the ways and however the system cut it up, is
the file with its newline; and of any file each of the readers gets the bytes asked for, or
says that it did not. -/
theorem streams_roundtrip {mem : Mem} {s nl : Nat} {l file : Bytes} (h : MemAt mem s l)
    (hnl : mem nl = 10) (hfit : l.length + 2 ≤ 9223372036854775808)
    (hw : WroteBy mem s nl l.length file) :
    file = written l ∧
      (∀ took puts opens lost,
        (fwritefilefpLen took puts mem s l.length).2 <+: file ∧
          (fwritefileLen opens took puts lost mem s l.length).2 <+: file) ∧
      ∀ (al : Alloc) (j : JstrTy), Backed j → ∀ (opens stats closes : Bool),
        (∀ answers, ReadsFront al j file file.length (stats ∧ Answering answers)
          (readfilefd al stats answers file j)) ∧
        (∀ took, ReadsFront al j file file.length (stats ∧ file.length ≤ took)
            (freadfilefp al stats took file j) ∧
          ReadsFront al j file file.length (opens ∧ stats ∧ closes ∧ file.length ≤ took)
            (freadfile al opens stats closes took file j)) ∧
        ∀ n < 9223372036854775808,
          (∀ answers, ReadsFront al j file n (opens ∧ closes ∧ Answering answers)
            (readfileLen al opens closes answers file j n)) ∧
          ∀ took, ReadsFront al j file n (opens ∧ closes ∧ n ≤ took)
            (freadfileLen al opens closes took file j n) := by
  have hlen := length_written_le l
  obtain rfl : file = written l := hw.eq h hnl (by rw [sizeMax]; omega)
  refine ⟨rfl, fun took puts opens lost => ?_, fun al j hb opens stats closes => ⟨fun answers => ?_,
    fun took => ⟨?_, ?_⟩, fun n hn => ⟨fun answers => ?_, fun took => ?_⟩⟩⟩
  · obtain ⟨_, _, hstream, hfront, -, -⟩ := fwritefilefpLen_spec h took puts
    obtain ⟨_, _, hnamed, hfront', -, -⟩ := fwritefileLen_spec h opens took puts lost
    rw [hstream, hnamed]
    exact ⟨hfront, hfront'⟩
  · exact (readfilefdLen_readsFront hb (by omega)).unless
  · exact (freadfilefpLen_readsFront hb (by omega)).unless
  · exact ((freadfilefpLen_readsFront hb (by omega)).closing.unless).unless
  · exact ((readfilefdLen_readsFront hb (by omega)).closing).unless
  · exact ((freadfilefpLen_readsFront hb (by omega)).closing).unless

/-- "ab" written to a stream that takes all of it, read back by name. -/
theorem streams_roundtrip_ab :
    ([97, 98, 10] : Bytes) = written [97, 98] ∧ ∀ (al : Alloc) (j : JstrTy), Backed j →
      ReadsFront al j [97, 98, 10] 3 (true ∧ true ∧ true ∧ 3 ≤ 4)
        (freadfile al true true true 4 [97, 98, 10] j) := by
  have h : MemAt (memOf [97, 98, 10]) 0 ([97, 98] : Bytes) := by decide
  have hrun : fwritefilefpLen 2 true (memOf [97, 98, 10]) 0 2 = (.succ, [97, 98, 10]) := by rfl
  obtain ⟨hfile, -, hreads⟩ :=
    streams_roundtrip h (show memOf [97, 98, 10] 2 = 10 by rfl) (by decide) (.stream hrun)
  exact ⟨hfile, fun al j hb => ((hreads al j hb true true true).2.1 4).2⟩

end Jstr
