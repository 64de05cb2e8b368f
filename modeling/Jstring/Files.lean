import Jstring.WriteFile
import Jstring.ReadStdin

/-!
# Files written and read back

`jstr_io_writefilefd_len` where there is no `writev`, `jstr_io_readfilefd_len`
and `jstr_io_readfile`. `answers` is what the system says to the calls in turn:
an error, or how many bytes it takes or gives at most. `files_roundtrip`
reads back what either way of writing has written, however the bytes are
cut up on both ways.
-/

namespace Jstr

/-! ## The functions -/

/-- `for (; left; left -= (size_t)write_sz, src += write_sz)`: what is
returned, what the file was given, and how many calls were made. -/
def writeLoop (answers : Nat → Option Nat) (mem : Mem) :
    Nat → Nat → Nat → Nat → Bytes → Run (RetTy × Bytes × Nat)
  | 0, _, _, _, _ => .error .diverge
  | fuel + 1, src, left, calls, file =>
    if left = 0 then .ok (.succ, file, calls)
    else
      match answers calls with
      | none => .ok (.err, file, calls + 1)
      | some count =>
        let writeSz := min count left
        writeLoop answers mem fuel (src + writeSz) (subSz left writeSz) (calls + 1)
          (file ++ window mem src writeSz)

/-- `do { write_sz = write(fd, "\n", 1); ... } while (write_sz != 1);` -/
def newlineLoop (answers : Nat → Option Nat) (mem : Mem) (nl : Nat) :
    Nat → Nat → Bytes → Run (RetTy × Bytes)
  | 0, _, _ => .error .diverge
  | fuel + 1, calls, file =>
    match answers calls with
    | none => .ok (.err, file)
    | some count =>
      let writeSz := min count 1
      let file := file ++ window mem nl writeSz
      if writeSz ≠ 1 then newlineLoop answers mem nl fuel (calls + 1) file else .ok (.succ, file)

/-- `jstr_io_writefilefd_len`, without `JSTR_HAVE_WRITEV`. -/
def writefilefdLenByWrite (answers : Nat → Option Nat) (mem : Mem) (s sz nl : Nat) :
    Run (RetTy × Bytes) :=
  if sz = 0 then .ok (.succ, [])
  else do
    let (ret, file, calls) ← writeLoop answers mem (sizeMax + 1) s sz 0 []
    match ret with
    | .err => .ok (.err, file)
    | .succ =>
      if mem (s + (sz - 1)) ≠ 10 then newlineLoop answers mem nl (sizeMax + 1) calls file
      else .ok (.succ, file)

/-- `for (; left; dst += read_sz, left -= (size_t)read_sz)`: `read` goes on at
`off`, where it stopped, and `pread` is told to. -/
def preadLoop (answers : Nat → Option Nat) (file : Bytes) :
    Nat → Blk → Nat → Nat → Nat → Nat → Run (RetTy × Blk)
  | 0, _, _, _, _, _ => .error .diverge
  | fuel + 1, b, dst, left, off, calls =>
    if left = 0 then .ok (.succ, b)
    else
      match answers calls with
      | none => .ok (.err, b)
      | some count => do
        let got := (file.drop off).take (min count left)
        let b ← b.write dst got
        if got.length = 0 then .ok (.err, b)
        else
          preadLoop answers file fuel b (dst + got.length) (subSz left got.length)
            (off + got.length) (calls + 1)

/-- `*(*s + file_size) = '\0'; *sz = file_size;` -/
def endAt (j : JstrTy) (fileSize : Nat) : Run (RetTy × JstrTy) := do
  let b ← j.deref
  let b ← b.write (b.addr + fileSize) [0]
  .ok (.succ, { j with data := some b, size := fileSize })

/-- What the two ways of reading share: room for `fileSize` bytes, the loop,
and the terminator, once the file is closed where that is done here. -/
def readWhole (al : Alloc) (answers : Nat → Option Nat) (closes : Bool) (file : Bytes)
    (j : JstrTy) (fileSize : Nat) : Run (RetTy × JstrTy) :=
  orErr (reserve al j (addSz fileSize 1)) fun j => do
    let b ← j.deref
    let (ret, b) ← preadLoop answers file (sizeMax + 1) b b.addr fileSize 0 0
    let j := { j with data := some b }
    match ret with
    | .err => .ok (.err, j)
    | .succ => if !closes then .ok (.err, j) else endAt j fileSize

/-- `jstr_io_readfilefd_len`, on a descriptor at the start of `file`. -/
def readfilefdLen (al : Alloc) (answers : Nat → Option Nat) (file : Bytes) (j : JstrTy)
    (fileSize : Nat) : Run (RetTy × JstrTy) :=
  readWhole al answers true file j fileSize

/-- Whether `open`, `lseek` and `close` succeed, and the answers to the reads. -/
structure Opening where
  opens : Bool
  seeks : Bool
  closes : Bool
  answers : Nat → Option Nat

/-- `jstr_io_readfile` with `JSTR_HAVE_PREAD`. -/
def readfile (al : Alloc) (os : Opening) (file : Bytes) (j : JstrTy) : Run (RetTy × JstrTy) :=
  if !os.opens then .ok (.err, j)
  else if !os.seeks then .ok (.err, j)
  else readWhole al os.answers os.closes file j file.length

/-! ## Writing -/

/-- Nothing fails, and every call makes some headway. -/
def Answering (answers : Nat → Option Nat) : Prop := ∀ i, ∃ n, 1 ≤ n ∧ answers i = some n

/-- What a file is to hold: an empty buffer is not written at all. -/
def written (l : Bytes) : Bytes := if l = [] then [] else withNewline l

theorem length_written_le (l : Bytes) : (written l).length ≤ l.length + 1 := by
  rw [written, withNewline]
  split
  · exact Nat.zero_le _
  · split
    · exact Nat.le_succ _
    · rw [List.length_append, List.length_singleton]

section Writing

variable {mem : Mem} {answers : Nat → Option Nat}

/-- What the loop has written at any time is the front of what it was given. -/
theorem writeLoop_spec : ∀ (fuel : Nat) {src calls : Nat} {l file : Bytes}, MemAt mem src l →
    (∀ ret file' calls', writeLoop answers mem fuel src l.length calls file
        = .ok (ret, file', calls') →
      ∃ k, file' = file ++ l.take k ∧ (ret = .succ → file' = file ++ l)) ∧
    (Answering answers → l.length < fuel → ∃ calls',
      writeLoop answers mem fuel src l.length calls file = .ok (.succ, file ++ l, calls'))
  | 0, src, calls, l, file, _ => by
      refine ⟨fun _ _ _ h => ?_, fun _ h => absurd h (Nat.not_lt_zero _)⟩
      cases h
  | fuel + 1, src, calls, l, file, hl => by
      rw [writeLoop]
      by_cases hz : l.length = 0
      · have hnil : l = [] := List.eq_nil_of_length_eq_zero hz
        rw [if_pos hz, hnil, List.append_nil]
        refine ⟨fun ret file' calls' h => ?_, fun _ _ => ⟨_, rfl⟩⟩
        cases h
        exact ⟨0, (List.append_nil _).symm, fun _ => rfl⟩
      · rw [if_neg hz]
        cases ha : answers calls with
        | none =>
            refine ⟨fun ret file' calls' h => ?_, fun hans => ?_⟩
            · cases h
              exact ⟨0, (List.append_nil _).symm, fun h => nomatch h⟩
            · obtain ⟨n, -, hn⟩ := hans calls
              cases ha.symm.trans hn
        | some count =>
            have hk : min count l.length ≤ l.length := Nat.min_le_right _ _
            have hpos : Answering answers → 0 < min count l.length := by
              intro hans
              obtain ⟨n, hn, hcount⟩ := hans calls
              cases ha.symm.trans hcount
              omega
            obtain ⟨k, hcut⟩ : ∃ k, min count l.length = k := ⟨_, rfl⟩
            rw [hcut] at hk hpos
            have hdrop : (l.drop k).length = subSz l.length k := by
              rw [List.length_drop, subSz_eq hk]
            have hfile : file ++ l.take k ++ l.drop k = file ++ l := by
              rw [List.append_assoc, List.take_append_drop]
            simp only [hcut, window_take hl hk, ← hdrop]
            obtain ⟨hpart, hall⟩ := @writeLoop_spec fuel (src + k) (calls + 1) (l.drop k)
              (file ++ l.take k) (hl.drop hk)
            rw [hfile] at hall
            refine ⟨fun ret file' calls' h => ?_, fun hans hfuel => ?_⟩
            · obtain ⟨m, hm, hsucc⟩ := hpart ret file' calls' h
              refine ⟨k + m, ?_, fun hret => (hsucc hret).trans hfile⟩
              rw [hm, List.take_add, List.append_assoc]
            · have hk1 := hpos hans
              exact hall hans (by rw [List.length_drop]; omega)

/-- The newline is written once, or nothing is. -/
theorem newlineLoop_spec {nl : Nat} : ∀ (fuel : Nat) {calls : Nat} {file : Bytes},
    (∀ ret file', newlineLoop answers mem nl fuel calls file = .ok (ret, file') →
      file' <+: file ++ [mem nl] ∧ (ret = .succ → file' = file ++ [mem nl])) ∧
    (Answering answers → 0 < fuel →
      newlineLoop answers mem nl fuel calls file = .ok (.succ, file ++ [mem nl]))
  | 0, calls, file => by
      refine ⟨fun _ _ h => ?_, fun _ h => absurd h (Nat.lt_irrefl _)⟩
      cases h
  | fuel + 1, calls, file => by
      rw [newlineLoop]
      cases ha : answers calls with
      | none =>
          refine ⟨fun ret file' h => ?_, fun hans => ?_⟩
          · cases h
            exact ⟨List.prefix_append _ _, fun h => nomatch h⟩
          · obtain ⟨n, -, hn⟩ := hans calls
            cases ha.symm.trans hn
      | some count =>
          rcases Nat.eq_zero_or_pos count with rfl | hpos
          · have hstay : file ++ window mem nl 0 = file := List.append_nil _
            simp only [Nat.zero_min, hstay, ne_eq, zero_ne_one, not_false_eq_true, if_true]
            refine ⟨(newlineLoop_spec fuel).1, fun hans => ?_⟩
            obtain ⟨n, hn, hcount⟩ := hans calls
            cases ha.symm.trans hcount
            omega
          · have hone : min count 1 = 1 := Nat.min_eq_right hpos
            simp only [hone, ne_eq, not_true_eq_false, if_false]
            refine ⟨fun ret file' h => ?_, fun _ _ => rfl⟩
            cases h
            exact ⟨List.prefix_rfl, fun _ => rfl⟩

/-- Without `writev`: never more than the front of what the file is to hold,
and all of it when success is reported. -/
theorem writefilefdLenByWrite_spec {s nl : Nat} {l : Bytes} (h : MemAt mem s l)
    (hnl : mem nl = 10) (hfit : l.length ≤ sizeMax) :
    (∀ ret file, writefilefdLenByWrite answers mem s l.length nl = .ok (ret, file) →
      file <+: written l ∧ (ret = .succ → file = written l)) ∧
    (Answering answers →
      writefilefdLenByWrite answers mem s l.length nl = .ok (.succ, written l)) := by
  unfold writefilefdLenByWrite written
  by_cases hl : l = []
  · rw [hl, List.length_nil, if_pos rfl, if_pos rfl]
    refine ⟨fun ret file hrun => ?_, fun _ => rfl⟩
    cases hrun
    exact ⟨List.prefix_rfl, fun _ => rfl⟩
  · have hpos : 0 < l.length := List.length_pos_iff.mpr hl
    have hlast : l.getLast? = some (mem (s + (l.length - 1))) := by
      rw [List.getLast?_eq_getElem?, h.getElem? (by omega)]
    obtain ⟨hpart, hall⟩ := @writeLoop_spec mem answers (sizeMax + 1) s 0 l [] h
    rw [if_neg hpos.ne', if_neg hl]
    have hwhole : l <+: withNewline l := by
      rw [withNewline]
      split
      · exact List.prefix_rfl
      · exact List.prefix_append _ _
    have hend : ∀ calls,
        (∀ ret file, (if mem (s + (l.length - 1)) ≠ 10 then
            newlineLoop answers mem nl (sizeMax + 1) calls l else .ok (.succ, l))
              = .ok (ret, file) →
          file <+: withNewline l ∧ (ret = .succ → file = withNewline l)) ∧
        (Answering answers → (if mem (s + (l.length - 1)) ≠ 10 then
            newlineLoop answers mem nl (sizeMax + 1) calls l else .ok (.succ, l))
              = .ok (.succ, withNewline l)) := by
      intro calls
      rw [withNewline, hlast]
      by_cases hnew : mem (s + (l.length - 1)) = 10
      · rw [if_neg (not_not.mpr hnew), hnew, if_pos rfl]
        refine ⟨fun ret file hrun => ?_, fun _ => rfl⟩
        cases hrun
        exact ⟨List.prefix_rfl, fun _ => rfl⟩
      · have hspec := @newlineLoop_spec mem answers nl (sizeMax + 1) calls l
        rw [hnl] at hspec
        rw [if_pos hnew, if_neg (fun he => hnew (Option.some.inj he))]
        exact ⟨hspec.1, fun hans => hspec.2 hans (Nat.succ_pos _)⟩
    refine ⟨fun ret file hrun => ?_, fun hans => ?_⟩
    · cases hloop : writeLoop answers mem (sizeMax + 1) s l.length 0 [] with
      | error f =>
          rw [hloop] at hrun
          cases hrun
      | ok out =>
          obtain ⟨ret', file', calls⟩ := out
          obtain ⟨k, hk, hsucc⟩ := hpart _ _ _ hloop
          rw [hloop] at hrun
          cases ret' with
          | err =>
              cases hrun
              refine ⟨?_, fun h => by cases h⟩
              rw [hk, List.nil_append]
              exact (List.take_prefix k l).trans hwhole
          | succ =>
              rw [List.nil_append] at hsucc
              rw [hsucc rfl] at hrun
              exact (hend calls).1 ret file hrun
    · obtain ⟨calls, hloop⟩ := hall hans (Nat.lt_succ_of_le hfit)
      rw [List.nil_append] at hloop
      rw [hloop]
      exact (hend calls).2 hans

/-- With `writev`: success is not reported for less. -/
theorem writefilefdLen_succ {s nl : Nat} {l file : Bytes} {c : Nat → Nat} (h : MemAt mem s l)
    (hnl : mem nl = 10) (hfit : l.length < sizeMax) (hc : ∀ i, 1 ≤ c i)
    (hrun : writefilefdLen (fun i => some (c i)) mem s l.length nl = .ok (.succ, file)) :
    file = written l := by
  rw [writefilefdLen] at hrun
  rw [written]
  by_cases hl : l = []
  · rw [hl, List.length_nil, if_pos rfl] at hrun
    cases hrun
    rw [if_pos hl]
  · have hpos : 0 < l.length := List.length_pos_iff.mpr hl
    have hlast : l.getLast? = some (mem (s + (l.length - 1))) := by
      rw [List.getLast?_eq_getElem?, h.getElem? (by omega)]
    rw [if_neg hpos.ne'] at hrun
    rw [if_neg hl, withNewline, hlast]
    by_cases hnew : mem (s + (l.length - 1)) = 10
    · obtain ⟨hgood, hbad⟩ := @writevLoop_bare mem nl c hc (sizeMax + 1) s 0 l [] h hpos (by omega)
      simp only [hnew, ne_eq, not_true_eq_false, if_false, Nat.add_zero,
        addSz_eq (show l.length + 0 ≤ sizeMax by omega)] at hrun
      rw [hnew, if_pos rfl]
      by_cases hone : LeavesOne c 0 l.length
      · rw [hbad hone] at hrun
        cases hrun
      · rw [hgood hone] at hrun
        cases hrun
        rfl
    · simp only [hnew, ne_eq, not_false_eq_true, if_true,
        addSz_eq (show l.length + 1 ≤ sizeMax by omega)] at hrun
      rw [writevLoop_newline hc (sizeMax + 1) h hpos (by omega), hnl] at hrun
      cases hrun
      rw [if_neg (fun he => hnew (Option.some.inj he))]
      rfl

end Writing

/-! ## Reading -/

section Reading

variable {answers : Nat → Option Nat} {file : Bytes}

/-- What the loop reads into: the first `off` of `n` bytes are there. -/
structure ReadInto (file : Bytes) (n : Nat) (b : Blk) (dst left off : Nat) : Prop where
  dst : dst = b.addr + off
  left : left + off = n
  le : off ≤ file.length
  room : n ≤ b.size
  got : b.At b.addr (file.take off)

/-- However the bytes come, success means that they are all there, and only
a call that fails or finds no more bytes prevents it. -/
theorem preadLoop_spec {n : Nat} : ∀ (fuel : Nat) {b : Blk} {dst left off calls : Nat},
    ReadInto file n b dst left off →
    (∀ f, preadLoop answers file fuel b dst left off calls = .error f → f = .diverge) ∧
    (∀ ret b', preadLoop answers file fuel b dst left off calls = .ok (ret, b') →
      b'.addr = b.addr ∧ b'.size = b.size ∧
        (ret = .succ → n ≤ file.length ∧ b'.At b'.addr (file.take n))) ∧
    (Answering answers → n ≤ file.length → left < fuel →
      ∃ b', preadLoop answers file fuel b dst left off calls = .ok (.succ, b'))
  | 0, b, dst, left, off, calls, _ => by
      refine ⟨fun f h => ?_, fun _ _ h => ?_, fun _ _ h => absurd h (Nat.not_lt_zero _)⟩
      · cases h
        rfl
      · cases h
  | fuel + 1, b, dst, left, off, calls, hb => by
      have hleft := hb.left
      have hle := hb.le
      have hroom := hb.room
      rw [preadLoop]
      by_cases hz : left = 0
      · rw [if_pos hz]
        refine ⟨fun f h => ?_, fun ret b' h => ?_, fun _ _ _ => ⟨b, rfl⟩⟩
        · cases h
        · cases h
          refine ⟨rfl, rfl, fun _ => ?_⟩
          have hn : n = off := by omega
          rw [hn]
          exact ⟨hle, hb.got⟩
      · rw [if_neg hz]
        cases ha : answers calls with
        | none =>
            refine ⟨fun f h => ?_, fun ret b' h => ?_, fun hans => ?_⟩
            · cases h
            · cases h
              exact ⟨rfl, rfl, fun h => by cases h⟩
            · obtain ⟨m, -, hm⟩ := hans calls
              cases ha.symm.trans hm
        | some count =>
            have hstep := readInto_eq hb.got hle (show off < n by omega) hroom count
            rw [show n - off = left by omega, ← hb.dst] at hstep
            obtain ⟨hgot, b₁, hwrite, haddr, hsize, hat⟩ := hstep
            simp only [bind, Except.bind, hwrite]
            obtain ⟨got, hcut⟩ : ∃ got, (file.drop off).take (min count left) = got := ⟨_, rfl⟩
            rw [hcut] at hgot ⊢
            by_cases hend : got.length = 0
            · rw [if_pos hend]
              refine ⟨fun f h => ?_, fun ret b' h => ?_, fun hans hn => ?_⟩
              · cases h
              · cases h
                exact ⟨haddr, hsize, fun h => by cases h⟩
              · obtain ⟨m, hm, hcount⟩ := hans calls
                cases ha.symm.trans hcount
                omega
            · have hle' : got.length ≤ left := by omega
              have hnext : ReadInto file n b₁ (dst + got.length) (subSz left got.length)
                  (off + got.length) := by
                refine ⟨?_, ?_, by omega, hsize ▸ hroom, hgot ▸ hat⟩
                · rw [haddr, hb.dst, Nat.add_assoc]
                · rw [subSz_eq hle']
                  omega
              rw [if_neg hend]
              obtain ⟨hfault, hpart, hall⟩ := @preadLoop_spec n fuel _ _ _ _ (calls + 1) hnext
              refine ⟨hfault, fun ret b' h => ?_, fun hans hn hfuel => hall hans hn ?_⟩
              · obtain ⟨ha', hs', hsucc⟩ := hpart ret b' h
                exact ⟨ha'.trans haddr, hs'.trans hsize, hsucc⟩
              · rw [subSz_eq hle']
                omega

/-- A terminator behind what was read. -/
theorem endAt_spec {j : JstrTy} {b : Blk} {l : Bytes} (hd : j.data = some b)
    (hb : b.size = j.capacity) (hat : b.At b.addr l) (hroom : l.length + 1 ≤ b.size) :
    ∃ j', endAt j l.length = .ok (.succ, j') ∧ Str j' l := by
  have hstore := stores_back (m := []) hat (by rwa [List.length_nil])
  have hwrite : b.write (b.addr + l.length) [0] = .ok (b.put (b.addr + l.length) [0]) :=
    Blk.write_eq ⟨Nat.le_add_right _ _, by rw [List.length_singleton]; omega⟩
  refine ⟨{ j with data := some (b.put (b.addr + l.length) [0]), size := l.length }, ?_, ?_⟩
  · simp only [endAt, JstrTy.deref, hd, bind, Except.bind, hwrite]
  · rw [List.append_nil] at hstore
    exact ⟨_, rfl, hstore.size.trans hb, rfl, hstore.addr ▸ hstore.content⟩

/-- The outcomes of a read of `n` bytes. -/
theorem readWhole_spec {al : Alloc} {closes : Bool} {j : JstrTy} {n : Nat} (hb : Backed j)
    (hfit : n + 1 ≤ 9223372036854775808) :
    (∀ f, readWhole al answers closes file j n = .error f → f = .diverge) ∧
    (∀ j', readWhole al answers closes file j n = .ok (.succ, j') →
      n ≤ file.length ∧ Str j' (file.take n)) ∧
    (Answering answers → closes → n ≤ file.length →
      FailsFor (Denied al j (n + 1)) (readWhole al answers closes file j n) ∨
        ∃ j', readWhole al answers closes file j n = .ok (.succ, j')) := by
  have hsum : addSz n 1 = n + 1 := addSz_eq (by rw [sizeMax]; omega)
  rw [readWhole, hsum]
  rcases @reserve_decided al j (n + 1) hb (Nat.succ_pos n) hfit with
    ⟨hr, hden, -⟩ | ⟨j₁, hr, hg, -⟩
  · rw [hr]
    refine ⟨fun f h => ?_, fun j' h => ?_, fun _ _ _ => .inl ⟨hden, j, rfl⟩⟩
    · cases h
    · cases h
  · obtain ⟨b, hd, hcap, hroom⟩ := hg.room
    have hstart : ReadInto file n b b.addr n 0 :=
      ⟨rfl, rfl, Nat.zero_le _, by omega,
        Memory.Block.at_nil ⟨le_refl _, Nat.le_add_right _ _⟩⟩
    obtain ⟨hfault, hpart, hall⟩ := @preadLoop_spec answers file n (sizeMax + 1) _ _ _ _ 0 hstart
    simp only [hr, orErr, JstrTy.deref, hd, bind, Except.bind]
    cases hloop : preadLoop answers file (sizeMax + 1) b b.addr n 0 0 with
    | error f =>
        refine ⟨fun f' h => ?_, fun j' h => ?_, fun hans _ hn => ?_⟩
        · cases h
          exact hfault f hloop
        · cases h
        · obtain ⟨b', hb'⟩ := hall hans hn (by rw [sizeMax]; omega)
          cases hloop.symm.trans hb'
    | ok out =>
        obtain ⟨ret, b'⟩ := out
        obtain ⟨-, hsize, hsucc⟩ := hpart ret b' hloop
        cases ret with
        | err =>
            refine ⟨fun f' h => ?_, fun j' h => ?_, fun hans _ hn => ?_⟩
            · cases h
            · cases h
            · obtain ⟨b'', hb''⟩ := hall hans hn (by rw [sizeMax]; omega)
              cases hloop.symm.trans hb''
        | succ =>
            obtain ⟨hn, hat⟩ := hsucc rfl
            have hlen : (file.take n).length = n := List.length_take_of_le hn
            obtain ⟨j₂, hend, hstr⟩ := endAt_spec (j := { j₁ with data := some b' }) rfl
              (hsize.trans hcap) hat (by rw [hlen, hsize]; exact hroom)
            rw [hlen] at hend
            cases closes with
            | false =>
                refine ⟨fun f' h => ?_, fun j' h => ?_, fun _ h => by cases h⟩
                · cases h
                · cases h
            | true =>
                refine ⟨fun f' h => ?_, fun j' h => ?_, fun _ _ _ => .inr ⟨j₂, hend⟩⟩
                · cases hend.symm.trans h
                · cases hend.symm.trans h
                  exact ⟨hn, hstr⟩

/-- A read ends with all of the file in the record, terminated, or reports an
error; where no call to the system fails, only that `j` has too little room and more is refused
can be the reason. -/
structure ReadsBack (al : Alloc) (j : JstrTy) (file : Bytes) (works : Prop)
    (r : Run (RetTy × JstrTy)) : Prop where
  access : ∀ f, r = .error f → f = .diverge
  text : ∀ j', r = .ok (.succ, j') → Str j' file
  done : works → FailsFor (Denied al j (file.length + 1)) r ∨ ∃ j', r = .ok (.succ, j')

theorem readWhole_readsBack {al : Alloc} {closes : Bool} {j : JstrTy} (hb : Backed j)
    (hfit : file.length + 1 ≤ 9223372036854775808) :
    ReadsBack al j file (closes ∧ Answering answers)
      (readWhole al answers closes file j file.length) := by
  obtain ⟨hfault, hsucc, hdone⟩ := @readWhole_spec answers file al closes j _ hb hfit
  rw [List.take_length] at hsucc
  exact ⟨hfault, fun j' h => (hsucc j' h).2, fun ⟨hc, ha⟩ => hdone ha hc (le_refl _)⟩

theorem readfilefdLen_readsBack {al : Alloc} {j : JstrTy} (hb : Backed j)
    (hfit : file.length + 1 ≤ 9223372036854775808) :
    ReadsBack al j file (Answering answers) (readfilefdLen al answers file j file.length) := by
  have hread := @readWhole_readsBack answers file al true j hb hfit
  exact ⟨hread.access, hread.text, fun ha => hread.done ⟨rfl, ha⟩⟩

theorem readfile_readsBack {al : Alloc} {os : Opening} {j : JstrTy} (hb : Backed j)
    (hfit : file.length + 1 ≤ 9223372036854775808) :
    ReadsBack al j file (os.opens ∧ os.seeks ∧ os.closes ∧ Answering os.answers)
      (readfile al os file j) := by
  have hread := @readWhole_readsBack os.answers file al os.closes j hb hfit
  have hfail : ∀ {p : Prop}, ¬p → ReadsBack al j file p (.ok (.err, j)) := by
    intro p hp
    refine ⟨fun f h => ?_, fun j' h => ?_, fun h => absurd h hp⟩
    · cases h
    · cases h
  rw [readfile]
  cases hopen : os.opens with
  | false => exact hfail fun h => absurd h.1 Bool.false_ne_true
  | true =>
      cases hseek : os.seeks with
      | false => exact hfail fun h => absurd h.2.1 Bool.false_ne_true
      | true => exact ⟨hread.access, hread.text, fun h => hread.done h.2.2⟩

end Reading

/-! ## There and back -/

/-- Some way of writing reported success and left the file as it is. -/
def Wrote (mem : Mem) (s nl sz : Nat) (file : Bytes) : Prop :=
  (∃ answers, writefilefdLenByWrite answers mem s sz nl = .ok (.succ, file)) ∨
    ∃ c : Nat → Nat, (∀ i, 1 ≤ c i) ∧
      writefilefdLen (fun i => some (c i)) mem s sz nl = .ok (.succ, file)

theorem Wrote.eq {mem : Mem} {s nl : Nat} {l file : Bytes} (h : MemAt mem s l)
    (hnl : mem nl = 10) (hfit : l.length < sizeMax) (hw : Wrote mem s nl l.length file) :
    file = written l := by
  rcases hw with ⟨answers, hrun⟩ | ⟨c, hc, hrun⟩
  · exact ((writefilefdLenByWrite_spec h hnl (Nat.le_of_lt hfit)).1 _ _ hrun).2 rfl
  · exact writefilefdLen_succ h hnl hfit hc hrun

theorem written_written (l : Bytes) : written (written l) = written l := by
  unfold written
  by_cases hl : l = []
  · rw [if_pos hl, if_pos rfl]
  · rw [if_neg hl]
    have hnew : (withNewline l).getLast? = some 10 := by
      rw [withNewline]
      split
      · assumption
      · exact List.getLast?_concat
    have hne : withNewline l ≠ [] := fun he => by
      rw [he] at hnew
      cases hnew
    rw [if_neg hne, withNewline, if_pos hnew]

/-- A buffer that was written is read back with its newline, however the
bytes are cut up on both ways, and writing what was read leaves the same
file. -/
theorem files_roundtrip {mem : Mem} {s nl : Nat} {l file : Bytes} (h : MemAt mem s l)
    (hnl : mem nl = 10) (hfit : l.length + 2 ≤ 9223372036854775808)
    (hw : Wrote mem s nl l.length file) :
    file = written l ∧
      (∀ (al : Alloc) (j : JstrTy), Backed j →
        (∀ os, ReadsBack al j (written l)
          (os.opens ∧ os.seeks ∧ os.closes ∧ Answering os.answers) (readfile al os file j)) ∧
        ∀ answers, ReadsBack al j (written l) (Answering answers)
          (readfilefdLen al answers file j file.length)) ∧
      ∀ (j' : JstrTy) (mem' : Mem) (s' nl' : Nat) (file' : Bytes), Str j' (written l) →
        MemAt mem' s' (written l) → mem' nl' = 10 → Wrote mem' s' nl' j'.size file' →
        file' = file := by
  have hlen := length_written_le l
  have hfile : file = written l := hw.eq h hnl (by rw [sizeMax]; omega)
  rw [hfile]
  refine ⟨rfl, fun al j hb => ⟨fun os => readfile_readsBack hb (by omega),
    fun answers => readfilefdLen_readsBack hb (by omega)⟩, ?_⟩
  intro j' mem' s' nl' file' hstr h' hnl' hw'
  obtain ⟨b, -, -, hsize, -⟩ := hstr
  rw [hsize] at hw'
  rw [hw'.eq h' hnl' (by rw [sizeMax]; omega), written_written]

/-- "ab", one byte at a time. -/
theorem files_roundtrip_ab :
    [97, 98, 10] = written [97, 98] ∧
      (∀ (al : Alloc) (j : JstrTy), Backed j →
        (∀ os, ReadsBack al j (written [97, 98])
          (os.opens ∧ os.seeks ∧ os.closes ∧ Answering os.answers)
          (readfile al os [97, 98, 10] j)) ∧
        ∀ answers, ReadsBack al j (written [97, 98]) (Answering answers)
          (readfilefdLen al answers [97, 98, 10] j 3)) ∧
      ∀ (j' : JstrTy) (mem' : Mem) (s' nl' : Nat) (file' : Bytes), Str j' (written [97, 98]) →
        MemAt mem' s' (written [97, 98]) → mem' nl' = 10 → Wrote mem' s' nl' j'.size file' →
        file' = [97, 98, 10] := by
  have h : MemAt (memOf [97, 98, 10]) 0 [97, 98] := by decide
  have hrun : writefilefdLenByWrite (fun _ => some 1) (memOf [97, 98, 10]) 0 2 2
      = .ok (.succ, [97, 98, 10]) := by rfl
  exact files_roundtrip h (by rfl) (by decide) (.inl ⟨_, hrun⟩)

end Jstr
