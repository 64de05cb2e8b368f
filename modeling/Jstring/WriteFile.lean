import Jstring.Libc

/-!
# Writing a buffer and a newline

`jstr_io_writefilefd_len` of `include/io.h`, as built with `writev`: the buffer and,
unless it ends in one, a newline are offered together until all of it has
been accepted. The kernel's answers are a sequence, one for each call: how
many bytes it takes, or an error. The array passed has two elements, and a
call beyond them is `Fault.bounds`.

How much is left is kept as one number, and one byte left is taken for the
newline. That is so when a newline is added (`writevLoop_newline`). When the
buffer ends in one it is the last byte of the buffer, which is never
written (`writevLoop_bare`). `writefilefdLen_right_iff`: so all is well unless the
answers happen to leave that byte alone.
-/

namespace Jstr

/-! ## The loop -/

/-- `struct iovec`. -/
structure Iovec where
  base : Nat
  len : Nat
  deriving DecidableEq, Repr

/-- The locals of `jstr_io_writefilefd_len`, `iop` as an index into the array, and
how many calls have been made. -/
structure Writev where
  iov0 : Iovec
  iov1 : Iovec
  iop : Nat
  iol : Int
  left : Nat
  calls : Nat
  deriving DecidableEq, Repr

/-- The bytes of the `iol` elements from `iop` on. -/
def Writev.offered (mem : Mem) (w : Writev) : Run Bytes :=
  if 0 ≤ w.iol ∧ w.iop + w.iol ≤ 2 then
    .ok ((([w.iov0, w.iov1].drop w.iop).take w.iol.toNat).flatMap fun v => window mem v.base v.len)
  else .error .bounds

/-- `for (;;) { write_sz = writev(fd, iop, iol); ... }`: what is returned, and
what the file was given. -/
def writevLoop (answers : Nat → Option Nat) (mem : Mem) : Nat → Writev → Bytes →
    Run (RetTy × Bytes)
  | 0, _, _ => .error .diverge
  | fuel + 1, w, file => do
    let bytes ← w.offered mem
    match answers w.calls with
    | none => .ok (.err, file)
    | some count =>
      let writeSz := min count bytes.length
      let file := file ++ bytes.take writeSz
      let left := subSz w.left writeSz
      let w := { w with left, calls := w.calls + 1 }
      if left = 0 then .ok (.succ, file)
      else if left > 1 then
        let iov0 : Iovec := ⟨w.iov0.base + writeSz, subSz w.iov0.len writeSz⟩
        writevLoop answers mem fuel { w with iov0 } file
      else writevLoop answers mem fuel { w with iop := w.iop + 1, iol := w.iol - 1 } file

/-- `jstr_io_writefilefd_len`; `nl` is where the string literal for the newline lies. -/
def writefilefdLen (answers : Nat → Option Nat) (mem : Mem) (s sz nl : Nat) :
    Run (RetTy × Bytes) :=
  if sz = 0 then .ok (.succ, [])
  else
    let iov0 : Iovec := ⟨s, sz⟩
    let iov1 : Iovec := ⟨nl, if mem (s + (sz - 1)) ≠ 10 then 1 else 0⟩
    writevLoop answers mem (sizeMax + 1) ⟨iov0, iov1, 0, 2, addSz iov0.len iov1.len, 0⟩ []

/-! ## What the file is given -/

section Loop

variable {mem : Mem} {nl : Nat} {c : Nat → Nat}

/-- Both elements are passed: the data and what `iov[1]` holds. -/
theorem offered_both {p n left calls : Nat} {l : Bytes} (h : MemAt mem p l) :
    (⟨⟨p, l.length⟩, ⟨nl, n⟩, 0, 2, left, calls⟩ : Writev).offered mem
      = .ok (l ++ window mem nl n) := by
  have hl := window_of_memAt h
  simp [Writev.offered, hl]

/-- One turn in which `k` bytes of the data are taken and more than one
byte is left. -/
theorem writevLoop_data {p n k fuel calls : Nat} {l file : Bytes} (h : MemAt mem p l)
    (hk : c calls = k) (hkl : k ≤ l.length) (hleft : 1 < l.length - k + n) :
    writevLoop (fun i => some (c i)) mem (fuel + 1)
        ⟨⟨p, l.length⟩, ⟨nl, n⟩, 0, 2, l.length + n, calls⟩ file
      = writevLoop (fun i => some (c i)) mem fuel
        ⟨⟨p + k, (l.drop k).length⟩, ⟨nl, n⟩, 0, 2, (l.drop k).length + n, calls + 1⟩
        (file ++ l.take k) := by
  have hmin : min k (l.length + n) = k := Nat.min_eq_left (by omega)
  have hsub : subSz (l.length + n) k = l.length - k + n := by
    rw [subSz_eq (by omega)]
    omega
  rw [writevLoop, offered_both h]
  simp only [bind, Except.bind, hk, List.length_append, length_window, hmin, hsub,
    List.take_append_of_le_length hkl, if_neg (show ¬l.length - k + n = 0 by omega), gt_iff_lt,
    if_pos hleft, subSz_eq hkl, List.length_drop]

/-- One turn in which all is taken. -/
theorem writevLoop_last {p n fuel calls : Nat} {l file : Bytes} (h : MemAt mem p l)
    (hall : l.length + n ≤ c calls) :
    writevLoop (fun i => some (c i)) mem (fuel + 1)
        ⟨⟨p, l.length⟩, ⟨nl, n⟩, 0, 2, l.length + n, calls⟩ file
      = .ok (.succ, file ++ l ++ window mem nl n) := by
  have hmin : min (c calls) (l.length + n) = l.length + n := Nat.min_eq_right hall
  have htake : (l ++ window mem nl n).take (l.length + n) = l ++ window mem nl n :=
    List.take_of_length_le (by simp)
  rw [writevLoop, offered_both h]
  simp only [bind, Except.bind, List.length_append, length_window, hmin, htake,
    subSz_eq (Nat.le_refl _), Nat.sub_self, if_true, List.append_assoc]

/-- One turn that leaves one byte: the first element is passed over, whatever
it still holds. -/
theorem writevLoop_one {p n k fuel calls : Nat} {l file : Bytes} (h : MemAt mem p l)
    (hk : c calls = k) (hkl : k ≤ l.length) (hleft : l.length - k + n = 1) :
    writevLoop (fun i => some (c i)) mem (fuel + 1)
        ⟨⟨p, l.length⟩, ⟨nl, n⟩, 0, 2, l.length + n, calls⟩ file
      = writevLoop (fun i => some (c i)) mem fuel
        ⟨⟨p, l.length⟩, ⟨nl, n⟩, 1, 1, 1, calls + 1⟩ (file ++ l.take k) := by
  have hmin : min k (l.length + n) = k := Nat.min_eq_left (by omega)
  have hsub : subSz (l.length + n) k = 1 := by
    rw [subSz_eq (by omega)]
    omega
  rw [writevLoop, offered_both h]
  simp only [bind, Except.bind, hk, List.length_append, length_window, hmin, hsub,
    List.take_append_of_le_length hkl]
  rfl

/-- With the newline to come, what is left is the newline. -/
theorem writevLoop_newline (hc : ∀ i, 1 ≤ c i) : ∀ (fuel : Nat) {p calls : Nat} {l file : Bytes},
    MemAt mem p l → 0 < l.length → l.length + 2 ≤ fuel →
    writevLoop (fun i => some (c i)) mem fuel
        ⟨⟨p, l.length⟩, ⟨nl, 1⟩, 0, 2, l.length + 1, calls⟩ file
      = .ok (.succ, file ++ l ++ [mem nl]) := by
  intro fuel
  induction fuel with
  | zero => exact fun _ _ hf => absurd hf (Nat.not_succ_le_zero _)
  | succ fuel ih =>
      intro p calls l file h hpos hf
      have hone := hc calls
      rcases Nat.lt_trichotomy (c calls) l.length with hlt | heq | hgt
      · have hrest : (l.drop (c calls)).length = l.length - c calls := List.length_drop
        rw [writevLoop_data h rfl (Nat.le_of_lt hlt) (by omega),
          ih (h.drop (Nat.le_of_lt hlt)) (by omega) (by omega), List.append_assoc file,
          List.take_append_drop]
      · obtain ⟨fuel, rfl⟩ : ∃ m, fuel = m + 1 := ⟨fuel - 1, by omega⟩
        have hmin : min (c (calls + 1)) 1 = 1 := Nat.min_eq_right (hc _)
        rw [writevLoop_one h heq (Nat.le_refl _) (by omega), List.take_length, writevLoop]
        simp [Writev.offered, window, bind, Except.bind, hmin, subSz_eq]
      · rw [writevLoop_last h (by omega)]
        rfl

/-- How much the `m` answers from call number `calls` on allow. -/
def allowed (c : Nat → Nat) (calls m : Nat) : Nat := ∑ i ∈ Finset.range m, c (calls + i)

theorem allowed_succ (c : Nat → Nat) (calls m : Nat) :
    allowed c calls (m + 1) = c calls + allowed c (calls + 1) m := by
  rw [allowed, Finset.sum_range_succ', Nat.add_comm, allowed]
  congr 1
  exact Finset.sum_congr rfl fun i _ => by rw [Nat.add_right_comm, Nat.add_assoc]

/-- Some of the answers leave exactly one of `n` bytes. -/
def LeavesOne (c : Nat → Nat) (calls n : Nat) : Prop := ∃ m, 0 < m ∧ allowed c calls m + 1 = n

/-- Leaving one byte later on. -/
theorem leavesOne_iff {calls n : Nat} (hne : c calls + 1 ≠ n) (hlt : c calls < n) :
    LeavesOne c calls n ↔ LeavesOne c (calls + 1) (n - c calls) := by
  constructor
  · rintro ⟨m, hm, hsum⟩
    obtain ⟨m, rfl⟩ : ∃ k, m = k + 1 := ⟨m - 1, by omega⟩
    rw [allowed_succ] at hsum
    refine ⟨m, Nat.pos_of_ne_zero fun h0 => ?_, by omega⟩
    rw [h0, allowed, Finset.range_zero, Finset.sum_empty] at hsum
    omega
  · rintro ⟨m, hm, hsum⟩
    exact ⟨m + 1, Nat.succ_pos m, by rw [allowed_succ]; omega⟩

/-- Nothing but an empty element is passed, and then nothing at all. -/
theorem writevLoop_astray {p fuel calls : Nat} {n : Nat} {file : Bytes} :
    writevLoop (fun i => some (c i)) mem (fuel + 3)
      ⟨⟨p, n⟩, ⟨nl, 0⟩, 1, 1, 1, calls⟩ file = .error .bounds := by
  rw [writevLoop]
  simp only [Writev.offered, window, subSz]
  simp [bind, Except.bind, writevLoop, Writev.offered, subSz]

/-- Without a newline to come, the one byte left is lost. -/
theorem writevLoop_bare (hc : ∀ i, 1 ≤ c i) : ∀ (fuel : Nat) {p calls : Nat} {l file : Bytes},
    MemAt mem p l → 0 < l.length → l.length + 2 ≤ fuel →
    (¬LeavesOne c calls l.length → writevLoop (fun i => some (c i)) mem fuel
        ⟨⟨p, l.length⟩, ⟨nl, 0⟩, 0, 2, l.length, calls⟩ file = .ok (.succ, file ++ l)) ∧
      (LeavesOne c calls l.length → writevLoop (fun i => some (c i)) mem fuel
        ⟨⟨p, l.length⟩, ⟨nl, 0⟩, 0, 2, l.length, calls⟩ file = .error .bounds) := by
  intro fuel
  induction fuel with
  | zero => exact fun _ _ hf => absurd hf (Nat.not_succ_le_zero _)
  | succ fuel ih =>
      intro p calls l file h hpos hf
      have hone := hc calls
      by_cases hall : l.length ≤ c calls
      · have hnot : ¬LeavesOne c calls l.length := by
          rintro ⟨m, hm, hsum⟩
          obtain ⟨m, rfl⟩ : ∃ k, m = k + 1 := ⟨m - 1, by omega⟩
          rw [allowed_succ] at hsum
          omega
        have hlast := @writevLoop_last mem nl c p 0 fuel calls l file h hall
        refine ⟨fun _ => hlast.trans ?_, fun hl => absurd hl hnot⟩
        rw [show window mem nl 0 = [] from rfl, List.append_nil]
      · have hlt : c calls < l.length := Nat.lt_of_not_le hall
        by_cases hlone : c calls + 1 = l.length
        · obtain ⟨fuel, rfl⟩ : ∃ m, fuel = m + 3 := ⟨fuel - 3, by omega⟩
          have hyes : LeavesOne c calls l.length := ⟨1, Nat.one_pos, by simp [allowed, hlone]⟩
          have hone := @writevLoop_one mem nl c p 0 (c calls) (fuel + 3) calls l file h rfl
            (Nat.le_of_lt hlt) (by omega)
          exact ⟨fun hl => absurd hyes hl, fun _ => hone.trans writevLoop_astray⟩
        · have hrest : (l.drop (c calls)).length = l.length - c calls := List.length_drop
          have hturn := @writevLoop_data mem nl c p 0 (c calls) fuel calls l file h rfl
            (Nat.le_of_lt hlt) (by omega)
          obtain ⟨hgood, hbad⟩ := @ih (p + c calls) (calls + 1) (l.drop (c calls))
            (file ++ l.take (c calls)) (h.drop (Nat.le_of_lt hlt)) (by omega) (by omega)
          rw [leavesOne_iff hlone hlt, ← hrest]
          refine ⟨fun hl => hturn.trans ((hgood hl).trans ?_), fun hl => hturn.trans (hbad hl)⟩
          rw [List.append_assoc, List.take_append_drop]

end Loop

/-! ## When all is written -/

/-- The buffer, and one newline unless it ends in one. -/
def withNewline (l : Bytes) : Bytes := if l.getLast? = some 10 then l else l ++ [10]

/-- Exactly when all is written: a newline is added, or no run of answers from
the first on leaves the last byte alone. -/
theorem writefilefdLen_right_iff {mem : Mem} {s nl : Nat} {l : Bytes} {c : Nat → Nat}
    (h : MemAt mem s l) (hnl : mem nl = 10) (hne : l ≠ []) (hfit : l.length < sizeMax)
    (hc : ∀ i, 1 ≤ c i) :
    writefilefdLen (fun i => some (c i)) mem s l.length nl = .ok (.succ, withNewline l) ↔
      l.getLast? ≠ some 10 ∨ ∀ m, 0 < m → ∑ i ∈ Finset.range m, c i ≠ l.length - 1 := by
  have hpos := List.length_pos_of_ne_nil hne
  have hend : l.getLast? = some (mem (s + (l.length - 1))) := by
    rw [List.getLast?_eq_getElem?, h.getElem? (by omega)]
  rw [writefilefdLen, if_neg (Nat.pos_iff_ne_zero.mp hpos), withNewline, hend]
  by_cases hlast : mem (s + (l.length - 1)) = 10
  · simp only [hlast, ne_eq, not_true_eq_false, if_false, if_true, false_or,
      addSz_eq (show l.length + 0 ≤ sizeMax by omega), Nat.add_zero]
    obtain ⟨hgood, hbad⟩ := @writevLoop_bare mem nl c hc (sizeMax + 1) s 0 l [] h hpos (by omega)
    have hone : LeavesOne c 0 l.length ↔
        ¬∀ m, 0 < m → ¬∑ i ∈ Finset.range m, c i = l.length - 1 := by
      simp only [LeavesOne, allowed, Nat.zero_add, not_forall, not_not]
      exact exists_congr fun m => ⟨fun ⟨hm, hs⟩ => ⟨hm, by omega⟩, fun ⟨hm, hs⟩ => ⟨hm, by omega⟩⟩
    by_cases hl : LeavesOne c 0 l.length
    · rw [hbad hl]
      exact iff_of_false (by simp) (hone.mp hl)
    · rw [hgood hl]
      exact iff_of_true rfl (Classical.not_not.mp (mt hone.mpr hl))
  · simp only [Option.some.injEq, hlast, ne_eq, not_false_eq_true, if_true, if_false, true_or,
      iff_true, addSz_eq (show l.length + 1 ≤ sizeMax by omega)]
    rw [writevLoop_newline hc (sizeMax + 1) h hpos (by omega), hnl]
    rfl

/-- "ab" one byte at a time. -/
theorem writefilefdLen_right_iff_ab :
    writefilefdLen (fun _ => some 1) (memOf [97, 98, 10]) 0 2 2
        = .ok (.succ, withNewline [97, 98]) ↔
      ([97, 98] : Bytes).getLast? ≠ some 10 ∨
        ∀ m, 0 < m → ∑ i ∈ Finset.range m, (fun _ => 1) i ≠ ([97, 98] : Bytes).length - 1 :=
  @writefilefdLen_right_iff (memOf [97, 98, 10]) 0 2 [97, 98] (fun _ => 1) (by decide) (by decide)
    (by decide) (by decide) fun _ => Nat.le_refl 1

/-- "a\n" one byte at a time: the array is left. -/
theorem not_writefilefdLen_right :
    ¬∀ (mem : Mem) (s nl : Nat) (l : Bytes) (c : Nat → Nat), MemAt mem s l → mem nl = 10 → l ≠ [] →
      l.length < sizeMax → (∀ i, 1 ≤ c i) →
        writefilefdLen (fun i => some (c i)) mem s l.length nl = .ok (.succ, withNewline l) := by
  intro hall
  have hright := hall (memOf [97, 10]) 0 1 [97, 10] (fun _ => 1) (by decide) (by decide) (by decide)
    (by decide) fun _ => Nat.le_refl 1
  have hres : writefilefdLen (fun _ => some 1) (memOf [97, 10]) 0 2 1 = .error .bounds := rfl
  cases hres.symm.trans hright

end Jstr
