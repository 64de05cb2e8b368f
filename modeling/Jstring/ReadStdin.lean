import Jstring.Builder

/-!
# Reading the standard input

`jstr_io_readstdin` of `include/io.h`. The kernel's answers to `read` are a
sequence, one for each call: how many bytes it hands out at most, or an
error. A call gets no more than was asked for and no more than is left, so at the
end of the stream it gets nothing. `BUFSIZ` is a parameter.

The first read is into a buffer of `BUFSIZ` bytes. If it is filled, the rest is
read into the string itself, as much as it has room for, and the capacity
doubled each time the room is filled. A read that is not filled is taken for
the last one. So the stream is read up to the first mark (`mark`) that
is not reached (`readstdinLoop_spec`), and all of it is read exactly when no read falls short
before the end (`readstdin_right_iff`). The call fails only when one of the requests it makes on
the way is refused (`Starved`).
-/

namespace Jstr

/-! ## The function -/

/-- A `size_t` as `ssize_t`. -/
def toSsize (n : Nat) : Int :=
  if n < 9223372036854775808 then n else (n : Int) - 18446744073709551616

/-- What is left of the standard input, and how many calls were answered. -/
structure Stdin where
  rest : Bytes
  calls : Nat
  deriving DecidableEq, Repr

/-- `read(STDIN_FILENO, .., n)`. -/
def Stdin.read (answers : Nat → Option Nat) (f : Stdin) (n : Nat) : Option (Bytes × Stdin) :=
  match answers f.calls with
  | none => none
  | some count =>
    let got := f.rest.take (min count n)
    some (got, ⟨f.rest.drop got.length, f.calls + 1⟩)

/-- `for (;;) { requested_sz = *cap - *sz; ... }`, up to its `break`. -/
def readstdinLoop (answers : Nat → Option Nat) (al : Alloc) :
    Nat → JstrTy → Stdin → Run (RetTy × JstrTy)
  | 0, _, _ => .error .diverge
  | fuel + 1, j, f =>
    let requestedSz := subSz j.capacity j.size
    match f.read answers requestedSz with
    | none => .ok (.err, j)
    | some (got, f) => do
      let b ← j.deref
      let b ← b.write (b.addr + j.size) got
      let j := { j with data := some b, size := addSz j.size got.length }
      if (got.length : Int) < toSsize requestedSz then .ok (.succ, j)
      else if j.size = j.capacity then
        orErr (reserveexactalways al j (mulSz j.capacity growth)) fun j =>
          readstdinLoop answers al fuel j f
      else readstdinLoop answers al fuel j f

/-- `jstr_io_readstdin`. -/
def readstdin (bufsiz : Nat) (answers : Nat → Option Nat) (al : Alloc) (j : JstrTy) (f : Stdin) :
    Run (RetTy × JstrTy) :=
  match f.read answers bufsiz with
  | none => .ok (.err, j)
  | some (buf, f) =>
    let readSz := buf.length
    let initialsz := if readSz = bufsiz then mulSz readSz growth else addSz readSz 1
    orErr (reserve al j initialsz) fun j => do
      let b ← j.deref
      let b ← b.write b.addr buf
      let j := { j with data := some b, size := readSz }
      orErr (if readSz = bufsiz then readstdinLoop answers al (sizeMax + 1) j f else .ok (.succ, j))
        fun j => do
          let b ← j.deref
          let b ← b.write (b.addr + j.size) [0]
          return (.succ, { j with data := some b })

/-! ## The marks -/

/-- Where the first `i` reads end when each is filled: a buffer, the
capacity, and twice that each time. -/
def mark (bufsiz cap : Nat) : Nat → Nat
  | 0 => 0
  | 1 => bufsiz
  | i + 2 => capAfter cap (2 * bufsiz) * 2 ^ i

/-- From the `i`-th on no read falls short before the end of the `len` bytes:
each gets what it asks for, or all that is left. -/
def NoneShort (m c : Nat → Nat) (len i : Nat) : Prop :=
  ∀ k, i ≤ k → min (m (k + 1)) len ≤ m k + c k

/-- The reads from the `i`-th to the one before the `k`-th are filled: each brings the stream to
the next mark. -/
def AllFilled (m c : Nat → Nat) (len i k : Nat) : Prop :=
  ∀ x, i ≤ x → x < k → m (x + 1) ≤ min (m x + c x) len

section Marks

variable {m c : Nat → Nat} {len i : Nat}

/-- The `i`-th read does not reach its mark: only the end of the stream excuses it. -/
theorem noneShort_of_short (hmono : StrictMono m) (hshort : min (m i + c i) len < m (i + 1)) :
    NoneShort m c len i ↔ len ≤ m i + c i := by
  constructor
  · intro h
    have := h i (Nat.le_refl i)
    omega
  · intro hle k hk
    rcases Nat.eq_or_lt_of_le hk with rfl | hlt
    · omega
    · have : m (i + 1) ≤ m k := hmono.monotone hlt
      omega

/-- The `i`-th read reaches its mark: the later ones decide. -/
theorem noneShort_of_filled (hfull : m (i + 1) ≤ m i + c i) :
    NoneShort m c len i ↔ NoneShort m c len (i + 1) := by
  refine ⟨fun h k hk => h k (by omega), fun h k hk => ?_⟩
  rcases Nat.eq_or_lt_of_le hk with rfl | hlt
  · omega
  · exact h k hlt

theorem filled_cons {k : Nat} (hi : m (i + 1) ≤ min (m i + c i) len)
    (h : AllFilled m c len (i + 1) k) : AllFilled m c len i k := by
  intro x hx hk
  rcases Nat.eq_or_lt_of_le hx with rfl | hlt
  · exact hi
  · exact h x hlt hk

end Marks

theorem le_capAfter {cap n : Nat} (hn : n ≤ 9223372036854775808) : n ≤ capAfter cap n := by
  unfold capAfter
  split
  · assumption
  · obtain ⟨r, hr⟩ := growCap_total (Nat.le_max_right cap minCap) hn
    rw [hr]
    exact (growCap_spec hr).1

/-- The loop stops at less than twice what was asked for. -/
theorem growCap_lt {fuel cap n r : Nat} (h : growCap fuel cap n = .ok r) : r = cap ∨ r < 2 * n := by
  induction fuel generalizing cap with
  | zero => cases h
  | succ fuel ih =>
      unfold growCap at h
      split at h
      · have hle : mulSz cap growth ≤ 2 * cap := by
          simp only [mulSz, growth]
          omega
        have := ih h
        omega
      · cases h
        exact .inl rfl

theorem capAfter_lt {cap n : Nat} (hcap : cap < 9223372036854775808)
    (hn : n ≤ 4611686018427387904) : capAfter cap n < 9223372036854775808 := by
  unfold capAfter
  split
  · exact hcap
  · obtain ⟨r, hr⟩ := growCap_total (Nat.le_max_right cap minCap) (show n ≤ _ by omega)
    have hle := growCap_lt hr
    rw [hr]
    simp only [minCap] at hle ⊢
    omega

theorem mark_strictMono {bufsiz cap : Nat} (hpos : 0 < bufsiz)
    (hbuf : 2 * bufsiz ≤ 9223372036854775808) : StrictMono (mark bufsiz cap) := by
  have hcap := @le_capAfter cap _ hbuf
  refine strictMono_nat_of_lt_succ fun i => ?_
  match i with
  | 0 => exact hpos
  | 1 =>
      simp only [mark, Nat.pow_zero, Nat.mul_one]
      omega
  | i + 2 =>
      have hpow := Nat.two_pow_pos i
      exact Nat.mul_lt_mul_of_pos_left (Nat.pow_lt_pow_right (by decide) (Nat.lt_succ_self i))
        (by omega)

/-! ## The loop -/

variable {al : Alloc} {c : Nat → Nat} {l : Bytes} {j : JstrTy} {f : Stdin} {lo hi i : Nat}

/-- The read that starts at `lo` and may go up to `hi` is the next, number `i`: what
came before it is in the block. -/
structure Filling (l : Bytes) (lo hi i : Nat) (j : JstrTy) (f : Stdin) : Prop where
  block : ∃ b, j.data = some b ∧ b.size = hi ∧ b.At b.addr (l.take lo)
  size : j.size = lo
  capacity : j.capacity = hi
  file : f = ⟨l.drop lo, i⟩
  le : lo ≤ l.length
  lt : lo < hi

/-- No block is larger than `PTRDIFF_MAX`: the allocator refuses what is. -/
def Bounded (al : Alloc) : Prop := ∀ o n, 9223372036854775808 ≤ n → al.realloc o n = none

theorem Bounded.lt {o : Option Blk} {n : Nat} {tmp : Blk} (hal : Bounded al)
    (h : al.realloc o n = some tmp) : n < 9223372036854775808 := by
  by_contra hn
  rw [hal o n (Nat.le_of_not_lt hn)] at h
  cases h

/-- The call fails, and there is a reason. -/
def FailsFor (reason : Prop) (r : Run (RetTy × JstrTy)) : Prop :=
  reason ∧ ∃ j', r = .ok (.err, j')

theorem FailsFor.mono {p q : Prop} {r : Run (RetTy × JstrTy)} (h : FailsFor p r) (hpq : p → q) :
    FailsFor q r :=
  ⟨hpq h.1, h.2⟩

/-- The doubling of a block that the first `n` bytes fill is refused. -/
def Stuck (al : Alloc) (l : Bytes) (n : Nat) : Prop :=
  n ≤ l.length ∧
    ∃ b : Blk, b.size = n ∧ b.At b.addr (l.take n) ∧ al.realloc (some b) (2 * n) = none

/-- A request that reading makes is refused: room for a first part that does not fill the buffer,
for twice a buffer that is filled, or, behind that, for twice what the reads have filled so
far. -/
inductive Starved (bufsiz : Nat) (c : Nat → Nat) (l : Bytes) (al : Alloc) (j : JstrTy) : Prop where
  | short : min (c 0) l.length < bufsiz → Denied al j (min (c 0) l.length + 1) →
      Starved bufsiz c l al j
  | buffer : bufsiz ≤ min (c 0) l.length → Denied al j (2 * bufsiz) → Starved bufsiz c l al j
  | double (k : Nat) : 2 ≤ k → AllFilled (mark bufsiz j.capacity) c l.length 0 k →
      Stuck al l (mark bufsiz j.capacity k) → Starved bufsiz c l al j

theorem toSsize_eq {n : Nat} (h : n < 9223372036854775808) : toSsize n = n := if_pos h

/-- What a read asking for `hi - lo` bytes gets, put behind what came before. -/
theorem readInto_eq {b : Blk} (hat : b.At b.addr (l.take lo)) (hle : lo ≤ l.length)
    (hlt : lo < hi) (hhi : hi ≤ b.size) (n : Nat) :
    let got := (l.drop lo).take (min n (hi - lo))
    lo + got.length = min (lo + n) (min hi l.length) ∧
      ∃ b', Blk.write b (b.addr + lo) got = .ok b' ∧ b'.addr = b.addr ∧ b'.size = b.size ∧
        b'.At b'.addr (l.take (min (lo + n) (min hi l.length))) := by
  intro got
  have hlen : lo + got.length = min (lo + n) (min hi l.length) := by
    simp only [got, List.length_take, List.length_drop]
    omega
  have hroom : b.InRange (b.addr + lo) got.length := ⟨Nat.le_add_right _ _, by omega⟩
  have hlo : (l.take lo).length = lo := List.length_take_of_le hle
  have hall : l.take (min (lo + n) (min hi l.length)) = l.take lo ++ got := by
    have hcut : l.take (lo + min n (hi - lo)) = l.take lo ++ got := List.take_add
    rw [← hcut, List.take_eq_take_iff]
    omega
  refine ⟨hlen, _, Blk.write_eq hroom, rfl, Memory.Block.put_size _ _ _, ?_⟩
  rw [hall]
  refine Memory.Block.at_append.mpr ⟨hat.put_of_disjoint (.inl (by omega)), ?_⟩
  rw [hlo]
  exact Memory.Block.at_put hroom

/-- One turn of the loop: the read stops short of `hi`, or reaches it and the room is doubled. -/
theorem readstdinLoop_step (h : Filling l lo hi i j f) (hal : Bounded al)
    (hhi : hi < 9223372036854775808) (fuel : Nat) :
    let r := readstdinLoop (fun k => some (c k)) al (fuel + 1) j f
    let n := min (lo + c i) (min hi l.length)
    (n < hi ∧ ∃ j' b, r = .ok (.succ, j') ∧ Holds j' b (l.take n)) ∨
      (n = hi ∧ (FailsFor (Stuck al l hi) r ∨ ∃ j' f', Filling l hi (2 * hi) (i + 1) j' f' ∧
        2 * hi < 9223372036854775808 ∧ r = readstdinLoop (fun k => some (c k)) al fuel j' f')) := by
  obtain ⟨⟨b, hd, hb, hat⟩, hsz, hcap, rfl, hle, hlt⟩ := h
  intro r n
  obtain ⟨hgot, b', hwrite, -, hsize, hat'⟩ := readInto_eq hat hle hlt (Nat.le_of_eq hb.symm) (c i)
  have hat' : b'.At b'.addr (l.take n) := hat'
  have hreq : subSz hi lo = hi - lo := subSz_eq (Nat.le_of_lt hlt)
  have hnew : addSz lo ((l.drop lo).take (min (c i) (hi - lo))).length = n := by
    rw [addSz_eq (by simp only [sizeMax]; omega), hgot]
  have hrest : (l.drop lo).drop ((l.drop lo).take (min (c i) (hi - lo))).length = l.drop n := by
    rw [List.drop_drop, hgot]
  have hshort : (((l.drop lo).take (min (c i) (hi - lo))).length : Int) < toSsize (hi - lo) ↔
      n < hi := by
    rw [toSsize_eq (by omega)]
    omega
  have hr : r = if n < hi then .ok (.succ, { j with data := some b', size := n })
      else if n = hi then
        orErr (reserveexactalways al { j with data := some b', size := n } (mulSz hi growth))
          fun j => readstdinLoop (fun k => some (c k)) al fuel j ⟨l.drop n, i + 1⟩
      else readstdinLoop (fun k => some (c k)) al fuel { j with data := some b', size := n }
        ⟨l.drop n, i + 1⟩ := by
    simp only [r, readstdinLoop, Stdin.read, hsz, hcap, hreq, JstrTy.deref, hd, bind, Except.bind,
      hwrite, hnew, hrest, hshort]
  have htake : (l.take n).length = n := List.length_take_of_le (by omega)
  rcases Nat.lt_or_ge n hi with hn | hn
  · rw [if_pos hn] at hr
    exact .inl ⟨hn, _, b', hr, rfl, by rw [hsize, hb, ← hcap], htake.symm, by omega, hat'⟩
  · have hfull : n = hi := by omega
    rw [if_neg (by omega), if_pos hfull, hfull] at hr
    refine .inr ⟨hfull, ?_⟩
    have hdouble : mulSz hi growth = 2 * hi := by
      rw [mulSz_eq (by simp only [sizeMax, growth]; omega), growth, Nat.mul_comm]
    rw [hfull] at hat'
    rcases ha : al.realloc (some b') (2 * hi) with _ | tmp
    · refine .inl ⟨⟨by omega, b', hsize.trans hb, hat', ha⟩,
        { j with data := some b', size := hi, capacity := 2 * hi }, ?_⟩
      rw [hr, hdouble]
      simp only [reserveexactalways, ha, orErr, if_pos (show 2 * hi ≠ 0 by omega)]
    · refine .inr ⟨{ j with data := some tmp, size := hi, capacity := 2 * hi }, _, ⟨⟨tmp, rfl,
        al.size_eq ha, ?_⟩, rfl, rfl, rfl, by omega, by omega⟩, hal.lt ha, ?_⟩
      · exact @Alloc.keeps_at al b' tmp _ ha 0 _ hat' (by
          rw [List.length_take_of_le (by omega)]
          omega)
      · rw [hr, hdouble]
        simp only [reserveexactalways, ha, orErr, if_pos (show 2 * hi ≠ 0 by omega)]

theorem mark_double {bufsiz cap i : Nat} (hi : 1 ≤ i) :
    mark bufsiz cap (i + 2) = 2 * mark bufsiz cap (i + 1) := by
  obtain ⟨k, rfl⟩ := Nat.exists_eq_add_of_le' hi
  simp only [mark, Nat.pow_succ]
  ring

/-- The loop from read `i` on: it reads up to some point, which is the end of the stream
exactly when no read falls short before; what it fails to double is what the reads have
filled. -/
theorem readstdinLoop_spec {bufsiz cap : Nat} (hmono : StrictMono (mark bufsiz cap))
    (hal : Bounded al) (fuel : Nat) (hi : 1 ≤ i)
    (h : Filling l (mark bufsiz cap i) (mark bufsiz cap (i + 1)) i j f)
    (hmark : mark bufsiz cap (i + 1) < 9223372036854775808)
    (hfuel : 9223372036854775808 ≤ mark bufsiz cap i + fuel) :
    FailsFor (∃ k, i < k ∧ AllFilled (mark bufsiz cap) c l.length i k ∧
        Stuck al l (mark bufsiz cap k)) (readstdinLoop (fun k => some (c k)) al fuel j f) ∨
      ∃ j' b n, readstdinLoop (fun k => some (c k)) al fuel j f = .ok (.succ, j') ∧
        Holds j' b (l.take n) ∧ n ≤ l.length ∧
        (n = l.length ↔ NoneShort (mark bufsiz cap) c l.length i) := by
  have hstep : mark bufsiz cap i < mark bufsiz cap (i + 1) := hmono (Nat.lt_succ_self i)
  induction fuel generalizing i j f with
  | zero => omega
  | succ fuel ih =>
      rcases readstdinLoop_step h hal hmark fuel with
        ⟨hn, j', b, hr, hh⟩ | ⟨hn, href | ⟨j', f', h', hlt, hr⟩⟩
      · refine .inr ⟨j', b, _, hr, hh, by omega, ?_⟩
        rw [noneShort_of_short hmono (by omega)]
        omega
      · refine .inl (href.mono fun hstuck => ⟨i + 1, Nat.lt_succ_self i, fun x hx hk => ?_, hstuck⟩)
        obtain rfl : x = i := by omega
        omega
      · rw [← mark_double hi] at h' hlt
        rw [hr, noneShort_of_filled (by omega)]
        have hrest := ih (Nat.le_add_left 1 i) h' hlt (by omega) (hmono (Nat.lt_succ_self (i + 1)))
        refine hrest.imp_left fun hfail => hfail.mono ?_
        rintro ⟨k, hk, hfilled, hstuck⟩
        exact ⟨k, by omega, filled_cons (by omega) hfilled, hstuck⟩

/-! ## The whole call -/

/-- `*(*s + *sz) = '\0'` behind the content. -/
theorem closeText_eq {b : Blk} {m : Bytes} (hh : Holds j b m) :
    ∃ b', Blk.write b (b.addr + j.size) [0] = .ok b' ∧ Str { j with data := some b' } m := by
  have hlt := hh.lt
  have hs := @stores_back b m [] hh.content (by rw [List.length_nil]; omega)
  rw [List.append_nil, List.nil_append] at hs
  rw [hh.size]
  refine ⟨_, Blk.write_eq ⟨Nat.le_add_right _ _, ?_⟩, ?_⟩
  · rw [List.length_singleton]
    omega
  · exact ⟨_, rfl, hs.size.trans hh.backed, rfl, hs.content⟩

/-- A string that is the front of `m` is `m` when it is as long. -/
theorem str_take_iff {m : Bytes} {n : Nat} (hn : n ≤ m.length) (hs : Str j (m.take n)) :
    Str j m ↔ n = m.length := by
  constructor
  · intro h
    have hlen := congrArg List.length (hs.unique h)
    rwa [List.length_take_of_le hn] at hlen
  · rintro rfl
    rwa [List.take_length] at hs

/-- The end of the call, after the part read has been stored. -/
theorem finish_spec {p why : Prop} {r : Run (RetTy × JstrTy)} (h : FailsFor why r ∨
      ∃ j' b n, r = .ok (.succ, j') ∧ Holds j' b (l.take n) ∧ n ≤ l.length ∧ (n = l.length ↔ p)) :
    let r' := orErr r fun j => do
      let b ← j.deref
      let b ← b.write (b.addr + j.size) [0]
      return (.succ, { j with data := some b })
    FailsFor why r' ∨ ∃ j', r' = .ok (.succ, j') ∧ (Str j' l ↔ p) := by
  rcases h with ⟨hwhy, j', rfl⟩ | ⟨j', b, n, rfl, hh, hn, hiff⟩
  · exact .inl ⟨hwhy, j', rfl⟩
  · obtain ⟨b', hwrite, hstr⟩ := closeText_eq hh
    refine .inr ⟨{ j' with data := some b' }, ?_, (str_take_iff hn hstr).trans hiff⟩
    simp only [orErr, JstrTy.deref, hh.data, bind, Except.bind, hwrite, pure, Except.pure]

/-- The first buffer is copied into a block with room for more. -/
theorem copyFirst_eq {j₁ : JstrTy} {m : Bytes} {n : Nat} (hg : Grown j n j₁) (hn : m.length < n) :
    ∃ b b', j₁.data = some b ∧ Blk.write b b.addr m = .ok b' ∧
      Holds { j₁ with data := some b', size := m.length } b' m := by
  obtain ⟨b, hd, hsize, hroom⟩ := hg.room
  have hin : b.InRange b.addr m.length := ⟨Nat.le_refl _, by omega⟩
  have hput : (b.put b.addr m).size = b.size := Memory.Block.put_size _ _ _
  exact ⟨b, _, hd, Blk.write_eq hin, rfl, hput.trans hsize, rfl, by omega, Memory.Block.at_put hin⟩

/-- A first read that fills its buffer leaves the loop at the second mark. -/
theorem filling_first {bufsiz cap : Nat} {b : Blk} (hmono : StrictMono (mark bufsiz cap))
    (hh : Holds j b (l.take bufsiz)) (hcap : j.capacity = capAfter cap (2 * bufsiz))
    (hle : bufsiz ≤ l.length) :
    Filling l (mark bufsiz cap 1) (mark bufsiz cap 2) 1 j ⟨l.drop bufsiz, 1⟩ := by
  have hmark : j.capacity = mark bufsiz cap 2 := hcap.trans (Nat.mul_one _).symm
  exact ⟨⟨b, hh.data, hh.backed.trans hmark, hh.content⟩,
    hh.size.trans (List.length_take_of_le hle), hmark, rfl, hle, hmono (by decide)⟩

/-- The call fails only when a request it makes is refused. Else all of the stream is in
the string, terminated, exactly when no read falls short before the end. -/
theorem readstdin_right_iff {bufsiz : Nat} (hpos : 0 < bufsiz) (hbuf : bufsiz ≤ 2305843009213693952)
    (hal : Bounded al) (hb : Backed j) (hcap : j.capacity < 9223372036854775808) :
    FailsFor (Starved bufsiz c l al j) (readstdin bufsiz (fun k => some (c k)) al j ⟨l, 0⟩) ∨
      ∃ j', readstdin bufsiz (fun k => some (c k)) al j ⟨l, 0⟩ = .ok (.succ, j') ∧
        (Str j' l ↔ NoneShort (mark bufsiz j.capacity) c l.length 0) := by
  have hmono := @mark_strictMono bufsiz j.capacity hpos (by omega)
  set buf := l.take (min (c 0) bufsiz) with hbufEq
  have hread : buf.length = min (c 0) (min bufsiz l.length) := by
    simp only [hbufEq, List.length_take]
    omega
  have htake : buf = l.take buf.length := by
    rw [hread, hbufEq, List.take_eq_take_iff]
    omega
  unfold readstdin
  simp only [Stdin.read, ← hbufEq]
  by_cases hfull : buf.length = bufsiz
  · have hdouble : mulSz buf.length growth = 2 * bufsiz := by
      rw [hfull, mulSz_eq (by simp only [sizeMax, growth]; omega), growth, Nat.mul_comm]
    simp only [if_pos hfull, hdouble]
    rcases @reserve_decided al j (2 * bufsiz) hb (by omega) (by omega) with
      ⟨hr, hden, -⟩ | ⟨j₁, hr, hg, hcap₁, -⟩
    · rw [hr]
      exact .inl ⟨.buffer (by omega) hden, j, rfl⟩
    · obtain ⟨b, b', hd, hwrite, hh⟩ := copyFirst_eq hg (show buf.length < 2 * bufsiz by omega)
      rw [hfull] at htake
      have hfirst : Holds { j₁ with data := some b', size := bufsiz } b' (l.take bufsiz) := by
        rw [← htake]
        rwa [hfull] at hh
      have hfill := filling_first hmono hfirst hcap₁ (by omega)
      have hlt : mark bufsiz j.capacity (1 + 1) < 9223372036854775808 := by
        rw [mark, Nat.pow_zero, Nat.mul_one]
        exact capAfter_lt hcap (by omega)
      have hloop := @readstdinLoop_spec al c l _ _ 1 bufsiz j.capacity hmono hal (sizeMax + 1)
        (Nat.le_refl 1) hfill hlt (by simp only [sizeMax]; omega)
      simp only [hr, orErr, JstrTy.deref, hd, bind, Except.bind, hwrite, hfull]
      rw [noneShort_of_filled (show mark bufsiz j.capacity 1 ≤ mark bufsiz j.capacity 0 + c 0 by
        simp only [mark]; omega)]
      refine finish_spec (hloop.imp_left fun hfail => hfail.mono ?_)
      rintro ⟨k, hk, hfilled, hstuck⟩
      exact .double k hk (filled_cons (by simp only [mark]; omega) hfilled) hstuck
  · have hadd : addSz buf.length 1 = buf.length + 1 := addSz_eq (by simp only [sizeMax]; omega)
    simp only [if_neg hfull, hadd]
    rcases @reserve_decided al j (buf.length + 1) hb (Nat.succ_pos _) (by omega) with
      ⟨hr, hden, -⟩ | ⟨j₁, hr, hg, -, -⟩
    · rw [show buf.length = min (c 0) l.length by omega] at hden
      rw [hr]
      exact .inl ⟨.short (by omega) hden, j, rfl⟩
    · obtain ⟨b, b', hd, hwrite, hh⟩ := copyFirst_eq hg (Nat.lt_succ_self buf.length)
      simp only [hr, orErr, JstrTy.deref, hd, bind, Except.bind, hwrite]
      have hh' : Holds { j₁ with data := some b', size := buf.length } b' (l.take buf.length) := by
        rw [← htake]
        exact hh
      refine finish_spec (.inr ⟨_, b', buf.length, rfl, hh', by omega, ?_⟩)
      rw [noneShort_of_short hmono (by simp only [mark]; omega)]
      simp only [mark]
      omega

theorem limited_some {al : Alloc} {o : Option Blk} {n : Nat} {tmp : Blk}
    (h : (if n < 9223372036854775808 then al.realloc o n else none) = some tmp) :
    al.realloc o n = some tmp := by
  split at h
  · exact h
  · cases h

/-- An allocator that grants up to `PTRDIFF_MAX`. -/
def Alloc.limited (al : Alloc) : Alloc where
  realloc b n := if n < 9223372036854775808 then al.realloc b n else none
  size_eq h := al.size_eq (limited_some h)
  keeps h := al.keeps (limited_some h)

theorem bounded_limited (al : Alloc) : Bounded al.limited := fun _ _ hn =>
  if_neg (Nat.not_lt.mpr hn)

theorem readstdin_right_iff_ab :
    FailsFor (Starved 8192 (fun _ => 2) [97, 98] (Alloc.filling 4096 0).limited JstrTy.init)
        (readstdin 8192 (fun _ => some 2) (Alloc.filling 4096 0).limited JstrTy.init
          ⟨[97, 98], 0⟩) ∨
      ∃ j', readstdin 8192 (fun _ => some 2) (Alloc.filling 4096 0).limited JstrTy.init
          ⟨[97, 98], 0⟩ = .ok (.succ, j') ∧
        (Str j' [97, 98] ↔ NoneShort (mark 8192 0) (fun _ => 2) 2 0) :=
  @readstdin_right_iff (Alloc.filling 4096 0).limited (fun _ => 2) [97, 98] JstrTy.init 8192
    (by decide) (by decide) (bounded_limited _) rfl (by decide)

/-- A pipe that hands out one byte, then another: the second is never read. -/
theorem not_readstdin_right :
    ¬∀ (bufsiz : Nat) (al : Alloc) (c : Nat → Nat) (l : Bytes) (j : JstrTy), 0 < bufsiz →
      bufsiz ≤ 2305843009213693952 → Bounded al → Backed j → j.capacity < 9223372036854775808 →
      (∀ i, 0 < c i) →
      FailsFor (Starved bufsiz c l al j) (readstdin bufsiz (fun k => some (c k)) al j ⟨l, 0⟩) ∨
        ∃ j', readstdin bufsiz (fun k => some (c k)) al j ⟨l, 0⟩ = .ok (.succ, j') ∧ Str j' l := by
  intro hall
  have hrun : (readstdin 8192 (fun _ => some 1) (Alloc.filling 4096 0).limited JstrTy.init
      ⟨[97, 98], 0⟩).map (fun r => (r.1, r.2.size)) = .ok (.succ, 1) := by decide
  rcases hall 8192 (Alloc.filling 4096 0).limited (fun _ => 1) [97, 98] JstrTy.init (by decide)
    (by decide) (bounded_limited _) rfl (by decide) (fun _ => Nat.one_pos) with
    ⟨-, j', hr⟩ | ⟨j', hr, _, -, -, hsize, -⟩
  · rw [hr] at hrun
    cases hrun
  · rw [hr] at hrun
    injection hrun with hpair
    injection hpair with _ hone
    exact absurd (hone.symm.trans hsize) (by decide)

end Jstr
