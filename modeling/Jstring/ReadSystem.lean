import Jstring.ReadStdin

/-!
# `jstr_io_readsystem`

The output of a command, read with `fread`: a first page into a buffer of its own,
then straight into a block that is doubled when it is full. Other than
`read`, `fread` falls short only at the end of the output or on an error,
and the loop asks which of the two it was, so everything is read
(`readsystem_reads`). An error in the first page is taken for the end. The requests
are those of reading a stream that always gives what it is asked for.
-/

namespace Jstr

/-! ## The functions -/

/-- What a command has still to say, and whether reading it ends in an error. -/
structure Pipe where
  rest : Bytes
  breaks : Bool
  deriving DecidableEq, Repr

/-- `fread(.., 1, n, fp)`; short of `n`, `ferror` says whether it broke, and `feof`
whether it did not. -/
def Pipe.fread (f : Pipe) (n : Nat) : Bytes × Pipe :=
  (f.rest.take n, { f with rest := f.rest.drop n })

/-- `JSTR_PAGE_SIZE`. -/
def pageSize : Nat := 4096

/-- `for (;;) { requested_sz = *cap - *sz; ... }`, up to its `break`. -/
def readsystemLoop (al : Alloc) : Nat → JstrTy → Pipe → Run (RetTy × JstrTy)
  | 0, _, _ => .error .diverge
  | fuel + 1, j, f =>
    let requestedSz := subSz j.capacity j.size
    let (got, f) := f.fread requestedSz
    if got.length = sizeMax then .ok (.err, j)
    else do
      let b ← j.deref
      let b ← b.write (b.addr + j.size) got
      let j := { j with data := some b, size := addSz j.size got.length }
      if got.length < requestedSz then
        if !f.breaks then .ok (.succ, j) else .ok (.err, j)
      else if j.size = j.capacity then
        orErr (reserveexactalways al j (mulSz j.capacity growth)) fun j =>
          readsystemLoop al fuel j f
      else readsystemLoop al fuel j f

/-- `jstr_io_readsystem`: whether `popen` and `pclose` succeed, and what the command
says. -/
def readsystem (al : Alloc) (opens closes : Bool) (j : JstrTy) (f : Pipe) :
    Run (RetTy × JstrTy) :=
  if !opens then .ok (.err, j)
  else
    let (buf, f) := f.fread pageSize
    let readSz := buf.length
    if readSz = 0 then .ok (.err, j)
    else
      let initialsz := if readSz = pageSize then mulSz readSz growth else addSz readSz 1
      orErr (reserve al j initialsz) fun j => do
        let b ← j.deref
        let b ← b.write b.addr buf
        let j := { j with data := some b, size := readSz }
        orErr (if readSz = pageSize then readsystemLoop al (sizeMax + 1) j f else .ok (.succ, j))
          fun j => do
            let b ← j.deref
            let b ← b.write (b.addr + j.size) [0]
            let j := { j with data := some b }
            if !closes then .ok (.err, j) else .ok (.succ, j)

/-! ## The loop -/

variable {al : Alloc} {l : Bytes} {j : JstrTy} {lo hi : Nat}

/-- The first `lo` bytes of the output are in a block of `hi`. -/
structure PipedInto (l : Bytes) (lo hi : Nat) (j : JstrTy) : Prop where
  block : ∃ b, j.data = some b ∧ b.size = hi ∧ b.At b.addr (l.take lo)
  size : j.size = lo
  capacity : j.capacity = hi
  le : lo ≤ l.length
  lt : lo < hi

/-- One turn: the rest of the output fits in, or the block is full and doubled. -/
theorem readsystemLoop_step (h : PipedInto l lo hi j) (hal : Bounded al)
    (hhi : hi < 9223372036854775808) (breaks : Bool) (fuel : Nat) :
    let r := readsystemLoop al (fuel + 1) j ⟨l.drop lo, breaks⟩
    (l.length < hi ∧ ∃ j' b, Holds j' b l ∧ r = .ok (if breaks then .err else .succ, j')) ∨
      hi ≤ l.length ∧ (FailsFor (Stuck al l hi) r ∨ ∃ j', PipedInto l hi (2 * hi) j' ∧
        2 * hi < 9223372036854775808 ∧ r = readsystemLoop al fuel j' ⟨l.drop hi, breaks⟩) := by
  intro r
  obtain ⟨⟨b, hd, hb, hat⟩, hsz, hcap, hle, hlt⟩ := h
  obtain ⟨hgot, b', hwrite, -, hsize, hat'⟩ :=
    readInto_eq hat hle hlt (Nat.le_of_eq hb.symm) (hi - lo)
  rw [Nat.min_self] at hgot hwrite
  have hreq : subSz hi lo = hi - lo := subSz_eq (Nat.le_of_lt hlt)
  set got := (l.drop lo).take (hi - lo) with hgotEq
  have hmin : lo + got.length = min hi l.length := by omega
  have hnew : addSz lo got.length = min hi l.length := by
    rw [addSz_eq (by rw [sizeMax]; omega), hmin]
  have hrest : (l.drop lo).drop (hi - lo) = l.drop hi := by
    rw [List.drop_drop]
    congr 1
    omega
  have hr : r = if got.length < hi - lo then
        if !breaks then .ok (.succ, { j with data := some b', size := min hi l.length })
        else .ok (.err, { j with data := some b', size := min hi l.length })
      else if min hi l.length = hi then
        orErr (reserveexactalways al { j with data := some b', size := min hi l.length }
          (mulSz hi growth)) fun j => readsystemLoop al fuel j ⟨l.drop hi, breaks⟩
      else readsystemLoop al fuel { j with data := some b', size := min hi l.length }
        ⟨l.drop hi, breaks⟩ := by
    have hmax : ¬got.length = sizeMax := by rw [sizeMax]; omega
    simp only [r, readsystemLoop, Pipe.fread, hsz, hcap, hreq, ← hgotEq, if_neg hmax, JstrTy.deref,
      hd, bind, Except.bind, hwrite, hnew, hrest]
  rw [show min (lo + (hi - lo)) (min hi l.length) = min hi l.length by omega] at hat'
  rcases Nat.lt_or_ge l.length hi with hn | hn
  · rw [Nat.min_eq_right (Nat.le_of_lt hn)] at hr hat'
    rw [if_pos (by omega)] at hr
    rw [List.take_length] at hat'
    refine .inl ⟨hn, { j with data := some b', size := l.length }, b',
      ⟨rfl, by rw [hsize, hb, ← hcap], rfl, by omega, hat'⟩, ?_⟩
    rw [hr]
    cases breaks <;> rfl
  · rw [Nat.min_eq_left hn] at hr hat'
    rw [if_neg (by omega), if_pos rfl] at hr
    refine .inr ⟨hn, ?_⟩
    have hdouble : mulSz hi growth = 2 * hi := by
      rw [mulSz_eq (by simp only [sizeMax, growth]; omega), growth, Nat.mul_comm]
    rw [hdouble, reserveexactalways_eq (by omega)] at hr
    rcases ha : al.realloc (some b') (2 * hi) with _ | tmp
    · rw [ha] at hr
      exact .inl ⟨⟨hn, b', hsize.trans hb, hat', ha⟩, _, hr⟩
    · rw [ha] at hr
      refine .inr ⟨{ j with data := some tmp, size := hi, capacity := 2 * hi },
        ⟨⟨tmp, rfl, al.size_eq ha, ?_⟩, rfl, rfl, hn, by omega⟩, hal.lt ha, hr⟩
      refine @Alloc.keeps_at al b' tmp _ ha 0 _ hat' ?_
      rw [List.length_take_of_le hn]
      omega

/-- The loop reads all there is, and fails only when a block that is full is not doubled or when
the output broke off. -/
theorem readsystemLoop_spec (hal : Bounded al) (breaks : Bool) : ∀ (fuel : Nat) {lo hi : Nat}
    {j : JstrTy}, PipedInto l lo hi j → hi < 9223372036854775808 →
    9223372036854775808 ≤ lo + fuel →
    FailsFor (∃ k, Stuck al l (hi * 2 ^ k)) (readsystemLoop al fuel j ⟨l.drop lo, breaks⟩) ∨
      ∃ j' b, Holds j' b l ∧ readsystemLoop al fuel j ⟨l.drop lo, breaks⟩
        = .ok (if breaks then .err else .succ, j')
  | 0, lo, hi, j, h, hhi, hfuel => by
      have hlt := h.lt
      omega
  | fuel + 1, lo, hi, j, h, hhi, hfuel => by
      have hlt := h.lt
      rcases readsystemLoop_step h hal hhi breaks fuel with
        ⟨-, j', b, hh, hr⟩ | ⟨-, href | ⟨j', h', hhi', hr⟩⟩
      · exact .inr ⟨j', b, hh, hr⟩
      · exact .inl (href.mono fun hstuck => ⟨0, by rwa [Nat.pow_zero, Nat.mul_one]⟩)
      · rw [hr]
        have hrest := readsystemLoop_spec hal breaks fuel h' hhi' (by omega)
        refine hrest.imp_left fun hfail => hfail.mono ?_
        rintro ⟨k, hstuck⟩
        refine ⟨k + 1, ?_⟩
        rwa [Nat.pow_succ', ← Nat.mul_assoc, Nat.mul_comm hi 2]

/-! ## The whole call -/

/-- The output broke off where it is noticed: behind the first page. -/
def Pipe.Noticed (f : Pipe) : Prop := f.breaks = true ∧ pageSize ≤ f.rest.length

instance (f : Pipe) : Decidable f.Noticed := inferInstanceAs (Decidable (_ ∧ _))

/-- The terminator, and `pclose`. -/
theorem closeSystem_eq {b : Blk} (hh : Holds j b l) (closes : Bool) :
    ∃ j', (do
      let b ← j.deref
      let b ← b.write (b.addr + j.size) [0]
      let j := { j with data := some b }
      if !closes then .ok (.err, j) else .ok (.succ, j) : Run (RetTy × JstrTy))
        = .ok (if closes then .succ else .err, j') ∧ Str j' l := by
  obtain ⟨b', hwrite, hstr⟩ := closeText_eq hh
  refine ⟨{ j with data := some b' }, ?_, hstr⟩
  simp only [JstrTy.deref, hh.data, bind, Except.bind, hwrite]
  cases closes <;> rfl

/-- A block that a command has filled was filled page by page before. -/
theorem starved_of_stuck {k : Nat} (h : Stuck al l (capAfter j.capacity (2 * pageSize) * 2 ^ k)) :
    Starved pageSize (fun _ => l.length) l al j := by
  refine .double (k + 2) (Nat.le_add_left 2 k) (fun x _ hx => ?_) h
  have hmono := (@mark_strictMono pageSize j.capacity (by decide) (by decide)).monotone
    (show x + 1 ≤ k + 2 by omega)
  have hle : mark pageSize j.capacity (k + 2) ≤ l.length := h.1
  omega

/-- Less than a page is copied out of the buffer it was read into. -/
theorem readsystem_short {f : Pipe} (hb : Backed j) (hne : f.rest ≠ [])
    (hlt : f.rest.length < pageSize) (closes : Bool) :
    FailsFor (Denied al j (f.rest.length + 1)) (readsystem al true closes j f) ∨
      ∃ j', readsystem al true closes j f = .ok (if closes then .succ else .err, j') ∧
        Str j' f.rest := by
  have hread : ¬f.rest.length = 0 := fun h => hne (List.eq_nil_of_length_eq_zero h)
  have hshort : ¬f.rest.length = pageSize := Nat.ne_of_lt hlt
  have hall : f.rest.take pageSize = f.rest := List.take_of_length_le (Nat.le_of_lt hlt)
  have hpage : f.rest.length < 4096 := hlt
  have hadd : addSz f.rest.length 1 = f.rest.length + 1 := addSz_eq (by rw [sizeMax]; omega)
  unfold readsystem
  simp only [Bool.not_true, Bool.false_eq_true, if_false, Pipe.fread, hall, hread, hshort, hadd]
  rcases @reserve_decided al j (f.rest.length + 1) hb (Nat.succ_pos _) (by omega) with
    ⟨hr, hden, -⟩ | ⟨j₁, hr, hg, -, -⟩
  · rw [hr]
    exact .inl ⟨hden, j, rfl⟩
  · obtain ⟨b, b', hd, hwrite, hh⟩ := copyFirst_eq (m := f.rest) hg (Nat.lt_succ_self _)
    obtain ⟨j'', hclose, hstr⟩ := closeSystem_eq hh closes
    refine .inr ⟨j'', ?_, hstr⟩
    simp only [hr, orErr, JstrTy.deref, hd, bind, Except.bind, hwrite]
    exact hclose

/-- A page and more goes through the loop; an error there leaves what was read. -/
theorem readsystem_page {f : Pipe} (hal : Bounded al) (hb : Backed j)
    (hcap : j.capacity < 9223372036854775808) (hle : pageSize ≤ f.rest.length) (closes : Bool) :
    FailsFor (Starved pageSize (fun _ => f.rest.length) f.rest al j)
        (readsystem al true closes j f) ∨
      (f.breaks = true ∧ ∃ j', readsystem al true closes j f = .ok (.err, j') ∧
        Content j' f.rest) ∨
      f.breaks = false ∧ ∃ j', readsystem al true closes j f
        = .ok (if closes then .succ else .err, j') ∧ Str j' f.rest := by
  have hfull : (f.rest.take pageSize).length = pageSize := List.length_take_of_le hle
  have hread : ¬pageSize = 0 := by decide
  have hdouble : mulSz pageSize growth = 2 * pageSize := rfl
  unfold readsystem
  simp only [Bool.not_true, Bool.false_eq_true, if_false, Pipe.fread, hfull, hread, if_true,
    hdouble]
  rcases @reserve_decided al j (2 * pageSize) hb (by decide) (by decide) with
    ⟨hr, hden, -⟩ | ⟨j₁, hr, hg, hcap₁, -⟩
  · rw [hr]
    exact .inl ⟨.buffer (by omega) hden, j, rfl⟩
  obtain ⟨b, b', hd, hwrite, hh⟩ := copyFirst_eq (m := f.rest.take pageSize) hg
    (by rw [hfull]; decide)
  rw [hfull] at hh
  have hlt : j₁.capacity < 9223372036854775808 := by
    rw [hcap₁]
    exact capAfter_lt hcap (by decide)
  have hroom := hh.lt
  rw [hfull, hh.backed] at hroom
  have hinto : PipedInto f.rest pageSize j₁.capacity
      { j₁ with data := some b', size := pageSize } :=
    ⟨⟨b', rfl, hh.backed, hh.content⟩, rfl, rfl, hle, hroom⟩
  have hloop := readsystemLoop_spec hal f.breaks (sizeMax + 1) hinto hlt (by rw [sizeMax]; omega)
  simp only [hr, orErr, JstrTy.deref, hd, bind, Except.bind, hwrite]
  rcases hloop with ⟨⟨k, hstuck⟩, j', hrun⟩ | ⟨j', b'', hh', hrun⟩
  · rw [hrun]
    rw [hcap₁] at hstuck
    exact .inl ⟨starved_of_stuck hstuck, j', rfl⟩
  rw [hrun]
  cases hbreak : f.breaks with
  | true => exact .inr (.inl ⟨rfl, j', rfl, .inr ⟨b'', hh'⟩⟩)
  | false =>
      obtain ⟨j'', hclose, hstr⟩ := closeSystem_eq hh' closes
      exact .inr (.inr ⟨rfl, j'', hclose, hstr⟩)

/-- What a command says is read to the last byte, however long it is, and the
call fails only for a reason: the command does not start or says nothing, a
request the call makes is refused, the output breaks off behind the first page, or `pclose`
fails, which leaves all of the output in the record. -/
theorem readsystem_reads {f : Pipe} (hal : Bounded al) (hb : Backed j)
    (hcap : j.capacity < 9223372036854775808) (opens closes : Bool) :
    (¬opens ∨ f.rest = [] → readsystem al opens closes j f = .ok (.err, j)) ∧
      (opens → f.rest ≠ [] →
        FailsFor (Starved pageSize (fun _ => f.rest.length) f.rest al j)
          (readsystem al opens closes j f) ∨
        ∃ j', readsystem al opens closes j f
            = .ok (if closes ∧ ¬f.Noticed then .succ else .err, j') ∧
          Content j' f.rest ∧ (¬f.Noticed → Str j' f.rest)) := by
  constructor
  · rintro (hopen | hnil)
    · rw [readsystem, Bool.eq_false_of_not_eq_true hopen]
      rfl
    · rw [readsystem, Pipe.fread, hnil]
      cases opens <;> rfl
  · rintro rfl hne
    by_cases hpage : pageSize ≤ f.rest.length
    · rcases @readsystem_page al j f hal hb hcap hpage closes with
        hfail | ⟨hbreak, j', hr, hcont⟩ | ⟨hbreak, j', hr, hstr⟩
      · exact .inl hfail
      · have hnote : f.Noticed := ⟨hbreak, hpage⟩
        refine .inr ⟨j', ?_, hcont, absurd hnote⟩
        rw [hr, if_neg fun h => h.2 hnote]
      · have hnote : ¬f.Noticed := fun h => by
          rw [Pipe.Noticed, hbreak] at h
          exact absurd h.1 Bool.false_ne_true
        refine .inr ⟨j', ?_, hstr.content, fun _ => hstr⟩
        rw [hr]
        simp only [hnote, not_false_eq_true, and_true]
    · have hnote : ¬f.Noticed := fun h => hpage h.2
      rcases @readsystem_short al j f hb hne (Nat.lt_of_not_le hpage) closes with
        hfail | ⟨j', hr, hstr⟩
      · refine .inl (hfail.mono fun hden => .short ?_ ?_)
        · rw [Nat.min_self]
          exact Nat.lt_of_not_le hpage
        · rwa [Nat.min_self]
      · refine .inr ⟨j', ?_, hstr.content, fun _ => hstr⟩
        rw [hr]
        simp only [hnote, not_false_eq_true, and_true]

theorem readsystem_reads_ab :
    (¬true ∨ ([97, 98] : Bytes) = [] →
        readsystem (Alloc.filling 4096 0).limited true true JstrTy.init ⟨[97, 98], false⟩
          = .ok (.err, JstrTy.init)) ∧
      (true → ([97, 98] : Bytes) ≠ [] →
        FailsFor (Starved pageSize (fun _ => 2) [97, 98] (Alloc.filling 4096 0).limited JstrTy.init)
            (readsystem (Alloc.filling 4096 0).limited true true JstrTy.init ⟨[97, 98], false⟩) ∨
          ∃ j', readsystem (Alloc.filling 4096 0).limited true true JstrTy.init ⟨[97, 98], false⟩
              = .ok (if true ∧ ¬(⟨[97, 98], false⟩ : Pipe).Noticed then .succ else .err, j') ∧
            Content j' [97, 98] ∧ (¬(⟨[97, 98], false⟩ : Pipe).Noticed → Str j' [97, 98])) := by
  have hb : Backed JstrTy.init := rfl
  exact @readsystem_reads (Alloc.filling 4096 0).limited JstrTy.init ⟨[97, 98], false⟩
    (bounded_limited _) hb (by decide) true true

end Jstr
