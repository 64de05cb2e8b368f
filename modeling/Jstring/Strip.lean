import Jstring.Replace
import Jstring.Chrnul
import Jstring.Spans

/-!
# Deleting bytes in place

`jstr_rmallspn_from`, `jstr_stripspn_from` and `jstr_rmnchr_from` of
`include/replace.h`, beside `jstr_rmnchr_len_from` of `Replace`. The first two delete
every byte of a set, run by run or byte by byte; they are one loop
(`deleteLoop`) over two ways of looking for the next part to delete. The
third is the loop of the fourth over `strchrnul`.

`deleted_eq`: all of them filter the text from the index on, and return
how many bytes that took out.
-/

namespace Jstr

open Words

/-! ## The loops -/

/-- `for (; ...; ) { memmove(...); start: ... }` entered at the label: step over
the part to delete, look for the next one, copy down the text before it.
`next` gives where its search stops and, unless that is the terminator, how
many bytes to delete there. -/
def deleteLoop (next : Blk → Nat → Run (Nat × Option Nat)) :
    Nat → Blk → Inplace → Nat → Nat → Nat → Run (Blk × Inplace × Nat)
  | 0, _, _, _, _, _ => .error .diverge
  | fuel + 1, b, i, prevLen, findLen, changed => do
    let i : Inplace := ⟨i.dst + prevLen, i.src + (prevLen + findLen), i.srcE + findLen⟩
    let changed := changed + findLen
    match ← next b i.srcE with
    | (srcE, none) => .ok (b, { i with srcE := srcE }, changed)
    | (srcE, some findLen) => do
      let prevLen := srcE - i.src
      let b ← b.memmove i.dst i.src prevLen
      deleteLoop next fuel b { i with srcE := srcE } prevLen findLen changed

/-- `*p && *(p += strcspn(p, reject))`, then `strspn(p, reject)`. -/
def nextRmallspn (env : Mem) (reject : Bytes) (b : Blk) (p : Nat) : Run (Nat × Option Nat) := do
  let h ← b.read p
  if h = 0 then .ok (p, none)
  else do
    let k ← strcspn (b.over env) p reject
    let h ← b.read (p + k)
    if h = 0 then .ok (p + k, none)
    else do
      let findLen ← strspn (b.over env) (p + k) reject
      .ok (p + k, some findLen)

/-- `*(p += strcspn(p, reject))`. -/
def nextStripspn (env : Mem) (reject : Bytes) (b : Blk) (p : Nat) : Run (Nat × Option Nat) := do
  let k ← strcspn (b.over env) p reject
  let h ← b.read (p + k)
  if h = 0 then .ok (p + k, none) else .ok (p + k, some 1)

/-- `*(p = jstr_strchrnul(p, c))`. -/
def nextStrchrnul (cfg : ChrnulBuild) (env : Mem) (c : UInt8) (b : Blk) (p : Nat) :
    Run (Option Nat) := do
  let q ← strchrnul cfg (b.over env) p c
  let h ← b.read q
  return if h = 0 then none else some q

/-- `jstr_rmallspn_from`. -/
def rmallspnFrom (env : Mem) (j : JstrTy) (startIdx : Nat) (reject : Bytes) :
    Run (Nat × JstrTy) :=
  if startIdx ≥ j.size then .ok (0, j)
  else do
    let b ← j.deref
    let s := b.addr + startIdx
    match ← nextRmallspn env reject b s with
    | (_, none) => .ok (0, j)
    | (srcE, some findLen) => do
      let (b, i, changed) ← deleteLoop (nextRmallspn env reject) (sizeMax + 1) b ⟨s, s, srcE⟩
        (srcE - s) findLen 0
      let (b', p) ← stpmoveLen b i.dst i.src (i.srcE - i.src)
      .ok (changed, { j with data := some b', size := p - b.addr })

/-- `jstr_stripspn_from`. The index is not checked. -/
def stripspnFrom (env : Mem) (j : JstrTy) (startIdx : Nat) (reject : Bytes) :
    Run (Nat × JstrTy) := do
  let b ← j.deref
  let s := b.addr + startIdx
  let h ← b.read s
  if h = 0 then .ok (0, j)
  else
    match ← nextStripspn env reject b s with
    | (_, none) => .ok (0, j)
    | (srcE, some findLen) => do
      let (b, i, changed) ← deleteLoop (nextStripspn env reject) (sizeMax + 1) b ⟨s, s, srcE⟩
        (srcE - s) findLen 0
      if changed ≠ 0 then
        let (b', p) ← stpmoveLen b i.dst i.src (b.addr + j.size - i.src)
        .ok (changed, { j with data := some b', size := p - b.addr })
      else .ok (changed, { j with data := some b })

/-- `jstr_rmnchr_from`. -/
def rmnchrFrom (cfg : ChrnulBuild) (env : Mem) (j : JstrTy) (startIdx : Nat) (c : UInt8)
    (n : Nat) : Run (Nat × JstrTy) :=
  if startIdx ≥ j.size then .ok (0, j)
  else if n = 0 then .ok (0, j)
  else do
    let b ← j.deref
    let h ← b.read (b.addr + startIdx)
    if h = 0 then .ok (0, j)
    else inplaceFrom (nextStrchrnul cfg env c) 1 [] n j b (b.addr + startIdx) (b.addr + j.size)

/-! ## Looking for the next part -/

theorem takeWhile_congr {f g : UInt8 → Bool} : ∀ {l : Bytes}, (∀ x ∈ l, f x = g x) →
    l.takeWhile f = l.takeWhile g
  | [], _ => rfl
  | b :: l, h => by
      rw [List.takeWhile_cons, List.takeWhile_cons, h b List.mem_cons_self,
        takeWhile_congr fun x hx => h x (List.mem_cons_of_mem b hx)]

section Next

variable {mem : Mem} {env : Mem} {b : Blk} {p e : Nat} {l reject : Bytes}

/-- A scan that stops at the terminator at the latest stops behind the
longest prefix without a stop. -/
theorem CStr.scan_takeWhile (h : CStr mem p l) {stop : UInt8 → Bool} (h0 : stop 0 = true) :
    scan stop mem (sizeMax + 1) p = .ok (p + (l.takeWhile fun x => !stop x).length) := by
  have hfits := h.fits
  have hle := (List.takeWhile_prefix (l := l) fun x => !stop x).length_le
  obtain ⟨hin, hend⟩ := takeWhile_stop (fun x => !stop x) l
  refine scan_eq ?_ (fun i hi => ?_) (by omega)
  · rcases Nat.lt_or_eq_of_le hle with hlt | heq
    · have := hend _ (h.bytes.getElem? hlt)
      simpa using this
    · rw [heq, h.nul, h0]
  · have := hin i _ hi (h.bytes.getElem? (by omega))
    simpa using this

/-- In a text without a NUL the terminator need not be looked for. -/
theorem CStr.scan_orNul (h : CStr mem p l) (stop : UInt8 → Bool) :
    scan (fun x => stop x || x == 0) mem (sizeMax + 1) p
      = .ok (p + (l.takeWhile fun x => !stop x).length) := by
  have hword : (l.takeWhile fun x => !(stop x || x == 0)) = l.takeWhile fun x => !stop x := by
    refine takeWhile_congr fun x hx => ?_
    have hx0 : x ≠ 0 := fun h0 => h.nonzero (h0 ▸ hx)
    simp [hx0]
  rw [h.scan_takeWhile (by simp), hword]

theorem CStr.strcspn_eq (h : CStr mem p l) (reject : Bytes) :
    strcspn mem p reject = .ok (cspn reject l) := by
  rw [strcspn, h.scan_orNul]
  simp only [bind, Except.bind, pure, Except.pure, Nat.add_sub_cancel_left, cspn, decide_not]

theorem CStr.strspn_eq (h : CStr mem p l) (reject : Bytes) :
    strspn mem p reject = .ok (spn reject l) := by
  rw [strspn, h.scan_orNul]
  simp only [bind, Except.bind, pure, Except.pure, Nat.add_sub_cancel_left, spn, decide_not,
    Bool.not_not]

/-- Over every state of the block, `next` skips the bytes to keep and says
how many to delete, as `width` of what follows. -/
def Skims (reject : Bytes) (width : Bytes → Nat) (b : Blk) (e : Nat)
    (next : Blk → Nat → Run (Nat × Option Nat)) : Prop :=
  ∀ b', SameBlock b b' → ∀ p l, 0 ∉ l → b'.At p (l ++ [0]) → p + l.length = e →
    next b' p = .ok (p + cspn reject l,
      if cspn reject l = l.length then none else some (width (l.drop (cspn reject l))))

theorem skims_stripspn (hfit : e ≤ sizeMax) :
    Skims reject (fun _ => 1) b e (nextStripspn env reject) := by
  intro b' _ p l h0 hat he
  have hstr := @cstr_over env b' p l hat h0 (by omega)
  obtain ⟨h, hread, hh⟩ := Blk.read_text hat h0 (cspn_le reject l)
  simp only [nextStripspn, hstr.strcspn_eq, bind, Except.bind, hread, hh]
  split <;> rfl

theorem skims_rmallspn (hfit : e ≤ sizeMax) :
    Skims reject (spn reject) b e (nextRmallspn env reject) := by
  intro b' _ p l h0 hat he
  have hstr := @cstr_over env b' p l hat h0 (by omega)
  obtain ⟨h, hread, hh⟩ := Blk.read_text hat h0 (cspn_le reject l)
  obtain ⟨h', hread', hh'⟩ := Blk.read_text hat h0 (Nat.zero_le _)
  rw [Nat.add_zero] at hread'
  simp only [nextRmallspn, hread', bind, Except.bind, hh']
  by_cases hnil : 0 = l.length
  · have hl := List.eq_nil_of_length_eq_zero hnil.symm
    subst hl
    rfl
  · have hdrop := hstr.drop (cspn_le reject l)
    simp only [if_neg hnil, hstr.strcspn_eq, hread, hh, hdrop.strspn_eq]
    split <;> rfl

/-- What `next` says to delete is there and belongs to the set. -/
def Deletes (reject : Bytes) (width : Bytes → Nat) : Prop :=
  ∀ x r, x ∈ reject → 0 < width (x :: r) ∧ width (x :: r) ≤ (x :: r).length ∧
    ∀ y ∈ (x :: r).take (width (x :: r)), y ∈ reject

theorem deletes_one (reject : Bytes) : Deletes reject fun _ => 1 := by
  intro x r hx
  exact ⟨Nat.one_pos, by simp, by simpa using hx⟩

theorem deletes_spn (reject : Bytes) : Deletes reject (spn reject) := by
  intro x r hx
  refine ⟨by simp [spn, hx], spn_le reject _, fun y hy => ?_⟩
  rw [spn, ← List.prefix_iff_eq_take.mp (List.takeWhile_prefix _)] at hy
  have hall := @List.all_takeWhile _ (· ∈ reject) (x :: r)
  exact of_decide_eq_true (List.all_eq_true.mp hall y hy)

end Next

/-! ## The loop -/

section Loop

variable {reject : Bytes} {width : Bytes → Nat} {next : Blk → Nat → Run (Nat × Option Nat)}
  {e : Nat}

/-- The text without the bytes of the set. -/
def kept (reject l : Bytes) : Bytes := l.filter (· ∉ reject)

/-- How many bytes of the set are in the text. -/
def dropped (reject l : Bytes) : Nat := l.countP (· ∈ reject)

@[simp] theorem kept_append (reject l m : Bytes) :
    kept reject (l ++ m) = kept reject l ++ kept reject m := List.filter_append ..

@[simp] theorem dropped_append (reject l m : Bytes) :
    dropped reject (l ++ m) = dropped reject l + dropped reject m := List.countP_append

theorem kept_of_forall_not {l : Bytes} (h : ∀ x ∈ l, x ∉ reject) :
    kept reject l = l ∧ dropped reject l = 0 :=
  ⟨List.filter_eq_self.mpr (by simpa using h), List.countP_eq_zero.mpr (by simpa using h)⟩

theorem kept_of_forall {l : Bytes} (h : ∀ x ∈ l, x ∈ reject) :
    kept reject l = [] ∧ dropped reject l = l.length :=
  ⟨List.filter_eq_nil_iff.mpr (by simpa using h), List.countP_eq_length.mpr (by simpa using h)⟩

/-- The bytes in front of the first one of the set. -/
theorem not_mem_of_mem_take_cspn {l : Bytes} : ∀ x ∈ l.take (cspn reject l), x ∉ reject := by
  intro x hx
  rw [cspn, ← List.prefix_iff_eq_take.mp (List.takeWhile_prefix _)] at hx
  have hall := @List.all_takeWhile _ (· ∉ reject) l
  exact of_decide_eq_true (List.all_eq_true.mp hall x hx)

/-- A text with a byte of the set: what is kept, what is deleted, the rest. -/
theorem skim_split (hw : Deletes reject width) {l : Bytes} (hlt : cspn reject l < l.length) :
    ∃ keep del rest, l = keep ++ (del ++ rest) ∧ keep.length = cspn reject l ∧
      del.length = width (l.drop (cspn reject l)) ∧ 0 < del.length ∧
      kept reject l = keep ++ kept reject rest ∧
      dropped reject l = del.length + dropped reject rest := by
  have hmem : l[cspn reject l] ∈ reject := by
    have := (takeWhile_stop (· ∉ reject) l).2 _ (List.getElem?_eq_getElem hlt)
    simpa using this
  obtain ⟨hpos, hle, hin⟩ := hw _ (l.drop (cspn reject l + 1)) hmem
  rw [← List.drop_eq_getElem_cons hlt] at hpos hle hin
  have hsplit : l = l.take (cspn reject l) ++ ((l.drop (cspn reject l)).take
      (width (l.drop (cspn reject l))) ++ (l.drop (cspn reject l)).drop
      (width (l.drop (cspn reject l)))) := by
    rw [List.take_append_drop, List.take_append_drop]
  have hdel : ((l.drop (cspn reject l)).take (width (l.drop (cspn reject l)))).length
      = width (l.drop (cspn reject l)) := by
    rw [List.length_take, Nat.min_eq_left hle]
  have hkeep := kept_of_forall_not (@not_mem_of_mem_take_cspn reject l)
  have hgone := kept_of_forall hin
  refine ⟨_, _, _, hsplit, by rw [List.length_take, Nat.min_eq_left (Nat.le_of_lt hlt)], hdel,
    by rw [hdel]; exact hpos, ?_, ?_⟩
  · conv_lhs => rw [hsplit]
    rw [kept_append, kept_append, hkeep.1, hgone.1, List.nil_append]
  · conv_lhs => rw [hsplit]
    rw [dropped_append, dropped_append, hkeep.2, hgone.2, Nat.zero_add]

/-- Stepping over the part to delete widens the gap. -/
theorem Cursor.pass {b : Blk} {out find rem : Bytes} {dst src slack : Nat}
    (h : Cursor b out (find ++ rem) dst src slack) :
    Cursor b out rem dst (src + find.length) (slack + find.length) := by
  have hgap := h.gap
  exact ⟨h.written, h.front, h.unread.right, by omega⟩

/-- From the label on, `del` stands at the cursor. In the end the rest is
filtered: part of it written, part still to be copied. -/
theorem deleteLoop_spec (hw : Deletes reject width) : ∀ (fuel : Nat) {b : Blk}
    {out del rem : Bytes} {i : Inplace} {prevLen slack changed : Nat},
    Skims reject width b e next → 0 ∉ rem →
    Cursor b out (del ++ (rem ++ [0])) (i.dst + prevLen) (i.src + prevLen) slack →
    i.srcE = i.src + prevLen → i.srcE + del.length + rem.length = e → rem.length < fuel →
    ∃ b' i' out' rem' slack',
      deleteLoop next fuel b i prevLen del.length changed
        = .ok (b', i', changed + del.length + dropped reject rem) ∧
      SameBlock b b' ∧ Cursor b' out' (rem' ++ [0]) i'.dst i'.src slack' ∧ i'.srcE = e ∧
      i'.src + rem'.length = e ∧ out' ++ rem' = out ++ kept reject rem := by
  intro fuel
  induction fuel with
  | zero => exact fun _ _ _ _ _ hf => absurd hf (Nat.not_lt_zero _)
  | succ fuel ih =>
      intro b out del rem i prevLen slack changed hnext h0 hcur hsrcE he hf
      have hpass := hcur.pass
      have hsrc : i.src + prevLen + del.length = i.srcE + del.length := by omega
      have hfind := hnext b (SameBlock.refl b) (i.srcE + del.length) rem h0
        (by rw [← hsrc]; exact hpass.unread) he
      rw [deleteLoop]
      simp only [hfind, bind, Except.bind]
      by_cases hend : cspn reject rem = rem.length
      · have hall := kept_of_forall_not (@not_mem_of_mem_take_cspn reject rem)
        rw [hend, List.take_length] at hall
        rw [if_pos hend]
        refine ⟨b, ⟨i.dst + prevLen, i.src + (prevLen + del.length),
          i.srcE + del.length + cspn reject rem⟩, out, rem, slack + del.length, ?_,
          SameBlock.refl b, ?_, ?_, ?_, ?_⟩
        · rw [hall.2, Nat.add_zero]
        · simpa only [Nat.add_assoc] using hpass
        · simp only
          omega
        · simp only
          omega
        · rw [hall.1]
      · have hlt := Nat.lt_of_le_of_ne (cspn_le reject rem) hend
        obtain ⟨keep, del', rest, hsplit, hklen, hdlen, hpos, hkept, hdropped⟩ := skim_split hw hlt
        have hlen : rem.length = keep.length + (del'.length + rest.length) := by
          rw [hsplit, List.length_append, List.length_append]
        have hprev : i.srcE + del.length + cspn reject rem - (i.src + (prevLen + del.length))
            = keep.length := by omega
        have hpass' : Cursor b out (keep ++ (del' ++ (rest ++ [0]))) (i.dst + prevLen)
            (i.src + (prevLen + del.length)) (slack + del.length) := by
          rw [hsplit] at hpass
          simpa only [List.append_assoc, Nat.add_assoc] using hpass
        obtain ⟨b₁, hmove, hb₁, hcur₁⟩ := hpass'.move
        rw [if_neg hend]
        simp only [hprev, hmove, ← hdlen]
        obtain ⟨b', i', out', rem', slack', hrun, hb', hcur', hstop, hrest, hout⟩ :=
          @ih b₁ (out ++ keep) del' rest ⟨i.dst + prevLen, i.src + (prevLen + del.length),
              i.srcE + del.length + cspn reject rem⟩ keep.length _ (changed + del.length)
            (fun b'' hb'' => hnext b'' (hb₁.trans hb'')) (fun hz => h0 (by rw [hsplit]; simp [hz]))
            hcur₁ (by simp only; omega) (by simp only; omega) (by omega)
        refine ⟨b', i', out', rem', slack', ?_, hb₁.trans hb', hcur', hstop, hrest, ?_⟩
        · rw [hrun, hdropped]
          congr 3
          omega
        · rw [hout, hkept, List.append_assoc]

end Loop

/-! ## The functions -/

section Functions

variable {reject : Bytes} {width : Bytes → Nat} {next : Blk → Nat → Run (Nat × Option Nat)}
  {env : Mem} {j : JstrTy} {s : Bytes} {start : Nat}

/-- The string lies inside the address space. -/
def Addressed (j : JstrTy) : Prop := ∀ b, j.data = some b → b.addr + j.size ≤ sizeMax

/-- The first search, from the index on, and what it says of the text. -/
theorem first_search {b : Blk} (hs : Str j s) (hd : j.data = some b) (h0 : 0 ∉ s)
    (hstart : start ≤ s.length) (hnext : Skims reject width b (b.addr + s.length) next) :
    next b (b.addr + start) = .ok (b.addr + start + cspn reject (s.drop start),
      if cspn reject (s.drop start) = (s.drop start).length then none
      else some (width ((s.drop start).drop (cspn reject (s.drop start))))) ∧
      b.At (b.addr + start) (s.drop start ++ [0]) := by
  obtain ⟨b', hd', -, -, hat⟩ := hs
  rw [hd] at hd'
  cases hd'
  have hdrop := hat.drop (show start ≤ (s ++ [0]).length by rw [List.length_append]; omega)
  rw [List.drop_append_of_le_length hstart] at hdrop
  have hlen : (s.drop start).length = s.length - start := List.length_drop
  refine ⟨hnext b (SameBlock.refl b) _ _ ?_ hdrop (by omega), hdrop⟩
  exact fun hz => h0 (List.mem_of_mem_drop hz)

/-- No byte of the set from the index on: nothing is deleted. -/
theorem nothing_dropped (hend : cspn reject (s.drop start) = (s.drop start).length) :
    s.take start ++ kept reject (s.drop start) = s ∧ dropped reject (s.drop start) = 0 := by
  have hall := kept_of_forall_not (@not_mem_of_mem_take_cspn reject (s.drop start))
  rw [hend, List.take_length] at hall
  rw [hall.1, List.take_append_drop]
  exact ⟨rfl, hall.2⟩

/-- From the first byte of the set on: the loop ends, and copying down what
is left ends the filtered string. -/
theorem deleteLoop_from (hw : Deletes reject width) {b : Blk} (hs : Str j s)
    (hd : j.data = some b) (h0 : 0 ∉ s) (hstart : start ≤ s.length)
    (hfit : s.length ≤ sizeMax) (hnext : Skims reject width b (b.addr + s.length) next)
    (hlt : cspn reject (s.drop start) < (s.drop start).length) :
    ∃ b' i b'', deleteLoop next (sizeMax + 1) b
        ⟨b.addr + start, b.addr + start, b.addr + start + cspn reject (s.drop start)⟩
        (cspn reject (s.drop start))
        (width ((s.drop start).drop (cspn reject (s.drop start)))) 0
        = .ok (b', i, dropped reject (s.drop start)) ∧
      0 < dropped reject (s.drop start) ∧ b'.addr = b.addr ∧ i.srcE = b.addr + s.length ∧
      stpmoveLen b' i.dst i.src (b.addr + s.length - i.src)
        = .ok (b'', b.addr + (s.take start ++ kept reject (s.drop start)).length) ∧
      Str { j with data := some b'', size := (s.take start ++ kept reject (s.drop start)).length }
        (s.take start ++ kept reject (s.drop start)) := by
  obtain ⟨b', hd', hcap, hsz, hat⟩ := hs
  rw [hd] at hd'
  cases hd'
  obtain ⟨keep, del, rest, hsplit, hklen, hdlen, hpos, hkept, hdropped⟩ := skim_split hw hlt
  have hlen : (s.drop start).length = keep.length + (del.length + rest.length) := by
    rw [hsplit, List.length_append, List.length_append]
  have hslen : (s.drop start).length = s.length - start := List.length_drop
  have hhead : (s.take start ++ keep).length = start + cspn reject (s.drop start) := by
    rw [List.length_append, List.length_take, Nat.min_eq_left hstart, hklen]
  have hsrc : b.At b.addr (s.take start ++ keep ++ (del ++ (rest ++ [0]))) := by
    rw [← List.take_append_drop start s, hsplit] at hat
    simpa only [List.append_assoc] using hat
  have hcur : Cursor b (s.take start ++ keep) (del ++ (rest ++ [0]))
      (b.addr + start + cspn reject (s.drop start))
      (b.addr + start + cspn reject (s.drop start)) 0 := by
    have hright := hsrc.right
    rw [hhead, ← Nat.add_assoc] at hright
    exact ⟨hsrc.left, by rw [hhead, Nat.add_assoc], hright, rfl⟩
  obtain ⟨b', i, out, rem, slack, hrun, hb, hcur', hend, hrem, hout⟩ :=
    @deleteLoop_spec reject width next (b.addr + s.length) hw (sizeMax + 1) b _ del rest
      ⟨b.addr + start, b.addr + start, b.addr + start + cspn reject (s.drop start)⟩
      (cspn reject (s.drop start)) 0 0 hnext
      (fun hz => h0 (List.mem_of_mem_drop (i := start) (by rw [hsplit]; simp [hz])))
      hcur rfl (by simp only; omega) (by omega)
  have htext : out ++ rem = s.take start ++ kept reject (s.drop start) := by
    rw [hout, hkept, List.append_assoc]
  obtain ⟨b'', hmove, hstr⟩ := hcur'.closed (hb.2.trans hcap)
  rw [htext] at hstr hmove
  rw [hb.1, show rem.length = b.addr + s.length - i.src by omega] at hmove
  rw [Nat.zero_add, ← hdropped, hdlen] at hrun
  exact ⟨b', i, b'', hrun, by omega, hb.1, hend, hmove, hstr⟩

theorem rmallspnFrom_spec (hs : Str j s) (h0 : 0 ∉ s) (haddr : Addressed j) (start : Nat)
    (reject : Bytes) :
    ∃ j', rmallspnFrom env j start reject = .ok (dropped reject (s.drop start), j') ∧
      Str j' (s.take start ++ kept reject (s.drop start)) := by
  have hsz := hs.content.size
  rw [rmallspnFrom]
  by_cases hge : start ≥ j.size
  · have hlen : s.length ≤ start := by omega
    rw [if_pos hge, List.drop_of_length_le hlen, List.take_of_length_le hlen]
    exact ⟨j, rfl, by rwa [show kept reject [] = [] from rfl, List.append_nil]⟩
  have hstart : start ≤ s.length := by omega
  obtain ⟨b, hh, -⟩ := hs.holds
  have hfit := haddr b hh.data
  rw [hsz] at hfit
  have hnext := @skims_rmallspn env b (b.addr + s.length) reject hfit
  obtain ⟨hfirst, -⟩ := first_search hs hh.data h0 hstart hnext
  rw [if_neg hge]
  simp only [JstrTy.deref, hh.data, bind, Except.bind, hfirst]
  by_cases hend : cspn reject (s.drop start) = (s.drop start).length
  · obtain ⟨hsame, hnone⟩ := nothing_dropped hend
    rw [if_pos hend, hsame, hnone]
    exact ⟨j, rfl, hs⟩
  · obtain ⟨b', i, b'', hrun, -, hb, hsrcE, hmove, hstr⟩ := deleteLoop_from (deletes_spn reject)
      hs hh.data h0 hstart (by omega) hnext (Nat.lt_of_le_of_ne (cspn_le _ _) hend)
    rw [if_neg hend]
    simp only [Nat.add_sub_cancel_left, hrun, hsrcE, hmove, hb]
    exact ⟨_, rfl, hstr⟩

theorem stripspnFrom_spec (hs : Str j s) (h0 : 0 ∉ s) (haddr : Addressed j) {start : Nat}
    (hstart : start < j.size) (reject : Bytes) :
    ∃ j', stripspnFrom env j start reject = .ok (dropped reject (s.drop start), j') ∧
      Str j' (s.take start ++ kept reject (s.drop start)) := by
  have hsz := hs.content.size
  have hle : start ≤ s.length := by omega
  obtain ⟨b, hh, -⟩ := hs.holds
  have hfit := haddr b hh.data
  rw [hsz] at hfit
  have hnext := @skims_stripspn env b (b.addr + s.length) reject hfit
  obtain ⟨hfirst, hat⟩ := first_search hs hh.data h0 hle hnext
  obtain ⟨h, hread, hh0⟩ :=
    Blk.read_text hat (fun hz => h0 (List.mem_of_mem_drop hz)) (Nat.zero_le _)
  have hne : ¬h = 0 := by
    rw [hh0, List.length_drop]
    omega
  rw [Nat.add_zero] at hread
  rw [stripspnFrom]
  simp only [JstrTy.deref, hh.data, bind, Except.bind, hread, if_neg hne, hfirst]
  by_cases hend : cspn reject (s.drop start) = (s.drop start).length
  · obtain ⟨hsame, hnone⟩ := nothing_dropped hend
    rw [if_pos hend, hsame, hnone]
    exact ⟨j, rfl, hs⟩
  · obtain ⟨b', i, b'', hrun, hpos, hb, -, hmove, hstr⟩ := deleteLoop_from (deletes_one reject)
      hs hh.data h0 hle (by omega) hnext (Nat.lt_of_le_of_ne (cspn_le _ _) hend)
    rw [← hsz, ← hb] at hmove
    rw [if_neg hend]
    simp only [Nat.add_sub_cancel_left, hrun, ne_eq, Nat.pos_iff_ne_zero.mp hpos, not_false_eq_true,
      if_true, hmove]
    exact ⟨_, rfl, hstr⟩

end Functions

/-! ## Single bytes -/

section Byte

variable {c : UInt8}

/-- The text without its first `n` bytes equal to `c`. -/
def removeN (c : UInt8) : Nat → Bytes → Bytes
  | _, [] => []
  | 0, b :: l => b :: l
  | n + 1, b :: l => if b = c then removeN c n l else b :: removeN c (n + 1) l

/-- Replacing a byte by nothing is removing it, and counts what is removed. -/
theorem replaceN_singleton (c : UInt8) : ∀ (n : Nat) (l : Bytes),
    replaceN [c] [] n l = removeN c n l ∧ countN [c] n l + (removeN c n l).length = l.length
  | 0, [] => ⟨rfl, rfl⟩
  | 0, b :: l => ⟨rfl, Nat.zero_add _⟩
  | n + 1, [] => ⟨rfl, rfl⟩
  | n + 1, b :: l => by
      rw [removeN]
      by_cases hb : b = c
      · obtain ⟨hrepl, hcount⟩ := replaceN_singleton c n l
        have hs : search [c] (b :: l) = some 0 := by
          rw [search, if_pos (by simp [List.isPrefixOf, hb])]
        rw [if_pos hb, replaceN_succ_some hs, countN_succ_some hs]
        simp only [List.take_zero, List.nil_append, Nat.zero_add, List.drop_succ_cons,
          List.drop_zero, List.length_cons, List.length_nil]
        exact ⟨hrepl, by omega⟩
      · obtain ⟨hrepl, hcount⟩ := replaceN_singleton c (n + 1) l
        have hs : search [c] (b :: l) = (search [c] l).map (· + 1) := by
          rw [search, if_neg (by simp [List.isPrefixOf, Ne.symm hb])]
        rw [if_neg hb, List.length_cons, List.length_cons, ← hrepl]
        rw [← hrepl] at hcount
        cases hk : search [c] l with
        | none =>
            rw [hk] at hs
            rw [replaceN_succ_none hk, countN_succ_none hk] at *
            rw [replaceN_succ_none hs, countN_succ_none hs]
            exact ⟨rfl, by omega⟩
        | some k =>
            rw [hk, Option.map_some] at hs
            rw [replaceN_succ_some hk, countN_succ_some hk] at *
            rw [replaceN_succ_some hs, countN_succ_some hs]
            simp only [List.length_singleton, List.drop_succ_cons, List.take_succ_cons,
              List.cons_append, List.append_nil] at *
            exact ⟨trivial, by omega⟩

theorem seeks_strchrnul {cfg : ChrnulBuild} {env : Mem} {b : Blk} {e : Nat} (hfit : e ≤ sizeMax) :
    SeeksWith (0 ∉ ·) [0] [c] b e (nextStrchrnul cfg env c) := by
  intro b' _ p l h0 hat he
  have hstr := @cstr_over env b' p l hat h0 (by omega)
  obtain ⟨h, hread, hh⟩ := Blk.read_text hat h0 (@List.idxOf_le_length _ _ _ l c)
  simp only [nextStrchrnul, hstr.strchrnul_eq, bind, Except.bind, hread, pure, Except.pure, hh,
    search_singleton]
  split <;> rfl

theorem rmnchrFrom_spec {cfg : ChrnulBuild} {env : Mem} {j : JstrTy} {s : Bytes} (hs : Str j s)
    (h0 : 0 ∉ s) (haddr : Addressed j) (start : Nat) (c : UInt8) (n : Nat) :
    ∃ j', rmnchrFrom cfg env j start c n = .ok (countN [c] n (s.drop start), j') ∧
      Str j' (s.take start ++ replaceN [c] [] n (s.drop start)) := by
  have hseeks : ∀ b, j.data = some b → SeeksWith (0 ∉ ·) [0] [c] b (b.addr + s.length)
      (nextStrchrnul cfg env c) := by
    intro b hb
    have hfit := haddr b hb
    rw [hs.content.size] at hfit
    exact seeks_strchrnul hfit
  exact @removes_byte c (fun _ => nextStrchrnul cfg env c) j s hs h0 hseeks start n

end Byte

/-! ## Filtering -/

/-- A deletion leaves `t` of `s`, terminated, with its length, and returns
how many bytes that took out. -/
def Leaves (r : Run (Nat × JstrTy)) (s t : Bytes) : Prop :=
  ∃ changed j', r = .ok (changed, j') ∧ Str j' t ∧ changed + t.length = s.length

theorem dropped_add_kept (reject l : Bytes) :
    dropped reject l + (kept reject l).length = l.length := by
  induction l with
  | nil => rfl
  | cons b l ih =>
      by_cases hb : b ∈ reject <;> simp [dropped, kept, hb] at ih ⊢ <;> omega

/-- What is deleted is deleted behind the index. -/
theorem length_take_append {s t : Bytes} {start changed : Nat}
    (h : changed + t.length = (s.drop start).length) :
    changed + (s.take start ++ t).length = s.length := by
  rw [List.length_drop] at h
  rw [List.length_append, List.length_take]
  omega

/-- Deleting in place is filtering: run by run and byte by byte leave the
same, and so do the two that delete the first `n` bytes equal to `c`. -/
theorem deleted_eq (cfg : ChrnulBuild) (env : Mem) {j : JstrTy} {s : Bytes} (hs : Str j s)
    (h0 : 0 ∉ s) (haddr : Addressed j) (start : Nat) (reject : Bytes) (c : UInt8) (n : Nat) :
    Leaves (rmallspnFrom env j start reject) s
        (s.take start ++ (s.drop start).filter (· ∉ reject)) ∧
      (start < j.size → Leaves (stripspnFrom env j start reject) s
        (s.take start ++ (s.drop start).filter (· ∉ reject))) ∧
      Leaves (rmnchrFrom cfg env j start c n) s (s.take start ++ removeN c n (s.drop start)) ∧
      Leaves (rmnchrLenFrom env j start c n) s (s.take start ++ removeN c n (s.drop start)) := by
  have hset := length_take_append (dropped_add_kept reject (s.drop start))
  obtain ⟨hrepl, hcount⟩ := replaceN_singleton c n (s.drop start)
  have hbyte := length_take_append hcount
  refine ⟨?_, fun hlt => ?_, ?_, ?_⟩
  · obtain ⟨j', hr, hstr⟩ := rmallspnFrom_spec hs h0 haddr start reject
    exact ⟨_, j', hr, hstr, hset⟩
  · obtain ⟨j', hr, hstr⟩ := stripspnFrom_spec hs h0 haddr hlt reject
    exact ⟨_, j', hr, hstr, hset⟩
  · obtain ⟨j', hr, hstr⟩ := @rmnchrFrom_spec cfg env j s hs h0 haddr start c n
    rw [hrepl] at hstr
    exact ⟨_, j', hr, hstr, hbyte⟩
  · obtain ⟨j', hr, hstr⟩ := @rmnchrLenFrom_spec env j s hs h0 start c n
    rw [hrepl] at hstr
    exact ⟨_, j', hr, hstr, hbyte⟩

/-- From index 1 of "abab": the set "b", and one 'a'. -/
theorem deleted_eq_abab :
    Leaves (rmallspnFrom (memOf []) ⟨some ⟨64, [97, 98, 97, 98, 0]⟩, 4, 5⟩ 1 [98])
        [97, 98, 97, 98] [97, 97] ∧
      Leaves (stripspnFrom (memOf []) ⟨some ⟨64, [97, 98, 97, 98, 0]⟩, 4, 5⟩ 1 [98])
        [97, 98, 97, 98] [97, 97] ∧
      Leaves (rmnchrFrom ⟨sse2Build, true, false⟩ (memOf [])
        ⟨some ⟨64, [97, 98, 97, 98, 0]⟩, 4, 5⟩ 1 97 1) [97, 98, 97, 98] [97, 98, 98] ∧
      Leaves (rmnchrLenFrom (memOf []) ⟨some ⟨64, [97, 98, 97, 98, 0]⟩, 4, 5⟩ 1 97 1)
        [97, 98, 97, 98] [97, 98, 98] := by
  have hs : Str ⟨some ⟨64, [97, 98, 97, 98, 0]⟩, 4, 5⟩ [97, 98, 97, 98] :=
    ⟨_, rfl, rfl, rfl, by decide, by decide⟩
  have haddr : Addressed ⟨some ⟨64, [97, 98, 97, 98, 0]⟩, 4, 5⟩ := by
    intro b hb
    cases hb
    decide
  have h := deleted_eq ⟨sse2Build, true, false⟩ (memOf []) hs (by decide) haddr 1 [98] 97 1
  exact ⟨h.1, h.2.1 (by decide), h.2.2⟩

end Jstr
