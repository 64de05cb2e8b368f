import Jstring.Mem

/-!
# The growable string

`include/builder.h`: the record `jstr_ty`, the four reserve routines and
the calls that change the content, with the copying helpers of
`include/stdstring.h` they are made of. `jstr_insert_len` of
`include/replace.h` is here too, being one more call of the same kind.

- `Safe j P r`: a call on `j` that faults nowhere, leaves `j` as it was
  when it fails, and establishes `P` when it succeeds;
- `Holds`, `Str`: what the record says about its block, without and with
  the terminator;
- one theorem for each call, from `Content` to `Str`.
-/

namespace Jstr

/-! ## `include/stdstring.h` -/

/-- `jstr_mempset`. -/
def mempset (b : Blk) (s : Nat) (c : UInt8) (n : Nat) : Run (Blk × Nat) := do
  let b ← b.write s (List.replicate n c)
  .ok (b, s + n)

/-- `jstr_mempcpy`. -/
def mempcpy (b : Blk) (dst : Nat) (src : Bytes) : Run (Blk × Nat) := do
  let b ← b.write dst src
  .ok (b, dst + src.length)

/-- `jstr_mempmove`. -/
def mempmove (b : Blk) (dst src n : Nat) : Run (Blk × Nat) := do
  let b ← b.memmove dst src n
  .ok (b, dst + n)

/-- `jstr_strmove_len`. -/
def strmoveLen (b : Blk) (dst src n : Nat) : Run Blk := do
  let (b, p) ← mempmove b dst src n
  b.write p [0]

/-- `jstr_stpmove_len`. -/
def stpmoveLen (b : Blk) (dst src n : Nat) : Run (Blk × Nat) := do
  let b ← strmoveLen b dst src n
  .ok (b, dst + n)

/-- `jstr_strcpy_len`. -/
def strcpyLen (b : Blk) (dst : Nat) (src : Bytes) : Run Blk := do
  let (b, p) ← mempcpy b dst src
  b.write p [0]

/-- `jstr_stpcpy_len`. -/
def stpcpyLen (b : Blk) (dst : Nat) (src : Bytes) : Run (Blk × Nat) := do
  let b ← strcpyLen b dst src
  .ok (b, dst + src.length)

theorem mempset_eq {b : Blk} {s n : Nat} {c : UInt8} (h : b.InRange s n) :
    mempset b s c n = .ok (b.put s (List.replicate n c), s + n) := by
  rw [mempset, Blk.write_eq (by rwa [List.length_replicate])]
  rfl

theorem mempcpy_eq {b : Blk} {dst : Nat} {src : Bytes} (h : b.InRange dst src.length) :
    mempcpy b dst src = .ok (b.put dst src, dst + src.length) := by
  rw [mempcpy, Blk.write_eq h]
  rfl

theorem mempmove_eq {b : Blk} {dst src n : Nat} {l : Bytes} (hs : b.At src l)
    (hn : l.length = n) (hd : b.InRange dst n) :
    mempmove b dst src n = .ok (b.put dst l, dst + n) := by
  rw [mempmove, Blk.memmove_eq hs hn hd]
  rfl

theorem strmoveLen_eq {b : Blk} {dst src n : Nat} {l : Bytes} (hs : b.At src l)
    (hn : l.length = n) (hd : b.InRange dst (n + 1)) :
    strmoveLen b dst src n = .ok (b.put dst (l ++ [0])) := by
  subst hn
  rw [strmoveLen, mempmove_eq hs rfl ⟨hd.1, by have := hd.2; omega⟩]
  exact @Blk.write_put b dst l [0] hd

theorem stpmoveLen_eq {b : Blk} {dst src n : Nat} {l : Bytes} (hs : b.At src l)
    (hn : l.length = n) (hd : b.InRange dst (n + 1)) :
    stpmoveLen b dst src n = .ok (b.put dst (l ++ [0]), dst + n) := by
  rw [stpmoveLen, strmoveLen_eq hs hn hd]
  rfl

theorem strcpyLen_eq {b : Blk} {dst : Nat} {src : Bytes} (hd : b.InRange dst (src.length + 1)) :
    strcpyLen b dst src = .ok (b.put dst (src ++ [0])) := by
  rw [strcpyLen, mempcpy_eq ⟨hd.1, by have := hd.2; omega⟩]
  exact @Blk.write_put b dst src [0] hd

theorem stpcpyLen_eq {b : Blk} {dst : Nat} {src : Bytes} (hd : b.InRange dst (src.length + 1)) :
    stpcpyLen b dst src = .ok (b.put dst (src ++ [0]), dst + src.length) := by
  rw [stpcpyLen, strcpyLen_eq hd]
  rfl

/-! No call changes the size of the block it works on. -/

theorem mempset_size (b : Blk) (s : Nat) (c : UInt8) (n : Nat) :
    Ensures (fun x : Blk × Nat => x.1.size = b.size) (mempset b s c n) :=
  (b.write_size s _).bind fun _ h => ensures_ok h

theorem strmoveLen_size (b : Blk) (dst src n : Nat) :
    Ensures (fun b' : Blk => b'.size = b.size) (strmoveLen b dst src n) := by
  have hmove : Ensures (fun x : Blk × Nat => x.1.size = b.size) (mempmove b dst src n) :=
    (b.memmove_size dst src n).bind fun _ h => ensures_ok h
  exact hmove.bind fun x h b' hb' => (Blk.write_size x.1 x.2 [0] b' hb').trans h

theorem strcpyLen_size (b : Blk) (dst : Nat) (src : Bytes) :
    Ensures (fun b' : Blk => b'.size = b.size) (strcpyLen b dst src) := by
  have hcpy : Ensures (fun x : Blk × Nat => x.1.size = b.size) (mempcpy b dst src) :=
    (b.write_size dst src).bind fun _ h => ensures_ok h
  exact hcpy.bind fun x h b' hb' => (Blk.write_size x.1 x.2 [0] b' hb').trans h

/-! ## The record and its block -/

/-- `jstr_ty`. -/
structure JstrTy where
  data : Option Blk
  size : Nat
  capacity : Nat

namespace JstrTy

/-- `JSTR_INIT`. -/
def init : JstrTy where
  data := none
  size := 0
  capacity := 0

/-- `*s` where the source goes on to use it. -/
def deref (j : JstrTy) : Run Blk :=
  match j.data with
  | some b => .ok b
  | none => .error .null

/-- `data[i]`, when allocated. -/
def byte? (j : JstrTy) (i : Nat) : Option UInt8 :=
  j.data.bind fun b => b.cell? (b.addr + i)

end JstrTy

/-- `if (jstr_chk(r)) return JSTR_RET_ERR;` and on with the rest. -/
def orErr (r : Run (RetTy × JstrTy)) (rest : JstrTy → Run (RetTy × JstrTy)) :
    Run (RetTy × JstrTy) :=
  match r with
  | .error f => .error f
  | .ok (.err, j) => .ok (.err, j)
  | .ok (.succ, j) => rest j

/-! ## The reserve routines -/

/-- `JSTR_MIN_CAP`, for a `size_t` of 8 bytes. -/
def minCap : Nat := 24

/-- `JSTR_GROWTH`. -/
def growth : Nat := 2

/-- The loop of `jstr_reservealways`. The fuel is enough to tell: a
capacity doubled 64 times is 0 and stays 0 (`growCap_diverge`). -/
def growCap : Nat → Nat → Nat → Run Nat
  | 0, _, _ => .error .diverge
  | fuel + 1, oldCap, newCap =>
    if oldCap < newCap then growCap fuel (mulSz oldCap growth) newCap else .ok oldCap

/-- `jstr_reservealways`. -/
def reservealways (al : Alloc) (j : JstrTy) (newCap : Nat) : Run (RetTy × JstrTy) := do
  let oldCap ← growCap 65 (max j.capacity minCap) newCap
  match al.realloc j.data oldCap with
  | none => .ok (.err, j)
  | some tmp => .ok (.succ, { j with data := some tmp, capacity := oldCap })

/-- `jstr_reserve`. -/
def reserve (al : Alloc) (j : JstrTy) (newCap : Nat) : Run (RetTy × JstrTy) :=
  if newCap ≤ j.capacity then .ok (.succ, j) else reservealways al j newCap

/-- `jstr_reserveexactalways`: the capacity is recorded first. -/
def reserveexactalways (al : Alloc) (j : JstrTy) (newCap : Nat) : Run (RetTy × JstrTy) :=
  if newCap ≠ 0 then
    let j := { j with capacity := newCap }
    match al.realloc j.data j.capacity with
    | none => .ok (.err, j)
    | some tmp => .ok (.succ, { j with data := some tmp })
  else .ok (.succ, j)

/-- `jstr_reserveexact`. -/
def reserveexact (al : Alloc) (j : JstrTy) (newCap : Nat) : Run (RetTy × JstrTy) :=
  if newCap < j.capacity then .ok (.succ, j) else reserveexactalways al j newCap

/-- `jstr_shrink_to_fit`. -/
def shrinkToFit (al : Alloc) (j : JstrTy) : Run (RetTy × JstrTy) :=
  reserveexactalways al j (addSz j.size 1)

/-! ## The calls that change the content -/

/-- The shape most calls share: `jstr_reserve(.., *sz + n + 1)`, then
`*sz = JSTR_DIFF(f(*s, *sz), *s)`. -/
def growBy (al : Alloc) (j : JstrTy) (n : Nat) (f : Blk → Nat → Run (Blk × Nat)) :
    Run (RetTy × JstrTy) :=
  orErr (reserve al j (addSz (addSz j.size n) 1)) fun j => do
    let b ← j.deref
    let (b', p) ← f b j.size
    .ok (.succ, { j with data := some b', size := subSz p b.addr })

/-- The copying of `jstr_cat`, from argument to argument. -/
def catArgs : Blk → Nat → List Bytes → Run (Blk × Nat)
  | b, p, [] => .ok (b, p)
  | b, p, a :: args => do
    let b ← b.write p a
    catArgs b (p + a.length) args

/-- `jstr_cat`. -/
def cat (al : Alloc) (j : JstrTy) (args : List Bytes) : Run (RetTy × JstrTy) :=
  let total := args.foldl (fun t a => addSz t a.length) 0
  if total = 0 then .ok (.succ, j)
  else
    orErr (reserve al j (addSz (addSz j.size total) 1)) fun j => do
      let b ← j.deref
      let (b', p) ← catArgs b (b.addr + j.size) args
      let b' ← b'.write p [0]
      .ok (.succ, { j with data := some b', size := addSz j.size total })

/-- `jstr_append_len_unsafe_p`. -/
def appendLenUnsafeP (src : Bytes) (b : Blk) (sz : Nat) : Run (Blk × Nat) :=
  stpcpyLen b (b.addr + sz) src

/-- `jstr_append_len`. -/
def appendLen (al : Alloc) (j : JstrTy) (src : Bytes) : Run (RetTy × JstrTy) :=
  growBy al j src.length (appendLenUnsafeP src)

/-- `jstr_assignnchr`. -/
def assignnchr (al : Alloc) (j : JstrTy) (c : UInt8) (n : Nat) : Run (RetTy × JstrTy) :=
  orErr (if j.size < n then reservealways al j (addSz n 1) else .ok (.succ, j)) fun j => do
    let b ← j.deref
    let b ← b.write b.addr (List.replicate n c)
    let b ← b.write (b.addr + n) [0]
    .ok (.succ, { j with data := some b, size := n })

/-- `jstr_pushbackn_len_unsafe_p`: no terminator. -/
def pushbacknLenUnsafeP (c : UInt8) (n : Nat) (b : Blk) (sz : Nat) : Run (Blk × Nat) :=
  mempset b (b.addr + sz) c n

/-- `jstr_pushbackn`. -/
def pushbackn (al : Alloc) (j : JstrTy) (c : UInt8) (n : Nat) : Run (RetTy × JstrTy) :=
  growBy al j n (pushbacknLenUnsafeP c n)

/-- `jstr_pushfrontn_len_unsafe_p`. -/
def pushfrontnLenUnsafeP (c : UInt8) (n : Nat) (b : Blk) (sz : Nat) : Run (Blk × Nat) := do
  let b ← strmoveLen b (b.addr + n) b.addr sz
  let (b, p) ← mempset b b.addr c n
  .ok (b, p + sz)

/-- `jstr_pushfrontn`. -/
def pushfrontn (al : Alloc) (j : JstrTy) (c : UInt8) (n : Nat) : Run (RetTy × JstrTy) :=
  growBy al j n (pushfrontnLenUnsafeP c n)

/-- `jstr_prepend_len_unsafe_p`: an empty string is not moved, only
terminated. -/
def prependLenUnsafeP (src : Bytes) (b : Blk) (sz : Nat) : Run (Blk × Nat) := do
  let b ← if sz ≠ 0 then strmoveLen b (b.addr + src.length) b.addr sz
    else b.write (b.addr + src.length) [0]
  let b ← b.write b.addr src
  .ok (b, b.addr + sz + src.length)

/-- `jstr_prepend_len`. -/
def prependLen (al : Alloc) (j : JstrTy) (src : Bytes) : Run (RetTy × JstrTy) :=
  growBy al j src.length (prependLenUnsafeP src)

/-- `jstr_assign_len`. -/
def assignLen (al : Alloc) (j : JstrTy) (src : Bytes) : Run (RetTy × JstrTy) :=
  orErr (reserve al j (addSz (addSz j.size src.length) 1)) fun j => do
    let b ← j.deref
    let b ← strcpyLen b b.addr src
    .ok (.succ, { j with data := some b, size := src.length })

/-- `jstr_pushback_unsafe_p`. -/
def pushbackUnsafeP (c : UInt8) (b : Blk) (sz : Nat) : Run (Blk × Nat) := do
  let s := b.addr + sz
  let b ← b.write s [c]
  let b ← b.write (s + 1) [0]
  .ok (b, s + 1)

/-- `jstr_pushback`. -/
def pushback (al : Alloc) (j : JstrTy) (c : UInt8) : Run (RetTy × JstrTy) :=
  growBy al j 1 (pushbackUnsafeP c)

/-- `jstr_pushfront_unsafe_p`. -/
def pushfrontUnsafeP (c : UInt8) (b : Blk) (sz : Nat) : Run (Blk × Nat) := do
  let b ← strmoveLen b (b.addr + 1) b.addr sz
  let b ← b.write b.addr [c]
  .ok (b, b.addr + sz + 1)

/-- `jstr_pushfront`. -/
def pushfront (al : Alloc) (j : JstrTy) (c : UInt8) : Run (RetTy × JstrTy) :=
  growBy al j 1 (pushfrontUnsafeP c)

/-- `jstr_insert_unsafe`: the terminator moves with the tail. -/
def insertUnsafe (b : Blk) (sz at' : Nat) (src : Bytes) : Run Blk := do
  let b ← b.memmove (b.addr + at' + src.length) (b.addr + at') (addSz (subSz sz at') 1)
  b.write (b.addr + at') src

/-- `jstr_insert_len`. -/
def insertLen (al : Alloc) (j : JstrTy) (at' : Nat) (src : Bytes) : Run (RetTy × JstrTy) :=
  orErr (reserve al j (addSz (addSz j.size src.length) 1)) fun j => do
    let b ← j.deref
    let b ← insertUnsafe b j.size at' src
    .ok (.succ, { j with data := some b, size := addSz j.size src.length })

/-- A pop whose caller stores the returned end as the size. Nothing is
accessed when the string is empty, so `s` may be null then. -/
def popWith (j : JstrTy) (f : Blk → Nat → Run (Blk × Nat)) : Run (RetTy × JstrTy) :=
  if j.size ≠ 0 then do
    let b ← j.deref
    let (b', p) ← f b j.size
    .ok (.succ, { j with data := some b', size := subSz p b.addr })
  else .ok (.succ, { j with size := 0 })

/-- `jstr_popback_p`. -/
def popbackP (j : JstrTy) : Run (RetTy × JstrTy) :=
  popWith j fun b sz => do
    let b ← b.write (b.addr + sz - 1) [0]
    .ok (b, b.addr + sz - 1)

/-- `jstr_popfront_p`. -/
def popfrontP (j : JstrTy) : Run (RetTy × JstrTy) :=
  popWith j fun b sz => do
    let b ← b.memmove b.addr (b.addr + 1) sz
    .ok (b, b.addr + sz - 1)

/-! ## Outcomes of a call -/

/-- No fault but an endless loop; `j` as it was on failure; `P` on success. -/
def Safe (j : JstrTy) (P : JstrTy → Prop) : Run (RetTy × JstrTy) → Prop
  | .error f => f = .diverge
  | .ok (.err, j') => j' = j
  | .ok (.succ, j') => P j'

theorem Safe.mono {j : JstrTy} {P Q : JstrTy → Prop} {r : Run (RetTy × JstrTy)}
    (h : Safe j P r) (hpq : ∀ j', P j' → Q j') : Safe j Q r := by
  rcases r with f | ⟨_ | _, j'⟩
  · exact h
  · exact h
  · exact hpq j' h

/-- What may come of a call that is safe. -/
theorem Safe.outcomes {j : JstrTy} {P : JstrTy → Prop} {r : Run (RetTy × JstrTy)}
    (h : Safe j P r) :
    (∀ f, r = .error f → f = .diverge) ∧ (∀ j', r = .ok (.succ, j') → P j') ∧
      (∀ j', r = .ok (.err, j') → j' = j) := by
  refine ⟨?_, ?_, ?_⟩
  · rintro f rfl
    exact h
  · rintro j' rfl
    exact h
  · rintro j' rfl
    exact h

theorem Safe.orErr {j : JstrTy} {P Q : JstrTy → Prop} {r : Run (RetTy × JstrTy)}
    {rest : JstrTy → Run (RetTy × JstrTy)} (h : Safe j P r)
    (hrest : ∀ j', P j' → ∃ j'', rest j' = .ok (.succ, j'') ∧ Q j'') :
    Safe j Q (orErr r rest) := by
  rcases r with f | ⟨_ | _, j'⟩
  · exact h
  · exact h
  · obtain ⟨j'', he, hq⟩ := hrest j' h
    show Safe j Q (rest j')
    rw [he]
    exact hq

/-! ## Capacities -/

theorem mulSz_growth_iterate (k c : Nat) :
    (fun c => mulSz c growth)^[k] c = if k = 0 then c else c * 2 ^ k % 18446744073709551616 := by
  induction k generalizing c with
  | zero => rfl
  | succ k ih =>
      rw [Function.iterate_succ_apply, ih, if_neg (Nat.succ_ne_zero k), mulSz, growth]
      split
      · rename_i h0
        subst h0
        rfl
      · rw [Nat.pow_succ', ← Nat.mul_assoc, Nat.mod_mul_mod]

/-- What the loop returns is large enough, and not below where it began. -/
theorem growCap_spec {fuel c n r : Nat} (h : growCap fuel c n = .ok r) : n ≤ r ∧ c ≤ r := by
  suffices n ≤ r ∧ (r = c ∨ c < n) by omega
  induction fuel generalizing c with
  | zero => cases h
  | succ fuel ih =>
      rw [growCap] at h
      split at h
      · rename_i hlt
        exact ⟨(ih h).1, .inr hlt⟩
      · cases h
        exact ⟨by omega, .inl rfl⟩

/-- The loop that runs out of fuel never ends: no number of doublings
reaches the capacity asked for. -/
theorem growCap_diverge {c n : Nat} {f : Fault} (h : growCap 65 c n = .error f) (k : Nat) :
    f = .diverge ∧ (fun c => mulSz c growth)^[k] c < n := by
  have small : ∀ fuel c, growCap fuel c n = .error f →
      f = .diverge ∧ ∀ k < fuel, (fun c => mulSz c growth)^[k] c < n := by
    intro fuel
    induction fuel with
    | zero =>
        intro c h
        cases h
        exact ⟨rfl, fun k hk => absurd hk (Nat.not_lt_zero k)⟩
    | succ fuel ih =>
        intro c h
        rw [growCap] at h
        split at h
        · rename_i hlt
          obtain ⟨hf, hk⟩ := ih _ h
          refine ⟨hf, fun k hk' => ?_⟩
          cases k with
          | zero => exact hlt
          | succ k => exact hk k (by omega)
        · cases h
  obtain ⟨hf, hsmall⟩ := small 65 c h
  refine ⟨hf, ?_⟩
  by_cases hk : k < 65
  · exact hsmall k hk
  · have h64 := hsmall 64 (by omega)
    rw [mulSz_growth_iterate, if_neg (by omega)] at h64
    rw [mulSz_growth_iterate, if_neg (by omega), ← Nat.sub_add_cancel (show 64 ≤ k by omega),
      Nat.pow_add, ← Nat.mul_assoc, show (2 ^ 64 : Nat) = 18446744073709551616 from rfl,
      Nat.mul_mod_left]
    omega

/-- Up to 2 ^ 63 no doubling wraps and the loop ends. -/
theorem growCap_total {c n : Nat} (hc : minCap ≤ c) (hn : n ≤ 9223372036854775808) :
    ∃ r, growCap 65 c n = .ok r := by
  rcases h : growCap 65 c n with f | r
  · exfalso
    have nowrap : ∀ k, c * 2 ^ k < n := by
      intro k
      induction k with
      | zero =>
          have := (growCap_diverge h 0).2
          simpa using this
      | succ k ih =>
          have := (growCap_diverge h (k + 1)).2
          rwa [mulSz_growth_iterate, if_neg (Nat.succ_ne_zero k), Nat.mod_eq_of_lt] at this
          rw [Nat.pow_succ, ← Nat.mul_assoc]
          omega
    have := nowrap 63
    simp only [minCap] at hc
    have : c ≤ c * 2 ^ 63 / 2 ^ 63 := by omega
    omega
  · exact ⟨r, rfl⟩

/-! ## What the reserve routines do -/

/-- The capacity is the size of the block. -/
def Backed (j : JstrTy) : Prop :=
  match j.data with
  | none => j.capacity = 0
  | some b => b.size = j.capacity

/-- `j'` is `j` with room for `n` bytes, at a new place perhaps. -/
structure Grown (j : JstrTy) (n : Nat) (j' : JstrTy) : Prop where
  size : j'.size = j.size
  room : ∃ b', j'.data = some b' ∧ b'.size = j'.capacity ∧ n ≤ b'.size
  keeps : ∀ b b', j.data = some b → j'.data = some b' → b.size ≤ b'.size ∧
    ∀ l, b.At b.addr l → b'.At b'.addr l

theorem Grown.mono {j j' : JstrTy} {m n : Nat} (h : Grown j m j') (hn : n ≤ m) :
    Grown j n j' := by
  obtain ⟨b', hd, hb, hm⟩ := h.room
  exact ⟨h.size, ⟨b', hd, hb, by omega⟩, h.keeps⟩

theorem reservealways_spec {al : Alloc} {j : JstrTy} (hb : Backed j) (n : Nat) :
    Safe j (Grown j (max n minCap)) (reservealways al j n) := by
  rw [reservealways]
  rcases hg : growCap 65 (max j.capacity minCap) n with f | cap
  · exact (growCap_diverge hg 0).1
  · obtain ⟨hn, hcap⟩ := growCap_spec hg
    show Safe j (Grown j (max n minCap)) (match al.realloc j.data cap with
      | none => .ok (.err, j)
      | some tmp => .ok (.succ, { j with data := some tmp, capacity := cap }))
    rcases hr : al.realloc j.data cap with _ | tmp
    · exact rfl
    · have hsz := al.size_eq hr
      refine ⟨rfl, ⟨tmp, rfl, hsz, by omega⟩, fun b b' h h' => ?_⟩
      cases h'
      rw [h] at hr
      rw [Backed, h] at hb
      simp only at hb
      refine ⟨by omega, fun l hl => ?_⟩
      have := hl.inRange.2
      exact @Alloc.keeps_at al b tmp cap hr 0 l hl (by omega)

theorem reserve_spec {al : Alloc} {j : JstrTy} (hb : Backed j) {n : Nat} (hn : 0 < n) :
    Safe j (Grown j n) (reserve al j n) := by
  rw [reserve]
  split
  · rename_i hle
    refine ⟨rfl, ?_, fun b b' h h' => ?_⟩
    · rcases hd : j.data with _ | b
      · rw [Backed, hd] at hb
        simp only at hb
        omega
      · rw [Backed, hd] at hb
        exact ⟨b, rfl, hb, by simp only at hb; omega⟩
    · rw [h] at h'
      cases h'
      exact ⟨le_refl _, fun _ hl => hl⟩
  · exact (reservealways_spec hb n).mono fun j' hg => hg.mono (Nat.le_max_left _ _)

/-- Only a request beyond 2 ^ 63 can loop forever. -/
theorem reservealways_diverge {al : Alloc} {j : JstrTy} {n : Nat} {f : Fault}
    (h : reservealways al j n = .error f) : f = .diverge ∧ 9223372036854775808 < n := by
  rw [reservealways] at h
  rcases hg : growCap 65 (max j.capacity minCap) n with f' | cap
  · rw [hg] at h
    cases h
    refine ⟨(growCap_diverge hg 0).1, ?_⟩
    by_contra hn
    obtain ⟨r, hr⟩ := growCap_total (Nat.le_max_right j.capacity minCap) (Nat.le_of_not_lt hn)
    rw [hr] at hg
    cases hg
  · rw [hg] at h
    simp only [bind, Except.bind] at h
    split at h <;> cases h

/-- A capacity grown for `n` bytes is asked of `al`, which refuses it. -/
def Refuses (al : Alloc) (j : JstrTy) (n : Nat) : Prop :=
  ∃ cap, growCap 65 (max j.capacity minCap) n = .ok cap ∧ al.realloc j.data cap = none

/-- There is less room than `n` bytes, and `al` refuses more. -/
def Denied (al : Alloc) (j : JstrTy) (n : Nat) : Prop := j.capacity < n ∧ Refuses al j n

theorem Denied.realloc {al : Alloc} {j : JstrTy} {n : Nat} (h : Denied al j n) :
    ∃ o m, al.realloc o m = none := by
  obtain ⟨-, cap, -, hr⟩ := h
  exact ⟨j.data, cap, hr⟩

/-- Where it returns, the allocator was asked for the capacity found, once. -/
theorem reservealways_ok {al : Alloc} {j j' : JstrTy} {n : Nat} {r : RetTy}
    (h : reservealways al j n = .ok (r, j')) :
    (Refuses al j n ∧ r = .err ∧ j' = j) ∨
      ∃ cap b, al.realloc j.data cap = some b ∧ r = .succ ∧
        j' = { j with data := some b, capacity := cap } := by
  rw [reservealways] at h
  rcases hg : growCap 65 (max j.capacity minCap) n with f | cap
  · rw [hg] at h
    cases h
  · rw [hg] at h
    simp only [bind, Except.bind] at h
    rcases hr : al.realloc j.data cap with _ | tmp
    · rw [hr] at h
      cases h
      exact .inl ⟨⟨cap, hg, hr⟩, rfl, rfl⟩
    · rw [hr] at h
      cases h
      exact .inr ⟨cap, tmp, hr, rfl, rfl⟩

/-- A reserve fails when a larger block is refused. -/
theorem reserve_denied {al : Alloc} {j j' : JstrTy} {n : Nat}
    (h : reserve al j n = .ok (.err, j')) : Denied al j n := by
  rw [reserve] at h
  split at h
  · cases h
  · rename_i hle
    obtain ⟨href, -, -⟩ | ⟨cap, b, -, hr, -⟩ := reservealways_ok h
    · exact ⟨Nat.lt_of_not_le hle, href⟩
    · cases hr

theorem reservealways_cases {al : Alloc} {j : JstrTy} {n : Nat} (hb : Backed j) :
    (reservealways al j n = .error .diverge ∧ 9223372036854775808 < n) ∨
      (reservealways al j n = .ok (.err, j) ∧ Refuses al j n) ∨
      ∃ j', reservealways al j n = .ok (.succ, j') ∧ Grown j n j' := by
  have hspec := @reservealways_spec al j hb n
  rcases hr : reservealways al j n with f | ⟨_ | _, j'⟩
  · obtain ⟨rfl, hlt⟩ := reservealways_diverge hr
    exact .inl ⟨rfl, hlt⟩
  · obtain ⟨href, -, rfl⟩ | ⟨cap, b, -, herr, -⟩ := reservealways_ok hr
    · exact .inr (.inl ⟨rfl, href⟩)
    · cases herr
  · rw [hr] at hspec
    have hg : Grown j (max n minCap) j' := hspec
    exact .inr (.inr ⟨j', rfl, hg.mono (Nat.le_max_left _ _)⟩)

/-- The three outcomes of a reserve. -/
theorem reserve_cases {al : Alloc} {j : JstrTy} {n : Nat} (hb : Backed j) (hn : 0 < n) :
    (reserve al j n = .error .diverge ∧ j.capacity < n ∧ 9223372036854775808 < n) ∨
      (reserve al j n = .ok (.err, j) ∧ Denied al j n) ∨
      ∃ j', reserve al j n = .ok (.succ, j') ∧ Grown j n j' := by
  have hspec := @reserve_spec al j hb n hn
  by_cases hle : n ≤ j.capacity
  · have hr : reserve al j n = .ok (.succ, j) := if_pos hle
    rw [hr] at hspec
    exact .inr (.inr ⟨j, hr, hspec⟩)
  · have hlt : j.capacity < n := Nat.lt_of_not_le hle
    rw [reserve, if_neg hle]
    rcases @reservealways_cases al j n hb with ⟨hr, hbig⟩ | ⟨hr, href⟩ | hr
    · exact .inl ⟨hr, hlt, hbig⟩
    · exact .inr (.inl ⟨hr, hlt, href⟩)
    · exact .inr (.inr hr)

/-- The block is one the allocator answered with. -/
theorem reservealways_data {al : Alloc} {j j' : JstrTy} {n : Nat}
    (h : reservealways al j n = .ok (.succ, j')) :
    ∃ m b, al.realloc j.data m = some b ∧ j'.data = some b := by
  obtain ⟨-, hr, -⟩ | ⟨cap, b, hb, -, rfl⟩ := reservealways_ok h
  · cases hr
  · exact ⟨cap, b, hb, rfl⟩

/-- The block stays, or is one the allocator answered with. -/
theorem reserve_data {al : Alloc} {j j' : JstrTy} {n : Nat}
    (h : reserve al j n = .ok (.succ, j')) :
    j'.data = j.data ∨ ∃ m b, al.realloc j.data m = some b ∧ j'.data = some b := by
  rw [reserve] at h
  split at h
  · cases h
    exact .inl rfl
  · exact .inr (reservealways_data h)

/-! ### Which requests fail

The sizes asked for in one run grow, so a set `R` of refused sizes is every
way an allocator can fail in it. -/

/-- The allocator fails at the sizes in `R`. -/
def Decides (al : Alloc) (R : Nat → Bool) : Prop := ∀ o m, al.realloc o m = none ↔ R m = true

/-- The capacity after `n` bytes were reserved. -/
def capAfter (cap n : Nat) : Nat :=
  if n ≤ cap then cap
  else
    match growCap 65 (max cap minCap) n with
    | .ok c => c
    | .error _ => 0

/-- Reserving `n` bytes asks for a size in `R`. -/
def refusesAt (R : Nat → Bool) (cap n : Nat) : Bool := cap < n && R (capAfter cap n)

/-- One of the requests is refused. -/
def starvedBy (R : Nat → Bool) : Nat → List Nat → Bool
  | _, [] => false
  | cap, n :: ns => refusesAt R cap n || starvedBy R (capAfter cap n) ns

/-- Up to 2 ^ 63 a reserve fails or succeeds, as the allocator decides. -/
theorem reserve_decided {al : Alloc} {j : JstrTy} {n : Nat} (hb : Backed j) (hn : 0 < n)
    (hlim : n ≤ 9223372036854775808) :
    (reserve al j n = .ok (.err, j) ∧ Denied al j n ∧
        ∀ R, Decides al R → refusesAt R j.capacity n = true) ∨
      ∃ j', reserve al j n = .ok (.succ, j') ∧ Grown j n j' ∧
        j'.capacity = capAfter j.capacity n ∧
        ∀ R, Decides al R → refusesAt R j.capacity n = false := by
  by_cases hle : n ≤ j.capacity
  · have hr : reserve al j n = .ok (.succ, j) := if_pos hle
    have hg := @reserve_spec al j hb n hn
    rw [hr] at hg
    refine .inr ⟨j, hr, hg, (if_pos hle).symm, fun R _ => ?_⟩
    rw [refusesAt, decide_eq_false (Nat.not_lt.mpr hle), Bool.false_and]
  · obtain ⟨cap, hcap⟩ := growCap_total (Nat.le_max_right j.capacity minCap) hlim
    have hafter : capAfter j.capacity n = cap := by rw [capAfter, if_neg hle, hcap]
    have hlt : j.capacity < n := Nat.lt_of_not_le hle
    have hspec := @reserve_spec al j hb n hn
    have hr : reserve al j n = match al.realloc j.data cap with
      | none => .ok (.err, j)
      | some tmp => .ok (.succ, { j with data := some tmp, capacity := cap }) := by
      rw [reserve, if_neg hle, reservealways, hcap]
      rfl
    rcases ha : al.realloc j.data cap with _ | tmp
    · rw [ha] at hr
      refine .inl ⟨hr, ⟨hlt, cap, hcap, ha⟩, fun R hR => ?_⟩
      rw [refusesAt, decide_eq_true hlt, hafter, (hR _ _).mp ha]
      rfl
    · rw [ha] at hr
      rw [hr] at hspec
      refine .inr ⟨_, hr, hspec, hafter.symm, fun R hR => ?_⟩
      have hno : R cap = false := by
        rw [← Bool.not_eq_true, ← hR j.data cap, ha]
        exact Option.some_ne_none tmp
      rw [refusesAt, hafter, hno, Bool.and_false]

theorem reserveexactalways_eq {al : Alloc} {j : JstrTy} {n : Nat} (hn : n ≠ 0) :
    reserveexactalways al j n
      = match al.realloc j.data n with
        | none => .ok (.err, { j with capacity := n })
        | some tmp => .ok (.succ, { j with data := some tmp, capacity := n }) := by
  rw [reserveexactalways, if_pos hn]

theorem reserveexactalways_spec {al : Alloc} {j j' : JstrTy} {n : Nat} {r : RetTy}
    (h : reserveexactalways al j n = .ok (r, j')) :
    (n = 0 ∧ r = .succ ∧ j' = j) ∨
    (n ≠ 0 ∧ al.realloc j.data n = none ∧ r = .err ∧ j' = { j with capacity := n }) ∨
    ∃ tmp, n ≠ 0 ∧ al.realloc j.data n = some tmp ∧ r = .succ ∧
      j' = { j with data := some tmp, capacity := n } := by
  rw [reserveexactalways] at h
  split at h
  · rename_i hn
    simp only at h
    rcases hr : al.realloc j.data n with _ | tmp
    · rw [hr] at h
      cases h
      exact .inr (.inl ⟨hn, rfl, rfl, rfl⟩)
    · rw [hr] at h
      cases h
      exact .inr (.inr ⟨tmp, hn, rfl, rfl, rfl⟩)
  · rename_i hn
    cases h
    exact .inl ⟨not_not.mp hn, rfl, rfl⟩

/-! ## The content of a record -/

/-- The record's block is `b`, its content `l`, with a byte to spare. -/
structure Holds (j : JstrTy) (b : Blk) (l : Bytes) : Prop where
  data : j.data = some b
  backed : b.size = j.capacity
  size : j.size = l.length
  lt : l.length < b.size
  content : b.At b.addr l

/-- Not allocated yet and empty, or a block with content `l`. -/
def Content (j : JstrTy) (l : Bytes) : Prop :=
  (j = JstrTy.init ∧ l = []) ∨ ∃ b, Holds j b l

/-- `data[size]` is the terminator, once there is a block. -/
def Ended (j : JstrTy) : Prop := j.data = none ∨ j.byte? j.size = some 0

/-- The record holds the NUL-terminated string `l`. -/
def Str (j : JstrTy) (l : Bytes) : Prop :=
  ∃ b, j.data = some b ∧ b.size = j.capacity ∧ j.size = l.length ∧ b.At b.addr (l ++ [0])

theorem Holds.ended_iff {j : JstrTy} {b : Blk} {l : Bytes} (h : Holds j b l) :
    Ended j ↔ b.At b.addr (l ++ [0]) := by
  rw [Ended, JstrTy.byte?, h.data, Option.bind_some, h.size, Memory.Block.at_append,
    Memory.Block.at_singleton]
  refine ⟨fun ht => ⟨h.content, ⟨Nat.le_add_right _ _, ?_⟩, ?_⟩, fun ht => .inr ht.2.2⟩
  · have := h.lt
    omega
  · exact ht.resolve_left (by simp)

theorem Str.holds {j : JstrTy} {l : Bytes} (h : Str j l) :
    ∃ b, Holds j b l ∧ b.At b.addr (l ++ [0]) := by
  obtain ⟨b, hd, hb, hs, hat⟩ := h
  have hr := hat.inRange.2
  rw [List.length_append, List.length_singleton] at hr
  exact ⟨b, ⟨hd, hb, hs, by omega, hat.left⟩, hat⟩

theorem Str.content {j : JstrTy} {l : Bytes} (h : Str j l) : Content j l := by
  obtain ⟨b, hb, _⟩ := h.holds
  exact .inr ⟨b, hb⟩

theorem Str.ended {j : JstrTy} {l : Bytes} (h : Str j l) : Ended j := by
  obtain ⟨b, hb, hat⟩ := h.holds
  exact hb.ended_iff.mpr hat

theorem Str.unique {j : JstrTy} {l l' : Bytes} (h : Str j l) (h' : Str j l') : l = l' := by
  obtain ⟨b, hd, -, hsz, hat⟩ := h
  obtain ⟨b', hd', -, hsz', hat'⟩ := h'
  rw [hd] at hd'
  cases hd'
  exact hat.left.eq_of_length hat'.left (hsz.symm.trans hsz')

theorem Content.str {j : JstrTy} {l : Bytes} (h : Content j l) (hd : j.data ≠ none)
    (he : Ended j) : Str j l := by
  rcases h with ⟨rfl, rfl⟩ | ⟨b, hb⟩
  · exact absurd rfl hd
  · exact ⟨b, hb.data, hb.backed, hb.size, hb.ended_iff.mp he⟩

theorem Content.size {j : JstrTy} {l : Bytes} (h : Content j l) : j.size = l.length := by
  rcases h with ⟨rfl, rfl⟩ | ⟨b, hb⟩
  · rfl
  · exact hb.size

theorem Content.backed {j : JstrTy} {l : Bytes} (h : Content j l) : Backed j := by
  rcases h with ⟨rfl, rfl⟩ | ⟨b, hb⟩
  · rfl
  · rw [Backed, hb.data]
    exact hb.backed

theorem Content.size_le {j : JstrTy} {l : Bytes} (h : Content j l) : j.size ≤ j.capacity := by
  rcases h with ⟨rfl, rfl⟩ | ⟨b, hb⟩
  · exact le_refl 0
  · rw [hb.size, ← hb.backed]
    exact Nat.le_of_lt hb.lt

/-- The byte behind the content, whatever it is. -/
theorem Holds.next {j : JstrTy} {b : Blk} {l : Bytes} (h : Holds j b l) :
    ∃ x, b.At b.addr (l ++ [x]) := by
  have hlt := h.lt
  obtain ⟨hlen, hat⟩ := @Memory.Block.at_slice _ b (b.addr + l.length) 1
    ⟨Nat.le_add_right _ _, by omega⟩
  obtain ⟨x, hx⟩ := List.length_eq_one_iff.mp hlen
  rw [hx] at hat
  exact ⟨x, Memory.Block.at_append.mpr ⟨h.content, hat⟩⟩

/-- Growing keeps the content. -/
theorem Content.grown {j j' : JstrTy} {l : Bytes} {n : Nat} (h : Content j l)
    (hg : Grown j n j') (hn : l.length < n) : ∃ b, Holds j' b l ∧ n ≤ b.size := by
  obtain ⟨b', hd, hb, hn'⟩ := hg.room
  refine ⟨b', ⟨hd, hb, by rw [hg.size, h.size], by omega, ?_⟩, hn'⟩
  rcases h with ⟨rfl, rfl⟩ | ⟨b, hh⟩
  · exact Memory.Block.at_nil ⟨le_refl _, Nat.le_add_right _ _⟩
  · exact (hg.keeps b b' hh.data hd).2 l hh.content

/-- Growing keeps the terminator too. -/
theorem Str.grown {j j' : JstrTy} {l : Bytes} {n : Nat} (h : Str j l) (hg : Grown j n j') :
    Str j' l ∧ ∃ b, j'.data = some b ∧ n ≤ b.size := by
  obtain ⟨b, hd, hb, hs, hat⟩ := h
  obtain ⟨b', hd', hb', hn'⟩ := hg.room
  exact ⟨⟨b', hd', hb', by rw [hg.size, hs], (hg.keeps b b' hd hd').2 _ hat⟩, b', hd', hn'⟩

/-- `j'` holds what `j` holds, and its terminator. -/
structure Kept (j j' : JstrTy) : Prop where
  content : ∀ l, Content j l → Content j' l
  str : ∀ l, Str j l → Str j' l

theorem Kept.refl (j : JstrTy) : Kept j j := ⟨fun _ h => h, fun _ h => h⟩

theorem Grown.kept {j j' : JstrTy} {n : Nat} (h : Grown j n j') (hn : 0 < n) : Kept j j' := by
  refine ⟨fun l hc => ?_, fun l hs => (hs.grown h).1⟩
  obtain ⟨b', hd, hb, hn'⟩ := h.room
  rcases hc with ⟨rfl, rfl⟩ | ⟨b, hh⟩
  · exact .inr ⟨b', hd, hb, h.size, by rw [List.length_nil]; omega,
      Memory.Block.at_nil ⟨le_refl _, Nat.le_add_right _ _⟩⟩
  · obtain ⟨hle, hat⟩ := h.keeps b b' hh.data hd
    exact .inr ⟨b', hd, hb, by rw [h.size, hh.size], by have := hh.lt; omega, hat l hh.content⟩

/-- A block of an exact size keeps what fits, with the terminator. -/
theorem kept_exact {al : Alloc} {j : JstrTy} {n : Nat} {tmp : Blk} (hn : j.size < n)
    (hr : al.realloc j.data n = some tmp) : Kept j { j with data := some tmp, capacity := n } := by
  have hsz := al.size_eq hr
  refine ⟨fun l hc => ?_, fun l ⟨b, hd, hb, hs, hat⟩ => ?_⟩
  · rcases hc with ⟨rfl, rfl⟩ | ⟨b, hh⟩
    · exact .inr ⟨tmp, rfl, hsz, rfl, by rw [List.length_nil]; omega,
        Memory.Block.at_nil ⟨le_refl _, Nat.le_add_right _ _⟩⟩
    · have hs := hh.size
      rw [hh.data] at hr
      refine .inr ⟨tmp, rfl, hsz, hs, by omega, ?_⟩
      exact @Alloc.keeps_at al b tmp n hr 0 l hh.content (by omega)
  · rw [hd] at hr
    refine ⟨tmp, rfl, hsz, hs, @Alloc.keeps_at al b tmp n hr 0 _ hat ?_⟩
    rw [List.length_append, List.length_singleton]
    omega

/-! ## What each call leaves -/

/-- `b'` is `b` with the terminated string `l` at its start. -/
structure Stores (b : Blk) (l : Bytes) (b' : Blk) : Prop where
  addr : b'.addr = b.addr
  size : b'.size = b.size
  content : b'.At b.addr (l ++ [0])

theorem Stores.str {j : JstrTy} {b b' : Blk} {l : Bytes} (h : Stores b l b')
    (hb : b.size = j.capacity) :
    Str { j with data := some b', size := l.length } l :=
  ⟨b', rfl, by rw [h.size, hb], rfl, by rw [h.addr]; exact h.content⟩

/-- The rule for `growBy`: what its body does to a block with room. -/
theorem growBy_spec {al : Alloc} {j : JstrTy} {l l' : Bytes} {n : Nat}
    {f : Blk → Nat → Run (Blk × Nat)} (hc : Content j l) (hfit : l.length + n + 1 ≤ sizeMax)
    (hf : ∀ b : Blk, l.length + n + 1 ≤ b.size → b.At b.addr l →
      ∃ b', f b l.length = .ok (b', b.addr + l'.length) ∧ Stores b l' b') :
    Safe j (fun j' => Str j' l') (growBy al j n f) := by
  rw [growBy, hc.size, @addSz_eq l.length n (by omega), addSz_eq hfit]
  refine (reserve_spec hc.backed (Nat.succ_pos _)).orErr fun j' hg => ?_
  obtain ⟨b, hh, hroom⟩ := hc.grown hg (by omega)
  obtain ⟨b', he, hs⟩ := hf b hroom hh.content
  refine ⟨_, ?_, hs.str hh.backed⟩
  simp only [JstrTy.deref, hh.data, hh.size, he, bind, Except.bind,
    subSz_eq (Nat.le_add_right b.addr _), Nat.add_sub_cancel_left]

/-- A terminated string written over the whole block. -/
theorem stores_all {b : Blk} {m : Bytes} (hr : m.length + 1 ≤ b.size) :
    Stores b m (b.put b.addr (m ++ [0])) :=
  ⟨rfl, Memory.Block.put_size _ _ _,
    Memory.Block.at_put ⟨le_refl _, by rw [List.length_append, List.length_singleton]; omega⟩⟩

/-- A terminated string written behind the content. -/
theorem stores_back {b : Blk} {l m : Bytes} (hat : b.At b.addr l)
    (hr : l.length + m.length + 1 ≤ b.size) :
    Stores b (l ++ m) (b.put (b.addr + l.length) (m ++ [0])) := by
  refine ⟨rfl, Memory.Block.put_size _ _ _, ?_⟩
  rw [List.append_assoc]
  refine Memory.Block.at_append.mpr ⟨hat.put_of_disjoint (.inl (le_refl _)), ?_⟩
  refine Memory.Block.at_put ⟨Nat.le_add_right _ _, ?_⟩
  rw [List.length_append, List.length_singleton]
  omega

/-- The content moved up with its terminator, then the front written. -/
theorem stores_front {b : Blk} {l m : Bytes} (hr : l.length + m.length + 1 ≤ b.size) :
    Stores b (m ++ l) ((b.put (b.addr + m.length) (l ++ [0])).put b.addr m) := by
  refine ⟨rfl, by rw [Memory.Block.put_size, Memory.Block.put_size], ?_⟩
  rw [List.append_assoc]
  have hup : (b.put (b.addr + m.length) (l ++ [0])).At (b.addr + m.length) (l ++ [0]) := by
    refine Memory.Block.at_put ⟨Nat.le_add_right _ _, ?_⟩
    rw [List.length_append, List.length_singleton]
    omega
  refine Memory.Block.at_append.mpr ⟨Memory.Block.at_put ⟨?_, ?_⟩,
    hup.put_of_disjoint (.inr (le_refl _))⟩
  · rw [Memory.Block.put_addr]
  · rw [Memory.Block.put_addr, Memory.Block.put_size]
    omega

theorem appendLen_spec {al : Alloc} {j : JstrTy} {l src : Bytes} (hc : Content j l)
    (hfit : l.length + src.length + 1 ≤ sizeMax) :
    Safe j (fun j' => Str j' (l ++ src)) (appendLen al j src) := by
  refine growBy_spec hc hfit fun b hroom hat => ?_
  refine ⟨_, ?_, stores_back hat hroom⟩
  rw [appendLenUnsafeP, stpcpyLen_eq ⟨Nat.le_add_right _ _, by omega⟩, List.length_append,
    Nat.add_assoc]

theorem pushback_spec {al : Alloc} {j : JstrTy} {l : Bytes} (c : UInt8) (hc : Content j l)
    (hfit : l.length + 1 + 1 ≤ sizeMax) :
    Safe j (fun j' => Str j' (l ++ [c])) (pushback al j c) := by
  refine growBy_spec hc hfit fun b hroom hat => ?_
  refine ⟨_, ?_, stores_back hat hroom⟩
  rw [pushbackUnsafeP, Blk.write_eq ⟨Nat.le_add_right _ _,
    by rw [List.length_singleton]; omega⟩]
  have hw := @Blk.write_put b (b.addr + l.length) [c] [0]
    ⟨Nat.le_add_right _ _, by rw [List.length_singleton, List.length_singleton]; omega⟩
  simp only [List.length_singleton] at hw
  simp only [bind, Except.bind, hw, List.length_append, List.length_singleton, ← Nat.add_assoc]

theorem pushfrontnLenUnsafeP_eq {b : Blk} {l : Bytes} {c : UInt8} {n : Nat}
    (hat : b.At b.addr l) (hr : l.length + n + 1 ≤ b.size) :
    ∃ b', pushfrontnLenUnsafeP c n b l.length
        = .ok (b', b.addr + (List.replicate n c ++ l).length) ∧
      Stores b (List.replicate n c ++ l) b' := by
  have hlen : (List.replicate n c).length = n := List.length_replicate
  refine ⟨_, ?_, @stores_front b l (List.replicate n c) (by omega)⟩
  rw [pushfrontnLenUnsafeP, strmoveLen_eq hat rfl ⟨Nat.le_add_right _ _, by omega⟩, hlen]
  simp only [bind, Except.bind]
  rw [mempset_eq ⟨by rw [Memory.Block.put_addr],
    by rw [Memory.Block.put_addr, Memory.Block.put_size]; omega⟩]
  simp only [Memory.Block.put_addr, List.length_append, hlen, Nat.add_assoc]

theorem pushfrontn_spec {al : Alloc} {j : JstrTy} {l : Bytes} (c : UInt8) {n : Nat}
    (hc : Content j l) (hfit : l.length + n + 1 ≤ sizeMax) :
    Safe j (fun j' => Str j' (List.replicate n c ++ l)) (pushfrontn al j c n) :=
  growBy_spec hc hfit fun _ hroom hat => pushfrontnLenUnsafeP_eq hat hroom

theorem pushfront_spec {al : Alloc} {j : JstrTy} {l : Bytes} (c : UInt8) (hc : Content j l)
    (hfit : l.length + 1 + 1 ≤ sizeMax) :
    Safe j (fun j' => Str j' (c :: l)) (pushfront al j c) := by
  refine growBy_spec hc hfit fun b hroom hat => ?_
  refine ⟨_, ?_, @stores_front b l [c] hroom⟩
  rw [pushfrontUnsafeP, strmoveLen_eq hat rfl ⟨Nat.le_add_right _ _, by omega⟩]
  simp only [bind, Except.bind]
  rw [Blk.write_eq ⟨by rw [Memory.Block.put_addr],
    by rw [Memory.Block.put_addr, Memory.Block.put_size, List.length_singleton]; omega⟩]
  simp only [Memory.Block.put_addr, List.length_cons, Nat.add_assoc]
  rfl

theorem prependLen_spec {al : Alloc} {j : JstrTy} {l src : Bytes} (hc : Content j l)
    (hfit : l.length + src.length + 1 ≤ sizeMax) :
    Safe j (fun j' => Str j' (src ++ l)) (prependLen al j src) := by
  refine growBy_spec hc hfit fun b hroom hat => ?_
  refine ⟨_, ?_, @stores_front b l src hroom⟩
  have hw : Blk.write (b.put (b.addr + src.length) (l ++ [0])) b.addr src
      = .ok ((b.put (b.addr + src.length) (l ++ [0])).put b.addr src) :=
    Blk.write_eq ⟨by rw [Memory.Block.put_addr],
      by rw [Memory.Block.put_addr, Memory.Block.put_size]; omega⟩
  rw [prependLenUnsafeP, List.length_append, Nat.add_comm src.length, ← Nat.add_assoc]
  split
  · rw [strmoveLen_eq hat rfl ⟨Nat.le_add_right _ _, by omega⟩]
    simp only [bind, Except.bind, Memory.Block.put_addr, hw]
  · rename_i h0
    have hl := List.length_eq_zero_iff.mp (not_not.mp h0)
    subst hl
    rw [Blk.write_eq ⟨Nat.le_add_right _ _, by rw [List.length_singleton]; omega⟩]
    simp only [List.nil_append] at hw ⊢
    simp only [bind, Except.bind, Memory.Block.put_addr, hw]

theorem assignLen_spec {al : Alloc} {j : JstrTy} {l src : Bytes} (hc : Content j l)
    (hfit : l.length + src.length + 1 ≤ sizeMax) :
    Safe j (fun j' => Str j' src) (assignLen al j src) := by
  rw [assignLen, hc.size, @addSz_eq l.length src.length (by omega), addSz_eq hfit]
  refine (reserve_spec hc.backed (Nat.succ_pos _)).orErr fun j' hg => ?_
  obtain ⟨b, hh, hroom⟩ := hc.grown hg (by omega)
  refine ⟨_, ?_, (@stores_all b src (by omega)).str hh.backed⟩
  simp only [JstrTy.deref, hh.data, bind, Except.bind]
  rw [strcpyLen_eq ⟨le_refl _, by omega⟩]

theorem assignnchr_spec {al : Alloc} {j : JstrTy} {l : Bytes} (c : UInt8) {n : Nat}
    (hc : Content j l) (hfit : n + 1 ≤ sizeMax) (hnull : n = 0 → j.data ≠ none) :
    Safe j (fun j' => Str j' (List.replicate n c)) (assignnchr al j c n) := by
  have hres : Safe j (fun j' => ∃ b, j'.data = some b ∧ b.size = j'.capacity ∧ n + 1 ≤ b.size)
      (if j.size < n then reservealways al j (addSz n 1) else .ok (.succ, j)) := by
    split
    · rw [addSz_eq hfit]
      exact (reservealways_spec hc.backed _).mono fun j' hg =>
        (hg.mono (Nat.le_max_left _ _)).room
    · rename_i hle
      rcases hc with ⟨rfl, rfl⟩ | ⟨b, hh⟩
      · exact absurd rfl (hnull (by simp only [JstrTy.init] at hle; omega))
      · exact ⟨b, hh.data, hh.backed, by have := hh.lt; have := hh.size; omega⟩
  rw [assignnchr]
  refine hres.orErr fun j' ⟨b, hd, hb, hroom⟩ => ?_
  have hlen : (List.replicate n c).length = n := List.length_replicate
  have hs := (@stores_all b (List.replicate n c) (by omega)).str hb
  rw [hlen] at hs
  refine ⟨_, ?_, hs⟩
  simp only [JstrTy.deref, hd, bind, Except.bind]
  rw [Blk.write_eq ⟨le_refl _, by omega⟩]
  have hw := @Blk.write_put b b.addr (List.replicate n c) [0]
    ⟨le_refl _, by rw [hlen, List.length_singleton]; omega⟩
  rw [hlen] at hw
  simp only [Memory.Block.put_addr, hw]

/-- Pushing back without a terminator ends the string when the byte that
becomes the last one is 0 already and the block does not move. -/
theorem pushbackn_spec {al : Alloc} {j : JstrTy} {l : Bytes} (c : UInt8) {n : Nat}
    (hc : Content j l) (hfit : l.length + n + 1 ≤ sizeMax) (hroom : l.length + n < j.capacity)
    (hz : j.byte? (l.length + n) = some 0) :
    Safe j (fun j' => Str j' (l ++ List.replicate n c)) (pushbackn al j c n) := by
  rcases hc with ⟨rfl, rfl⟩ | ⟨b, hh⟩
  · exact absurd hroom (Nat.not_lt_zero _)
  have hlen : (List.replicate n c).length = n := List.length_replicate
  have hb := hh.backed
  rw [pushbackn, growBy, hh.size, @addSz_eq l.length n (by omega), addSz_eq hfit, reserve,
    if_pos (by omega)]
  refine Safe.orErr (show Safe j (fun j' => j' = j) _ from rfl) fun j' hj => ?_
  subst hj
  rw [JstrTy.byte?, hh.data, Option.bind_some] at hz
  have hin : b.InRange (b.addr + l.length) n := ⟨Nat.le_add_right _ _, by omega⟩
  refine ⟨{ j' with
    data := some (b.put (b.addr + l.length) (List.replicate n c)), size := l.length + n },
    ?_, _, rfl, ?_, ?_, ?_⟩
  · simp only [JstrTy.deref, hh.data, hh.size, bind, Except.bind, pushbacknLenUnsafeP,
      mempset_eq hin, Nat.add_assoc, subSz_eq (Nat.le_add_right b.addr _),
      Nat.add_sub_cancel_left]
  · rw [Memory.Block.put_size, hb]
  · rw [List.length_append, hlen]
  · rw [List.append_assoc]
    refine Memory.Block.at_append.mpr ⟨hh.content.put_of_disjoint (.inl (le_refl _)), ?_⟩
    refine Memory.Block.at_append.mpr ⟨Memory.Block.at_put (by rwa [hlen]), ?_⟩
    refine Memory.Block.At.put_of_disjoint (Memory.Block.at_singleton.mpr ⟨⟨?_, ?_⟩, ?_⟩)
      (.inr (le_refl _))
    · rw [Memory.Block.put_addr]; omega
    · rw [hlen, Memory.Block.put_addr]; omega
    · rwa [hlen, Memory.Block.put_addr, Nat.add_assoc]

/-! ### Concatenation -/

theorem catArgs_eq {b : Blk} {p : Nat} {args : List Bytes} :
    ∀ {m : Bytes}, b.InRange p (m.length + args.flatten.length) →
      catArgs (b.put p m) (p + m.length) args
        = .ok (b.put p (m ++ args.flatten), p + m.length + args.flatten.length) := by
  induction args with
  | nil =>
      intro m _
      simp [catArgs]
  | cons a args ih =>
      intro m h
      rw [List.flatten_cons, List.length_append] at h
      have hw : Blk.write (b.put p m) (p + m.length) a = .ok (b.put p (m ++ a)) :=
        Blk.write_put ⟨h.1, by have := h.2; omega⟩
      rw [catArgs, hw]
      show catArgs (b.put p (m ++ a)) (p + m.length + a.length) args = _
      have := @ih (m ++ a) ⟨h.1, by rw [List.length_append]; have := h.2; omega⟩
      rw [List.length_append, ← Nat.add_assoc] at this
      rw [this, List.flatten_cons, List.append_assoc, List.length_append, ← Nat.add_assoc]

theorem cat_total {args : List Bytes} :
    ∀ {t : Nat}, t + args.flatten.length ≤ sizeMax →
      args.foldl (fun t a => addSz t a.length) t = t + args.flatten.length := by
  induction args with
  | nil => intro t _; rfl
  | cons a args ih =>
      intro t h
      rw [List.flatten_cons, List.length_append] at h
      rw [List.foldl_cons, addSz_eq (by omega), ih (by omega), List.flatten_cons,
        List.length_append, Nat.add_assoc]

/-- With nothing to add `jstr_cat` returns at once, terminator or not. -/
theorem cat_spec {al : Alloc} {j : JstrTy} {l : Bytes} {args : List Bytes} (hc : Content j l)
    (hfit : l.length + args.flatten.length + 1 ≤ sizeMax)
    (he : args.flatten = [] → Ended j) :
    Safe j (fun j' => Content j' (l ++ args.flatten) ∧ Ended j') (cat al j args) := by
  rw [cat, cat_total (by omega), Nat.zero_add]
  simp only
  split
  · rename_i h0
    have hnil := List.length_eq_zero_iff.mp h0
    rw [hnil, List.append_nil]
    exact ⟨hc, he hnil⟩
  · rw [hc.size, @addSz_eq l.length _ (by omega), addSz_eq hfit]
    refine (reserve_spec hc.backed (Nat.succ_pos _)).orErr fun j' hg => ?_
    obtain ⟨b, hh, hroom⟩ := hc.grown hg (by omega)
    have hs := (stores_back hh.content hroom).str hh.backed
    rw [List.length_append] at hs
    refine ⟨_, ?_, hs.content, hs.ended⟩
    have hargs := @catArgs_eq b (b.addr + l.length) args []
      ⟨Nat.le_add_right _ _, by rw [List.length_nil, Nat.zero_add]; omega⟩
    rw [Blk.put_nil, List.length_nil, Nat.add_zero, List.nil_append] at hargs
    have hw := @Blk.write_put b (b.addr + l.length) args.flatten [0]
      ⟨Nat.le_add_right _ _, by rw [List.length_singleton]; omega⟩
    simp only [JstrTy.deref, hh.data, hh.size, bind, Except.bind, hargs, hw,
      @addSz_eq l.length args.flatten.length (by omega)]

/-! ### Insertion and the pops -/

/-- The tail is moved up with the byte behind the content, whatever it is. -/
theorem insertUnsafe_spec {b : Blk} {l src : Bytes} {x : UInt8} {at' : Nat}
    (hat : b.At b.addr (l ++ [x])) (hat' : at' ≤ l.length)
    (hroom : l.length + src.length + 1 ≤ b.size) (hfit : l.length + 1 ≤ sizeMax) :
    ∃ b', insertUnsafe b l.length at' src = .ok b' ∧ b'.addr = b.addr ∧ b'.size = b.size ∧
      b'.At b.addr (l.take at' ++ src ++ l.drop at' ++ [x]) := by
  have hdrop : b.At (b.addr + at') (l.drop at' ++ [x]) := by
    have := hat.drop (show at' ≤ (l ++ [x]).length by rw [List.length_append]; omega)
    rwa [List.drop_append_of_le_length hat'] at this
  have hlen : (l.drop at' ++ [x]).length = l.length - at' + 1 := by
    rw [List.length_append, List.length_drop, List.length_singleton]
  have hup : b.InRange (b.addr + at' + src.length) (l.length - at' + 1) :=
    ⟨by omega, by omega⟩
  refine ⟨(b.put (b.addr + at' + src.length) (l.drop at' ++ [x])).put (b.addr + at') src,
    ?_, rfl, ?_, ?_⟩
  · simp only [bind, Except.bind, insertUnsafe, subSz_eq hat', @addSz_eq (l.length - at') 1
      (by omega), Blk.memmove_eq hdrop hlen hup, Memory.Block.put_addr]
    rw [Blk.write_eq ⟨by rw [Memory.Block.put_addr]; omega,
      by rw [Memory.Block.put_addr, Memory.Block.put_size]; omega⟩]
  · rw [Memory.Block.put_size, Memory.Block.put_size]
  · have htake : (l.take at').length = at' := by rw [List.length_take]; omega
    rw [List.append_assoc, List.append_assoc]
    refine Memory.Block.at_append.mpr ⟨?_, ?_⟩
    · refine ((hat.left.take at').put_of_disjoint (.inl ?_)).put_of_disjoint (.inl ?_)
      · rw [htake]; omega
      · rw [htake]
    · rw [htake]
      refine Memory.Block.at_append.mpr ⟨Memory.Block.at_put ⟨?_, ?_⟩, ?_⟩
      · rw [Memory.Block.put_addr]; omega
      · rw [Memory.Block.put_addr, Memory.Block.put_size]; omega
      · exact (Memory.Block.at_put (by rwa [hlen])).put_of_disjoint (.inr (le_refl _))

/-- The terminator is moved, not written, so it has to be there. -/
theorem insertLen_spec {al : Alloc} {j : JstrTy} {l src : Bytes} {at' : Nat} (hs : Str j l)
    (hfit : l.length + src.length + 1 ≤ sizeMax) (hat' : at' ≤ l.length) :
    Safe j (fun j' => Str j' (l.take at' ++ src ++ l.drop at')) (insertLen al j at' src) := by
  have hc := hs.content
  rw [insertLen, hc.size, @addSz_eq l.length src.length (by omega), addSz_eq hfit]
  refine (reserve_spec hc.backed (Nat.succ_pos _)).orErr fun j' hg => ?_
  obtain ⟨⟨b, hd, hb, hsz, hat⟩, b', hd', hroom⟩ := hs.grown hg
  rw [hd] at hd'
  cases hd'
  obtain ⟨b', hins, haddr, hsize, hat₂⟩ := insertUnsafe_spec hat hat' hroom (by omega)
  refine ⟨{ j' with data := some b', size := l.length + src.length }, ?_, b', rfl, ?_, ?_, ?_⟩
  · simp only [JstrTy.deref, hd, hsz, bind, Except.bind, hins,
      @addSz_eq l.length src.length (by omega)]
  · rw [hsize, hb]
  · simp only [List.length_append, List.length_take, List.length_drop]
    omega
  · rw [haddr]
    exact hat₂

/-- The rule for `popWith`: nothing happens to an empty string. -/
theorem popWith_spec {j : JstrTy} {l l' : Bytes} {f : Blk → Nat → Run (Blk × Nat)}
    (hc : Content j l) (he : l = [] → l' = [] ∧ Ended j)
    (hf : ∀ b, Holds j b l → l ≠ [] →
      ∃ b', f b l.length = .ok (b', b.addr + l'.length) ∧ Stores b l' b') :
    Safe j (fun j' => Content j' l' ∧ Ended j') (popWith j f) := by
  rw [popWith]
  split
  · rename_i hne
    rw [hc.size] at hne
    have hl : l ≠ [] := fun h => hne (by rw [h]; rfl)
    obtain ⟨b, hh⟩ := hc.resolve_left fun h => hl h.2
    obtain ⟨b', heq, hs⟩ := hf b hh hl
    have := hs.str hh.backed
    simp only [JstrTy.deref, hh.data, hh.size, heq, bind, Except.bind,
      subSz_eq (Nat.le_add_right b.addr _), Nat.add_sub_cancel_left]
    exact ⟨this.content, this.ended⟩
  · rename_i h0
    rw [hc.size] at h0
    have hl := List.length_eq_zero_iff.mp (not_not.mp h0)
    have hj : ({ j with size := 0 } : JstrTy) = j := by
      rw [← List.length_eq_zero_iff.mpr hl, ← hc.size]
    rw [hj, (he hl).1]
    exact ⟨hl ▸ hc, (he hl).2⟩

theorem popbackP_spec {j : JstrTy} {l : Bytes} (hc : Content j l) (he : l = [] → Ended j) :
    Safe j (fun j' => Content j' l.dropLast ∧ Ended j') (popbackP j) := by
  refine popWith_spec hc (fun h => ⟨by rw [h]; rfl, he h⟩) fun b hh hl => ?_
  obtain ⟨l', c, rfl⟩ : ∃ l' c, l = l' ++ [c] := by
    rcases List.eq_nil_or_concat l with h | ⟨l', c, h⟩
    · exact absurd h hl
    · exact ⟨l', c, by rw [h, List.concat_eq_append]⟩
  have hlt := hh.lt
  rw [List.length_append, List.length_singleton] at hlt
  have hs := @stores_back b l' [] hh.content.left (by rw [List.length_nil]; omega)
  rw [List.append_nil, List.nil_append] at hs
  rw [List.dropLast_concat]
  refine ⟨_, ?_, hs⟩
  have hp : b.addr + (l' ++ [c]).length - 1 = b.addr + l'.length := by
    rw [List.length_append, List.length_singleton]; omega
  simp only [hp, bind, Except.bind, Memory.Block.put_addr,
    @Blk.write_eq b (b.addr + l'.length) [0]
      ⟨Nat.le_add_right _ _, by rw [List.length_singleton]; omega⟩]

/-- The terminator comes down with the rest, so it has to be there. -/
theorem popfrontP_spec {j : JstrTy} {l : Bytes} (hc : Content j l) (he : Ended j) :
    Safe j (fun j' => Content j' l.tail ∧ Ended j') (popfrontP j) := by
  refine popWith_spec hc (fun h => ⟨by rw [h]; rfl, he⟩) fun b hh hl => ?_
  obtain ⟨c, l', rfl⟩ := List.exists_cons_of_ne_nil hl
  have hlt := hh.lt
  have hat : b.At (b.addr + 1) (l' ++ [0]) := @Memory.Block.At.drop _ b b.addr _ (hh.ended_iff.mp he) 1 (by simp)
  have hlen : (l' ++ [0]).length = l'.length + 1 := List.length_append
  rw [List.length_cons] at hlt
  refine ⟨_, ?_, @stores_all b l' (by omega)⟩
  rw [List.length_cons, Blk.memmove_eq hat hlen ⟨le_refl _, by omega⟩]
  rfl

end Jstr
