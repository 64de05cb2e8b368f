import Jstring.Lib.Block

/-!
# The machine under the string functions

`size_t` and pointers are naturals below `2 ^ 64`; `addSz`/`subSz` are
the wrapping operations, written out only where the source could wrap.
Two views of memory are used:

- `Mem`, the whole address space, read-only, for the search functions
  (they may load bytes around the range they search);
- `Blk`, one allocated block, for the functions that write. Every access
  is checked against the allocation: `Fault.bounds` outside it,
  `Fault.null` through a null pointer.

`Fault.diverge` is a loop that never ends. `Alloc` is one answer of
`realloc`: a block of the requested size holding the old bytes, or
nothing.
-/

namespace Jstr

abbrev Bytes := List UInt8

/-! ## Size arithmetic -/

/-- `SIZE_MAX`, also written `(size_t)-1` in the source. -/
def sizeMax : Nat := 18446744073709551615

/-- `a + b` in `size_t`. -/
def addSz (a b : Nat) : Nat := (a + b) % 18446744073709551616

/-- `a - b` in `size_t`; also `JSTR_DIFF` of two pointers. -/
def subSz (a b : Nat) : Nat := if b ≤ a then a - b else 18446744073709551616 - (b - a)

/-- `a * b` in `size_t`. -/
def mulSz (a b : Nat) : Nat := a * b % 18446744073709551616

theorem addSz_eq {a b : Nat} (h : a + b ≤ sizeMax) : addSz a b = a + b := by
  simp only [sizeMax] at h
  rw [addSz, Nat.mod_eq_of_lt (by omega)]

theorem subSz_eq {a b : Nat} (h : b ≤ a) : subSz a b = a - b := if_pos h

/-- Adding a difference that may be negative. -/
theorem addSz_subSz {a b c : Nat} (hc : c ≤ a) (ha : a ≤ sizeMax)
    (h : a + b - c ≤ sizeMax) : addSz a (subSz b c) = a + b - c := by
  simp only [sizeMax] at ha h
  rw [addSz, subSz]
  split <;> omega

theorem mulSz_eq {a b : Nat} (h : a * b ≤ sizeMax) : mulSz a b = a * b := by
  simp only [sizeMax] at h
  rw [mulSz, Nat.mod_eq_of_lt (by omega)]

/-! ## Outcomes -/

/-- What the model reports instead of a value. -/
inductive Fault where
  /-- an access through a null pointer -/
  | null
  /-- an access outside the allocated block -/
  | bounds
  /-- a loop that never ends -/
  | diverge
  deriving DecidableEq, Repr

abbrev Run (α : Type) := Except Fault α

instance {α : Type} [DecidableEq α] : DecidableEq (Run α)
  | .ok a, .ok b => if h : a = b then isTrue (by rw [h]) else isFalse (by simpa using h)
  | .error a, .error b => if h : a = b then isTrue (by rw [h]) else isFalse (by simpa using h)
  | .ok _, .error _ => isFalse (by simp)
  | .error _, .ok _ => isFalse (by simp)

/-- Whatever `r` returns, if it returns, has `P`. -/
def Ensures {α : Type} (P : α → Prop) (r : Run α) : Prop := ∀ a, r = .ok a → P a

theorem ensures_ok {α : Type} {P : α → Prop} {a : α} (h : P a) : Ensures P (.ok a) := by
  intro a' he
  cases he
  exact h

theorem Ensures.bind {α β : Type} {P : β → Prop} {Q : α → Prop} {r : Run α} {f : α → Run β}
    (h : Ensures Q r) (hf : ∀ a, Q a → Ensures P (f a)) : Ensures P (r >>= f) := by
  rcases r with e | a
  · exact fun _ h => nomatch h
  · exact hf a (h a rfl)

/-- `jstr_ret_ty`. -/
inductive RetTy where
  | err
  | succ
  deriving DecidableEq, Repr

/-! ## The address space, read-only -/

/-- The byte at each address. -/
abbrev Mem := Nat → UInt8

/-- An address space with `l` at address 0 and zeros behind it. -/
def memOf (l : Bytes) : Mem := fun p => l.getD p 0

/-- The bytes from address `p` on are `l`. -/
def MemAt (mem : Mem) (p : Nat) (l : Bytes) : Prop :=
  ∀ i, (h : i < l.length) → mem (p + i) = l[i]

instance (mem : Mem) (p : Nat) (l : Bytes) : Decidable (MemAt mem p l) :=
  inferInstanceAs (Decidable (∀ i, (h : i < l.length) → mem (p + i) = l[i]))

theorem MemAt.getElem? {mem : Mem} {p : Nat} {l : Bytes} (h : MemAt mem p l) {i : Nat}
    (hi : i < l.length) : l[i]? = some (mem (p + i)) := by
  rw [h i hi, List.getElem?_eq_getElem hi]

theorem memAt_append {mem : Mem} {p : Nat} {l m : Bytes} :
    MemAt mem p (l ++ m) ↔ MemAt mem p l ∧ MemAt mem (p + l.length) m := by
  constructor
  · refine fun h => ⟨fun i hi => ?_, fun i hi => ?_⟩
    · rw [h i (by rw [List.length_append]; omega), List.getElem_append_left hi]
    · rw [Nat.add_assoc, h _ (by rw [List.length_append]; omega),
        List.getElem_append_right (by omega)]
      simp
  · rintro ⟨h1, h2⟩ i hi
    by_cases hl : i < l.length
    · rw [h1 i hl, List.getElem_append_left hl]
    · rw [List.length_append] at hi
      rw [List.getElem_append_right (by omega), ← h2 _ (by omega)]
      congr 1; omega

theorem MemAt.drop {mem : Mem} {p : Nat} {l : Bytes} (h : MemAt mem p l) {n : Nat}
    (hn : n ≤ l.length) : MemAt mem (p + n) (l.drop n) := by
  rw [← List.take_append_drop n l] at h
  have := (memAt_append.mp h).2
  rwa [List.length_take, Nat.min_eq_left hn] at this

theorem MemAt.take {mem : Mem} {p : Nat} {l : Bytes} (h : MemAt mem p l) (n : Nat) :
    MemAt mem p (l.take n) := by
  rw [← List.take_append_drop n l] at h
  exact (memAt_append.mp h).1

/-! ## One allocated block -/

abbrev Blk := Memory.Block UInt8

namespace Blk

/-- `memmove` within a block; a move of nothing touches nothing. -/
def memmove (b : Blk) (dst src n : Nat) : Run Blk :=
  if n = 0 then .ok b
  else if b.InRange src n ∧ b.InRange dst n then .ok (b.put dst (b.slice src n))
  else .error .bounds

/-- Store bytes that come from elsewhere: `memcpy`, `memset`, `*dst = c`. -/
def write (b : Blk) (dst : Nat) (l : Bytes) : Run Blk :=
  if l = [] then .ok b
  else if b.InRange dst l.length then .ok (b.put dst l)
  else .error .bounds

/-- `*p`. -/
def read (b : Blk) (p : Nat) : Run UInt8 :=
  match b.cell? p with
  | some c => .ok c
  | none => .error .bounds

theorem put_nil (b : Blk) (p : Nat) : b.put p [] = b := by
  cases b with
  | mk addr cells =>
      simp only [Memory.Block.put, List.getD_nil, ite_self, Memory.Block.mk.injEq, true_and]
      exact List.ext_getElem? fun i => by simp

theorem memmove_eq {b : Blk} {dst src n : Nat} {l : Bytes} (hs : b.At src l)
    (hn : l.length = n) (hd : b.InRange dst n) : b.memmove dst src n = .ok (b.put dst l) := by
  subst hn
  rw [memmove]
  split
  · rename_i h0
    rw [List.length_eq_zero_iff.mp h0, put_nil]
  · rw [if_pos ⟨hs.inRange, hd⟩, Memory.Block.slice_of_at hs]

theorem write_eq {b : Blk} {dst : Nat} {l : Bytes} (hd : b.InRange dst l.length) :
    b.write dst l = .ok (b.put dst l) := by
  rw [write]
  split
  · rename_i h0
    rw [h0, put_nil]
  · rfl

theorem memmove_size (b : Blk) (dst src n : Nat) :
    Ensures (fun b' : Blk => b'.size = b.size) (b.memmove dst src n) := by
  rw [memmove]
  split
  · exact ensures_ok rfl
  · split
    · exact ensures_ok (Memory.Block.put_size _ _ _)
    · exact fun _ h => nomatch h

theorem write_size (b : Blk) (dst : Nat) (l : Bytes) :
    Ensures (fun b' : Blk => b'.size = b.size) (b.write dst l) := by
  rw [write]
  split
  · exact ensures_ok rfl
  · split
    · exact ensures_ok (Memory.Block.put_size _ _ _)
    · exact fun _ h => nomatch h

/-! A write or a move is done, or the block is left. -/

theorem write_cases (b : Blk) (dst : Nat) (l : Bytes) :
    b.write dst l = .error .bounds ∨ ∃ b', b.write dst l = .ok b' ∧ b'.size = b.size := by
  rw [write]
  split
  · exact .inr ⟨b, rfl, rfl⟩
  · split
    · exact .inr ⟨_, rfl, Memory.Block.put_size _ _ _⟩
    · exact .inl rfl

theorem memmove_cases (b : Blk) (dst src n : Nat) :
    b.memmove dst src n = .error .bounds ∨
      ∃ b', b.memmove dst src n = .ok b' ∧ b'.size = b.size := by
  rw [memmove]
  split
  · exact .inr ⟨b, rfl, rfl⟩
  · split
    · exact .inr ⟨_, rfl, Memory.Block.put_size _ _ _⟩
    · exact .inl rfl

/-- A write right behind an overlay extends it. -/
theorem write_put {b : Blk} {p : Nat} {l m : Bytes} (h : b.InRange p (l.length + m.length)) :
    Blk.write (b.put p l) (p + l.length) m = .ok (b.put p (l ++ m)) := by
  obtain ⟨h1, h2⟩ := h
  rw [write_eq ⟨by rw [Memory.Block.put_addr]; omega,
    by rw [Memory.Block.put_addr, Memory.Block.put_size]; omega⟩, Memory.Block.put_append]

theorem read_eq {b : Blk} {p : Nat} {c : UInt8} (h : b.At p [c]) : b.read p = .ok c := by
  rw [read, (Memory.Block.at_singleton.mp h).2]

theorem read_cons {b : Blk} {p : Nat} {c : UInt8} {l : Bytes} (h : b.At p (c :: l)) :
    b.read p = .ok c ∧ b.At (p + 1) l := by
  rw [← List.singleton_append] at h
  exact ⟨read_eq h.left, h.right⟩

/-- Only the terminator reads as NUL. -/
theorem read_text {b : Blk} {p : Nat} {l : Bytes} (hat : b.At p (l ++ [0])) (h0 : 0 ∉ l)
    {k : Nat} (hk : k ≤ l.length) :
    ∃ h, b.read (p + k) = .ok h ∧ (h = 0 ↔ k = l.length) := by
  have hdrop := hat.drop (show k ≤ (l ++ [0]).length by rw [List.length_append]; omega)
  rw [List.drop_append_of_le_length hk] at hdrop
  rcases Nat.lt_or_eq_of_le hk with hlt | rfl
  · rw [List.drop_eq_getElem_cons hlt] at hdrop
    refine ⟨l[k], (read_cons hdrop).1, iff_of_false (fun hz => h0 ?_) (Nat.ne_of_lt hlt)⟩
    exact hz ▸ List.getElem_mem hlt
  · rw [List.drop_length] at hdrop
    exact ⟨0, (read_cons hdrop).1, iff_of_true rfl rfl⟩

end Blk

/-- The address space with the block in it. -/
def Blk.over (env : Mem) (b : Blk) : Mem := fun p => (b.cell? p).getD (env p)

/-- The `n` bytes at `p` lie outside the block. -/
def Apart (b : Blk) (p n : Nat) : Prop := p + n ≤ b.addr ∨ b.addr + b.size ≤ p

theorem memAt_over {env : Mem} {b : Blk} {p : Nat} {l : Bytes} (h : b.At p l) :
    MemAt (b.over env) p l := by
  intro i hi
  rw [Blk.over, h.2 i hi, List.getElem?_eq_getElem hi, Option.getD_some]

theorem memAt_over_of_apart {env : Mem} {b : Blk} {p : Nat} {l : Bytes} (h : MemAt env p l)
    (ha : Apart b p l.length) : MemAt (b.over env) p l := by
  intro i hi
  have hnone : b.cell? (p + i) = none := by
    rw [Memory.Block.cell?]
    rcases ha with hlt | hge
    · rw [if_neg (by omega)]
    · rw [Memory.Block.size] at hge
      split
      · exact List.getElem?_eq_none (by omega)
      · rfl
  rw [Blk.over, hnone, Option.getD_none, h i hi]

/-- What lies behind the bytes written, or outside the block, reads as before. -/
theorem memAt_over_put {env : Mem} {b : Blk} {p s : Nat} {l m : Bytes}
    (h : MemAt (b.over env) s m) (ha : p + l.length ≤ s ∨ Apart b s m.length) :
    MemAt (Blk.over env (b.put p l)) s m := by
  intro i hi
  rw [← h i hi, Blk.over, Blk.over]
  by_cases hin : b.InRange (s + i) 1
  · rw [Memory.Block.cell?_put b p l (s + i) hin, if_neg]
    rintro ⟨-, hlt⟩
    rcases ha with hle | hle | hle
    · omega
    · have := hin.1
      omega
    · have := hin.2
      omega
  · have hnone : ∀ b' : Blk, b'.addr = b.addr → b'.size = b.size → b'.cell? (s + i) = none := by
      intro b' haddr hsize
      rw [Memory.Block.cell?]
      split
      · rename_i hlo
        refine List.getElem?_eq_none ?_
        by_contra hlt
        refine hin ⟨by omega, ?_⟩
        rw [← hsize, Memory.Block.size]
        omega
      · rfl
    rw [hnone b rfl rfl, hnone _ (Memory.Block.put_addr b p l) (Memory.Block.put_size b p l)]

/-! ## The allocator -/

/-- One answer of `realloc`, for every block (none for a null pointer)
and every requested size: a block of that size keeping the old bytes up
to the smaller of the two sizes, or none when it fails. Where the block
lies and what the new bytes hold is left open. -/
structure Alloc where
  realloc : Option Blk → Nat → Option Blk
  size_eq : ∀ {b n b'}, realloc b n = some b' → b'.size = n
  keeps : ∀ {b n b'}, realloc (some b) n = some b' → ∀ i < b.size, i < n →
    b'.cell? (b'.addr + i) = b.cell? (b.addr + i)

theorem filled_size {addr n : Nat} {x : UInt8} {b : Option Blk} {b' : Blk}
    (h : some (⟨addr, ((b.elim [] (·.cells)) ++ List.replicate n x).take n⟩ : Blk) = some b') :
    b'.size = n := by
  cases h
  rw [Memory.Block.size, List.length_take, List.length_append, List.length_replicate]
  omega

theorem filled_keeps {addr n : Nat} {x : UInt8} {b b' : Blk}
    (h : some (⟨addr, (((some b).elim [] (·.cells)) ++ List.replicate n x).take n⟩ : Blk) = some b') :
    ∀ i < b.size, i < n → b'.cell? (b'.addr + i) = b.cell? (b.addr + i) := by
  intro i hi hn
  cases h
  simp only [Memory.Block.cell?, Option.elim_some]
  rw [Memory.Block.size] at hi
  rw [if_pos (Nat.le_add_right _ _), if_pos (Nat.le_add_right _ _), Nat.add_sub_cancel_left,
    Nat.add_sub_cancel_left, List.getElem?_take_of_lt hn, List.getElem?_append_left hi]

/-- An allocator that always answers at `addr`, new bytes being `x`. -/
def Alloc.filling (addr : Nat) (x : UInt8) : Alloc where
  realloc b n := some ⟨addr, ((b.elim [] (·.cells)) ++ List.replicate n x).take n⟩
  size_eq h := filled_size h
  keeps h := filled_keeps h

/-- An allocator out of memory. -/
def Alloc.failing : Alloc where
  realloc _ _ := none
  size_eq h := nomatch h
  keeps h := nomatch h

theorem Alloc.keeps_at {al : Alloc} {b b' : Blk} {n : Nat}
    (h : al.realloc (some b) n = some b') {o : Nat} {l : Bytes}
    (hat : b.At (b.addr + o) l) (hn : o + l.length ≤ n) : b'.At (b'.addr + o) l := by
  have hsz := al.size_eq h
  obtain ⟨⟨h1, h2⟩, h3⟩ := hat
  refine ⟨⟨by omega, by omega⟩, fun i hi => ?_⟩
  rw [Nat.add_assoc, al.keeps h (o + i) (by omega) (by omega), ← Nat.add_assoc, h3 i hi]

end Jstr
