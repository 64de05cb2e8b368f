import Mathlib.Data.List.GetD
import Mathlib.Tactic

/-!
# Blocks of cells at an address

An allocated block is a list of cells placed at an address. Writes go
through `put`, an overlay of a list of cells at an address; reads go
through `cell?`. Both are stated at absolute addresses, so that pointer
arithmetic stays plain arithmetic.

`At b p l` says that the cells from address `p` on are `l`. Two rules
carry every argument about a program that moves cells around:

- `at_put`: after an overlay inside the block, the overlaid list is there;
- `At.put_of_disjoint`: what lies elsewhere stays.

`At` splits along appends (`at_append`), so a block's contents is
described segment by segment, and `At.eq_of_length` reads a segment back.
-/

namespace Memory

variable {α : Type*}

/-- An allocated block: its address and its cells. -/
structure Block (α : Type*) where
  addr : Nat
  cells : List α

namespace Block

/-- The number of cells allocated. -/
def size (b : Block α) : Nat := b.cells.length

/-- The `n` cells from address `p` on lie in the block. -/
def InRange (b : Block α) (p n : Nat) : Prop :=
  b.addr ≤ p ∧ p + n ≤ b.addr + b.size

instance (b : Block α) (p n : Nat) : Decidable (b.InRange p n) :=
  inferInstanceAs (Decidable (_ ∧ _))

def cell? (b : Block α) (a : Nat) : Option α :=
  if b.addr ≤ a then b.cells[a - b.addr]? else none

/-- The `n` cells from address `p` on. -/
def slice (b : Block α) (p n : Nat) : List α :=
  (b.cells.drop (p - b.addr)).take n

/-- Overlay the cells from address `p` on with `l`; what falls outside
the block is dropped. -/
def put (b : Block α) (p : Nat) (l : List α) : Block α where
  addr := b.addr
  cells := b.cells.mapIdx fun i c =>
    if p ≤ b.addr + i then l.getD (b.addr + i - p) c else c

@[simp] theorem put_addr (b : Block α) (p : Nat) (l : List α) :
    (b.put p l).addr = b.addr := rfl

@[simp] theorem put_size (b : Block α) (p : Nat) (l : List α) :
    (b.put p l).size = b.size := by
  simp [put, size]

theorem cell?_put (b : Block α) (p : Nat) (l : List α) (a : Nat)
    (ha : b.InRange a 1) :
    (b.put p l).cell? a
      = if p ≤ a ∧ a < p + l.length then l[a - p]? else b.cell? a := by
  obtain ⟨h1, h2⟩ := ha
  have hi : a - b.addr < b.cells.length := by rw [← size]; omega
  simp only [cell?, put, h1, if_true, List.getElem?_mapIdx,
    List.getElem?_eq_getElem hi, Option.map_some]
  rw [show b.addr + (a - b.addr) = a by omega]
  by_cases hp : p ≤ a
  · by_cases hl : a < p + l.length
    · have hlt : a - p < l.length := by omega
      rw [if_pos hp, List.getD_eq_getElem?_getD, List.getElem?_eq_getElem hlt]
      simp [hp, hl]
    · rw [if_pos hp, List.getD_eq_getElem?_getD, List.getElem?_eq_none (by omega)]
      simp [hl]
  · rw [if_neg hp]
    simp [hp]

/-! ## Contents at an address -/

/-- The cells of `b` from address `p` on are `l`. -/
def At (b : Block α) (p : Nat) (l : List α) : Prop :=
  b.InRange p l.length ∧ ∀ i < l.length, b.cell? (p + i) = l[i]?

theorem At.inRange {b : Block α} {p : Nat} {l : List α} (h : b.At p l) :
    b.InRange p l.length := h.1

theorem slice_of_at {b : Block α} {p : Nat} {l : List α} (h : b.At p l) :
    b.slice p l.length = l := by
  obtain ⟨⟨h1, h2⟩, h3⟩ := h
  apply List.ext_getElem?
  intro i
  rw [slice]
  by_cases hi : i < l.length
  · rw [List.getElem?_take_of_lt hi, List.getElem?_drop, ← h3 i hi, cell?,
      if_pos (by omega), show p + i - b.addr = p - b.addr + i by omega]
  · rw [List.getElem?_take_eq_none (by omega), List.getElem?_eq_none (by omega)]

theorem at_slice {b : Block α} {p n : Nat} (h : b.InRange p n) :
    (b.slice p n).length = n ∧ b.At p (b.slice p n) := by
  obtain ⟨h1, h2⟩ := h
  have hlen : (b.slice p n).length = n := by
    rw [slice, List.length_take, List.length_drop]
    rw [size] at h2; omega
  refine ⟨hlen, ⟨⟨h1, by rw [hlen]; exact h2⟩, fun i hi => ?_⟩⟩
  rw [hlen] at hi
  rw [slice, List.getElem?_take_of_lt hi, List.getElem?_drop, cell?, if_pos (by omega),
    show p + i - b.addr = p - b.addr + i by omega]

theorem At.eq_of_length {b : Block α} {p : Nat} {l l' : List α}
    (h : b.At p l) (h' : b.At p l') (hlen : l.length = l'.length) : l = l' := by
  rw [← slice_of_at h, hlen, slice_of_at h']

theorem at_nil {b : Block α} {p : Nat} (h : b.InRange p 0) : b.At p [] :=
  ⟨h, fun i hi => absurd hi (Nat.not_lt_zero i)⟩

theorem at_append {b : Block α} {p : Nat} {l m : List α} :
    b.At p (l ++ m) ↔ b.At p l ∧ b.At (p + l.length) m := by
  simp only [At, InRange, List.length_append]
  constructor
  · rintro ⟨⟨h1, h2⟩, h3⟩
    refine ⟨⟨⟨h1, by omega⟩, fun i hi => ?_⟩, ⟨⟨by omega, by omega⟩, fun i hi => ?_⟩⟩
    · rw [h3 i (by omega), List.getElem?_append_left hi]
    · rw [Nat.add_assoc, h3 _ (by omega), List.getElem?_append_right (by omega),
        show l.length + i - l.length = i by omega]
  · rintro ⟨⟨⟨h1, h2⟩, h3⟩, ⟨h4, h5⟩, h6⟩
    refine ⟨⟨h1, by omega⟩, fun i hi => ?_⟩
    by_cases hl : i < l.length
    · rw [h3 i hl, List.getElem?_append_left hl]
    · rw [List.getElem?_append_right (by omega), ← h6 _ (by omega),
        show p + l.length + (i - l.length) = p + i by omega]

theorem At.left {b : Block α} {p : Nat} {l m : List α} (h : b.At p (l ++ m)) :
    b.At p l := (at_append.mp h).1

theorem At.right {b : Block α} {p : Nat} {l m : List α} (h : b.At p (l ++ m)) :
    b.At (p + l.length) m := (at_append.mp h).2

theorem At.take {b : Block α} {p : Nat} {l : List α} (h : b.At p l) (n : Nat) :
    b.At p (l.take n) := by
  rw [← List.take_append_drop n l] at h
  exact h.left

theorem At.drop {b : Block α} {p : Nat} {l : List α} (h : b.At p l) {n : Nat}
    (hn : n ≤ l.length) : b.At (p + n) (l.drop n) := by
  rw [← List.take_append_drop n l] at h
  have := h.right
  rwa [List.length_take, Nat.min_eq_left hn] at this

theorem at_singleton {b : Block α} {p : Nat} {c : α} :
    b.At p [c] ↔ b.InRange p 1 ∧ b.cell? p = some c := by
  simp [At]

/-! ## Overlays -/

theorem at_put {b : Block α} {p : Nat} {l : List α} (h : b.InRange p l.length) :
    (b.put p l).At p l := by
  refine ⟨by simpa [InRange] using h, fun i hi => ?_⟩
  rw [cell?_put _ _ _ _ ⟨by have := h.1; omega, by have := h.2; omega⟩,
    if_pos ⟨by omega, by omega⟩, show p + i - p = i by omega]

theorem At.put_of_disjoint {b : Block α} {p q : Nat} {l m : List α} (h : b.At q m)
    (hd : q + m.length ≤ p ∨ p + l.length ≤ q) : (b.put p l).At q m := by
  obtain ⟨⟨h1, h2⟩, h3⟩ := h
  refine ⟨by simpa [InRange] using ⟨h1, h2⟩, fun i hi => ?_⟩
  rw [cell?_put _ _ _ _ ⟨by omega, by omega⟩, if_neg (by omega), h3 i hi]

/-- An overlay in the middle of known contents. -/
theorem At.put_mid {b : Block α} {p : Nat} {x y y' z : List α} (h : b.At p (x ++ y ++ z))
    (hlen : y'.length = y.length) : (b.put (p + x.length) y').At p (x ++ y' ++ z) := by
  have hz := h.right
  have hy := h.left.right
  rw [List.length_append, ← Nat.add_assoc] at hz
  refine at_append.mpr ⟨at_append.mpr ⟨?_, at_put ?_⟩, ?_⟩
  · exact h.left.left.put_of_disjoint (.inl (Nat.le_refl _))
  · rw [hlen]
    exact hy.inRange
  · rw [List.length_append, hlen, ← Nat.add_assoc]
    exact hz.put_of_disjoint (.inr (by omega))

/-- An overlay inside another one. -/
theorem put_put_mid (b : Block α) (p : Nat) {x y y' z : List α} (hlen : y'.length = y.length) :
    (b.put p (x ++ y ++ z)).put (p + x.length) y' = b.put p (x ++ y' ++ z) := by
  obtain ⟨addr, cells⟩ := b
  show Block.mk addr _ = Block.mk addr _
  congr 1
  refine List.ext_getElem? fun i => ?_
  rw [List.getElem?_mapIdx, put, List.getElem?_mapIdx, List.getElem?_mapIdx]
  cases cells[i]? with
  | none => rfl
  | some c =>
      simp only [Option.map_some, Option.some.injEq]
      show (if p + x.length ≤ addr + i then _ else _) = _
      by_cases hp : p ≤ addr + i
      · rw [if_pos hp, if_pos hp]
        by_cases hx : addr + i - p < x.length
        · rw [if_neg (by omega), List.append_assoc, List.append_assoc,
            List.getD_append _ _ _ _ hx, List.getD_append _ _ _ _ hx]
        · rw [if_pos (by omega), show addr + i - (p + x.length) = addr + i - p - x.length by omega,
            List.append_assoc, List.append_assoc, List.getD_append_right x _ c _ (by omega),
            List.getD_append_right x _ c _ (by omega)]
          by_cases hy : addr + i - p - x.length < y'.length
          · rw [List.getD_append _ _ _ _ hy, List.getD_eq_getElem _ _ hy,
              List.getD_eq_getElem _ _ hy]
          · rw [List.getD_eq_default y' _ (by omega), List.getD_append_right y _ c _ (by omega),
              List.getD_append_right y' _ c _ (by omega), hlen]
      · rw [if_neg hp, if_neg hp, if_neg (by omega)]

/-- An overlay with what is there changes nothing. -/
theorem put_of_at {b : Block α} {p : Nat} {l : List α} (h : b.At p l) : b.put p l = b := by
  obtain ⟨addr, cells⟩ := b
  obtain ⟨⟨hlo, hhi⟩, hl⟩ := h
  show Block.mk addr _ = Block.mk addr _
  congr 1
  refine List.ext_getElem? fun i => ?_
  rw [List.getElem?_mapIdx]
  cases hi : cells[i]? with
  | none => rfl
  | some c =>
      simp only [Option.map_some, Option.some.injEq]
      show (if p ≤ addr + i then l.getD (addr + i - p) c else c) = c
      split
      · by_cases hlt : addr + i - p < l.length
        · have hcell := hl (addr + i - p) hlt
          rw [cell?, show p + (addr + i - p) = addr + i by omega, if_pos (Nat.le_add_right _ _),
            Nat.add_sub_cancel_left, hi] at hcell
          rw [List.getD_eq_getElem?_getD, ← hcell, Option.getD_some]
        · rw [List.getD_eq_default _ _ (by omega)]
      · rfl

/-- Two overlays side by side are one. -/
theorem put_append (b : Block α) (p : Nat) (l m : List α) :
    (b.put p l).put (p + l.length) m = b.put p (l ++ m) := by
  obtain ⟨addr, cells⟩ := b
  show Block.mk addr _ = Block.mk addr _
  congr 1
  refine List.ext_getElem? fun i => ?_
  rw [List.getElem?_mapIdx, put, List.getElem?_mapIdx, List.getElem?_mapIdx]
  cases cells[i]? with
  | none => rfl
  | some c =>
      simp only [Option.map_some, Option.some.injEq]
      show (if p + l.length ≤ addr + i then _ else _) = _
      by_cases hp : p ≤ addr + i
      · rw [if_pos hp, if_pos hp]
        by_cases hl : addr + i - p < l.length
        · rw [if_neg (by omega), List.getD_append _ _ _ _ hl]
        · rw [if_pos (by omega), List.getD_eq_default l c (by omega),
            List.getD_append_right l m c _ (by omega),
            show addr + i - (p + l.length) = addr + i - p - l.length by omega]
      · rw [if_neg hp, if_neg hp, if_neg (by omega)]

/-- An overlay that covers the end of another one. -/
theorem put_put_end (b : Block α) (p : Nat) (x : List α) {y z : List α}
    (hle : y.length ≤ z.length) :
    (b.put p (x ++ y)).put (p + x.length) z = b.put p (x ++ z) := by
  have hlen : (z.take y.length).length = y.length := List.length_take_of_le hle
  have hmid := @put_put_mid α b p x y (z.take y.length) [] hlen
  rw [List.append_nil, List.append_nil] at hmid
  have hz : z = z.take y.length ++ z.drop y.length := (List.take_append_drop _ z).symm
  rw [hz, ← put_append, hmid, hlen, Nat.add_assoc, show x.length + y.length
    = (x ++ z.take y.length).length by rw [List.length_append, hlen], put_append,
    List.append_assoc]

end Block

end Memory
