import Mathlib.Data.List.Basic
import Mathlib.Tactic

/-!
# Splicing a list

A list with some of its ranges replaced. The ranges are given in order and
do not overlap (`Ordered`); the result is read off from a position on
(`splice`), so that a program that goes through the list once and writes
the result can be followed edit by edit:

- `splice_cons`: what one edit contributes;
- `splice_skip`: the list before the next edit is copied;
- `splice_self`: edits that put back what was there.
-/

namespace Splice

variable {α : Type*}

/-- The elements from `start` up to `stop` are replaced by `text`. -/
structure Edit (α : Type*) where
  start : Nat
  stop : Nat
  text : List α

/-- From `pos` on and up to `n`, one behind the other. -/
def Ordered (n : Nat) : Nat → List (Edit α) → Prop
  | pos, [] => pos ≤ n
  | pos, e :: es => pos ≤ e.start ∧ e.start ≤ e.stop ∧ Ordered n e.stop es

/-- `t` from `pos` on, the edits applied. -/
def splice (t : List α) : Nat → List (Edit α) → List α
  | pos, [] => t.drop pos
  | pos, e :: es => (t.drop pos).take (e.start - pos) ++ (e.text ++ splice t e.stop es)

variable {t : List α} {n pos k : Nat} {es : List (Edit α)}

theorem Ordered.le (h : Ordered n pos es) : pos ≤ n := by
  induction es generalizing pos with
  | nil => exact h
  | cons e es ih =>
      obtain ⟨h1, h2, h3⟩ := h
      have := ih h3
      omega

/-- Edits that begin later are in order from before, too. -/
theorem Ordered.mono (h : Ordered n k es) (hle : pos ≤ k) : Ordered n pos es := by
  cases es with
  | nil => exact le_trans hle h
  | cons e es => exact ⟨le_trans hle h.1, h.2⟩

theorem splice_cons (e : Edit α) :
    splice t pos (e :: es)
      = (t.drop pos).take (e.start - pos) ++ (e.text ++ splice t e.stop es) := rfl

theorem drop_eq_take_append_drop (t : List α) (hle : pos ≤ k) :
    t.drop pos = (t.drop pos).take (k - pos) ++ t.drop k := by
  conv_lhs => rw [← List.take_append_drop (k - pos) (t.drop pos)]
  rw [List.drop_drop, Nat.add_sub_cancel' hle]

/-- Before the first edit the list is copied. -/
theorem splice_skip (h : Ordered n k es) (hle : pos ≤ k) :
    splice t pos es = (t.drop pos).take (k - pos) ++ splice t k es := by
  cases es with
  | nil => exact drop_eq_take_append_drop t hle
  | cons e es =>
      have hk := h.1
      have hsplit : (t.drop pos).take (e.start - pos)
          = (t.drop pos).take (k - pos) ++ (t.drop k).take (e.start - k) := by
        rw [show e.start - pos = (k - pos) + (e.start - k) by omega, List.take_add, List.drop_drop,
          Nat.add_sub_cancel' hle]
      rw [splice_cons, splice_cons, hsplit, List.append_assoc]

/-- Each range replaced by itself. -/
theorem splice_self (h : Ordered t.length pos es)
    (hself : ∀ e ∈ es, e.text = (t.drop e.start).take (e.stop - e.start)) :
    splice t pos es = t.drop pos := by
  induction es generalizing pos with
  | nil => rfl
  | cons e es ih =>
      obtain ⟨h1, h2, h3⟩ := h
      rw [splice_cons, ih h3 fun e' he' => hself e' (List.mem_cons_of_mem _ he'),
        hself e List.mem_cons_self, ← drop_eq_take_append_drop t h2,
        ← drop_eq_take_append_drop t h1]

end Splice
