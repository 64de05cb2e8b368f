import Mathlib.Tactic

/-!
# Loops that hand out one value per call

A cursor is a state and a call on it: the call fails, says that there is
nothing left, or hands out a value and leaves the next state. `Yields call
s vs` says that calling again and again from `s` hands out `vs` and comes
to an end.

- `exists_yields`: with a measure that every call decreases, the loop
  ends;
- `not_yields_of_more`: where every call hands something out and stays
  inside an invariant it does not, as in a state that a call leaves as it
  is (`not_yields_of_stuck`);
- `Yields.congr`: calls that agree on the states met hand out the same;
- `Drains`: the same with the state in which nothing is left, and
  `exists_drains` for calls that hand out amounts taken off a total,
  `drains_iterate` for calls that apply a function until it is of no use.
-/

namespace Iterators

variable {ε α σ : Type}

/-- From `s` on the values `vs` are handed out, then nothing is left. -/
inductive Yields (call : σ → Except ε (Option (α × σ))) : σ → List α → Prop
  | done {s : σ} (h : call s = .ok none) : Yields call s []
  | more {s s' : σ} {v : α} {vs : List α} (h : call s = .ok (some (v, s')))
      (hrest : Yields call s' vs) : Yields call s (v :: vs)

variable {call call' : σ → Except ε (Option (α × σ))}

/-- While the invariant holds every call succeeds and decreases the
measure, or nothing is left. -/
theorem exists_yields {inv : σ → Prop} (μ : σ → Nat)
    (hstep : ∀ s, inv s → call s = .ok none ∨
      ∃ v s', call s = .ok (some (v, s')) ∧ inv s' ∧ μ s' < μ s) {s : σ} (hs : inv s) :
    ∃ vs, Yields call s vs := by
  induction hn : μ s using Nat.strong_induction_on generalizing s with
  | _ n ih =>
      rcases hstep s hs with hdone | ⟨v, s', hmore, hinv, hlt⟩
      · exact ⟨[], .done hdone⟩
      · obtain ⟨vs, hvs⟩ := ih (μ s') (hn ▸ hlt) hinv rfl
        exact ⟨v :: vs, .more hmore hvs⟩

/-- Where every call hands out a value and keeps the invariant there is no end. -/
theorem not_yields_of_more (inv : σ → Prop)
    (hstep : ∀ s, inv s → ∃ v s', call s = .ok (some (v, s')) ∧ inv s') {s : σ} (hs : inv s)
    (vs : List α) : ¬Yields call s vs := by
  intro hvs
  induction hvs with
  | done h =>
      obtain ⟨v, s', hcall, -⟩ := hstep _ hs
      cases h.symm.trans hcall
  | more h _ ih =>
      obtain ⟨v, s', hcall, hs'⟩ := hstep _ hs
      cases h.symm.trans hcall
      exact ih hs'

/-- A call that leaves the state as it is repeats for ever. -/
theorem not_yields_of_stuck {s : σ} {v : α} (h : call s = .ok (some (v, s))) (vs : List α) :
    ¬Yields call s vs := by
  refine not_yields_of_more (· = s) ?_ rfl vs
  rintro t rfl
  exact ⟨v, t, h, rfl⟩

/-- Calls that agree where the invariant holds hand out the same. -/
theorem Yields.congr {inv : σ → Prop} (heq : ∀ s, inv s → call s = call' s)
    (hinv : ∀ s v s', inv s → call s = .ok (some (v, s')) → inv s') {s : σ} {vs : List α}
    (h : Yields call s vs) (hs : inv s) : Yields call' s vs := by
  induction h with
  | done h => exact .done (heq _ hs ▸ h)
  | more h _ ih => exact .more (heq _ hs ▸ h) (ih (hinv _ _ _ hs h))

/-- From `s` on the values `vs` are handed out, and nothing is left in `s'`. -/
inductive Drains (call : σ → Except ε (Option (α × σ))) : σ → List α → σ → Prop where
  | done {s : σ} (h : call s = .ok none) : Drains call s [] s
  | more {s s' s'' : σ} {v : α} {vs : List α} (h : call s = .ok (some (v, s')))
      (hvs : Drains call s' vs s'') : Drains call s (v :: vs) s''

/-- Where a call ends the loop when there is nothing left to take, and else takes part of
what is left, the loop ends and takes all of it. -/
theorem exists_drains {call : σ → Except ε (Option (Nat × σ))} {inv : Nat → σ → Prop}
    (hstep : ∀ n s, inv n s → (call s = .ok none ∧ n = 0) ∨
      ∃ v n' s', call s = .ok (some (v, s')) ∧ inv n' s' ∧ 0 < v ∧ n = v + n') :
    ∀ (n : Nat) {s : σ}, inv n s → ∃ vs s', Drains call s vs s' ∧ inv 0 s' ∧ vs.sum = n := by
  intro n
  induction n using Nat.strong_induction_on with
  | _ n ih =>
      intro s hs
      rcases hstep n s hs with ⟨hdone, rfl⟩ | ⟨v, n', s', hcall, hs', hpos, rfl⟩
      · exact ⟨[], s, .done hdone, hs, rfl⟩
      · obtain ⟨vs, t, hdrains, ht, hsum⟩ := ih n' (by omega) hs'
        exact ⟨v :: vs, t, .more hcall hdrains, ht, by rw [List.sum_cons, hsum]⟩

/-- Where a state stands for a text, a call does to it what `f` does to the text, and ends
the loop at a text that is settled, the loop ends at the first settled text. -/
theorem drains_iterate {β : Type} {call : σ → Except ε (Option (α × σ))} {stands : σ → β → Prop}
    {f : β → β} {settled : β → Prop} {v : α} (measure : β → Nat)
    (hdone : ∀ s x, stands s x → settled x → call s = .ok none)
    (hmore : ∀ s x, stands s x → ¬settled x →
      ∃ s', call s = .ok (some (v, s')) ∧ stands s' (f x) ∧ measure (f x) < measure x) :
    ∀ (n : Nat) {s : σ} {x : β}, measure x < n → stands s x →
      ∃ k s', Drains call s (List.replicate k v) s' ∧ stands s' (f^[k] x) ∧ settled (f^[k] x) ∧
        ∀ i < k, ¬settled (f^[i] x)
  | 0, _, _, hn, _ => absurd hn (Nat.not_lt_zero _)
  | n + 1, s, x, hn, hs => by
      by_cases hx : settled x
      · exact ⟨0, s, .done (hdone s x hs hx), hs, hx, fun i hi => absurd hi (Nat.not_lt_zero i)⟩
      · obtain ⟨s', hcall, hs', hlt⟩ := hmore s x hs hx
        obtain ⟨k, t, hdrains, ht, hsettled, hleast⟩ :=
          drains_iterate measure hdone hmore n (x := f x) (by omega) hs'
        refine ⟨k + 1, t, .more hcall hdrains, ht, hsettled, fun i hi => ?_⟩
        cases i with
        | zero => exact hx
        | succ i => exact hleast i (Nat.lt_of_succ_lt_succ hi)

end Iterators
