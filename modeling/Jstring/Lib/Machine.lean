import Mathlib.Tactic

/-!
# Machines that run until they return

A step fails, goes on from another state, or returns. `exec` runs a machine
within a number of steps; the proof rules are about the two relations under
it: `Leads n s t`, some of the first `n` steps from `s` come to `t`, and
`Ends n s r`, they come to a state that returns `r`. Stretches are put
together with `Leads.trans` and `Leads.ends`; `exec_of_ends` gives the run.
-/

namespace Machine

variable {ε σ ρ : Type}

/-- What a step leads to. -/
inductive Next (σ ρ : Type) where
  | goto (s : σ)
  | ret (r : ρ)
  deriving DecidableEq, Repr

/-- At most `fuel` steps, `out` when that was not enough. -/
def exec (out : ε) (step : σ → Except ε (Next σ ρ)) : Nat → σ → Except ε ρ
  | 0, _ => .error out
  | fuel + 1, s => do
    match ← step s with
    | .goto s => exec out step fuel s
    | .ret r => return r

/-- At most `n` steps from `s` is `t`. -/
inductive Leads (step : σ → Except ε (Next σ ρ)) : Nat → σ → σ → Prop
  | refl {n : Nat} {s : σ} : Leads step n s s
  | step {n : Nat} {s s' t : σ} (h : step s = .ok (.goto s')) (hrest : Leads step n s' t) :
      Leads step (n + 1) s t

/-- At most `n` steps from `s` is a state that returns `r`. -/
def Ends (step : σ → Except ε (Next σ ρ)) (n : Nat) (s : σ) (r : ρ) : Prop :=
  ∃ t, Leads step n s t ∧ step t = .ok (.ret r)

variable {step : σ → Except ε (Next σ ρ)}

theorem Leads.one {s s' : σ} (h : step s = .ok (.goto s')) : Leads step 1 s s' := .step h .refl

theorem Leads.mono {m n : Nat} {s t : σ} (h : Leads step m s t) (hmn : m ≤ n) :
    Leads step n s t := by
  induction h generalizing n with
  | refl => exact .refl
  | step h _ ih =>
      obtain ⟨k, rfl⟩ : ∃ k, n = k + 1 := ⟨n - 1, by omega⟩
      exact .step h (ih (by omega))

theorem Leads.trans {m n : Nat} {s t u : σ} (h : Leads step m s t) (h' : Leads step n t u) :
    Leads step (m + n) s u := by
  induction h with
  | refl => exact h'.mono (Nat.le_add_left n _)
  | step h _ ih =>
      rw [Nat.add_right_comm]
      exact .step h (ih h')

theorem Ends.ret {n : Nat} {s : σ} {r : ρ} (h : step s = .ok (.ret r)) : Ends step n s r :=
  ⟨s, .refl, h⟩

theorem Leads.ends {m n : Nat} {s t : σ} {r : ρ} (h : Leads step m s t) (h' : Ends step n t r) :
    Ends step (m + n) s r := by
  obtain ⟨u, hu, hr⟩ := h'
  exact ⟨u, h.trans hu, hr⟩

theorem Ends.mono {m n : Nat} {s : σ} {r : ρ} (h : Ends step m s r) (hmn : m ≤ n) :
    Ends step n s r := by
  obtain ⟨t, ht, hr⟩ := h
  exact ⟨t, ht.mono hmn, hr⟩

/-- To `t` where `P` holds, and a return of `r` on the way where it does not. -/
structure Checked (step : σ → Except ε (Next σ ρ)) (P : Prop) (n : Nat) (s t : σ) (r : ρ) :
    Prop where
  pass : P → Leads step n s t
  fail : ¬P → Ends step n s r

theorem Leads.checked {n : Nat} {s t : σ} (h : Leads step n s t) (r : ρ) :
    Checked step True n s t r :=
  ⟨fun _ => h, fun hno => absurd trivial hno⟩

theorem Checked.congr {P Q : Prop} {n : Nat} {s t : σ} {r : ρ} (h : Checked step P n s t r)
    (hPQ : P ↔ Q) : Checked step Q n s t r :=
  ⟨fun hq => h.pass (hPQ.mpr hq), fun hq => h.fail fun hp => hq (hPQ.mp hp)⟩

theorem Checked.trans {P Q : Prop} {m n : Nat} {s t u : σ} {r : ρ}
    (h : Checked step P m s t r) (h' : Checked step Q n t u r) :
    Checked step (P ∧ Q) (m + n) s u r where
  pass := fun hpq => (h.pass hpq.1).trans (h'.pass hpq.2)
  fail := fun hno => by
    by_cases hp : P
    · exact (h.pass hp).ends (h'.fail fun hq => hno ⟨hp, hq⟩)
    · exact (h.fail hp).mono (Nat.le_add_right m n)

/-- With a step for the return itself the machine returns. -/
theorem exec_of_ends {out : ε} {n fuel : Nat} {s : σ} {r : ρ} (h : Ends step n s r)
    (hn : n < fuel) : exec out step fuel s = .ok r := by
  obtain ⟨t, ht, hr⟩ := h
  induction ht generalizing fuel with
  | refl =>
      obtain ⟨k, rfl⟩ : ∃ k, fuel = k + 1 := ⟨fuel - 1, by omega⟩
      rw [exec, hr]
      rfl
  | step h _ ih =>
      obtain ⟨k, rfl⟩ : ∃ k, fuel = k + 1 := ⟨fuel - 1, by omega⟩
      rw [exec, h]
      exact ih (by omega) hr

end Machine
