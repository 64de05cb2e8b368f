import Mathlib.Tactic

/-!
# Computations that record what they do

A `Traced` computation fails or returns, and leaves the list of the events
on its way there. A program is instrumented by writing it in this monad;
`result` forgets the events again, and commutes with the operations, so
that the instrumented program is shown to be the plain one by following
its recursion. `Always P` says that every event has `P`; it is closed
under the operations, so that it is shown the same way.
-/

namespace Trace

/-- A result, or a failure, and the events that led to it. -/
structure Traced (ε E α : Type) where
  result : Except ε α
  events : List E

variable {ε E α β : Type}

namespace Traced

instance : Monad (Traced ε E) where
  pure a := ⟨.ok a, []⟩
  bind x f :=
    match x.result with
    | .ok a => ⟨(f a).result, x.events ++ (f a).events⟩
    | .error e => ⟨.error e, x.events⟩

/-- An event. -/
def emit (e : E) : Traced ε E Unit := ⟨.ok (), [e]⟩

/-- A failure. -/
def fail (e : ε) : Traced ε E α := ⟨.error e, []⟩

/-! ## Forgetting the events -/

@[simp] theorem result_pure (a : α) : (pure a : Traced ε E α).result = .ok a := rfl

@[simp] theorem result_emit (e : E) : (emit e : Traced ε E Unit).result = .ok () := rfl

@[simp] theorem result_bind (x : Traced ε E α) (f : α → Traced ε E β) :
    (x >>= f).result = x.result.bind fun a => (f a).result := by
  simp only [bind]
  cases x.result with
  | ok a => rfl
  | error e => rfl

@[simp] theorem result_ite (p : Prop) [Decidable p] (x y : Traced ε E α) :
    (if p then x else y).result = if p then x.result else y.result := by
  split <;> rfl

/-! ## The events -/

theorem events_bind {x : Traced ε E α} {a : α} (h : x.result = .ok a)
    (f : α → Traced ε E β) : (x >>= f).events = x.events ++ (f a).events := by
  simp only [bind, h]

/-- Whatever comes first is recorded first. -/
theorem mem_events_bind_left {x : Traced ε E α} {f : α → Traced ε E β} {e : E}
    (h : e ∈ x.events) : e ∈ (x >>= f).events := by
  simp only [bind]
  cases x.result with
  | ok a => exact List.mem_append_left _ h
  | error _ => exact h

theorem mem_events_bind_right {x : Traced ε E α} {f : α → Traced ε E β} {a : α} {e : E}
    (hx : x.result = .ok a) (h : e ∈ (f a).events) : e ∈ (x >>= f).events := by
  rw [events_bind hx]
  exact List.mem_append_right _ h

/-! ## Every event -/

/-- Every event has `P`. -/
def Always (P : E → Prop) (x : Traced ε E α) : Prop := ∀ e ∈ x.events, P e

variable {P : E → Prop}

theorem always_pure (a : α) : Always P (pure a : Traced ε E α) :=
  fun _ h => absurd h List.not_mem_nil

theorem always_fail (e : ε) : Always P (fail e : Traced ε E α) :=
  fun _ h => absurd h List.not_mem_nil

theorem always_emit {e : E} (h : P e) : Always P (emit e : Traced ε E Unit) :=
  fun _ he => (List.mem_singleton.mp he) ▸ h

theorem Always.bind {x : Traced ε E α} {f : α → Traced ε E β} (hx : Always P x)
    (hf : ∀ a, x.result = .ok a → Always P (f a)) : Always P (x >>= f) := by
  intro e he
  cases h : x.result with
  | ok a =>
      rw [events_bind h] at he
      rcases List.mem_append.mp he with h1 | h2
      · exact hx e h1
      · exact hf a h e h2
  | error e' =>
      simp only [Bind.bind, h] at he
      exact hx e he

/-- Where the first result is known. -/
theorem Always.bind_of_result {x : Traced ε E α} {f : α → Traced ε E β} {a : α}
    (hx : Always P x) (hr : x.result = .ok a) (hf : Always P (f a)) : Always P (x >>= f) := by
  refine hx.bind fun a' ha' => ?_
  cases hr.symm.trans ha'
  exact hf

theorem always_ite {p : Prop} [Decidable p] {x y : Traced ε E α} (hx : p → Always P x)
    (hy : ¬p → Always P y) : Always P (if p then x else y) := by
  split
  · exact hx ‹_›
  · exact hy ‹_›

theorem Always.mono {Q : E → Prop} {x : Traced ε E α} (h : Always P x) (hPQ : ∀ e, P e → Q e) :
    Always Q x := fun e he => hPQ e (h e he)

end Traced

end Trace
