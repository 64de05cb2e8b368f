import Mathlib.Data.List.Infix
import Mathlib.Tactic

/-!
# Guided traversals

A preorder traversal of an ordered forest which reports the labelled nodes
one after the other, and which each answer to a report can cut short: by
leaving out the subtree of the node, by leaving out the rest of its
siblings as well, or altogether. An answer may depend on all that has been
reported.

- `visit_of_proceed`: with nothing cut short it is the preorder;
- `visit_sublist`: in any case no other node is reported, and none out of
  order;
- `visit_stop`: nothing is reported after a `stop`.
-/

namespace Traversal

variable {α : Type*}

/-- An ordered forest: the first tree, a node over its own forest, and the
others. A node without a label is not reported. -/
inductive Forest (α : Type*) where
  | nil
  | node (label : Option α) (kids rest : Forest α)

/-- The labels in preorder. -/
def Forest.preorder : Forest α → List α
  | nil => []
  | node label kids rest => label.toList ++ kids.preorder ++ rest.preorder

inductive Answer where
  | proceed
  | skipSubtree
  | skipSiblings
  | stop
  deriving DecidableEq, Repr

/-- The traversal, `log` having been reported: whether it was stopped, and
what has been reported then. -/
def visit (answer : List α → Answer) : Forest α → List α → Bool × List α
  | .nil, log => (false, log)
  | .node none kids rest, log =>
    match visit answer kids log with
    | (true, log) => (true, log)
    | (false, log) => visit answer rest log
  | .node (some a) kids rest, log =>
    match answer (log ++ [a]) with
    | .proceed =>
      match visit answer kids (log ++ [a]) with
      | (true, log) => (true, log)
      | (false, log) => visit answer rest log
    | .skipSubtree => visit answer rest (log ++ [a])
    | .skipSiblings => (false, log ++ [a])
    | .stop => (true, log ++ [a])

variable {answer : List α → Answer}

/-- With a node that is not reported it goes through the forest below. -/
theorem visit_none (kids rest : Forest α) (log : List α) :
    visit answer (.node none kids rest) log
      = if (visit answer kids log).1 then visit answer kids log
        else visit answer rest (visit answer kids log).2 := by
  rw [visit]
  rcases visit answer kids log with ⟨_ | _, log'⟩ <;> rfl

theorem visit_proceed {a : α} {log : List α} (h : answer (log ++ [a]) = .proceed)
    (kids rest : Forest α) :
    visit answer (.node (some a) kids rest) log = visit answer (.node none kids rest) (log ++ [a]) := by
  rw [visit, visit]
  simp only [h]

theorem visit_of_proceed (h : ∀ log, answer log = .proceed) (f : Forest α) (log : List α) :
    visit answer f log = (false, log ++ f.preorder) := by
  induction f generalizing log with
  | nil => rw [visit, Forest.preorder, List.append_nil]
  | node label kids rest ihKids ihRest =>
      have hbelow : ∀ log, visit answer (.node none kids rest) log
          = (false, log ++ (kids.preorder ++ rest.preorder)) := by
        intro log
        rw [visit_none, ihKids, if_neg Bool.false_ne_true, ihRest, List.append_assoc]
      cases label with
      | none => exact hbelow log
      | some a =>
          rw [visit_proceed (h _), hbelow, Forest.preorder, Option.toList_some, List.append_assoc,
            List.append_assoc]

theorem visit_sublist (answer : List α → Answer) (f : Forest α) (log : List α) :
    ∃ l, (visit answer f log).2 = log ++ l ∧ l.Sublist f.preorder := by
  induction f generalizing log with
  | nil => exact ⟨[], (List.append_nil log).symm, List.Sublist.refl []⟩
  | node label kids rest ihKids ihRest =>
      have hbelow : ∀ log, ∃ l, (visit answer (.node none kids rest) log).2 = log ++ l ∧
          l.Sublist (kids.preorder ++ rest.preorder) := by
        intro log
        obtain ⟨l, hl, hsub⟩ := ihKids log
        rw [visit_none]
        split
        · exact ⟨l, hl, hsub.trans (List.sublist_append_left _ _)⟩
        · obtain ⟨m, hm, hsub'⟩ := ihRest (visit answer kids log).2
          rw [hl] at hm ⊢
          exact ⟨l ++ m, by rw [hm, List.append_assoc], hsub.append hsub'⟩
      cases label with
      | none => exact hbelow log
      | some a =>
          rw [Forest.preorder, Option.toList_some, List.append_assoc, List.singleton_append]
          cases h : answer (log ++ [a]) with
          | proceed =>
              obtain ⟨l, hl, hsub⟩ := hbelow (log ++ [a])
              refine ⟨a :: l, ?_, hsub.cons_cons a⟩
              rw [visit_proceed h, hl, List.append_assoc, List.singleton_append]
          | skipSubtree =>
              obtain ⟨l, hl, hsub⟩ := ihRest (log ++ [a])
              refine ⟨a :: l, ?_, (hsub.trans (List.sublist_append_right _ _)).cons_cons a⟩
              simp only [visit, h, hl, List.append_assoc, List.singleton_append]
          | skipSiblings =>
              exact ⟨[a], by simp only [visit, h], (List.nil_sublist _).cons_cons a⟩
          | stop => exact ⟨[a], by simp only [visit, h], (List.nil_sublist _).cons_cons a⟩

/-- `log` and what is reported behind it; only the last report is answered
with `stop`, and only if the traversal ends so. -/
def StopsLast (answer : List α → Answer) (log : List α) (r : Bool × List α) : Prop :=
  ∀ m, log.length < m.length → m <+: r.2 → answer m = .stop → m = r.2 ∧ r.1 = true

theorem visit_stop (answer : List α → Answer) (f : Forest α) (log : List α) :
    StopsLast answer log (visit answer f log) := by
  induction f generalizing log with
  | nil =>
      intro m hlt hm _
      exact absurd hm.length_le (Nat.not_le.mpr hlt)
  | node label kids rest ihKids ihRest =>
      have hbelow : ∀ log, StopsLast answer log (visit answer (.node none kids rest) log) := by
        intro log m hlt hm hstop
        rw [visit_none] at hm ⊢
        by_cases hk : (visit answer kids log).1 = true
        · rw [if_pos hk] at hm ⊢
          exact ihKids log m hlt hm hstop
        · rw [if_neg hk] at hm ⊢
          rcases Nat.lt_or_ge (visit answer kids log).2.length m.length with hafter | hwithin
          · exact ihRest _ m hafter hm hstop
          · -- such a report is one of those below the node, which were not stopped
            obtain ⟨l, hl, -⟩ := visit_sublist answer rest (visit answer kids log).2
            rw [hl] at hm
            have hin : m <+: (visit answer kids log).2 :=
              List.prefix_of_prefix_length_le hm (List.prefix_append _ _) hwithin
            exact absurd (ihKids log m hlt hin hstop).2 hk
      cases label with
      | none => exact hbelow log
      | some a =>
          have hfirst : ∀ m, log.length < m.length → m.length ≤ (log ++ [a]).length →
              ∀ l, m <+: log ++ [a] ++ l → m = log ++ [a] := by
            intro m hlt hle l hm
            have hin := List.prefix_of_prefix_length_le hm (List.prefix_append (log ++ [a]) l) hle
            refine hin.eq_of_length_le ?_
            rw [List.length_append]
            exact hlt
          intro m hlt hm hstop
          cases h : answer (log ++ [a]) with
          | proceed =>
              rw [visit_proceed h] at hm ⊢
              rcases Nat.lt_or_ge (log ++ [a]).length m.length with hafter | hwithin
              · exact hbelow _ m hafter hm hstop
              · obtain ⟨l, hl, -⟩ := visit_sublist answer (.node none kids rest) (log ++ [a])
                rw [hl] at hm
                rw [hfirst m hlt hwithin l hm, h] at hstop
                cases hstop
          | skipSubtree =>
              simp only [visit, h] at hm ⊢
              rcases Nat.lt_or_ge (log ++ [a]).length m.length with hafter | hwithin
              · exact ihRest _ m hafter hm hstop
              · obtain ⟨l, hl, -⟩ := visit_sublist answer rest (log ++ [a])
                rw [hl] at hm
                rw [hfirst m hlt hwithin l hm, h] at hstop
                cases hstop
          | skipSiblings =>
              simp only [visit, h] at hm
              rw [hfirst m hlt hm.length_le [] (by rwa [List.append_nil]), h] at hstop
              cases hstop
          | stop =>
              simp only [visit, h] at hm ⊢
              exact ⟨hfirst m hlt hm.length_le [] (by rwa [List.append_nil]), trivial⟩

end Traversal
