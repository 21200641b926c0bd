import Mathlib.Algebra.BigOperators.Group.List.Basic
import Mathlib.Algebra.Order.BigOperators.Group.List
import Mathlib.Algebra.Order.Group.Int
import Mathlib.Algebra.Ring.Int.Defs
import Mathlib.Data.Int.ConditionallyCompleteOrder
import Mathlib.Order.ConditionallyCompleteLattice.Basic

/-!
# Flagged elements

A selection from a list as a list of flags beside it, and its sums.
-/

namespace InfiniteRicks.Library.Flagged

variable {α : Type*}

/-- The elements whose flag is set. -/
def flagged : List α → List Bool → List α
  | x :: xs, flag :: flags => if flag then x :: flagged xs flags else flagged xs flags
  | _, _ => []

variable {xs : List α} {flags : List Bool}

theorem flagged_sublist (xs : List α) (flags : List Bool) : (flagged xs flags).Sublist xs := by
  induction xs generalizing flags with
  | nil => simp [flagged]
  | cons x xs ih =>
      cases flags with
      | nil => simp [flagged]
      | cons flag flags =>
          cases flag
          · exact (ih flags).cons x
          · exact (ih flags).cons_cons x

@[simp] theorem flagged_replicate_true (xs : List α) : flagged xs (List.replicate xs.length true) = xs := by
  induction xs with
  | nil => rfl
  | cons x xs ih => simp [List.replicate_succ, flagged, ih]

@[simp] theorem flagged_replicate_false (xs : List α) : flagged xs (List.replicate xs.length false) = [] := by
  induction xs with
  | nil => rfl
  | cons x xs ih => simp [List.replicate_succ, flagged, ih]

/-- Setting a flag adds its element. -/
theorem sum_flagged_set (f : α → Int) {i : Nat} {x : α} (element : xs[i]? = some x)
    (unset : flags[i]? = some false) :
    ((flagged xs (flags.set i true)).map f).sum = ((flagged xs flags).map f).sum + f x := by
  induction xs generalizing flags i with
  | nil => cases element
  | cons y ys ih =>
      cases flags with
      | nil => cases unset
      | cons flag flags =>
          cases i with
          | zero =>
              simp only [List.getElem?_cons_zero, Option.some.injEq] at element unset
              subst element unset
              simp [flagged, Int.add_comm]
          | succ i =>
              simp only [List.getElem?_cons_succ] at element unset
              have later := ih element unset
              cases flag
              · simpa [flagged] using later
              · simp [flagged, later, Int.add_assoc]

/-- A selection of amounts that are not negative sums up to at most the whole. -/
theorem sum_flagged_le (f : α → Int) (nonneg : ∀ x ∈ xs, 0 ≤ f x) (flags : List Bool) :
    ((flagged xs flags).map f).sum ≤ (xs.map f).sum := by
  refine ((flagged_sublist xs flags).map f).sum_le_sum ?_
  intro value member
  obtain ⟨x, inList, rfl⟩ := List.mem_map.mp member
  exact nonneg x inList

end InfiniteRicks.Library.Flagged
