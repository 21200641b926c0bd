import Mathlib.Algebra.BigOperators.Group.List.Basic
import Mathlib.Algebra.Order.BigOperators.Group.List
import Mathlib.Algebra.Order.Group.Int
import Mathlib.Algebra.Ring.Int.Defs

/-!
# Checked sums

A loop that adds 64-bit amounts with wrapping and looks only at signs: at that of
each amount and at that of each partial sum. It finds every overflow.
-/

namespace InfiniteRicks.Library.CheckedSum

/-- The loop from a partial sum; `none` where a sign test fails. -/
def checkedSum (sum : Int64) : List Int64 → Option Int64
  | [] => some sum
  | amount :: rest => if 0 ≤ amount ∧ 0 ≤ sum + amount then checkedSum (sum + amount) rest else none

/-- The exact sum of a list of amounts. -/
def exactSum (amounts : List Int64) : Int := (amounts.map Int64.toInt).sum

@[simp] theorem exactSum_nil : exactSum [] = 0 := rfl

@[simp] theorem exactSum_cons (amount : Int64) (rest : List Int64) :
    exactSum (amount :: rest) = amount.toInt + exactSum rest := by
  simp [exactSum]

theorem exactSum_nonneg {amounts : List Int64} (nonneg : ∀ amount ∈ amounts, 0 ≤ amount) : 0 ≤ exactSum amounts := by
  refine List.sum_nonneg fun value member => ?_
  obtain ⟨amount, listed, rfl⟩ := List.mem_map.mp member
  exact Int64.le_iff_toInt_le.mp (nonneg amount listed)

/-- The sign of a wrapped sum of two amounts that are not negative tells whether the
exact sum fits. -/
theorem add_nonneg_iff {sum amount : Int64} (sumNonneg : 0 ≤ sum) (amountNonneg : 0 ≤ amount) :
    0 ≤ sum + amount ↔ sum.toInt + amount.toInt < 2 ^ 63 := by
  have sumLt := sum.toInt_lt
  have amountLt := amount.toInt_lt
  rw [Int64.le_iff_toInt_le, Int64.toInt_zero] at sumNonneg amountNonneg ⊢
  rw [Int64.toInt_add, Int.bmod_def]
  split <;> omega

theorem toInt_add_of_lt {sum amount : Int64} (sumNonneg : 0 ≤ sum) (amountNonneg : 0 ≤ amount)
    (fits : sum.toInt + amount.toInt < 2 ^ 63) : (sum + amount).toInt = sum.toInt + amount.toInt := by
  rw [Int64.le_iff_toInt_le, Int64.toInt_zero] at sumNonneg amountNonneg
  rw [Int64.toInt_add, Int.bmod_def]
  split <;> omega

/-- What the loop returns is what plain addition with wrapping returns. -/
theorem eq_foldl_of_checkedSum {sum total : Int64} {amounts : List Int64}
    (summed : checkedSum sum amounts = some total) : total = amounts.foldl (· + ·) sum := by
  induction amounts generalizing sum with
  | nil => exact (Option.some_inj.mp summed).symm
  | cons amount rest ih =>
      rw [checkedSum] at summed
      split at summed
      · exact ih summed
      · cases summed

variable {sum total : Int64} {amounts : List Int64}

/-- The loop returns the exact sum of amounts that are not negative, and nothing else. -/
theorem checkedSum_eq_some (start : 0 ≤ sum) :
    checkedSum sum amounts = some total ↔
      (∀ amount ∈ amounts, 0 ≤ amount) ∧ total.toInt = sum.toInt + exactSum amounts := by
  induction amounts generalizing sum with
  | nil =>
      rw [checkedSum, Option.some_inj]
      simp [← Int64.toInt_inj, eq_comm]
  | cons amount rest ih =>
      rw [checkedSum, List.forall_mem_cons, exactSum_cons]
      constructor
      · intro summed
        split at summed
        · rename_i signs
          have fits := (add_nonneg_iff start signs.1).mp signs.2
          obtain ⟨nonneg, exact⟩ := (ih signs.2).mp summed
          rw [toInt_add_of_lt start signs.1 fits] at exact
          exact ⟨⟨signs.1, nonneg⟩, by omega⟩
        · cases summed
      · rintro ⟨⟨first, nonneg⟩, exact⟩
        have fits : sum.toInt + amount.toInt < 2 ^ 63 := by
          have more := exactSum_nonneg nonneg
          have below := total.toInt_lt
          omega
        have partialSum := (add_nonneg_iff start first).mpr fits
        rw [if_pos ⟨first, partialSum⟩, ih partialSum, toInt_add_of_lt start first fits]
        exact ⟨nonneg, by omega⟩

end InfiniteRicks.Library.CheckedSum
