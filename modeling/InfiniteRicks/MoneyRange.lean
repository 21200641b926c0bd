import InfiniteRicks.Value

/-!
# What the range checks see

`MoneyRange` sees only the sign of a wrapped amount. In the three loops that add
amounts this is enough: every overflow is found, and what passes is exact.
-/

namespace InfiniteRicks

open Ledger Library.CheckedSum

namespace CTransaction

variable {env : Env} {tx : CTransaction}

/-- The exact value of the outputs that a list of inputs spends. -/
def spentValue (inputs : MapPrevTx) (vin : List CTxIn) : Int :=
  (vin.map fun txin => ((getOutputFor inputs txin).map fun txout => txout.nValue.toInt).getD 0).sum

theorem exactSum_spent (inputs : MapPrevTx) (vin : List CTxIn) :
    exactSum (spentAmounts inputs vin) = spentValue inputs vin := by
  rw [exactSum, spentValue, spentAmounts, List.map_map]
  refine congrArg List.sum (List.map_congr_left fun txin _ => ?_)
  rw [Function.comp_apply]
  cases getOutputFor inputs txin <;> rfl

/-- The value tests of `CheckTransaction` are those of the checked sum. -/
theorem checkOutputs_summed {vout : List CTxOut} {start : Int64} (passed : tx.checkOutputs start vout = true) :
    (checkedSum start (amounts vout)).isSome = true := by
  induction vout generalizing start with
  | nil => rfl
  | cons txout rest ih =>
      simp only [checkOutputs] at passed
      split at passed
      · cases passed
      split at passed
      · cases passed
      rename_i nonneg
      split at passed
      · cases passed
      split at passed
      · cases passed
      rename_i ranged
      have sumNonneg : 0 ≤ start + txout.nValue := by
        rw [Int64.le_iff_toInt_le, Int64.toInt_zero]
        exact moneyRange_iff.mp (by simpa using ranged)
      rw [amounts, List.map_cons, checkedSum, if_pos ⟨Int64.not_lt.mp nonneg, sumNonneg⟩]
      exact ih passed

theorem checkOutputs_of_checkTransaction (checked : tx.checkTransaction = true) : tx.checkOutputs 0 tx.vout = true := by
  unfold checkTransaction at checked
  split at checked
  · cases checked
  split at checked
  · cases checked
  split at checked
  · cases checked
  split at checked
  · cases checked
  · simpa using ‹¬(!tx.checkOutputs 0 tx.vout) = true›

/-- `CheckTransaction` has added up the outputs already, and exactly. -/
theorem getValueOut_of_checkTransaction (checked : tx.checkTransaction = true) :
    ∃ total, tx.getValueOut = some total ∧ total.toInt = outputsValue tx.vout := by
  obtain ⟨total, summed⟩ := Option.isSome_iff_exists.mp
    (checkOutputs_summed (checkOutputs_of_checkTransaction checked))
  refine ⟨total, by rw [getValueOut, addValueOut_eq, summed], ?_⟩
  rw [((checkedSum_eq_some (by decide)).mp summed).2, exactSum_amounts, Int64.toInt_zero, zero_add]

/-- The fee tests compare exact amounts. -/
theorem checkFee_covers {nValueIn : Int64} (nonneg : 0 ≤ nValueIn.toInt) (stake : tx.isCoinStake = false)
    (passed : tx.checkFee nValueIn = true) : outputsValue tx.vout + tx.getMinFee.toInt ≤ nValueIn.toInt := by
  rw [checkFee, stake, if_neg Bool.false_ne_true] at passed
  split at passed
  · cases passed
  rename_i nValueOut valueOut
  obtain ⟨paid, paidNonneg⟩ := addValueOut_exact (by decide) valueOut
  simp only [Bool.and_eq_true, Bool.not_eq_true', decide_eq_false_iff_not, Int64.not_lt] at passed
  have fee := Int64.le_iff_toInt_le.mp passed.1.2
  rw [toInt_sub_of_nonneg nonneg paidNonneg] at fee
  rw [Int64.toInt_zero, zero_add] at paid
  omega

theorem connectInputs_covers {nBestHeight : Int} {inputs : MapPrevTx} {queued after : QueuedChanges} {pos : CDiskTxPos}
    {pindexBlock : BlockPtr} {fBlock fMiner : Bool}
    (connected : tx.connectInputs env nBestHeight inputs queued pos pindexBlock fBlock fMiner = some after)
    (base : tx.isCoinBase = false) (stake : tx.isCoinStake = false) :
    outputsValue tx.vout + tx.getMinFee.toInt ≤ spentValue inputs tx.vin := by
  rw [connectInputs, base, if_neg Bool.false_ne_true] at connected
  split at connected
  · cases connected
  rename_i nValueIn checked
  split at connected
  · cases connected
  split at connected
  · rename_i paying
    obtain ⟨each, exact⟩ := (checkedSum_eq_some (by decide)).mp (checkInputs_summed checked).1
    have nonneg := exactSum_nonneg each
    rw [Int64.toInt_zero, zero_add] at exact
    rw [← exactSum_spent, ← exact]
    exact checkFee_covers (exact ▸ nonneg) stake paying
  · cases connected

end CTransaction

/-- The range checks let through only exact sums within `MAX_MONEY`, and an ordinary
transaction that is connected spends at least what it pays out and its minimum fee. -/
theorem moneyRange_detects_overflow :
    (∀ tx : CTransaction, tx.checkTransaction = true →
      outputsValue tx.vout ≤ maxMoney.toInt ∧
        ∃ total, tx.getValueOut = some total ∧ total.toInt = outputsValue tx.vout) ∧
    ∀ (env : Env) (nBestHeight : Int) (inputs : MapPrevTx) (mapTestPool after : QueuedChanges) (pos : CDiskTxPos)
      (pindexBlock : BlockPtr) (fBlock fMiner : Bool) (tx : CTransaction),
      tx.connectInputs env nBestHeight inputs mapTestPool pos pindexBlock fBlock fMiner = some after →
        tx.isCoinBase = false → tx.isCoinStake = false →
          outputsValue tx.vout + tx.getMinFee.toInt ≤ CTransaction.spentValue inputs tx.vin := by
  refine ⟨fun tx checked => ?_, fun env nBestHeight inputs mapTestPool after pos pindexBlock fBlock fMiner tx connected
    base stake => CTransaction.connectInputs_covers connected base stake⟩
  obtain ⟨total, valueOut, exact⟩ := CTransaction.getValueOut_of_checkTransaction checked
  have below := total.toInt_le
  exact ⟨by rw [← exact, maxMoney_toInt]; exact below, total, valueOut, exact⟩

section Concrete

/-- What `FetchInputs` has for a spend of `funding`. -/
def fundingInputs : MapPrevTx := fun hash =>
  if hash = 50 then some (CTxIndex.new ⟨1, 500, 581, fundedPos_nullUnique⟩ 2, funding) else none

/-- It pays the minimum fee. -/
def leastFee : CTransaction := .labelledSpend 62 1000 ⟨50, 0⟩ (2 * coin - 10000)

/-- `leastFee` passes both checks. -/
theorem moneyRange_detects_overflow_leastFee :
    outputsValue leastFee.vout ≤ maxMoney.toInt ∧
      outputsValue leastFee.vout + leastFee.getMinFee.toInt ≤ CTransaction.spentValue fundingInputs leastFee.vin := by
  have connects : (leastFee.connectInputs (.labelled false) 0 fundingInputs ∅ .null [] true false).isSome = true := by
    decide +kernel
  obtain ⟨after, connected⟩ := Option.isSome_iff_exists.mp connects
  exact ⟨(moneyRange_detects_overflow.1 leastFee (by decide +kernel)).1,
    moneyRange_detects_overflow.2 _ _ _ _ _ _ _ _ _ leastFee connected (by decide) (by decide)⟩

end Concrete

end InfiniteRicks
