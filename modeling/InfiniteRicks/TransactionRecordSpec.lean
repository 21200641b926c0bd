import InfiniteRicks.CachedAmounts
import InfiniteRicks.Conservation
import InfiniteRicks.TransactionRecord

/-!
# What the records add up to

Each branch has a sum of its own: a credit shows the own outputs, a coinstake its net amount, a debit the
foreign outputs with the fee, and the other two the net amount. `records_add_up_iff` says where that is
what the credit and the debit of the transaction net.
-/

namespace InfiniteRicks

open AccountWallet

/-- The sum of credit and debit over records. -/
def recordTotal (parts : List TransactionRecord) : Int := (parts.map fun sub => sub.credit.toInt + sub.debit.toInt).sum

theorem recordTotal_append (parts : List TransactionRecord) (sub : TransactionRecord) :
    recordTotal (parts ++ [sub]) = recordTotal parts + (sub.credit.toInt + sub.debit.toInt) := by
  rw [recordTotal, List.map_append, List.sum_append, recordTotal, List.map_singleton, List.sum_singleton]

namespace RecordEnv

variable {shown : RecordEnv} {w : WalletCoins} {wtx : CWalletTx} {details : TxDetails} {nNet nDebit : Int64}

/-- The own outputs. -/
abbrev ownOutput (shown : RecordEnv) (txout : CTxOut) : Bool := shown.keys.isMine txout.scriptPubKey

/-! ## Credits -/

theorem creditRecord_total (idx : Nat) (txout : CTxOut) :
    (creditRecord shown wtx details idx txout).credit = txout.nValue ∧
      (creditRecord shown wtx details idx txout).debit = 0 := by
  unfold creditRecord
  dsimp only
  split <;> exact ⟨rfl, rfl⟩

/-- One output of what is no coinstake adds its value where it is own. -/
theorem creditOutput_eq (noStake : wtx.tx.isCoinStake = false) (s : List TransactionRecord × UInt256) (txout : CTxOut) :
    ∃ parts, creditOutput shown wtx details nNet nDebit s txout = some (parts, s.2) ∧
      recordTotal parts = recordTotal s.1 + if shown.ownOutput txout then txout.nValue.toInt else 0 := by
  unfold creditOutput
  dsimp only
  rw [ownOutput]
  cases shown.keys.isMine txout.scriptPubKey with
  | false => exact ⟨s.1, rfl, (Int.add_zero _).symm⟩
  | true =>
      obtain ⟨credit, debit⟩ := @creditRecord_total shown wtx details s.1.length txout
      rw [noStake]
      refine ⟨_, rfl, ?_⟩
      rw [recordTotal_append]
      split <;> simp [credit, debit]

theorem foldlM_creditOutput (noStake : wtx.tx.isCoinStake = false) (vout : List CTxOut)
    (s : List TransactionRecord × UInt256) :
    ∃ parts, vout.foldlM (creditOutput shown wtx details nNet nDebit) s = some (parts, s.2) ∧
      recordTotal parts = recordTotal s.1 + valueOf shown.ownOutput vout := by
  induction vout generalizing s with
  | nil => exact ⟨s.1, rfl, (Int.add_zero _).symm⟩
  | cons txout rest ih =>
      obtain ⟨parts, here, total⟩ := @creditOutput_eq shown wtx details nNet nDebit noStake s txout
      obtain ⟨final, others, sum⟩ := ih (parts, s.2)
      rw [List.foldlM_cons, here]
      refine ⟨final, others, ?_⟩
      rw [sum, total, valueOf_cons]
      omega

/-! ## Coinstakes -/

/-- After the record of a coinstake the loop adds nothing. -/
theorem foldlM_creditOutput_done (stake : wtx.tx.isCoinStake = true) (vout : List CTxOut)
    (parts : List TransactionRecord) :
    vout.foldlM (creditOutput shown wtx details nNet nDebit) (parts, shown.env.txHash wtx.tx) =
      some (parts, shown.env.txHash wtx.tx) := by
  induction vout with
  | nil => rfl
  | cons txout rest ih =>
      have same : creditOutput shown wtx details nNet nDebit (parts, shown.env.txHash wtx.tx) txout =
          some (parts, shown.env.txHash wtx.tx) := by
        unfold creditOutput
        dsimp only
        rw [stake, if_pos rfl, if_pos rfl, ite_self]
      rw [List.foldlM_cons, same]
      exact ih

/-- The loop makes one record of a coinstake, for its first own output. -/
theorem foldlM_creditOutput_stake (stake : wtx.tx.isCoinStake = true) {hashPrev : UInt256}
    (apart : hashPrev ≠ shown.env.txHash wtx.tx) {credit : Int64} (known : stakeCredit wtx nNet nDebit = some credit)
    (vout : List CTxOut) (parts : List TransactionRecord) :
    ∃ final hash, vout.foldlM (creditOutput shown wtx details nNet nDebit) (parts, hashPrev) = some (final, hash) ∧
      recordTotal final = recordTotal parts + if vout.any shown.ownOutput then credit.toInt else 0 := by
  induction vout with
  | nil => exact ⟨parts, hashPrev, rfl, (Int.add_zero _).symm⟩
  | cons txout rest ih =>
      rw [List.foldlM_cons, List.any_cons]
      cases own : shown.keys.isMine txout.scriptPubKey with
      | false =>
          have same : creditOutput shown wtx details nNet nDebit (parts, hashPrev) txout = some (parts, hashPrev) := by
            unfold creditOutput
            rw [own]
            rfl
          rw [same, ownOutput, own, Bool.false_or]
          exact ih
      | true =>
          obtain ⟨sub, first, amounts⟩ : ∃ sub : TransactionRecord,
              creditOutput shown wtx details nNet nDebit (parts, hashPrev) txout =
                some (parts ++ [sub], shown.env.txHash wtx.tx) ∧ sub.credit = credit ∧ sub.debit = 0 := by
            unfold creditOutput
            dsimp only
            rw [own, stake, known, Bool.not_true, if_neg Bool.false_ne_true, if_pos rfl, if_neg apart]
            refine ⟨_, rfl, rfl, ?_⟩
            dsimp only
            split
            · exact (creditRecord_total _ _).2
            · exact (creditRecord_total _ _).2
          rw [first, ownOutput, own, Bool.true_or, if_pos rfl]
          refine ⟨_, _, foldlM_creditOutput_done stake rest _, ?_⟩
          rw [recordTotal_append, amounts.1, amounts.2]
          simp

/-- A loop that starts with the hash of the coinstake makes no record. -/
theorem stake_total (stake : wtx.tx.isCoinStake = true) {credit : Int64}
    (known : stakeCredit wtx nNet nDebit = some credit) :
    ∃ parts hash, wtx.tx.vout.foldlM (creditOutput shown wtx details nNet nDebit) ([], 0) = some (parts, hash) ∧
      recordTotal parts =
        if shown.env.txHash wtx.tx ≠ 0 ∧ wtx.tx.vout.any shown.ownOutput = true then credit.toInt else 0 := by
  by_cases zero : shown.env.txHash wtx.tx = 0
  · rw [if_neg fun both => both.1 zero]
    refine ⟨[], 0, ?_, rfl⟩
    rw [← zero]
    exact foldlM_creditOutput_done stake _ _
  · obtain ⟨parts, hash, loop, total⟩ :=
      @foldlM_creditOutput_stake shown wtx details _ _ stake 0 (Ne.symm zero) credit known wtx.tx.vout []
    refine ⟨parts, hash, loop, total.trans ?_⟩
    simp only [ne_eq, zero, not_false_eq_true, true_and]
    exact Int.zero_add _

/-! ## Debits -/

theorem debitRecord_credit (idx : Nat) (txout : CTxOut) : (debitRecord shown wtx details idx txout).credit = 0 := by
  unfold debitRecord
  dsimp only
  split <;> rfl

/-- The debit of a value that is not negative. -/
theorem toInt_neg_of_nonneg {nValue : Int64} (nonneg : 0 ≤ nValue.toInt) : (-nValue).toInt = -nValue.toInt := by
  have below := nValue.toInt_lt
  rw [Int64.toInt_neg, Int.bmod_def]
  split <;> omega

/-- The loop shows the foreign outputs, and the fee with the first of them. -/
theorem foldl_debitOutput {vout : List CTxOut} (nonneg : ∀ txout ∈ vout, 0 ≤ txout.nValue.toInt) {nTxFee : Int64}
    (fits : outputsValue vout + nTxFee.toInt < 2 ^ 63) (parts : List TransactionRecord) :
    recordTotal (vout.foldl (debitOutput shown wtx details) (parts, nTxFee)).1 =
      recordTotal parts - valueOf (fun txout => !shown.ownOutput txout) vout -
        if 0 < nTxFee ∧ vout.all shown.ownOutput = false then nTxFee.toInt else 0 := by
  induction vout generalizing parts nTxFee with
  | nil =>
      rw [List.foldl_nil, List.all_nil, if_neg fun both => Bool.noConfusion both.2, Int.sub_zero]
      exact (Int.sub_zero _).symm
  | cons txout rest ih =>
      obtain ⟨here, others⟩ := List.forall_mem_cons.mp nonneg
      have value : outputsValue (txout :: rest) = txout.nValue.toInt + outputsValue rest := by
        rw [outputsValue, List.map_cons, List.sum_cons, outputsValue]
      have least : 0 ≤ outputsValue rest := (valueOf_le others fun _ => true).1.trans (valueOf_le others _).2
      have zero : (0 : Int64).toInt = 0 := rfl
      rw [value] at fits
      rw [List.foldl_cons, List.all_cons, valueOf_cons, debitOutput, ownOutput]
      cases shown.keys.isMine txout.scriptPubKey with
      | true =>
          rw [if_pos rfl, ih others (by omega), Bool.true_and]
          simp
      | false =>
          rw [if_neg Bool.false_ne_true, Bool.false_and]
          by_cases fee : 0 < nTxFee
          · have positive := Int64.lt_iff_toInt_lt.mp fee
            rw [zero] at positive
            have sum := Library.CheckedSum.toInt_add_of_lt (Int64.le_iff_toInt_le.mpr here)
              (Int64.le_iff_toInt_le.mpr (by rw [zero]; omega)) (by omega : _ + nTxFee.toInt < 2 ^ 63)
            dsimp only
            rw [if_pos fee, if_pos fee, ih others (by rw [zero]; omega), recordTotal_append, debitRecord_credit,
              toInt_neg_of_nonneg (by omega), sum, zero]
            simp [fee]
            omega
          · dsimp only
            rw [if_neg fee, if_neg fee, ih others (by omega), recordTotal_append, debitRecord_credit,
              toInt_neg_of_nonneg here, zero]
            simp [fee]
            omega

end RecordEnv

namespace RecordEnv

variable (shown : RecordEnv) (w : WalletCoins) (wtx : CWalletTx) (details : TxDetails)

/-- The transactions that are shown by their records: those that are not generated, mature coinbases, and mature
coinstakes with own inputs whose outputs are own or empty. -/
def Shown : Prop :=
  (wtx.tx.isCoinBase = false ∧ wtx.tx.isCoinStake = false) ∨
    (w.immature wtx = false ∧
      (wtx.tx.isCoinBase = true ∨
        (wtx.tx.isCoinStake = true ∧ (∀ txin ∈ wtx.tx.vin, w.isMineInput shown.keys txin = true) ∧
          ∀ txout ∈ wtx.tx.vout, txout.isEmpty = false → shown.ownOutput txout = true)))

/-- There are records, and they add up to what credit and debit net. -/
def AddsUp (nCredit nDebit : Int64) : Prop :=
  ∃ parts, decomposeTransaction shown w wtx details = some parts ∧ recordTotal parts = nCredit.toInt - nDebit.toInt

/-- Where they add up. -/
def RecordsFit (nCredit nDebit nValueOut : Int64) : Prop :=
  if wtx.tx.isCoinStake then
    nCredit = nDebit ∨ (shown.env.txHash wtx.tx ≠ 0 ∧ wtx.tx.vout.any shown.ownOutput = true)
  else if wtx.tx.isCoinBase ∨ nDebit < nCredit then nDebit = 0
  else
    wtx.tx.vin.all (w.isMineInput shown.keys) = true → wtx.tx.vout.all shown.ownOutput = false → nValueOut ≤ nDebit

variable {shown w wtx details} {nCredit nDebit nValueOut : Int64}

theorem isCoinStake_of_isCoinBase (base : wtx.tx.isCoinBase = true) : wtx.tx.isCoinStake = false := by
  unfold CTransaction.isCoinBase at base
  split at base
  · rename_i txin only
    rw [Bool.and_eq_true] at base
    unfold CTransaction.isCoinStake
    rw [only]
    split
    · rename_i same _
      obtain ⟨rfl, -⟩ := List.cons.inj same
      rw [base.1]
      rfl
    · rfl
  · cases base

/-- The transactions that are shown are mature. -/
theorem Shown.mature (covers : Shown shown w wtx) : w.immature wtx = false := by
  rcases covers with ⟨base, stake⟩ | ⟨mature, -⟩
  · rw [WalletCoins.immature, base, stake]
    rfl
  · exact mature

/-- A coinstake that is shown has no foreign value. -/
theorem Shown.stake_value (covers : Shown shown w wtx) (stake : wtx.tx.isCoinStake = true) :
    valueOf shown.ownOutput wtx.tx.vout = outputsValue wtx.tx.vout := by
  have own : ∀ txout ∈ wtx.tx.vout, txout.isEmpty = false → shown.ownOutput txout = true := by
    rcases covers with ⟨-, none⟩ | ⟨-, base | ⟨-, -, own⟩⟩
    · rw [stake] at none
      cases none
    · rw [isCoinStake_of_isCoinBase base] at stake
      cases stake
    · exact own
  have empty : ∀ vout : List CTxOut, (∀ txout ∈ vout, txout.isEmpty = false → shown.ownOutput txout = true) →
      valueOf (fun txout => !shown.ownOutput txout) vout = 0 := by
    intro vout
    induction vout with
    | nil => exact fun _ => rfl
    | cons txout rest ih =>
        intro own
        obtain ⟨here, others⟩ := List.forall_mem_cons.mp own
        rw [valueOf_cons, ih others, Int.add_zero]
        split
        · rename_i foreign
          have none : txout.isEmpty = true := by
            by_contra some_
            rw [here (Bool.eq_false_iff.mpr some_)] at foreign
            cases foreign
          rw [CTxOut.isEmpty, Bool.and_eq_true, decide_eq_true_eq] at none
          rw [none.1]
          rfl
        · rfl
  have parts := valueOf_add_not shown.ownOutput wtx.tx.vout
  rw [empty _ own] at parts
  omega

/-- The branches, once the amounts are known. -/
theorem decompose_eq (credit : (w.getCredit shown.keys wtx true).1 = some nCredit)
    (debit : (w.getDebit shown.keys wtx).1 = some nDebit) : decomposeTransaction shown w wtx details =
      if 0 < nCredit - nDebit ∨ wtx.tx.isCoinBase ∨ wtx.tx.isCoinStake then
        (wtx.tx.vout.foldlM (creditOutput shown wtx details (nCredit - nDebit) nDebit) ([], 0)).map Prod.fst
      else if wtx.tx.vin.all (w.isMineInput shown.keys) && wtx.tx.vout.all shown.ownOutput then
        (w.getChange shown.keys wtx).1.map fun nChange =>
          [{ newRecord shown wtx details with
            type := .sendToSelf, debit := -(nDebit - nChange), credit := nCredit - nChange }]
      else if wtx.tx.vin.all (w.isMineInput shown.keys) then
        wtx.tx.getValueOut.map fun nValueOut =>
          (wtx.tx.vout.foldl (debitOutput shown wtx details) ([], nDebit - nValueOut)).1
      else some [{ newRecord shown wtx details with debit := nCredit - nDebit }] := by
  simp only [decomposeTransaction, credit, debit, Option.bind_eq_bind, Option.bind_some]

section Sums

variable (credit : (w.getCredit shown.keys wtx true).1 = some nCredit)
  (debit : (w.getDebit shown.keys wtx).1 = some nDebit)
include credit debit

/-- A credit, in the first branch. -/
theorem addsUp_credit (noStake : wtx.tx.isCoinStake = false) (branch : 0 < nCredit - nDebit ∨ wtx.tx.isCoinBase = true)
    (value : nCredit.toInt = valueOf shown.ownOutput wtx.tx.vout) :
    AddsUp shown w wtx details nCredit nDebit ↔ nDebit = 0 := by
  obtain ⟨parts, loop, total⟩ :=
    @foldlM_creditOutput shown wtx details (nCredit - nDebit) nDebit noStake wtx.tx.vout ([], 0)
  have run : decomposeTransaction shown w wtx details = some parts := by
    rw [decompose_eq credit debit, if_pos (branch.imp_right Or.inl), loop]
    rfl
  have none : recordTotal [] = 0 := rfl
  rw [AddsUp, run, ← Int64.toInt_inj, Int64.toInt_zero]
  constructor
  · rintro ⟨found, same, sum⟩
    obtain rfl := Option.some.inj same
    dsimp only at total
    omega
  · intro zero
    refine ⟨parts, rfl, ?_⟩
    dsimp only at total
    omega

/-- A coinstake, which shows its net amount once. -/
theorem addsUp_stake (stake : wtx.tx.isCoinStake = true) (valueOut : wtx.tx.getValueOut = some nValueOut)
    (creditNonneg : 0 ≤ nCredit.toInt) (debitNonneg : 0 ≤ nDebit.toInt) (value : nCredit.toInt = nValueOut.toInt) :
    AddsUp shown w wtx details nCredit nDebit ↔
      nCredit = nDebit ∨ (shown.env.txHash wtx.tx ≠ 0 ∧ wtx.tx.vout.any shown.ownOutput = true) := by
  have net : stakeCredit wtx (nCredit - nDebit) nDebit = some (nCredit - nDebit) := by
    obtain rfl := Int64.toInt_inj.mp value
    rw [stakeCredit, valueOut, Option.map_some, ite_self]
  obtain ⟨parts, hash, loop, total⟩ := @stake_total shown wtx details _ _ stake (nCredit - nDebit) net
  have run : decomposeTransaction shown w wtx details = some parts := by
    rw [decompose_eq credit debit, if_pos (.inr (.inr stake)), loop]
    rfl
  rw [toInt_sub_of_nonneg creditNonneg debitNonneg] at total
  have same : nCredit = nDebit ↔ nCredit.toInt = nDebit.toInt := Int64.toInt_inj.symm
  rw [AddsUp, run, same]
  constructor
  · rintro ⟨found, known, sum⟩
    obtain rfl := Option.some.inj known
    by_cases made : shown.env.txHash wtx.tx ≠ 0 ∧ wtx.tx.vout.any shown.ownOutput = true
    · exact .inr made
    · rw [if_neg made] at total
      exact .inl (by omega)
  · intro fits
    refine ⟨parts, rfl, ?_⟩
    rw [total]
    rcases fits with equal | made
    · split <;> omega
    · rw [if_pos made]

/-- A payment to oneself and a mixed transaction show the net amount. -/
theorem addsUp_net (branch : ¬(0 < nCredit - nDebit ∨ wtx.tx.isCoinBase ∨ wtx.tx.isCoinStake))
    (kind : ¬(wtx.tx.vin.all (w.isMineInput shown.keys) = true ∧ wtx.tx.vout.all shown.ownOutput = false))
    {nChange : Int64} (change : (w.getChange shown.keys wtx).1 = some nChange) (changeNonneg : 0 ≤ nChange.toInt)
    (creditNonneg : 0 ≤ nCredit.toInt) (debitNonneg : 0 ≤ nDebit.toInt) :
    AddsUp shown w wtx details nCredit nDebit := by
  have total : ∀ sub : TransactionRecord, recordTotal [sub] = sub.credit.toInt + sub.debit.toInt := fun sub => by
    rw [recordTotal, List.map_singleton, List.sum_singleton]
  rw [AddsUp, decompose_eq credit debit, if_neg branch]
  cases fromMe : wtx.tx.vin.all (w.isMineInput shown.keys) with
  | false =>
      rw [Bool.false_and, if_neg Bool.false_ne_true, if_neg Bool.false_ne_true]
      refine ⟨_, rfl, ?_⟩
      rw [total, toInt_sub_of_nonneg creditNonneg debitNonneg]
      exact Int.zero_add _
  | true =>
      have toMe : wtx.tx.vout.all shown.ownOutput = true := by
        by_contra foreign
        exact kind ⟨fromMe, Bool.eq_false_iff.mpr foreign⟩
      rw [toMe, Bool.true_and, if_pos rfl, change]
      refine ⟨_, rfl, ?_⟩
      have below := nDebit.toInt_lt
      have changeBelow := nChange.toInt_lt
      have less := toInt_sub_of_nonneg debitNonneg changeNonneg
      rw [total, Int64.toInt_neg, less, toInt_sub_of_nonneg creditNonneg changeNonneg, Int.bmod_def]
      split <;> omega

/-- A debit shows the foreign outputs, and the fee where there is one. -/
theorem addsUp_debit (branch : ¬(0 < nCredit - nDebit ∨ wtx.tx.isCoinBase ∨ wtx.tx.isCoinStake))
    (fromMe : wtx.tx.vin.all (w.isMineInput shown.keys) = true) (toMe : wtx.tx.vout.all shown.ownOutput = false)
    (valueOut : wtx.tx.getValueOut = some nValueOut) (debitNonneg : 0 ≤ nDebit.toInt)
    (value : nCredit.toInt = valueOf shown.ownOutput wtx.tx.vout) :
    AddsUp shown w wtx details nCredit nDebit ↔ nValueOut ≤ nDebit := by
  obtain ⟨exact_, valueNonneg⟩ := CTransaction.addValueOut_exact (by decide) valueOut
  have parts := valueOf_add_not shown.ownOutput wtx.tx.vout
  have fee := toInt_sub_of_nonneg debitNonneg valueNonneg
  have below := nDebit.toInt_lt
  have zero : (0 : Int64).toInt = 0 := rfl
  have total := @foldl_debitOutput shown wtx details wtx.tx.vout (mem_range valueOut) (nDebit - nValueOut)
    (by rw [fee]; omega) []
  simp only [toMe, and_true, Int64.lt_iff_toInt_lt, fee, zero] at total
  rw [AddsUp, decompose_eq credit debit, if_neg branch, toMe, Bool.and_false, if_neg Bool.false_ne_true, if_pos fromMe,
    valueOut, Option.map_some, Int64.le_iff_toInt_le]
  have none : recordTotal [] = 0 := rfl
  constructor
  · rintro ⟨found, same, sum⟩
    obtain rfl := Option.some.inj same
    rw [total] at sum
    split at sum <;> omega
  · intro covered
    refine ⟨_, rfl, ?_⟩
    rw [total]
    split <;> omega

end Sums

/-- The records of a transaction add up to what credit and debit net exactly where these amounts and the branch that
they choose fit. -/
theorem records_add_up_iff (covers : Shown shown w wtx) (computed : WalletCoins.Computed shown.keys wtx)
    (valueOut : wtx.tx.getValueOut = some nValueOut) (credit : (w.getCredit shown.keys wtx true).1 = some nCredit)
    (debit : (w.getDebit shown.keys wtx).1 = some nDebit) :
    AddsUp shown w wtx details nCredit nDebit ↔ RecordsFit shown w wtx nCredit nDebit nValueOut := by
  obtain ⟨value, creditNonneg⟩ := WalletCoins.sumOutputs_exact (computed.getCredit_eq covers.mature credit)
  have debitNonneg := computed.getDebit_nonneg debit
  obtain ⟨exact_, -⟩ := CTransaction.addValueOut_exact (by decide) valueOut
  have zero : (0 : Int64).toInt = 0 := rfl
  have net : 0 < nCredit - nDebit ↔ nDebit < nCredit := by
    rw [Int64.lt_iff_toInt_lt, Int64.lt_iff_toInt_lt, toInt_sub_of_nonneg creditNonneg debitNonneg, zero]
    omega
  rw [RecordsFit]
  cases stake : wtx.tx.isCoinStake with
  | true =>
      rw [if_pos rfl]
      refine addsUp_stake credit debit stake valueOut creditNonneg debitNonneg ?_
      have own := covers.stake_value stake
      rw [value, exact_, zero, ← own]
      exact (Int.zero_add _).symm
  | false =>
      rw [if_neg Bool.false_ne_true]
      by_cases branch : wtx.tx.isCoinBase = true ∨ nDebit < nCredit
      · rw [if_pos branch]
        exact addsUp_credit credit debit stake (branch.symm.imp_left net.mpr) value
      · rw [if_neg branch]
        have other : ¬(0 < nCredit - nDebit ∨ wtx.tx.isCoinBase ∨ wtx.tx.isCoinStake) := by
          rw [net, stake]
          rintro (positive | base | never)
          · exact branch (.inr positive)
          · exact branch (.inl base)
          · cases never
        by_cases kind : wtx.tx.vin.all (w.isMineInput shown.keys) = true ∧ wtx.tx.vout.all shown.ownOutput = false
        · rw [addsUp_debit credit debit other kind.1 kind.2 valueOut debitNonneg value]
          exact ⟨fun covered _ _ => covered, fun covered => covered kind.1 kind.2⟩
        · obtain ⟨nChange, change, changeNonneg⟩ := @WalletCoins.Computed.getChange_some _ w _ computed _ valueOut
          exact iff_of_true (addsUp_net credit debit other kind change changeNonneg creditNonneg debitNonneg)
            fun fromMe toMe => absurd ⟨fromMe, toMe⟩ kind

/-! ## Current debits -/

/-- The outputs that the inputs spend have values, which cover the outputs; the wallet knows its own ones. -/
structure Covered (w : WalletCoins) (tx : CTransaction) (spent : CTxIn → CTxOut) : Prop where
  known : ∀ txin ∈ tx.vin, ∀ txout, w.output txin.prevout.hash txin.prevout.n.toNat = some txout → spent txin = txout
  values : ∀ txin ∈ tx.vin, 0 ≤ (spent txin).nValue.toInt
  total : outputsValue tx.vout ≤ (tx.vin.map fun txin => (spent txin).nValue.toInt).sum

/-- An own input is debited with what it spends. -/
theorem debitOf_own {keys : WalletKeys} {txin : CTxIn} {spent : CTxOut} (own : w.isMineInput keys txin = true)
    (known : ∀ txout, w.output txin.prevout.hash txin.prevout.n.toNat = some txout → spent = txout) :
    w.debitOf keys txin = spent.nValue := by
  rw [WalletCoins.debitOf_eq]
  unfold WalletCoins.isMineInput at own
  unfold WalletCoins.output at known ⊢
  cases found : w.mapWallet txin.prevout.hash with
  | none =>
      rw [found] at own
      cases own
  | some prev =>
      rw [found] at own known
      rw [Option.bind_some] at known ⊢
      dsimp only at own
      cases output : prev.tx.vout[txin.prevout.n.toNat]? with
      | none =>
          rw [output] at own
          cases own
      | some txout =>
          rw [output] at own
          dsimp only at own ⊢
          rw [if_pos own, known txout output]

/-- A debit that is not an old one covers the outputs of a transaction with own inputs. So a transaction that is not
generated has fitting records, unless it brings more than it spends and still spends something. -/
theorem recordsFit_iff_of_current (base : wtx.tx.isCoinBase = false) (stake : wtx.tx.isCoinStake = false)
    {spent : CTxIn → CTxOut} (covered : Covered w wtx.tx spent)
    (current : w.getDebitTx shown.keys wtx.tx = some nDebit) (valueOut : wtx.tx.getValueOut = some nValueOut) :
    RecordsFit shown w wtx nCredit nDebit nValueOut ↔ (nDebit < nCredit → nDebit = 0) := by
  rw [RecordsFit, stake, base, if_neg Bool.false_ne_true]
  by_cases more : nDebit < nCredit
  · rw [if_pos (.inr more)]
    exact ⟨fun zero _ => zero, fun zero => zero more⟩
  · rw [if_neg fun either => either.elim Bool.false_ne_true more]
    refine iff_of_true (fun fromMe _ => ?_) fun positive => absurd positive more
    have values : wtx.tx.vin.map (Int64.toInt ∘ w.debitOf shown.keys) =
        wtx.tx.vin.map fun txin => (spent txin).nValue.toInt := by
      refine List.map_congr_left fun txin member => ?_
      rw [Function.comp_apply, debitOf_own (List.all_eq_true.mp fromMe txin member) (covered.known txin member)]
    obtain ⟨sum, -⟩ := sumMoney_exact current
    obtain ⟨exact_, -⟩ := CTransaction.addValueOut_exact (by decide) valueOut
    have zero : (0 : Int64).toInt = 0 := rfl
    have total := covered.total
    rw [List.map_map, values] at sum
    rw [Int64.le_iff_toInt_le]
    omega

end RecordEnv

section Concrete

open RecordEnv

/-- Keys that own one script. -/
def RecordEnv.sample : RecordEnv where
  env := .labelled true
  keys := ⟨fun script => script = [0x51], fun _ => none, fun _ => false, 0⟩
  addressHash _ := 0

/-- A wallet with one coin of 5. -/
def fiveCoins : WalletCoins where
  mapWallet hash := if hash = 1 then some (.ofTx ⟨1, 1000, [⟨⟨9, 0⟩, [], 0⟩], [⟨5, [0x51]⟩], 1⟩) else none
  vchDefaultKey := none
  mapAddressBook _ := false
  blocksToMaturity _ := 0

/-- A payment of 8 to the wallet, with some inputs. -/
def paysWallet (vin : List CTxIn) : CWalletTx := .ofTx ⟨1, 1000, vin, [⟨8, [0x51]⟩], 2⟩

def TxDetails.none : TxDetails := ⟨∅, 0, 0, 0⟩

/-- A payment from someone else. -/
theorem records_add_up_sample : AddsUp .sample fiveCoins (paysWallet [⟨⟨7, 0⟩, [], 0⟩]) .none 8 0 :=
  (records_add_up_iff (.inl ⟨rfl, rfl⟩) (.of_none rfl rfl rfl) rfl rfl rfl).mpr (by decide : (0 : Int64) = 0)

/-- Someone else adds to the wallet's own coin: the record is for all that comes back. -/
theorem records_leave_out_debit :
    ¬∀ (shown : RecordEnv) (w : WalletCoins) (wtx : CWalletTx) (details : TxDetails) (spent : CTxIn → CTxOut)
      (nCredit nDebit nValueOut : Int64), w.Accurate shown.keys wtx → wtx.tx.isCoinBase = false →
      wtx.tx.isCoinStake = false → Covered w wtx.tx spent → wtx.tx.getValueOut = some nValueOut →
      (w.getCredit shown.keys wtx true).1 = some nCredit → (w.getDebit shown.keys wtx).1 = some nDebit →
        AddsUp shown w wtx details nCredit nDebit := by
  intro claim
  have covered : Covered fiveCoins (paysWallet [⟨⟨1, 0⟩, [], 0⟩, ⟨⟨7, 0⟩, [], 0⟩]).tx fun _ => ⟨5, [0x51]⟩ := by
    refine ⟨?_, by decide, by decide⟩
    rintro txin member txout found
    rcases List.mem_cons.mp member with rfl | later
    · exact Option.some.inj found
    · obtain rfl := List.mem_singleton.mp later
      cases found
  obtain ⟨parts, shown, sum⟩ := claim .sample fiveCoins _ .none _ 8 5 8 (.of_none rfl rfl rfl rfl) rfl rfl covered rfl
    rfl rfl
  have records : decomposeTransaction .sample fiveCoins (paysWallet [⟨⟨1, 0⟩, [], 0⟩, ⟨⟨7, 0⟩, [], 0⟩]) .none =
      some [⟨2, 0, .recvFromOther, [], 0, 8, 0⟩] := by decide
  obtain rfl := Option.some.inj (records.symm.trans shown)
  exact absurd sum (by decide)

end Concrete

end InfiniteRicks
