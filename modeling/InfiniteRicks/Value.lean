import InfiniteRicks.ConnectSpec
import InfiniteRicks.Library.CheckedSum

/-!
# What a block creates

The exact value of what the transactions of a block pay out and consume, and how
it relates to the 64-bit sums of `ConnectBlock`. An ordinary transaction pays out
at most what it consumes; the coinbase and the coinstake in second place are held
to the reward and the fees. A coinstake-shaped transaction further back in a
proof-of-work block is held to nothing.
-/

namespace InfiniteRicks

open Ledger Library.CheckedSum

/-- The transaction that an index entry points to, in the block files or the pool. -/
def readTxAt (s : Node) (hash : UInt256) (pos : CDiskTxPos) : Option CTransaction :=
  if pos = CDiskTxPos.memoryPool then s.mempool.lookup hash else s.files.readTx pos

/-- The output that an outpoint names, under an index. -/
def prevOut (s : Node) (index : TxIndexMap) (prevout : COutPoint) : Option CTxOut :=
  (index prevout.hash).bind fun entry =>
    (readTxAt s prevout.hash entry.pos).bind fun txPrev => txPrev.vout[prevout.n.toNat]?

/-- Exact value of a list of outputs. -/
def outputsValue (vout : List CTxOut) : Int := (vout.map fun txout => txout.nValue.toInt).sum

/-- Exact value of what a list of inputs consumes. -/
def inputsValue (s : Node) (index : TxIndexMap) (vin : List CTxIn) : Int :=
  (vin.map fun txin => ((prevOut s index txin.prevout).map fun txout => txout.nValue.toInt).getD 0).sum

/-- Exact value that a transaction pays out beyond what it consumes. -/
def createdBy (s : Node) (index : TxIndexMap) (tx : CTransaction) : Int :=
  outputsValue tx.vout - if tx.isCoinBase then 0 else inputsValue s index tx.vin

/-- Exact value that the selected transactions of a block create, each against the
index of its turn. -/
def created (env : Env) (s : Node) (select : CTransaction → Bool) : TxIndexMap → TxHistory → Int
  | _, [] => 0
  | index, (tx, pos) :: rest =>
      (if select tx then createdBy s index tx else 0) +
        created env s select (applyTx env index tx pos) rest

/-- Neither a coinbase nor coinstake-shaped. -/
def CTransaction.isOrdinary (tx : CTransaction) : Bool := !tx.isCoinBase && !tx.isCoinStake

section Wrapping

/-- Adding two amounts that are not negative wraps only into a negative amount. -/
theorem toInt_add_of_nonneg {first second : Int64} (firstNonneg : 0 ≤ first.toInt)
    (secondNonneg : 0 ≤ second.toInt) (sumNonneg : 0 ≤ (first + second).toInt) :
    (first + second).toInt = first.toInt + second.toInt := by
  have firstLt := first.toInt_lt
  have secondLt := second.toInt_lt
  rw [Int64.toInt_add] at sumNonneg ⊢
  rw [Int.bmod_def] at sumNonneg ⊢
  split <;> rename_i h <;> simp only [h, if_true, if_false] at sumNonneg <;> omega

/-- The difference of two amounts that are not negative is exact. -/
theorem toInt_sub_of_nonneg {first second : Int64} (firstNonneg : 0 ≤ first.toInt)
    (secondNonneg : 0 ≤ second.toInt) : (first - second).toInt = first.toInt - second.toInt := by
  have firstLt := first.toInt_lt
  have secondLt := second.toInt_lt
  rw [Int64.toInt_sub, Int.bmod_def]
  split <;> omega

theorem maxMoney_toInt : maxMoney.toInt = 2 ^ 63 - 1 := by decide

/-- A 64-bit amount is the exact one while that is in range. -/
theorem toInt_ofInt_eq {x : Int} (lower : -2 ^ 63 ≤ x) (upper : x ≤ maxMoney.toInt) :
    (Int64.ofInt x).toInt = x := by
  rw [maxMoney_toInt] at upper
  have size : Int64.size = 2 ^ 64 := rfl
  rw [Int64.toInt_ofInt, Int.bmod_def, size]
  split <;> omega

end Wrapping

namespace CTransaction

variable {env : Env} {s : Node} {tx : CTransaction} {index : TxIndexMap}

/-- The amounts of a list of outputs. -/
def amounts (vout : List CTxOut) : List Int64 := vout.map CTxOut.nValue

theorem exactSum_amounts (vout : List CTxOut) : exactSum (amounts vout) = outputsValue vout := by
  rw [exactSum, amounts, List.map_map]
  rfl

/-- The range test of a value and a partial sum looks at their signs. -/
theorem ranges_iff {nValue sum : Int64} : (!moneyRange nValue || !moneyRange sum) = false ↔ 0 ≤ nValue ∧ 0 ≤ sum := by
  rw [Bool.or_eq_false_iff, Bool.not_eq_false', Bool.not_eq_false', moneyRange_iff, moneyRange_iff,
    Int64.le_iff_toInt_le, Int64.le_iff_toInt_le, Int64.toInt_zero]

/-- The loop of `GetValueOut` is the checked sum of the outputs. -/
theorem addValueOut_eq (start : Int64) (vout : List CTxOut) :
    addValueOut start vout = checkedSum start (amounts vout) := by
  induction vout generalizing start with
  | nil => rfl
  | cons txout rest ih =>
      simp only [addValueOut, amounts, List.map_cons, checkedSum]
      by_cases signs : 0 ≤ txout.nValue ∧ 0 ≤ start + txout.nValue
      · rw [if_pos signs, ranges_iff.mpr signs, if_neg Bool.false_ne_true]
        exact ih _
      · rw [if_neg signs, if_pos (by rw [← Bool.not_eq_false, ranges_iff]; exact signs)]

/-- `GetValueOut` adds without wrapping. -/
theorem addValueOut_exact {vout : List CTxOut} {start total : Int64} (nonneg : 0 ≤ start.toInt)
    (summed : addValueOut start vout = some total) :
    total.toInt = start.toInt + outputsValue vout ∧ 0 ≤ total.toInt := by
  rw [addValueOut_eq, checkedSum_eq_some (Int64.le_iff_toInt_le.mpr nonneg), exactSum_amounts] at summed
  have more := exactSum_nonneg summed.1
  rw [exactSum_amounts] at more
  exact ⟨summed.2, by omega⟩

/-- Fetched entries are those of the index, with the transactions they point to. -/
def Located (s : Node) (index : TxIndexMap) (inputs : MapPrevTx) : Prop :=
  ∀ hash prev, inputs hash = some prev →
    index hash = some prev.1 ∧ readTxAt s hash prev.1.pos = some prev.2

theorem fetchPrev_located {queued : QueuedChanges} {hash : UInt256} {prev : CTxIndex × CTransaction}
    (fetched : fetchPrev s s.txdb queued true false hash = some prev) :
    overlay queued s.txdb.txIndex hash = some prev.1 ∧ readTxAt s hash prev.1.pos = some prev.2 := by
  refine ⟨fetchPrev_entry fetched, ?_⟩
  simp only [fetchPrev, Bool.true_or, if_true] at fetched
  unfold readTxAt
  split at fetched
  · cases fetched
  · split at fetched
    · rename_i pooled
      obtain ⟨txPrev, found, rfl⟩ := Option.map_eq_some_iff.mp fetched
      rw [if_pos pooled]
      exact found
    · rename_i stored
      obtain ⟨txPrev, found, rfl⟩ := Option.map_eq_some_iff.mp fetched
      rw [if_neg stored]
      exact found

theorem fetchInputs_located {queued : QueuedChanges} {inputs : MapPrevTx}
    (fetched : tx.fetchInputs s s.txdb queued true false = .ok inputs) :
    Located s (overlay queued s.txdb.txIndex) inputs :=
  fetchInputs_forall (fun _ _ found => fetchPrev_located found) fetched

/-- The amounts of the outputs that inputs spend; nothing for an input that is not fetched. -/
def spentAmounts (inputs : MapPrevTx) (vin : List CTxIn) : List Int64 :=
  vin.map fun txin => ((getOutputFor inputs txin).map CTxOut.nValue).getD 0

/-- The value loop of `ConnectInputs` is the checked sum of the spent outputs, and all of
these are there. -/
theorem checkInputs_summed {pindexBlock : BlockPtr} {inputs : MapPrevTx} {vin : List CTxIn} {start total : Int64}
    (checked : checkInputs env pindexBlock inputs tx vin start = some total) :
    checkedSum start (spentAmounts inputs vin) = some total ∧
      ∀ txin ∈ vin, ∃ txout, getOutputFor inputs txin = some txout := by
  induction vin generalizing start with
  | nil =>
      rw [checkInputs] at checked
      exact ⟨checked, by simp⟩
  | cons txin rest ih =>
      simp only [checkInputs] at checked
      split at checked
      · cases checked
      rename_i txindex txPrev found
      split at checked
      · cases checked
      rename_i txout output
      have named : getOutputFor inputs txin = some txout := by rw [getOutputFor, found]; exact output
      split at checked
      · cases checked
      split at checked
      · cases checked
      split at checked
      · cases checked
      split at checked
      · cases checked
      rename_i ranges
      obtain ⟨summed, there⟩ := ih checked
      refine ⟨?_, List.forall_mem_cons.mpr ⟨⟨txout, named⟩, there⟩⟩
      rw [spentAmounts, List.map_cons, named, Option.map_some, Option.getD_some, checkedSum,
        if_pos (ranges_iff.mp (Bool.not_eq_true _ ▸ ranges))]
      exact summed

/-- Where all inputs are fetched, `GetValueIn` adds the same amounts. -/
theorem addValueIn_eq {inputs : MapPrevTx} {vin : List CTxIn} {start : Int64}
    (there : ∀ txin ∈ vin, ∃ txout, getOutputFor inputs txin = some txout) :
    addValueIn inputs start vin = some ((spentAmounts inputs vin).foldl (· + ·) start) := by
  induction vin generalizing start with
  | nil => rfl
  | cons txin rest ih =>
      obtain ⟨⟨txout, named⟩, there⟩ := List.forall_mem_cons.mp there
      rw [addValueIn, named, spentAmounts, List.map_cons, named]
      exact ih there

/-- The outputs that fetched inputs spend are those of the index. -/
theorem exactSum_spentAmounts {inputs : MapPrevTx} {vin : List CTxIn} (located : Located s index inputs)
    (there : ∀ txin ∈ vin, ∃ txout, getOutputFor inputs txin = some txout) :
    exactSum (spentAmounts inputs vin) = inputsValue s index vin := by
  rw [exactSum, inputsValue, spentAmounts, List.map_map]
  refine congrArg List.sum (List.map_congr_left fun txin member => ?_)
  obtain ⟨txout, named⟩ := there txin member
  have output := named
  rw [getOutputFor] at output
  split at output
  · cases output
  rename_i txindex txPrev found
  obtain ⟨entry, stored⟩ := located _ _ found
  have consumed : prevOut s index txin.prevout = some txout := by
    simp [prevOut, entry, stored, output]
  rw [Function.comp_apply, named, consumed]
  rfl

/-- The checked input sum is exact, and it is what `GetValueIn` returns. -/
theorem checkInputs_exact {pindexBlock : BlockPtr} {inputs : MapPrevTx} {vin : List CTxIn}
    {start total : Int64} (located : Located s index inputs) (nonneg : 0 ≤ start.toInt)
    (checked : checkInputs env pindexBlock inputs tx vin start = some total) :
    total.toInt = start.toInt + inputsValue s index vin ∧ 0 ≤ total.toInt ∧
      addValueIn inputs start vin = some total := by
  obtain ⟨summed, there⟩ := checkInputs_summed checked
  obtain ⟨each, exact⟩ := (checkedSum_eq_some (Int64.le_iff_toInt_le.mpr nonneg)).mp summed
  have more := exactSum_nonneg each
  rw [exactSum_spentAmounts located there] at exact more
  exact ⟨exact, by omega, by rw [addValueIn_eq there, eq_foldl_of_checkedSum summed]⟩

/-- What a successful `ConnectInputs` says about values: the sum of `GetValueIn` is
exact, and unless the transaction is coinstake-shaped it covers the outputs. -/
theorem connectInputs_value {nBestHeight : Int} {inputs : MapPrevTx} {queued after : QueuedChanges}
    {pos : CDiskTxPos} {pindexBlock : BlockPtr} {nTxValueIn nTxValueOut : Int64}
    (connected : tx.connectInputs env nBestHeight inputs queued pos pindexBlock true false = some after)
    (ordinary : tx.isCoinBase = false) (located : Located s index inputs)
    (valueIn : tx.getValueIn inputs = some nTxValueIn) (valueOut : tx.getValueOut = some nTxValueOut) :
    nTxValueIn.toInt = inputsValue s index tx.vin ∧ 0 ≤ nTxValueIn.toInt ∧
      (tx.isCoinStake = false → nTxValueOut.toInt ≤ nTxValueIn.toInt) := by
  simp only [connectInputs, ordinary, Bool.false_eq_true, if_false] at connected
  split at connected
  · cases connected
  rename_i nValueIn checked
  obtain ⟨value, nonneg, sum⟩ := checkInputs_exact located (by decide) checked
  have same : nValueIn = nTxValueIn := by
    simp only [getValueIn, ordinary, Bool.false_eq_true, if_false, sum, Option.some.injEq] at valueIn
    exact valueIn
  subst same
  refine ⟨by simpa using value, nonneg, ?_⟩
  intro notStake
  split at connected
  · cases connected
  split at connected
  · rename_i fee
    simp only [checkFee, notStake, Bool.false_eq_true, if_false, valueOut, Bool.and_eq_true,
      Bool.not_eq_true', decide_eq_false_iff_not] at fee
    have covered := fee.1.1.1
    rw [Int64.lt_iff_toInt_lt] at covered
    omega
  · cases connected

/-- A coinbase is not coinstake-shaped: its only prevout is null. -/
theorem not_isCoinStake_of_isCoinBase (base : tx.isCoinBase = true) : tx.isCoinStake = false := by
  unfold isCoinBase at base
  unfold isCoinStake
  split at base
  · rename_i txin inputs
    simp only [Bool.and_eq_true] at base
    split
    · rename_i first others _ _ rest shape outs
      rw [inputs, List.cons.injEq] at shape
      simp [← shape.1, base.1]
    · rfl
  · cases base

end CTransaction

section Sums

variable {env : Env} {s : Node} {index : TxIndexMap} {entries : TxHistory}

end Sums

namespace CBlock

variable {env : Env} {s after : Node} {block : CBlock} {pindex : CBlockIndex} {pprev : BlockPtr}

/-- What one round of the transaction loop adds to the fees and the stake reward. -/
theorem connectTx_value {fJustCheck : Bool} {acc next : ConnectState} {tx : CTransaction}
    (step : connectTx env s pindex pprev fJustCheck acc tx = some next) :
    (tx.isOrdinary = true → createdBy s (overlay acc.mapQueuedChanges s.txdb.txIndex) tx ≤ 0) ∧
      next.nFees = acc.nFees + Int64.ofInt (if tx.isOrdinary then
        -createdBy s (overlay acc.mapQueuedChanges s.txdb.txIndex) tx else 0) ∧
      next.nStakeReward.toInt = if tx.isCoinStake then
        createdBy s (overlay acc.mapQueuedChanges s.txdb.txIndex) tx else acc.nStakeReward.toInt := by
  obtain ⟨-, -, ⟨base, _, _, fees, reward, _⟩ |
    ⟨ordinary, inputs, nTxValueIn, nTxValueOut, queued, fetched, valueIn, valueOut, connected, fees, reward,
      _⟩⟩ := connectTx_cases step
  · have notStake := CTransaction.not_isCoinStake_of_isCoinBase base
    have notOrdinary : tx.isOrdinary = false := by simp [CTransaction.isOrdinary, base]
    have zero : Int64.ofInt 0 = 0 := rfl
    simp [notOrdinary, notStake, fees, reward, zero]
  · obtain ⟨consumed, consumedNonneg, covered⟩ := CTransaction.connectInputs_value connected ordinary
      (CTransaction.fetchInputs_located fetched) valueIn valueOut
    obtain ⟨paid, paidNonneg⟩ := CTransaction.addValueOut_exact (by decide) valueOut
    have net : createdBy s (overlay acc.mapQueuedChanges s.txdb.txIndex) tx =
        nTxValueOut.toInt - nTxValueIn.toInt := by
      have zero : Int64.toInt 0 = 0 := rfl
      rw [createdBy, ordinary, consumed, paid, zero]
      simp
    rw [net]
    cases stake : tx.isCoinStake with
    | true =>
        have notOrdinary : tx.isOrdinary = false := by simp [CTransaction.isOrdinary, stake]
        have zero : Int64.ofInt 0 = 0 := rfl
        rw [stake, if_pos rfl] at fees reward
        rw [reward, toInt_sub_of_nonneg paidNonneg consumedNonneg]
        simp [notOrdinary, fees, zero]
    | false =>
        have isOrdinary : tx.isOrdinary = true := by simp [CTransaction.isOrdinary, ordinary, stake]
        rw [stake] at fees reward
        have difference : nTxValueIn - nTxValueOut = Int64.ofInt (-(nTxValueOut.toInt - nTxValueIn.toInt)) := by
          rw [Int.neg_sub, Int64.ofInt_sub, Int64.ofInt_toInt, Int64.ofInt_toInt]
        refine ⟨fun _ => ?_, ?_, ?_⟩
        · have := covered stake
          omega
        · rw [fees, if_neg Bool.false_ne_true, difference, if_pos isOrdinary]
        · simpa using congrArg Int64.toInt reward

end CBlock

section Concrete

/-- A confirmed transaction with two outputs. -/
def funding : CTransaction :=
  { CTransaction.labelledSpend 50 900 ⟨49, 0⟩ (2 * coin) with
    vout := [⟨2 * coin, [0x51]⟩, ⟨1, [0x51]⟩] }

theorem fundedPos_nullUnique : (1 : UInt32) = 0xffffffff → (500 : UInt32) = 0 ∧ (581 : UInt32) = 0 := by decide

/-- A node that has `funding` indexed, unspent, and in its block files. -/
def fundedNode : Node :=
  let pos : CDiskTxPos := ⟨1, 500, 581, fundedPos_nullUnique⟩
  { Node.initial ⟨fun at_ => if at_ = pos then some funding else none, fun _ _ => none⟩
      (fun _ => true) 1000 with
    txdb := ⟨fun key => if key = .tx 50 then some (.txIndex (CTxIndex.new pos 2)) else none, none,
      fun _ => true, 0⟩ }

/-- A proof-of-work block with the given transactions behind a coinbase and an
ordinary transaction that pays the minimum fee. -/
def workBlock (vtx : List CTransaction) : CBlock :=
  .labelled 1 0 1000 0x1e0fffff (.labelledCoinBase 60 1000 [0x51, 0] [⟨1000 * coin, [0x51]⟩] ::
    .labelledSpend 62 1000 ⟨50, 0⟩ (2 * coin - 10000) :: vtx)

def workEntry : CBlockIndex := .labelled 1 1 0 false 1000 0x1e0fffff

def workGenesis : CBlockIndex := .labelled 0 0 0 false 1000 0x1e0fffff

end Concrete

end InfiniteRicks
