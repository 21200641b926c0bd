import InfiniteRicks.CreateTransactionSpec
import InfiniteRicks.StakedBlock

/-!
# What a coinstake pays

`AvailableCoinsForStaking` and `SelectCoinsForStaking` (`wallet.cpp`), and what
`CreateCoinStake` makes of the coins they choose. The balance is cut down so that a credit
leaves room for one coin of reward, and no more than that.
-/

namespace InfiniteRicks

/-- A wallet that stakes, with what its coinstakes depend on. -/
structure Staker (CKey : Type) where
  payer : Payer
  nReserveBalance : Int64
  /-- The order of the pointers in `setCoins`. -/
  order : CoinSet → List Coin
  ordered : ∀ setCoins, (order setCoins).Perm setCoins
  /-- `Solver` and `GetKey` for the script of a kernel. -/
  kernelKey : CScript → Option (CKey × CScript)
  /-- `SignSignature`: the `scriptSig` of the input. -/
  signSignature : CTransaction → CTransaction → Nat → Option CScript
  /-- `CKey::Sign`. -/
  sign : CKey → UInt256 → Option (List UInt8)

/-- A selected coin, as `CreateCoinStake` takes it. -/
def Coin.stakeCoin (pcoin : Coin) : Option StakeCoin :=
  if real : pcoin.i ≠ 0xffffffff then some ⟨pcoin.tx.wtx.tx, pcoin.i, pcoin.inRange, real⟩ else none

/-- The loop of `SelectCoinsForStaking`: `setCoinsRet` and `nValueRet`. -/
def selectForStaking (nTargetValue : Int64) : List COutput → CoinSet × Int64 → CoinSet × Int64
  | [], ret => ret
  | output :: rest, ret =>
      if nTargetValue ≤ ret.2 then ret
      else if nTargetValue ≤ output.coin.nValue then takeCoins [output.coin] ret
      else if output.coin.nValue < nTargetValue + cent then
        if (Int64.maxValue - coin).toInt < ret.2.toInt + output.coin.nValue.toInt then ret
        else selectForStaking nTargetValue rest (takeCoins [output.coin] ret)
      else selectForStaking nTargetValue rest ret

namespace Payer

variable (p : Payer)

/-- The coins of one transaction in `AvailableCoinsForStaking`. -/
def stakeableOf (nSpendTime : UInt32) (hash : UInt256) (t : AccountTx) : List COutput :=
  if nSpendTime < t.wtx.tx.nTime + UInt32.ofInt p.env.nStakeMinAge then []
  else if 0 < p.view.getBlocksToMaturity t.wtx then []
  else if p.view.getDepthInMainChain t.wtx < 1 then []
  else
    ((coinsOf hash t).filter (p.isAvailable none)).map fun pcoin => ⟨pcoin, p.view.getDepthInMainChain t.wtx⟩

/-- `AvailableCoinsForStaking`. -/
def availableCoinsForStaking (nSpendTime : UInt32) : List COutput :=
  p.wallet.mapWallet.entries.flatMap fun entry => p.stakeableOf nSpendTime entry.1 entry.2

/-- `SelectCoinsForStaking`, which returns true. -/
def selectCoinsForStaking (nTargetValue : Int64) (nSpendTime : UInt32) : CoinSet × Int64 :=
  selectForStaking nTargetValue (p.availableCoinsForStaking nSpendTime) ([], 0)

/-- The exact value of inputs that spend coins of the wallet. -/
def creditOf (vin : List CTxIn) : Int :=
  (vin.map fun txin =>
    (((p.wallet.mapWallet.lookup txin.prevout.hash).bind fun t =>
      t.wtx.tx.vout[txin.prevout.n.toNat]?).map fun txout => txout.nValue.toInt).getD 0).sum

end Payer

namespace Staker

variable {CKey : Type} (st : Staker CKey) (hashes : KernelHash) (s : Node) (nBits nTime : UInt32)
  (nSearchInterval : Int) (nFees : Int64)

/-- The wallet at a balance. -/
def cwallet (nBalance : Int) : CWallet CKey where
  nBalance := nBalance
  nReserveBalance := st.nReserveBalance.toInt
  selectCoinsForStaking nLimit nTime :=
    (st.order (st.payer.selectCoinsForStaking (Int64.ofInt nLimit) nTime).1).filterMap Coin.stakeCoin
  kernelKey := st.kernelKey
  signSignature := st.signSignature
  sign := st.sign

/-- `GetBalance`, where it does not throw. -/
def getBalance : Option Int :=
  st.payer.wallet.getBalance st.payer.env st.payer.view st.payer.keys st.payer.fConfChange st.payer.fuel

/-- `CreateCoinStake` of this wallet. -/
def createCoinStake : Option (CTransaction × CKey) :=
  st.getBalance.bind fun nBalance =>
    InfiniteRicks.createCoinStake st.payer.env hashes (st.cwallet nBalance) s nBits nTime nSearchInterval nFees

/-- The coins that the two loops of `CreateCoinStake` choose, and the time of the kernel. -/
def chooseStake : Option (List StakeCoin × UInt32) :=
  st.getBalance.bind fun nBalance =>
    let wallet := st.cwallet nBalance
    let setCoins := wallet.selectCoinsForStaking wallet.stakeLimit nTime
    (findKernel st.payer.env hashes wallet s nBits nTime nSearchInterval setCoins).map fun kernel =>
      let nTime := nTime - UInt32.ofNat kernel.n
      ((addStakeInputs st.payer.env kernel nTime (!kernel.splits st.payer.env nTime) wallet.stakeLimit setCoins
        [kernel.pcoin] kernel.pcoin.txout.nValue).1, nTime)

/-- `GetCoinAge` of a transaction that spends some coins at a time. -/
def coinAgeOf (coins : List StakeCoin) (nTime : UInt32) : Option UInt64 :=
  CTransaction.getCoinAge st.payer.env s.reading
    { nVersion := 1
      nTime := nTime
      vin := coins.map fun pcoin => ⟨pcoin.prevout st.payer.env, [], 0xffffffff⟩
      vout := []
      nLockTime := 0 }

/-- The chosen coins and their reward are together an amount. -/
def RewardFits : Prop :=
  ∀ coins nTimeTx nCoinAge, st.chooseStake hashes s nBits nTime nSearchInterval = some (coins, nTimeTx) →
    st.coinAgeOf s coins nTimeTx = some nCoinAge →
    (coins.map fun pcoin => pcoin.txout.nValue.toInt).sum +
      (getProofOfStakeReward nCoinAge.toInt64 nFees).toInt ≤ maxMoney.toInt

/-- The first input of a transaction is an output of the wallet that is a kernel at its time. -/
def KernelFirst (txNew : CTransaction) : Prop :=
  ∃ txin rest t txout, txNew.vin = txin :: rest ∧ st.payer.wallet.mapWallet.lookup txin.prevout.hash = some t ∧
    t.wtx.tx.vout[txin.prevout.n.toNat]? = some txout ∧
    KernelMet st.payer.env hashes s nBits t.wtx.tx txout txin.prevout txNew.nTime

/-- `ConnectBlock` on the same tip does not find that a coinstake pays too much, in a block whose
other transactions pay the fees. The transactions at hand have different ids. -/
def NeverTooMuch (txNew : CTransaction) : Prop :=
  ∀ U : Set CTransaction, Set.InjOn st.payer.env.txHash U →
    ReadsBack st.payer.env U s.reading s.reading.txdb.txIndex →
    (∀ hash t, st.payer.wallet.mapWallet.lookup hash = some t → t.wtx.tx ∈ U) →
    ∀ s' block pindex coinbase vtx, OnTip U s s' block pindex → block.vtx = coinbase :: txNew :: vtx →
      coinbase.isCoinBase = true → (∀ tx ∈ vtx, Loose tx) → PaidFees st.payer.env U vtx 0 nFees →
      ¬block.PaysTooMuch st.payer.env s' pindex s.pindexBest

/-- A coinstake pays exactly what validation allows. -/
structure PaysAllowed (txNew : CTransaction) : Prop where
  distinct : (txNew.vin.map CTxIn.prevout).Nodup
  kernel : st.KernelFirst hashes s nBits txNew
  inRange : ∀ txout ∈ txNew.vout, moneyRange txout.nValue = true
  pays : ∃ nCoinAge, txNew.getCoinAge st.payer.env s.reading = some nCoinAge ∧
    outputsValue txNew.vout =
      st.payer.creditOf txNew.vin + (getProofOfStakeReward nCoinAge.toInt64 nFees).toInt
  connects : st.NeverTooMuch s nFees txNew

end Staker

section Outputs

/-- Dividing by a positive number goes towards zero. -/
theorem tdiv_between {x d : Int} (positive : 0 < d) :
    (0 ≤ x → 0 ≤ x.tdiv d ∧ x.tdiv d * d ≤ x) ∧ (x ≤ 0 → x.tdiv d ≤ 0 ∧ x ≤ x.tdiv d * d) := by
  have parts := Int.mul_tdiv_add_tmod x d
  rw [mul_comm] at parts
  constructor
  · intro nonneg
    have rest := Int.tmod_nonneg d nonneg
    exact ⟨Int.tdiv_nonneg nonneg positive.le, by omega⟩
  · intro nonpos
    have quotient := Int.tdiv_nonneg (Int.neg_nonneg.mpr nonpos) positive.le
    have rest := Int.tmod_nonneg d (Int.neg_nonneg.mpr nonpos)
    rw [Int.neg_tdiv] at quotient
    rw [Int.neg_tmod] at rest
    exact ⟨by omega, by omega⟩

/-- The first of two outputs, half of a credit that is cut down to cents, lies between zero and
the credit. -/
theorem halfCredit_between (nCredit : Int64) :
    (0 ≤ nCredit.toInt → 0 ≤ (nCredit / 2 / cent * cent).toInt ∧
        (nCredit / 2 / cent * cent).toInt ≤ nCredit.toInt) ∧
      (nCredit.toInt ≤ 0 → (nCredit / 2 / cent * cent).toInt ≤ 0 ∧
        nCredit.toInt ≤ (nCredit / 2 / cent * cent).toInt) := by
  have lower := nCredit.le_toInt
  have upper := nCredit.toInt_lt
  have two : (2 : Int64).toInt = 2 := by decide
  obtain ⟨halfUp, halfDown⟩ := tdiv_between (x := nCredit.toInt) (d := 2) (by decide)
  obtain ⟨centUp, centDown⟩ := tdiv_between (x := nCredit.toInt.tdiv 2) (d := 1000000) (by decide)
  have half : (nCredit / 2).toInt = nCredit.toInt.tdiv 2 := by
    rw [Int64.toInt_div, two, Int.bmod_eq_of_le (by omega) (by omega)]
  have cents : (nCredit / 2 / cent).toInt = (nCredit.toInt.tdiv 2).tdiv 1000000 := by
    rw [Int64.toInt_div, half, cent_toInt, Int.bmod_eq_of_le (by omega) (by omega)]
  have whole : (nCredit / 2 / cent * cent).toInt = (nCredit.toInt.tdiv 2).tdiv 1000000 * 1000000 := by
    rw [Int64.toInt_mul, cents, cent_toInt, Int.bmod_eq_of_le (by omega) (by omega)]
  rw [whole]
  omega

/-- Two outputs share a credit. -/
theorem stakeOutputs_split (scriptPubKeyOut : CScript) (nCredit : Int64) : ∃ first : Int64,
    stakeOutputs scriptPubKeyOut true nCredit =
        [⟨0, []⟩, ⟨first, scriptPubKeyOut⟩, ⟨nCredit - first, scriptPubKeyOut⟩] ∧
      (nCredit - first).toInt = nCredit.toInt - first.toInt ∧
      (0 ≤ nCredit.toInt → 0 ≤ first.toInt ∧ first.toInt ≤ nCredit.toInt) ∧
      (nCredit.toInt ≤ 0 → first.toInt ≤ 0 ∧ nCredit.toInt ≤ first.toInt) := by
  obtain ⟨above, below⟩ := halfCredit_between nCredit
  have lower := nCredit.le_toInt
  have upper := nCredit.toInt_lt
  refine ⟨nCredit / 2 / cent * cent, rfl, ?_, above, below⟩
  rw [Int64.toInt_sub, Int.bmod_eq_of_le (by omega) (by omega)]

/-- The outputs are amounts and come to the credit with the reward exactly when that is an
amount: else it wraps, and one of the outputs is negative. -/
theorem stakeOutputs_pay_iff {scriptPubKeyOut : CScript} {fSplit : Bool} {nCredit nReward : Int64}
    (credit : 0 ≤ nCredit.toInt) (reward : 0 < nReward.toInt) :
    ((∀ txout ∈ stakeOutputs scriptPubKeyOut fSplit (nCredit + nReward), moneyRange txout.nValue = true) ∧
        outputsValue (stakeOutputs scriptPubKeyOut fSplit (nCredit + nReward)) =
          nCredit.toInt + nReward.toInt) ↔
      nCredit.toInt + nReward.toInt ≤ maxMoney.toInt := by
  have creditUpper := nCredit.toInt_lt
  have rewardUpper := nReward.toInt_lt
  have zero : Int64.toInt 0 = 0 := rfl
  have sum : (nCredit + nReward).toInt =
      if nCredit.toInt + nReward.toInt ≤ maxMoney.toInt then nCredit.toInt + nReward.toInt
      else nCredit.toInt + nReward.toInt - 2 ^ 64 := by
    rw [maxMoney_toInt, Int64.toInt_add, Int.bmod_def]
    split <;> split <;> omega
  obtain ⟨first, halves, rest, above, below⟩ := stakeOutputs_split scriptPubKeyOut (nCredit + nReward)
  rw [maxMoney_toInt] at sum ⊢
  generalize nCredit + nReward = total at sum halves rest above below ⊢
  split at sum
  · rename_i fits
    refine iff_of_true ?_ fits
    cases fSplit with
    | false =>
        simp only [stakeOutputs, Bool.false_eq_true, if_false, List.forall_mem_cons, moneyRange_iff, outputsValue,
          List.map_cons, List.map_nil, List.sum_cons, List.sum_nil, zero]
        exact ⟨⟨le_rfl, by omega, by simp⟩, by omega⟩
    | true =>
        simp only [halves, List.forall_mem_cons, moneyRange_iff, outputsValue, List.map_cons,
          List.map_nil, List.sum_cons, List.sum_nil, zero, rest]
        exact ⟨⟨le_rfl, by omega, by omega, by simp⟩, by omega⟩
  · rename_i wraps
    refine iff_of_false (fun paid => ?_) wraps
    have inRange := paid.1
    cases fSplit with
    | false =>
        simp only [stakeOutputs, Bool.false_eq_true, if_false, List.forall_mem_cons, moneyRange_iff] at inRange
        omega
    | true =>
        simp only [halves, List.forall_mem_cons, moneyRange_iff, rest] at inRange
        omega

end Outputs

section Selecting

variable {p : Payer} {nTargetValue : Int64} {nSpendTime : UInt32}

theorem CoinSet.insert_keys {setCoins : CoinSet} (distinct : (setCoins.map Coin.key).Nodup) (pcoin : Coin) :
    ((CoinSet.insert setCoins pcoin).map Coin.key).Nodup ∧
      ∀ other ∈ CoinSet.insert setCoins pcoin, other ∈ setCoins ∨ other = pcoin := by
  rw [CoinSet.insert]
  split
  · exact ⟨distinct, fun other member => Or.inl member⟩
  · rename_i fresh
    constructor
    · rw [List.map_append, List.map_singleton]
      refine distinct.append (List.nodup_singleton _) ?_
      rw [List.disjoint_singleton]
      simpa using fresh
    · intro other member
      simpa using member

/-- `SelectCoinsForStaking` chooses a set of the coins that it is given. -/
theorem selectForStaking_spec {P : Coin → Prop} {outputs : List COutput} {ret : CoinSet × Int64}
    (each : ∀ output ∈ outputs, P output.coin) (distinct : (ret.1.map Coin.key).Nodup) (before : ∀ pcoin ∈ ret.1, P pcoin) :
    ((selectForStaking nTargetValue outputs ret).1.map Coin.key).Nodup ∧
      ∀ pcoin ∈ (selectForStaking nTargetValue outputs ret).1, P pcoin := by
  induction outputs generalizing ret with
  | nil => exact ⟨distinct, before⟩
  | cons output rest ih =>
      rw [List.forall_mem_cons] at each
      obtain ⟨keys, members⟩ := CoinSet.insert_keys distinct output.coin
      have inserted : ∀ pcoin ∈ CoinSet.insert ret.1 output.coin, P pcoin := by
        intro pcoin member
        rcases members pcoin member with old | rfl
        · exact before pcoin old
        · exact each.1
      simp only [selectForStaking]
      split
      · exact ⟨distinct, before⟩
      split
      · exact ⟨keys, inserted⟩
      split
      · split
        · exact ⟨distinct, before⟩
        · exact ih each.2 keys inserted
      · exact ih each.2 distinct before

/-- The coins that may be staked are outputs of the wallet's transactions with amounts. -/
theorem Payer.selectCoinsForStaking_spec (valid : p.Valid) :
    ((p.selectCoinsForStaking nTargetValue nSpendTime).1.map Coin.key).Nodup ∧
      ∀ pcoin ∈ (p.selectCoinsForStaking nTargetValue nSpendTime).1,
        p.wallet.mapWallet.lookup pcoin.hash = some pcoin.tx ∧ 0 ≤ pcoin.nValue.toInt := by
  refine selectForStaking_spec (fun output member => ?_) List.nodup_nil (by simp)
  obtain ⟨entry, stored, offered⟩ := List.mem_flatMap.mp member
  rw [Payer.stakeableOf] at offered
  split at offered
  · cases offered
  split at offered
  · cases offered
  split at offered
  · cases offered
  obtain ⟨pcoin, available, rfl⟩ := List.mem_map.mp offered
  obtain ⟨ofTx, passes⟩ := List.mem_filter.mp available
  obtain ⟨hash, tx⟩ := (coinsOf_keys entry.1 entry.2).2 pcoin ofTx
  simp only [Payer.isAvailable, Bool.and_eq_true, decide_eq_true_eq, Int64.le_iff_toInt_le] at passes
  refine ⟨?_, valid.nMinimumInputValue.trans passes.1.2⟩
  rw [hash, tx]
  exact AList.mem_lookup_iff.mpr stored

theorem stakeCoins_sublist (env : Env) (coins : List Coin) :
    ((coins.filterMap Coin.stakeCoin).map (StakeCoin.prevout env)).Sublist
      (coins.map fun pcoin => ⟨env.txHash pcoin.tx.wtx.tx, pcoin.i⟩) := by
  induction coins with
  | nil => exact List.Sublist.slnil
  | cons pcoin rest ih =>
      rw [List.filterMap_cons, List.map_cons, Coin.stakeCoin]
      split
      · exact ih.cons _
      · rename_i taken
        split at taken
        · cases taken
          exact ih.cons_cons _
        · cases taken

end Selecting

namespace Staker

variable {CKey : Type} {st : Staker CKey} {hashes : KernelHash} {s : Node} {nBits nTime : UInt32}
  {nSearchInterval nBalance nLimit : Int} {nFees : Int64} {txNew : CTransaction} {key : CKey}

/-- What a selected coin has to do with the wallet. -/
def Held (st : Staker CKey) (pcoin : StakeCoin) : Prop :=
  0 ≤ pcoin.txout.nValue.toInt ∧
    ∃ t, st.payer.wallet.mapWallet.lookup (st.payer.env.txHash pcoin.tx) = some t ∧ t.wtx.tx = pcoin.tx

theorem selected_spec (valid : st.payer.Valid) :
    (((st.cwallet nBalance).selectCoinsForStaking nLimit nTime).map (StakeCoin.prevout st.payer.env)).Nodup ∧
      ∀ pcoin ∈ (st.cwallet nBalance).selectCoinsForStaking nLimit nTime, st.Held pcoin := by
  obtain ⟨keys, each⟩ := @Payer.selectCoinsForStaking_spec _ (Int64.ofInt nLimit) nTime valid
  have order := st.ordered (st.payer.selectCoinsForStaking (Int64.ofInt nLimit) nTime).1
  constructor
  · refine List.Nodup.sublist (stakeCoins_sublist _ _) ?_
    have prevouts : (st.order (st.payer.selectCoinsForStaking (Int64.ofInt nLimit) nTime).1).map
        (fun pcoin => (⟨st.payer.env.txHash pcoin.tx.wtx.tx, pcoin.i⟩ : COutPoint)) =
        ((st.order (st.payer.selectCoinsForStaking (Int64.ofInt nLimit) nTime).1).map Coin.key).map
          fun key => ⟨key.1, key.2⟩ := by
      rw [List.map_map]
      refine List.map_congr_left fun pcoin member => ?_
      rw [valid.keyed _ _ (each pcoin (order.mem_iff.mp member)).1]
      rfl
    rw [prevouts]
    refine ((order.map Coin.key).nodup_iff.mpr keys).map ?_
    intro first second same
    rw [COutPoint.mk.injEq] at same
    exact Prod.ext same.1 same.2
  · intro pcoin member
    obtain ⟨coin, inSet, taken⟩ := List.mem_filterMap.mp member
    obtain ⟨stored, nonneg⟩ := each coin (order.mem_iff.mp inSet)
    rw [Coin.stakeCoin] at taken
    split at taken
    · cases taken
      refine ⟨nonneg, coin.tx, ?_, rfl⟩
      rw [valid.keyed _ _ stored]
      exact stored
    · cases taken

/-- What the inputs of a transaction are worth to the wallet. -/
theorem creditOf_coins {coins : List StakeCoin} {vin : List CTxIn}
    (prevouts : vin.map CTxIn.prevout = coins.map (StakeCoin.prevout st.payer.env))
    (held : ∀ pcoin ∈ coins, st.Held pcoin) :
    st.payer.creditOf vin = (coins.map fun pcoin => pcoin.txout.nValue.toInt).sum := by
  have values : ∀ pcoin ∈ coins, (((st.payer.wallet.mapWallet.lookup (pcoin.prevout st.payer.env).hash).bind fun t =>
      t.wtx.tx.vout[(pcoin.prevout st.payer.env).n.toNat]?).map fun txout => txout.nValue.toInt).getD 0 =
      pcoin.txout.nValue.toInt := by
    intro pcoin member
    obtain ⟨-, t, stored, same⟩ := held pcoin member
    simp only [StakeCoin.prevout, stored, Option.bind_some, same, List.getElem?_eq_getElem pcoin.inRange]
    rfl
  rw [← List.map_congr_left values, Payer.creditOf]
  have inputs := congrArg (List.map fun prevout : COutPoint =>
    (((st.payer.wallet.mapWallet.lookup prevout.hash).bind fun t =>
      t.wtx.tx.vout[prevout.n.toNat]?).map fun txout => txout.nValue.toInt).getD 0) prevouts
  rw [List.map_map, List.map_map] at inputs
  exact congrArg List.sum inputs

section Steps

variable {kernel : StakeKernelFound CKey} {coins : List StakeCoin} {nCoinAge : UInt64}

/-- A credit is exact, and the inputs of a coinstake are distinct. -/
theorem steps_inputs (valid : st.payer.Valid)
    (steps : StakeSteps st.payer.env hashes (st.cwallet nBalance) s nBits nTime nSearchInterval nFees txNew kernel
      coins nCoinAge) :
    (∃ others, coins = kernel.pcoin :: others) ∧ (∀ pcoin ∈ coins, st.Held pcoin) ∧
      (coins.map (StakeCoin.prevout st.payer.env)).Nodup ∧
      (creditFrom 0 coins).toInt = (coins.map fun pcoin => pcoin.txout.nValue.toInt).sum ∧
      0 ≤ (creditFrom 0 coins).toInt := by
  obtain ⟨distinct, held⟩ := @selected_spec _ _ nTime nBalance (st.cwallet nBalance).stakeLimit valid
  obtain ⟨others, added⟩ := steps.coins
  have all : ∀ pcoin ∈ coins, st.Held pcoin := fun pcoin member => held pcoin (steps.selected pcoin member)
  have shape : coins = kernel.pcoin :: others := added.coins
  have first : 0 ≤ kernel.pcoin.txout.nValue.toInt := (all _ (shape ▸ List.mem_cons_self)).1
  have credit := added.exact (fun pcoin member => (held pcoin member).1) first
  have sum : (coins.map fun pcoin => pcoin.txout.nValue.toInt).sum =
      kernel.pcoin.txout.nValue.toInt + (others.map fun pcoin => pcoin.txout.nValue.toInt).sum := by
    rw [shape, List.map_cons, List.sum_cons]
  refine ⟨⟨others, shape⟩, all, ?_, credit.trans sum.symm, ?_⟩
  · rw [shape, List.map_cons, List.nodup_cons]
    refine ⟨?_, distinct.sublist (added.sublist.map _)⟩
    intro again
    obtain ⟨pcoin, member, same⟩ := List.mem_map.mp again
    exact added.foreign pcoin member (congrArg COutPoint.hash same)
  · rw [credit.trans sum.symm]
    refine List.sum_nonneg fun value member => ?_
    obtain ⟨pcoin, inside, rfl⟩ := List.mem_map.mp member
    exact (all pcoin inside).1

/-- The kernel of a coinstake is met at the time it has in the end. -/
theorem steps_kernelFirst (valid : st.payer.Valid)
    (steps : StakeSteps st.payer.env hashes (st.cwallet nBalance) s nBits nTime nSearchInterval nFees txNew kernel
      coins nCoinAge) : st.KernelFirst hashes s nBits txNew := by
  obtain ⟨⟨others, shape⟩, held, -⟩ := steps_inputs valid steps
  have prevouts := steps.prevouts
  rw [shape] at prevouts held
  obtain ⟨-, t, stored, same⟩ := held _ List.mem_cons_self
  obtain ⟨-, -, met⟩ := findKernel_coin steps.found
  rw [← steps.time] at met
  cases inputs : txNew.vin with
  | nil =>
      rw [inputs] at prevouts
      cases prevouts
  | cons txin rest =>
      rw [inputs, List.map_cons, List.map_cons, List.cons.injEq] at prevouts
      refine ⟨txin, rest, t, kernel.pcoin.txout, inputs, ?_, ?_, ?_⟩
      · rw [prevouts.1]
        exact stored
      · rw [prevouts.1, same]
        exact List.getElem?_eq_getElem kernel.pcoin.inRange
      · rw [prevouts.1, same]
        exact met

theorem steps_neverTooMuch (valid : st.payer.Valid)
    (steps : StakeSteps st.payer.env hashes (st.cwallet nBalance) s nBits nTime nSearchInterval nFees txNew kernel
      coins nCoinAge) : st.NeverTooMuch s nFees txNew := by
  obtain ⟨⟨others, shape⟩, held, -⟩ := steps_inputs valid steps
  intro U collisionFree reads inWallet s' block pindex coinbase vtx onTip blockShape base loose fees
  refine not_paysTooMuch collisionFree reads (fun pcoin member => ?_) steps.prevouts ?_ steps.age
    (fun nValueOut value => getValueOut_stakeOutputs steps.outputs value) loose fees base blockShape onTip
    s.pindexBest
  · obtain ⟨-, t, stored, same⟩ := held pcoin member
    exact same ▸ inWallet _ t stored
  · exact isCoinStake_of_coins (shape ▸ steps.prevouts) steps.outputs

/-- What was chosen before the reward was added. -/
theorem steps_chooseStake (balance : st.getBalance = some nBalance)
    (steps : StakeSteps st.payer.env hashes (st.cwallet nBalance) s nBits nTime nSearchInterval nFees txNew kernel
      coins nCoinAge) :
    st.chooseStake hashes s nBits nTime nSearchInterval = some (coins, txNew.nTime) ∧
      st.coinAgeOf s coins txNew.nTime = some nCoinAge := by
  constructor
  · rw [chooseStake, balance, Option.bind_some]
    dsimp only
    rw [steps.found, Option.map_some, ← steps.time, steps.added]
  · rw [coinAgeOf, ← steps.age]
    have unsigned : (coins.map fun pcoin =>
        (⟨pcoin.prevout st.payer.env, [], 0xffffffff⟩ : CTxIn)).map CTxIn.prevout =
        coins.map (StakeCoin.prevout st.payer.env) := by
      rw [List.map_map]
      rfl
    exact getCoinAge_congr ⟨rfl, fun _ _ _ => rfl, fun _ _ _ => rfl⟩ rfl (unsigned.trans steps.prevouts.symm)
      ((not_coinBase_of_coins unsigned).trans (not_coinBase_of_coins steps.prevouts).symm)

end Steps

/-- A coinstake that is made pays exactly what validation allows just when the coins that were
chosen and their reward are together an amount. The balance that is cut down leaves room for
one coin, but a reward may be larger. -/
theorem createCoinStake_paysAllowed_iff (valid : st.payer.Valid)
    (made : st.createCoinStake hashes s nBits nTime nSearchInterval nFees = some (txNew, key)) :
    st.PaysAllowed hashes s nBits nFees txNew ↔ st.RewardFits hashes s nBits nTime nSearchInterval nFees := by
  obtain ⟨nBalance, balance, created⟩ := Option.bind_eq_some_iff.mp made
  obtain ⟨kernel, coins, nCoinAge, steps⟩ := createCoinStake_cases created
  obtain ⟨-, held, distinct, credit, nonneg⟩ := steps_inputs valid steps
  obtain ⟨chosen, age⟩ := steps_chooseStake balance steps
  have worth := creditOf_coins steps.prevouts held
  have paid := @stakeOutputs_pay_iff kernel.scriptPubKeyOut (kernel.splits st.payer.env txNew.nTime) _ _ nonneg
    (Int64.lt_iff_toInt_lt.mp steps.reward)
  rw [← steps.outputs, credit] at paid
  have fits : st.RewardFits hashes s nBits nTime nSearchInterval nFees ↔
      (coins.map fun pcoin => pcoin.txout.nValue.toInt).sum +
        (getProofOfStakeReward nCoinAge.toInt64 nFees).toInt ≤ maxMoney.toInt := by
    constructor
    · intro always
      exact always coins txNew.nTime nCoinAge chosen age
    · intro sum others nTimeTx nAge otherChosen otherAge
      cases chosen.symm.trans otherChosen
      cases age.symm.trans otherAge
      exact sum
  rw [fits, ← paid]
  constructor
  · rintro ⟨-, -, inRange, ⟨nAge, otherAge, sum⟩, -⟩
    cases steps.age.symm.trans otherAge
    exact ⟨inRange, sum.trans (by rw [worth])⟩
  · rintro ⟨inRange, sum⟩
    refine ⟨steps.prevouts ▸ distinct, steps_kernelFirst valid steps, inRange, ⟨nCoinAge, steps.age, ?_⟩,
      steps_neverTooMuch valid steps⟩
    rw [sum, worth]

end Staker

section Concrete

/-- The coin of a wallet that stakes. -/
def stakedSavings (nValue : Int64) : CTransaction := .labelledSpend 50 200 ⟨40, 0⟩ nValue

/-- A node that has the coin in the first block of its chain. -/
def savingsNode (nValue : Int64) : Node :=
  { stakedNode with
    files :=
      ⟨fun pos => if pos.nTxPos = 1100 then some (stakedSavings nValue) else none,
        fun _ nBlockPos =>
          if nBlockPos = 1000 then
            some { stakedFrom with vtx := (stakeBlock 1 (genesisHash true) 1 1000).vtx ++ [stakedSavings nValue] }
          else none⟩ }

/-- The wallet, whose balance is that coin. -/
def saver (nValue : Int64) : Staker Unit where
  payer :=
    { env := stakedEnv
      view := .ofNode stakedEnv (savingsNode nValue) fun _ => true
      keys := ⟨fun _ => true, fun _ => none, fun _ => false, 0⟩
      wallet :=
        { mapWallet := AList.singleton (50 : UInt256)
            ⟨{ CWalletTx.ofTx (stakedSavings nValue) with hashBlock := 1, nIndex := 3 }, [], []⟩
          mapAddressBook := ∅
          acentries := [] }
      fConfChange := false
      fuel := 0
      nTransactionFee := minTxFee }
  nReserveBalance := 0
  order := id
  ordered := plainChoices.ordered
  kernelKey := stakedWallet.kernelKey
  signSignature := stakedWallet.signSignature
  sign := stakedWallet.sign

theorem saver_valid (nValue : Int64) : (saver nValue).payer.Valid where
  keyed := by
    intro hash t found
    have entry := AList.mem_lookup_iff.mp found
    simp only [saver, AList.singleton_entries, List.mem_singleton] at entry
    cases entry
    rfl
  nMinimumInputValue := le_rfl
  nTransactionFee := show 0 ≤ minTxFee.toInt by decide

/-- What the wallet makes once its balance is known. -/
theorem createCoinStake_of_balance {nValue : Int64} {nBalance : Int} (balance : (saver nValue).getBalance = some nBalance) :
    (saver nValue).createCoinStake stakeHashes (savingsNode nValue) 0x1e0fffff 60000 10 0 =
      InfiniteRicks.createCoinStake stakedEnv stakeHashes ((saver nValue).cwallet nBalance) (savingsNode nValue)
        0x1e0fffff 60000 10 0 := by
  rw [Staker.createCoinStake, balance, Option.bind_some]
  rfl

/-- A thousand coins: the outputs are what the coin is worth and its reward. -/
theorem createCoinStake_paysAllowed_saver : ∃ txNew key,
    (saver (1000 * coin)).createCoinStake stakeHashes (savingsNode (1000 * coin)) 0x1e0fffff 60000 10 0 =
        some (txNew, key) ∧
      (saver (1000 * coin)).PaysAllowed stakeHashes (savingsNode (1000 * coin)) 0x1e0fffff 0 txNew := by
  have balance : (saver (1000 * coin)).getBalance = some 100000000000 := by decide +kernel
  have succeeds : ((saver (1000 * coin)).createCoinStake stakeHashes (savingsNode (1000 * coin)) 0x1e0fffff 60000 10
      0).isSome = true := by
    rw [createCoinStake_of_balance balance]
    decide +kernel
  obtain ⟨⟨txNew, key⟩, made⟩ := Option.isSome_iff_exists.mp succeeds
  refine ⟨txNew, key, made, (Staker.createCoinStake_paysAllowed_iff (saver_valid _) made).mpr ?_⟩
  have fits : ((saver (1000 * coin)).chooseStake stakeHashes (savingsNode (1000 * coin)) 0x1e0fffff 60000 10).all
      (fun chosen => ((saver (1000 * coin)).coinAgeOf (savingsNode (1000 * coin)) chosen.1 chosen.2).all
        fun nCoinAge => decide ((chosen.1.map fun pcoin => pcoin.txout.nValue.toInt).sum +
          (getProofOfStakeReward nCoinAge.toInt64 0).toInt ≤ maxMoney.toInt)) = true := by
    rw [Staker.chooseStake, balance, Option.bind_some]
    decide +kernel
  intro coins nTimeTx nCoinAge chosen age
  rw [chosen, Option.all_some, age, Option.all_some, decide_eq_true_eq] at fits
  exact fits

/-- A coin of the largest balance that may be staked: the reward is more than one coin, the sum
wraps, and both outputs are negative. -/
theorem createCoinStake_negative : ∃ txNew key,
    (saver (maxMoney - coin)).createCoinStake stakeHashes (savingsNode (maxMoney - coin)) 0x1e0fffff 60000 10 0 =
        some (txNew, key) ∧
      ¬(saver (maxMoney - coin)).PaysAllowed stakeHashes (savingsNode (maxMoney - coin)) 0x1e0fffff 0 txNew := by
  have balance : (saver (maxMoney - coin)).getBalance = some (maxMoney - coin).toInt := by decide +kernel
  have wraps : ((saver (maxMoney - coin)).createCoinStake stakeHashes (savingsNode (maxMoney - coin)) 0x1e0fffff
      60000 10 0).any (fun made => made.1.vout.any fun txout => !moneyRange txout.nValue) = true := by
    rw [createCoinStake_of_balance balance]
    decide +kernel
  obtain ⟨⟨txNew, key⟩, made, negative⟩ := (Option.any_eq_true _ _).mp wraps
  refine ⟨txNew, key, made, fun pays => ?_⟩
  obtain ⟨txout, member, outside⟩ := List.any_eq_true.mp negative
  rw [pays.inRange txout member] at outside
  exact absurd outside (by decide)

end Concrete

end InfiniteRicks
