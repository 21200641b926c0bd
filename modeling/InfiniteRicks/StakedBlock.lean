import InfiniteRicks.MinerSpec
import InfiniteRicks.Maturity

/-!
# The reward of a staked block

The coinstake of the wallet claims the coin age of its inputs and the fees of the
template. `SignBlock` keeps every transaction of the template, so `ConnectBlock` on the same
tip computes the same reward. What can go wrong is the block time and the size.
-/

namespace InfiniteRicks

open Ledger

/-- The value of coins, as `nCredit` sums it up. -/
def creditFrom (start : Int64) (coins : List StakeCoin) : Int64 :=
  coins.foldl (fun nCredit pcoin => nCredit + pcoin.txout.nValue) start

/-- The scripts of the wallet: an output of a coinstake pays to one public key, and a signed
input only pushes. -/
structure CWallet.Standard {CKey : Type} (wallet : CWallet CKey) : Prop where
  outputs : ∀ script key out, wallet.kernelKey script = some (key, out) → CScript.getSigOpCount false out = 1
  inputs : ∀ txFrom txTo nIn scriptSig, wallet.signSignature txFrom txTo nIn = some scriptSig →
    CScript.getSigOpCount false scriptSig = 0

section Stake

variable {CKey : Type} {env : Env} {hashes : KernelHash} {wallet : CWallet CKey} {s : Node}

/-- What the second loop of `CreateCoinStake` adds: selected coins of other transactions than the
kernel's. Where no coin has a negative value their sum is exact. -/
structure AddedInputs (env : Env) (kernel : StakeKernelFound CKey) (setCoins vwtxPrev coins : List StakeCoin)
    (nCredit total : Int64) (others : List StakeCoin) : Prop where
  coins : coins = vwtxPrev ++ others
  sublist : others.Sublist setCoins
  foreign : ∀ pcoin ∈ others, env.txHash pcoin.tx ≠ env.txHash kernel.pcoin.tx
  credit : total = creditFrom nCredit others
  exact : (∀ pcoin ∈ setCoins, 0 ≤ pcoin.txout.nValue.toInt) → 0 ≤ nCredit.toInt →
    total.toInt = nCredit.toInt + (others.map fun pcoin => pcoin.txout.nValue.toInt).sum

namespace AddedInputs

variable {kernel : StakeKernelFound CKey} {setCoins vwtxPrev coins others : List StakeCoin} {pcoin : StakeCoin}
  {nCredit total : Int64}

theorem nil : AddedInputs env kernel setCoins vwtxPrev vwtxPrev nCredit nCredit [] :=
  ⟨(List.append_nil _).symm, List.nil_sublist _, by simp, rfl, by simp⟩

theorem skip (added : AddedInputs env kernel setCoins vwtxPrev coins nCredit total others) :
    AddedInputs env kernel (pcoin :: setCoins) vwtxPrev coins nCredit total others :=
  ⟨added.coins, added.sublist.cons pcoin, added.foreign, added.credit,
    fun nonneg => added.exact fun other member => nonneg other (List.mem_cons_of_mem _ member)⟩

/-- A small coin is added to a small credit, so the sum does not wrap. -/
theorem cons (added : AddedInputs env kernel setCoins (vwtxPrev ++ [pcoin]) coins (nCredit + pcoin.txout.nValue)
      total others) (other : env.txHash pcoin.tx ≠ env.txHash kernel.pcoin.tx)
    (smallCredit : nCredit < nStakeCombineThreshold) (smallCoin : pcoin.txout.nValue < nStakeCombineThreshold) :
    AddedInputs env kernel (pcoin :: setCoins) vwtxPrev coins nCredit total (pcoin :: others) := by
  refine ⟨by rw [added.coins, List.append_assoc]; rfl, added.sublist.cons_cons pcoin, ?_, added.credit, ?_⟩
  · rw [List.forall_mem_cons]
    exact ⟨other, added.foreign⟩
  · intro nonneg creditNonneg
    rw [List.forall_mem_cons] at nonneg
    have threshold : nStakeCombineThreshold.toInt = 100000000000 := by decide
    rw [Int64.lt_iff_toInt_lt, threshold] at smallCredit smallCoin
    have sum : (nCredit + pcoin.txout.nValue).toInt = nCredit.toInt + pcoin.txout.nValue.toInt := by
      rw [Int64.toInt_add, Int.bmod_eq_of_le (by omega) (by omega)]
    have later := added.exact nonneg.2 (by omega)
    rw [sum] at later
    rw [List.map_cons, List.sum_cons]
    omega

end AddedInputs

theorem addStakeInputs_spec {kernel : StakeKernelFound CKey} {nTime : UInt32} {fSingle : Bool} {nLimit : Int}
    {setCoins vwtxPrev coins : List StakeCoin} {nCredit total : Int64}
    (added : addStakeInputs env kernel nTime fSingle nLimit setCoins vwtxPrev nCredit = (coins, total)) :
    ∃ others, AddedInputs env kernel setCoins vwtxPrev coins nCredit total others := by
  induction setCoins generalizing vwtxPrev nCredit with
  | nil =>
      cases added
      exact ⟨[], .nil⟩
  | cons pcoin setCoins ih =>
      simp only [addStakeInputs] at added
      split at added
      · rename_i suitable
        rw [Bool.and_eq_true, decide_eq_true_eq] at suitable
        split at added
        · cases added
          exact ⟨[], .nil⟩
        split at added
        · cases added
          exact ⟨[], .nil⟩
        rename_i smallCredit
        split at added
        · cases added
          exact ⟨[], .nil⟩
        split at added
        · exact (ih added).imp fun _ => .skip
        rename_i smallCoin
        split at added
        · exact (ih added).imp fun _ => .skip
        · obtain ⟨others, later⟩ := ih added
          exact ⟨pcoin :: others, later.cons suitable.2 (Int64.not_le.mp smallCredit) (Int64.not_le.mp smallCoin)⟩
      · exact (ih added).imp fun _ => .skip

/-- Signing changes the scripts of the inputs and nothing else. -/
theorem signInputs_spec {nIn : Nat} {coins : List StakeCoin} {txNew signed : CTransaction}
    (done : signInputs wallet nIn coins txNew = some signed) :
    signed.vin.map CTxIn.prevout = txNew.vin.map CTxIn.prevout ∧ signed.nTime = txNew.nTime ∧
      signed.vout = txNew.vout := by
  induction coins generalizing nIn txNew with
  | nil =>
      cases done
      exact ⟨rfl, rfl, rfl⟩
  | cons pcoin rest ih =>
      simp only [signInputs] at done
      split at done
      · cases done
      obtain ⟨prevouts, time, outputs⟩ := ih done
      exact ⟨prevouts.trans (CTxIn.modify_prevouts _ _ _), time, outputs⟩

/-- A signed input only pushes. -/
theorem signInputs_sigOps (standard : wallet.Standard) {nIn : Nat} {coins : List StakeCoin}
    {txNew signed : CTransaction} (done : signInputs wallet nIn coins txNew = some signed)
    (plain : ∀ txin ∈ txNew.vin, CScript.getSigOpCount false txin.scriptSig = 0) :
    ∀ txin ∈ signed.vin, CScript.getSigOpCount false txin.scriptSig = 0 := by
  induction coins generalizing nIn txNew with
  | nil =>
      cases done
      exact plain
  | cons pcoin rest ih =>
      simp only [signInputs] at done
      split at done
      · cases done
      rename_i scriptSig signature
      refine ih done fun txin member => ?_
      obtain ⟨i, inside, rfl⟩ := List.mem_iff_getElem.mp member
      rw [List.getElem_modify]
      split
      · exact standard.inputs _ _ _ _ signature
      · exact plain _ (List.getElem_mem _)

/-- `CheckStakeKernelHash` accepts an output at a time, with the block that the index has for it. -/
def KernelMet (env : Env) (hashes : KernelHash) (s : Node) (nBits : UInt32) (txPrev : CTransaction) (txout : CTxOut)
    (prevout : COutPoint) (nTimeTx : UInt32) : Prop :=
  ∃ txindex block, s.txdb.fresh.readTxIndex prevout.hash = some txindex ∧
    s.files.readBlock txindex.pos.nFile txindex.pos.nBlockPos = some block ∧
    (checkStakeKernelHash env hashes s nBits block (txindex.pos.nTxPos - txindex.pos.nBlockPos) txPrev txout prevout
      nTimeTx).isSome = true

theorem searchKernel_coin {nBits nTxPrevOffset nTime : UInt32} {block : CBlock} {pcoin : StakeCoin}
    {kernel : StakeKernelFound CKey} {seconds : List Nat}
    (found : searchKernel env hashes wallet s nBits block nTxPrevOffset pcoin nTime seconds = some kernel) :
    kernel.pcoin = pcoin ∧ (∃ script, wallet.kernelKey script = some (kernel.key, kernel.scriptPubKeyOut)) ∧
      (checkStakeKernelHash env hashes s nBits block nTxPrevOffset pcoin.tx pcoin.txout (pcoin.prevout env)
        (nTime - UInt32.ofNat kernel.n)).isSome = true := by
  induction seconds with
  | nil => cases found
  | cons n later ih =>
      simp only [searchKernel] at found
      split at found
      · exact ih found
      · rename_i proof met
        obtain ⟨pair, known, rfl⟩ := Option.map_eq_some_iff.mp found
        exact ⟨rfl, ⟨_, known⟩, by rw [met, Option.isSome_some]⟩

theorem findKernel_coin {nBits nTime : UInt32} {nSearchInterval : Int} {setCoins : List StakeCoin}
    {kernel : StakeKernelFound CKey}
    (found : findKernel env hashes wallet s nBits nTime nSearchInterval setCoins = some kernel) :
    kernel.pcoin ∈ setCoins ∧ (∃ script, wallet.kernelKey script = some (kernel.key, kernel.scriptPubKeyOut)) ∧
      KernelMet env hashes s nBits kernel.pcoin.tx kernel.pcoin.txout (kernel.pcoin.prevout env)
        (nTime - UInt32.ofNat kernel.n) := by
  induction setCoins with
  | nil => cases found
  | cons pcoin setCoins ih =>
      simp only [findKernel] at found
      split at found
      · exact (ih found).imp_left (List.mem_cons_of_mem _)
      rename_i txindex indexed
      split at found
      · exact (ih found).imp_left (List.mem_cons_of_mem _)
      rename_i block read
      split at found
      · exact (ih found).imp_left (List.mem_cons_of_mem _)
      split at found
      · exact (ih found).imp_left (List.mem_cons_of_mem _)
      · rename_i searched
        cases found
        obtain ⟨rfl, known, met⟩ := searchKernel_coin searched
        exact ⟨List.mem_cons_self, known, txindex, block, indexed, read, met⟩

theorem getValueOut_stakeOutputs {tx : CTransaction} {scriptPubKeyOut : CScript} {fSplit : Bool}
    {nCredit nValueOut : Int64} (outputs : tx.vout = stakeOutputs scriptPubKeyOut fSplit nCredit)
    (value : tx.getValueOut = some nValueOut) : nValueOut = nCredit := by
  cases fSplit with
  | false =>
      simp only [CTransaction.getValueOut, outputs, stakeOutputs, Bool.false_eq_true, if_false,
        CTransaction.addValueOut] at value
      split at value
      · cases value
      split at value
      · cases value
      cases value
      grind
  | true =>
      simp only [CTransaction.getValueOut, outputs, stakeOutputs, if_true, CTransaction.addValueOut] at value
      split at value
      · cases value
      split at value
      · cases value
      split at value
      · cases value
      cases value
      grind

theorem StakeCoin.prevout_not_null (env : Env) (pcoin : StakeCoin) : (pcoin.prevout env).isNull = false := by
  simp [StakeCoin.prevout, COutPoint.isNull, pcoin.real]

theorem sigOps_stakeOutputs {scriptPubKeyOut : CScript} {fSplit : Bool} {nCredit : Int64}
    (single : CScript.getSigOpCount false scriptPubKeyOut = 1) :
    ((stakeOutputs scriptPubKeyOut fSplit nCredit).map fun txout =>
      CScript.getSigOpCount false txout.scriptPubKey).sum ≤ 2 := by
  have none : CScript.getSigOpCount false [] = 0 := rfl
  cases fSplit with
  | false => simp [stakeOutputs, single, none]
  | true => simp [stakeOutputs, single, none]

/-- Two states with one transaction index, whose files have the same at the indexed places. -/
structure SameIndexed (s s' : Node) : Prop where
  index : s'.txdb.txIndex = s.txdb.txIndex
  txs : ∀ hash txindex, s.txdb.txIndex hash = some txindex → s'.files.readTx txindex.pos = s.files.readTx txindex.pos
  blocks : ∀ hash txindex, s.txdb.txIndex hash = some txindex →
    s'.files.readBlock txindex.pos.nFile txindex.pos.nBlockPos =
      s.files.readBlock txindex.pos.nFile txindex.pos.nBlockPos

/-- `GetCoinAge` looks at the prevouts and the time of a transaction and at indexed places. -/
theorem addCentSeconds_congr {s' : Node} {tx other : CTransaction} {vin vin' : List CTxIn}
    (same : SameIndexed s s') (time : other.nTime = tx.nTime)
    (prevouts : vin'.map CTxIn.prevout = vin.map CTxIn.prevout) (bnCentSecond : Int) :
    CTransaction.addCentSeconds env s' other vin' bnCentSecond =
      CTransaction.addCentSeconds env s tx vin bnCentSecond := by
  induction vin generalizing vin' bnCentSecond with
  | nil =>
      rw [List.map_eq_nil_iff.mp prevouts]
      rfl
  | cons txin rest ih =>
      cases vin' with
      | nil => cases prevouts
      | cons txin' rest' =>
          simp only [List.map_cons, List.cons.injEq] at prevouts
          obtain ⟨prevout, later⟩ := prevouts
          have found : s'.txdb.readTxIndex txin.prevout.hash = s.txdb.readTxIndex txin.prevout.hash :=
            congrFun same.index txin.prevout.hash
          simp only [CTransaction.addCentSeconds, prevout, found, time, ih later]
          cases entry : s.txdb.readTxIndex txin.prevout.hash with
          | none => rfl
          | some txindex =>
              simp only [same.txs _ _ entry, same.blocks _ _ entry]

theorem getCoinAge_congr {s' : Node} {tx other : CTransaction} (same : SameIndexed s s')
    (time : other.nTime = tx.nTime) (prevouts : other.vin.map CTxIn.prevout = tx.vin.map CTxIn.prevout)
    (base : other.isCoinBase = tx.isCoinBase) : other.getCoinAge env s' = tx.getCoinAge env s := by
  simp only [CTransaction.getCoinAge, base, addCentSeconds_congr same time prevouts]

/-- A transaction that spends coins is no coinbase. -/
theorem not_coinBase_of_coins {tx : CTransaction} {coins : List StakeCoin}
    (prevouts : tx.vin.map CTxIn.prevout = coins.map (StakeCoin.prevout env)) : tx.isCoinBase = false := by
  simp only [CTransaction.isCoinBase]
  split
  · rename_i txin single
    rw [single] at prevouts
    cases coins with
    | nil => cases prevouts
    | cons pcoin rest =>
        simp only [List.map_cons, List.cons.injEq] at prevouts
        rw [prevouts.1, pcoin.prevout_not_null, Bool.false_and]
  · rfl

theorem isCoinStake_of_coins {tx : CTransaction} {pcoin : StakeCoin} {others : List StakeCoin}
    {scriptPubKeyOut : CScript} {fSplit : Bool} {nCredit : Int64}
    (prevouts : tx.vin.map CTxIn.prevout = (pcoin :: others).map (StakeCoin.prevout env))
    (outputs : tx.vout = stakeOutputs scriptPubKeyOut fSplit nCredit) : tx.isCoinStake = true := by
  cases inputs : tx.vin with
  | nil => simp [inputs] at prevouts
  | cons txin rest =>
      simp only [inputs, List.map_cons, List.cons.injEq] at prevouts
      have real := pcoin.prevout_not_null env
      rw [← prevouts.1] at real
      cases fSplit with
      | false => simp [CTransaction.isCoinStake, inputs, outputs, stakeOutputs, real, CTxOut.isEmpty]
      | true => simp [CTransaction.isCoinStake, inputs, outputs, stakeOutputs, real, CTxOut.isEmpty]

/-- What `CreateCoinStake` returns: a coinstake that spends coins of the wallet and pays, above
them, the reward of their age with the given fees. -/
structure MadeStake (env : Env) (wallet : CWallet CKey) (s : Node) (nFees : Int64) (coinstake : CTransaction)
    (coins : List StakeCoin) (nCoinAge : UInt64) : Prop where
  selected : ∃ nLimit nTime, ∀ pcoin ∈ coins, pcoin ∈ wallet.selectCoinsForStaking nLimit nTime
  prevouts : coinstake.vin.map CTxIn.prevout = coins.map (StakeCoin.prevout env)
  isStake : coinstake.isCoinStake = true
  sigOps : coinstake.getLegacySigOpCount ≤ 2
  age : coinstake.getCoinAge env s.reading = some nCoinAge
  value : ∀ nValueOut, coinstake.getValueOut = some nValueOut →
    nValueOut = creditFrom 0 coins + getProofOfStakeReward nCoinAge.toInt64 nFees

/-- `nBalance - nReserveBalance`, with the balance that `CreateCoinStake` cuts down. -/
def CWallet.stakeLimit (wallet : CWallet CKey) : Int :=
  min wallet.nBalance (Int64.maxValue.toInt - coin.toInt) - wallet.nReserveBalance

/-- Whether the stake is split over two outputs. -/
def StakeKernelFound.splits (env : Env) (kernel : StakeKernelFound CKey) (nTime : UInt32) : Bool :=
  decide (getWeight env kernel.block.getBlockTime nTime.toNat < nStakeSplitAge)

/-- What a `CreateCoinStake` that succeeds has done. -/
structure StakeSteps (env : Env) (hashes : KernelHash) (wallet : CWallet CKey) (s : Node) (nBits nTime : UInt32)
    (nSearchInterval : Int) (nFees : Int64) (txNew : CTransaction) (kernel : StakeKernelFound CKey)
    (coins : List StakeCoin) (nCoinAge : UInt64) : Prop where
  found : findKernel env hashes wallet s nBits nTime nSearchInterval
    (wallet.selectCoinsForStaking wallet.stakeLimit nTime) = some kernel
  worth : kernel.pcoin.txout.nValue ≠ 0
  affordable : kernel.pcoin.txout.nValue.toInt ≤ wallet.stakeLimit
  added : addStakeInputs env kernel txNew.nTime (!kernel.splits env txNew.nTime) wallet.stakeLimit
    (wallet.selectCoinsForStaking wallet.stakeLimit nTime) [kernel.pcoin] kernel.pcoin.txout.nValue =
      (coins, creditFrom 0 coins)
  time : txNew.nTime = nTime - UInt32.ofNat kernel.n
  prevouts : txNew.vin.map CTxIn.prevout = coins.map (StakeCoin.prevout env)
  signed : ∃ unsigned, signInputs wallet 0 coins unsigned = some txNew ∧ ∀ txin ∈ unsigned.vin, txin.scriptSig = []
  outputs : txNew.vout = stakeOutputs kernel.scriptPubKeyOut (kernel.splits env txNew.nTime)
    (creditFrom 0 coins + getProofOfStakeReward nCoinAge.toInt64 nFees)
  age : txNew.getCoinAge env s.reading = some nCoinAge
  reward : 0 < getProofOfStakeReward nCoinAge.toInt64 nFees

/-- The coins of a coinstake: the kernel, and what the second loop has added to it. -/
theorem StakeSteps.coins {nBits nTime : UInt32} {nSearchInterval : Int} {nFees : Int64} {txNew : CTransaction}
    {kernel : StakeKernelFound CKey} {coins : List StakeCoin} {nCoinAge : UInt64}
    (steps : StakeSteps env hashes wallet s nBits nTime nSearchInterval nFees txNew kernel coins nCoinAge) :
    ∃ others, AddedInputs env kernel (wallet.selectCoinsForStaking wallet.stakeLimit nTime) [kernel.pcoin] coins
      kernel.pcoin.txout.nValue (creditFrom 0 coins) others := addStakeInputs_spec steps.added

/-- Every coin of a coinstake was selected. -/
theorem StakeSteps.selected {nBits nTime : UInt32} {nSearchInterval : Int} {nFees : Int64} {txNew : CTransaction}
    {kernel : StakeKernelFound CKey} {coins : List StakeCoin} {nCoinAge : UInt64}
    (steps : StakeSteps env hashes wallet s nBits nTime nSearchInterval nFees txNew kernel coins nCoinAge) :
    ∀ pcoin ∈ coins, pcoin ∈ wallet.selectCoinsForStaking wallet.stakeLimit nTime := by
  obtain ⟨others, added⟩ := steps.coins
  intro pcoin member
  rw [added.coins, List.singleton_append, List.mem_cons] at member
  rcases member with rfl | other
  · exact (findKernel_coin steps.found).1
  · exact added.sublist.subset other

theorem createCoinStake_cases {nBits nTime : UInt32} {nSearchInterval : Int} {nFees : Int64}
    {txNew : CTransaction} {key : CKey}
    (made : createCoinStake env hashes wallet s nBits nTime nSearchInterval nFees = some (txNew, key)) :
    ∃ kernel coins nCoinAge,
      StakeSteps env hashes wallet s nBits nTime nSearchInterval nFees txNew kernel coins nCoinAge := by
  simp only [createCoinStake] at made
  split at made
  · cases made
  split at made
  · cases made
  rename_i kernel found
  split at made
  · cases made
  rename_i payable
  rw [not_or, Int.not_lt] at payable
  generalize pair : addStakeInputs env kernel (nTime - UInt32.ofNat kernel.n) _ _ _ _ _ = added at made
  obtain ⟨coins, nCredit⟩ := added
  obtain ⟨others, adding⟩ := addStakeInputs_spec pair
  have credit : nCredit = creditFrom 0 coins := by
    rw [adding.credit, adding.coins]
    simp [creditFrom]
  subst credit
  dsimp only at made
  split at made
  · cases made
  rename_i nCoinAge age
  split at made
  · cases made
  rename_i positive
  split at made
  · cases made
  rename_i signedTx signed
  split at made
  · cases made
  cases made
  obtain ⟨prevouts, time, outputs⟩ := signInputs_spec signed
  replace time : txNew.nTime = nTime - UInt32.ofNat kernel.n := time
  have unsigned : (coins.map fun pcoin => (⟨pcoin.prevout env, [], 0xffffffff⟩ : CTxIn)).map CTxIn.prevout =
      coins.map (StakeCoin.prevout env) := by
    rw [List.map_map]
    rfl
  replace prevouts := prevouts.trans unsigned
  refine ⟨kernel, coins, nCoinAge, found, payable.1, payable.2, ?_, time, prevouts, ⟨_, signed, ?_⟩, ?_, ?_, ?_⟩
  · rw [time]
    exact pair
  · intro txin inside
    obtain ⟨pcoin, -, rfl⟩ := List.mem_map.mp inside
    rfl
  · rw [time]
    exact outputs
  · rw [← age]
    refine getCoinAge_congr ⟨rfl, fun _ _ _ => rfl, fun _ _ _ => rfl⟩ time ?_ ?_
    · exact prevouts.trans unsigned.symm
    · exact (not_coinBase_of_coins prevouts).trans (not_coinBase_of_coins unsigned).symm
  · exact Int64.not_le.mp positive

theorem createCoinStake_spec (standard : wallet.Standard) {nBits nTime : UInt32} {nSearchInterval : Int}
    {nFees : Int64} {coinstake : CTransaction} {key : CKey}
    (made : createCoinStake env hashes wallet s nBits nTime nSearchInterval nFees = some (coinstake, key)) :
    ∃ coins nCoinAge, MadeStake env wallet s nFees coinstake coins nCoinAge := by
  obtain ⟨kernel, coins, nCoinAge, steps⟩ := createCoinStake_cases made
  obtain ⟨others, added⟩ := steps.coins
  have each := steps.selected
  obtain rfl := added.coins
  obtain ⟨-, ⟨script, known⟩, -⟩ := findKernel_coin steps.found
  obtain ⟨unsigned, signed, plain⟩ := steps.signed
  refine ⟨_, nCoinAge, ⟨_, _, each⟩, steps.prevouts, isCoinStake_of_coins steps.prevouts steps.outputs, ?_,
    steps.age, ?_⟩
  · have none : (coinstake.vin.map fun txin => CScript.getSigOpCount false txin.scriptSig).sum = 0 := by
      rw [List.sum_eq_zero]
      intro count inside
      obtain ⟨txin, present, rfl⟩ := List.mem_map.mp inside
      refine signInputs_sigOps standard signed (fun txin inside => ?_) txin present
      rw [plain txin inside]
      rfl
    rw [CTransaction.getLegacySigOpCount, none, Nat.zero_add, steps.outputs]
    exact sigOps_stakeOutputs (standard.outputs _ _ _ known)
  · intro nValueOut value
    rw [getValueOut_stakeOutputs steps.outputs value]

/-- The inputs of a coinstake are worth what the wallet has counted. -/
theorem addValueIn_coins {U : Set CTransaction} (collisionFree : Set.InjOn env.txHash U) {inputs : MapPrevTx}
    (genuine : Genuine env U inputs) {coins : List StakeCoin} (owned : ∀ pcoin ∈ coins, pcoin.tx ∈ U)
    {vin : List CTxIn} (prevouts : vin.map CTxIn.prevout = coins.map (StakeCoin.prevout env))
    {start total : Int64} (sum : CTransaction.addValueIn inputs start vin = some total) :
    total = creditFrom start coins := by
  induction coins generalizing vin start with
  | nil =>
      rw [List.map_eq_nil_iff.mp prevouts] at sum
      exact (Option.some.inj sum).symm
  | cons pcoin rest ih =>
      cases vin with
      | nil => cases prevouts
      | cons txin vin =>
          simp only [List.map_cons, List.cons.injEq] at prevouts
          simp only [CTransaction.addValueIn, CTransaction.getOutputFor, prevouts.1, StakeCoin.prevout] at sum
          cases found : inputs (env.txHash pcoin.tx) with
          | none => simp [found] at sum
          | some prev =>
              obtain ⟨hash, inside⟩ := genuine _ _ found
              have same := collisionFree inside (owned pcoin List.mem_cons_self) hash
              simp only [found, same, List.getElem?_eq_getElem pcoin.inRange] at sum
              exact ih (fun other member => owned other (List.mem_cons_of_mem _ member)) prevouts.2 sum

end Stake

section Connecting

variable {env : Env} {U : Set CTransaction} {s : Node} {pindex : CBlockIndex} {pprev : BlockPtr}

/-- Entries that can be read back from the files, all of them transactions of a set. -/
def ReadableIn (U : Set CTransaction) (files : BlockFiles) (entries : TxHistory) : Prop :=
  ∀ entry ∈ entries, entry.2 ≠ CDiskTxPos.memoryPool ∧ files.readTx entry.2 = some entry.1 ∧ entry.1 ∈ U

theorem ReadsBack.connectTx {acc next : ConnectState} {tx : CTransaction}
    (reads : ReadsBack env U s (overlay acc.mapQueuedChanges s.txdb.txIndex))
    (readable : pindex.txPos acc.nTxPos ≠ CDiskTxPos.memoryPool ∧
      s.files.readTx (pindex.txPos acc.nTxPos) = some tx ∧ tx ∈ U)
    (step : CBlock.connectTx env s pindex pprev false acc tx = some next) :
    ReadsBack env U s (overlay next.mapQueuedChanges s.txdb.txIndex) := by
  rw [(CBlock.connectTx_overlay step).2]
  refine reads.applyTx fun other stored => ?_
  rw [readTxAt, if_neg readable.1, readable.2.1, Option.some.injEq] at stored
  exact ⟨congrArg env.txHash stored.symm, stored ▸ readable.2.2⟩

/-- Connecting the transactions of a template adds their fees and no stake reward. -/
theorem connectTxs_loose {vtx : List CTransaction} {acc final : ConnectState}
    (loop : CBlock.connectTxs env s pindex pprev false vtx acc = some final) (loose : ∀ tx ∈ vtx, Loose tx)
    (reads : ReadsBack env U s (overlay acc.mapQueuedChanges s.txdb.txIndex))
    (readable : ReadableIn U s.files (CBlock.entriesFrom pindex acc.nTxPos vtx)) :
    final.nStakeReward = acc.nStakeReward ∧ PaidFees env U vtx acc.nFees final.nFees := by
  induction vtx generalizing acc with
  | nil =>
      cases loop
      exact ⟨rfl, rfl⟩
  | cons tx rest ih =>
      simp only [CBlock.connectTxs] at loop
      split at loop
      · cases loop
      rename_i next step
      have own := readable _ List.mem_cons_self
      obtain ⟨notBase, notStake⟩ := loose tx List.mem_cons_self
      obtain ⟨-, place, ⟨base, -⟩ | ⟨-, inputs, nTxValueIn, nTxValueOut, queued, fetched, valueIn, valueOut, -,
        fees, reward, -⟩⟩ := CBlock.connectTx_cases step
      · exact absurd (base.symm.trans notBase) (by decide)
      rw [notStake, if_neg Bool.false_ne_true] at fees reward
      obtain ⟨kept, paid⟩ := ih loop (fun other member => loose other (List.mem_cons_of_mem _ member))
        (reads.connectTx own step) (by
          rw [place]
          exact fun entry member => readable entry (List.mem_cons_of_mem _ member))
      rw [fees] at paid
      exact ⟨kept.trans reward, inputs, nTxValueIn, nTxValueOut, reads.genuine fetched, valueIn, valueOut, paid⟩

end Connecting

/-- The call of `ConnectBlock` gets to the reward test, and the coinstake fails it. -/
def CBlock.PaysTooMuch (env : Env) (s : Node) (block : CBlock) (pindex : CBlockIndex) (pprev : BlockPtr) : Prop :=
  ∃ acc coinstake nCoinAge,
    CBlock.connectTxs env s pindex pprev false block.vtx ⟨∅, 0, 0, 0, 0, 0, block.firstTxPos pindex false⟩ = some acc ∧
      block.vtx[1]? = some coinstake ∧ coinstake.getCoinAge env s = some nCoinAge ∧
      getProofOfStakeReward nCoinAge.toInt64 acc.nFees < acc.nStakeReward

/-- A node that stakes: no two of the transactions it knows have one id, the pool and the index
have them under their ids, and the wallet has coins of them and makes standard scripts. -/
structure Staking {CKey : Type} (env : Env) (U : Set CTransaction) (wallet : CWallet CKey) (s : Node) : Prop where
  collisionFree : Set.InjOn env.txHash U
  keyed : PoolKeyed env U s
  reads : ReadsBack env U s.reading s.reading.txdb.txIndex
  owned : ∀ nLimit nTime, ∀ pcoin ∈ wallet.selectCoinsForStaking nLimit nTime, pcoin.tx ∈ U
  standard : wallet.Standard

/-- The state in which the block is connected on the tip of the first: the index is the same,
and the block is in the files. -/
structure OnTip (U : Set CTransaction) (s s' : Node) (block : CBlock) (pindex : CBlockIndex) : Prop where
  same : SameIndexed s.reading s'
  pool : s'.mempool = s.mempool
  readable : ReadableIn U s'.files (block.entries pindex)

/-- Size of a block with the transactions of a template, a coinstake and a signature. -/
def CBlock.sizeWith (template : CBlock) (coinstake : CTransaction) (vchBlockSig : List UInt8) : Nat :=
  80 + (getSizeOfCompactSize (template.vtx.length + 1) +
    ((template.vtx.map CTransaction.getSerializeSize).sum + coinstake.getSerializeSize)) + bytesSize vchBlockSig

section Validity

variable {CKey : Type} {env : Env} {hashes : KernelHash} {wallet : CWallet CKey} {s s' : Node}
  {U : Set CTransaction} {nFees : Int64} {template block : CBlock} {pindex : CBlockIndex}
  {coinbase coinstake : CTransaction} {vtx : List CTransaction}

theorem OnTip.reads (onTip : OnTip U s s' block pindex)
    (reads : ReadsBack env U s.reading s.reading.txdb.txIndex) : ReadsBack env U s' s'.txdb.txIndex := by
  intro hash txindex tx found stored
  rw [onTip.same.index] at found
  refine reads hash txindex tx found ?_
  rw [readTxAt] at stored ⊢
  rw [onTip.pool, onTip.same.txs _ _ found] at stored
  exact stored

/-- `ConnectBlock` computes the reward that the coinstake claims. -/
theorem not_paysTooMuch (collisionFree : Set.InjOn env.txHash U)
    (reads : ReadsBack env U s.reading s.reading.txdb.txIndex) {coins : List StakeCoin} {nCoinAge : UInt64}
    (owned : ∀ pcoin ∈ coins, pcoin.tx ∈ U)
    (prevouts : coinstake.vin.map CTxIn.prevout = coins.map (StakeCoin.prevout env))
    (isStake : coinstake.isCoinStake = true) (age : coinstake.getCoinAge env s.reading = some nCoinAge)
    (value : ∀ nValueOut, coinstake.getValueOut = some nValueOut →
      nValueOut = creditFrom 0 coins + getProofOfStakeReward nCoinAge.toInt64 nFees)
    (loose : ∀ tx ∈ vtx, Loose tx) (fees : PaidFees env U vtx 0 nFees) (base : coinbase.isCoinBase = true)
    (shape : block.vtx = coinbase :: coinstake :: vtx) (onTip : OnTip U s s' block pindex) (pprev : BlockPtr) :
    ¬block.PaysTooMuch env s' pindex pprev := by
  rintro ⟨acc, other, nAge, loop, second, connectAge, less⟩
  have readable := onTip.readable
  rw [CBlock.entries, shape] at readable
  rw [shape] at second loop
  cases second
  have notBase : coinstake.isCoinBase = false := not_coinBase_of_coins prevouts
  rw [getCoinAge_congr onTip.same rfl rfl rfl, age, Option.some.injEq] at connectAge
  subst connectAge
  have readsTip := onTip.reads reads
  rw [← overlay_empty s'.txdb.txIndex] at readsTip
  simp only [CBlock.connectTxs] at loop
  split at loop
  · cases loop
  rename_i afterBase stepBase
  split at loop
  · cases loop
  rename_i afterStake stepStake
  have readsBase := readsTip.connectTx (readable _ List.mem_cons_self) stepBase
  obtain ⟨-, placeBase, ⟨-, -, -, feesBase, -⟩ | ⟨ordinary, -⟩⟩ := CBlock.connectTx_cases stepBase
  swap
  · exact absurd (base.symm.trans ordinary) (by decide)
  have placeStart : afterBase.nTxPos = block.firstTxPos pindex false + UInt32.ofNat coinbase.getSerializeSize :=
    placeBase
  have readableStake := readable _ (List.mem_cons_of_mem _ List.mem_cons_self)
  rw [← placeStart] at readableStake
  obtain ⟨-, placeStake, ⟨wrong, -⟩ | ⟨-, inputs, nTxValueIn, nTxValueOut, queued, fetched, valueIn, valueOut, -,
    feesStake, reward, -⟩⟩ := CBlock.connectTx_cases stepStake
  · exact absurd (wrong.symm.trans notBase) (by decide)
  rw [isStake, if_pos rfl] at feesStake reward
  obtain ⟨kept, paid⟩ := connectTxs_loose loop loose (readsBase.connectTx readableStake stepStake) (by
    intro entry member
    rw [placeStake, placeStart] at member
    exact readable entry (List.mem_cons_of_mem _ (List.mem_cons_of_mem _ member)))
  rw [feesStake, feesBase] at paid
  have sameFees : acc.nFees = nFees := paid.unique collisionFree fees
  rw [CTransaction.getValueIn, notBase, if_neg Bool.false_ne_true] at valueIn
  have credit := addValueIn_coins collisionFree (readsBase.genuine fetched) owned prevouts valueIn
  have exact : acc.nStakeReward = getProofOfStakeReward nCoinAge.toInt64 nFees := by
    rw [kept, reward, value _ valueOut, credit]
    grind
  rw [sameFees, exact] at less
  exact absurd less (by simp)

/-- The rules of `CheckBlock` on a signed block: the times of the template, and the size. -/
theorem stakeRules_iff (sigOps : (vtx.map CTransaction.getLegacySigOpCount).sum + 100 ≤ maxBlockSigOps)
    (noSigOps : coinbase.getLegacySigOpCount = 0) (few : coinstake.getLegacySigOpCount ≤ 2)
    (shapeTemplate : template.vtx = coinbase :: vtx)
    (shape : block.vtx = { coinbase with nTime := coinstake.nTime } :: coinstake :: vtx)
    (time : block.getBlockTime =
      vtx.foldl (fun latest tx => max latest (tx.nTime.toNat : Int)) coinstake.nTime.toNat) :
    block.StakeRules ↔ (∀ tx ∈ vtx, tx.nTime ≤ coinstake.nTime) ∧
      template.sizeWith coinstake block.vchBlockSig ≤ maxBlockSize := by
  have size : block.getSerializeSize = template.sizeWith coinstake block.vchBlockSig := by
    have same : ({ coinbase with nTime := coinstake.nTime } : CTransaction).getSerializeSize =
        coinbase.getSerializeSize := rfl
    simp only [CBlock.getSerializeSize, CBlock.sizeWith, shape, shapeTemplate, List.map_cons, List.sum_cons,
      List.length_cons, same]
    omega
  have count : block.vtx.length ≤ block.getSerializeSize := by
    have each : (block.vtx.map CTransaction.getSerializeSize).length ≤
        (block.vtx.map CTransaction.getSerializeSize).sum := by
      refine List.length_le_sum_of_one_le _ fun size member => ?_
      obtain ⟨tx, -, rfl⟩ := List.mem_map.mp member
      rw [CTransaction.getSerializeSize]
      omega
    rw [List.length_map] at each
    rw [CBlock.getSerializeSize]
    omega
  obtain ⟨atLeast, latest⟩ := le_foldl_max vtx (coinstake.nTime.toNat : Int)
  rw [← time] at atLeast latest
  have rules : block.StakeRules ↔ block.getBlockTime = coinstake.nTime.toNat ∧
      block.getSerializeSize ≤ maxBlockSize := by
    simp only [CBlock.StakeRules, shape, checkCoinStakeTimestamp, decide_eq_true_eq, futureDrift]
    constructor
    · rintro ⟨equal, -, -, -, fits, -⟩
      exact ⟨equal, fits⟩
    · rintro ⟨equal, fits⟩
      refine ⟨equal, ?_, by omega, ?_, fits, ?_⟩
      · intro tx member
        rcases List.mem_cons.mp member with rfl | later
        · exact atLeast
        rcases List.mem_cons.mp later with rfl | rest
        · exact atLeast
        · exact latest tx rest
      · rw [← shape]
        exact count.trans fits
      · have same : ({ coinbase with nTime := coinstake.nTime } : CTransaction).getLegacySigOpCount =
            coinbase.getLegacySigOpCount := rfl
        simp only [List.map_cons, List.sum_cons, same, noSigOps]
        omega
  rw [rules, size]
  refine and_congr_left fun _ => ?_
  constructor
  · intro equal tx member
    have := latest tx member
    rw [UInt32.le_iff_toNat_le]
    omega
  · intro early
    refine le_antisymm ?_ atLeast
    rw [time]
    refine foldl_max_le le_rfl fun tx member => ?_
    have := UInt32.le_iff_toNat_le.mp (early tx member)
    omega

/-- A block that `SignBlock` makes of a template passes these rules of `CheckBlock`, and
`ConnectBlock` on the same tip does not find that its coinstake pays too much, exactly when
no transaction of the template is later than the coinstake and there is room for the
coinstake and the signature. -/
theorem staked_block_valid_iff {options : MinerOptions} {scores : TxScores} {now nLastCoinStakeSearchTime : Int}
    (staking : Staking env U wallet s) (created : createNewBlock env options scores s = some (template, nFees))
    (signed : signBlock env hashes wallet { s with nAdjustedTime := now } nLastCoinStakeSearchTime nFees template =
      some block) :
    (block.StakeRules ∧
        ∀ s' pindex, OnTip U s s' block pindex → ¬block.PaysTooMuch env s' pindex s.pindexBest) ↔
      ∃ coinstake key,
        coinStakeFor env hashes wallet { s with nAdjustedTime := now } nLastCoinStakeSearchTime nFees template =
            some (coinstake, key) ∧
          (∀ tx ∈ template.vtx.tail, tx.nTime ≤ coinstake.nTime) ∧
          template.sizeWith coinstake block.vchBlockSig ≤ maxBlockSize := by
  obtain ⟨coinbase, vtx, filled⟩ := createNewBlock_spec staking.keyed staking.reads created
  obtain ⟨coinstake, key, made, shape, time⟩ := signBlock_cases filled.isTemplate signed
  obtain ⟨coins, nCoinAge, stake⟩ := createCoinStake_spec staking.standard made
  obtain ⟨nLimit, nTime, selected⟩ := stake.selected
  have rules := stakeRules_iff filled.sigOps filled.noSigOps stake.sigOps filled.isTemplate.shape shape time
  have rewarded : ∀ s' pindex, OnTip U s s' block pindex → ¬block.PaysTooMuch env s' pindex s.pindexBest := by
    intro s' pindex onTip
    have base : ({ coinbase with nTime := coinstake.nTime } : CTransaction).isCoinBase = true := filled.base
    exact not_paysTooMuch (s := { s with nAdjustedTime := now }) staking.collisionFree staking.reads
      (fun pcoin member => staking.owned _ _ pcoin (selected pcoin member)) stake.prevouts stake.isStake stake.age
      stake.value filled.isTemplate.ordinary
      filled.fees base shape
      ⟨⟨onTip.same.index, onTip.same.txs, onTip.same.blocks⟩, onTip.pool, onTip.readable⟩ s.pindexBest
  rw [and_iff_left rewarded, rules, filled.isTemplate.shape, List.tail_cons]
  constructor
  · intro fits
    exact ⟨coinstake, key, made, fits⟩
  · rintro ⟨other, otherKey, madeOther, fits⟩
    cases made.symm.trans madeOther
    exact fits

end Validity

section Concrete

/-- The ids are labels, but a coinbase and a coinstake have fixed ones. -/
def stakedEnv : Env :=
  { Env.labelled true with
    txHash := fun tx =>
      if tx.isCoinBase then 1 else if tx.isCoinStake then 2 else BitVec.ofNat 256 tx.nLockTime.toNat }

/-- The coin of the wallet. -/
def savings : CTransaction := .labelledSpend 50 1000 ⟨40, 0⟩ (1000 * coin)

/-- What the pool transaction spends. -/
def allowance : CTransaction := .labelledSpend 51 1000 ⟨41, 0⟩ (1000 * coin)

def payment : CTransaction := .labelledSpend 60 60000 ⟨51, 0⟩ (999 * coin)

/-- The first block of the chain has both coins. -/
def stakedFrom : CBlock :=
  { stakeBlock 1 (genesisHash true) 1 1000 with
    vtx := (stakeBlock 1 (genesisHash true) 1 1000).vtx ++ [savings, allowance] }

def stakedIndex : DbKey → Option DbValue
  | .tx hash =>
      if hash = 50 then some (.txIndex (.new ((forkEntry 1 1).txPos 1100) 1))
      else if hash = 51 then some (.txIndex (.new ((forkEntry 1 1).txPos 1200) 1))
      else none
  | _ => none

/-- A node at time 60000 with the payment in its pool. -/
def stakedNode : Node :=
  { stakeInitial with
    pindexBest := stakeTip
    nBestHeight := 2
    pnext := fun hash => if hash = genesisHash true then some 1 else if hash = 1 then some 2 else none
    txdb := ⟨stakedIndex, none, fun _ => true, 0⟩
    files :=
      ⟨fun pos => if pos.nTxPos = 1100 then some savings else if pos.nTxPos = 1200 then some allowance else none,
        fun _ nBlockPos => if nBlockPos = 1000 then some stakedFrom else none⟩
    mempool := CTxMemPool.empty.addUnchecked 60 payment }

theorem zero_lt_savings : (0 : UInt32).toNat < savings.vout.length := by decide

theorem zero_ne_null : (0 : UInt32) ≠ 0xffffffff := by decide

def stakedWallet : CWallet Unit where
  nBalance := 1000 * coin.toInt
  nReserveBalance := 0
  selectCoinsForStaking _ _ := [⟨savings, 0, zero_lt_savings, zero_ne_null⟩]
  kernelKey _ := some ((), 0x21 :: (List.replicate 33 0x02 ++ [0xac]))
  signSignature _ _ _ := some [0x01, 0x30]
  sign _ _ := some [0x30]

def stakedOptions : MinerOptions := ⟨maxBlockSizeGen / 2, 27000, 0⟩

def stakedScores : TxScores := ⟨fun _ _ => 0, fun _ => false, fun _ => false⟩

/-- The block that the node makes, with the template. -/
def stakedRun (hashes : KernelHash) : Option (CBlock × Int64 × CBlock) :=
  match createNewBlock stakedEnv stakedOptions stakedScores stakedNode with
  | none => none
  | some (template, nFees) =>
      (signBlock stakedEnv hashes stakedWallet stakedNode 59990 nFees template).map fun block =>
        (template, nFees, block)

/-- A kernel hash that is too large at time 60000. -/
def lateHashes : KernelHash :=
  { stakeHashes with kernel := fun _ _ _ _ _ nTimeTx => if nTimeTx = 60000 then -1 else 1 }

/-- The transactions that the node knows of, with those of a block. -/
def stakedTxs (block : CBlock) : Set CTransaction := {tx | tx ∈ savings :: allowance :: payment :: block.vtx}

theorem stakedIndex_cases {hash : UInt256} {txindex : CTxIndex}
    (found : stakedNode.txdb.txIndex hash = some txindex) :
    (hash = 50 ∧ txindex.pos = (forkEntry 1 1).txPos 1100) ∨
      (hash = 51 ∧ txindex.pos = (forkEntry 1 1).txPos 1200) := by
  rw [CTxDB.txIndex_eq] at found
  change CTxDB.txIndexOf (stakedIndex (.tx hash)) = some txindex at found
  simp only [stakedIndex] at found
  split at found
  · rename_i first
    cases found
    exact Or.inl ⟨first, rfl⟩
  split at found
  · rename_i second
    cases found
    exact Or.inr ⟨second, rfl⟩
  · cases found

def stakedDistinct (block : CBlock) : Bool :=
  decide (∀ tx ∈ savings :: allowance :: payment :: block.vtx,
    ∀ other ∈ savings :: allowance :: payment :: block.vtx, stakedEnv.txHash tx = stakedEnv.txHash other → tx = other)

theorem stakedNode_staking {block : CBlock} (distinct : stakedDistinct block = true) :
    Staking stakedEnv (stakedTxs block) stakedWallet stakedNode := by
  have distinct := of_decide_eq_true distinct
  refine ⟨fun tx inside other insideOther => distinct tx inside other insideOther, ?_, ?_, ?_, ?_, ?_⟩
  · intro hash tx found
    by_cases same : hash = 60
    · subst same
      rw [CTxMemPool.lookup, stakedNode, CTxMemPool.addUnchecked, AList.lookup_insert] at found
      cases found
      exact ⟨by decide, by simp [stakedTxs]⟩
    · rw [CTxMemPool.lookup, stakedNode, CTxMemPool.addUnchecked, AList.lookup_insert_ne same] at found
      simp [CTxMemPool.empty] at found
  · intro hash txindex tx found stored
    rcases stakedIndex_cases found with ⟨rfl, place⟩ | ⟨rfl, place⟩
    · rw [place] at stored
      cases stored
      exact ⟨by decide, by simp [stakedTxs]⟩
    · rw [place] at stored
      cases stored
      exact ⟨by decide, by simp [stakedTxs]⟩
  · intro nLimit nTime pcoin member
    cases List.mem_singleton.mp member
    simp [stakedTxs]
  · intro script key out known
    cases known
    decide +kernel
  · intro txFrom txTo nIn scriptSig signature
    cases signature
    decide +kernel

theorem stakedRun_cases (hashes : KernelHash) (check : CBlock → Int64 → CBlock → Bool)
    (run : (stakedRun hashes).any (fun made => check made.1 made.2.1 made.2.2) = true) :
    ∃ template nFees block, createNewBlock stakedEnv stakedOptions stakedScores stakedNode = some (template, nFees) ∧
      signBlock stakedEnv hashes stakedWallet stakedNode 59990 nFees template = some block ∧
      check template nFees block = true := by
  rw [Option.any_eq_true] at run
  obtain ⟨⟨template, nFees, block⟩, made, passed⟩ := run
  simp only [stakedRun] at made
  split at made
  · cases made
  rename_i template' nFees' created
  obtain ⟨block', signed, same⟩ := Option.map_eq_some_iff.mp made
  cases same
  exact ⟨template, nFees, block, created, signed, passed⟩

/-- The kernel is met one second back, the payment has the time of the template, and the block
gets that time and not the one of its coinstake: `CheckBlock` refuses it. -/
theorem staked_block_refused : ∃ template nFees block,
    Staking stakedEnv (stakedTxs block) stakedWallet stakedNode ∧
      createNewBlock stakedEnv stakedOptions stakedScores stakedNode = some (template, nFees) ∧
      signBlock stakedEnv lateHashes stakedWallet stakedNode 59990 nFees template = some block ∧
      ¬block.StakeRules ∧ block.checkBlock stakedEnv stakedNode.nAdjustedTime true true true = false := by
  obtain ⟨template, nFees, block, created, signed, passed⟩ := stakedRun_cases lateHashes
    (fun _ _ block => stakedDistinct block && decide (block.getBlockTime = 60000) &&
      decide (block.vtx.map (fun tx => tx.nTime.toNat) = [59999, 59999, 60000]) &&
      block.isProofOfStake) (by decide +kernel)
  simp only [Bool.and_eq_true, decide_eq_true_eq] at passed
  obtain ⟨⟨⟨distinct, time⟩, times⟩, stake⟩ := passed
  have broken : ¬block.StakeRules := by
    intro rules
    rw [CBlock.StakeRules] at rules
    split at rules
    · rename_i coinbase coinstake rest shape
      rw [shape] at times
      simp only [List.map_cons, List.cons.injEq] at times
      have equal := rules.1
      rw [checkCoinStakeTimestamp, decide_eq_true_eq, time, times.2.1] at equal
      exact absurd equal (by decide)
    · exact rules
  refine ⟨template, nFees, block, stakedNode_staking distinct, created, signed, broken, ?_⟩
  rw [← Bool.not_eq_true]
  exact fun checked => broken (CBlock.stakeRules_of_checkBlock checked stake)

/-- The block in the files. -/
def stakedEntry : CBlockIndex := forkEntry 4 3

/-- The node when it connects the block. -/
def stakedOn (block : CBlock) : Node :=
  { stakedNode with
    files := { stakedNode.files with
      readTx := fun pos =>
        if pos.nBlockPos = stakedEntry.nBlockPos then
          ((block.entries stakedEntry).find? fun entry => entry.2 = pos).map Prod.fst
        else stakedNode.files.readTx pos } }

theorem stakedOn_onTip {block : CBlock} (readable : ∀ entry ∈ block.entries stakedEntry,
      entry.2 ≠ CDiskTxPos.memoryPool ∧ (stakedOn block).files.readTx entry.2 = some entry.1) :
    OnTip (stakedTxs block) stakedNode (stakedOn block) block stakedEntry := by
  refine ⟨⟨rfl, ?_, fun _ _ _ => rfl⟩, rfl, ?_⟩
  · intro hash txindex found
    rcases stakedIndex_cases found with ⟨-, place⟩ | ⟨-, place⟩
    · rw [place]
      rfl
    · rw [place]
      rfl
  · intro entry member
    have inBlock : entry.1 ∈ block.vtx := by
      rw [← CBlock.entries_map_fst block stakedEntry]
      exact List.mem_map_of_mem member
    exact ⟨(readable entry member).1, (readable entry member).2, by simp [stakedTxs, inBlock]⟩

/-- With a kernel at the time of the template the block is as it should be. -/
theorem staked_block_accepted : ∃ template nFees block,
    createNewBlock stakedEnv stakedOptions stakedScores stakedNode = some (template, nFees) ∧
      signBlock stakedEnv stakeHashes stakedWallet stakedNode 59990 nFees template = some block ∧
      payment ∈ block.vtx ∧ block.StakeRules ∧ OnTip (stakedTxs block) stakedNode (stakedOn block) block stakedEntry ∧
      ¬block.PaysTooMuch stakedEnv (stakedOn block) stakedEntry stakeTip := by
  obtain ⟨template, nFees, block, created, signed, passed⟩ := stakedRun_cases stakeHashes
    (fun template nFees block => stakedDistinct block && decide (payment ∈ block.vtx) &&
      decide (∀ entry ∈ block.entries stakedEntry,
        entry.2 ≠ CDiskTxPos.memoryPool ∧ (stakedOn block).files.readTx entry.2 = some entry.1) &&
      (coinStakeFor stakedEnv stakeHashes stakedWallet stakedNode 59990 nFees template).any
        fun made : CTransaction × Unit =>
          decide (∀ tx ∈ template.vtx.tail, tx.nTime ≤ made.1.nTime) &&
            decide (template.sizeWith made.1 block.vchBlockSig ≤ maxBlockSize)) (by decide +kernel)
  simp only [Bool.and_eq_true, decide_eq_true_eq, Option.any_eq_true] at passed
  obtain ⟨⟨⟨distinct, member⟩, readable⟩, ⟨coinstake, key⟩, made, fits⟩ := passed
  have valid := (staked_block_valid_iff (stakedNode_staking distinct) created signed).mpr
    ⟨coinstake, key, made, fits⟩
  have onTip := stakedOn_onTip readable
  exact ⟨template, nFees, block, created, signed, member, valid.1, onTip, valid.2 _ _ onTip⟩

end Concrete

end InfiniteRicks
