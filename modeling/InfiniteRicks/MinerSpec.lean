import InfiniteRicks.Miner
import InfiniteRicks.Value
import Mathlib.Tactic.IntervalCases

/-!
# Staked blocks under the rules of `CheckBlock` and `ConnectBlock`

`SignBlock` sets the block time to the latest transaction of the template before it drops
those that are later, so it drops none, and where one is later than the coinstake the
block has not the time of its coinstake. The coinstake is not counted in the size of the
template either. What the coinstake claims is what `ConnectBlock` computes.
-/

namespace InfiniteRicks

open Ledger

/-- The rules of `CheckBlock` on the times, the size and the signature operations of a
proof-of-stake block. -/
def CBlock.StakeRules (block : CBlock) : Prop :=
  match block.vtx with
  | coinbase :: coinstake :: _ =>
      checkCoinStakeTimestamp block.getBlockTime coinstake.nTime.toNat = true ∧
        (∀ tx ∈ block.vtx, (tx.nTime.toNat : Int) ≤ block.getBlockTime) ∧
        block.getBlockTime ≤ futureDrift coinbase.nTime.toNat ∧
        block.vtx.length ≤ maxBlockSize ∧ block.getSerializeSize ≤ maxBlockSize ∧
        (block.vtx.map CTransaction.getLegacySigOpCount).sum ≤ maxBlockSigOps
  | _ => False

theorem CBlock.stakeRules_of_checkBlock {env : Env} {nAdjustedTime : Int} {block : CBlock}
    {fCheckPOW fCheckMerkleRoot fCheckSig : Bool}
    (checked : block.checkBlock env nAdjustedTime fCheckPOW fCheckMerkleRoot fCheckSig = true)
    (stake : block.isProofOfStake = true) : block.StakeRules := by
  simp only [checkBlock] at checked
  split at checked
  · cases checked
  rename_i sizes
  split at checked
  · cases checked
  split at checked
  · cases checked
  split at checked
  · cases checked
  rename_i base
  split at checked
  · cases checked
  rename_i staked
  split at checked
  · cases checked
  rename_i each
  split at checked
  · cases checked
  split at checked
  · cases checked
  rename_i sigOps
  simp only [Bool.or_eq_true, decide_eq_true_eq, not_or, not_lt] at sizes
  rw [Bool.not_eq_true', Bool.not_eq_false] at base
  rw [stake, Bool.true_and, Bool.not_eq_true', Bool.not_eq_false, checkStake] at staked
  rw [Bool.not_eq_true', Bool.not_eq_false] at each
  simp only [List.all_eq_true, Bool.and_eq_true, decide_eq_true_eq] at each
  split at staked
  · rename_i coinbase coinstake rest shape
    simp only [checkCoinBase, shape, Bool.and_eq_true, decide_eq_true_eq] at base
    simp only [Bool.and_eq_true] at staked
    simp only [StakeRules, shape]
    rw [shape] at sizes each sigOps
    exact ⟨staked.1.2, fun tx member => (each tx member).2, base.2, sizes.1.2, sizes.2, not_lt.mp sigOps⟩
  · cases staked

section Times

theorem le_foldl_max (vtx : List CTransaction) (start : Int) :
    start ≤ vtx.foldl (fun latest tx => max latest (tx.nTime.toNat : Int)) start ∧
      ∀ tx ∈ vtx, (tx.nTime.toNat : Int) ≤ vtx.foldl (fun latest tx => max latest (tx.nTime.toNat : Int)) start := by
  induction vtx generalizing start with
  | nil => simp
  | cons first rest ih =>
      obtain ⟨above, each⟩ := ih (max start first.nTime.toNat)
      refine ⟨le_trans (le_max_left _ _) above, ?_⟩
      intro tx member
      rcases List.mem_cons.mp member with rfl | later
      · exact le_trans (le_max_right _ _) above
      · exact each tx later

theorem foldl_max_le {vtx : List CTransaction} {start bound : Int} (startLe : start ≤ bound)
    (each : ∀ tx ∈ vtx, (tx.nTime.toNat : Int) ≤ bound) :
    vtx.foldl (fun latest tx => max latest (tx.nTime.toNat : Int)) start ≤ bound := by
  induction vtx generalizing start with
  | nil => exact startLe
  | cons first rest ih =>
      exact ih (max_le startLe (each first List.mem_cons_self))
        fun tx later => each tx (List.mem_cons_of_mem _ later)

theorem toNat_ofInt_of_lt {x : Int} (nonneg : 0 ≤ x) (small : x < 2 ^ 32) :
    ((UInt32.ofInt x).toNat : Int) = x := by
  rw [UInt32.ofInt, UInt32.toNat_ofNat']
  omega

/-- Where some transaction is not before the past limits, the block time is the latest
transaction. -/
theorem blockTimeOn_eq {pindexPrev : CBlockIndex} {pprev : BlockPtr} {block : CBlock} {tx : CTransaction}
    (member : tx ∈ block.vtx)
    (late : max (getMedianTimePast (pindexPrev :: pprev) + 1) (pastDrift pindexPrev.getBlockTime) ≤ tx.nTime.toNat) :
    ((blockTimeOn pindexPrev pprev block.getMaxTransactionTime).toNat : Int) = block.getMaxTransactionTime := by
  obtain ⟨nonneg, each⟩ := le_foldl_max block.vtx 0
  have bound : block.getMaxTransactionTime ≤ 2 ^ 32 - 1 := by
    refine foldl_max_le (by decide) fun other _ => ?_
    have := other.nTime.toNat_lt
    omega
  have above := each tx member
  have limits := max_le_iff.mp late
  change 0 ≤ block.getMaxTransactionTime at nonneg
  change _ ≤ block.getMaxTransactionTime at above
  have first : ((UInt32.ofInt (max (getMedianTimePast (pindexPrev :: pprev) + 1)
      block.getMaxTransactionTime)).toNat : Int) = block.getMaxTransactionTime := by
    rw [max_eq_right (by omega)]
    exact toNat_ofInt_of_lt nonneg (by omega)
  rw [blockTimeOn, first, max_eq_left (by omega)]
  exact toNat_ofInt_of_lt nonneg (by omega)

end Times

section Signing

variable {CKey : Type} {env : Env} {hashes : KernelHash} {wallet : CWallet CKey} {s : Node}
  {nLastCoinStakeSearchTime : Int} {nFees : Int64} {template block : CBlock}

/-- What a template has in front and behind: an empty coinbase output, and neither coinbases
nor coinstakes. -/
structure IsTemplate (template : CBlock) (coinbase : CTransaction) (vtx : List CTransaction) : Prop where
  shape : template.vtx = coinbase :: vtx
  ordinary : ∀ tx ∈ vtx, tx.isCoinBase = false ∧ tx.isCoinStake = false

/-- The coinstake that `SignBlock` has the wallet make. -/
def coinStakeFor (env : Env) (hashes : KernelHash) (wallet : CWallet CKey) (s : Node)
    (nLastCoinStakeSearchTime : Int) (nFees : Int64) (template : CBlock) : Option (CTransaction × CKey) :=
  createCoinStake env hashes wallet s template.nBits (UInt32.ofInt s.nAdjustedTime)
    ((UInt32.ofInt s.nAdjustedTime).toNat - nLastCoinStakeSearchTime) nFees

/-- A block that `SignBlock` returns has the coinstake of the wallet and everything that the
template has, and its time is that of its latest transaction. -/
theorem signBlock_cases {coinbase : CTransaction} {vtx : List CTransaction}
    (isTemplate : IsTemplate template coinbase vtx)
    (signed : signBlock env hashes wallet s nLastCoinStakeSearchTime nFees template = some block) :
    ∃ coinstake key, coinStakeFor env hashes wallet s nLastCoinStakeSearchTime nFees template =
        some (coinstake, key) ∧
      block.vtx = { coinbase with nTime := coinstake.nTime } :: coinstake :: vtx ∧
      block.getBlockTime =
        vtx.foldl (fun latest tx => max latest (tx.nTime.toNat : Int)) coinstake.nTime.toNat := by
  have notStake : template.isProofOfStake = false := by
    simp only [CBlock.isProofOfStake, isTemplate.shape]
    cases vtx with
    | nil => rfl
    | cons first rest => exact (isTemplate.ordinary first List.mem_cons_self).2
  cases best : s.pindexBest with
  | nil => simp [signBlock, isTemplate.shape, best] at signed
  | cons pindexBest pprev =>
      simp only [signBlock, isTemplate.shape, best, notStake, Bool.false_eq_true, if_false] at signed
      split at signed
      · cases signed
      split at signed
      · cases signed
      split at signed
      · cases signed
      rename_i coinstake key made
      split at signed
      · cases signed
      rename_i late
      have inBlock : ({ coinbase with nTime := coinstake.nTime } : CTransaction) ∈
          ({ template with vtx := { coinbase with nTime := coinstake.nTime } :: vtx } : CBlock).vtx :=
        List.mem_cons_self
      have time := blockTimeOn_eq inBlock (not_lt.mp late)
      have latest : ({ template with vtx := { coinbase with nTime := coinstake.nTime } :: vtx } :
          CBlock).getMaxTransactionTime =
          vtx.foldl (fun latest tx => max latest (tx.nTime.toNat : Int)) coinstake.nTime.toNat := by
        simp only [CBlock.getMaxTransactionTime, List.foldl_cons]
        rw [max_eq_right (by omega)]
      replace time := time.trans latest
      obtain ⟨atLeast, each⟩ := le_foldl_max vtx (coinstake.nTime.toNat : Int)
      -- The filter comes after the maximum and keeps everything.
      have kept : (({ coinbase with nTime := coinstake.nTime } : CTransaction) :: vtx).filter (fun tx =>
          decide (tx.nTime ≤ blockTimeOn pindexBest pprev ({ template with
            vtx := { coinbase with nTime := coinstake.nTime } :: vtx } : CBlock).getMaxTransactionTime)) =
          { coinbase with nTime := coinstake.nTime } :: vtx := by
        rw [List.filter_eq_self]
        intro tx member
        rw [decide_eq_true_eq, UInt32.le_iff_toNat_le]
        rcases List.mem_cons.mp member with rfl | later
        · dsimp only at time ⊢
          omega
        · have := each tx later
          omega
      rw [kept] at signed
      obtain ⟨vchBlockSig, -, rfl⟩ := Option.map_eq_some_iff.mp signed
      exact ⟨coinstake, key, made, rfl, time⟩

end Signing

section SigOps

/-- A script that only pushes up to 75 bytes has no signature operations. -/
theorem sigOps_push {bytes : List UInt8} (short : bytes.length < 76) :
    CScript.getSigOpCount false (UInt8.ofNat bytes.length :: bytes) = 0 := by
  have size : (UInt8.ofNat bytes.length).toNat = bytes.length := by
    rw [UInt8.toNat_ofNat']
    omega
  have small : UInt8.ofNat bytes.length ≤ CScript.opPushData4 := by
    rw [UInt8.le_iff_toNat_le, size]
    change bytes.length ≤ 78
    omega
  have other : ∀ opcode : UInt8, 76 ≤ opcode.toNat → UInt8.ofNat bytes.length ≠ opcode := by
    intro opcode large same
    rw [← same, size] at large
    omega
  have width : CScript.pushWidth (UInt8.ofNat bytes.length) = 0 := by
    rw [CScript.pushWidth, if_neg (other _ (by decide)), if_neg (other _ (by decide)),
      if_neg (other _ (by decide))]
  have read : CScript.getOp (UInt8.ofNat bytes.length :: bytes) = some (UInt8.ofNat bytes.length, bytes, []) := by
    simp [CScript.getOp, small, width, size]
  have none : CScript.sigOpsOf false CScript.opInvalidOpcode (UInt8.ofNat bytes.length) = 0 := by
    rw [CScript.sigOpsOf, if_neg, if_neg]
    · exact not_or.mpr ⟨other _ (by decide), other _ (by decide)⟩
    · exact not_or.mpr ⟨other _ (by decide), other _ (by decide)⟩
  rw [CScript.getSigOpCount, List.length_cons, CScript.sigOpLoop, read]
  dsimp only
  rw [none, Nat.zero_add]
  cases bytes.length with
  | zero => rfl
  | succ fuel => rfl

theorem sigOps_heightScript (nHeight : Int32) : CScript.getSigOpCount false (heightScript nHeight) = 0 := by
  rw [heightScript, CScript.pushInt64]
  split
  · rename_i small
    have value : nHeight.toInt64.toInt = -1 ∨ (1 ≤ nHeight.toInt64.toInt ∧ nHeight.toInt64.toInt ≤ 16) := by
      refine small.imp (fun minus => ?_) fun range => ?_
      · rw [minus]
        rfl
      · exact ⟨Int64.le_iff_toInt_le.mp range.1, Int64.le_iff_toInt_le.mp range.2⟩
    generalize nHeight.toInt64.toInt = n at value
    rcases value with rfl | ⟨lower, upper⟩
    · rfl
    · interval_cases n <;> rfl
  · have short : (CBigNum.getvch nHeight.toInt64.toInt).length < 76 := by
      have bound : CBigNum.mpiSize (2 ^ 31) = 5 := by decide +kernel
      rw [Int32.toInt_toInt64, CBigNum.getvch_length]
      have mono : CBigNum.mpiSize nHeight.toInt.natAbs ≤ CBigNum.mpiSize (2 ^ 31) := by
        have above := nHeight.toInt_lt
        have below := nHeight.le_toInt
        exact CBigNum.mpiSize_mono (by omega)
      omega
    rw [CScript.pushData, if_pos short]
    exact sigOps_push short

end SigOps

/-- Fetched transactions have the ids they were fetched for, and come from a set. -/
def Genuine (env : Env) (U : Set CTransaction) (inputs : MapPrevTx) : Prop :=
  ∀ hash prev, inputs hash = some prev → env.txHash prev.2 = hash ∧ prev.2 ∈ U

/-- What can be read for an entry of the index has the id of the entry. -/
def ReadsBack (env : Env) (U : Set CTransaction) (s : Node) (index : TxIndexMap) : Prop :=
  ∀ hash txindex tx, index hash = some txindex → readTxAt s hash txindex.pos = some tx →
    env.txHash tx = hash ∧ tx ∈ U

section Reading

variable {env : Env} {U : Set CTransaction} {s : Node} {index : TxIndexMap}

theorem ReadsBack.genuine {tx : CTransaction} {queued : QueuedChanges} {inputs : MapPrevTx}
    (reads : ReadsBack env U s (overlay queued s.txdb.txIndex))
    (fetched : tx.fetchInputs s s.txdb queued true false = .ok inputs) : Genuine env U inputs := by
  intro hash prev found
  obtain ⟨entry, stored⟩ := CTransaction.fetchInputs_located fetched hash prev found
  exact reads hash prev.1 prev.2 entry stored

theorem ReadsBack.applyTx {tx : CTransaction} {pos : CDiskTxPos} (reads : ReadsBack env U s index)
    (own : ∀ other, readTxAt s (env.txHash tx) pos = some other → env.txHash other = env.txHash tx ∧ other ∈ U) :
    ReadsBack env U s (Ledger.applyTx env index tx pos) := by
  intro hash txindex other found stored
  by_cases same : hash = env.txHash tx
  · subst same
    rw [Ledger.applyTx, Function.update_self, Option.some.injEq] at found
    rw [← found] at stored
    exact own other stored
  rw [Ledger.applyTx, Function.update_of_ne same] at found
  split at found
  · exact reads hash txindex other found stored
  -- A spent entry keeps its position.
  have shape := setSlots_shape index tx.vin pos hash
  rw [found, Option.map_some] at shape
  obtain ⟨before, present, fields⟩ := Option.map_eq_some_iff.mp shape.symm
  have place : before.pos = txindex.pos := congrArg Prod.fst fields
  exact reads hash before other present (place ▸ stored)

/-- With one transaction for each id, an input value does not depend on where it is read. -/
theorem addValueIn_unique (collisionFree : Set.InjOn env.txHash U) {first second : MapPrevTx}
    (genuineFirst : Genuine env U first) (genuineSecond : Genuine env U second) {vin : List CTxIn}
    {start valueFirst valueSecond : Int64} (sumFirst : CTransaction.addValueIn first start vin = some valueFirst)
    (sumSecond : CTransaction.addValueIn second start vin = some valueSecond) : valueFirst = valueSecond := by
  induction vin generalizing start with
  | nil =>
      simp only [CTransaction.addValueIn, Option.some.injEq] at sumFirst sumSecond
      exact sumFirst.symm.trans sumSecond
  | cons txin rest ih =>
      simp only [CTransaction.addValueIn, CTransaction.getOutputFor] at sumFirst sumSecond
      cases foundFirst : first txin.prevout.hash with
      | none => simp [foundFirst] at sumFirst
      | some prev =>
          cases foundSecond : second txin.prevout.hash with
          | none => simp [foundSecond] at sumSecond
          | some other =>
              obtain ⟨hashFirst, inFirst⟩ := genuineFirst _ _ foundFirst
              obtain ⟨hashSecond, inSecond⟩ := genuineSecond _ _ foundSecond
              have same := collisionFree inFirst inSecond (hashFirst.trans hashSecond.symm)
              simp only [foundFirst, same] at sumFirst
              simp only [foundSecond] at sumSecond
              split at sumFirst
              · cases sumFirst
              · rename_i txout output
                simp only [output] at sumSecond
                exact ih sumFirst sumSecond

end Reading

/-- A sum of fees, from a start value on: of each transaction what its inputs have more than
its outputs. -/
def PaidFees (env : Env) (U : Set CTransaction) : List CTransaction → Int64 → Int64 → Prop
  | [], start, total => start = total
  | tx :: rest, start, total =>
      ∃ inputs nTxValueIn nTxValueOut, Genuine env U inputs ∧ tx.getValueIn inputs = some nTxValueIn ∧
        tx.getValueOut = some nTxValueOut ∧ PaidFees env U rest (start + (nTxValueIn - nTxValueOut)) total

section Fees

variable {env : Env} {U : Set CTransaction} {vtx : List CTransaction} {start total : Int64}

theorem PaidFees.unique (collisionFree : Set.InjOn env.txHash U) {other : Int64}
    (paid : PaidFees env U vtx start total) (paidOther : PaidFees env U vtx start other) : total = other := by
  induction vtx generalizing start with
  | nil => exact paid.symm.trans paidOther
  | cons tx rest ih =>
      obtain ⟨inputs, valueIn, valueOut, genuine, sumIn, sumOut, later⟩ := paid
      obtain ⟨inputsOther, valueInOther, valueOutOther, genuineOther, sumInOther, sumOutOther, laterOther⟩ :=
        paidOther
      have sameIn : valueIn = valueInOther := by
        simp only [CTransaction.getValueIn] at sumIn sumInOther
        split at sumIn
        · rename_i base
          rw [if_pos base] at sumInOther
          exact Option.some.inj (sumIn.symm.trans sumInOther)
        · rename_i ordinary
          rw [if_neg ordinary] at sumInOther
          exact addValueIn_unique collisionFree genuine genuineOther sumIn sumInOther
      have sameOut : valueOut = valueOutOther := Option.some.inj (sumOut.symm.trans sumOutOther)
      subst sameIn sameOut
      exact ih later laterOther

theorem PaidFees.snoc (paid : PaidFees env U vtx start total) {tx : CTransaction} {inputs : MapPrevTx}
    {nTxValueIn nTxValueOut : Int64} (genuine : Genuine env U inputs)
    (valueIn : tx.getValueIn inputs = some nTxValueIn) (valueOut : tx.getValueOut = some nTxValueOut) :
    PaidFees env U (vtx ++ [tx]) start (total + (nTxValueIn - nTxValueOut)) := by
  induction vtx generalizing start with
  | nil =>
      rw [PaidFees] at paid
      exact ⟨inputs, nTxValueIn, nTxValueOut, genuine, valueIn, valueOut, by rw [PaidFees, paid]⟩
  | cons first rest ih =>
      obtain ⟨others, firstIn, firstOut, genuineFirst, sumIn, sumOut, later⟩ := paid
      exact ⟨others, firstIn, firstOut, genuineFirst, sumIn, sumOut, ih later⟩

end Fees

/-- The state in which the miner reads the database. -/
def Node.reading (s : Node) : Node := s.withTxdb s.txdb.fresh

namespace CTransaction

variable {env : Env} {s : Node} {tx : CTransaction} {queued after : QueuedChanges}

/-- `FetchInputs` reads the same for the miner as for a block. -/
theorem fetchInputs_miner (s : Node) (queued : QueuedChanges) (tx : CTransaction) :
    tx.fetchInputs s s.txdb.fresh queued false true = tx.fetchInputs s.reading s.reading.txdb queued true false := by
  have loop : ∀ vin inputs, fetchLoop s s.txdb.fresh queued false true vin inputs =
      fetchLoop s.reading s.reading.txdb queued true false vin inputs := by
    intro vin
    induction vin with
    | nil => intro inputs; rfl
    | cons txin rest ih =>
        intro inputs
        have one : fetchPrev s s.txdb.fresh queued false true txin.prevout.hash =
            fetchPrev s.reading s.reading.txdb queued true false txin.prevout.hash := rfl
        simp only [fetchLoop, one, ih]
  simp only [fetchInputs, loop]

/-- What the miner may spend a block may spend; for a block fewer signatures are checked. -/
theorem spendInputs_miner {nBestHeight : Int} {pos : CDiskTxPos} {i : Nat} {vin : List CTxIn} {inputs : MapPrevTx}
    (spent : spendInputs env nBestHeight tx pos false true i vin inputs queued = some after) :
    spendInputs env nBestHeight tx pos true false i vin inputs queued = some after := by
  induction vin generalizing i inputs queued with
  | nil => exact spent
  | cons txin rest ih =>
      simp only [spendInputs] at spent ⊢
      split at spent
      · cases spent
      split at spent
      · cases spent
      split at spent
      · cases spent
      split at spent
      · cases spent
      rename_i unspent verified
      simp only [Bool.false_and, Bool.not_false, Bool.true_and, Bool.not_eq_true', Bool.not_eq_false] at verified
      rw [if_neg unspent, if_neg (by simp [verified])]
      exact ih spent

theorem connectInputs_miner {nBestHeight : Int} {pos : CDiskTxPos} {pindexBlock : BlockPtr} {inputs : MapPrevTx}
    (connected : tx.connectInputs env nBestHeight inputs queued pos pindexBlock false true = some after) :
    tx.connectInputs env nBestHeight inputs queued pos pindexBlock true false = some after := by
  simp only [connectInputs] at connected ⊢
  split
  · rename_i base
    rwa [if_pos base] at connected
  · rename_i ordinary
    rw [if_neg ordinary] at connected
    split at connected
    · cases connected
    split at connected
    · cases connected
    · rename_i spent
      rw [spendInputs_miner spent]
      exact connected

end CTransaction

/-- Neither a coinbase nor a coinstake. -/
def Loose (tx : CTransaction) : Prop := tx.isCoinBase = false ∧ tx.isCoinStake = false

/-- What holds in every round of the loop of `CreateNewBlock`. -/
structure TemplateInvariant (env : Env) (U : Set CTransaction) (s : Node) (st : TemplateState) : Prop where
  loose : ∀ tx ∈ st.vtx, Loose tx
  queued : ∀ tx ∈ st.vecPriority, Loose tx
  waiting : ∀ orphan ∈ st.vOrphan, Loose orphan.ptx
  counted : (st.vtx.map CTransaction.getLegacySigOpCount).sum + 100 ≤ st.nBlockSigOps
  limited : st.nBlockSigOps ≤ maxBlockSigOps
  fees : PaidFees env U st.vtx 0 st.nFees
  reads : ReadsBack env U s.reading (overlay st.mapTestPool s.reading.txdb.txIndex)

section Template

variable {env : Env} {options : MinerOptions} {scores : TxScores} {U : Set CTransaction} {s : Node}
  {nCoinBaseTime : UInt32}

/-- The pool has its transactions under their ids. -/
def PoolKeyed (env : Env) (U : Set CTransaction) (s : Node) : Prop :=
  ∀ hash tx, s.mempool.lookup hash = some tx → env.txHash tx = hash ∧ tx ∈ U

theorem TemplateInvariant.add {st : TemplateState} {tx : CTransaction} {mapInputs : MapPrevTx}
    {mapTestPool : QueuedChanges} {nTxValueIn nTxValueOut : Int64} {nTxSigOps : Nat}
    (invariant : TemplateInvariant env U s st) (keyed : PoolKeyed env U s) (loose : Loose tx)
    (fetched : tx.fetchInputs s s.txdb.fresh st.mapTestPool false true = .ok mapInputs)
    (valueIn : tx.getValueIn mapInputs = some nTxValueIn) (valueOut : tx.getValueOut = some nTxValueOut)
    (connected : tx.connectInputs env s.nBestHeight mapInputs st.mapTestPool CDiskTxPos.memoryPool s.pindexBest
      false true = some mapTestPool)
    (counted : tx.getLegacySigOpCount ≤ nTxSigOps) (limited : st.nBlockSigOps + nTxSigOps < maxBlockSigOps) :
    TemplateInvariant env U s (addToTemplate env st tx mapTestPool nTxSigOps (nTxValueIn - nTxValueOut)) := by
  rw [CTransaction.fetchInputs_miner] at fetched
  have genuine := invariant.reads.genuine fetched
  obtain ⟨-, written⟩ := CTransaction.connectInputs_spec (CTransaction.connectInputs_miner connected) loose.1
    (CTransaction.fetchInputs_fetched fetched)
  refine ⟨?_, ?_, ?_, ?_, limited.le, invariant.fees.snoc genuine valueIn valueOut, ?_⟩
  · intro other member
    rcases List.mem_append.mp member with old | new
    · exact invariant.loose other old
    · exact List.mem_singleton.mp new ▸ loose
  · intro other member
    rcases List.mem_append.mp member with old | released
    · exact invariant.queued other old
    · obtain ⟨orphan, inFiltered, rfl⟩ := List.mem_map.mp released
      obtain ⟨before, inOrphans, rfl⟩ := List.mem_map.mp (List.mem_of_mem_filter inFiltered)
      exact invariant.waiting before inOrphans
  · intro orphan member
    obtain ⟨before, inOrphans, rfl⟩ := List.mem_map.mp (List.mem_of_mem_filter member)
    exact invariant.waiting before inOrphans
  · have before := invariant.counted
    simp only [addToTemplate, List.map_append, List.sum_append, List.map_cons, List.map_nil, List.sum_cons,
      List.sum_nil]
    omega
  · have own : ∀ other, readTxAt s.reading (env.txHash tx) CDiskTxPos.memoryPool = some other →
        env.txHash other = env.txHash tx ∧ other ∈ U := by
      intro other stored
      rw [readTxAt, if_pos rfl] at stored
      exact keyed _ _ stored
    have step := invariant.reads.applyTx own
    rw [Ledger.applyTx, loose.1, if_neg Bool.false_ne_true, ← written, ← overlay_insert] at step
    exact step

/-- A round of the loop takes the transaction, or changes the sort order at most. -/
theorem considerTx_cases {st next : TemplateState} {tx : CTransaction}
    (round : considerTx env options scores s nCoinBaseTime st tx = some next) :
    ∃ fSortedByFee, next = { st with fSortedByFee := fSortedByFee } ∨
      ∃ mapInputs nTxValueIn nTxValueOut mapTestPool,
        st.nBlockSize + tx.getSerializeSize < options.nBlockMaxSize ∧
        tx.fetchInputs s s.txdb.fresh st.mapTestPool false true = .ok mapInputs ∧
        tx.getValueIn mapInputs = some nTxValueIn ∧ tx.getValueOut = some nTxValueOut ∧
        st.nBlockSigOps + (tx.getLegacySigOpCount + tx.getP2SHSigOpCount mapInputs) < maxBlockSigOps ∧
        tx.connectInputs env s.nBestHeight mapInputs st.mapTestPool CDiskTxPos.memoryPool s.pindexBest false true =
          some mapTestPool ∧
        next = addToTemplate env { st with fSortedByFee := fSortedByFee } tx mapTestPool
          (tx.getLegacySigOpCount + tx.getP2SHSigOpCount mapInputs) (nTxValueIn - nTxValueOut) := by
  simp only [considerTx] at round
  split at round
  · exact ⟨st.fSortedByFee, .inl (Option.some.inj round).symm⟩
  rename_i room
  split at round
  · exact ⟨st.fSortedByFee, .inl (Option.some.inj round).symm⟩
  split at round
  · exact ⟨st.fSortedByFee, .inl (Option.some.inj round).symm⟩
  split at round
  · exact ⟨st.fSortedByFee, .inl (Option.some.inj round).symm⟩
  -- Only the sort order changes before the inputs are looked at.
  refine ⟨st.fSortedByFee || options.nBlockPrioritySize ≤ st.nBlockSize + tx.getSerializeSize ||
    scores.lowPriority tx, ?_⟩
  split at round
  · exact .inl (Option.some.inj round).symm
  rename_i mapInputs fetched
  split at round
  · rename_i nTxValueIn nTxValueOut valueIn valueOut
    split at round
    · exact .inl (Option.some.inj round).symm
    split at round
    · exact .inl (Option.some.inj round).symm
    rename_i limited
    split at round
    · exact .inl (Option.some.inj round).symm
    · rename_i mapTestPool connected
      exact .inr ⟨mapInputs, nTxValueIn, nTxValueOut, mapTestPool, not_le.mp room, fetched, valueIn, valueOut,
        not_le.mp limited, connected, (Option.some.inj round).symm⟩
  · cases round

theorem TemplateInvariant.consider {st next : TemplateState} {tx : CTransaction}
    (invariant : TemplateInvariant env U s st) (keyed : PoolKeyed env U s) (loose : Loose tx)
    (round : considerTx env options scores s nCoinBaseTime st tx = some next) :
    TemplateInvariant env U s next := by
  have sorted : ∀ fSortedByFee, TemplateInvariant env U s { st with fSortedByFee := fSortedByFee } := fun _ =>
    ⟨invariant.loose, invariant.queued, invariant.waiting, invariant.counted, invariant.limited, invariant.fees,
      invariant.reads⟩
  obtain ⟨fSortedByFee, rfl | ⟨mapInputs, nTxValueIn, nTxValueOut, mapTestPool, -, fetched, valueIn, valueOut, limited,
    connected, rfl⟩⟩ := considerTx_cases round
  · exact sorted _
  · exact (sorted _).add keyed loose fetched valueIn valueOut connected (Nat.le_add_right _ _) limited

theorem TemplateInvariant.collect {fuel : Nat} {st final : TemplateState}
    (invariant : TemplateInvariant env U s st) (keyed : PoolKeyed env U s)
    (collected : collectTxs env options scores s nCoinBaseTime fuel st = some final) :
    TemplateInvariant env U s final := by
  induction fuel generalizing st with
  | zero =>
      cases collected
      exact invariant
  | succ fuel ih =>
      simp only [collectTxs] at collected
      split at collected
      · cases collected
        exact invariant
      rename_i first others queue
      split at collected
      · cases collected
      rename_i next round
      refine ih (TemplateInvariant.consider ?_ keyed ?_ round) collected
      · refine ⟨invariant.loose, ?_, invariant.waiting, invariant.counted, invariant.limited, invariant.fees,
          invariant.reads⟩
        intro tx member
        exact invariant.queued tx (queue ▸ List.mem_of_mem_eraseIdx member)
      · refine invariant.queued _ ?_
        have inside : scores.front st.fSortedByFee (first :: others) % (others.length + 1) <
            (first :: others).length := Nat.mod_lt _ (Nat.succ_pos _)
        rw [queue, List.getD_eq_getElem?_getD, List.getElem?_eq_getElem inside]
        exact List.getElem_mem _

end Template

/-- What `CreateNewBlock` returns: a coinbase without signature operations, loose transactions
with room for a hundred more, and the fees they pay. -/
structure Template (env : Env) (U : Set CTransaction) (template : CBlock) (nFees : Int64) (coinbase : CTransaction)
    (vtx : List CTransaction) : Prop where
  isTemplate : IsTemplate template coinbase vtx
  base : coinbase.isCoinBase = true
  noSigOps : coinbase.getLegacySigOpCount = 0
  sigOps : (vtx.map CTransaction.getLegacySigOpCount).sum + 100 ≤ maxBlockSigOps
  fees : PaidFees env U vtx 0 nFees

section Creating

variable {env : Env} {options : MinerOptions} {scores : TxScores} {U : Set CTransaction} {s : Node}

theorem loose_of_candidate {nHeight : Int} {orphan : COrphan} (member : orphan ∈ poolCandidates s nHeight) :
    Loose orphan.ptx := by
  obtain ⟨tx, -, found⟩ := List.mem_filterMap.mp member
  split at found
  · cases found
  · rename_i passes
    obtain ⟨hashes, -, rfl⟩ := Option.map_eq_some_iff.mp found
    simp only [Bool.or_eq_true, not_or, Bool.not_eq_true] at passes
    exact passes.1

theorem createNewBlock_spec {template : CBlock} {nFees : Int64} (keyed : PoolKeyed env U s)
    (reads : ReadsBack env U s.reading s.reading.txdb.txIndex)
    (created : createNewBlock env options scores s = some (template, nFees)) :
    ∃ coinbase vtx, Template env U template nFees coinbase vtx := by
  simp only [createNewBlock] at created
  split at created
  · cases created
  rename_i pindexPrev pprev best
  split at created
  · cases created
  rename_i st collected
  cases created
  have invariant := TemplateInvariant.collect (U := U) ?_ keyed collected
  · refine ⟨stakeCoinBase s (pindexPrev.nHeight + 1), st.vtx, ⟨rfl, invariant.loose⟩, rfl, ?_, ?_, invariant.fees⟩
    · have height := sigOps_heightScript (Int32.ofInt (pindexPrev.nHeight + 1))
      simp only [CTransaction.getLegacySigOpCount, stakeCoinBase, List.map_cons, List.map_nil, List.sum_cons,
        List.sum_nil, height]
      rfl
    · exact invariant.counted.trans invariant.limited
  · refine ⟨?_, ?_, ?_, le_rfl, (by change 100 ≤ maxBlockSigOps; decide), rfl, ?_⟩
    · intro tx member
      cases member
    · intro tx member
      obtain ⟨orphan, inFiltered, rfl⟩ := List.mem_map.mp member
      exact loose_of_candidate (List.mem_of_mem_filter inFiltered)
    · intro orphan member
      exact loose_of_candidate (List.mem_of_mem_filter member)
    · rw [overlay_empty]
      exact reads

end Creating

end InfiniteRicks
