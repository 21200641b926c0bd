import InfiniteRicks.CreateTransaction
import InfiniteRicks.SelectCoinsSpec
import Mathlib.Data.List.InsertIdx

/-!
# What a payment comes to

Every pass of the loop of `CreateTransaction` that does not end it raises the fee to one of the
hundred values that a transaction of standard size can need, so the loop ends. A payment that
is made balances as long as the amounts of its last pass stay in range.
-/

namespace InfiniteRicks

open Library.Flagged

namespace Payer

variable {p : Payer} {coinControl : Option CCoinControl}

/-- What holds of a wallet: its transactions are stored under their hashes, and neither the
least value of an input nor the fee rate is negative. -/
structure Valid (p : Payer) : Prop where
  keyed : ∀ hash t, p.wallet.mapWallet.lookup hash = some t → p.env.txHash t.wtx.tx = hash
  nMinimumInputValue : 0 ≤ p.keys.nMinimumInputValue.toInt
  nTransactionFee : 0 ≤ p.nTransactionFee.toInt

/-- An output of the wallet that may be spent. -/
structure Spendable (p : Payer) (coinControl : Option CCoinControl) (coin : Coin) : Prop where
  stored : p.wallet.mapWallet.lookup coin.hash = some coin.tx
  final : p.view.isFinalTx coin.tx.wtx.tx = true
  trusted : p.wallet.isTrusted p.env p.view p.keys p.fConfChange p.fuel coin.tx = some true
  mature : coin.tx.wtx.tx.isCoinBase = true ∨ coin.tx.wtx.tx.isCoinStake = true →
    p.view.getBlocksToMaturity coin.tx.wtx ≤ 0
  depth : 0 ≤ p.view.getDepthInMainChain coin.tx.wtx
  unspent : coin.tx.wtx.isSpent coin.i.toNat = false
  mine : p.keys.isMine coin.txout.scriptPubKey = true
  enough : p.keys.nMinimumInputValue ≤ coin.nValue
  selected : ∀ control ∈ coinControl, control.hasSelected = true → control.isSelected coin.hash coin.i = true

section Available

/-- The coins of a transaction are distinct outputs of it. -/
theorem coinsOf_keys (hash : UInt256) (t : AccountTx) :
    ((coinsOf hash t).map Coin.key).Nodup ∧ ∀ coin ∈ coinsOf hash t, coin.hash = hash ∧ coin.tx = t := by
  constructor
  · rw [coinsOf, List.map_filterMap]
    refine (List.nodup_finRange _).filterMap ?_
    intro first second key firstKey secondKey
    obtain ⟨coin, found, rfl⟩ := Option.map_eq_some_iff.mp firstKey
    obtain ⟨other, otherFound, same⟩ := Option.map_eq_some_iff.mp secondKey
    split at found
    · rename_i firstSmall
      split at otherFound
      · rename_i secondSmall
        rw [Option.some.injEq] at found otherFound
        subst found otherFound
        have index := congrArg (fun key : UInt256 × UInt32 => key.2.toNat) same
        simp only [Coin.key, UInt32.toNat_ofNat_of_lt' firstSmall, UInt32.toNat_ofNat_of_lt' secondSmall] at index
        exact Fin.ext index.symm
      · cases otherFound
    · cases found
  · intro coin member
    rw [coinsOf, List.mem_filterMap] at member
    obtain ⟨i, -, found⟩ := member
    split at found
    · rw [Option.some.injEq] at found
      subst found
      exact ⟨rfl, rfl⟩
    · cases found

/-- The coins that one transaction has to offer may be spent. -/
theorem availableOf_spendable {hash : UInt256} {t : AccountTx} {outputs : List COutput}
    (stored : p.wallet.mapWallet.lookup hash = some t)
    (listed : p.availableOf true coinControl hash t = some outputs) :
    (∀ output ∈ outputs, p.Spendable coinControl output.coin ∧ output.coin.hash = hash) ∧
      ((outputs.map COutput.coin).map Coin.key).Nodup := by
  simp only [availableOf] at listed
  split at listed
  · cases listed
    simp
  rename_i final
  simp only [if_true] at listed
  obtain ⟨trusted, isTrusted, listed⟩ := Option.bind_eq_some_iff.mp listed
  split at listed
  · cases listed
    simp
  rename_i trustedTrue
  split at listed
  · cases listed
    simp
  rename_i base
  split at listed
  · cases listed
    simp
  rename_i stake
  split at listed
  · cases listed
    simp
  rename_i deep
  rw [Option.some.injEq] at listed
  subst listed
  constructor
  · intro output member
    obtain ⟨coin, available, rfl⟩ := List.mem_map.mp member
    obtain ⟨ofTx, passes⟩ := List.mem_filter.mp available
    obtain ⟨rfl, rfl⟩ := (coinsOf_keys hash t).2 coin ofTx
    simp only [isAvailable, Bool.and_eq_true, Bool.not_eq_true', decide_eq_true_eq] at passes
    obtain ⟨⟨⟨unspent, mine⟩, enough⟩, selected⟩ := passes
    refine ⟨⟨stored, by simpa using final, by simpa [trustedTrue] using isTrusted, ?_, Int.not_lt.mp deep,
      unspent, mine, enough, ?_⟩, rfl⟩
    · rintro (isBase | isStake)
      · exact Int.not_lt.mp fun young => base ⟨isBase, young⟩
      · exact Int.not_lt.mp fun young => stake ⟨isStake, young⟩
    · intro control given some
      cases given
      simpa [some] using selected
  · rw [List.map_map, List.map_map]
    exact (coinsOf_keys hash t).1.sublist (List.filter_sublist.map Coin.key)

/-- So do the transactions of a part of the wallet. -/
theorem flatten_spendable {entries : List (Sigma fun _ : UInt256 => AccountTx)} {lists : List (List COutput)}
    (each : (entries.mapM fun entry => p.availableOf true coinControl entry.1 entry.2) = some lists)
    (stored : ∀ entry ∈ entries, p.wallet.mapWallet.lookup entry.1 = some entry.2)
    (keys : (entries.map Sigma.fst).Nodup) :
    (∀ output ∈ lists.flatten, p.Spendable coinControl output.coin ∧
      output.coin.hash ∈ entries.map Sigma.fst) ∧
    ((lists.flatten.map COutput.coin).map Coin.key).Nodup := by
  induction entries generalizing lists with
  | nil =>
      rw [List.mapM_nil] at each
      cases each
      exact ⟨by simp, List.nodup_nil⟩
  | cons entry rest ih =>
      rw [List.mapM_cons] at each
      obtain ⟨outputs, own, each⟩ := Option.bind_eq_some_iff.mp each
      obtain ⟨others, later, each⟩ := Option.bind_eq_some_iff.mp each
      cases each
      rw [List.forall_mem_cons] at stored
      rw [List.map_cons, List.nodup_cons] at keys
      obtain ⟨ownSpendable, ownKeys⟩ := availableOf_spendable stored.1 own
      obtain ⟨laterSpendable, laterKeys⟩ := ih later stored.2 keys.2
      constructor
      · intro output member
        rw [List.flatten_cons, List.mem_append] at member
        rcases member with here | further
        · obtain ⟨spendable, hash⟩ := ownSpendable output here
          exact ⟨spendable, by simp [hash]⟩
        · obtain ⟨spendable, hash⟩ := laterSpendable output further
          exact ⟨spendable, List.mem_cons_of_mem _ hash⟩
      · rw [List.flatten_cons, List.map_append, List.map_append]
        refine ownKeys.append laterKeys ?_
        -- Coins of different transactions have different keys.
        intro key first second
        obtain ⟨coin, inOwn, rfl⟩ := List.mem_map.mp first
        obtain ⟨output, here, rfl⟩ := List.mem_map.mp inOwn
        obtain ⟨other, inLater, same⟩ := List.mem_map.mp second
        obtain ⟨otherOutput, further, rfl⟩ := List.mem_map.mp inLater
        have hash := (laterSpendable otherOutput further).2
        rw [show otherOutput.coin.hash = output.coin.hash from congrArg Prod.fst same,
          (ownSpendable output here).2] at hash
        exact keys.1 hash

/-- `AvailableCoins` lists distinct outputs of the wallet that may be spent. -/
theorem availableCoins_spendable {vCoins : List COutput}
    (listed : p.availableCoins true coinControl = some vCoins) :
    (∀ output ∈ vCoins, p.Spendable coinControl output.coin) ∧
      ((vCoins.map COutput.coin).map Coin.key).Nodup := by
  obtain ⟨lists, each, rfl⟩ := Option.map_eq_some_iff.mp listed
  obtain ⟨spendable, keys⟩ := flatten_spendable each
    (fun entry member => AList.mem_lookup_iff.mpr member) p.wallet.mapWallet.nodupKeys
  exact ⟨fun output member => (spendable output member).1, keys⟩

end Available

/-- `IsFromMe` of a coin where it does not throw. -/
def fromMe (p : Payer) (coin : Coin) : Bool := (p.isFromMe coin).getD false

/-- Whichever of the rules come to be tried, no selection by them falls short. A rule comes to
be tried where the ones before are hopeless. -/
def RulesInRange (p : Payer) (nTargetValue : Int64) (nSpendTime : UInt32) (vCoins : List COutput) :
    List (Int × Int) → Prop
  | [] => True
  | (nConfMine, nConfTheirs) :: rest =>
      NeverShort (eligibleCoins p.fromMe nSpendTime nConfMine nConfTheirs vCoins) nTargetValue ∧
        (Hopeless (eligibleCoins p.fromMe nSpendTime nConfMine nConfTheirs vCoins) nTargetValue →
          RulesInRange p nTargetValue nSpendTime vCoins rest)

/-- The depths that `SelectCoins` tries to ask for. -/
def depthRules : List (Int × Int) := [(1, 10), (1, 1), (0, 1)]

/-- The amounts of a pass stay in range: the target does, and so do the coins that the user has
selected, or those that the rules let come into question. -/
structure PassInRange (p : Payer) (vecSend : List (CScript × Int64)) (nSpendTime : UInt32)
    (coinControl : Option CCoinControl) (nFeeRet : Int64) : Prop where
  target : (vecSend.map fun s => s.2.toInt).sum + nFeeRet.toInt ≤ maxMoney.toInt
  selected : ∀ vCoins, p.availableCoins true coinControl = some vCoins →
    coinControl.any CCoinControl.hasSelected = true → coinSum (vCoins.map COutput.coin) ≤ maxMoney.toInt
  rules : ∀ vCoins, p.availableCoins true coinControl = some vCoins →
    coinControl.any CCoinControl.hasSelected = false →
    p.RulesInRange (Int64.ofInt ((vecSend.map fun s => s.2.toInt).sum + nFeeRet.toInt)) nSpendTime vCoins depthRules

section Selecting

variable {nTargetValue : Int64} {nSpendTime : UInt32} {vCoins : List COutput}

/-- A scan that does not throw is the same where `IsFromMe` never does. -/
theorem scanCoins_fromMe {nConfMine nConfTheirs : Int} {vValue : List Coin} {nTotalLower : Int64}
    {lowest : Option Coin} {scan : CoinScan}
    (scanned : scanCoins p.isFromMe nTargetValue nSpendTime nConfMine nConfTheirs vCoins vValue nTotalLower lowest =
      some scan) :
    scanCoins (fun coin => some (p.fromMe coin)) nTargetValue nSpendTime nConfMine nConfTheirs vCoins vValue
      nTotalLower lowest = some scan := by
  induction vCoins generalizing vValue nTotalLower lowest with
  | nil => exact scanned
  | cons output rest ih =>
      simp only [scanCoins] at scanned ⊢
      split at scanned
      · cases scanned
      rename_i known
      rw [fromMe, known, Option.getD_some]
      split at scanned
      · rename_i shallow
        rw [if_pos shallow]
        exact ih scanned
      rename_i deep
      rw [if_neg deep]
      split at scanned
      · rename_i late
        rw [if_pos late]
        exact ih scanned
      rename_i early
      rw [if_neg early]
      split at scanned
      · rename_i hit
        rw [if_pos hit]
        exact scanned
      rename_i miss
      rw [if_neg miss]
      split at scanned
      · rename_i lower
        rw [if_pos lower]
        exact ih scanned
      rename_i larger
      rw [if_neg larger]
      split at scanned
      · rename_i lowest
        rw [if_pos lowest]
        exact ih scanned
      · rename_i notLowest
        rw [if_neg notLowest]
        exact ih scanned

theorem selectCoinsMinConf_fromMe {nConfMine nConfTheirs : Int} {rand : CoinRandom}
    {result : Bool × CoinSet × Int64}
    (selected : selectCoinsMinConf p.isFromMe nTargetValue nSpendTime nConfMine nConfTheirs rand vCoins =
      some result) :
    selectCoinsMinConf (fun coin => some (p.fromMe coin)) nTargetValue nSpendTime nConfMine nConfTheirs rand
      vCoins = some result := by
  simp only [selectCoinsMinConf] at selected ⊢
  split at selected
  · cases selected
  · rename_i scanned
    rw [scanCoins_fromMe scanned]
    exact selected
  · rename_i scanned
    rw [scanCoins_fromMe scanned]
    exact selected

theorem rulesInRange_of_forall {rules : List (Int × Int)}
    (never : ∀ rule ∈ rules, NeverShort (eligibleCoins p.fromMe nSpendTime rule.1 rule.2 vCoins) nTargetValue) :
    p.RulesInRange nTargetValue nSpendTime vCoins rules := by
  induction rules with
  | nil => trivial
  | cons rule rest ih =>
      rw [List.forall_mem_cons] at never
      exact ⟨never.1, fun _ => ih never.2⟩

/-- What the calls of `SelectCoinsMinConf` come to where none falls short. -/
theorem trySelections_covers {rules : List (Int × Int × CoinRandom)} {ret : CoinSet × Int64}
    (distinct : ((vCoins.map COutput.coin).map Coin.key).Nodup)
    (nonneg : ∀ output ∈ vCoins, 0 ≤ output.coin.nValue.toInt) (targetNonneg : 0 ≤ nTargetValue.toInt)
    (inRange : p.RulesInRange nTargetValue nSpendTime vCoins (rules.map fun rule => (rule.1, rule.2.1)))
    (selected : p.trySelections nTargetValue nSpendTime vCoins rules = some (true, ret)) :
    Covers (vCoins.map COutput.coin) nTargetValue ret := by
  induction rules with
  | nil => cases selected
  | cons rule rest ih =>
      obtain ⟨nConfMine, nConfTheirs, rand⟩ := rule
      obtain ⟨never, later⟩ := inRange
      obtain ⟨result, run, covers, hopeless⟩ :=
        selectCoinsMinConf_neverShort distinct nonneg targetNonneg never rand
      simp only [trySelections] at selected
      split at selected
      · cases selected
      · rename_i taken call
        rw [selectCoinsMinConf_fromMe call, Option.some.injEq] at run
        cases selected
        subst run
        have own := covers rfl
        exact ⟨own.distinct, fun coin member => eligibleCoins_sublist.subset (own.members coin member), own.total,
          own.reached⟩
      · rename_i call
        rw [selectCoinsMinConf_fromMe call, Option.some.injEq] at run
        subst run
        exact ih (later (hopeless rfl)) selected

/-- `SelectCoins` takes distinct coins that may be spent and reach the target, and tells their
exact sum. -/
theorem selectCoins_covers {vecSend : List (CScript × Int64)} {nFeeRet : Int64} {c : PassChoices}
    {ret : CoinSet × Int64} (valid : p.Valid) (inRange : p.PassInRange vecSend nSpendTime coinControl nFeeRet)
    (targetNonneg : 0 ≤ (vecSend.map fun s => s.2.toInt).sum + nFeeRet.toInt)
    (same : nTargetValue = Int64.ofInt ((vecSend.map fun s => s.2.toInt).sum + nFeeRet.toInt))
    (selected : p.selectCoins c.randoms nTargetValue nSpendTime coinControl = some (true, ret)) :
    (ret.1.map Coin.key).Nodup ∧ (∀ coin ∈ ret.1, p.Spendable coinControl coin) ∧
      ret.2.toInt = coinSum ret.1 ∧
      (vecSend.map fun s => s.2.toInt).sum + nFeeRet.toInt ≤ coinSum ret.1 := by
  have exact : nTargetValue.toInt = (vecSend.map fun s => s.2.toInt).sum + nFeeRet.toInt := by
    rw [same]
    exact toInt_ofInt_eq (by omega) inRange.target
  simp only [selectCoins] at selected
  obtain ⟨vCoins, listed, selected⟩ := Option.bind_eq_some_iff.mp selected
  obtain ⟨spendable, keys⟩ := availableCoins_spendable listed
  have nonneg : ∀ output ∈ vCoins, 0 ≤ output.coin.nValue.toInt := fun output member =>
    valid.nMinimumInputValue.trans (Int64.le_iff_toInt_le.mp (spendable output member).enough)
  have covers : Covers (vCoins.map COutput.coin) nTargetValue ret := by
    cases manual : coinControl.any CCoinControl.hasSelected with
    | true =>
        rw [manual, if_pos rfl, Option.some.injEq, Prod.mk.injEq, decide_eq_true_eq] at selected
        obtain ⟨enough, taken⟩ := selected
        rw [takeCoins_eq keys] at enough taken
        have total : (Int64.ofInt (coinSum (vCoins.map COutput.coin))).toInt =
            coinSum (vCoins.map COutput.coin) := by
          have sumNonneg : 0 ≤ coinSum (vCoins.map COutput.coin) := by
            refine coinSum_nonneg ?_
            intro coin member
            obtain ⟨output, inList, rfl⟩ := List.mem_map.mp member
            exact nonneg output inList
          exact toInt_ofInt_eq (by omega) (inRange.selected vCoins listed manual)
        rw [Int64.le_iff_toInt_le, total] at enough
        subst taken
        exact ⟨keys, fun coin member => member, total, enough⟩
    | false =>
        rw [manual, if_neg Bool.false_ne_true] at selected
        have rules := inRange.rules vCoins listed manual
        rw [← same] at rules
        exact trySelections_covers keys nonneg (exact ▸ targetNonneg) rules selected
  refine ⟨covers.distinct, ?_, covers.total, exact ▸ covers.reached⟩
  intro coin member
  obtain ⟨output, inList, rfl⟩ := List.mem_map.mp (covers.members coin member)
  exact spendable output inList

end Selecting

section Passing

variable {c : PassChoices} {vecSend : List (CScript × Int64)} {nValue nFeeRet : Int64} {wtxNew tx : CTransaction}

/-- Moving change to the fee lowers neither below zero, and keeps their sum. -/
theorem moveToFee_spec (nChange : Int64) (feeNonneg : 0 ≤ nFeeRet.toInt) :
    nFeeRet.toInt ≤ (moveToFee nChange nFeeRet).2.toInt ∧
      (0 ≤ nChange.toInt → 0 ≤ (moveToFee nChange nFeeRet).1.toInt ∧
        (moveToFee nChange nFeeRet).1.toInt + (moveToFee nChange nFeeRet).2.toInt =
          nChange.toInt + nFeeRet.toInt) := by
  unfold moveToFee
  split
  · rename_i small
    simp only [Int64.lt_iff_toInt_lt] at small
    obtain ⟨low, positive, -⟩ := small
    have least : minTxFee.toInt = 10000 := by decide
    have zero : Int64.toInt 0 = 0 := rfl
    rw [zero] at positive
    have room : (minTxFee - nFeeRet).toInt = minTxFee.toInt - nFeeRet.toInt :=
      toInt_sub_of_nonneg (by decide) feeNonneg
    have move {nMove : Int64} (moved : 0 < nMove.toInt) (change : nMove.toInt ≤ nChange.toInt)
        (fee : nMove.toInt ≤ minTxFee.toInt - nFeeRet.toInt) :
        (nFeeRet + nMove).toInt = nFeeRet.toInt + nMove.toInt ∧
          (nChange - nMove).toInt = nChange.toInt - nMove.toInt := by
      have wrapped : nFeeRet + nMove = Int64.ofInt (nFeeRet.toInt + nMove.toInt) := by
        rw [Int64.ofInt_add, Int64.ofInt_toInt, Int64.ofInt_toInt]
      rw [wrapped]
      exact ⟨toInt_ofInt_eq (by omega) (by rw [maxMoney_toInt]; omega),
        toInt_sub_of_nonneg (by omega) (by omega)⟩
    dsimp only
    split
    · rename_i less
      rw [Int64.lt_iff_toInt_lt, room] at less
      obtain ⟨fee, change⟩ := @move (minTxFee - nFeeRet) (by omega) (by omega) (by omega)
      rw [fee, change, room]
      exact ⟨by omega, fun _ => ⟨by omega, by omega⟩⟩
    · rename_i notLess
      rw [Int64.lt_iff_toInt_lt, room] at notLess
      obtain ⟨fee, change⟩ := @move nChange (by omega) (by omega) (by omega)
      rw [fee, change]
      exact ⟨by omega, fun _ => ⟨by omega, by omega⟩⟩
  · exact ⟨le_rfl, fun nonneg => ⟨nonneg, rfl⟩⟩

/-- Signing sets scripts and nothing else. -/
theorem signInputs_rest {coins : List Coin} {nIn : Nat} (signed : signInputs c coins nIn wtxNew = some tx) :
    tx.vout = wtxNew.vout ∧ tx.vin.map CTxIn.prevout = wtxNew.vin.map CTxIn.prevout := by
  induction coins generalizing nIn wtxNew with
  | nil =>
      cases signed
      exact ⟨rfl, rfl⟩
  | cons coin rest ih =>
      simp only [signInputs] at signed
      split at signed
      · cases signed
      obtain ⟨outputs, inputs⟩ := ih signed
      exact ⟨outputs, inputs.trans (CTxIn.modify_prevouts _ _ _)⟩

/-- How a pass can end that neither throws nor gives up. -/
theorem createPass_cases {result : PassResult}
    (pass : p.createPass c vecSend nValue wtxNew coinControl nFeeRet = result) :
    result = .thrown ∨ result = .refused ∨
      ∃ setCoins nValueIn vout tx,
        p.selectCoins c.randoms (nValue + nFeeRet) wtxNew.nTime coinControl = some (true, setCoins, nValueIn) ∧
        addChange c coinControl (moveToFee (nValueIn - nValue - nFeeRet) nFeeRet).1
          (vecSend.map fun s => ⟨s.2, s.1⟩) = some vout ∧
        signInputs c (c.order setCoins) 0
          { wtxNew with vin := (c.order setCoins).map p.txInOf, vout := vout } = some tx ∧
        (nBytesOf tx).toNat < maxStandardTxSize ∧
        if (moveToFee (nValueIn - nValue - nFeeRet) nFeeRet).2 < p.neededFee tx then
          result = .again (p.neededFee tx)
        else result = .created tx (moveToFee (nValueIn - nValue - nFeeRet) nFeeRet).2 := by
  simp only [createPass] at pass
  split at pass
  · exact Or.inl pass.symm
  · exact Or.inr (Or.inl pass.symm)
  rename_i setCoins nValueIn selected
  split at pass
  · exact Or.inl pass.symm
  rename_i vout changed
  split at pass
  · exact Or.inr (Or.inl pass.symm)
  rename_i tx signed
  split at pass
  · exact Or.inr (Or.inl pass.symm)
  rename_i small
  refine Or.inr (Or.inr ⟨setCoins, nValueIn, vout, tx, selected, changed, signed, Nat.not_le.mp small, ?_⟩)
  split at pass
  · rename_i low
    rw [if_pos low]
    exact pass.symm
  · rename_i enough
    rw [if_neg enough]
    exact pass.symm

end Passing

section Finishing

variable {c : PassChoices} {vecSend : List (CScript × Int64)} {nValue nFeeRet : Int64} {wtxNew tx : CTransaction}

/-- The fee that a transaction of so many thousand bytes needs. -/
def feeStep (p : Payer) (kilobytes : Nat) : Int64 :=
  if p.nTransactionFee * (1 + Int64.ofNat kilobytes) < (1 + Int64.ofNat kilobytes) * minTxFee then
    (1 + Int64.ofNat kilobytes) * minTxFee
  else p.nTransactionFee * (1 + Int64.ofNat kilobytes)

theorem kilobytes_lt (small : (nBytesOf tx).toNat < maxStandardTxSize) : (nBytesOf tx).toNat / 1000 < 100 := by
  have bound : maxStandardTxSize = 100000 := by decide
  omega

/-- The least fee of a transaction of standard size. -/
theorem getMinFee_send (small : (nBytesOf tx).toNat < maxStandardTxSize) :
    tx.getMinFee 1 .send (nBytesOf tx) = (1 + Int64.ofNat ((nBytesOf tx).toNat / 1000)) * minTxFee := by
  have plain : ∀ j < 100, ¬(1 + Int64.ofNat j) * minTxFee < minTxFee ∧
      moneyRange ((1 + Int64.ofNat j) * minTxFee) = true := by decide
  obtain ⟨notLess, inRange⟩ := plain _ (kilobytes_lt small)
  simp [CTransaction.getMinFee, notLess, inRange]

/-- A transaction of standard size needs one of a hundred fees. -/
theorem neededFee_step (small : (nBytesOf tx).toNat < maxStandardTxSize) :
    p.neededFee tx = p.feeStep ((nBytesOf tx).toNat / 1000) := by
  rw [neededFee, getMinFee_send small]
  rfl

theorem neededFee_nonneg (small : (nBytesOf tx).toNat < maxStandardTxSize) : 0 ≤ (p.neededFee tx).toInt := by
  have positive : ∀ j < 100, 0 ≤ ((1 + Int64.ofNat j) * minTxFee).toInt := by decide
  have least := positive _ (kilobytes_lt small)
  rw [neededFee_step small, feeStep]
  split
  · exact least
  · rename_i notLess
    rw [Int64.lt_iff_toInt_lt] at notLess
    omega

/-- The fees that a further pass can start from. -/
def stepsAbove (p : Payer) (nFeeRet : Int64) : Finset Nat :=
  (Finset.range 100).filter fun kilobytes => nFeeRet < p.feeStep kilobytes

theorem card_stepsAbove_le (nFeeRet : Int64) : (p.stepsAbove nFeeRet).card ≤ 100 :=
  (Finset.card_filter_le _ _).trans_eq (Finset.card_range 100)

/-- A further pass starts from a higher fee, one of those above. -/
theorem again_lt {fee : Int64} (feeNonneg : 0 ≤ nFeeRet.toInt)
    (pass : p.createPass c vecSend nValue wtxNew coinControl nFeeRet = .again fee) :
    0 ≤ fee.toInt ∧ (p.stepsAbove fee).card < (p.stepsAbove nFeeRet).card := by
  rcases createPass_cases pass with thrown | refused | ⟨setCoins, nValueIn, vout, tx, -, -, -, small, outcome⟩
  · cases thrown
  · cases refused
  split at outcome
  · rename_i low
    cases outcome
    refine ⟨neededFee_nonneg small, Finset.card_lt_card ?_⟩
    have raised := (moveToFee_spec (nValueIn - nValue - nFeeRet) feeNonneg).1
    rw [Int64.lt_iff_toInt_lt] at low
    refine Finset.ssubset_iff_of_subset ?_ |>.mpr ⟨(nBytesOf tx).toNat / 1000, ?_, ?_⟩
    · intro kilobytes member
      simp only [stepsAbove, Finset.mem_filter, Int64.lt_iff_toInt_lt] at member ⊢
      exact ⟨member.1, by omega⟩
    · simp only [stepsAbove, Finset.mem_filter, Finset.mem_range, Int64.lt_iff_toInt_lt, ← neededFee_step small]
      exact ⟨kilobytes_lt small, by omega⟩
    · simp [stepsAbove, ← neededFee_step small]
  · cases outcome

/-- The loop ends within as many passes as there are fees above. -/
theorem createLoop_finishes {choices : Nat → PassChoices} {fuel nPass : Nat} (feeNonneg : 0 ≤ nFeeRet.toInt)
    (enough : (p.stepsAbove nFeeRet).card < fuel) :
    p.createLoop choices vecSend nValue wtxNew coinControl fuel nPass nFeeRet ≠ .unfinished := by
  induction fuel generalizing nPass nFeeRet with
  | zero => omega
  | succ fuel ih =>
      simp only [createLoop]
      split
      · simp
      · simp
      · rename_i fee pass
        obtain ⟨nonneg, fewer⟩ := again_lt feeNonneg pass
        exact ih nonneg (by omega)
      · simp

end Finishing

/-- The outputs that a payment asks for. -/
def sentOutputs (vecSend : List (CScript × Int64)) : List CTxOut := vecSend.map fun s => ⟨s.2, s.1⟩

/-- A payment balances: distinct spendable outputs of the wallet pay for the outputs that were
asked for, at most one change output of positive value, and exactly the fee, which is at
least the least fee of the transaction. -/
structure Balanced (p : Payer) (vecSend : List (CScript × Int64)) (coinControl : Option CCoinControl)
    (tx : CTransaction) (nFeeRet : Int64) : Prop where
  distinct : (tx.vin.map CTxIn.prevout).Nodup
  inputs : ∃ coins : List Coin, tx.vin.map CTxIn.prevout = coins.map (fun coin => (p.txInOf coin).prevout) ∧
    (∀ coin ∈ coins, p.Spendable coinControl coin) ∧
    coinSum coins - outputsValue tx.vout = nFeeRet.toInt
  outputs : tx.vout = sentOutputs vecSend ∨ ∃ change place, 0 < change.nValue.toInt ∧
    place < (sentOutputs vecSend).length ∧ tx.vout = (sentOutputs vecSend).insertIdx place change
  minFee : (tx.getMinFee 1 .send (nBytesOf tx)).toInt ≤ nFeeRet.toInt

section Balancing

variable {c : PassChoices} {vecSend : List (CScript × Int64)} {nValue nFeeRet : Int64} {wtxNew tx : CTransaction}

/-- The sum over `vecSend` is exact where it ends up in the money range. -/
theorem sumSend_exact {start : Int64} (amounts : ∀ s ∈ vecSend, 0 ≤ s.2.toInt)
    (summed : sumSend start vecSend = some nValue) (nonneg : 0 ≤ nValue.toInt) :
    0 ≤ start.toInt ∧ nValue.toInt = start.toInt + (vecSend.map fun s => s.2.toInt).sum := by
  induction vecSend generalizing start with
  | nil =>
      cases summed
      exact ⟨nonneg, by simp⟩
  | cons s rest ih =>
      rw [List.forall_mem_cons] at amounts
      simp only [sumSend] at summed
      split at summed
      · cases summed
      rename_i notNegative
      have startNonneg : 0 ≤ start.toInt := by
        rw [Int64.lt_iff_toInt_lt] at notNegative
        exact Int.not_lt.mp notNegative
      obtain ⟨sumNonneg, total⟩ := ih amounts.2 summed
      rw [toInt_add_of_nonneg startNonneg amounts.1 sumNonneg] at total
      refine ⟨startNonneg, ?_⟩
      rw [total, List.map_cons, List.sum_cons]
      omega

theorem outputsValue_sent (vecSend : List (CScript × Int64)) :
    outputsValue (sentOutputs vecSend) = (vecSend.map fun s => s.2.toInt).sum := by
  rw [outputsValue, sentOutputs, List.map_map]
  rfl

theorem outputsValue_insertIdx {vout : List CTxOut} {place : Nat} (inside : place ≤ vout.length) (change : CTxOut) :
    outputsValue (vout.insertIdx place change) = change.nValue.toInt + outputsValue vout := by
  have perm := (List.perm_insertIdx change vout inside).map fun txout : CTxOut => txout.nValue.toInt
  rw [outputsValue, perm.sum_eq]
  rfl

/-- The change output, where there is change. -/
theorem addChange_cases {nChange : Int64} {vout : List CTxOut} (sent : vecSend ≠ [])
    (changed : addChange c coinControl nChange (sentOutputs vecSend) = some vout) :
    (¬0 < nChange.toInt ∧ vout = sentOutputs vecSend) ∨
      0 < nChange.toInt ∧ ∃ script place, place < (sentOutputs vecSend).length ∧
        vout = (sentOutputs vecSend).insertIdx place ⟨nChange, script⟩ := by
  have zero : Int64.toInt 0 = 0 := rfl
  unfold addChange at changed
  split at changed
  · rename_i positive
    rw [Int64.lt_iff_toInt_lt, zero] at positive
    obtain ⟨script, -, rfl⟩ := Option.map_eq_some_iff.mp changed
    have some : 0 < (sentOutputs vecSend).length := by
      rw [sentOutputs, List.length_map]
      exact List.length_pos_iff.mpr sent
    exact Or.inr ⟨positive, script, _, c.inside _ some, rfl⟩
  · rename_i none
    rw [Int64.lt_iff_toInt_lt, zero] at none
    exact Or.inl ⟨none, (Option.some.inj changed).symm⟩

/-- A pass whose amounts stay in range makes a payment that balances. -/
theorem balanced_of_pass {fee : Int64} (valid : p.Valid) (sent : vecSend ≠ [])
    (amounts : ∀ s ∈ vecSend, 0 ≤ s.2.toInt) (total : nValue.toInt = (vecSend.map fun s => s.2.toInt).sum)
    (feeNonneg : 0 ≤ nFeeRet.toInt) (inRange : p.PassInRange vecSend wtxNew.nTime coinControl nFeeRet)
    (pass : p.createPass c vecSend nValue wtxNew coinControl nFeeRet = .created tx fee) :
    p.Balanced vecSend coinControl tx fee ∧ (p.payFee (nBytesOf tx)).toInt ≤ fee.toInt ∧
      (nBytesOf tx).toNat < maxStandardTxSize := by
  rcases createPass_cases pass with
    thrown | refused | ⟨setCoins, nValueIn, vout, signed, selected, changed, signing, small, outcome⟩
  · cases thrown
  · cases refused
  split at outcome
  · cases outcome
  rename_i enough
  rw [PassResult.created.injEq] at outcome
  obtain ⟨rfl, rfl⟩ := outcome
  have sumNonneg : 0 ≤ (vecSend.map fun s => s.2.toInt).sum := by
    refine List.sum_nonneg ?_
    intro value member
    obtain ⟨s, inList, rfl⟩ := List.mem_map.mp member
    exact amounts s inList
  have wrapped : nValue + nFeeRet = Int64.ofInt ((vecSend.map fun s => s.2.toInt).sum + nFeeRet.toInt) := by
    rw [Int64.ofInt_add, ← total, Int64.ofInt_toInt, Int64.ofInt_toInt]
  obtain ⟨distinct, spendable, nValueInExact, reached⟩ :=
    selectCoins_covers valid inRange (by omega) wrapped selected
  dsimp only at distinct spendable nValueInExact reached
  have permuted := c.ordered setCoins
  obtain ⟨outputs, prevouts⟩ := signInputs_rest signing
  replace outputs : tx.vout = vout := outputs
  have upper := le_maxMoney nValueIn
  have change : (nValueIn - nValue - nFeeRet).toInt = nValueIn.toInt - nValue.toInt - nFeeRet.toInt := by
    have difference : nValueIn - nValue - nFeeRet =
        Int64.ofInt (nValueIn.toInt - nValue.toInt - nFeeRet.toInt) := by
      rw [Int64.ofInt_sub, Int64.ofInt_sub, Int64.ofInt_toInt, Int64.ofInt_toInt, Int64.ofInt_toInt]
    rw [difference]
    exact toInt_ofInt_eq (by omega) (by omega)
  obtain ⟨-, moved⟩ := moveToFee_spec (nValueIn - nValue - nFeeRet) feeNonneg
  obtain ⟨changeNonneg, kept⟩ := moved (by omega)
  have needed : (p.neededFee tx).toInt ≤ (moveToFee (nValueIn - nValue - nFeeRet) nFeeRet).2.toInt := by
    rw [Int64.lt_iff_toInt_lt] at enough
    exact Int.not_lt.mp enough
  have parts : (tx.getMinFee 1 .send (nBytesOf tx)).toInt ≤ (p.neededFee tx).toInt ∧
      (p.payFee (nBytesOf tx)).toInt ≤ (p.neededFee tx).toInt := by
    unfold neededFee
    split
    · rename_i less
      exact ⟨le_rfl, (Int64.lt_iff_toInt_lt.mp less).le⟩
    · rename_i notLess
      rw [Int64.lt_iff_toInt_lt] at notLess
      exact ⟨Int.not_lt.mp notLess, le_rfl⟩
  have points : tx.vin.map CTxIn.prevout =
      (c.order setCoins).map fun coin => (p.txInOf coin).prevout := by
    rw [prevouts, List.map_map]
    rfl
  have owned : ∀ coin ∈ c.order setCoins, p.Spendable coinControl coin :=
    fun coin member => spendable coin (permuted.subset member)
  refine ⟨⟨?_, ⟨c.order setCoins, points, owned, ?_⟩, ?_, parts.1.trans needed⟩, parts.2.trans needed, small⟩
  · -- An outpoint is the key of its coin.
    have keys : (c.order setCoins).map (fun coin => (p.txInOf coin).prevout) =
        ((c.order setCoins).map Coin.key).map fun key => ⟨key.1, key.2⟩ := by
      rw [List.map_map]
      refine List.map_congr_left ?_
      intro coin member
      rw [txInOf, valid.keyed _ _ (owned coin member).stored]
      rfl
    rw [points, keys]
    refine List.Nodup.map ?_ ((permuted.map Coin.key).nodup_iff.mpr distinct)
    intro first second same
    rw [COutPoint.mk.injEq] at same
    exact Prod.ext same.1 same.2
  · rw [coinSum_perm permuted, ← nValueInExact, outputs]
    rcases addChange_cases sent changed with ⟨none, same⟩ | ⟨positive, script, place, inside, same⟩
    · rw [same, outputsValue_sent]
      omega
    · rw [same, outputsValue_insertIdx inside.le, outputsValue_sent]
      dsimp only
      omega
  · rw [outputs]
    rcases addChange_cases sent changed with ⟨-, same⟩ | ⟨positive, script, place, inside, same⟩
    · exact Or.inl same
    · exact Or.inr ⟨⟨(moveToFee (nValueIn - nValue - nFeeRet) nFeeRet).1, script⟩, place, positive, inside, same⟩

end Balancing

/-- The fee with which a further pass starts, if there is one. -/
def nextFee : PassResult → Option Int64
  | .again nFeeRet => some nFeeRet
  | _ => none

/-- The fee with which a pass of the loop starts, if it comes to that pass. -/
def feeAt (p : Payer) (choices : Nat → PassChoices) (vecSend : List (CScript × Int64)) (wtxNew : CTransaction)
    (coinControl : Option CCoinControl) : Nat → Option Int64
  | 0 => some p.nTransactionFee
  | nPass + 1 =>
      (feeAt p choices vecSend wtxNew coinControl nPass).bind fun nFeeRet =>
        nextFee (p.createPass (choices nPass) vecSend (Int64.ofInt (vecSend.map fun s => s.2.toInt).sum) wtxNew
          coinControl nFeeRet)

section Running

variable {choices : Nat → PassChoices} {vecSend : List (CScript × Int64)} {wtxNew tx : CTransaction}

theorem feeAt_nonneg (valid : p.Valid) {nPass : Nat} {fee : Int64}
    (reached : p.feeAt choices vecSend wtxNew coinControl nPass = some fee) : 0 ≤ fee.toInt := by
  induction nPass generalizing fee with
  | zero =>
      cases reached
      exact valid.nTransactionFee
  | succ nPass ih =>
      obtain ⟨before, earlier, next⟩ := Option.bind_eq_some_iff.mp reached
      unfold nextFee at next
      split at next
      · rename_i pass
        cases next
        exact (again_lt (ih earlier) pass).1
      · cases next

/-- A payment is made in one of the passes. -/
theorem createLoop_created {passes nPass : Nat} {nFeeRet fee : Int64}
    (reached : p.feeAt choices vecSend wtxNew coinControl nPass = some nFeeRet)
    (created : p.createLoop choices vecSend (Int64.ofInt (vecSend.map fun s => s.2.toInt).sum) wtxNew coinControl
      passes nPass nFeeRet = .created tx fee) :
    ∃ last start, p.feeAt choices vecSend wtxNew coinControl last = some start ∧
      p.createPass (choices last) vecSend (Int64.ofInt (vecSend.map fun s => s.2.toInt).sum) wtxNew coinControl
        start = .created tx fee := by
  induction passes generalizing nPass nFeeRet with
  | zero => cases created
  | succ passes ih =>
      simp only [createLoop] at created
      split at created
      · cases created
      · cases created
      · rename_i again pass
        refine ih ?_ created
        rw [feeAt, reached, Option.bind_some, pass]
        rfl
      · rename_i pass
        cases created
        exact ⟨nPass, nFeeRet, reached, pass⟩

/-- The loop of `CreateTransaction` ends, in a hundred and one passes at most. -/
theorem createTransaction_finishes (valid : p.Valid) {passes : Nat} (enough : 101 ≤ passes) :
    p.createTransaction choices vecSend wtxNew coinControl passes ≠ .unfinished := by
  unfold createTransaction
  split
  · simp
  split
  · simp
  · refine createLoop_finishes valid.nTransactionFee ?_
    have steps := card_stepsAbove_le (p := p) p.nTransactionFee
    omega

/-- The fee rate for the size, exactly. -/
theorem payFee_iff (valid : p.Valid) {fee : Int64} (small : (nBytesOf tx).toNat < maxStandardTxSize)
    (enough : (p.payFee (nBytesOf tx)).toInt ≤ fee.toInt) :
    p.nTransactionFee.toInt * (1 + (nBytesOf tx).toNat / 1000 : Nat) ≤ fee.toInt ↔
      p.nTransactionFee.toInt * (1 + (nBytesOf tx).toNat / 1000 : Nat) ≤ maxMoney.toInt := by
  refine ⟨fun covered => covered.trans (le_maxMoney fee), fun inRange => ?_⟩
  have wrapped : p.payFee (nBytesOf tx) =
      Int64.ofInt (p.nTransactionFee.toInt * (1 + (nBytesOf tx).toNat / 1000 : Nat)) := by
    have one : Int64.ofInt 1 = 1 := rfl
    rw [payFee, Int64.ofInt_mul, Int64.ofInt_toInt, Nat.cast_add, Int64.ofInt_add]
    rfl
  have nonneg : 0 ≤ p.nTransactionFee.toInt * ((1 + (nBytesOf tx).toNat / 1000 : Nat) : Int) :=
    mul_nonneg valid.nTransactionFee (Int.natCast_nonneg _)
  rw [wrapped, toInt_ofInt_eq (by omega) inRange] at enough
  exact enough

end Running

/-- The loop of `CreateTransaction` ends. In every run whose passes stay in range, a payment that is made
balances, and its fee covers the fee rate for its size exactly where that product is in range. -/
theorem createTransaction_balances {vecSend : List (CScript × Int64)} {wtxNew : CTransaction} (valid : p.Valid)
    (sent : vecSend ≠ []) (amounts : ∀ s ∈ vecSend, moneyRange s.2 = true) (choices : Nat → PassChoices) :
    (∀ passes, 101 ≤ passes → p.createTransaction choices vecSend wtxNew coinControl passes ≠ .unfinished) ∧
    ∀ passes tx fee, p.createTransaction choices vecSend wtxNew coinControl passes = .created tx fee →
      (∀ nPass start, p.feeAt choices vecSend wtxNew coinControl nPass = some start →
        p.PassInRange vecSend wtxNew.nTime coinControl start) →
      p.Balanced vecSend coinControl tx fee ∧
        (p.nTransactionFee.toInt * (1 + (nBytesOf tx).toNat / 1000 : Nat) ≤ fee.toInt ↔
          p.nTransactionFee.toInt * (1 + (nBytesOf tx).toNat / 1000 : Nat) ≤ maxMoney.toInt) := by
  refine ⟨fun passes enough => createTransaction_finishes valid enough, ?_⟩
  intro passes tx fee created inRange
  have nonneg : ∀ s ∈ vecSend, 0 ≤ s.2.toInt := fun s member => moneyRange_iff.mp (amounts s member)
  unfold createTransaction at created
  split at created
  · cases created
  rename_i nValue summed
  split at created
  · cases created
  rename_i guards
  simp only [Bool.or_eq_true, decide_eq_true_eq, not_or, Int64.lt_iff_toInt_lt] at guards
  obtain ⟨-, total⟩ := sumSend_exact nonneg summed (Int.not_lt.mp guards.2)
  have zero : Int64.toInt 0 = 0 := rfl
  rw [zero, Int.zero_add] at total
  have wrapped : nValue = Int64.ofInt (vecSend.map fun s => s.2.toInt).sum := by rw [← total, Int64.ofInt_toInt]
  rw [wrapped] at created total
  obtain ⟨last, start, reached, pass⟩ := createLoop_created rfl created
  obtain ⟨balanced, paid, small⟩ :=
    balanced_of_pass valid sent nonneg total (feeAt_nonneg valid reached) (inRange last start reached) pass
  exact ⟨balanced, payFee_iff valid small paid⟩

end Payer

section Concrete

/-- A wallet with some transactions, twenty blocks deep, all of whose outputs are its own. -/
def payerWith (txs : List CTransaction) : Payer where
  env := Env.labelled false
  view := ⟨fun _ => true, fun _ => 20, 10⟩
  keys := ⟨fun _ => true, fun _ => none, fun _ => false, 0⟩
  wallet :=
    { mapWallet := txs.foldl (fun mapWallet tx =>
        mapWallet.insert ((Env.labelled false).txHash tx) ⟨CWalletTx.ofTx tx, [], []⟩) ∅
      mapAddressBook := ∅
      acentries := [] }
  fConfChange := false
  fuel := 0
  nTransactionFee := minTxFee

/-- Plain choices, with empty signatures. -/
def plainChoices : PassChoices where
  randoms _ := plainRandom
  order := id
  ordered _ := List.Perm.refl _
  getRandInt _ := 0
  inside _ some := some
  reservedKey := some 7
  signSignature _ _ _ := some []

/-- The payment that has been made. -/
def CreateResult.payment : CreateResult → Option (CTransaction × Int64)
  | .created wtxNew nFeeRet => some (wtxNew, nFeeRet)
  | _ => none

theorem created_of_payment {result : CreateResult} {tx : CTransaction} {fee : Int64}
    (made : result.payment = some (tx, fee)) : result = .created tx fee := by
  cases result <;> cases made
  rfl

def savedCoins : CTransaction := .labelledSpend 50 900 ⟨49, 0⟩ (2 * coin)

def emptyTx : CTransaction := ⟨1, 1000, [], [], 0⟩

theorem payerWith_valid : (payerWith [savedCoins]).Valid where
  keyed := by
    intro hash t found
    by_cases same : hash = (Env.labelled false).txHash savedCoins
    · rw [same] at found ⊢
      have stored := AList.lookup_insert (β := fun _ : UInt256 => AccountTx)
        (a := (Env.labelled false).txHash savedCoins) (b := ⟨CWalletTx.ofTx savedCoins, [], []⟩) ∅
      rw [show (payerWith [savedCoins]).wallet.mapWallet.lookup _ = _ from stored, Option.some.injEq] at found
      rw [← found]
      rfl
    · have absent : (payerWith [savedCoins]).wallet.mapWallet.lookup hash = none := by
        change AList.lookup hash (AList.insert _ _ ∅) = none
        rw [AList.lookup_insert_ne same, AList.lookup_empty]
      rw [absent] at found
      cases found
  nMinimumInputValue := by decide
  nTransactionFee := by decide

/-- One coin out of two, with the minimum fee and change. -/
theorem createTransaction_balances_sample :
    ∃ tx fee, (payerWith [savedCoins]).createTransaction (fun _ => plainChoices) [([0x51], coin)] emptyTx none 101 =
        .created tx fee ∧ (payerWith [savedCoins]).Balanced [([0x51], coin)] none tx fee := by
  have succeeds : ((payerWith [savedCoins]).createTransaction (fun _ => plainChoices) [([0x51], coin)] emptyTx
      none 101).payment.isSome = true := by decide +kernel
  obtain ⟨⟨tx, fee⟩, made⟩ := Option.isSome_iff_exists.mp succeeds
  have created := created_of_payment made
  refine ⟨tx, fee, created, ?_⟩
  have once : ∀ nPass, (payerWith [savedCoins]).feeAt (fun _ => plainChoices) [([0x51], coin)] emptyTx none
      (nPass + 1) = none := by
    intro nPass
    induction nPass with
    | zero => decide +kernel
    | succ nPass ih => rw [Payer.feeAt, ih, Option.bind_none]
  have small : ((payerWith [savedCoins]).availableCoins true none).all (fun vCoins =>
      decide (∀ rule ∈ Payer.depthRules, coinSum (lowerCoins (coin + minTxFee) (eligibleCoins
        (payerWith [savedCoins]).fromMe 1000 rule.1 rule.2 vCoins)) ≤ maxMoney.toInt)) = true := by
    decide +kernel
  refine ((Payer.createTransaction_balances payerWith_valid (by simp) (by decide) fun _ => plainChoices).2
    101 tx fee created ?_).1
  intro nPass start reached
  cases nPass with
  | succ nPass =>
      rw [once nPass] at reached
      cases reached
  | zero =>
      cases reached
      refine ⟨by decide, fun _ _ manual => absurd manual (by decide), ?_⟩
      intro vCoins listed _
      rw [listed, Option.all_some, decide_eq_true_eq] at small
      have never : ∀ rule ∈ Payer.depthRules, NeverShort (eligibleCoins (payerWith [savedCoins]).fromMe 1000
          rule.1 rule.2 vCoins) (coin + minTxFee) :=
        fun rule member => Or.inr (Or.inl ⟨by decide, small rule member⟩)
      exact Payer.rulesInRange_of_forall never

/-- The largest amount there is: the target wraps, no coins are taken, and a payment without
inputs is made that claims to have change. -/
theorem createTransaction_unbalanced :
    ∃ tx fee, (payerWith []).createTransaction (fun _ => plainChoices) [([0x51], maxMoney)] emptyTx none 101 =
        .created tx fee ∧ tx.vin = [] ∧ ¬(payerWith []).Balanced [([0x51], maxMoney)] none tx fee := by
  have succeeds : ((payerWith []).createTransaction (fun _ => plainChoices) [([0x51], maxMoney)] emptyTx none
      101).payment.any (fun payment => decide (payment.1.vin = [] ∧ 0 < outputsValue payment.1.vout ∧
        0 < payment.2.toInt)) = true := by decide +kernel
  obtain ⟨⟨tx, fee⟩, made, checks⟩ := (Option.any_eq_true _ _).mp succeeds
  rw [decide_eq_true_eq] at checks
  obtain ⟨none, paid, charged⟩ := checks
  refine ⟨tx, fee, created_of_payment made, none, ?_⟩
  intro balanced
  obtain ⟨coins, points, -, sum⟩ := balanced.inputs
  rw [none, List.map_nil, eq_comm, List.map_eq_nil_iff] at points
  rw [points, coinSum_nil] at sum
  dsimp only at paid charged
  omega

end Concrete

end InfiniteRicks
