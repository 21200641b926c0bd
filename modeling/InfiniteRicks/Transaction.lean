import InfiniteRicks.Script

/-!
# Transactions

`CTransaction` and its context-free rules, from `main.h` and `main.cpp`.
Amounts are `int64_t` and therefore `Int64`, so every addition wraps exactly as
the compiled code's does; `Int64.toInt` is the exact amount. A C++ exception is
`none`.
-/

namespace InfiniteRicks

/-- `COIN`, the number of base units in one coin. -/
def coin : Int64 := 100000000

/-- `CENT`. -/
def cent : Int64 := 1000000

theorem cent_toInt : cent.toInt = 1000000 := by decide

/-- `MAX_MONEY`, which is `std::numeric_limits<int64_t>::max()`. -/
def maxMoney : Int64 := Int64.maxValue

/-- `MIN_TX_FEE`. -/
def minTxFee : Int64 := 10000

/-- `MIN_RELAY_TX_FEE`. -/
def minRelayTxFee : Int64 := minTxFee

/-- `MAX_BLOCK_SIZE`. -/
def maxBlockSize : Nat := 1000000

/-- `MAX_BLOCK_SIZE_GEN`. -/
def maxBlockSizeGen : Nat := maxBlockSize / 2

/-- `MAX_BLOCK_SIGOPS`. -/
def maxBlockSigOps : Nat := maxBlockSize / 50

/-- `MoneyRange`. -/
def moneyRange (nValue : Int64) : Bool := 0 ≤ nValue && nValue ≤ maxMoney

/-- The upper test of `MoneyRange` is vacuous: `MAX_MONEY` is the largest `int64_t`. -/
theorem moneyRange_iff {nValue : Int64} : moneyRange nValue = true ↔ 0 ≤ nValue.toInt := by
  have upper : nValue.toInt ≤ maxMoney.toInt := by
    have bound := nValue.toInt_lt
    have value : maxMoney.toInt = 2 ^ 63 - 1 := by decide
    omega
  simp [moneyRange, Int64.le_iff_toInt_le, upper]

/-- `GetSizeOfCompactSize`. -/
def getSizeOfCompactSize (nSize : Nat) : Nat :=
  if nSize < 253 then 1
  else if nSize ≤ 0xffff then 3
  else if nSize ≤ 0xffffffff then 5
  else 9

/-- Serialized size of a byte vector. -/
def bytesSize (bytes : List UInt8) : Nat := getSizeOfCompactSize bytes.length + bytes.length

/-- `COutPoint`: a transaction hash and an output index. -/
structure COutPoint where
  hash : UInt256
  n : UInt32
deriving DecidableEq, Repr

namespace COutPoint

/-- `COutPoint::SetNull`. -/
def null : COutPoint := ⟨0, 0xffffffff⟩

/-- `COutPoint::IsNull`. -/
def isNull (prevout : COutPoint) : Bool := prevout.hash = 0 && prevout.n = 0xffffffff

end COutPoint

/-- `CTxIn`. -/
structure CTxIn where
  prevout : COutPoint
  scriptSig : CScript
  nSequence : UInt32
deriving DecidableEq, Repr

/-- Setting a `scriptSig` keeps the prevouts. -/
theorem CTxIn.modify_prevouts (vin : List CTxIn) (nIn : Nat) (scriptSig : CScript) :
    (vin.modify nIn fun txin => { txin with scriptSig := scriptSig }).map CTxIn.prevout = vin.map CTxIn.prevout := by
  refine List.ext_getElem? fun i => ?_
  simp only [List.getElem?_map, List.getElem?_modify]
  cases vin[i]? with
  | none => rfl
  | some txin =>
      simp only [Option.map_some, Option.map_eq_map]
      split <;> rfl

/-- `CTxOut`. -/
structure CTxOut where
  nValue : Int64
  scriptPubKey : CScript
deriving DecidableEq, Repr

/-- `CTxOut::IsEmpty`. -/
def CTxOut.isEmpty (txout : CTxOut) : Bool := txout.nValue = 0 && txout.scriptPubKey.isEmpty

/-- `CTransaction`. -/
structure CTransaction where
  nVersion : Int32
  nTime : UInt32
  vin : List CTxIn
  vout : List CTxOut
  nLockTime : UInt32
deriving DecidableEq, Repr

/-- `GetMinFee_mode`. -/
inductive GetMinFeeMode where
  | block
  | relay
  | send
deriving DecidableEq, Repr

namespace CTransaction

/-- `CTransaction::IsCoinBase`. -/
def isCoinBase (tx : CTransaction) : Bool :=
  match tx.vin with
  | [txin] => txin.prevout.isNull && 1 ≤ tx.vout.length
  | _ => false

/-- `CTransaction::IsCoinStake`: at least one input, a non-null first prevout,
at least two outputs, and the first one empty. -/
def isCoinStake (tx : CTransaction) : Bool :=
  match tx.vin, tx.vout with
  | txin :: _, txout :: _ :: _ => !txin.prevout.isNull && txout.isEmpty
  | _, _ => false

/-- The loop of `CTransaction::GetValueOut` from a partial sum. -/
def addValueOut (nValueOut : Int64) : List CTxOut → Option Int64
  | [] => some nValueOut
  | txout :: rest =>
      let nValueOut := nValueOut + txout.nValue
      if !moneyRange txout.nValue || !moneyRange nValueOut then none
      else addValueOut nValueOut rest

/-- `CTransaction::GetValueOut`; `none` is the `std::runtime_error` it throws. -/
def getValueOut (tx : CTransaction) : Option Int64 := addValueOut 0 tx.vout

/-- `::GetSerializeSize` of a transaction. -/
def getSerializeSize (tx : CTransaction) : Nat :=
  4 + 4 +
    (getSizeOfCompactSize tx.vin.length +
      (tx.vin.map fun txin => 36 + bytesSize txin.scriptSig + 4).sum) +
    (getSizeOfCompactSize tx.vout.length +
      (tx.vout.map fun txout => 8 + bytesSize txout.scriptPubKey).sum) + 4

/-- `CTransaction::GetLegacySigOpCount`. -/
def getLegacySigOpCount (tx : CTransaction) : Nat :=
  (tx.vin.map fun txin => CScript.getSigOpCount false txin.scriptSig).sum +
    (tx.vout.map fun txout => CScript.getSigOpCount false txout.scriptPubKey).sum

/-- The output loop of `CheckTransaction` from a partial sum. -/
def checkOutputs (tx : CTransaction) (nValueOut : Int64) : List CTxOut → Bool
  | [] => true
  | txout :: rest =>
      if txout.isEmpty && !tx.isCoinBase && !tx.isCoinStake then false
      else if txout.nValue < 0 then false
      else if maxMoney < txout.nValue then false
      else
        let nValueOut := nValueOut + txout.nValue
        if !moneyRange nValueOut then false else checkOutputs tx nValueOut rest

/-- The duplicate-input loop of `CheckTransaction`, with the set `vInOutPoints`. -/
def checkDuplicateInputs (vInOutPoints : List COutPoint) : List CTxIn → Bool
  | [] => true
  | txin :: rest =>
      if txin.prevout ∈ vInOutPoints then false
      else checkDuplicateInputs (txin.prevout :: vInOutPoints) rest

/-- `CTransaction::CheckTransaction`. -/
def checkTransaction (tx : CTransaction) : Bool :=
  if tx.vin.isEmpty then false
  else if tx.vout.isEmpty then false
  else if maxBlockSize < tx.getSerializeSize then false
  else if !tx.checkOutputs 0 tx.vout then false
  else if !checkDuplicateInputs [] tx.vin then false
  else if tx.isCoinBase then
    match tx.vin with
    | txin :: _ => 2 ≤ txin.scriptSig.length && txin.scriptSig.length ≤ 100
    | [] => false
  else tx.vin.all fun txin => !txin.prevout.isNull

/-- `CTransaction::GetMinFee`. -/
def getMinFee (tx : CTransaction) (nBlockSize : UInt32 := 1)
    (mode : GetMinFeeMode := .block) (nBytes : UInt32 := 0) : Int64 :=
  let nBaseFee := if mode = .relay then minRelayTxFee else minTxFee
  let nNewBlockSize := (nBlockSize + nBytes).toNat
  let nMinFee := (1 + Int64.ofNat (nBytes.toNat / 1000)) * nBaseFee
  let nMinFee :=
    if nMinFee < nBaseFee ∧ tx.vout.any (fun txout => txout.nValue < cent) then nBaseFee
    else nMinFee
  if nBlockSize ≠ 1 ∧ maxBlockSizeGen / 2 ≤ nNewBlockSize ∧ maxBlockSizeGen ≤ nNewBlockSize then
    maxMoney
  else
    let nMinFee :=
      if nBlockSize ≠ 1 ∧ maxBlockSizeGen / 2 ≤ nNewBlockSize then
        nMinFee * Int64.ofNat (maxBlockSizeGen / (maxBlockSizeGen - nNewBlockSize))
      else nMinFee
    if !moneyRange nMinFee then maxMoney else nMinFee

end CTransaction

end InfiniteRicks
