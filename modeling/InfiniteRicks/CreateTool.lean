import InfiniteRicks.CreateTransaction
import InfiniteRicks.TxTools

/-!
# The transaction tool

`infinitericks-tx -create` (`infinitericks-tx.cpp`) with `CreateRawTx`, `EncodeHexTx` and `DecodeHexTx`
(`txtools.cpp`). The arguments are those after the program's name, and the result is the transaction that
is printed; where the tool throws there is none. The tool is on the main network, and what it does with
floating-point numbers is a parameter.
-/

namespace InfiniteRicks

/-! ## Hexadecimal text -/

/-- `phexdigit`. -/
def phexdigit (c : UInt8) : Option UInt8 :=
  if 48 ≤ c ∧ c ≤ 57 then some (c - 48)
  else if 65 ≤ c ∧ c ≤ 70 then some (c - 55)
  else if 97 ≤ c ∧ c ≤ 102 then some (c - 87)
  else none

/-- `IsHex`. -/
def isHex (str : Bytes) : Bool :=
  str.all (fun c => (phexdigit c).isSome) && (decide (0 < str.length) && decide (str.length % 2 = 0))

/-- `ParseHex`. Space may stand between two bytes, and the first other character ends the data. -/
def parseHex : Bytes → Bytes
  | [] => []
  | c :: rest =>
      if isSpace c then parseHex rest
      else
        match rest with
        | [] => []
        | d :: rest =>
            match phexdigit c, phexdigit d with
            | some high, some low => (high <<< 4 ||| low) :: parseHex rest
            | _, _ => []

/-- `uint256::SetHex`. Of a longer text the last 64 digits count. -/
def UInt256.setHex (psz : Bytes) : UInt256 :=
  let psz := psz.dropWhile isSpace
  let psz := if psz.take 2 = text ['0', 'x'] ∨ psz.take 2 = text ['0', 'X'] then psz.drop 2 else psz
  BitVec.ofNat 256 ((psz.map phexdigit).takeWhile Option.isSome |>.foldl
    (fun value digit => 16 * value + ((digit.map UInt8.toNat).getD 0)) 0)

/-- `atoi`, which is `strtol` converted to an `int`. -/
def atoi (str : Bytes) : Int32 := (atoi64 str).toInt32

namespace TxTool

/-! ## Parameters of commands -/

/-- `ParseHash`. -/
def parseHash (str : Bytes) : Option UInt256 := if isHex str then some (UInt256.setHex str) else none

/-- `boost::split` at the colons. -/
def parts (arg : Bytes) : List Bytes := arg.splitOn 58

/-- `ParseIn`. -/
def parseIn (arg : Bytes) : Option COutPoint :=
  match parts arg with
  | [txid, vout] => (parseHash txid).map fun hash => ⟨hash, (atoi vout).toUInt32⟩
  | _ => none

/-- `ParseOutAddr`, with the text of the amount. -/
def parseOutAddr (arg : Bytes) : Option (Bytes × Bytes) :=
  match parts arg with
  | [amount, address] => some (amount, address)
  | _ => none

/-- `ParseSignPrevTxIn`. -/
def parseSignPrevTxIn (arg : Bytes) : Option (COutPoint × CScript) :=
  match parts arg with
  | [txid, vout, scriptPubKey] => do
      let hash ← parseHash txid
      if isHex scriptPubKey then some (⟨hash, (atoi vout).toUInt32⟩, parseHex scriptPubKey) else none
  | _ => none

/-- `mapSigHashValues`. -/
def mapSigHashValues : List (Bytes × Int32) :=
  [(text ['A', 'L', 'L'], sighashAll),
    (text ['A', 'L', 'L', '|', 'A', 'N', 'Y', 'O', 'N', 'E', 'C', 'A', 'N', 'P', 'A', 'Y'],
      sighashAll ||| sighashAnyoneCanPay),
    (text ['N', 'O', 'N', 'E'], sighashNone),
    (text ['N', 'O', 'N', 'E', '|', 'A', 'N', 'Y', 'O', 'N', 'E', 'C', 'A', 'N', 'P', 'A', 'Y'],
      sighashNone ||| sighashAnyoneCanPay),
    (text ['S', 'I', 'N', 'G', 'L', 'E'], sighashSingle),
    (text ['S', 'I', 'N', 'G', 'L', 'E', '|', 'A', 'N', 'Y', 'O', 'N', 'E', 'C', 'A', 'N', 'P', 'A', 'Y'],
      sighashSingle ||| sighashAnyoneCanPay)]

/-- `ParseSighash`. -/
def parseSighash (strHashType : Bytes) : Option Int32 := mapSigHashValues.lookup strHashType

/-! ## The names of the commands -/

def inName : Bytes := text ['i', 'n']
def outaddrName : Bytes := text ['o', 'u', 't', 'a', 'd', 'd', 'r']
def nversionName : Bytes := text ['n', 'v', 'e', 'r', 's', 'i', 'o', 'n']
def nlocktimeName : Bytes := text ['n', 'l', 'o', 'c', 'k', 't', 'i', 'm', 'e']
def delinName : Bytes := text ['d', 'e', 'l', 'i', 'n']
def deloutName : Bytes := text ['d', 'e', 'l', 'o', 'u', 't']
def signprevtxinName : Bytes :=
  text ['s', 'i', 'g', 'n', 'p', 'r', 'e', 'v', 't', 'x', 'i', 'n']
def keyName : Bytes := text ['k', 'e', 'y']
def sighashName : Bytes := text ['s', 'i', 'g', 'h', 'a', 's', 'h']
def signName : Bytes := text ['s', 'i', 'g', 'n']

end TxTool

open TxTool

/-- What a run of the tool takes from elsewhere. -/
structure TxToolEnv where
  crypto : SignCrypto
  signer : Nat → Signer
  Double : Type
  atof : Bytes → Double
  /-- `roundint64(amount * COIN)`. -/
  toAmount : Double → Int64
  /-- `GetAdjustedTime` where the first `nversion=` or `nlocktime=` makes a transaction. -/
  nTimeVariant : UInt32
  /-- `GetAdjustedTime` after the commands. -/
  nTimeNew : UInt32

/-- `CTransaction()`. -/
def CTransaction.new (nTime : UInt32) : CTransaction := ⟨1, nTime, [], [], 0⟩

/-! ## Raw transactions -/

/-- `EncodeHexTx`. -/
def encodeHexTx (tx : CTransaction) : Bytes := WalletDump.hexStr tx.serialize

/-- `DecodeHexTx`. -/
def decodeHexTx (strHex : Bytes) : Option CTransaction :=
  (CTransaction.unserialize (CDataStream.ofBytes (parseHex strHex))).map Prod.fst

namespace TxToolEnv

variable (env : TxToolEnv)

/-- `map<string, double>`. -/
abbrev Outputs := Std.ExtTreeMap Bytes env.Double compare

/-- `CBitcoinAddress(addressName)`. -/
def addressOf (addressName : Bytes) : CBase58Data := (CBase58Data.setString env.crypto.hash addressName).2

/-- The output for an address and an amount. -/
def txOutOf (output : Bytes × env.Double) : CTxOut :=
  ⟨env.toAmount output.2, CScript.setDestination (CBitcoinAddress.get false (env.addressOf output.1))⟩

/-- The output loop of `CreateRawTx`, with `setAddress` and `rawTx.vout`. -/
def rawOutputs : List (Bytes × env.Double) → List CBase58Data → List CTxOut → Option (List CTxOut)
  | [], _, vout => some vout
  | output :: rest, setAddress, vout =>
      let address := env.addressOf output.1
      if CBitcoinAddress.isValid false address = false then none
      else if address ∈ setAddress then none
      else if moneyRange (env.toAmount output.2) = false then none
      else rawOutputs rest (address :: setAddress) (vout ++ [env.txOutOf output])

/-- `CreateRawTx`. -/
def createRawTx (inputs : List COutPoint) (outputs : env.Outputs) : Option Bytes :=
  (env.rawOutputs outputs.toList [] []).map fun vout =>
    encodeHexTx { CTransaction.new env.nTimeNew with
      vin := inputs.map fun input => ⟨input, [], 0xffffffff⟩
      vout := vout }

end TxToolEnv

/-! ## Commands -/

/-- What `main` has collected. -/
structure ToolState (env : TxToolEnv) where
  fSign : Bool
  txVariants : List CTransaction
  inputs : List COutPoint
  outputs : env.Outputs
  mapPrevOut : PrevOuts
  keys : List Bytes
  nHashType : Int32

namespace ToolState

variable {env : TxToolEnv}

def init : ToolState env := ⟨false, [], [], ∅, fun _ => none, [], sighashAll⟩

/-- An assignment to `txVariants[0]`, which is made where it is missing. -/
def setVariant (s : ToolState env) (assign : CTransaction → CTransaction) : ToolState env :=
  let txVariants := if s.txVariants.isEmpty then [CTransaction.new env.nTimeVariant] else s.txVariants
  { s with txVariants := txVariants.modifyHead assign }

/-- A command with a name and a value. -/
def assign (s : ToolState env) (name value : Bytes) : Option (ToolState env) :=
  if name = inName then
    (parseIn value).map fun input => { s with inputs := s.inputs ++ [input] }
  else if name = outaddrName then
    (parseOutAddr value).map fun output => { s with outputs := s.outputs.insert output.2 (env.atof output.1) }
  else if name = signprevtxinName then
    (parseSignPrevTxIn value).map fun prev =>
      { s with mapPrevOut := Function.update s.mapPrevOut prev.1 (some prev.2) }
  else if name = keyName then some { s with keys := s.keys ++ [value] }
  else if name = sighashName then (parseSighash value).map fun nHashType => { s with nHashType := nHashType }
  else if name = nversionName then some (s.setVariant fun tx => { tx with nVersion := atoi value })
  else if name = nlocktimeName then some (s.setVariant fun tx => { tx with nLockTime := (atoi value).toUInt32 })
  else if name = signName then some { s with fSign := true }
  else none

/-- The loop's body with `-create`. An argument that has no equals sign and is no option is passed over. -/
def argument (s : ToolState env) (arg : Bytes) : Option (ToolState env) :=
  if arg.head? = some 45 then some s
  else if 61 ∈ arg then
    s.assign (arg.takeWhile fun c => decide (c ≠ 61)) ((arg.dropWhile fun c => decide (c ≠ 61)).drop 1)
  else some s

/-- The transaction that is made from what was collected. -/
def assemble (s : ToolState env) : Option CTransaction :=
  if !s.inputs.isEmpty || !s.outputs.isEmpty then (env.createRawTx s.inputs s.outputs).bind decodeHexTx
  else some (s.txVariants.head?.getD (CTransaction.new env.nTimeNew))

/-- The transaction is signed where that was asked for. -/
def finish (s : ToolState env) (tx : CTransaction) : Option CTransaction :=
  if s.fSign && !s.keys.isEmpty then
    (signTxWithKeys env.crypto false tx s.mapPrevOut s.keys s.nHashType env.signer).map Prod.fst
  else some tx

end ToolState

/-- `main` with `-create` and the arguments after it. -/
def createTool (env : TxToolEnv) (args : List Bytes) : Option CTransaction := do
  let s ← args.foldlM ToolState.argument (ToolState.init : ToolState env)
  let tx ← s.assemble
  s.finish tx

end InfiniteRicks
