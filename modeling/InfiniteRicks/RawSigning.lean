import InfiniteRicks.SendMany
import InfiniteRicks.TxToolsSpec

/-!
# Merging signatures

`CombineMultisig` and `CombineSignatures` (`script.cpp`), `CombineTransactions` (`txtools.cpp`) and
`signrawtransaction` (`rpcrawtransaction.cpp`). The stacks are listed from the top.
-/

namespace InfiniteRicks

/-! ## Two scripts -/

/-- `PushAll`, from the bottom of the stack. -/
def pushAll (values : List Bytes) : CScript := values.reverse.flatMap CScript.pushData

/-- The insertion into a `set<valtype>`. -/
def insertSig (sig : Bytes) : List Bytes → List Bytes
  | [] => [sig]
  | first :: rest =>
      if sig < first then sig :: first :: rest
      else if first < sig then first :: insertSig sig rest
      else first :: rest

/-- `allsigs`. -/
def allSigs (sigs1 sigs2 : List Bytes) : List Bytes :=
  ((sigs1 ++ sigs2).filter fun sig => !sig.isEmpty).foldl (fun allsigs sig => insertSig sig allsigs) []

/-- The loop over the public keys for one signature: the first key without a signature that it fits gets it. -/
def assignSig (check : Bytes → Bytes → Bool) (sig : Bytes) : List Bytes → (Bytes → Option Bytes) → Bytes → Option Bytes
  | [], sigs => sigs
  | pubkey :: rest, sigs =>
      if (sigs pubkey).isSome then assignSig check sig rest sigs
      else if check sig pubkey then Function.update sigs pubkey (some sig)
      else assignSig check sig rest sigs

/-- `CombineMultisig`, with the `CheckSig` of its script and its transaction. -/
def combineMultisig (check : Bytes → Bytes → Bool) (vSolutions sigs1 sigs2 : List Bytes) : CScript :=
  let nSigsRequired := ((vSolutions.head?.getD []).head?.getD 0).toNat
  let pubkeys := (vSolutions.drop 1).dropLast
  let sigs := (allSigs sigs1 sigs2).foldl (fun sigs sig => assignSig check sig pubkeys sigs) fun _ => none
  let found := (pubkeys.filterMap sigs).take nSigsRequired
  [0] ++ found.flatMap CScript.pushData ++ List.replicate (nSigsRequired - found.length) 0

section Combine

variable (crypto : SignCrypto)

/-- `CombineSignatures` of two stacks. -/
def combineStacks (txTo : CTransaction) (nIn : Nat) (scriptPubKey : CScript) (txType : TxnOutType)
    (vSolutions sigs1 sigs2 : List Bytes) : CScript :=
  match txType with
  | .nonstandard | .nullData => if sigs2.length ≤ sigs1.length then pushAll sigs1 else pushAll sigs2
  | .pubKey | .pubKeyHash => if (sigs1.getLast?.getD []).isEmpty then pushAll sigs2 else pushAll sigs1
  | .scriptHash =>
      match sigs1, sigs2 with
      | [], _ => pushAll sigs2
      | spk :: rest1, [] => if spk.isEmpty then pushAll [] else pushAll (spk :: rest1)
      | spk :: rest1, top2 :: rest2 =>
          if spk.isEmpty then pushAll (top2 :: rest2)
          else if top2.isEmpty then pushAll (spk :: rest1)
          else
            let (_, txType2, vSolutions2) := solver spk
            combineStacks txTo nIn spk txType2 vSolutions2 rest1 rest2 ++ CScript.pushData spk
  | .multisig =>
      combineMultisig (fun sig pubkey => checkSig crypto.scripts ⟨sig, pubkey, scriptPubKey, txTo, nIn, 0⟩)
        vSolutions sigs1 sigs2

/-- `CombineSignatures`. What the scripts push is found with a transaction that has no inputs. -/
def combineSignatures (scriptPubKey : CScript) (txTo : CTransaction) (nIn : Nat) (scriptSig1 scriptSig2 : CScript) :
    CScript :=
  let (_, txType, vSolutions) := solver scriptPubKey
  let pushed := fun scriptSig => (evalScript ⟨crypto.scripts, ⟨1, 0, [], [], 0⟩, 0, 0⟩ [] scriptSig).2.stack
  combineStacks crypto txTo nIn scriptPubKey txType vSolutions (pushed scriptSig1) (pushed scriptSig2)

/-! ## Whole transactions -/

/-- The `scriptSig` of an input, merged with another one. -/
def mergeScript (prevPubKey : CScript) (i : Nat) (tx : CTransaction) (scriptSig : CScript) : CTransaction :=
  tx.setScriptSig i (combineSignatures crypto prevPubKey tx i ((tx.scriptSigAt i).getD []) scriptSig)

/-- A variant in `CombineTransactions`, which may have fewer inputs. -/
def combineVariant (prevPubKey : CScript) (i : Nat) (tx txv : CTransaction) : CTransaction :=
  match txv.vin[i]? with
  | some txin => mergeScript crypto prevPubKey i tx txin.scriptSig
  | none => tx

/-- One input in `CombineTransactions`. -/
def combineInput (mapPrevOut : PrevOuts) (txVariants : List CTransaction) (mergedTx : CTransaction) (i : Nat) :
    CTransaction :=
  match registered mapPrevOut mergedTx i with
  | none => mergedTx
  | some prevPubKey => txVariants.foldl (combineVariant crypto prevPubKey i) mergedTx

/-- `CombineTransactions`; without a transaction it throws. -/
def combineTransactions (txVariants : List CTransaction) (mapPrevOut : PrevOuts) : Option CTransaction :=
  match txVariants with
  | [] => none
  | first :: _ => some ((List.range first.vin.length).foldl (combineInput crypto mapPrevOut txVariants) first)

end Combine

/-! ## `signrawtransaction` -/

def rpcDeserializationError : Int := -22

/-- How a call ends without a result. `outOfRange` reads an input of a variant that it does not have. -/
inductive SignFailure where
  | error (e : JSONRPCError)
  | outOfRange

/-- The previous outputs that are found for the inputs. `fetched` is what `FetchInputs` gets for a single one. -/
def fetchPrevOuts (fetched : UInt256 → Option CTransaction) (vin : List CTxIn) : PrevOuts :=
  vin.foldl (fun mapPrevOut txin =>
    match (fetched txin.prevout.hash).bind fun tx => tx.vout[txin.prevout.n.toNat]? with
    | some txout => Function.update mapPrevOut txin.prevout (some txout.scriptPubKey)
    | none => mapPrevOut) fun _ => none

/-- The previous outputs of the request. The text of the error also has the two scripts. -/
def addPrevTxs : List (COutPoint × CScript) → PrevOuts → Except SignFailure PrevOuts
  | [], mapPrevOut => .ok mapPrevOut
  | (outpoint, scriptPubKey) :: rest, mapPrevOut =>
      match mapPrevOut outpoint with
      | some known =>
          if known ≠ scriptPubKey then
            .error (.error ⟨rpcDeserializationError, text "Previous output scriptPubKey mismatch:\n".toList⟩)
          else addPrevTxs rest mapPrevOut
      | none => addPrevTxs rest (Function.update mapPrevOut outpoint (some scriptPubKey))

/-- A variant in the merge loop, whose input is read without a test. -/
def mergeVariant (crypto : SignCrypto) (prevPubKey : CScript) (i : Nat) (tx txv : CTransaction) :
    Except SignFailure CTransaction :=
  match txv.vin[i]? with
  | some txin => .ok (mergeScript crypto prevPubKey i tx txin.scriptSig)
  | none => .error .outOfRange

namespace SignCall

variable {crypto : SignCrypto} (call : SignCall crypto)

/-- The loop that signs and merges, over so many inputs from `i` on: `mergedTx` and `fComplete`. -/
def signMerge (txVariants : List CTransaction) :
    Nat → Nat → CTransaction → Bool → Except SignFailure (CTransaction × Bool)
  | 0, _, mergedTx, fComplete => .ok (mergedTx, fComplete)
  | left + 1, i, mergedTx, fComplete =>
      match registered call.mapPrevOut mergedTx i with
      | none => signMerge txVariants left (i + 1) mergedTx false
      | some prevPubKey => do
          let mergedTx ← txVariants.foldlM (mergeVariant crypto prevPubKey i) (call.signInput prevPubKey i mergedTx)
          signMerge txVariants left (i + 1) mergedTx (fComplete && verifyInput crypto prevPubKey i mergedTx)

end SignCall

/-- `signrawtransaction` of decoded transactions: `mergedTx` and `fComplete`. -/
def signrawtransaction {crypto : SignCrypto} (txVariants : List CTransaction)
    (fetched : UInt256 → Option CTransaction) (prevTxs : List (COutPoint × CScript))
    (keystore : CKeyStore crypto.toKeyCrypto) (nHashType : Int32) (signer : Nat → Signer) :
    Except SignFailure (CTransaction × Bool) :=
  match txVariants with
  | [] => .error (.error ⟨rpcDeserializationError, text "Missing transaction".toList⟩)
  | first :: _ => do
      let mapPrevOut ← addPrevTxs prevTxs (fetchPrevOuts fetched first.vin)
      let call := SignCall.mk mapPrevOut keystore signer nHashType
      call.signMerge txVariants first.vin.length 0 first true

end InfiniteRicks
