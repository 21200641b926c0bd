import InfiniteRicks.Keystore
import InfiniteRicks.Solver

/-!
# Signing

`Sign1`, `SignN`, `Solver` with a key store and `SignSignature` (`script.cpp`). A signature
depends on a random number, so a signer is told which of the signatures of a script it makes.
-/

namespace InfiniteRicks

/-- What signing takes from OpenSSL and the hash functions. -/
structure SignCrypto extends KeyCrypto where
  ripemd160 : Bytes → BitVec 160
  sha1 : Bytes → BitVec 160
  sha256 : Bytes → BitVec 256
  /-- `CKey::Verify` with the key that `SetPubKey` has set. -/
  verify : Bytes → UInt256 → Bytes → Bool

/-- What scripts take from it. -/
def SignCrypto.scripts (crypto : SignCrypto) : Crypto where
  hash := crypto.hash
  hash160 := crypto.hash160
  ripemd160 := crypto.ripemd160
  sha1 := crypto.sha1
  sha256 := crypto.sha256
  setPubKey vchPubKey := (crypto.o2i vchPubKey).isSome
  verify := crypto.verify

/-- `CKey::Sign` of a secret, for the signature with a number. -/
abbrev Signer := Nat → Bytes → UInt256 → Option Bytes

/-- The functions of a `CKeyStore` that signing uses. -/
structure CKeyStore (crypto : KeyCrypto) where
  getKey : BitVec 160 → Option (CKey crypto)
  getCScript : BitVec 160 → Option CScript

/-- `txTo.vin[nIn].scriptSig` is set. -/
def CTransaction.setScriptSig (txTo : CTransaction) (nIn : Nat) (scriptSig : CScript) : CTransaction :=
  { txTo with vin := txTo.vin.modify nIn fun txin => { txin with scriptSig := scriptSig } }

namespace CKeyStore

section Store

variable {crypto : KeyCrypto} (store : CKeyStore crypto) (signer : Signer)

/-- `GetPubKey`. -/
def getPubKey (address : BitVec 160) : Option Bytes := (store.getKey address).bind CKey.getPubKey

/-- `Sign1`: what it returns and `scriptSigRet`. -/
def sign1 (address : BitVec 160) (hash : UInt256) (nHashType : Int32) (number : Nat) (scriptSigRet : CScript) :
    Bool × CScript :=
  match (store.getKey address).bind fun key => key.secret.bind fun secret => signer number secret hash with
  | none => (false, scriptSigRet)
  | some vchSig => (true, scriptSigRet ++ CScript.pushData (vchSig ++ [nHashType.toUInt32.toUInt8]))

/-- The loop of `SignN` over the public keys: `nSigned` and `scriptSigRet`. -/
def signNLoop (hash : UInt256) (nHashType : Int32) (nRequired : Nat) :
    List Bytes → Nat → Nat → CScript → Nat × CScript
  | [], _, nSigned, scriptSigRet => (nSigned, scriptSigRet)
  | pubkey :: rest, number, nSigned, scriptSigRet =>
      if nSigned < nRequired then
        let (signed, scriptSigRet) := store.sign1 signer (crypto.hash160 pubkey) hash nHashType number scriptSigRet
        signNLoop hash nHashType nRequired rest (number + 1) (if signed then nSigned + 1 else nSigned) scriptSigRet
      else (nSigned, scriptSigRet)

/-- `SignN`. -/
def signN (multisigdata : List Bytes) (hash : UInt256) (nHashType : Int32) (scriptSigRet : CScript) :
    Bool × CScript :=
  let nRequired := ((multisigdata.head?.getD []).head?.getD 0).toNat
  let (nSigned, scriptSigRet) :=
    store.signNLoop signer hash nHashType nRequired (multisigdata.drop 1).dropLast 0 0 scriptSigRet
  (decide (nSigned = nRequired), scriptSigRet)

/-- `Solver` with a key store: what it returns, `scriptSigRet` and `whichTypeRet`. -/
def solver (scriptPubKey : CScript) (hash : UInt256) (nHashType : Int32) : Bool × CScript × TxnOutType :=
  let (solved, whichTypeRet, vSolutions) := InfiniteRicks.solver scriptPubKey
  if !solved then (false, [], whichTypeRet)
  else
    let front := vSolutions.head?.getD []
    match whichTypeRet with
    | .nonstandard | .nullData => (false, [], whichTypeRet)
    | .pubKey =>
        let (signed, scriptSigRet) := store.sign1 signer (crypto.hash160 front) hash nHashType 0 []
        (signed, scriptSigRet, whichTypeRet)
    | .pubKeyHash =>
        let keyID := BitVec.ofNat 160 (CScript.littleEndian front)
        let (signed, scriptSigRet) := store.sign1 signer keyID hash nHashType 0 []
        if !signed then (false, scriptSigRet, whichTypeRet)
        else (true, scriptSigRet ++ CScript.pushData ((store.getPubKey keyID).getD []), whichTypeRet)
    | .scriptHash =>
        match store.getCScript (BitVec.ofNat 160 (CScript.littleEndian front)) with
        | none => (false, [], whichTypeRet)
        | some redeemScript => (true, redeemScript, whichTypeRet)
    | .multisig =>
        let (signed, scriptSigRet) := store.signN signer vSolutions hash nHashType [0]
        (signed, scriptSigRet, whichTypeRet)

end Store

section Sign

variable {crypto : SignCrypto} (store : CKeyStore crypto.toKeyCrypto) (signer : Signer)

/-- What `SignSignature` puts into the input, and whether it goes on to test it. -/
def signedScript (fromPubKey : CScript) (txTo : CTransaction) (nIn : Nat) (nHashType : Int32) : Bool × CScript :=
  match store.solver signer fromPubKey (signatureHash crypto.hash fromPubKey txTo nIn nHashType) nHashType with
  | (false, scriptSig, _) => (false, scriptSig)
  | (true, subscript, .scriptHash) =>
      -- The subscript stands in the input while the second hash is computed.
      let hash2 := signatureHash crypto.hash subscript (txTo.setScriptSig nIn subscript) nIn nHashType
      let (solved, scriptSig, subType) := store.solver signer subscript hash2 nHashType
      (solved && decide (subType ≠ .scriptHash), scriptSig ++ CScript.pushData subscript)
  | (true, scriptSig, _) => (true, scriptSig)

/-- `SignSignature`: what it returns, and `txTo`. -/
def signSignature (fromPubKey : CScript) (txTo : CTransaction) (nIn : Nat) (nHashType : Int32) :
    Bool × CTransaction :=
  let (solved, scriptSig) := store.signedScript signer fromPubKey txTo nIn nHashType
  let txTo := txTo.setScriptSig nIn scriptSig
  (solved && verifyScript ⟨crypto.scripts, txTo, nIn, 0⟩ scriptSig fromPubKey, txTo)

end Sign

end CKeyStore

end InfiniteRicks
