import InfiniteRicks.SigningSpec
import InfiniteRicks.WalletDump

/-!
# Signing with keys

`SignTxWithKeys` (`txtools.cpp`). Every registered input loses the `scriptSig` it had before
it is signed with the keys of this call, and what a signed input lacks is not taken from anywhere
else.
-/

namespace InfiniteRicks

/-- `map<COutPoint, CScript>`. -/
abbrev PrevOuts := COutPoint → Option CScript

/-- `fHashSingle`. -/
def fHashSingle (nHashType : Int32) : Bool := nHashType &&& ~~~sighashAnyoneCanPay = sighashSingle

/-- The first loop of `SignTxWithKeys`. -/
def addSecrets (crypto : KeyCrypto) (fTestNet : Bool) : List Bytes → CCryptoKeyStore → Option CCryptoKeyStore
  | [], keystore => some keystore
  | keyStr :: rest, keystore =>
      match CBitcoinSecret.setString crypto.hash fTestNet keyStr with
      | (false, _) => none
      | (true, vchSecret) => do
          let key : CKey crypto ←
            CKey.fresh.setSecret (CBitcoinSecret.getSecret vchSecret).1 (CBitcoinSecret.getSecret vchSecret).2
          let added ← keystore.addBasicKey key
          addSecrets crypto fTestNet rest added.2

/-- A `CBasicKeyStore` with keys and no scripts. -/
def CCryptoKeyStore.basic (crypto : KeyCrypto) (keystore : CCryptoKeyStore) : CKeyStore crypto where
  getKey address :=
    match keystore.getKey address CKey.fresh with
    | some (true, key) => some key
    | _ => none
  getCScript _ := none

/-- A call of `SignTxWithKeys`. A signer tells the signatures of an input apart by their number. -/
structure SignCall (crypto : SignCrypto) where
  mapPrevOut : PrevOuts
  keystore : CKeyStore crypto.toKeyCrypto
  signer : Nat → Signer
  nHashType : Int32

namespace SignCall

variable {crypto : SignCrypto} (call : SignCall crypto)

/-- A registered input is cleared and signed. -/
def signInput (prevPubKey : CScript) (i : Nat) (tx : CTransaction) : CTransaction :=
  let tx := tx.setScriptSig i []
  if !fHashSingle call.nHashType || decide (i < tx.vout.length) then
    (call.keystore.signSignature (call.signer i) prevPubKey tx i call.nHashType).2
  else tx

/-- `VerifyScript` of an input. -/
def verifyInput (crypto : SignCrypto) (prevPubKey : CScript) (i : Nat) (tx : CTransaction) : Bool :=
  verifyScript ⟨crypto.scripts, tx, i, 0⟩ ((tx.vin[i]?.map CTxIn.scriptSig).getD []) prevPubKey

/-- The second loop of `SignTxWithKeys`, over so many inputs from `i` on: `tx` and `fComplete`. -/
def signLoop : Nat → Nat → CTransaction → Bool → CTransaction × Bool
  | 0, _, tx, fComplete => (tx, fComplete)
  | left + 1, i, tx, fComplete =>
      match (tx.vin[i]?).bind fun txin => call.mapPrevOut txin.prevout with
      | none => signLoop left (i + 1) tx false
      | some prevPubKey =>
          let tx := call.signInput prevPubKey i tx
          signLoop left (i + 1) tx (fComplete && verifyInput crypto prevPubKey i tx)

end SignCall

/-- `SignTxWithKeys`: `tx` and `fComplete`, or an exception. -/
def signTxWithKeys (crypto : SignCrypto) (fTestNet : Bool) (tx : CTransaction) (mapPrevOut : PrevOuts)
    (keys : List Bytes) (nHashType : Int32) (signer : Nat → Signer) : Option (CTransaction × Bool) :=
  (addSecrets crypto.toKeyCrypto fTestNet keys .new).map fun keystore =>
    SignCall.signLoop ⟨mapPrevOut, keystore.basic crypto.toKeyCrypto, signer, nHashType⟩ tx.vin.length 0 tx true

end InfiniteRicks
