import InfiniteRicks.KeystoreSpec

/-!
# The passphrase of a wallet

`EncryptWallet`, `Lock`, `Unlock` and `ChangeWalletPassphrase` (`wallet.cpp`) on the key store
and the master keys of a wallet. The wallet file takes every write. How many iterations a
derivation may have is measured with a clock in the source, so the number is an input here; the
derivations that are only timed leave nothing behind. A call that throws, or that ends the
program, gives `none`.
-/

namespace InfiniteRicks

/-- `CMasterKey`. -/
structure CMasterKey where
  vchCryptedKey : Bytes
  vchSalt : Bytes
  nDerivationMethod : UInt32
  nDeriveIterations : UInt32

/-- `CMasterKey(nDerivationMethodIndex)`. -/
def CMasterKey.new (nDerivationMethodIndex : UInt32) : CMasterKey :=
  if nDerivationMethodIndex = 1 then ⟨[], [], 1, 10000⟩ else ⟨[], [], 0, 25000⟩

/-- What wallets take from OpenSSL and scrypt. -/
structure WalletCrypto extends KeyCrypto where
  /-- `EVP_BytesToKey` of a method, a salt, a number of rounds and a passphrase, for method 1 after
  `scrypt_salted_multiround_hash`: the key and the initialization vector. -/
  bytesToKey : UInt32 → Bytes → UInt32 → Bytes → Bytes × UInt256

/-- `WALLET_CRYPTO_SALT_SIZE`. -/
def walletCryptoSaltSize : Nat := 8

/-- The smallest number of iterations. -/
def leastIterations : UInt32 := 25000

/-- The key store and the master keys of a `CWallet`. -/
structure CryptedWallet where
  keystore : CCryptoKeyStore
  /-- By their ids, which grow. -/
  mapMasterKeys : List (UInt32 × CMasterKey)
  nMasterKeyMaxID : UInt32

namespace CryptedWallet

/-- A wallet without keys. -/
def new : CryptedWallet := ⟨.new, [], 0⟩

def isLocked (w : CryptedWallet) : Bool := w.keystore.isLocked

/-- `CCryptoKeyStore::Lock`. -/
def lock (w : CryptedWallet) : CryptedWallet := { w with keystore := w.keystore.lock.2 }

variable (crypto : WalletCrypto)

/-- `CCrypter::SetKeyFromPassphrase`. -/
def setKeyFromPassphrase (strKeyData : Bytes) (record : CMasterKey) : Option (Bytes × UInt256) :=
  if record.nDeriveIterations < 1 ∨ record.vchSalt.length ≠ walletCryptoSaltSize then none
  else if record.nDerivationMethod = 0 ∨ record.nDerivationMethod = 1 then
    some (crypto.bytesToKey record.nDerivationMethod record.vchSalt record.nDeriveIterations strKeyData)
  else none

/-- The master key that a passphrase decrypts. -/
def openRecord (strWalletPassphrase : Bytes) (record : CMasterKey) : Option Bytes :=
  (setKeyFromPassphrase crypto strWalletPassphrase record).bind fun key =>
    crypto.decrypt key.1 key.2 record.vchCryptedKey

/-- The master key encrypted under a passphrase. -/
def sealRecord (strWalletPassphrase vMasterKey : Bytes) (record : CMasterKey) : Option CMasterKey :=
  (setKeyFromPassphrase crypto strWalletPassphrase record).map fun key =>
    { record with vchCryptedKey := crypto.encrypt key.1 key.2 vMasterKey }

/-- The loop of `Unlock`. -/
def unlockRecords (strWalletPassphrase : Bytes) :
    List (UInt32 × CMasterKey) → CCryptoKeyStore → Option (Bool × CCryptoKeyStore)
  | [], s => some (false, s)
  | (_, record) :: rest, s =>
      match openRecord crypto strWalletPassphrase record with
      | none => some (false, s)
      | some vMasterKey =>
          match s.unlock crypto.toKeyCrypto vMasterKey with
          | none => none
          | some (true, s) => some (true, s)
          | some (false, s) => unlockRecords strWalletPassphrase rest s

/-- `Unlock`. -/
def unlock (w : CryptedWallet) (strWalletPassphrase : Bytes) : Option (Bool × CryptedWallet) :=
  if w.isLocked = false then some (false, w)
  else (unlockRecords crypto strWalletPassphrase w.mapMasterKeys w.keystore).map fun result =>
    (result.1, { w with keystore := result.2 })

/-- The loop of `ChangeWalletPassphrase`, with the number of iterations that its clock leads to. A record is changed
in place, in two steps. -/
def changeRecords (strOldWalletPassphrase strNewWalletPassphrase : Bytes) (measured : UInt32) :
    List (UInt32 × CMasterKey) → CCryptoKeyStore → Option (Bool × List (UInt32 × CMasterKey) × CCryptoKeyStore)
  | [], s => some (false, [], s)
  | (id, record) :: rest, s =>
      match openRecord crypto strOldWalletPassphrase record with
      | none => some (false, (id, record) :: rest, s)
      | some vMasterKey =>
          match s.unlock crypto.toKeyCrypto vMasterKey with
          | none => none
          | some (false, s) =>
              (changeRecords strOldWalletPassphrase strNewWalletPassphrase measured rest s).map fun result =>
                (result.1, (id, record) :: result.2.1, result.2.2)
          | some (true, s) =>
              let record := { record with nDeriveIterations := max measured leastIterations }
              match sealRecord crypto strNewWalletPassphrase vMasterKey record with
              | none => some (false, (id, record) :: rest, s)
              | some record => some (true, (id, record) :: rest, s)

/-- `ChangeWalletPassphrase`. -/
def changeWalletPassphrase (w : CryptedWallet) (strOldWalletPassphrase strNewWalletPassphrase : Bytes) (measured : UInt32) :
    Option (Bool × CryptedWallet) :=
  let fWasLocked := w.isLocked
  (changeRecords crypto strOldWalletPassphrase strNewWalletPassphrase measured w.mapMasterKeys
    w.keystore.lock.2).map fun (done, records, s) =>
      (done, { w with mapMasterKeys := records, keystore := if done && fWasLocked then s.lock.2 else s })

/-- `AddKey`. -/
def addKey (w : CryptedWallet) (key : PrivateKey) : Option (Bool × CryptedWallet) :=
  (w.keystore.addKey (key.toCKey crypto.toKeyCrypto)).map fun result => (result.1, { w with keystore := result.2 })

/-- `NewKeyPool`, with the keys that it generates. -/
def newKeyPool (keys : List PrivateKey) (w : CryptedWallet) : Option CryptedWallet :=
  if w.isLocked then some w
  else keys.foldlM (fun w key => (w.addKey crypto key).bind fun result => if result.1 then some result.2 else none) w

/-- What `EncryptWallet` draws and measures. -/
structure EncryptDraw where
  vMasterKey : Bytes
  vchSalt : Bytes
  masterSize : vMasterKey.length = walletCryptoKeySize
  saltSize : vchSalt.length = walletCryptoSaltSize
  nDerivationMethodIndex : UInt32
  measured : UInt32
  newKeys : List PrivateKey

/-- `EncryptWallet`. -/
def encryptWallet (w : CryptedWallet) (strWalletPassphrase : Bytes) (drawn : EncryptDraw) : Option (Bool × CryptedWallet) :=
  if w.keystore.isCrypted then some (false, w)
  else
    let kMasterKey := { CMasterKey.new drawn.nDerivationMethodIndex with
      vchSalt := drawn.vchSalt, nDeriveIterations := max drawn.measured leastIterations }
    match sealRecord crypto strWalletPassphrase drawn.vMasterKey kMasterKey with
    | none => some (false, w)
    | some kMasterKey =>
        let w := { w with
          nMasterKeyMaxID := w.nMasterKeyMaxID + 1
          mapMasterKeys := w.mapMasterKeys ++ [(w.nMasterKeyMaxID + 1, kMasterKey)] }
        match w.keystore.encryptKeys crypto.toKeyCrypto drawn.vMasterKey with
        | some (true, s) => do
            let (_, w) ← ({ w with keystore := s } : CryptedWallet).lock.unlock crypto strWalletPassphrase
            let w ← newKeyPool crypto drawn.newKeys w
            some (true, w.lock)
        | _ => none

end CryptedWallet

/-- A call that may change what unlocks a wallet. -/
inductive PassphraseEvent where
  | addKey (key : PrivateKey)
  | encryptWallet (strWalletPassphrase : Bytes) (drawn : CryptedWallet.EncryptDraw)
  | lock
  | unlock (strWalletPassphrase : Bytes)
  | changeWalletPassphrase (strOldWalletPassphrase strNewWalletPassphrase : Bytes) (measured : UInt32)

namespace PassphraseEvent

def step (crypto : WalletCrypto) (w : CryptedWallet) : PassphraseEvent → Option (Bool × CryptedWallet)
  | addKey key => w.addKey crypto key
  | encryptWallet strWalletPassphrase drawn => w.encryptWallet crypto strWalletPassphrase drawn
  | lock => some (w.keystore.lock.1, w.lock)
  | unlock strWalletPassphrase => w.unlock crypto strWalletPassphrase
  | changeWalletPassphrase strOldWalletPassphrase strNewWalletPassphrase measured =>
      w.changeWalletPassphrase crypto strOldWalletPassphrase strNewWalletPassphrase measured

/-- The passphrase that the wallet is to have after a call, from the one before and what the call returned. -/
def passphrase (before : Option Bytes) (done : Bool) : PassphraseEvent → Option Bytes
  | encryptWallet strWalletPassphrase _ => if done then some strWalletPassphrase else before
  | changeWalletPassphrase _ strNewWalletPassphrase _ => if done then some strNewWalletPassphrase else before
  | _ => before

end PassphraseEvent

namespace CryptedWallet

variable (crypto : WalletCrypto)

/-- Under the key of any other passphrase a master key is not decrypted, or to a key that does not unlock. -/
def WrongKeyFails (w : CryptedWallet) (passphrase : Option Bytes) : Prop :=
  ∀ entry ∈ w.mapMasterKeys, ∀ other, passphrase ≠ some other → ∀ opened,
    openRecord crypto other entry.2 = some opened →
      CCryptoKeyStore.opensFirst crypto.toKeyCrypto opened w.keystore.firstCrypted = some false

/-- The wallets that calls lead to, with their passphrases. -/
inductive Reached : CryptedWallet → Option Bytes → Prop
  | start : Reached CryptedWallet.new none
  | event {w after : CryptedWallet} {passphrase : Option Bytes} {done : Bool} (event : PassphraseEvent)
      (reached : Reached w passphrase) (stepped : event.step crypto w = some (done, after))
      (ideal : after.WrongKeyFails crypto (event.passphrase passphrase done)) :
      Reached after (event.passphrase passphrase done)

/-- A passphrase unlocks the wallet once it is locked. -/
def Unlocks (w : CryptedWallet) (strWalletPassphrase : Bytes) : Prop :=
  ∃ after, w.lock.unlock crypto strWalletPassphrase = some (true, after)

/-- A call that fails changes neither the lock state nor what unlocks the wallet. A call that succeeds keeps the lock
state; the new passphrase unlocks the wallet then, and another old one does not. -/
structure AtomicChange (w : CryptedWallet) (strOldWalletPassphrase strNewWalletPassphrase : Bytes) (done : Bool)
    (after : CryptedWallet) : Prop where
  failed : done = false → after.isLocked = w.isLocked ∧ ∀ other, after.Unlocks crypto other ↔ w.Unlocks crypto other
  changed : done = true → strOldWalletPassphrase ≠ strNewWalletPassphrase → after.isLocked = w.isLocked ∧
    after.Unlocks crypto strNewWalletPassphrase ∧ ¬after.Unlocks crypto strOldWalletPassphrase

end CryptedWallet

end InfiniteRicks
