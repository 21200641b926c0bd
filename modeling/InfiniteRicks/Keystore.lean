import InfiniteRicks.BigNum
import InfiniteRicks.Script
import Mathlib.Data.List.AList
import Mathlib.Data.List.MinMax

/-!
# The key store

`CKey` as far as key stores use it (`key.cpp`), `EncryptSecret` and `DecryptSecret`
(`crypter.cpp`), and `CCryptoKeyStore` (`keystore.cpp`). A function that can throw
`key_error` gives `none` there.
-/

namespace InfiniteRicks

/-- What keys take from OpenSSL and the hash functions. A point is the public half of a key. -/
structure KeyCrypto where
  Point : Type
  /-- `EC_KEY_regenerate_key`: the point of a secret. -/
  regenerate : Bytes → Point
  /-- `i2o_ECPublicKey`, in the compressed form or not. -/
  i2o : Point → Bool → Bytes
  /-- `o2i_ECPublicKey`: the point and its form. -/
  o2i : Bytes → Option (Point × Bool)
  /-- `d2i_ECPrivateKey` and `EC_KEY_check_key`: the secret and the form of its public key. -/
  d2i : Bytes → Option (Bytes × Bool)
  /-- `Hash` -/
  hash : Bytes → UInt256
  /-- `Hash160` -/
  hash160 : Bytes → BitVec 160
  /-- AES-256-CBC, with the key and the initialization vector. -/
  encrypt : Bytes → UInt256 → Bytes → Bytes
  decrypt : Bytes → UInt256 → Bytes → Option Bytes

/-- `vchMaxModOrder`: the order of the generator of secp256k1 minus 1. -/
def maxModOrder : Nat := 0xFFFFFFFFFFFFFFFFFFFFFFFFFFFFFFFEBAAEDCE6AF48A03BBFD25E8CD0364140

/-- `WALLET_CRYPTO_KEY_SIZE`. -/
def walletCryptoKeySize : Nat := 32

/-- A `CKey`: the fields of its `EC_KEY` and its flags. -/
structure CKey (crypto : KeyCrypto) where
  secret : Option Bytes
  point : Option crypto.Point
  /-- The conversion form of the `EC_KEY` is the compressed one. -/
  compressed : Bool
  fSet : Bool
  fCompressedPubKey : Bool

namespace CKey

variable {crypto : KeyCrypto}

/-- A fresh key, which is also the state after `Reset`. -/
def fresh : CKey crypto := ⟨none, none, false, false, false⟩

def setCompressedPubKey (key : CKey crypto) : CKey crypto :=
  { key with compressed := true, fCompressedPubKey := true }

/-- `MakeNewKey`, with the secret that it draws. -/
def makeNewKey (key : CKey crypto) (drawn : Bytes) (fCompressed : Bool) : CKey crypto :=
  let key := { key with secret := some drawn, point := some (crypto.regenerate drawn) }
  let key := if fCompressed then key.setCompressedPubKey else key
  { key with fSet := true }

def setSecret (key : CKey crypto) (vchSecret : Bytes) (fCompressed : Bool) : Option (CKey crypto) :=
  if vchSecret.length ≠ 32 then none
  else
    let key := { key with
      secret := some vchSecret, point := some (crypto.regenerate vchSecret), compressed := false, fSet := true }
    some (if fCompressed || key.fCompressedPubKey then key.setCompressedPubKey else key)

/-- `GetSecret`, with its output `fCompressed`. -/
def getSecret (key : CKey crypto) : Option (Bytes × Bool) := key.secret.map (·, key.fCompressedPubKey)

def setPrivKey (key : CKey crypto) (vchPrivKey : Bytes) : Bool × CKey crypto :=
  match crypto.d2i vchPrivKey with
  | some (secret, form) =>
      (true, { key with secret := some secret, point := some (crypto.regenerate secret), compressed := form, fSet := true })
  | none => (false, fresh)

def setPubKey (key : CKey crypto) (vchPubKey : Bytes) : Bool × CKey crypto :=
  match crypto.o2i vchPubKey with
  | some (point, form) =>
      let key := { key with point := some point, compressed := form, fSet := true }
      (true, if vchPubKey.length = 33 then key.setCompressedPubKey else key)
  | none => (false, fresh)

def getPubKey (key : CKey crypto) : Option Bytes := key.point.map (crypto.i2o · key.compressed)

end CKey

/-- `EncryptSecret`: `SetKey` refuses a key of another size. -/
def encryptSecret (crypto : KeyCrypto) (vMasterKey vchPlaintext : Bytes) (nIV : UInt256) : Option Bytes :=
  if vMasterKey.length ≠ walletCryptoKeySize then none else some (crypto.encrypt vMasterKey nIV vchPlaintext)

/-- `DecryptSecret`. -/
def decryptSecret (crypto : KeyCrypto) (vMasterKey vchCiphertext : Bytes) (nIV : UInt256) : Option Bytes :=
  if vMasterKey.length ≠ walletCryptoKeySize then none else crypto.decrypt vMasterKey nIV vchCiphertext

/-- The key maps of a `CCryptoKeyStore`, by key id, and its encryption state. -/
structure CCryptoKeyStore where
  mapKeys : AList fun _ : BitVec 160 => Bytes × Bool
  mapCryptedKeys : AList fun _ : BitVec 160 => Bytes × Bytes
  vMasterKey : Bytes
  fUseCrypto : Bool

namespace CCryptoKeyStore

/-- The store that the constructor makes. -/
def new : CCryptoKeyStore := ⟨∅, ∅, [], false⟩

def isCrypted (s : CCryptoKeyStore) : Bool := s.fUseCrypto

def isLocked (s : CCryptoKeyStore) : Bool := s.isCrypted && s.vMasterKey.isEmpty

def setCrypted (s : CCryptoKeyStore) : Bool × CCryptoKeyStore :=
  if s.fUseCrypto then (true, s)
  else if !s.mapKeys.keys.isEmpty then (false, s)
  else (true, { s with fUseCrypto := true })

def lock (s : CCryptoKeyStore) : Bool × CCryptoKeyStore :=
  match s.setCrypted with
  | (false, s) => (false, s)
  | (true, s) => (true, { s with vMasterKey := [] })

/-- `mapCryptedKeys.begin()`: the entry with the least key id. -/
def firstCrypted (s : CCryptoKeyStore) : Option (Bytes × Bytes) :=
  (s.mapCryptedKeys.keys.argmin BitVec.toNat).bind s.mapCryptedKeys.lookup

variable (crypto : KeyCrypto)

/-- The check of the first key under a master key: the secret has to belong to the public key. -/
def opensFirst (vMasterKeyIn : Bytes) : Option (Bytes × Bytes) → Option Bool
  | none => some true
  | some (vchPubKey, vchCryptedSecret) =>
      match decryptSecret crypto vMasterKeyIn vchCryptedSecret (crypto.hash vchPubKey) with
      | none => some false
      | some vchSecret =>
          if vchSecret.length ≠ 32 then some false
          else do
            let key ← (CKey.fresh.setPubKey vchPubKey).2.setSecret vchSecret false
            let keyPub ← (key : CKey crypto).getPubKey
            some (decide (keyPub = vchPubKey))

def unlock (s : CCryptoKeyStore) (vMasterKeyIn : Bytes) : Option (Bool × CCryptoKeyStore) :=
  match s.setCrypted with
  | (false, s) => some (false, s)
  | (true, s) =>
      (opensFirst crypto vMasterKeyIn s.firstCrypted).map fun opens =>
        if opens then (true, { s with vMasterKey := vMasterKeyIn }) else (false, s)

def addCryptedKey (s : CCryptoKeyStore) (vchPubKey vchCryptedSecret : Bytes) : Bool × CCryptoKeyStore :=
  match s.setCrypted with
  | (false, s) => (false, s)
  | (true, s) =>
      (true, { s with
        mapCryptedKeys := s.mapCryptedKeys.insert (crypto.hash160 vchPubKey) (vchPubKey, vchCryptedSecret) })

variable {crypto} in
/-- `CBasicKeyStore::AddKey`. -/
def addBasicKey (s : CCryptoKeyStore) (key : CKey crypto) : Option (Bool × CCryptoKeyStore) := do
  let secret ← key.getSecret
  let vchPubKey ← key.getPubKey
  some (true, { s with mapKeys := s.mapKeys.insert (crypto.hash160 vchPubKey) secret })

variable {crypto} in
def addKey (s : CCryptoKeyStore) (key : CKey crypto) : Option (Bool × CCryptoKeyStore) :=
  if !s.isCrypted then s.addBasicKey key
  else if s.isLocked then some (false, s)
  else do
    let vchPubKey ← key.getPubKey
    let (secret, _) ← key.getSecret
    match encryptSecret crypto s.vMasterKey secret (crypto.hash vchPubKey) with
    | none => some (false, s)
    | some vchCryptedSecret => some (s.addCryptedKey crypto vchPubKey vchCryptedSecret)

def haveKey (s : CCryptoKeyStore) (address : BitVec 160) : Bool :=
  if !s.isCrypted then (s.mapKeys.lookup address).isSome else (s.mapCryptedKeys.lookup address).isSome

variable {crypto} in
/-- `GetKey`, with the key it is given to fill. -/
def getKey (s : CCryptoKeyStore) (address : BitVec 160) (keyOut : CKey crypto) : Option (Bool × CKey crypto) :=
  if !s.isCrypted then
    match s.mapKeys.lookup address with
    | some (secret, fCompressed) => (CKey.fresh.setSecret secret fCompressed).map (true, ·)
    | none => some (false, keyOut)
  else
    match s.mapCryptedKeys.lookup address with
    | none => some (false, keyOut)
    | some (vchPubKey, vchCryptedSecret) =>
        match decryptSecret crypto s.vMasterKey vchCryptedSecret (crypto.hash vchPubKey) with
        | none => some (false, keyOut)
        | some vchSecret =>
            if vchSecret.length ≠ 32 then some (false, keyOut)
            else ((keyOut.setPubKey vchPubKey).2.setSecret vchSecret false).map (true, ·)

/-- The loop of `EncryptKeys` over the entries of `mapKeys`; they have different ids, so their order does not matter. -/
def encryptEntries (vMasterKeyIn : Bytes) :
    List (Sigma fun _ : BitVec 160 => Bytes × Bool) → CCryptoKeyStore → Option (Bool × CCryptoKeyStore)
  | [], s => some (true, s)
  | ⟨_, secret, fCompressed⟩ :: rest, s => do
      let key : CKey crypto ← CKey.fresh.setSecret secret fCompressed
      let vchPubKey ← key.getPubKey
      let (secret, _) ← key.getSecret
      match encryptSecret crypto vMasterKeyIn secret (crypto.hash vchPubKey) with
      | none => some (false, s)
      | some vchCryptedSecret =>
          match s.addCryptedKey crypto vchPubKey vchCryptedSecret with
          | (false, s) => some (false, s)
          | (true, s) => encryptEntries vMasterKeyIn rest s

def encryptKeys (s : CCryptoKeyStore) (vMasterKeyIn : Bytes) : Option (Bool × CCryptoKeyStore) :=
  if !s.mapCryptedKeys.keys.isEmpty || s.isCrypted then some (false, s)
  else
    (encryptEntries crypto vMasterKeyIn s.mapKeys.entries { s with fUseCrypto := true }).map fun
      | (false, s) => (false, s)
      | (true, s) => (true, { s with mapKeys := ∅ })

end CCryptoKeyStore

end InfiniteRicks
