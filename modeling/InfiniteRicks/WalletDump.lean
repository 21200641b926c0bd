import InfiniteRicks.Base58
import InfiniteRicks.Checkpoints
import InfiniteRicks.KeystoreSpec

/-!
# Wallet dumps

`dumpwallet` and `importwallet` (`rpcdump.cpp`) with `GetKeyBirthTimes` and `GetAllReserveKeys`
(`wallet.cpp`). The file is its bytes, it can be opened, and the wallet file takes every write.
Importing is followed up to the rescan of the chain, which is about transactions. A call that throws
gives `none`.
-/

namespace InfiniteRicks

/-! ## Secrets -/

namespace CBitcoinSecret

/-- `SetSecret` of a secret with 32 bytes. -/
def setSecret (fTestNet : Bool) (vchSecret : Bytes) (fCompressed : Bool) : CBase58Data :=
  { nVersion := 128 + if fTestNet then CBitcoinAddress.pubkeyAddressTest else CBitcoinAddress.pubkeyAddress
    vchData := if fCompressed then vchSecret ++ [1] else vchSecret }

/-- `GetSecret`, with `fCompressedOut`. -/
def getSecret (secret : CBase58Data) : Bytes × Bool := (secret.vchData.take 32, decide (secret.vchData.length = 33))

/-- `IsValid`. -/
def isValid (fTestNet : Bool) (secret : CBase58Data) : Bool :=
  let sized := decide (secret.vchData.length = 32 ∨ secret.vchData.length = 33 ∧ secret.vchData.getD 32 0 = 1)
  if secret.nVersion = 128 + CBitcoinAddress.pubkeyAddress then !fTestNet && sized
  else if secret.nVersion = 128 + CBitcoinAddress.pubkeyAddressTest then fTestNet && sized
  else false

/-- `SetString`. -/
def setString (hash : Bytes → UInt256) (fTestNet : Bool) (str : Bytes) : Bool × CBase58Data :=
  let (read, secret) := CBase58Data.setString hash str
  (read && isValid fTestNet secret, secret)

end CBitcoinSecret

/-! ## Text -/

/-- What the dump takes from the build and from the date library. -/
structure DumpFormat where
  clientBuild : Bytes
  clientDate : Bytes
  /-- `EncodeDumpTime` -/
  encodeDumpTime : Int64 → Bytes
  /-- `DecodeDumpTime` -/
  decodeDumpTime : Bytes → Int64

namespace WalletDump

/-- `hexmap`. -/
def hexmap (n : UInt8) : UInt8 := if n < 10 then 48 + n else 87 + n

/-- `HexStr`. -/
def hexStr (bytes : Bytes) : Bytes := bytes.flatMap fun (val : UInt8) => [hexmap (val >>> 4), hexmap (val &&& 15)]

/-- `EncodeDumpString`. -/
def encodeDumpString (str : Bytes) : Bytes :=
  str.flatMap fun (c : UInt8) => if c ≤ 32 ∨ 128 ≤ c ∨ c = 37 then 37 :: hexStr [c] else [c]

/-- The value that `DecodeDumpString` gives a digit, modulo 256; a `char` has a sign. -/
def digitValue (c : UInt8) : UInt8 := (c.toInt8 >>> 6).toUInt8 * 9 + ((c - 48) &&& 15)

/-- `DecodeDumpString`. -/
def decodeDumpString : Bytes → Bytes
  | [] => []
  | c :: high :: low :: rest =>
      if c = 37 then (digitValue high <<< 4 ||| digitValue low) :: decodeDumpString rest
      else c :: decodeDumpString (high :: low :: rest)
  | c :: rest => c :: decodeDumpString rest

def labelField : Bytes := text ['l', 'a', 'b', 'e', 'l', '=']
def reserveField : Bytes := text ['r', 'e', 's', 'e', 'r', 'v', 'e', '=', '1']
def changeField : Bytes := text ['c', 'h', 'a', 'n', 'g', 'e', '=', '1']
def addrField : Bytes := text ['a', 'd', 'd', 'r', '=']

end WalletDump

open WalletDump

/-- The keys of a `CWallet`, and what it knows about them. The pool records of the wallet file are in `pool`. -/
structure KeyWallet where
  keystore : CCryptoKeyStore
  /-- `nCreateTime` of the `CKeyMetadata`. -/
  mapKeyMetadata : AList fun _ : BitVec 160 => Int64
  mapAddressBook : CTxDestination → Option Bytes
  setKeyPool : List Int
  pool : Int → Option Bytes
  /-- `mapWallet` in the order of its keys. -/
  mapWallet : List CWalletTx
  nTimeFirstKey : Int64
  fWalletUnlockStakingOnly : Bool

/-- The loop of `FindBlockByHeight` up the active chain. Every step is one higher, so the difference is enough fuel. -/
def raiseTo (s : Node) (nHeight : Int) : Nat → BlockPtr → Option BlockPtr
  | _, [] => none
  | 0, pindex :: pprev => if pindex.nHeight < nHeight then none else some (pindex :: pprev)
  | fuel + 1, pindex :: pprev =>
      if pindex.nHeight < nHeight then
        ((s.pnext pindex.hash).bind s.mapBlockIndex).bind (raiseTo s nHeight fuel)
      else some (pindex :: pprev)

/-- `FindBlockByHeight`. What it finds is `pblockindexFBBHLast` for the next search. -/
def findBlockByHeight (s : Node) (nHeight : Int) : Option BlockPtr :=
  let pblockindex := if nHeight < s.nBestHeight.tdiv 2 then s.pindexGenesisBlock else s.pindexBest
  let pblockindex :=
    match pblockindex, s.pblockindexFBBHLast with
    | pindex :: _, last :: pprev =>
        if (nHeight - last.nHeight).natAbs < (nHeight - pindex.nHeight).natAbs then last :: pprev else pblockindex
    | _, _ => pblockindex
  (lowerTo nHeight pblockindex).bind fun pblockindex =>
    raiseTo s nHeight (nHeight - ((pblockindex.head?.map CBlockIndex.nHeight).getD 0)).toNat pblockindex

namespace KeyWallet

variable (s : Node) (extractAffectedKeys : CScript → List (BitVec 160))

variable (crypto : KeyCrypto)

variable (fTestNet : Bool) (format : DumpFormat)

/-- What `EnsureWalletIsUnlocked` lets pass. -/
def isUnlocked (w : KeyWallet) : Bool := !w.keystore.isLocked && !w.fWalletUnlockStakingOnly

/-! ## Writing -/

/-- The third field of the line of a key. -/
def keyField (w : KeyWallet) (setKeyPool : List (BitVec 160)) (keyid : BitVec 160) : Bytes :=
  match w.mapAddressBook (.keyID keyid) with
  | some label => labelField ++ encodeDumpString label
  | none => if keyid ∈ setKeyPool then reserveField else changeField

/-- The line of a key, without its end. -/
def dumpLine (secret : CBase58Data) (nTime : Int64) (field : Bytes) (keyid : BitVec 160) : Bytes :=
  secret.toText crypto.hash ++ [32] ++ format.encodeDumpTime nTime ++ [32] ++ field ++ [32, 35, 32] ++ addrField ++
    (CBitcoinAddress.set fTestNet .new (.keyID keyid)).2.toText crypto.hash

/-- The loop over the fields behind the time, with `fLabel` and `strLabel`. -/
def readFields : List Bytes → Bool × Bytes → Bool × Bytes
  | [], label => label
  | str :: rest, (fLabel, strLabel) =>
      if [35] <+: str then (fLabel, strLabel)
      else
        let fLabel := if str = changeField then false else fLabel
        let fLabel := if str = reserveField then false else fLabel
        if labelField <+: str then readFields rest (true, decodeDumpString (str.drop 6))
        else readFields rest (fLabel, strLabel)

/-- What the loop of `importwallet` changes. -/
structure Import where
  fGood : Bool
  nTimeBegin : Int64
  wallet : KeyWallet

/-- The wallet with an imported key, its time and its label. -/
def withKey (w : KeyWallet) (keystore : CCryptoKeyStore) (keyid : BitVec 160) (nTime : Int64) (label : Bool × Bytes) :
    KeyWallet :=
  { w with
    keystore := keystore
    mapKeyMetadata := w.mapKeyMetadata.insert keyid nTime
    mapAddressBook :=
      if label.1 then Function.update w.mapAddressBook (.keyID keyid) (some label.2) else w.mapAddressBook }

/-- The body of the loop of `importwallet`. -/
def importLine (state : Import) (line : Bytes) : Option Import :=
  if line.isEmpty || line.head? = some 35 then some state
  else
    match line.splitOn 32 with
    | secretText :: timeText :: fields =>
        let (read, vchSecret) := CBitcoinSecret.setString crypto.hash fTestNet secretText
        if read = false then some state
        else do
          let (secret, fCompressed) := CBitcoinSecret.getSecret vchSecret
          let key : CKey crypto ← CKey.fresh.setSecret secret fCompressed
          let vchPubKey ← key.getPubKey
          let keyid := crypto.hash160 vchPubKey
          if state.wallet.keystore.haveKey keyid then some state
          else
            let nTime := format.decodeDumpTime timeText
            let (added, keystore) ← state.wallet.keystore.addKey key
            if added = false then some { state with fGood := false, wallet := { state.wallet with keystore := keystore } }
            else
              some { state with
                nTimeBegin := if nTime < state.nTimeBegin then nTime else state.nTimeBegin
                wallet := state.wallet.withKey keystore keyid nTime (readFields fields (true, [])) }
    | _ => some state

/-- `importwallet` up to the rescan: `fGood` and the wallet. -/
def importwallet (w : KeyWallet) (file : Bytes) : Option (Bool × KeyWallet) :=
  if w.isUnlocked = false then none
  else do
    let pindexBest ← s.pindexBest.head?
    let result ← (file.splitOn 10).foldlM (importLine crypto fTestNet format)
      ⟨true, Int64.ofNat pindexBest.nTime.toNat, w⟩
    let nTimeFirstKey :=
      if w.nTimeFirstKey = 0 ∨ result.nTimeBegin < w.nTimeFirstKey then result.nTimeBegin else w.nTimeFirstKey
    some (result.fGood, { result.wallet with nTimeFirstKey := nTimeFirstKey })

end KeyWallet

end InfiniteRicks
