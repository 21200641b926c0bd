import InfiniteRicks.AddrMan
import InfiniteRicks.WalletRecord

/-!
# The address file

The `IMPLEMENT_SERIALIZE` blocks of `CNetAddr`, `CService`, `CAddress`, `CAddrInfo` and `CAddrMan`. What the
last one reads does not depend on what it has built from it, so its pass that reads is in two parts: `AddrFile`
is what is stored, and `load` builds the tables from it.
-/

namespace InfiniteRicks

open Library Library.Codec CDataStream

def readUInt64 : Reader CDataStream UInt64 := readInteger 8 UInt64.ofNat

/-- `CADDR_TIME_VERSION`. -/
def caddrTimeVersion : Int32 := 31402

/-- `FLATDATA(ip)`. -/
def CNetAddr.serialize (addr : CNetAddr) : Bytes := addr.ip

def CNetAddr.unserialize : Reader CDataStream CNetAddr := do
  let ip ← read 16
  if size : ip.length = 16 then return ⟨ip, size⟩ else failure

/-- The port is in network order. -/
def CService.serialize (service : CService) : Bytes :=
  service.toCNetAddr.serialize ++ [UInt8.ofNat (service.port.toNat / 0x100), service.port.toUInt8]

def CService.unserialize : Reader CDataStream CService := do
  let addr ← CNetAddr.unserialize
  let high ← readData 1
  let low ← readData 1
  return { addr with port := UInt16.ofNat (high * 0x100 + low) }

namespace CAddress

/-- The time is part of the record. -/
def timed (nType : UInt32) (nVersion : Int32) : Bool :=
  nType &&& serDisk ≠ 0 || (caddrTimeVersion ≤ nVersion && nType &&& serGetHash = 0)

def serialize (nType : UInt32) (nVersion : Int32) (addr : CAddress) : Bytes :=
  (if nType &&& serDisk ≠ 0 then writeInt32 nVersion else []) ++
    ((if timed nType nVersion then writeUInt32 addr.nTime else []) ++
      (writeUInt64 addr.nServices ++ addr.toCService.serialize))

/-- A file has a version of its own. -/
def readVersion (nType : UInt32) (nVersion : Int32) : Reader CDataStream Int32 :=
  if nType &&& serDisk ≠ 0 then readInt32 else pure nVersion

/-- A time that is not stored is as `Init` leaves it. -/
def readTime (nType : UInt32) (nVersion : Int32) : Reader CDataStream UInt32 :=
  if timed nType nVersion then readUInt32 else pure 100000000

/-- `nLastTry` is as `Init` leaves it. -/
def unserialize (nType : UInt32) (nVersion : Int32) : Reader CDataStream CAddress := do
  let nVersion ← readVersion nType nVersion
  let nTime ← readTime nType nVersion
  let nServices ← readUInt64
  let service ← CService.unserialize
  return { service with nServices, nTime, nLastTry := 0 }

end CAddress

namespace CAddrInfo

def serialize (nType : UInt32) (nVersion : Int32) (info : CAddrInfo) : Bytes :=
  info.toCAddress.serialize nType nVersion ++
    (info.source.serialize ++ (writeInt64 info.nLastSuccess ++ writeInt32 info.nAttempts))

/-- Reads into a new object. -/
def unserialize (nType : UInt32) (nVersion : Int32) : Reader CDataStream CAddrInfo := do
  let addr ← CAddress.unserialize nType nVersion
  let source ← CNetAddr.unserialize
  let nLastSuccess ← readInt64
  let nAttempts ← readInt32
  return { addr with source, nLastSuccess, nAttempts, nRefCount := 0, fInTried := false, nRandomPos := -1 }

/-- `CAddrInfo()`. -/
def default : CAddrInfo where
  ip := List.replicate 16 0
  size := rfl
  port := 0
  nServices := 1
  nTime := 100000000
  nLastTry := 0
  source := ⟨List.replicate 16 0, rfl⟩
  nLastSuccess := 0
  nAttempts := 0
  nRefCount := 0
  fInTried := false
  nRandomPos := -1

end CAddrInfo

/-- What an address file holds. -/
structure AddrFile where
  nVersion : UInt8
  nKey : Bytes
  nNew : Int32
  nTried : Int32
  nUBuckets : Int32
  new : List CAddrInfo
  tried : List CAddrInfo
  buckets : List (List Int32)

namespace AddrFile

/-- How often `for (int n = 0; n < count; n++)` passes. -/
def passes (count : Int32) : Nat := count.toInt.toNat

/-- The version byte, which the records take for their version. -/
def version (nVersion : UInt8) : Int32 := nVersion.toUInt32.toInt32

def writeBucket (bucket : List Int32) : Bytes :=
  writeInt32 (Int32.ofNat bucket.length) ++ bucket.flatMap writeInt32

def readBucket : Reader CDataStream (List Int32) := do
  let nSize ← readInt32
  Codec.repeated readInt32 (passes nSize)

def serialize (nType : UInt32) (file : AddrFile) : Bytes :=
  writeChar file.nVersion ++ (writeBytes file.nKey ++ (writeInt32 file.nNew ++ (writeInt32 file.nTried ++
    (writeInt32 file.nUBuckets ++ (file.new.flatMap (CAddrInfo.serialize nType (version file.nVersion)) ++
      (file.tried.flatMap (CAddrInfo.serialize nType (version file.nVersion)) ++ file.buckets.flatMap writeBucket))))))

def unserialize (nType : UInt32) : Reader CDataStream AddrFile := do
  let nVersion ← readChar
  let nKey ← readBytes
  let nNew ← readInt32
  let nTried ← readInt32
  let nUBuckets ← readInt32
  let new ← Codec.repeated (CAddrInfo.unserialize nType (version nVersion)) (passes nNew)
  let tried ← Codec.repeated (CAddrInfo.unserialize nType (version nVersion)) (passes nTried)
  let buckets ← Codec.repeated readBucket (passes nUBuckets)
  return { nVersion, nKey, nNew, nTried, nUBuckets, new, tried, buckets }

end AddrFile

namespace CAddrMan

/-- `vvNew[b]`, if there is one. -/
def bucketAt (b : Nat) : Option (Fin newBucketCount) := if inside : b < newBucketCount then some ⟨b, inside⟩ else none

variable (hash64 : Bytes → UInt64)

/-- An entry gets the next place in `vRandom`. -/
def place (s : CAddrMan) (n : Int) (info : CAddrInfo) : CAddrMan :=
  { s with
    mapInfo := s.mapInfo.insert n { info with nRandomPos := s.vRandom.length }
    mapAddr := s.mapAddr.insert info.toCNetAddr n
    vRandom := s.vRandom ++ [n] }

/-- A new entry; with another number of buckets than `ADDRMAN_NEW_BUCKET_COUNT` it goes to the bucket of its source. -/
def loadNew (nUBuckets : Int) (s : CAddrMan) (n : Int) (info : CAddrInfo) : CAddrMan :=
  if nUBuckets ≠ newBucketCount then
    let nUBucket := info.getNewBucket hash64 s.nKey info.source
    let s := s.place n { info with nRefCount := info.nRefCount + 1 }
    { s with vvNew := Function.update s.vvNew nUBucket (insert n (s.vvNew nUBucket)) }
  else s.place n info

/-- A tried entry, with `nLost`. -/
def loadTried (loading : CAddrMan × Int) (info : CAddrInfo) : CAddrMan × Int :=
  let (s, nLost) := loading
  let nKBucket := info.getTriedBucket hash64 s.nKey
  if (s.vvTried nKBucket).length < triedBucketSize then
    let nId := s.nIdCount
    let s := s.place nId { info with fInTried := true }
    ({ s with
        vvTried := Function.update s.vvTried nKBucket (s.vvTried nKBucket ++ [nId])
        nIdCount := nId + 1 }, nLost)
  else (s, nLost + 1)

/-- An index in a bucket. `mapInfo[nIndex]` makes an entry where there is none. -/
def loadIndex (nUBuckets : Int) (vNew : Option (Fin newBucketCount)) (s : CAddrMan) (nIndex : Int) : CAddrMan :=
  let s := { s with mapInfo := s.mapInfo.insertIfNew nIndex CAddrInfo.default }
  let nRefCount := (s.mapInfo[nIndex]?.getD CAddrInfo.default).nRefCount
  match vNew with
  | none => s
  | some b =>
      if nUBuckets = newBucketCount ∧ nRefCount < newBucketsPerAddress then
        { s.modify nIndex fun info => { info with nRefCount := info.nRefCount + 1 } with
          vvNew := Function.update s.vvNew b (insert nIndex (s.vvNew b)) }
      else s

def loadBucket (nUBuckets : Int) (s : CAddrMan) (bucket : List Int32 × Nat) : CAddrMan :=
  (bucket.1.map Int32.toInt).foldl (loadIndex nUBuckets (bucketAt bucket.2)) s

/-- The tables of what has been read, and whether every bucket is one of `vvNew`. -/
def load (file : AddrFile) : CAddrMan × Bool :=
  let nUBuckets := file.nUBuckets.toInt
  let s := { empty file.nKey with nNew := file.nNew.toInt, nTried := file.nTried.toInt }
  let s := file.new.zipIdx.foldl (fun s entry => s.loadNew hash64 nUBuckets entry.2 entry.1) s
  let (s, nLost) := file.tried.foldl (loadTried hash64) ({ s with nIdCount := s.nNew }, 0)
  let s := file.buckets.zipIdx.foldl (loadBucket nUBuckets) { s with nTried := s.nTried - nLost }
  (s, file.buckets.zipIdx.all fun bucket => (bucketAt bucket.2).isSome)

/-- The loop that writes the new entries: the number that each id gets, and the entries that have references. -/
def saveNew (nNew : Int) : List (Int × CAddrInfo) → Int → Std.ExtTreeMap Int Int compare →
    Std.ExtTreeMap Int Int compare × List CAddrInfo
  | [], _, mapUnkIds => (mapUnkIds, [])
  | entry :: rest, nIds, mapUnkIds =>
      if nIds = nNew then (mapUnkIds, [])
      else
        let mapUnkIds := mapUnkIds.insert entry.1 nIds
        if entry.2.nRefCount ≠ 0 then
          let saved := saveNew nNew rest (nIds + 1) mapUnkIds
          (saved.1, entry.2 :: saved.2)
        else saveNew nNew rest nIds mapUnkIds

/-- The loop that writes the tried entries. -/
def saveTried (nTried : Int) : List (Int × CAddrInfo) → Int → List CAddrInfo
  | [], _ => []
  | entry :: rest, nIds =>
      if nIds = nTried then []
      else if entry.2.fInTried then entry.2 :: saveTried nTried rest (nIds + 1)
      else saveTried nTried rest nIds

/-- What is written. -/
def save (s : CAddrMan) : AddrFile :=
  let saved := saveNew s.nNew s.mapInfo.toList 0 ∅
  { nVersion := 0
    nKey := s.nKey
    nNew := Int32.ofInt s.nNew
    nTried := Int32.ofInt s.nTried
    nUBuckets := Int32.ofNat newBucketCount
    new := saved.2
    tried := saveTried s.nTried s.mapInfo.toList 0
    buckets := (List.finRange newBucketCount).map fun b =>
      (s.newIds b).map fun id => Int32.ofInt (saved.1[id]?.getD 0) }

/-- `Serialize`. -/
def serialize (nType : UInt32) (s : CAddrMan) : Bytes := s.save.serialize nType

/-- `Unserialize`, which clears what the object held before. -/
def unserialize (nType : UInt32) : Reader CDataStream (CAddrMan × Bool) := do
  let file ← AddrFile.unserialize nType
  return load hash64 file

end CAddrMan

end InfiniteRicks
