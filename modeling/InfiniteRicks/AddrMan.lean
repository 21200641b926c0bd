import Mathlib.Data.Finset.Sort
import Mathlib.Data.Fintype.Card
import Mathlib.Data.Int.ConditionallyCompleteOrder
import InfiniteRicks.Library.Tables
import InfiniteRicks.NetAddr
import InfiniteRicks.Serialize

/-!
# The address manager

`CAddrInfo` and `CAddrMan` (`addrman.h`, `addrman.cpp`). What the operations draw from
`GetRandInt` and read from the clock is given to them, and `Hash(..).Get64()` is a
parameter. An operation returns `none` where an assertion fails, where `mapInfo[nId]`
would have to make an entry, and where `nIdCount` leaves the range of an `int`.
-/

namespace InfiniteRicks

/-- `CAddrInfo`: an address with statistics and its places in the tables. -/
structure CAddrInfo extends CAddress where
  source : CNetAddr
  nLastSuccess : Int64
  nAttempts : Int32
  nRefCount : Int
  fInTried : Bool
  nRandomPos : Int
deriving DecidableEq

/-- `ADDRMAN_TRIED_BUCKET_COUNT` and `ADDRMAN_NEW_BUCKET_COUNT`. -/
abbrev triedBucketCount : Nat := 64
abbrev newBucketCount : Nat := 256

/-- `ADDRMAN_TRIED_BUCKET_SIZE` and `ADDRMAN_NEW_BUCKET_SIZE`. -/
def triedBucketSize : Nat := 64
def newBucketSize : Nat := 64

/-- `ADDRMAN_TRIED_BUCKETS_PER_GROUP`, `ADDRMAN_NEW_BUCKETS_PER_SOURCE_GROUP` and
`ADDRMAN_NEW_BUCKETS_PER_ADDRESS`. -/
def triedBucketsPerGroup : UInt64 := 4
def newBucketsPerSourceGroup : UInt64 := 32
def newBucketsPerAddress : Int := 4

/-- `ADDRMAN_TRIED_ENTRIES_INSPECT_ON_EVICT`. -/
def triedEntriesInspectOnEvict : Nat := 4

/-- `ADDRMAN_HORIZON_DAYS`, `ADDRMAN_RETRIES`, `ADDRMAN_MAX_FAILURES` and `ADDRMAN_MIN_FAIL_DAYS`. -/
def horizonDays : Int64 := 30
def addrmanRetries : Int32 := 3
def maxFailures : Int32 := 10
def minFailDays : Int64 := 7

/-- `ADDRMAN_GETADDR_MAX_PCT` and `ADDRMAN_GETADDR_MAX`. -/
def getAddrMaxPct : Nat := 23
def getAddrMax : Nat := 2500

/-- `Serialize` of a `uint64_t`. -/
def writeUInt64 (value : UInt64) : Bytes := littleEndianBytes 8 value.toNat

namespace CAddrInfo

/-- `CAddrInfo(addrIn, addrSource)`. -/
def ofAddress (addrIn : CAddress) (addrSource : CNetAddr) : CAddrInfo :=
  { addrIn with
    nLastTry := 0, source := addrSource, nLastSuccess := 0, nAttempts := 0, nRefCount := 0, fInTried := false
    nRandomPos := -1 }

section Buckets

variable (hash64 : Bytes → UInt64)

/-- `GetTriedBucket`. -/
def getTriedBucket (info : CAddrInfo) (nKey : Bytes) : Fin triedBucketCount :=
  let hash1 := hash64 (writeBytes nKey ++ writeBytes info.toCService.getKey)
  let hash2 := hash64 (writeBytes nKey ++ writeBytes info.toCNetAddr.getGroup ++
    writeUInt64 (hash1 % triedBucketsPerGroup))
  ⟨hash2.toNat % triedBucketCount, Nat.mod_lt _ (Nat.zero_lt_succ _)⟩

/-- `GetNewBucket`. -/
def getNewBucket (info : CAddrInfo) (nKey : Bytes) (src : CNetAddr) : Fin newBucketCount :=
  let hash1 := hash64 (writeBytes nKey ++ writeBytes info.toCNetAddr.getGroup ++ writeBytes src.getGroup)
  let hash2 := hash64 (writeBytes nKey ++ writeBytes src.getGroup ++
    writeUInt64 (hash1 % newBucketsPerSourceGroup))
  ⟨hash2.toNat % newBucketCount, Nat.mod_lt _ (Nat.zero_lt_succ _)⟩

end Buckets

/-- `nTime`, which the rules on times compare as an `int64_t`. -/
def time (info : CAddrInfo) : Int64 := info.nTime.toUInt64.toInt64

/-- `IsTerrible`. -/
def isTerrible (info : CAddrInfo) (nNow : Int64) : Bool :=
  if info.nLastTry ≠ 0 ∧ nNow - 60 ≤ info.nLastTry then false
  else if nNow + 10 * 60 < info.time then true
  else if info.nTime = 0 ∨ horizonDays * 86400 < nNow - info.time then true
  else if info.nLastSuccess = 0 ∧ addrmanRetries ≤ info.nAttempts then true
  else decide (minFailDays * 86400 < nNow - info.nLastSuccess ∧ maxFailures ≤ info.nAttempts)

end CAddrInfo

/-- What one call draws and reads: the numbers of its calls of `GetRandInt`, before they are brought
into range, and the times of its calls of `GetAdjustedTime`. -/
structure Chance where
  rand : Nat → Nat
  clock : Nat → Int64

/-- `GetRandInt`. -/
def Chance.getRandInt (chance : Chance) (call nMax : Nat) : Nat :=
  if nMax = 0 then 0 else chance.rand call % nMax

/-- `CAddrMan`; the sets of `vvNew` are in the order of their ids. -/
structure CAddrMan where
  nKey : Bytes
  nIdCount : Int
  mapInfo : Std.ExtTreeMap Int CAddrInfo compare
  mapAddr : Std.ExtTreeMap CNetAddr Int compare
  vRandom : List Int
  nTried : Int
  vvTried : Fin triedBucketCount → List Int
  nNew : Int
  vvNew : Fin newBucketCount → Finset Int

namespace CAddrMan

/-- `CAddrMan()`, with the key that it draws. -/
def empty (nKey : Bytes) : CAddrMan := ⟨nKey, 0, ∅, ∅, [], 0, fun _ => [], 0, fun _ => ∅⟩

/-- An entry is changed in place. -/
def modify (s : CAddrMan) (nId : Int) (change : CAddrInfo → CAddrInfo) : CAddrMan :=
  { s with mapInfo := s.mapInfo.modify nId change }

/-- `Find`. -/
def find (s : CAddrMan) (addr : CNetAddr) : Option (Int × CAddrInfo) := do
  let nId ← s.mapAddr[addr]?
  let info ← s.mapInfo[nId]?
  return (nId, info)

/-- `Create`, with the id of the entry. -/
def create (s : CAddrMan) (addr : CAddress) (addrSource : CNetAddr) : Option (Int × CAddrMan) :=
  if s.nIdCount = 2 ^ 31 - 1 then none
  else
    let info := { CAddrInfo.ofAddress addr addrSource with nRandomPos := s.vRandom.length }
    some (s.nIdCount,
      { s with
        nIdCount := s.nIdCount + 1
        mapInfo := s.mapInfo.insert s.nIdCount info
        mapAddr := s.mapAddr.insert addr.toCNetAddr s.nIdCount
        vRandom := s.vRandom ++ [s.nIdCount] })

/-- An `int` as an `unsigned int`. -/
def unsigned (n : Int) : Nat := if 0 ≤ n then n.toNat else (2 ^ 32 + n).toNat

/-- `SwapRandom`. -/
def swapRandom (s : CAddrMan) (nRndPos1 nRndPos2 : Nat) : Option CAddrMan :=
  if nRndPos1 = nRndPos2 then some s
  else do
    let nId1 ← s.vRandom[nRndPos1]?
    let nId2 ← s.vRandom[nRndPos2]?
    guard (nId1 ∈ s.mapInfo ∧ nId2 ∈ s.mapInfo)
    let s := s.modify nId1 fun info => { info with nRandomPos := nRndPos2 }
    let s := s.modify nId2 fun info => { info with nRandomPos := nRndPos1 }
    return { s with vRandom := (s.vRandom.set nRndPos1 nId2).set nRndPos2 nId1 }

/-- What `SelectTried` keeps in its loop. -/
structure Selection where
  vTried : List Int
  nOldest : Int
  nOldestPos : Int

/-- `nOldest == -1 || mapInfo[nTemp].nLastSuccess < mapInfo[nOldest].nLastSuccess`. -/
def lastSuccessBefore (s : CAddrMan) (nTemp nOldest : Int) : Option Bool :=
  if nOldest = -1 then some true
  else do
    let info ← s.mapInfo[nTemp]?
    let infoOldest ← s.mapInfo[nOldest]?
    return info.nLastSuccess < infoOldest.nLastSuccess

/-- One pass through the loop of `SelectTried`. -/
def inspect (s : CAddrMan) (chance : Chance) (call : Nat) (chosen : Selection) (i : Nat) :
    Option Selection := do
  let nPos := chance.getRandInt (call + i) (chosen.vTried.length - i) + i
  let nTemp ← chosen.vTried[nPos]?
  let first ← chosen.vTried[i]?
  let vTried := (chosen.vTried.set nPos first).set i nTemp
  let older ← s.lastSuccessBefore nTemp chosen.nOldest
  return if older then ⟨vTried, nTemp, nPos⟩ else { chosen with vTried }

/-- `SelectTried`, whose calls of `GetRandInt` begin with `call`; the bucket is left shuffled. -/
def selectTried (s : CAddrMan) (nKBucket : Fin triedBucketCount) (chance : Chance) (call : Nat) :
    Option (Int × CAddrMan) := do
  let vTried := s.vvTried nKBucket
  let chosen ← (List.range (min triedEntriesInspectOnEvict vTried.length)).foldlM (s.inspect chance call)
    ⟨vTried, -1, -1⟩
  return (chosen.nOldestPos, { s with vvTried := Function.update s.vvTried nKBucket chosen.vTried })

/-- Takes a reference from an entry of a bucket, and with the last one the entry from all indexes. -/
def release (s : CAddrMan) (nId : Int) : Option CAddrMan := do
  let s := s.modify nId fun info => { info with nRefCount := info.nRefCount - 1 }
  let info ← s.mapInfo[nId]?
  if info.nRefCount = 0 then
    let s ← s.swapRandom (unsigned info.nRandomPos) (s.vRandom.length - 1)
    return { s with
      vRandom := s.vRandom.dropLast
      mapAddr := s.mapAddr.erase info.toCNetAddr
      mapInfo := s.mapInfo.erase nId
      nNew := s.nNew - 1 }
  else return s

/-- The first entry of a bucket that is terrible; each is judged at the time of its own call. -/
def findTerrible (s : CAddrMan) (clock : Nat → Int64) : Nat → List Int → Option (Option Int)
  | _, [] => some none
  | call, nId :: rest => do
      let info ← s.mapInfo[nId]?
      if info.isTerrible (clock call) then return some nId else s.findTerrible clock (call + 1) rest

/-- The older of two entries of a bucket, the first of which may be none yet. -/
def older (s : CAddrMan) (nOldest nId : Int) : Option Int :=
  if nOldest = -1 then some nId
  else do
    let info ← s.mapInfo[nId]?
    let infoOldest ← s.mapInfo[nOldest]?
    return if info.nTime < infoOldest.nTime then nId else nOldest

/-- The oldest of the entries of a bucket at four places that are drawn. -/
def pickOldest (s : CAddrMan) (chance : Chance) (call : Nat) (vNew : List Int) : Option Int :=
  let n := (List.range 4).map fun k => chance.getRandInt (call + k) vNew.length
  (vNew.zipIdx.filter fun entry => entry.2 ∈ n).foldlM (fun nOldest entry => s.older nOldest entry.1) (-1)

/-- Removes an entry from a bucket. -/
def removeNew (s : CAddrMan) (nUBucket : Fin newBucketCount) (nId : Int) : Option CAddrMan := do
  let s ← s.release nId
  return { s with vvNew := Function.update s.vvNew nUBucket ((s.vvNew nUBucket).erase nId) }

/-- `ShrinkNew`, whose calls of `GetAdjustedTime` begin with the second, and those of `GetRandInt`
with `call`. -/
def shrinkNew (s : CAddrMan) (nUBucket : Fin newBucketCount) (chance : Chance) (call : Nat) :
    Option (Int × CAddrMan) := do
  let vNew := (s.vvNew nUBucket).sort (· ≤ ·)
  match ← s.findTerrible chance.clock 1 vNew with
  | some nId => return (0, ← s.removeNew nUBucket nId)
  | none =>
      let nOldest ← s.pickOldest chance call vNew
      return (1, ← s.removeNew nUBucket nOldest)

/-- A bucket of new entries, in the order of its set. -/
def newIds (s : CAddrMan) (nUBucket : Fin newBucketCount) : List Int := (s.vvNew nUBucket).sort (· ≤ ·)

/-- A place in a bucket that may be full. -/
def makeRoom (s : CAddrMan) (nUBucket : Fin newBucketCount) (chance : Chance) (call : Nat) : Option CAddrMan :=
  if (s.vvNew nUBucket).card = newBucketSize then (s.shrinkNew nUBucket chance call).map Prod.snd else some s

/-- An entry is taken out of all new buckets. -/
def unlisted (s : CAddrMan) (nId : Int) : CAddrMan :=
  { s.modify nId fun info =>
      { info with nRefCount := info.nRefCount - (Finset.univ.filter fun bucket => nId ∈ s.vvNew bucket).card } with
    vvNew := fun bucket => (s.vvNew bucket).erase nId, nNew := s.nNew - 1 }

/-- An entry is added to a tried bucket. -/
def pushTried (s : CAddrMan) (nId : Int) (nKBucket : Fin triedBucketCount) : CAddrMan :=
  { s.modify nId fun info => { info with fInTried := true } with
    vvTried := Function.update s.vvTried nKBucket (s.vvTried nKBucket ++ [nId]), nTried := s.nTried + 1 }

/-- An entry takes the place of another in a tried bucket, and that one goes to a new bucket. -/
def replaceTried (s : CAddrMan) (nId nIdOld : Int) (nKBucket : Fin triedBucketCount) (nPos : Nat)
    (room : Fin newBucketCount) : CAddrMan :=
  { s.modify nIdOld fun info => { info with fInTried := false, nRefCount := 1 } with
    vvNew := Function.update s.vvNew room (insert nIdOld (s.vvNew room))
    nNew := s.nNew + 1
    vvTried := Function.update s.vvTried nKBucket ((s.vvTried nKBucket).set nPos nId) }.modify nId
      fun info => { info with fInTried := true }

variable (hash64 : Bytes → UInt64)

/-- The last part of `MakeTried` where the tried bucket is full: an entry of it goes back to a new bucket,
and not to the bucket that the good entry has left unless its own is full. -/
def evictTried (s : CAddrMan) (nId : Int) (nKBucket : Fin triedBucketCount) (nOrigin : Fin newBucketCount)
    (chance : Chance) : Option CAddrMan := do
  let (nPos, s) ← s.selectTried nKBucket chance 1
  let nIdOld ← Library.Tables.slot (s.vvTried nKBucket) nPos
  let infoOld ← s.mapInfo[nIdOld]?
  let nUBucket := infoOld.getNewBucket hash64 s.nKey infoOld.source
  let room := if (s.vvNew nUBucket).card < newBucketSize then nUBucket else nOrigin
  return s.replaceTried nId nIdOld nKBucket nPos.toNat room

/-- `MakeTried`, whose calls of `GetRandInt` begin with the second. -/
def makeTried (s : CAddrMan) (nId : Int) (nOrigin : Fin newBucketCount) (chance : Chance) :
    Option CAddrMan := do
  guard (nId ∈ s.vvNew nOrigin)
  let s := s.unlisted nId
  let info ← s.mapInfo[nId]?
  guard (info.nRefCount = 0)
  let nKBucket := info.getTriedBucket hash64 s.nKey
  if (s.vvTried nKBucket).length < triedBucketSize then return s.pushTried nId nKBucket
  else s.evictTried hash64 nId nKBucket nOrigin chance

/-- The buckets from the one that is drawn on. -/
def bucketFrom (nRnd n : Nat) : Fin newBucketCount :=
  ⟨(n + nRnd) % newBucketCount, Nat.mod_lt _ (Nat.zero_lt_succ _)⟩

/-- `Good_`. -/
def good (s : CAddrMan) (addr : CService) (nTime : Int64) (chance : Chance) : Option CAddrMan :=
  match s.find addr.toCNetAddr with
  | none => some s
  | some (nId, info) =>
      if info.toCService ≠ addr then some s
      else
        let s := s.modify nId fun info =>
          { info with
            nLastSuccess := nTime, nLastTry := nTime, nTime := nTime.toUInt64.toUInt32, nAttempts := 0 }
        if info.fInTried then some s
        else
          let nRnd := chance.getRandInt 0 newBucketCount
          match (List.range newBucketCount).find? fun n => nId ∈ s.vvNew (bucketFrom nRnd n) with
          | none => some s
          | some n => s.makeTried hash64 nId (bucketFrom nRnd n) chance

/-- A time as `nTime` keeps it: `max((int64_t)0, time)`. -/
def storedTime (time : Int64) : UInt32 := (max 0 time).toUInt64.toUInt32

/-- What `Add_` takes over from another message about an address. -/
def refresh (info : CAddrInfo) (addr : CAddress) (nTimePenalty now : Int64) : CAddrInfo :=
  let addrTime := addr.nTime.toUInt64.toInt64
  let fCurrentlyOnline := now - addrTime < 24 * 60 * 60
  let nUpdateInterval : Int64 := if fCurrentlyOnline then 60 * 60 else 24 * 60 * 60
  let nTime :=
    if addr.nTime ≠ 0 ∧ (info.nTime = 0 ∨ info.time < addrTime - nUpdateInterval - nTimePenalty) then
      storedTime (addrTime - nTimePenalty)
    else info.nTime
  { info with nTime, nServices := info.nServices ||| addr.nServices }

/-- The last part of `Add_`: another reference from the bucket of the source. -/
def addReference (s : CAddrMan) (nId : Int) (source : CNetAddr) (chance : Chance) (call : Nat) :
    Option CAddrMan := do
  let info ← s.mapInfo[nId]?
  let nUBucket := info.getNewBucket hash64 s.nKey source
  if nId ∈ s.vvNew nUBucket then return s
  else
    let s := s.modify nId fun info => { info with nRefCount := info.nRefCount + 1 }
    let s ← s.makeRoom nUBucket chance call
    return { s with vvNew := Function.update s.vvNew nUBucket (insert nId (s.vvNew nUBucket)) }

/-- `Add_`. -/
def add (s : CAddrMan) (addr : CAddress) (source : CNetAddr) (nTimePenalty : Int64) (chance : Chance) :
    Option (Bool × CAddrMan) :=
  if !addr.isRoutable then some (false, s)
  else
    match s.find addr.toCNetAddr with
    | some (nId, info) =>
        let updated := refresh info addr nTimePenalty (chance.clock 0)
        let s := s.modify nId fun _ => updated
        if addr.nTime = 0 ∨ (updated.nTime ≠ 0 ∧ addr.nTime ≤ updated.nTime) then some (false, s)
        else if updated.fInTried then some (false, s)
        else if updated.nRefCount = newBucketsPerAddress then some (false, s)
        else
          let nFactor := 2 ^ updated.nRefCount.toNat
          if 1 < nFactor ∧ chance.getRandInt 0 nFactor ≠ 0 then some (false, s)
          else do
            let s ← s.addReference hash64 nId source chance 1
            return (false, s)
    | none => do
        let (nId, s) ← s.create addr source
        let s := s.modify nId fun info => { info with nTime := storedTime (info.time - nTimePenalty) }
        let s ← { s with nNew := s.nNew + 1 }.addReference hash64 nId source chance 0
        return (true, s)

/-- `Attempt_`. -/
def attempt (s : CAddrMan) (addr : CService) (nTime : Int64) : CAddrMan :=
  match s.find addr.toCNetAddr with
  | none => s
  | some (nId, info) =>
      if info.toCService ≠ addr then s
      else s.modify nId fun info => { info with nLastTry := nTime, nAttempts := info.nAttempts + 1 }

/-- `Connected_`. -/
def connected (s : CAddrMan) (addr : CService) (nTime : Int64) : CAddrMan :=
  match s.find addr.toCNetAddr with
  | none => s
  | some (nId, info) =>
      if info.toCService ≠ addr then s
      else
        let nUpdateInterval : Int64 := 20 * 60
        if nUpdateInterval < nTime - info.time then
          s.modify nId fun info => { info with nTime := nTime.toUInt64.toUInt32 }
        else s

/-- One pass through the loop of `GetAddr_`. -/
def drawAddress (chance : Chance) (drawn : List CAddress × CAddrMan) (n : Nat) :
    Option (List CAddress × CAddrMan) := do
  let (vAddr, s) := drawn
  let nRndPos := chance.getRandInt n (s.vRandom.length - n) + n
  let s ← s.swapRandom n nRndPos
  let nId ← s.vRandom[n]?
  let info ← s.mapInfo[nId]?
  return (vAddr ++ [info.toCAddress], s)

/-- `GetAddr_`. -/
def getAddr (s : CAddrMan) (chance : Chance) : Option (List CAddress × CAddrMan) :=
  let nNodes := min (getAddrMaxPct * s.vRandom.length / 100) getAddrMax
  (List.range nNodes).foldlM (drawAddress chance) ([], s)

/-- The code that the first loop of `Check_` returns at an entry. A look for an address that is not in
`mapAddr` makes an entry with the id 0 there. -/
def entryError (s : CAddrMan) (n : Int) (info : CAddrInfo) : Option Int :=
  if info.fInTried ∧ info.nLastSuccess = 0 then some (-1)
  else if info.fInTried ∧ info.nRefCount ≠ 0 then some (-2)
  else if ¬ info.fInTried ∧ (info.nRefCount < 0 ∨ newBucketsPerAddress < info.nRefCount) then some (-3)
  else if ¬ info.fInTried ∧ info.nRefCount = 0 then some (-4)
  else if s.mapAddr[info.toCNetAddr]?.getD 0 ≠ n then some (-5)
  else if Library.Tables.slot s.vRandom info.nRandomPos ≠ some n then some (-14)
  else if info.nLastTry < 0 then some (-6)
  else if info.nLastSuccess < 0 then some (-8)
  else none

/-- `setTried` and `mapNew` after the first loop of `Check_`. -/
def setTried (s : CAddrMan) : Finset Int :=
  ((s.mapInfo.toList.filter fun entry => entry.2.fInTried).map Prod.fst).toFinset

def mapNew (s : CAddrMan) : Std.ExtTreeMap Int Int compare :=
  s.mapInfo.filterMap fun _ info => if info.fInTried then none else some info.nRefCount

/-- One pass through the loop of `Check_` over the tried buckets, and through that over the new ones. -/
def crossTried (setTried : Finset Int) (n : Int) : Option (Finset Int) :=
  if n ∈ setTried then some (setTried.erase n) else none

def crossNew (mapNew : Std.ExtTreeMap Int Int compare) (n : Int) : Option (Std.ExtTreeMap Int Int compare) := do
  let references ← mapNew[n]?
  return if references - 1 = 0 then mapNew.erase n else mapNew.insert n (references - 1)

/-- The last part of `Check_`: all buckets are crossed off against the entries. -/
def checkBuckets (s : CAddrMan) : Int :=
  match ((List.finRange triedBucketCount).flatMap s.vvTried).foldlM crossTried s.setTried with
  | none => -11
  | some setTried =>
      match ((List.finRange newBucketCount).flatMap fun bucket =>
          (s.vvNew bucket).sort (· ≤ ·)).foldlM crossNew s.mapNew with
      | none => -12
      | some mapNew => if setTried.card ≠ 0 then -13 else if mapNew.size ≠ 0 then -15 else 0

/-- `Check_`. -/
def check_ (s : CAddrMan) : Int :=
  if (s.vRandom.length : Int) ≠ s.nTried + s.nNew then -7
  else
    match s.mapInfo.toList.findSome? fun entry => s.entryError entry.1 entry.2 with
    | some code => code
    | none =>
        if (s.setTried.card : Int) ≠ s.nTried then -9
        else if (s.mapNew.size : Int) ≠ s.nNew then -10
        else s.checkBuckets

/-- The calls on an address manager. -/
inductive Call where
  | add (addr : CAddress) (source : CNetAddr) (nTimePenalty : Int64) (chance : Chance)
  | good (addr : CService) (nTime : Int64) (chance : Chance)
  | attempt (addr : CService) (nTime : Int64)
  | connected (addr : CService) (nTime : Int64)
  | getAddr (chance : Chance)

/-- The state after a call. -/
def step (s : CAddrMan) : Call → Option CAddrMan
  | .add addr source nTimePenalty chance => (s.add hash64 addr source nTimePenalty chance).map Prod.snd
  | .good addr nTime chance => s.good hash64 addr nTime chance
  | .attempt addr nTime => some (s.attempt addr nTime)
  | .connected addr nTime => some (s.connected addr nTime)
  | .getAddr chance => (s.getAddr chance).map Prod.snd

/-- The state after a sequence of calls. -/
def run (s : CAddrMan) (calls : List Call) : Option CAddrMan := calls.foldlM (step hash64) s

end CAddrMan

end InfiniteRicks
