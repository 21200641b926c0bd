import Mathlib.Tactic.Linarith
import InfiniteRicks.Serialize

/-!
# Records of the wallet file

The `IMPLEMENT_SERIALIZE` blocks of `CMerkleTx` (`main.h`), `CWalletTx` and
`CAccountingEntry` (`wallet.h`). The blocks of the last two put fields into `mapValue`
and take them out again, in an object that they declare constant, so each pass that
writes returns the object that it leaves. A `char` is its byte, and a `std::string` the
list of its bytes.
-/

namespace InfiniteRicks

open Library Library.Codec CDataStream

/-- `READDATA` of a `char`. -/
def readChar : Reader CDataStream UInt8 := readInteger 1 UInt8.ofNat
def writeChar (value : UInt8) : Bytes := littleEndianBytes 1 value.toNat

/-- `Unserialize` of a string; it is written as a vector of bytes is. -/
def readStdString : Reader CDataStream Bytes := do
  let nSize ← readCompactSize
  if nSize = 0 then return [] else read nSize

/-- `Serialize` of a pair of strings. -/
def writePair (item : Bytes × Bytes) : Bytes := writeBytes item.1 ++ writeBytes item.2

def readPair : Reader CDataStream (Bytes × Bytes) := do
  let first ← readStdString
  let second ← readStdString
  return (first, second)

def pairSerializeSize (item : Bytes × Bytes) : UInt32 := bytesSerializeSize item.1 + bytesSerializeSize item.2

/-- `mapValue_t`, in the order of the bytes of its keys. -/
abbrev MapValue := Std.ExtTreeMap Bytes Bytes compare

namespace MapValue

/-- `Serialize` of a map. -/
def serialize (mapValue : MapValue) : Bytes := writeVector writePair mapValue.toList

/-- `map::insert` of the items that were read; an item whose key is there is left out. -/
def ofItems (items : List (Bytes × Bytes)) : MapValue :=
  items.foldl (fun mapValue item => mapValue.insertIfNew item.1 item.2) ∅

/-- `Unserialize` of a map. -/
def unserialize : Reader CDataStream MapValue := do
  let items ← readVector readPair
  return ofItems items

def serializeSize (mapValue : MapValue) : UInt32 := vectorSerializeSize pairSerializeSize mapValue.toList

/-- `mapValue[key]` of a key that need not be there. -/
def get (mapValue : MapValue) (key : Bytes) : Bytes := mapValue[key]?.getD []

end MapValue

/-- The text of a string literal. -/
def text (characters : List Char) : Bytes := characters.map fun c => UInt8.ofNat c.toNat

/-- The decimal digits of `strprintf`. -/
def decimal (value : Nat) : Bytes := text (Nat.toDigits 10 value)

/-- `i64tostr`. -/
def i64tostr (n : Int64) : Bytes :=
  if n.toInt < 0 then 45 :: decimal n.toInt.natAbs else decimal n.toInt.natAbs

/-- `isspace` and `isdigit` of the C locale. -/
def isSpace (c : UInt8) : Bool := c = 32 || (9 ≤ c && c ≤ 13)
def isDigit (c : UInt8) : Bool := 48 ≤ c && c ≤ 57

/-- The digits at the front of a text. -/
def readDigits (psz : Bytes) : Nat :=
  (psz.takeWhile isDigit).foldl (fun value c => 10 * value + (c.toNat - 48)) 0

/-- A value out of range becomes the nearest in range. -/
def clampInt64 (value : Int) : Int64 := Int64.ofInt (max (-2 ^ 63) (min value (2 ^ 63 - 1)))

/-- `atoi64`, which is `strtoll` with base ten. -/
def atoi64 (psz : Bytes) : Int64 :=
  match psz.dropWhile isSpace with
  | 45 :: digits => clampInt64 (-(readDigits digits))
  | 43 :: digits => clampInt64 (readDigits digits)
  | digits => clampInt64 (readDigits digits)

/-- The keys of `mapValue` that the records keep for themselves. -/
def fromaccountKey : Bytes := text ['f', 'r', 'o', 'm', 'a', 'c', 'c', 'o', 'u', 'n', 't']
def versionKey : Bytes := text ['v', 'e', 'r', 's', 'i', 'o', 'n']
def spentKey : Bytes := text ['s', 'p', 'e', 'n', 't']
def nKey : Bytes := text ['n']
def timesmartKey : Bytes := text ['t', 'i', 'm', 'e', 's', 'm', 'a', 'r', 't']

/-- `ReadOrderPos`. -/
def readOrderPos (mapValue : MapValue) : Int64 :=
  match mapValue[nKey]? with
  | none => -1
  | some position => atoi64 position

/-- `WriteOrderPos`. -/
def writeOrderPos (nOrderPos : Int64) (mapValue : MapValue) : MapValue :=
  if nOrderPos = -1 then mapValue else mapValue.insert nKey (i64tostr nOrderPos)

/-- `CMerkleTx`, but for what is in memory only. -/
structure CMerkleTx where
  tx : CTransaction
  hashBlock : UInt256
  vMerkleBranch : List UInt256
  nIndex : Int32

namespace CMerkleTx

def serialize (merkle : CMerkleTx) : Bytes :=
  merkle.tx.serialize ++ (writeUInt256 merkle.hashBlock ++
    (writeVector writeUInt256 merkle.vMerkleBranch ++ writeInt32 merkle.nIndex))

def unserialize : Reader CDataStream CMerkleTx := do
  let tx ← CTransaction.unserialize
  let hashBlock ← readUInt256
  let vMerkleBranch ← readVector readUInt256
  let nIndex ← readInt32
  return ⟨tx, hashBlock, vMerkleBranch, nIndex⟩

def serializeSize (merkle : CMerkleTx) : UInt32 :=
  0 + merkle.tx.serializeSize + 32 + vectorSerializeSize (fun _ => 32) merkle.vMerkleBranch + 4

end CMerkleTx

/-- `CWalletTx`, but for its wallet and its cached amounts. -/
structure CWalletTxRecord where
  merkle : CMerkleTx
  vtxPrev : List CMerkleTx
  mapValue : MapValue
  vOrderForm : List (Bytes × Bytes)
  fTimeReceivedIsTxTime : UInt32
  nTimeReceived : UInt32
  nTimeSmart : UInt32
  fFromMe : UInt8
  strFromAccount : Bytes
  vfSpent : List UInt8
  nOrderPos : Int64

namespace CWalletTxRecord

/-- The text of the spent flags. -/
def spentText (vfSpent : List UInt8) : Bytes := vfSpent.map fun f => if f ≠ 0 then 49 else 48

/-- `fSpent`: some output is spent. -/
def fSpent (wtx : CWalletTxRecord) : UInt8 := if wtx.vfSpent.any fun f => f ≠ 0 then 1 else 0

/-- `mapValue` with the fields that are written with it. -/
def putFields (wtx : CWalletTxRecord) : MapValue :=
  let mapValue := wtx.mapValue.insert fromaccountKey wtx.strFromAccount
  let mapValue := mapValue.insert spentKey (spentText wtx.vfSpent)
  let mapValue := writeOrderPos wtx.nOrderPos mapValue
  if wtx.nTimeSmart ≠ 0 then mapValue.insert timesmartKey (decimal wtx.nTimeSmart.toNat) else mapValue

/-- The keys that are taken out of `mapValue` at the end of each pass. -/
def eraseFields (mapValue : MapValue) : MapValue :=
  ((((mapValue.erase fromaccountKey).erase versionKey).erase spentKey).erase nKey).erase timesmartKey

/-- The pass that writes, and the object afterwards. -/
def serialize (wtx : CWalletTxRecord) : Bytes × CWalletTxRecord :=
  let mapValue := wtx.putFields
  (wtx.merkle.serialize ++ (writeVector CMerkleTx.serialize wtx.vtxPrev ++ (mapValue.serialize ++
    (writeVector writePair wtx.vOrderForm ++ (writeUInt32 wtx.fTimeReceivedIsTxTime ++
      (writeUInt32 wtx.nTimeReceived ++ (writeChar wtx.fFromMe ++ writeChar wtx.fSpent)))))),
    { wtx with mapValue := eraseFields mapValue })

/-- The pass that counts, and the object afterwards. -/
def getSerializeSize (wtx : CWalletTxRecord) : UInt32 × CWalletTxRecord :=
  let mapValue := wtx.putFields
  (0 + wtx.merkle.serializeSize + vectorSerializeSize CMerkleTx.serializeSize wtx.vtxPrev +
    mapValue.serializeSize + vectorSerializeSize pairSerializeSize wtx.vOrderForm + 4 + 4 + 1 + 1,
    { wtx with mapValue := eraseFields mapValue })

/-- The spent flags that are read: of the text, or where there is none of an older record, one for
all outputs. -/
def readSpent (mapValue : MapValue) (outputs : Nat) (fSpent : UInt8) : List UInt8 :=
  match mapValue[spentKey]? with
  | some flags => flags.map fun c => if c ≠ 48 then 1 else 0
  | none => List.replicate outputs fSpent

/-- `nTimeSmart` as it is read. -/
def readTimeSmart (mapValue : MapValue) : UInt32 :=
  match mapValue[timesmartKey]? with
  | some time => (atoi64 time).toUInt64.toUInt32
  | none => 0

/-- The pass that reads. -/
def unserialize : Reader CDataStream CWalletTxRecord := do
  let merkle ← CMerkleTx.unserialize
  let vtxPrev ← readVector CMerkleTx.unserialize
  let mapValue ← MapValue.unserialize
  let vOrderForm ← readVector readPair
  let fTimeReceivedIsTxTime ← readUInt32
  let nTimeReceived ← readUInt32
  let fFromMe ← readChar
  let fSpent ← readChar
  return ⟨merkle, vtxPrev, eraseFields mapValue, vOrderForm, fTimeReceivedIsTxTime, nTimeReceived,
    readTimeSmart mapValue, fFromMe, mapValue.get fromaccountKey,
    readSpent mapValue merkle.tx.vout.length fSpent, readOrderPos mapValue⟩

end CWalletTxRecord

structure CAccountingEntry where
  strAccount : Bytes
  nCreditDebit : Int64
  nTime : Int64
  strOtherAccount : Bytes
  strComment : Bytes
  mapValue : MapValue
  nOrderPos : Int64
  nEntryNo : UInt64
  ssExtra : Bytes

namespace CAccountingEntry

/-- `CAccountingEntry()`; the constructor leaves `nEntryNo` as it is in memory. -/
def null (nEntryNo : UInt64) : CAccountingEntry := ⟨[], 0, 0, [], [], ∅, -1, nEntryNo, []⟩

/-- `strComment` as it is written: the map and the extra data follow it after a NUL. -/
def putFields (entry : CAccountingEntry) : Bytes :=
  let mapValue := writeOrderPos entry.nOrderPos entry.mapValue
  if mapValue.isEmpty ∧ entry.ssExtra = [] then entry.strComment
  else entry.strComment ++ 0 :: (mapValue.serialize ++ entry.ssExtra)

/-- The object after a pass that writes. -/
def eraseFields (entry : CAccountingEntry) : CAccountingEntry :=
  { entry with
    strComment := entry.putFields.takeWhile (· ≠ 0)
    mapValue := (writeOrderPos entry.nOrderPos entry.mapValue).erase nKey }

/-- `nType` leaves the version out. -/
def forHash (nType : UInt32) : Bool := nType &&& serGetHash ≠ 0

/-- The version that the record begins with, which nothing of it depends on. -/
def writeVersion (nType : UInt32) (nVersion : Int32) : Bytes := if forHash nType then [] else writeInt32 nVersion

def readVersion (nType : UInt32) : Reader CDataStream Int32 := if forHash nType then pure 0 else readInt32

/-- The pass that writes, and the object afterwards. -/
def serialize (nType : UInt32) (nVersion : Int32) (entry : CAccountingEntry) : Bytes × CAccountingEntry :=
  (writeVersion nType nVersion ++ (writeInt64 entry.nCreditDebit ++
    (writeInt64 entry.nTime ++ (writeBytes entry.strOtherAccount ++ writeBytes entry.putFields))),
    entry.eraseFields)

/-- The pass that counts, and the object afterwards. -/
def getSerializeSize (nType : UInt32) (entry : CAccountingEntry) : UInt32 × CAccountingEntry :=
  (0 + (if forHash nType then 0 else 4) + 8 + 8 + bytesSerializeSize entry.strOtherAccount +
    bytesSerializeSize entry.putFields, entry.eraseFields)

/-- The map and the extra data after the NUL of a comment. -/
def readTail (me : CAccountingEntry) (strComment : Bytes) : Option (MapValue × Bytes) :=
  match strComment.dropWhile (· ≠ 0) with
  | [] => some (∅, me.ssExtra)
  | _ :: ss => (MapValue.unserialize (ofBytes ss)).map fun (mapValue, rest) => (mapValue, rest.remaining)

/-- The pass that reads into an object. -/
def unserialize (nType : UInt32) (me : CAccountingEntry) : Reader CDataStream CAccountingEntry := do
  let _nVersion ← readVersion nType
  let nCreditDebit ← readInt64
  let nTime ← readInt64
  let strOtherAccount ← readStdString
  let strComment ← readStdString
  let (mapValue, ssExtra) ← StateT.lift (readTail me strComment)
  return { me with
    nCreditDebit, nTime, strOtherAccount, ssExtra
    strComment := strComment.takeWhile (· ≠ 0)
    mapValue := mapValue.erase nKey
    nOrderPos := readOrderPos mapValue }

end CAccountingEntry

end InfiniteRicks
