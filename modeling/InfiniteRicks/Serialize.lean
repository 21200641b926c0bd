import InfiniteRicks.Block
import InfiniteRicks.Library.Codec

/-!
# The wire format

`serialize.h` with the `IMPLEMENT_SERIALIZE` blocks of transactions and blocks
(`main.h`). A `CDataStream` keeps its read position in an `unsigned int`, and
`GetSerializeSize` adds in one, so both are exact for less than 4 GiB. Within that,
`Codec.Lawful` of each format gives the round trip and that a value has one encoding.
-/

namespace InfiniteRicks

open Library Library.Codec

/-- `MAX_SIZE`. -/
def maxSize : Nat := 0x02000000

/-- `CDataStream`: its buffer and the read position, which is never past the end. -/
structure CDataStream where
  vch : Bytes
  nReadPos : UInt32
  inRange : nReadPos.toNat ≤ vch.length

namespace CDataStream

/-- A stream made from bytes. -/
def ofBytes (vch : Bytes) : CDataStream := ⟨vch, 0, Nat.zero_le _⟩

/-- What is left to read. -/
def remaining (s : CDataStream) : Bytes := s.vch.drop s.nReadPos.toNat

/-- `CDataStream::read`. It throws past the end of the data; a read that passes the end because
the position wraps around has no defined result. -/
def read (nSize : Nat) : Reader CDataStream Bytes := fun s =>
  let nReadPosNext := s.nReadPos + UInt32.ofNat nSize
  let pch := s.remaining.take nSize
  if s.remaining.length < nSize then none
  else if more : nReadPosNext.toNat < s.vch.length then some (pch, ⟨s.vch, nReadPosNext, more.le⟩)
  else some (pch, ofBytes [])

/-- The bytes that can be read before the position wraps around. -/
def source : Source CDataStream := ⟨remaining, fun s => 2 ^ 32 - 1 - s.nReadPos.toNat⟩

/-- A read that is defined returns the bytes asked for, and as long as the position does not wrap
around the others are left. -/
theorem read_eq_some_iff {nSize : Nat} {s : CDataStream} (small : nSize < 2 ^ 32)
    (enough : nSize ≤ s.remaining.length) :
    ∃ after, read nSize s = some (s.remaining.take nSize, after) ∧
      (nSize ≤ source.room s → after.remaining = s.remaining.drop nSize ∧
        source.room s ≤ source.room after + nSize) := by
  have advance : nSize ≤ source.room s →
      (s.nReadPos + UInt32.ofNat nSize).toNat = s.nReadPos.toNat + nSize := by
    intro fits
    have position := s.nReadPos.toNat_lt
    rw [UInt32.toNat_add, UInt32.toNat_ofNat_of_lt' small, Nat.mod_eq_of_lt]
    simp only [source] at fits
    omega
  by_cases more : (s.nReadPos + UInt32.ofNat nSize).toNat < s.vch.length
  · refine ⟨⟨s.vch, _, more.le⟩, by simp only [read, Nat.not_lt.mpr enough, more, if_false, dif_pos], ?_⟩
    intro fits
    simp only [remaining, source, List.drop_drop, advance fits, true_and]
    omega
  · refine ⟨ofBytes [], by simp only [read, Nat.not_lt.mpr enough, more, if_false, dif_neg, not_false_eq_true], ?_⟩
    intro fits
    rw [advance fits] at more
    refine ⟨?_, ?_⟩
    · rw [remaining, remaining, List.drop_drop]
      exact (List.drop_eq_nil_of_le (by omega)).symm
    · simp only [source, ofBytes, UInt32.toNat_zero] at fits ⊢
      omega

theorem read_lawful {nSize : Nat} (small : nSize < 2 ^ 32) :
    Lawful source (fun bytes => bytes.length = nSize) (fun bytes => bytes) (read nSize) := by
  have enough : ∀ {s bytes after}, read nSize s = some (bytes, after) → nSize ≤ s.remaining.length := by
    intro s bytes after done
    by_contra short
    simp only [read, Nat.lt_of_not_le short, if_true] at done
    cases done
  constructor
  · rintro bytes s rest rfl shape fits
    change s.remaining = bytes ++ rest at shape
    obtain ⟨after, done, left⟩ := read_eq_some_iff small (by rw [shape, List.length_append]; omega)
    rw [shape, List.take_left] at done
    rw [shape, List.drop_left] at left
    exact ⟨after, done, left fits⟩
  · intro bytes s after done
    obtain ⟨found, again, -⟩ := read_eq_some_iff small (enough done)
    obtain ⟨rfl, rfl⟩ := Prod.mk.inj (Option.some.inj (done.symm.trans again))
    rw [List.length_take, Nat.min_eq_left (enough done)]
  · intro bytes s after done fits
    obtain ⟨found, again, left⟩ := read_eq_some_iff small (enough done)
    obtain ⟨rfl, rfl⟩ := Prod.mk.inj (Option.some.inj (done.symm.trans again))
    rw [List.length_take, Nat.min_eq_left (enough done)] at fits ⊢
    obtain ⟨rest, room⟩ := left fits
    refine ⟨?_, room⟩
    change s.remaining = _ ++ after.remaining
    rw [rest, List.take_append_drop]

end CDataStream

open CDataStream

/-- The bytes of an integer as `WRITEDATA` writes them, the least significant first. -/
def littleEndianBytes : Nat → Nat → Bytes
  | 0, _ => []
  | width + 1, value => UInt8.ofNat value :: littleEndianBytes width (value / 256)

@[simp] theorem length_littleEndianBytes (width value : Nat) : (littleEndianBytes width value).length = width := by
  induction width generalizing value with
  | zero => rfl
  | succ width ih => rw [littleEndianBytes, List.length_cons, ih]

theorem littleEndian_littleEndianBytes {width value : Nat} (fits : value < 256 ^ width) :
    CScript.littleEndian (littleEndianBytes width value) = value := by
  induction width generalizing value with
  | zero =>
      rw [pow_zero, Nat.lt_one_iff] at fits
      rw [fits]
      rfl
  | succ width ih =>
      rw [pow_succ] at fits
      rw [littleEndianBytes, CScript.littleEndian, ih (by omega), UInt8.toNat_ofNat']
      omega

theorem littleEndianBytes_littleEndian (bytes : Bytes) :
    littleEndianBytes bytes.length (CScript.littleEndian bytes) = bytes := by
  induction bytes with
  | nil => rfl
  | cons byte rest ih =>
      have small := byte.toNat_lt
      rw [List.length_cons, CScript.littleEndian, littleEndianBytes]
      congr 1
      · apply UInt8.toNat_inj.mp
        rw [UInt8.toNat_ofNat']
        omega
      · rw [show (byte.toNat + 256 * CScript.littleEndian rest) / 256 = CScript.littleEndian rest by omega]
        exact ih

theorem littleEndian_lt (bytes : Bytes) : CScript.littleEndian bytes < 256 ^ bytes.length := by
  induction bytes with
  | nil => decide
  | cons byte rest ih =>
      have small := byte.toNat_lt
      rw [CScript.littleEndian, List.length_cons, pow_succ]
      omega

/-- `READDATA` of an unsigned integer. -/
def readData (width : Nat) : Reader CDataStream Nat := do
  let bytes ← read width
  return CScript.littleEndian bytes

theorem readData_lawful {width : Nat} (small : width < 2 ^ 32) :
    Lawful source (fun value => value < 256 ^ width) (littleEndianBytes width) (readData width) := by
  refine (read_lawful small).last (littleEndianBytes width) (fun value _ => length_littleEndianBytes width value) ?_
  rintro bytes rfl value
  constructor
  · rintro ⟨fits, written⟩
    rw [← littleEndian_littleEndianBytes fits, written]
  · rintro rfl
    exact ⟨littleEndian_lt bytes, littleEndianBytes_littleEndian bytes⟩

/-- `WriteCompactSize`. -/
def writeCompactSize (nSize : Nat) : Bytes :=
  if nSize < 253 then [UInt8.ofNat nSize]
  else if nSize ≤ 0xffff then 253 :: littleEndianBytes 2 nSize
  else if nSize ≤ 0xffffffff then 254 :: littleEndianBytes 4 nSize
  else 255 :: littleEndianBytes 8 nSize

/-- A size after its first byte, refused where a shorter form would do. -/
def readLongSize (width least : Nat) : Reader CDataStream Nat := do
  let xSize ← readData width
  if xSize < least then failure else pure xSize

/-- The canonical size that `ReadCompactSize` reads. -/
def readSize : Reader CDataStream Nat := do
  let chSize ← readData 1
  if chSize < 253 then pure chSize
  else if chSize = 253 then readLongSize 2 253
  else if chSize = 254 then readLongSize 4 0x10000
  else readLongSize 8 0x100000000

/-- `ReadCompactSize`. -/
def readCompactSize : Reader CDataStream Nat := do
  let nSizeRet ← readSize
  if maxSize < nSizeRet then failure else pure nSizeRet

/-- The first byte of a compact size. -/
def sizeClass (nSize : Nat) : Nat :=
  if nSize < 253 then nSize else if nSize ≤ 0xffff then 253 else if nSize ≤ 0xffffffff then 254 else 255

/-- The bytes after it. -/
def sizeTail (nSize : Nat) : Bytes :=
  if nSize < 253 then []
  else if nSize ≤ 0xffff then littleEndianBytes 2 nSize
  else if nSize ≤ 0xffffffff then littleEndianBytes 4 nSize
  else littleEndianBytes 8 nSize

theorem readLongSize_lawful {width : Nat} (small : width < 2 ^ 32) (least : Nat) :
    Lawful source (fun nSize => nSize < 256 ^ width ∧ ¬ nSize < least) (littleEndianBytes width)
      (readLongSize width least) :=
  (readData_lawful small).checked fun xSize => xSize < least

theorem sizeClass_eq_long {nSize : Nat} :
    (sizeClass nSize = 253 ↔ 253 ≤ nSize ∧ nSize ≤ 0xffff) ∧
      (sizeClass nSize = 254 ↔ 0x10000 ≤ nSize ∧ nSize ≤ 0xffffffff) ∧
      (sizeClass nSize = 255 ↔ 0x100000000 ≤ nSize) := by
  simp only [sizeClass]
  split_ifs <;> omega

theorem sizeClass_lt (nSize : Nat) : sizeClass nSize < 256 ^ 1 := by
  simp only [sizeClass]
  split_ifs <;> omega

theorem sizeClass_append_sizeTail (nSize : Nat) :
    littleEndianBytes 1 (sizeClass nSize) ++ sizeTail nSize = writeCompactSize nSize := by
  simp only [writeCompactSize, sizeClass, sizeTail]
  split_ifs <;> rfl

/-- A size has one encoding. -/
theorem readSize_lawful : Lawful source (fun nSize => nSize < 2 ^ 64) writeCompactSize readSize := by
  refine Lawful.congr ((readData_lawful (by decide)).field sizeClass (fun nSize _ => sizeClass_lt nSize) ?_)
    (fun _ => Iff.rfl) fun nSize _ => sizeClass_append_sizeTail nSize
  intro chSize small
  by_cases short : chSize < 253
  · simp only [short, if_true]
    refine Lawful.congr (.done chSize fun _ => Iff.rfl) ?_ ?_
    · intro nSize
      simp only [sizeClass]
      split_ifs <;> omega
    · rintro nSize rfl
      rw [sizeTail, if_pos short]
  simp only [short, if_false]
  by_cases two : chSize = 253
  · simp only [two, if_true]
    refine (readLongSize_lawful (by decide) 253).congr ?_ ?_
    · intro nSize
      rw [sizeClass_eq_long.1]
      omega
    · intro nSize range
      rw [sizeTail, if_neg range.2, if_pos (by omega)]
  simp only [two, if_false]
  by_cases four : chSize = 254
  · simp only [four, if_true]
    refine (readLongSize_lawful (by decide) 0x10000).congr ?_ ?_
    · intro nSize
      rw [sizeClass_eq_long.2.1]
      omega
    · intro nSize range
      rw [sizeTail, if_neg (by omega), if_neg (by omega), if_pos (by omega)]
  simp only [four, if_false]
  refine (readLongSize_lawful (by decide) 0x100000000).congr ?_ ?_
  · intro nSize
    rw [show chSize = 255 by omega, sizeClass_eq_long.2.2]
    omega
  · intro nSize range
    rw [sizeTail, if_neg (by omega), if_neg (by omega), if_neg (by omega)]

theorem readCompactSize_lawful :
    Lawful source (fun nSize => nSize ≤ maxSize) writeCompactSize readCompactSize := by
  refine (Lawful.checked readSize_lawful fun nSize => maxSize < nSize).congr ?_ fun _ _ => rfl
  intro nSize
  simp only [maxSize]
  omega

/-- `Unserialize` of a vector of records; the vector grows in steps, and its elements are read in order. -/
def readVector {α : Type} (read : Reader CDataStream α) : Reader CDataStream (List α) := do
  let nSize ← readCompactSize
  repeated read nSize

/-- `Serialize` of a vector of records. -/
def writeVector {α : Type} (write : α → Bytes) (v : List α) : Bytes :=
  writeCompactSize v.length ++ v.flatMap write

theorem readVector_lawful {α : Type} {valid : α → Prop} {write : α → Bytes} {read : Reader CDataStream α}
    (lawful : Lawful source valid write read) :
    Lawful source (fun v => v.length ≤ maxSize ∧ ∀ value ∈ v, valid value) (writeVector write)
      (readVector read) := by
  refine Lawful.field List.length readCompactSize_lawful (fun v fits => fits.1) ?_
  intro nSize small
  refine (lawful.repeated nSize).congr ?_ fun _ _ => rfl
  intro v
  constructor
  · rintro ⟨each, rfl⟩
    exact ⟨⟨small, each⟩, rfl⟩
  · rintro ⟨⟨-, each⟩, length⟩
    exact ⟨each, length⟩

/-- The loop that reads a vector of bytes, at most 5000000 of them at a time. -/
def readBlocks (nSize : Nat) : Reader CDataStream Bytes :=
  if nSize = 0 then pure []
  else do
    let block ← read (min nSize (1 + 4999999))
    let rest ← readBlocks (nSize - min nSize (1 + 4999999))
    return block ++ rest
termination_by nSize
decreasing_by omega

/-- `Unserialize` of a vector of bytes. -/
def readBytes : Reader CDataStream Bytes := do
  let nSize ← readCompactSize
  readBlocks nSize

/-- `Serialize` of a vector of bytes. -/
def writeBytes (v : Bytes) : Bytes := writeCompactSize v.length ++ v

theorem readBlocks_lawful (nSize : Nat) :
    Lawful source (fun bytes => bytes.length = nSize) (fun bytes => bytes) (readBlocks nSize) := by
  induction nSize using Nat.strongRecOn with
  | ind nSize ih =>
      rw [readBlocks]
      split_ifs with empty
      · refine Lawful.congr (.done [] fun _ => Iff.rfl) ?_ ?_
        · intro bytes
          rw [empty, List.length_eq_zero_iff]
        · rintro bytes rfl
          rfl
      have parts : ∀ bytes : Bytes, bytes.take (min nSize (1 + 4999999)) ++ bytes.drop (min nSize (1 + 4999999)) = bytes :=
        fun bytes => List.take_append_drop _ _
      refine Lawful.congr ((read_lawful (by omega)).field (List.take (min nSize (1 + 4999999))) ?_ ?_)
        (fun _ => Iff.rfl) fun bytes _ => parts bytes
      · rintro bytes rfl
        rw [List.length_take]
        omega
      intro block blockLength
      refine (ih (nSize - min nSize (1 + 4999999)) (by omega)).last (List.drop (min nSize (1 + 4999999))) ?_ ?_
      · rintro bytes ⟨rfl, -⟩
        rw [List.length_drop]
      · intro rest restLength bytes
        constructor
        · rintro ⟨⟨-, rfl⟩, rfl⟩
          exact (parts bytes).symm
        · rintro rfl
          refine ⟨⟨?_, ?_⟩, ?_⟩
          · rw [List.length_append]
            omega
          · rw [← blockLength, List.take_left]
          · rw [← blockLength, List.drop_left]

theorem readBytes_lawful : Lawful source (fun v => v.length ≤ maxSize) writeBytes readBytes := by
  refine Lawful.field List.length readCompactSize_lawful (fun v fits => fits) ?_
  intro nSize small
  refine (readBlocks_lawful nSize).congr ?_ fun _ _ => rfl
  intro v
  constructor
  · rintro rfl
    exact ⟨small, rfl⟩
  · rintro ⟨-, length⟩
    exact length

/-- `READDATA` of an integer type. -/
def readInteger {α : Type} (width : Nat) (ofNat : Nat → α) : Reader CDataStream α := do
  let value ← readData width
  return ofNat value

def readUInt32 : Reader CDataStream UInt32 := readInteger 4 UInt32.ofNat
def writeUInt32 (value : UInt32) : Bytes := littleEndianBytes 4 value.toNat

def readInt32 : Reader CDataStream Int32 := readInteger 4 fun value => (UInt32.ofNat value).toInt32
def writeInt32 (value : Int32) : Bytes := littleEndianBytes 4 value.toUInt32.toNat

def readInt64 : Reader CDataStream Int64 := readInteger 8 fun value => (UInt64.ofNat value).toInt64
def writeInt64 (value : Int64) : Bytes := littleEndianBytes 8 value.toUInt64.toNat

/-- `base_uint::Unserialize`: eight words, which is one little-endian number. -/
def readUInt256 : Reader CDataStream UInt256 := readInteger 32 (BitVec.ofNat 256)
def writeUInt256 (value : UInt256) : Bytes := littleEndianBytes 32 value.toNat

theorem readInteger_lawful {α : Type} {width : Nat} {ofNat : Nat → α} (toNat : α → Nat) (small : width < 2 ^ 32)
    (bounded : ∀ value, toNat value < 256 ^ width) (left : ∀ value, ofNat (toNat value) = value)
    (right : ∀ value, value < 256 ^ width → toNat (ofNat value) = value) :
    Lawful source (fun _ => True) (fun value => littleEndianBytes width (toNat value)) (readInteger width ofNat) := by
  refine (readData_lawful small).last toNat (fun value _ => bounded value) ?_
  intro found fits value
  constructor
  · rintro ⟨-, rfl⟩
    exact (left value).symm
  · rintro rfl
    exact ⟨trivial, right found fits⟩

theorem readUInt32_lawful : Lawful source (fun _ => True) writeUInt32 readUInt32 :=
  readInteger_lawful UInt32.toNat (by decide) (fun value => value.toNat_lt) (fun value => UInt32.ofNat_toNat)
    fun value fits => UInt32.toNat_ofNat_of_lt' fits

theorem readInt32_lawful : Lawful source (fun _ => True) writeInt32 readInt32 :=
  readInteger_lawful (fun value : Int32 => value.toUInt32.toNat) (by decide) (fun value => value.toUInt32.toNat_lt)
    (fun value => by simp) fun value fits => by simp [UInt32.toNat_ofNat_of_lt' fits]

theorem readInt64_lawful : Lawful source (fun _ => True) writeInt64 readInt64 :=
  readInteger_lawful (fun value : Int64 => value.toUInt64.toNat) (by decide) (fun value => value.toUInt64.toNat_lt)
    (fun value => by simp) fun value fits => by simp [UInt64.toNat_ofNat_of_lt' fits]

theorem readUInt256_lawful : Lawful source (fun _ => True) writeUInt256 readUInt256 :=
  readInteger_lawful BitVec.toNat (by decide) (fun value => value.isLt) (fun value => by simp)
    fun value fits => by rw [BitVec.toNat_ofNat, Nat.mod_eq_of_lt (show value < 2 ^ 256 from fits)]

namespace COutPoint

/-- `FLATDATA` of an outpoint: its 36 bytes. -/
def serialize (prevout : COutPoint) : Bytes := writeUInt256 prevout.hash ++ writeUInt32 prevout.n

def unserialize : Reader CDataStream COutPoint := do
  let hash ← readUInt256
  let n ← readUInt32
  return ⟨hash, n⟩

theorem unserialize_lawful : Lawful source (fun _ => True) serialize unserialize := by
  refine Lawful.field hash readUInt256_lawful (fun _ _ => trivial) fun hash _ => ?_
  refine Lawful.last n readUInt32_lawful (fun _ _ => trivial) fun n _ prevout => ?_
  constructor
  · rintro ⟨⟨-, rfl⟩, rfl⟩
    rfl
  · rintro rfl
    exact ⟨⟨trivial, rfl⟩, rfl⟩

end COutPoint

namespace CTxIn

def serialize (txin : CTxIn) : Bytes :=
  txin.prevout.serialize ++ (writeBytes txin.scriptSig ++ writeUInt32 txin.nSequence)

def unserialize : Reader CDataStream CTxIn := do
  let prevout ← COutPoint.unserialize
  let scriptSig ← readBytes
  let nSequence ← readUInt32
  return ⟨prevout, scriptSig, nSequence⟩

/-- The script has at most `MAX_SIZE` bytes. -/
def Fits (txin : CTxIn) : Prop := txin.scriptSig.length ≤ maxSize

theorem unserialize_lawful : Lawful source Fits serialize unserialize := by
  refine Lawful.field prevout COutPoint.unserialize_lawful (fun _ _ => trivial) fun prevout _ => ?_
  refine Lawful.field scriptSig readBytes_lawful (fun _ known => known.1) fun scriptSig fits => ?_
  refine Lawful.last nSequence readUInt32_lawful (fun _ _ => trivial) fun nSequence _ txin => ?_
  constructor
  · rintro ⟨⟨⟨-, rfl⟩, rfl⟩, rfl⟩
    rfl
  · rintro rfl
    exact ⟨⟨⟨fits, rfl⟩, rfl⟩, rfl⟩

end CTxIn

namespace CTxOut

def serialize (txout : CTxOut) : Bytes := writeInt64 txout.nValue ++ writeBytes txout.scriptPubKey

def unserialize : Reader CDataStream CTxOut := do
  let nValue ← readInt64
  let scriptPubKey ← readBytes
  return ⟨nValue, scriptPubKey⟩

def Fits (txout : CTxOut) : Prop := txout.scriptPubKey.length ≤ maxSize

theorem unserialize_lawful : Lawful source Fits serialize unserialize := by
  refine Lawful.field nValue readInt64_lawful (fun _ _ => trivial) fun nValue _ => ?_
  refine Lawful.last scriptPubKey readBytes_lawful (fun _ known => known.1) fun scriptPubKey fits txout => ?_
  constructor
  · rintro ⟨⟨-, rfl⟩, rfl⟩
    rfl
  · rintro rfl
    exact ⟨⟨fits, rfl⟩, rfl⟩

end CTxOut

namespace CTransaction

/-- `CTransaction::Serialize`; the result does not depend on `nType` and `nVersion`. -/
def serialize (tx : CTransaction) : Bytes :=
  writeInt32 tx.nVersion ++ (writeUInt32 tx.nTime ++
    (writeVector CTxIn.serialize tx.vin ++ (writeVector CTxOut.serialize tx.vout ++ writeUInt32 tx.nLockTime)))

/-- `CTransaction::Unserialize`. -/
def unserialize : Reader CDataStream CTransaction := do
  let nVersion ← readInt32
  let nTime ← readUInt32
  let vin ← readVector CTxIn.unserialize
  let vout ← readVector CTxOut.unserialize
  let nLockTime ← readUInt32
  return ⟨nVersion, nTime, vin, vout, nLockTime⟩

/-- Every vector and script of the transaction has at most `MAX_SIZE` elements. -/
structure Fits (tx : CTransaction) : Prop where
  vin : tx.vin.length ≤ maxSize ∧ ∀ txin ∈ tx.vin, txin.Fits
  vout : tx.vout.length ≤ maxSize ∧ ∀ txout ∈ tx.vout, txout.Fits

theorem unserialize_lawful : Lawful source Fits serialize unserialize := by
  refine Lawful.field nVersion readInt32_lawful (fun _ _ => trivial) fun nVersion _ => ?_
  refine Lawful.field nTime readUInt32_lawful (fun _ _ => trivial) fun nTime _ => ?_
  refine (readVector_lawful CTxIn.unserialize_lawful).field vin (fun _ known => known.1.1.vin)
    fun vin vinFits => ?_
  refine (readVector_lawful CTxOut.unserialize_lawful).field vout (fun _ known => known.1.1.1.vout)
    fun vout voutFits => ?_
  refine Lawful.last nLockTime readUInt32_lawful (fun _ _ => trivial) fun nLockTime _ tx => ?_
  constructor
  · rintro ⟨⟨⟨⟨⟨-, rfl⟩, rfl⟩, rfl⟩, rfl⟩, rfl⟩
    rfl
  · rintro rfl
    exact ⟨⟨⟨⟨⟨⟨vinFits, voutFits⟩, rfl⟩, rfl⟩, rfl⟩, rfl⟩, rfl⟩

end CTransaction

/-- `SER_NETWORK`, `SER_DISK`, `SER_GETHASH` and `SER_BLOCKHEADERONLY`. -/
def serNetwork : UInt32 := 1
def serDisk : UInt32 := 2
def serGetHash : UInt32 := 4
def serBlockHeaderOnly : UInt32 := 0x20000

namespace CBlock

/-- The serialization leaves the transactions and the signature out. -/
def headerOnly (nType : UInt32) : Bool := nType &&& (serGetHash ||| serBlockHeaderOnly) ≠ 0

/-- `CBlock::Serialize`. -/
def serialize (nType : UInt32) (block : CBlock) : Bytes :=
  writeInt32 block.nVersion ++ (writeUInt256 block.hashPrevBlock ++ (writeUInt256 block.hashMerkleRoot ++
    (writeUInt32 block.nTime ++ (writeUInt32 block.nBits ++ (writeUInt32 block.nNonce ++
      if headerOnly nType then []
      else writeVector CTransaction.serialize block.vtx ++ writeBytes block.vchBlockSig)))))

/-- `CBlock::Unserialize`. -/
def unserialize (nType : UInt32) : Reader CDataStream CBlock := do
  let nVersion ← readInt32
  let hashPrevBlock ← readUInt256
  let hashMerkleRoot ← readUInt256
  let nTime ← readUInt32
  let nBits ← readUInt32
  let nNonce ← readUInt32
  if headerOnly nType then
    return ⟨⟨nVersion, hashPrevBlock, hashMerkleRoot, nTime, nBits, nNonce⟩, [], []⟩
  else
    let vtx ← readVector CTransaction.unserialize
    let vchBlockSig ← readBytes
    return ⟨⟨nVersion, hashPrevBlock, hashMerkleRoot, nTime, nBits, nNonce⟩, vtx, vchBlockSig⟩

/-- Every vector and script of the block has at most `MAX_SIZE` elements. -/
structure Fits (block : CBlock) : Prop where
  vtx : block.vtx.length ≤ maxSize ∧ ∀ tx ∈ block.vtx, tx.Fits
  vchBlockSig : block.vchBlockSig.length ≤ maxSize

theorem unserialize_lawful {nType : UInt32} (full : headerOnly nType = false) :
    Lawful source Fits (serialize nType) (unserialize nType) := by
  unfold serialize unserialize
  rw [full]
  refine Lawful.field (fun block : CBlock => block.nVersion) readInt32_lawful (fun _ _ => trivial) fun nVersion _ => ?_
  refine Lawful.field (fun block : CBlock => block.hashPrevBlock) readUInt256_lawful (fun _ _ => trivial) fun hashPrevBlock _ => ?_
  refine Lawful.field (fun block : CBlock => block.hashMerkleRoot) readUInt256_lawful (fun _ _ => trivial) fun hashMerkleRoot _ => ?_
  refine Lawful.field (fun block : CBlock => block.nTime) readUInt32_lawful (fun _ _ => trivial) fun nTime _ => ?_
  refine Lawful.field (fun block : CBlock => block.nBits) readUInt32_lawful (fun _ _ => trivial) fun nBits _ => ?_
  refine Lawful.field (fun block : CBlock => block.nNonce) readUInt32_lawful (fun _ _ => trivial) fun nNonce _ => ?_
  refine (readVector_lawful CTransaction.unserialize_lawful).field vtx (fun _ known => known.1.1.1.1.1.1.vtx)
    fun vtx vtxFits => ?_
  refine Lawful.last vchBlockSig readBytes_lawful (fun _ known => known.1.1.1.1.1.1.1.vchBlockSig)
    fun vchBlockSig sigFits block => ?_
  constructor
  · rintro ⟨⟨⟨⟨⟨⟨⟨⟨-, rfl⟩, rfl⟩, rfl⟩, rfl⟩, rfl⟩, rfl⟩, rfl⟩, rfl⟩
    rfl
  · rintro rfl
    exact ⟨⟨⟨⟨⟨⟨⟨⟨⟨vtxFits, sigFits⟩, rfl⟩, rfl⟩, rfl⟩, rfl⟩, rfl⟩, rfl⟩, rfl⟩, rfl⟩

end CBlock

/-! ## Sizes -/

/-- `GetSerializeSize` of a vector of bytes: the sum of two `size_t`, returned as `unsigned int`. -/
def bytesSerializeSize (v : Bytes) : UInt32 := UInt32.ofNat (getSizeOfCompactSize v.length + v.length)

/-- `GetSerializeSize` of a vector of records. -/
def vectorSerializeSize {α : Type} (size : α → UInt32) (v : List α) : UInt32 :=
  v.foldl (fun nSize value => nSize + size value) (UInt32.ofNat (getSizeOfCompactSize v.length))

def CTxIn.serializeSize (txin : CTxIn) : UInt32 := 0 + 36 + bytesSerializeSize txin.scriptSig + 4

def CTxOut.serializeSize (txout : CTxOut) : UInt32 := 0 + 8 + bytesSerializeSize txout.scriptPubKey

/-- `CTransaction::GetSerializeSize`, the sum in `nSerSize`. -/
def CTransaction.serializeSize (tx : CTransaction) : UInt32 :=
  0 + 4 + 4 + vectorSerializeSize CTxIn.serializeSize tx.vin + vectorSerializeSize CTxOut.serializeSize tx.vout + 4

/-- `CBlock::GetSerializeSize`. -/
def CBlock.serializeSize (nType : UInt32) (block : CBlock) : UInt32 :=
  let nSerSize := 0 + 4 + 32 + 32 + 4 + 4 + 4
  if headerOnly nType then nSerSize
  else nSerSize + vectorSerializeSize CTransaction.serializeSize block.vtx + bytesSerializeSize block.vchBlockSig

@[simp] theorem length_writeCompactSize (nSize : Nat) :
    (writeCompactSize nSize).length = getSizeOfCompactSize nSize := by
  simp only [writeCompactSize, getSizeOfCompactSize]
  split_ifs <;> simp

@[simp] theorem length_writeBytes (v : Bytes) : (writeBytes v).length = bytesSize v := by
  rw [writeBytes, List.length_append, length_writeCompactSize, bytesSize]

@[simp] theorem length_writeVector {α : Type} (write : α → Bytes) (v : List α) :
    (writeVector write v).length = getSizeOfCompactSize v.length + (v.map fun value => (write value).length).sum := by
  rw [writeVector, List.length_append, length_writeCompactSize, List.length_flatMap]

@[simp] theorem CTxIn.length_serialize (txin : CTxIn) :
    txin.serialize.length = 36 + bytesSize txin.scriptSig + 4 := by
  simp only [serialize, COutPoint.serialize, writeUInt256, writeUInt32, List.length_append,
    length_littleEndianBytes, length_writeBytes]
  omega

@[simp] theorem CTxOut.length_serialize (txout : CTxOut) :
    txout.serialize.length = 8 + bytesSize txout.scriptPubKey := by
  simp only [serialize, writeInt64, List.length_append, length_littleEndianBytes, length_writeBytes]

/-- The size that the rules on transactions use is the number of bytes. -/
@[simp] theorem CTransaction.length_serialize (tx : CTransaction) : tx.serialize.length = tx.getSerializeSize := by
  simp only [serialize, getSerializeSize, writeInt32, writeUInt32, List.length_append, length_littleEndianBytes,
    length_writeVector, CTxIn.length_serialize, CTxOut.length_serialize]
  omega

@[simp] theorem CBlock.length_serialize {nType : UInt32} (full : headerOnly nType = false) (block : CBlock) :
    (block.serialize nType).length = block.getSerializeSize := by
  simp only [serialize, full, getSerializeSize, writeInt32, writeUInt32, writeUInt256, List.length_append,
    length_littleEndianBytes, length_writeVector, length_writeBytes, CTransaction.length_serialize]
  simp only [Bool.false_eq_true, if_false, List.length_append, length_writeVector, length_writeBytes,
    CTransaction.length_serialize]
  change _ = 80 + (_ + (block.vtx.map fun tx => tx.getSerializeSize).sum) + _
  omega

theorem vectorSerializeSize_eq {α : Type} {size : α → UInt32} {write : α → Bytes}
    (exact : ∀ value, size value = UInt32.ofNat (write value).length) (v : List α) :
    vectorSerializeSize size v = UInt32.ofNat (writeVector write v).length := by
  have sum : ∀ start, v.foldl (fun nSize value => nSize + size value) (UInt32.ofNat start) =
      UInt32.ofNat (start + (v.map fun value => (write value).length).sum) := by
    induction v with
    | nil => intro start; rfl
    | cons value rest ih =>
        intro start
        rw [List.foldl_cons, exact, ← UInt32.ofNat_add, ih, List.map_cons, List.sum_cons, Nat.add_assoc]
  rw [length_writeVector]
  exact sum _

theorem CTxIn.serializeSize_eq (txin : CTxIn) : txin.serializeSize = UInt32.ofNat txin.serialize.length := by
  rw [length_serialize, UInt32.ofNat_add, UInt32.ofNat_add]
  rfl

theorem CTxOut.serializeSize_eq (txout : CTxOut) : txout.serializeSize = UInt32.ofNat txout.serialize.length := by
  rw [length_serialize, UInt32.ofNat_add]
  rfl

theorem CTransaction.serializeSize_eq (tx : CTransaction) :
    tx.serializeSize = UInt32.ofNat tx.serialize.length := by
  simp only [serializeSize, vectorSerializeSize_eq CTxIn.serializeSize_eq,
    vectorSerializeSize_eq CTxOut.serializeSize_eq, serialize, writeInt32, writeUInt32, List.length_append,
    length_littleEndianBytes, UInt32.ofNat_add]
  simp only [UInt32.add_assoc, UInt32.zero_add]
  rfl

theorem CBlock.serializeSize_eq (nType : UInt32) (block : CBlock) :
    block.serializeSize nType = UInt32.ofNat (block.serialize nType).length := by
  simp only [serializeSize, serialize, vectorSerializeSize_eq CTransaction.serializeSize_eq, writeInt32,
    writeUInt32, writeUInt256, List.length_append, length_littleEndianBytes]
  split_ifs
  · rfl
  · simp only [List.length_append, length_writeBytes, UInt32.ofNat_add]
    simp only [UInt32.add_assoc, UInt32.zero_add]
    rfl

/-! ## The encoding is injective

Without a reader there is no limit but that of the C++ types: a vector has fewer than 2^64 elements. -/

theorem littleEndianBytes_code (width : Nat) :
    PrefixCode (fun value => value < 256 ^ width) (littleEndianBytes width) := by
  refine .fixed width (length_littleEndianBytes width) ?_
  intro left right leftFits rightFits same
  rw [← littleEndian_littleEndianBytes leftFits, same, littleEndian_littleEndianBytes rightFits]

theorem writeCompactSize_code : PrefixCode (fun nSize => nSize < 2 ^ 64) writeCompactSize := by
  rw [← funext sizeClass_append_sizeTail]
  refine (littleEndianBytes_code 1).field sizeClass (fun nSize _ => sizeClass_lt nSize) ?_
  rintro chSize left right rest rest' ⟨leftFits, rfl⟩ ⟨rightFits, same⟩ tails
  simp only [sizeClass, sizeTail] at same tails
  split_ifs at same tails
  all_goals try omega
  · exact ⟨same.symm, tails⟩
  · exact littleEndianBytes_code 2 (by omega) (by omega) tails
  · exact littleEndianBytes_code 4 (by omega) (by omega) tails
  · exact littleEndianBytes_code 8 (by omega) (by omega) tails

theorem writeBytes_code : PrefixCode (fun v => v.length < 2 ^ 64) writeBytes := by
  refine PrefixCode.field List.length writeCompactSize_code (fun v fits => fits) ?_
  rintro nSize left right rest rest' ⟨-, leftLength⟩ ⟨-, rightLength⟩ same
  exact List.append_inj same (leftLength.trans rightLength.symm)

theorem writeVector_code {α : Type} {valid : α → Prop} {write : α → Bytes} (code : PrefixCode valid write) :
    PrefixCode (fun v => v.length < 2 ^ 64 ∧ ∀ value ∈ v, valid value) (writeVector write) := by
  refine PrefixCode.field List.length writeCompactSize_code (fun v fits => fits.1) ?_
  rintro nSize left right rest rest' ⟨⟨-, leftValid⟩, leftLength⟩ ⟨⟨-, rightValid⟩, rightLength⟩
  exact code.repeated nSize ⟨leftValid, leftLength⟩ ⟨rightValid, rightLength⟩

/-- An integer type is told apart by its bytes. -/
theorem integer_code {α : Type} {width : Nat} {toNat : α → Nat} (ofNat : Nat → α)
    (bounded : ∀ value, toNat value < 256 ^ width) (left : ∀ value, ofNat (toNat value) = value) :
    PrefixCode (fun _ => True) (fun value => littleEndianBytes width (toNat value)) :=
  (littleEndianBytes_code width).last toNat (fun value _ => bounded value) fun _ _ _ _ same =>
    Function.LeftInverse.injective left same

theorem writeUInt32_code : PrefixCode (fun _ => True) writeUInt32 :=
  integer_code UInt32.ofNat (fun value => value.toNat_lt) fun _ => UInt32.ofNat_toNat

theorem writeInt32_code : PrefixCode (fun _ => True) writeInt32 :=
  integer_code (fun value => (UInt32.ofNat value).toInt32) (fun value => value.toUInt32.toNat_lt) fun _ => by simp

theorem writeInt64_code : PrefixCode (fun _ => True) writeInt64 :=
  integer_code (fun value => (UInt64.ofNat value).toInt64) (fun value => value.toUInt64.toNat_lt) fun _ => by simp

theorem writeUInt256_code : PrefixCode (fun _ => True) writeUInt256 :=
  integer_code (BitVec.ofNat 256) (fun value => value.isLt) fun _ => by simp

attribute [ext] COutPoint CTxIn CTxOut CTransaction

theorem COutPoint.serialize_code : PrefixCode (fun _ => True) COutPoint.serialize := by
  refine PrefixCode.field hash writeUInt256_code (fun _ _ => trivial) fun hash => ?_
  refine PrefixCode.last n writeUInt32_code (fun _ _ => trivial) ?_
  rintro left right ⟨-, leftHash⟩ ⟨-, rightHash⟩ same
  exact COutPoint.ext (leftHash.trans rightHash.symm) same

theorem CTxIn.serialize_code : PrefixCode (fun txin => txin.scriptSig.length < 2 ^ 64) CTxIn.serialize := by
  refine PrefixCode.field prevout COutPoint.serialize_code (fun _ _ => trivial) fun prevout => ?_
  refine PrefixCode.field scriptSig writeBytes_code (fun _ known => known.1) fun scriptSig => ?_
  refine PrefixCode.last nSequence writeUInt32_code (fun _ _ => trivial) ?_
  rintro left right ⟨⟨-, leftPrevout⟩, leftScript⟩ ⟨⟨-, rightPrevout⟩, rightScript⟩ same
  exact CTxIn.ext (leftPrevout.trans rightPrevout.symm) (leftScript.trans rightScript.symm) same

theorem CTxOut.serialize_code : PrefixCode (fun txout => txout.scriptPubKey.length < 2 ^ 64) CTxOut.serialize := by
  refine PrefixCode.field nValue writeInt64_code (fun _ _ => trivial) fun nValue => ?_
  refine PrefixCode.last scriptPubKey writeBytes_code (fun _ known => known.1) ?_
  rintro left right ⟨-, leftValue⟩ ⟨-, rightValue⟩ same
  exact CTxOut.ext (leftValue.trans rightValue.symm) same

/-- The sizes of the vectors fit the `size_t` of the C++ types. -/
structure CTransaction.Sized (tx : CTransaction) : Prop where
  vin : tx.vin.length < 2 ^ 64 ∧ ∀ txin ∈ tx.vin, txin.scriptSig.length < 2 ^ 64
  vout : tx.vout.length < 2 ^ 64 ∧ ∀ txout ∈ tx.vout, txout.scriptPubKey.length < 2 ^ 64

theorem CTransaction.serialize_code : PrefixCode CTransaction.Sized CTransaction.serialize := by
  refine PrefixCode.field nVersion writeInt32_code (fun _ _ => trivial) fun nVersion => ?_
  refine PrefixCode.field nTime writeUInt32_code (fun _ _ => trivial) fun nTime => ?_
  refine (writeVector_code CTxIn.serialize_code).field vin (fun _ known => known.1.1.vin) fun vin => ?_
  refine (writeVector_code CTxOut.serialize_code).field vout (fun _ known => known.1.1.1.vout) fun vout => ?_
  refine PrefixCode.last nLockTime writeUInt32_code (fun _ _ => trivial) ?_
  rintro left right ⟨⟨⟨⟨-, version⟩, time⟩, inputs⟩, outputs⟩ ⟨⟨⟨⟨-, version'⟩, time'⟩, inputs'⟩, outputs'⟩ same
  exact CTransaction.ext (version.trans version'.symm) (time.trans time'.symm) (inputs.trans inputs'.symm)
    (outputs.trans outputs'.symm) same

/-- For values that serialize to less than 4 GiB: a serialized value is read back from a stream and what
follows it is left, the size is the number of bytes, and a stream from which the value is read began with
its serialization. -/
def WireExact {α : Type} (fits : α → Prop) (serialize : α → Bytes) (unserialize : Reader CDataStream α)
    (size : α → UInt32) : Prop :=
  ∀ value, (serialize value).length < 2 ^ 32 →
    (fits value → ∀ rest, ∃ after, unserialize (ofBytes (serialize value ++ rest)) = some (value, after) ∧
      after.remaining = rest) ∧
    (size value).toNat = (serialize value).length ∧
    ∀ bytes after, unserialize (ofBytes bytes) = some (value, after) →
      fits value ∧ bytes = serialize value ++ after.remaining

theorem WireExact.of_lawful {α : Type} {fits : α → Prop} {serialize : α → Bytes}
    {unserialize : Reader CDataStream α} {size : α → UInt32}
    (lawful : Lawful source fits serialize unserialize)
    (exact : ∀ value, size value = UInt32.ofNat (serialize value).length) :
    WireExact fits serialize unserialize size := by
  intro value small
  have room : ∀ bytes, (serialize value).length ≤ source.room (ofBytes bytes) := by
    intro bytes
    simp only [source, ofBytes, UInt32.toNat_zero]
    omega
  refine ⟨?_, ?_, ?_⟩
  · intro valueFits rest
    obtain ⟨after, done, left, -⟩ := lawful.reads valueFits rfl (room (serialize value ++ rest))
    exact ⟨after, done, left⟩
  · rw [exact, UInt32.toNat_ofNat_of_lt' small]
  · intro bytes after done
    exact ⟨lawful.accepts done, (lawful.canonical done (room bytes)).1⟩

/-- The wire format of transactions and blocks below 4 GiB. -/
theorem wire_format_exact {nType : UInt32} (full : CBlock.headerOnly nType = false) :
    WireExact CTransaction.Fits CTransaction.serialize CTransaction.unserialize CTransaction.serializeSize ∧
      WireExact CBlock.Fits (CBlock.serialize nType) (CBlock.unserialize nType) (CBlock.serializeSize nType) :=
  ⟨.of_lawful CTransaction.unserialize_lawful CTransaction.serializeSize_eq,
    .of_lawful (CBlock.unserialize_lawful full) (CBlock.serializeSize_eq nType)⟩

section Concrete

/-- A transaction with one input and one output. -/
def sampleTx : CTransaction := ⟨1, 1000, [⟨⟨7, 0⟩, [0x51], 0xffffffff⟩], [⟨500, [0x51, 0x52]⟩], 0⟩

def sampleBlock : CBlock := ⟨⟨1, 2, 3, 4, 5, 6⟩, [sampleTx], [0x30, 0x01]⟩

theorem wire_format_sample :
    CBlock.headerOnly serNetwork = false ∧
      (∃ after, CTransaction.unserialize (ofBytes (sampleTx.serialize ++ [0xff])) = some (sampleTx, after) ∧
        after.remaining = [0xff]) ∧
      (∃ after, CBlock.unserialize serNetwork (ofBytes (sampleBlock.serialize serNetwork ++ [0xff])) =
        some (sampleBlock, after) ∧ after.remaining = [0xff]) ∧
      (sampleBlock.serializeSize serNetwork).toNat = (sampleBlock.serialize serNetwork).length := by
  have full : CBlock.headerOnly serNetwork = false := by decide
  obtain ⟨transactions, blocks⟩ := wire_format_exact full
  have txFits : sampleTx.Fits := ⟨⟨by decide, by simp [sampleTx, CTxIn.Fits, maxSize]⟩,
    ⟨by decide, by simp [sampleTx, CTxOut.Fits, maxSize]⟩⟩
  have blockFits : sampleBlock.Fits := ⟨⟨by decide, by simpa [sampleBlock] using txFits⟩, by decide⟩
  obtain ⟨txRead, -⟩ := transactions sampleTx (by rw [CTransaction.length_serialize]; decide)
  obtain ⟨blockRead, size, -⟩ := blocks sampleBlock (by rw [CBlock.length_serialize full]; decide)
  exact ⟨full, txRead txFits [0xff], blockRead blockFits [0xff], size⟩

/-- A transaction with 128 outputs to one script. -/
def paying (script : CScript) : CTransaction := ⟨1, 0, [], List.replicate 128 ⟨0, script⟩, 0⟩

theorem paying_fits {script : CScript} (long : script.length = maxSize) : (paying script).Fits := by
  refine ⟨⟨Nat.zero_le _, List.forall_mem_nil _⟩, ?_, ?_⟩
  · rw [paying, List.length_replicate, maxSize]
    decide
  · intro txout member
    rw [List.eq_of_mem_replicate member]
    exact long.le

theorem paying_length {script : CScript} (long : script.length = maxSize) :
    2 ^ 32 ≤ (paying script).serialize.length := by
  rw [CTransaction.length_serialize, CTransaction.getSerializeSize, paying, List.map_replicate,
    List.sum_replicate_nat, bytesSize, long, maxSize]
  omega

/-- A script of `MAX_SIZE` bytes. -/
def longScript : CScript := List.replicate maxSize 0

/-- A transaction of more than 4 GiB, none of whose vectors is too long: `GetSerializeSize` is not the
number of its bytes. -/
theorem heavy_size_wraps : (paying longScript).Fits ∧
    (paying longScript).serializeSize.toNat ≠ (paying longScript).serialize.length := by
  have long : longScript.length = maxSize := List.length_replicate
  have more := paying_length long
  have less := (paying longScript).serializeSize.toNat_lt
  exact ⟨paying_fits long, by omega⟩

end Concrete

end InfiniteRicks
