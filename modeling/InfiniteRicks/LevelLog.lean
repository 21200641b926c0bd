import InfiniteRicks.Serialize

/-!
# The log of the database

`log::Writer` and `log::Reader` of LevelDB (`log_format.h`, `log_writer.cc`, `log_reader.cc`), through which each batch
goes before it is in a table. A record is cut into fragments so that none crosses a block of 32 KiB, and the reader puts
them together again. A reader is modelled from the start of its file, as recovery opens one, and reads do not fail.
-/

namespace InfiniteRicks.LevelDb

/-- `crc32c::Extend`: the checksum of more data behind data with a known one. -/
structure Crc32c where
  extend : UInt32 → Bytes → UInt32
  extend_append : ∀ crc first second, extend (extend crc first) second = extend crc (first ++ second)

/-- `crc32c::Value`. -/
def Crc32c.value (crc : Crc32c) (data : Bytes) : UInt32 := crc.extend 0 data

/-- `crc32c::Mask`. -/
def mask (crc : UInt32) : UInt32 := ((crc >>> 15) ||| (crc <<< 17)) + 0xa282ead8

/-- `crc32c::Unmask`. -/
def unmask (masked_crc : UInt32) : UInt32 :=
  let rot := masked_crc - 0xa282ead8
  (rot >>> 17) ||| (rot <<< 15)

/-- `kBlockSize`. -/
def kBlockSize : Nat := 32768

/-- `kHeaderSize`: the checksum, the length and the type. -/
def kHeaderSize : Nat := 4 + 1 + 2

/-- `RecordType`, without the zero of preallocated files. -/
inductive RecordType where
  | full
  | first
  | middle
  | last
deriving DecidableEq

/-- The byte of a record type. -/
def RecordType.code : RecordType → UInt8
  | .full => 1
  | .first => 2
  | .middle => 3
  | .last => 4

section Writer

variable (crc : Crc32c)

/-- `Writer::EmitPhysicalRecord`: what it appends. -/
def emitPhysicalRecord (t : RecordType) (fragment : Bytes) : Bytes :=
  littleEndianBytes 4 (mask (crc.extend (crc.value [t.code]) fragment)).toNat ++
    littleEndianBytes 2 fragment.length ++ [t.code] ++ fragment

/-- Where no header fits into the rest of the block, a trailer ends it: the trailer and the offset behind it. -/
def switchBlock (block_offset : Nat) : Bytes × Nat :=
  if kBlockSize - block_offset < kHeaderSize then (List.replicate (kBlockSize - block_offset) 0, 0)
  else ([], block_offset)

theorem switchBlock_cases (block_offset : Nat) :
    (kBlockSize < block_offset + kHeaderSize ∧
      switchBlock block_offset = (List.replicate (kBlockSize - block_offset) 0, 0)) ∨
    (block_offset + kHeaderSize ≤ kBlockSize ∧ switchBlock block_offset = ([], block_offset)) := by
  have sizes : kBlockSize = 32768 ∧ kHeaderSize = 7 := by decide
  simp only [switchBlock]
  split
  · exact Or.inl ⟨by omega, rfl⟩
  · exact Or.inr ⟨by omega, rfl⟩

/-- `avail`: the payload that the block has room for behind a header. -/
def avail (block_offset : Nat) : Nat := kBlockSize - (switchBlock block_offset).2 - kHeaderSize

/-- A round takes some of the record, or it is one without payload, where just a header fits, and the next has room. -/
theorem round_decreases {block_offset : Nat} {left : Bytes} (more : left.drop (avail block_offset) ≠ []) :
    2 * (left.drop (avail block_offset)).length +
        (if (switchBlock block_offset).2 + kHeaderSize + (left.take (avail block_offset)).length + kHeaderSize =
          kBlockSize then 1 else 0) <
      2 * left.length + if block_offset + kHeaderSize = kBlockSize then 1 else 0 := by
  have sizes : kBlockSize = 32768 ∧ kHeaderSize = 7 := by decide
  rw [Ne, List.drop_eq_nil_iff, Nat.not_le] at more
  rcases switchBlock_cases block_offset with ⟨close, switched⟩ | ⟨room, stays⟩
  · simp only [avail, switched, List.length_drop, List.length_take] at more ⊢
    split <;> split <;> omega
  · simp only [avail, stays, List.length_drop, List.length_take] at more ⊢
    split <;> split <;> omega

/-- The type of a fragment. -/
def fragmentType (begins ends : Bool) : RecordType :=
  match begins, ends with
  | true, true => .full
  | true, false => .first
  | false, true => .last
  | false, false => .middle

/-- The loop of `Writer::AddRecord`: what it appends, and `block_offset_` behind it. -/
def addFragments (begins : Bool) (block_offset : Nat) (left : Bytes) : Bytes × Nat :=
  let fragment := left.take (avail block_offset)
  let rest := left.drop (avail block_offset)
  let block_offset' := (switchBlock block_offset).2 + kHeaderSize + fragment.length
  let appended := (switchBlock block_offset).1 ++ emitPhysicalRecord crc (fragmentType begins rest.isEmpty) fragment
  if rest = [] then (appended, block_offset')
  else (appended ++ (addFragments false block_offset' rest).1, (addFragments false block_offset' rest).2)
termination_by 2 * left.length + if block_offset + kHeaderSize = kBlockSize then 1 else 0
decreasing_by
  all_goals exact round_decreases ‹_›

/-- `Writer::AddRecord`. -/
def addRecord (block_offset : Nat) (slice : Bytes) : Bytes × Nat := addFragments crc true block_offset slice

/-- The log after records are added to a new one. -/
def addRecords : Nat → List Bytes → Bytes
  | _, [] => []
  | block_offset, slice :: rest =>
      (addRecord crc block_offset slice).1 ++ addRecords (addRecord crc block_offset slice).2 rest

end Writer

/-- A drop that a reader reports: its size and the reason. -/
structure Drop where
  bytes : Nat
  reason : String
deriving DecidableEq

/-- `Reader`: what it has not read of the file, what is left of the block that it has read, whether that was the last
one, and the drops reported. -/
structure Reader where
  file : Bytes
  buffer : Bytes
  eof : Bool
  drops : List Drop

namespace Reader

/-- `Reader::Reader` on a file, with an initial offset of 0. -/
def new (file : Bytes) : Reader := ⟨file, [], false, []⟩

/-- `Reader::ReportCorruption`. -/
def reportCorruption (r : Reader) (bytes : Nat) (reason : String) : Reader :=
  { r with drops := r.drops ++ [⟨bytes, reason⟩] }

/-- Read the next block. -/
def readBlock (r : Reader) : Reader :=
  { r with
    file := r.file.drop kBlockSize
    buffer := r.file.take kBlockSize
    eof := decide ((r.file.take kBlockSize).length < kBlockSize) }

/-- `kEof`. -/
def kEof : UInt32 := 5

/-- `kBadRecord`. -/
def kBadRecord : UInt32 := 6

/-- A `char` of a header as an `unsigned int`. -/
def typeOfChar (c : UInt8) : UInt32 := if c < 128 then c.toUInt32 else c.toUInt32 + 0xffffff00

variable (crc : Crc32c)

/-- `Reader::ReadPhysicalRecord` once the buffer has a header: the type or a special value, and the fragment. -/
def parseRecord (r : Reader) : (UInt32 × Bytes) × Reader :=
  let length := CScript.littleEndian ((r.buffer.drop 4).take 2)
  let type := typeOfChar ((r.buffer.drop 6).headD 0)
  let payload := (r.buffer.drop kHeaderSize).take length
  if r.buffer.length < kHeaderSize + length then
    if !r.eof then ((kBadRecord, []), { r with buffer := [] }.reportCorruption r.buffer.length "bad record length")
    else ((kEof, []), { r with buffer := [] })
  else if type = 0 ∧ length = 0 then ((kBadRecord, []), { r with buffer := [] })
  else if crc.value ((r.buffer.drop 6).take (1 + length)) ≠
      unmask (UInt32.ofNat (CScript.littleEndian (r.buffer.take 4))) then
    ((kBadRecord, []), { r with buffer := [] }.reportCorruption r.buffer.length "checksum mismatch")
  else ((type, payload), { r with buffer := r.buffer.drop (kHeaderSize + length) })

/-- `Reader::ReadPhysicalRecord`. Less than a header in the buffer is the trailer of a block or the end of the file;
a block read that is shorter than a header is the end too. -/
def readPhysicalRecord (r : Reader) : (UInt32 × Bytes) × Reader :=
  if r.buffer.length < kHeaderSize then
    if r.eof then ((kEof, []), { r with buffer := [] })
    else if r.readBlock.buffer.length < kHeaderSize then ((kEof, []), { r.readBlock with buffer := [] })
    else r.readBlock.parseRecord crc
  else r.parseRecord crc

/-- What is left to read. -/
def unread (r : Reader) : Nat := r.file.length + r.buffer.length

theorem parseRecord_unread {r : Reader} (header : kHeaderSize ≤ r.buffer.length) :
    (r.parseRecord crc).2.unread < r.unread := by
  have some : 0 < r.buffer.length := Nat.lt_of_lt_of_le (by decide) header
  simp only [parseRecord]
  split
  · split <;> exact Nat.add_lt_add_left some _
  split
  · exact Nat.add_lt_add_left some _
  split
  · exact Nat.add_lt_add_left some _
  · simp only [unread, List.length_drop, kHeaderSize]
    omega

/-- Every physical record takes some of the file. -/
theorem readPhysicalRecord_unread {r : Reader} (more : (r.readPhysicalRecord crc).1.1 ≠ kEof) :
    (r.readPhysicalRecord crc).2.unread < r.unread := by
  simp only [readPhysicalRecord] at more ⊢
  split_ifs at more ⊢ with short last final
  · exact absurd rfl more
  · exact absurd rfl more
  · have taken := parseRecord_unread crc (Nat.le_of_not_lt final)
    have moved : r.readBlock.unread ≤ r.unread := by
      simp only [unread, readBlock, List.length_drop, List.length_take]
      omega
    omega
  · exact parseRecord_unread crc (Nat.le_of_not_lt short)

/-- `Reader::ReadRecord`, from its loop on: the record, or none where it returns false. -/
def readFragments (r : Reader) (in_fragmented_record : Bool) (scratch : Bytes) : Option Bytes × Reader :=
  let record_type := (r.readPhysicalRecord crc).1.1
  let fragment := (r.readPhysicalRecord crc).1.2
  let next := (r.readPhysicalRecord crc).2
  if more : record_type = kEof then (none, next)
  else if record_type = 1 then
    (some fragment,
      if in_fragmented_record ∧ scratch ≠ [] then next.reportCorruption scratch.length "partial record without end(1)"
      else next)
  else if record_type = 2 then
    readFragments
      (if in_fragmented_record ∧ scratch ≠ [] then next.reportCorruption scratch.length "partial record without end(2)"
      else next) true fragment
  else if record_type = 3 then
    if in_fragmented_record then readFragments next true (scratch ++ fragment)
    else readFragments (next.reportCorruption fragment.length "missing start of fragmented record(1)") false scratch
  else if record_type = 4 then
    if in_fragmented_record then (some (scratch ++ fragment), next)
    else readFragments (next.reportCorruption fragment.length "missing start of fragmented record(2)") false scratch
  else if record_type = kBadRecord then
    if in_fragmented_record then
      readFragments (next.reportCorruption scratch.length "error in middle of record") false []
    else readFragments next false scratch
  else
    readFragments (next.reportCorruption (fragment.length + if in_fragmented_record then scratch.length else 0)
      (s!"unknown record type {record_type.toNat}")) false []
termination_by r.unread
decreasing_by
  all_goals
    have taken := readPhysicalRecord_unread crc more
    first
    | exact taken
    | (split <;> exact taken)

/-- `Reader::ReadRecord`. -/
def readRecord (r : Reader) : Option Bytes × Reader := r.readFragments crc false []

@[simp] theorem reportCorruption_unread (r : Reader) (bytes : Nat) (reason : String) :
    (r.reportCorruption bytes reason).unread = r.unread := rfl

/-- A record takes some of the file. -/
theorem readFragments_unread {r after : Reader} {in_fragmented_record : Bool} {scratch record : Bytes}
    (found : r.readFragments crc in_fragmented_record scratch = (some record, after)) : after.unread < r.unread := by
  induction size : r.unread using Nat.strong_induction_on generalizing r in_fragmented_record scratch with
  | _ size ih =>
      subst size
      rw [readFragments] at found
      by_cases final : (r.readPhysicalRecord crc).1.1 = kEof
      · simp only [dif_pos final, Prod.mk.injEq, reduceCtorEq, false_and] at found
      have taken := readPhysicalRecord_unread crc final
      have further : ∀ {next : Reader} {fragmented : Bool} {begun : Bytes},
          next.readFragments crc fragmented begun = (some record, after) →
          next.unread = (r.readPhysicalRecord crc).2.unread → after.unread < r.unread := by
        intro next fragmented begun rest same
        exact (ih _ (same ▸ taken) rest rfl).trans (same ▸ taken)
      simp only [dif_neg final] at found
      split at found
      · obtain ⟨-, rfl⟩ := Prod.mk.inj found
        split <;> exact taken
      split at found
      · split at found <;> exact further found rfl
      split at found
      · split at found <;> exact further found rfl
      split at found
      · split at found
        · obtain ⟨-, rfl⟩ := Prod.mk.inj found
          exact taken
        · exact further found rfl
      split at found
      · split at found <;> exact further found rfl
      · exact further found rfl

end Reader

end InfiniteRicks.LevelDb
