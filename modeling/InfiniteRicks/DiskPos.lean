import InfiniteRicks.ConnectSpec
import InfiniteRicks.NetMessage
import InfiniteRicks.Value
import Mathlib.Algebra.Order.BigOperators.Group.List

/-!
# Transaction positions are file offsets

`OpenBlockFile`, `AppendBlockFile`, `CBlock::WriteToDisk` and
`CTransaction::ReadFromDisk` over the bytes of the block files. `ConnectBlock` computes the
position of a transaction from sizes, without asking the serializer.
`connectBlock_truePos` says that it is where the serializer has put the transaction.
-/

namespace InfiniteRicks

open Library.Codec CDataStream Ledger

/-- The block files by number, and the one that blocks are appended to. A file that does not exist
reads like an empty one. -/
structure BlockDisk where
  files : UInt32 → Bytes
  nCurrentBlockFile : UInt32

namespace BlockDisk

/-- The numbers that `OpenBlockFile` refuses. -/
abbrev Refused (nFile : UInt32) : Prop := nFile < 1 ∨ nFile = 0xffffffff

/-- The loop of `AppendBlockFile`: the first file from `nFile` on that is short enough. -/
def appendFrom (files : UInt32 → Bytes) (nFile : UInt32) : Option UInt32 :=
  if Refused nFile then none
  else if (files nFile).length < 0x7F000000 - maxSize then some nFile
  else appendFrom files (nFile + 1)
termination_by 2 ^ 32 - nFile.toNat
decreasing_by
  rename_i accepted _
  have bound := nFile.toNat_lt
  have last : nFile.toNat ≠ 2 ^ 32 - 1 := fun same => accepted (.inr (UInt32.toNat_inj.mp same))
  have next : (nFile + 1).toNat = nFile.toNat + 1 := by
    rw [UInt32.toNat_add]
    exact Nat.mod_eq_of_lt (by change nFile.toNat + 1 < 2 ^ 32; omega)
  omega

/-- `AppendBlockFile`: the number of the file, which is also remembered. -/
def appendBlockFile (disk : BlockDisk) : Option (UInt32 × BlockDisk) :=
  (appendFrom disk.files disk.nCurrentBlockFile).map fun nFile => (nFile, { disk with nCurrentBlockFile := nFile })

/-- Write at the end of a file. -/
def append (disk : BlockDisk) (nFile : UInt32) (bytes : Bytes) : BlockDisk :=
  { disk with files := Function.update disk.files nFile (disk.files nFile ++ bytes) }

/-- `CTransaction::ReadFromDisk`. A file that is too short makes the reader throw, like a stream. -/
def readTx (disk : BlockDisk) (pos : CDiskTxPos) : Option CTransaction :=
  if Refused pos.nFile then none
  else (CTransaction.unserialize (ofBytes ((disk.files pos.nFile).drop pos.nTxPos.toNat))).map Prod.fst

/-- Bytes have only been added at the end of the files. -/
def Extends (earlier later : BlockDisk) : Prop := ∀ nFile, earlier.files nFile <+: later.files nFile

end BlockDisk

/-- `CBlock::WriteToDisk`: the file number, the position of the block, and the files after it. -/
def CBlock.writeToDisk (block : CBlock) (disk : BlockDisk) : Option (UInt32 × UInt32 × BlockDisk) :=
  match disk.appendBlockFile with
  | none => none
  | some (nFileRet, disk) =>
      let nSize := block.serializeSize serDisk
      let disk := disk.append nFileRet (pchMessageStart ++ writeUInt32 nSize)
      let nBlockPosRet := UInt32.ofNat (disk.files nFileRet).length
      some (nFileRet, nBlockPosRet, disk.append nFileRet (block.serialize serDisk))

/-! ## What is written -/

namespace BlockDisk

variable {disk later : BlockDisk} {nFile : UInt32}

theorem Extends.trans {middle : BlockDisk} (first : disk.Extends middle) (second : middle.Extends later) :
    disk.Extends later :=
  fun nFile => (first nFile).trans (second nFile)

theorem extends_append (disk : BlockDisk) (nFile : UInt32) (bytes : Bytes) :
    disk.Extends (disk.append nFile bytes) := by
  intro other
  by_cases same : other = nFile
  · subst same
    simp [append]
  · simp [append, Function.update_of_ne same]

@[simp] theorem files_append (disk : BlockDisk) (nFile : UInt32) (bytes : Bytes) :
    (disk.append nFile bytes).files nFile = disk.files nFile ++ bytes := by
  simp [append]

/-- `AppendBlockFile` returns a real file that leaves room for two gigabytes less a little. -/
theorem appendFrom_spec {files : UInt32 → Bytes} {start : UInt32} (found : appendFrom files start = some nFile) :
    ¬ Refused nFile ∧ (files nFile).length < 0x7F000000 - maxSize := by
  induction start using appendFrom.induct files with
  | case1 start refused =>
      rw [appendFrom, if_pos refused] at found
      cases found
  | case2 start accepted short =>
      rw [appendFrom, if_neg accepted, if_pos short] at found
      cases found
      exact ⟨accepted, short⟩
  | case3 start accepted long ih =>
      rw [appendFrom, if_neg accepted, if_neg long] at found
      exact ih found

end BlockDisk

namespace CBlock

variable {env : Env} {s after : Node} {block : CBlock} {pindex : CBlockIndex} {pprev : BlockPtr}
  {disk written later : BlockDisk} {nFile nBlockPos : UInt32}

/-- What `WriteToDisk` puts in front of the block. -/
def indexHeader (block : CBlock) : Bytes := pchMessageStart ++ writeUInt32 (block.serializeSize serDisk)

theorem writeToDisk_eq (block : CBlock)
    (found : BlockDisk.appendFrom disk.files disk.nCurrentBlockFile = some nFile) :
    block.writeToDisk disk = some (nFile, UInt32.ofNat (disk.files nFile ++ block.indexHeader).length,
      (BlockDisk.append ⟨disk.files, nFile⟩ nFile block.indexHeader).append nFile (block.serialize serDisk)) := by
  simp only [writeToDisk, BlockDisk.appendBlockFile, found, Option.map_some, BlockDisk.files_append]
  rfl

theorem writeToDisk_spec (done : block.writeToDisk disk = some (nFile, nBlockPos, written)) :
    ¬ BlockDisk.Refused nFile ∧
      written.files nFile = disk.files nFile ++ block.indexHeader ++ block.serialize serDisk ∧
      nBlockPos.toNat = (disk.files nFile ++ block.indexHeader).length ∧
      nBlockPos.toNat < 2 ^ 31 ∧ disk.Extends written := by
  cases found : BlockDisk.appendFrom disk.files disk.nCurrentBlockFile with
  | none => simp [writeToDisk, BlockDisk.appendBlockFile, found] at done
  | some number =>
      rw [writeToDisk_eq block found, Option.some.injEq, Prod.mk.injEq, Prod.mk.injEq] at done
      obtain ⟨rfl, rfl, rfl⟩ := done
      obtain ⟨accepted, short⟩ := BlockDisk.appendFrom_spec found
      have header : block.indexHeader.length = 8 := by
        simp [indexHeader, pchMessageStart, writeUInt32]
      have position : (disk.files number ++ block.indexHeader).length < 2 ^ 31 := by
        rw [List.length_append, header]
        rw [maxSize] at short
        omega
      have exact : (UInt32.ofNat (disk.files number ++ block.indexHeader).length).toNat =
          (disk.files number ++ block.indexHeader).length :=
        UInt32.toNat_ofNat_of_lt' (lt_trans position (by decide))
      refine ⟨accepted, by simp only [BlockDisk.files_append], exact, exact.trans_lt position, ?_⟩
      exact BlockDisk.Extends.trans (BlockDisk.extends_append _ _ _) (BlockDisk.extends_append _ _ _)

/-- The bytes of a serialized block in front of its `i`-th transaction. -/
def bytesBefore (block : CBlock) (i : Nat) : Bytes :=
  block.serialize (serDisk ||| serBlockHeaderOnly) ++ writeCompactSize block.vtx.length ++
    (block.vtx.take i).flatMap CTransaction.serialize

/-- The serializer writes the `i`-th transaction behind `bytesBefore`. -/
theorem serialize_split {i : Nat} {tx : CTransaction} (here : block.vtx[i]? = some tx) :
    block.serialize serDisk = block.bytesBefore i ++ tx.serialize ++
      ((block.vtx.drop (i + 1)).flatMap CTransaction.serialize ++ writeBytes block.vchBlockSig) := by
  have split : block.vtx = block.vtx.take i ++ tx :: block.vtx.drop (i + 1) := by
    obtain ⟨bound, rfl⟩ := List.getElem?_eq_some_iff.mp here
    rw [← List.drop_eq_getElem_cons bound, List.take_append_drop]
  have vector : writeVector CTransaction.serialize block.vtx = writeCompactSize block.vtx.length ++
      ((block.vtx.take i).flatMap CTransaction.serialize ++ (tx.serialize ++
        (block.vtx.drop (i + 1)).flatMap CTransaction.serialize)) := by
    rw [writeVector]
    congr 1
    conv_lhs => rw [split]
    rw [List.flatMap_append, List.flatMap_cons]
  have whole : headerOnly serDisk = false := by decide
  have header : headerOnly (serDisk ||| serBlockHeaderOnly) = true := by decide
  simp only [serialize, bytesBefore, whole, header, Bool.false_eq_true, if_true, if_false, vector,
    List.append_assoc, List.append_nil, List.nil_append]

theorem length_bytesBefore (block : CBlock) (i : Nat) :
    (block.bytesBefore i).length = 80 + getSizeOfCompactSize block.vtx.length +
      ((block.vtx.take i).map CTransaction.getSerializeSize).sum := by
  have header : headerOnly (serDisk ||| serBlockHeaderOnly) = true := by decide
  simp only [bytesBefore, serialize, header, if_true, writeInt32, writeUInt32, writeUInt256, List.length_append,
    length_littleEndianBytes, length_writeCompactSize, List.length_flatMap, List.length_nil,
    CTransaction.length_serialize]

/-- The size of an empty block, which `ConnectBlock` starts from: the header, no transaction and no
signature. -/
theorem serializeSize_empty (header : CBlockHeader) : serializeSize serDisk ⟨header, [], []⟩ = 82 := rfl

/-- The position counter of `ConnectBlock` at the `i`-th transaction is its offset. -/
theorem firstTxPos_add {i : Nat} (block : CBlock) (pindex : CBlockIndex)
    (fits : pindex.nBlockPos.toNat + (block.bytesBefore i).length < 2 ^ 32) :
    (block.firstTxPos pindex false +
        UInt32.ofNat ((block.vtx.take i).map CTransaction.getSerializeSize).sum).toNat =
      pindex.nBlockPos.toNat + (block.bytesBefore i).length := by
  -- The two compact sizes taken off are those of the two empty vectors in the empty block.
  have constant : serializeSize serDisk ⟨block.toCBlockHeader, [], []⟩ - 2 * UInt32.ofNat (getSizeOfCompactSize 0) =
      UInt32.ofNat 80 := by
    rw [serializeSize_empty]
    decide
  rw [serializeSize_empty] at constant
  have counter : block.firstTxPos pindex false +
        UInt32.ofNat ((block.vtx.take i).map CTransaction.getSerializeSize).sum =
      pindex.nBlockPos + UInt32.ofNat (block.bytesBefore i).length := by
    rw [length_bytesBefore, UInt32.ofNat_add, UInt32.ofNat_add, ← constant]
    simp only [firstTxPos, Bool.false_eq_true, if_false]
    grind
  have room : (block.bytesBefore i).length < 2 ^ 32 := by omega
  rw [counter, UInt32.toNat_add, UInt32.toNat_ofNat_of_lt' room, Nat.mod_eq_of_lt fits]

/-- The position recorded with the `i`-th transaction. -/
theorem getElem?_entriesFrom {vtx : List CTransaction} {nTxPos : UInt32} {i : Nat} {tx : CTransaction}
    (here : vtx[i]? = some tx) :
    (entriesFrom pindex nTxPos vtx)[i]? =
      some (tx, pindex.txPos (nTxPos + UInt32.ofNat ((vtx.take i).map CTransaction.getSerializeSize).sum)) := by
  induction vtx generalizing nTxPos i with
  | nil => simp at here
  | cons head rest ih =>
      cases i with
      | zero =>
          cases here
          simp [entriesFrom]
      | succ i =>
          rw [entriesFrom, List.getElem?_cons_succ, ih here, List.take_succ_cons, List.map_cons, List.sum_cons,
            UInt32.ofNat_add, UInt32.add_assoc]

end CBlock

/-! ## What is indexed -/

namespace Ledger

variable {env : Env} {index : TxIndexMap} {entries : TxHistory} {tx : CTransaction} {pos : CDiskTxPos}

/-- Connecting a transaction moves no other one. -/
theorem applyTx_pos_ne {hash : UInt256} (index : TxIndexMap) (distinct : hash ≠ env.txHash tx) :
    (applyTx env index tx pos hash).map CTxIndex.pos = (index hash).map CTxIndex.pos := by
  rw [applyTx, Function.update_of_ne distinct]
  split
  · rfl
  · have shape := congrArg (Option.map Prod.fst) (setSlots_shape index tx.vin pos hash)
    simpa only [Option.map_map, Function.comp_def] using shape

theorem applyTxs_pos_of_notMem {hash : UInt256} (absent : hash ∉ ids env entries) :
    (applyTxs env index entries hash).map CTxIndex.pos = (index hash).map CTxIndex.pos := by
  induction entries generalizing index with
  | nil => rfl
  | cons head rest ih =>
      rw [ids, List.map_cons, List.mem_cons, not_or] at absent
      exact (ih absent.2).trans (applyTx_pos_ne index absent.1)

/-- The entry of a connected transaction has the position it was connected at. -/
theorem applyTxs_pos (index : TxIndexMap) (nodup : (ids env entries).Nodup) (member : (tx, pos) ∈ entries) :
    (applyTxs env index entries (env.txHash tx)).map CTxIndex.pos = some pos := by
  induction entries generalizing index with
  | nil => cases member
  | cons head rest ih =>
      rw [ids, List.map_cons, List.nodup_cons] at nodup
      rcases List.mem_cons.mp member with rfl | later
      · refine (applyTxs_pos_of_notMem nodup.1).trans ?_
        simp [applyTx, CTxIndex.new]
      · exact ih _ nodup.2 later

end Ledger

/-- A vector has at most as many elements as bytes, and so has each element. -/
theorem vector_le_size {α : Type} {v : List α} {bound : Nat} (size : α → Nat)
    (positive : ∀ value, 1 ≤ size value) (small : (v.map size).sum ≤ bound) : v.length ≤ bound ∧ ∀ value ∈ v, size value ≤ bound := by
  have count := List.length_le_sum_of_one_le (v.map size) fun total present => by
    obtain ⟨value, -, rfl⟩ := List.mem_map.mp present
    exact positive value
  rw [List.length_map] at count
  exact ⟨count.trans small, fun value present => (List.le_sum_of_mem (List.mem_map_of_mem present)).trans small⟩

/-- A transaction of at most `MAX_SIZE` bytes has no longer vector. -/
theorem CTransaction.fits_of_size {tx : CTransaction} (small : tx.getSerializeSize ≤ maxSize) : tx.Fits := by
  rw [getSerializeSize] at small
  have inputs := vector_le_size (v := tx.vin) (fun txin => 36 + bytesSize txin.scriptSig + 4) (fun _ => by omega)
    (by omega : _ ≤ maxSize)
  have outputs := vector_le_size (v := tx.vout) (fun txout => 8 + bytesSize txout.scriptPubKey) (fun _ => by omega)
    (by omega : _ ≤ maxSize)
  refine ⟨⟨inputs.1, fun txin present => ?_⟩, ⟨outputs.1, fun txout present => ?_⟩⟩
  · have size := inputs.2 txin present
    rw [bytesSize] at size
    rw [CTxIn.Fits]
    omega
  · have size := outputs.2 txout present
    rw [bytesSize] at size
    rw [CTxOut.Fits]
    omega

/-- A transaction that stands at the position is read from it. -/
theorem BlockDisk.readTx_of_bytes {disk : BlockDisk} {pos : CDiskTxPos} {tx : CTransaction} {before : Bytes}
    (accepted : ¬ BlockDisk.Refused pos.nFile) (small : tx.getSerializeSize ≤ maxSize)
    (bytes : before ++ tx.serialize <+: disk.files pos.nFile) (offset : pos.nTxPos.toNat = before.length) :
    disk.readTx pos = some tx := by
  obtain ⟨rest, bytes⟩ := bytes
  have stream : source.remaining (ofBytes ((disk.files pos.nFile).drop pos.nTxPos.toNat)) = tx.serialize ++ rest := by
    rw [← bytes, offset, List.append_assoc, List.drop_left]
    rfl
  have room : tx.serialize.length ≤ source.room (ofBytes ((disk.files pos.nFile).drop pos.nTxPos.toNat)) := by
    rw [CTransaction.length_serialize]
    rw [maxSize] at small
    change tx.getSerializeSize ≤ 2 ^ 32 - 1 - 0
    omega
  obtain ⟨after, read, -⟩ := CTransaction.unserialize_lawful.reads (CTransaction.fits_of_size small) stream room
  rw [BlockDisk.readTx, if_neg accepted, read]
  rfl

namespace CBlock

variable {env : Env} {s after : Node} {block : CBlock} {pindex : CBlockIndex} {pprev : BlockPtr}
  {disk written later : BlockDisk} {nFile nBlockPos : UInt32}

theorem size_of_checkBlock {nAdjustedTime : Int} {fCheckPOW fCheckMerkleRoot fCheckSig : Bool}
    (checked : block.checkBlock env nAdjustedTime fCheckPOW fCheckMerkleRoot fCheckSig = true) :
    block.getSerializeSize ≤ maxBlockSize := by
  by_contra large
  simp only [checkBlock, Nat.lt_of_not_le large, decide_true, Bool.or_true, if_true] at checked
  cases checked

/-- The entry of the `i`-th transaction gives the file and the offset at which its first byte has been
written, and what is read back from there is the transaction. -/
structure TruePos (block : CBlock) (disk later : BlockDisk) (nFile : UInt32) (i : Nat) (tx : CTransaction)
    (pos : CDiskTxPos) : Prop where
  file : pos.nFile = nFile
  /-- The bytes of the block are those before the transaction, the transaction, and others. -/
  inBlock : ∃ rest, block.serialize serDisk = block.bytesBefore i ++ tx.serialize ++ rest
  /-- The file begins with what was there, the index header, and the block. -/
  inFile : disk.files nFile ++ block.indexHeader ++ block.serialize serDisk <+: later.files nFile
  offset : pos.nTxPos.toNat = (disk.files nFile ++ block.indexHeader ++ block.bytesBefore i).length
  readBack : later.readTx pos = some tx

/-- The transactions of a block that was written and then connected have true positions, in every later
state of the files. -/
theorem connectBlock_truePos (done : block.writeToDisk disk = some (nFile, nBlockPos, written))
    (extends_ : written.Extends later) (file : pindex.nFile = nFile) (place : pindex.nBlockPos = nBlockPos)
    (connected : block.connectBlock env s pindex pprev = some after) :
    ∀ i tx, block.vtx[i]? = some tx → ∃ txindex, after.txdb.readTxIndex (env.txHash tx) = some txindex ∧
      block.TruePos disk later nFile i tx txindex.pos := by
  obtain ⟨accepted, bytes, position, small, -⟩ := writeToDisk_spec done
  have spec := connectBlock_spec connected
  have size := size_of_checkBlock spec.checked
  intro i tx here
  have split := serialize_split here
  have lengths := congrArg List.length split
  rw [length_serialize (by decide)] at lengths
  simp only [List.length_append, CTransaction.length_serialize] at lengths
  rw [maxBlockSize] at size
  have inFile : disk.files nFile ++ block.indexHeader ++ block.serialize serDisk <+: later.files nFile :=
    bytes ▸ extends_ nFile
  -- The entry holds the position that the loop has counted.
  have nodup : (ids env (block.entries pindex)).Nodup := by
    rw [ids_entries]
    exact (checked_of_checkBlock spec.checked).nodup
  have recorded := applyTxs_pos s.txdb.txIndex nodup (List.mem_of_getElem? (getElem?_entriesFrom here))
  rw [← spec.txIndex] at recorded
  obtain ⟨txindex, found, pos⟩ := Option.map_eq_some_iff.mp recorded
  have offset : txindex.pos.nTxPos.toNat = (disk.files nFile ++ block.indexHeader ++ block.bytesBefore i).length := by
    rw [pos]
    refine (block.firstTxPos_add pindex (i := i) (by rw [place]; omega)).trans ?_
    rw [place, position, ← List.length_append]
  have inPos : txindex.pos.nFile = nFile := by
    rw [pos]
    exact file
  refine ⟨txindex, found, inPos, ⟨_, split⟩, inFile, offset, ?_⟩
  have fits : tx.getSerializeSize ≤ maxSize := by
    rw [maxSize]
    omega
  refine BlockDisk.readTx_of_bytes (inPos.symm ▸ accepted) fits ?_ offset
  rw [inPos]
  refine List.IsPrefix.trans ?_ inFile
  rw [split, List.append_assoc (disk.files nFile ++ block.indexHeader)]
  exact (List.prefix_append_right_inj _).mpr (List.prefix_append _ _)

end CBlock

section Concrete

/-- Two bytes in the first block file. -/
def shortDisk : BlockDisk := ⟨fun nFile => if nFile = 1 then [7, 7] else [], 1⟩

theorem writtenEntry_onDisk : (1 : UInt32) ≠ 0xffffffff := by decide

/-- The entry of the first block written to `shortDisk`. -/
def writtenEntry : CBlockIndex := { workEntry with nFile := 1, nBlockPos := 10, onDisk := writtenEntry_onDisk }

/-- A coinbase and a payment behind it are both found, also after the block has been written again. -/
theorem connectBlock_truePos_pair :
    ∃ written later after, (workBlock []).writeToDisk shortDisk = some (1, 10, written) ∧
      (workBlock []).writeToDisk written = some later ∧
      (workBlock []).connectBlock (Env.labelled false) fundedNode writtenEntry [workGenesis] = some after ∧
      ∀ i tx, (workBlock []).vtx[i]? = some tx →
        ∃ txindex, after.txdb.readTxIndex ((Env.labelled false).txHash tx) = some txindex ∧
          (workBlock []).TruePos shortDisk later.2.2 1 i tx txindex.pos := by
  have first : BlockDisk.appendFrom shortDisk.files shortDisk.nCurrentBlockFile = some 1 := by
    rw [BlockDisk.appendFrom, if_neg (by decide), if_pos (by decide)]
    rfl
  have done := CBlock.writeToDisk_eq (workBlock []) first
  have again : BlockDisk.appendFrom ((BlockDisk.append ⟨shortDisk.files, 1⟩ 1 (workBlock []).indexHeader).append 1
      ((workBlock []).serialize serDisk)).files 1 = some 1 := by
    rw [BlockDisk.appendFrom, if_neg (by decide), if_pos (by decide +kernel)]
  have second := CBlock.writeToDisk_eq (workBlock []) again
  have succeeds : ((workBlock []).connectBlock (Env.labelled false) fundedNode writtenEntry
      [workGenesis]).isSome = true := by decide +kernel
  obtain ⟨after, connected⟩ := Option.isSome_iff_exists.mp succeeds
  refine ⟨_, _, after, done, second, connected, ?_⟩
  exact CBlock.connectBlock_truePos done (CBlock.writeToDisk_spec second).2.2.2.2 rfl rfl connected

end Concrete

end InfiniteRicks
