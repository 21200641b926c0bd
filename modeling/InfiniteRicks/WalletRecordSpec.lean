import Mathlib.Algebra.Order.BigOperators.Group.List
import Mathlib.Data.List.TakeWhile
import InfiniteRicks.WalletRecord

/-!
# Wallet records are read back

What the blocks put into `mapValue` and take out again is read back and leaves the object
as it was, as long as the owner of the map stays clear of the keys that the records keep
for themselves. The limits are those of the wire format: a vector or string that is read
has at most `MAX_SIZE` elements, and a size is exact below 4 GiB.
-/

namespace InfiniteRicks

open Library Library.Codec CDataStream

theorem readChar_lawful : Lawful source (fun _ => True) writeChar readChar :=
  readInteger_lawful UInt8.toNat (by decide) (fun value => value.toNat_lt) (fun _ => UInt8.ofNat_toNat)
    fun _ fits => UInt8.toNat_ofNat_of_lt' fits

theorem readStdString_lawful : Lawful source (fun v => v.length ≤ maxSize) writeBytes readStdString := by
  refine readCompactSize_lawful.field List.length (fun v fits => fits) ?_
  intro nSize small
  have same : ∀ v : Bytes, v.length ≤ maxSize ∧ v.length = nSize ↔ v.length = nSize := by
    intro v
    omega
  by_cases empty : nSize = 0
  · simp only [empty, if_true]
    refine Lawful.congr (.done [] fun _ => Iff.rfl) ?_ ?_
    · intro v
      rw [← empty, same, empty, List.length_eq_zero_iff]
    · rintro v rfl
      rfl
  · simp only [empty, if_false]
    refine (read_lawful ?_).congr (fun v => (same v).symm) fun _ _ => rfl
    rw [maxSize] at small
    omega

/-- Both strings of a pair have at most `MAX_SIZE` bytes. -/
def PairFits (item : Bytes × Bytes) : Prop := item.1.length ≤ maxSize ∧ item.2.length ≤ maxSize

theorem readPair_lawful : Lawful source PairFits writePair readPair := by
  refine readStdString_lawful.field Prod.fst (fun _ fits => fits.1) fun first firstFits => ?_
  refine readStdString_lawful.last Prod.snd (fun _ known => known.1.2) fun second secondFits item => ?_
  constructor
  · rintro ⟨⟨-, rfl⟩, rfl⟩
    rfl
  · rintro rfl
    exact ⟨⟨⟨firstFits, secondFits⟩, rfl⟩, rfl⟩

theorem pairSerializeSize_eq (item : Bytes × Bytes) :
    pairSerializeSize item = UInt32.ofNat (writePair item).length := by
  rw [writePair, List.length_append, length_writeBytes, length_writeBytes, UInt32.ofNat_add]
  rfl

namespace MapValue

/-- The items of a map are put in again one by one. -/
theorem getElem?_foldl_insertIfNew {items : List (Bytes × Bytes)}
    (distinct : items.Pairwise fun left right => ¬ compare left.1 right.1 = .eq) (start : MapValue)
    (apart : ∀ item ∈ items, item.1 ∉ start) (key : Bytes) (value : Bytes) :
    (items.foldl (fun mapValue item => mapValue.insertIfNew item.1 item.2) start)[key]? = some value ↔
      start[key]? = some value ∨ (key, value) ∈ items := by
  induction items generalizing start with
  | nil => simp
  | cons item rest ih =>
      obtain ⟨others, later⟩ := List.pairwise_cons.mp distinct
      have new := apart item List.mem_cons_self
      have still : ∀ other ∈ rest, other.1 ∉ start.insertIfNew item.1 item.2 := by
        intro other member
        rw [Std.ExtTreeMap.mem_insertIfNew, not_or]
        exact ⟨others other member, apart other (List.mem_cons_of_mem _ member)⟩
      rw [List.foldl_cons, ih later _ still, Std.ExtTreeMap.getElem?_insertIfNew, List.mem_cons]
      by_cases same : item.1 = key
      · subst same
        have absent : start[item.1]? = none := Std.ExtTreeMap.getElem?_eq_none new
        rw [if_pos ⟨Std.ReflCmp.compare_self, new⟩, absent, Option.some.injEq, Prod.ext_iff]
        simp only [true_and, reduceCtorEq, false_or, eq_comm]
      · rw [if_neg (fun both => same (Std.LawfulEqCmp.compare_eq_iff_eq.mp both.1)), Prod.ext_iff]
        simp only [Ne.symm same, false_and, false_or]

theorem ofItems_toList (mapValue : MapValue) : ofItems mapValue.toList = mapValue := by
  refine Std.ExtTreeMap.ext_getElem? fun key => Option.ext fun value => ?_
  rw [ofItems, getElem?_foldl_insertIfNew Std.ExtTreeMap.distinct_keys_toList ∅ (by simp),
    Std.ExtTreeMap.mem_toList_iff_getElem?_eq_some]
  simp

/-- The map and its strings have at most `MAX_SIZE` elements. -/
def Fits (mapValue : MapValue) : Prop :=
  mapValue.toList.length ≤ maxSize ∧ ∀ item ∈ mapValue.toList, PairFits item

theorem restores {mapValue : MapValue} (fits : mapValue.Fits) :
    Restores source mapValue.serialize unserialize mapValue := by
  have items := @Restores.map _ _ _ _ _ _ _ ofItems ((readVector_lawful readPair_lawful).restores fits)
  rwa [ofItems_toList] at items

theorem serializeSize_eq (mapValue : MapValue) :
    mapValue.serializeSize = UInt32.ofNat mapValue.serialize.length :=
  vectorSerializeSize_eq pairSerializeSize_eq _

/-- A map that is written in few bytes fits. -/
theorem fits_of_length {mapValue : MapValue} (short : mapValue.serialize.length ≤ maxSize) : mapValue.Fits := by
  rw [serialize, length_writeVector] at short
  have positive : ∀ size ∈ mapValue.toList.map fun item => (writePair item).length, 1 ≤ size := by
    intro size member
    obtain ⟨item, -, rfl⟩ := List.mem_map.mp member
    simp only [writePair, List.length_append, length_writeBytes, bytesSize, getSizeOfCompactSize]
    split_ifs <;> omega
  have count := List.length_le_sum_of_one_le _ positive
  rw [List.length_map] at count
  refine ⟨by omega, ?_⟩
  intro item member
  have part := List.le_sum_of_mem (List.mem_map_of_mem (f := fun item => (writePair item).length) member)
  rw [writePair, List.length_append, length_writeBytes, length_writeBytes, bytesSize, bytesSize] at part
  exact ⟨by omega, by omega⟩

end MapValue

/-! ## Numbers as texts -/

theorem digitByte_toNat {c : Char} (digit : c.isDigit = true) : (UInt8.ofNat c.toNat).toNat = c.toNat := by
  have range : 48 ≤ c.toNat ∧ c.toNat ≤ 57 := Char.isDigit_iff_toNat.mp digit
  exact UInt8.toNat_ofNat_of_lt' (by change _ < 256; omega)

theorem isDigit_digitByte {c : Char} (digit : c.isDigit = true) : isDigit (UInt8.ofNat c.toNat) = true := by
  have value := digitByte_toNat digit
  rw [Char.isDigit_iff_toNat] at digit
  simp only [isDigit, Bool.and_eq_true, decide_eq_true_eq, UInt8.le_iff_toNat_le, value]
  exact digit

theorem isDigit_of_mem_decimal {value : Nat} {c : UInt8} (member : c ∈ decimal value) : isDigit c = true := by
  obtain ⟨digit, written, rfl⟩ := List.mem_map.mp member
  exact isDigit_digitByte (Nat.isDigit_of_mem_toDigits (by decide) (by decide) written)

theorem readDigits_decimal (value : Nat) : readDigits (decimal value) = value := by
  rw [readDigits, List.takeWhile_eq_self_iff.mpr fun c => isDigit_of_mem_decimal, decimal, text, List.foldl_map]
  refine Eq.trans ?_ (Nat.ofDigitChars_toDigits (b := 10) (by decide) (by decide))
  rw [Nat.ofDigitChars_eq_foldl]
  refine List.foldl_ext _ _ _ fun total c member => ?_
  rw [digitByte_toNat (Nat.isDigit_of_mem_toDigits (by decide) (by decide) member)]
  rfl

theorem clampInt64_of_range {value : Int} (range : -2 ^ 63 ≤ value ∧ value ≤ 2 ^ 63 - 1) :
    clampInt64 value = Int64.ofInt value := by
  rw [clampInt64, min_eq_left range.2, max_eq_right range.1]

theorem atoi64_decimal (value : Nat) : atoi64 (decimal value) = clampInt64 value := by
  obtain ⟨first, rest, shape⟩ := List.exists_cons_of_ne_nil
    (show decimal value ≠ [] from fun nil => Nat.toDigits_ne_nil (List.map_eq_nil_iff.mp nil))
  have digit : isDigit first = true := @isDigit_of_mem_decimal value _ (by simp [shape])
  have least : 48 ≤ first.toNat := by
    simp only [isDigit, Bool.and_eq_true, decide_eq_true_eq, UInt8.le_iff_toNat_le] at digit
    exact digit.1
  have space : isSpace first = false := by
    have blank : first ≠ 32 := by
      rintro rfl
      exact absurd least (by decide)
    have control : ¬ first ≤ 13 := by
      rw [UInt8.le_iff_toNat_le, show (13 : UInt8).toNat = 13 from rfl]
      omega
    simp [isSpace, blank, control]
  have sign : first ≠ 45 ∧ first ≠ 43 := by
    constructor <;> rintro rfl <;> exact absurd digit (by decide)
  rw [atoi64, shape, List.dropWhile_cons_of_neg (by simp [space]), ← shape]
  split
  · exact absurd (shape.symm.trans ‹_›) fun same => sign.1 (List.cons.inj same).1
  · exact absurd (shape.symm.trans ‹_›) fun same => sign.2 (List.cons.inj same).1
  · rw [readDigits_decimal]

/-- A number is read back from its text. -/
theorem atoi64_i64tostr (n : Int64) : atoi64 (i64tostr n) = n := by
  have least := n.le_toInt
  have most := n.toInt_lt
  rw [i64tostr]
  split_ifs with negative
  · have written : atoi64 (45 :: decimal n.toInt.natAbs) = clampInt64 (-(n.toInt.natAbs : Int)) :=
      congrArg (fun value : Nat => clampInt64 (-(value : Int))) (readDigits_decimal _)
    rw [written, show -(n.toInt.natAbs : Int) = n.toInt by omega, clampInt64_of_range (by omega), Int64.ofInt_toInt]
  · rw [atoi64_decimal, show (n.toInt.natAbs : Int) = n.toInt by omega, clampInt64_of_range (by omega),
      Int64.ofInt_toInt]

theorem atoi64_unsigned (value : UInt32) : (atoi64 (decimal value.toNat)).toUInt64.toUInt32 = value := by
  have small := value.toNat_lt
  rw [atoi64_decimal, clampInt64_of_range (by omega)]
  rw [Int64.ofInt_eq_ofNat]
  simp only [Int64.toUInt64_ofNat', UInt64.ofNat_uInt32ToNat, UInt32.toUInt32_toUInt64]

/-! ## Fields under reserved keys -/

theorem MapValue.getElem?_insert_eq (mapValue : MapValue) (key value other : Bytes) :
    (mapValue.insert key value)[other]? = if key = other then some value else mapValue[other]? := by
  simp only [Std.ExtTreeMap.getElem?_insert, Std.LawfulEqCmp.compare_eq_iff_eq]

theorem MapValue.getElem?_erase_eq (mapValue : MapValue) (key other : Bytes) :
    (mapValue.erase key)[other]? = if key = other then none else mapValue[other]? := by
  simp only [Std.ExtTreeMap.getElem?_erase, Std.LawfulEqCmp.compare_eq_iff_eq]

theorem getElem?_writeOrderPos (nOrderPos : Int64) (mapValue : MapValue) (key : Bytes) :
    (writeOrderPos nOrderPos mapValue)[key]? =
      if nOrderPos ≠ -1 ∧ nKey = key then some (i64tostr nOrderPos) else mapValue[key]? := by
  by_cases default : nOrderPos = -1
  · simp only [writeOrderPos, default, if_true, ne_eq, not_true_eq_false, false_and, if_false]
  · simp only [writeOrderPos, default, if_false, MapValue.getElem?_insert_eq, ne_eq, not_false_eq_true, true_and]

/-- A position is read back from a map that has it, or that has none and it is the default. -/
theorem readOrderPos_eq {nOrderPos : Int64} {mapValue : MapValue}
    (written : mapValue[nKey]? = if nOrderPos ≠ -1 then some (i64tostr nOrderPos) else none) :
    readOrderPos mapValue = nOrderPos := by
  rw [readOrderPos, written]
  by_cases default : nOrderPos = -1
  · rw [if_neg (not_not.mpr default), default]
  · rw [if_pos default]
    exact atoi64_i64tostr nOrderPos

/-- A position that is put into a map can be read and taken out again. -/
theorem writeOrderPos_spec (nOrderPos : Int64) {mapValue : MapValue} (free : nKey ∉ mapValue) :
    readOrderPos (writeOrderPos nOrderPos mapValue) = nOrderPos ∧
      (writeOrderPos nOrderPos mapValue).erase nKey = mapValue := by
  have absent : mapValue[nKey]? = none := Std.ExtTreeMap.getElem?_eq_none free
  constructor
  · refine readOrderPos_eq ?_
    rw [getElem?_writeOrderPos, absent]
    simp only [and_true]
  · refine Std.ExtTreeMap.ext_getElem? fun key => ?_
    rw [MapValue.getElem?_erase_eq, getElem?_writeOrderPos]
    by_cases same : nKey = key
    · rw [if_pos same, ← same, absent]
    · rw [if_neg same, if_neg fun both => same both.2]

theorem CMerkleTx.serializeSize_eq (merkle : CMerkleTx) :
    merkle.serializeSize = UInt32.ofNat merkle.serialize.length := by
  have branch : vectorSerializeSize (fun _ => 32) merkle.vMerkleBranch =
      UInt32.ofNat (writeVector writeUInt256 merkle.vMerkleBranch).length := by
    refine vectorSerializeSize_eq (fun value => ?_) _
    rw [writeUInt256, length_littleEndianBytes]
    rfl
  simp only [serializeSize, serialize, branch, CTransaction.serializeSize_eq, writeUInt256, writeInt32,
    List.length_append, length_littleEndianBytes, UInt32.ofNat_add]
  simp only [UInt32.add_assoc, UInt32.zero_add]
  rfl

/-- Every vector and script of the transaction and its branch has at most `MAX_SIZE` elements. -/
structure CMerkleTx.Fits (merkle : CMerkleTx) : Prop where
  tx : merkle.tx.Fits
  vMerkleBranch : merkle.vMerkleBranch.length ≤ maxSize

theorem CMerkleTx.unserialize_lawful : Lawful source Fits serialize unserialize := by
  refine CTransaction.unserialize_lawful.field tx (fun _ fits => fits.tx) fun tx txFits => ?_
  refine readUInt256_lawful.field hashBlock (fun _ _ => trivial) fun hashBlock _ => ?_
  refine (readVector_lawful readUInt256_lawful).field vMerkleBranch
    (fun _ known => ⟨known.1.1.vMerkleBranch, fun _ _ => trivial⟩) fun vMerkleBranch branchFits => ?_
  refine readInt32_lawful.last nIndex (fun _ _ => trivial) fun nIndex _ merkle => ?_
  constructor
  · rintro ⟨⟨⟨⟨-, rfl⟩, rfl⟩, rfl⟩, rfl⟩
    rfl
  · rintro rfl
    exact ⟨⟨⟨⟨⟨txFits, branchFits.1⟩, rfl⟩, rfl⟩, rfl⟩, rfl⟩

namespace CWalletTxRecord

/-- The keys that a wallet transaction keeps for itself. -/
def reservedKeys : List Bytes := [fromaccountKey, versionKey, spentKey, nKey, timesmartKey]

theorem getElem?_eraseFields (mapValue : MapValue) (key : Bytes) :
    (eraseFields mapValue)[key]? = if key ∈ reservedKeys then none else mapValue[key]? := by
  simp only [eraseFields, MapValue.getElem?_erase_eq, reservedKeys, List.mem_cons, List.not_mem_nil, or_false,
    eq_comm (a := key)]
  split_ifs <;> simp_all

theorem getElem?_putFields (wtx : CWalletTxRecord) (key : Bytes) :
    wtx.putFields[key]? =
      if wtx.nTimeSmart ≠ 0 ∧ timesmartKey = key then some (decimal wtx.nTimeSmart.toNat)
      else if wtx.nOrderPos ≠ -1 ∧ nKey = key then some (i64tostr wtx.nOrderPos)
      else if spentKey = key then some (spentText wtx.vfSpent)
      else if fromaccountKey = key then some wtx.strFromAccount
      else wtx.mapValue[key]? := by
  by_cases default : wtx.nTimeSmart = 0
  · simp only [putFields, default, ne_eq, not_true_eq_false, if_false, false_and, getElem?_writeOrderPos,
      MapValue.getElem?_insert_eq]
  · simp only [putFields, default, ne_eq, not_false_eq_true, if_true, true_and, getElem?_writeOrderPos,
      MapValue.getElem?_insert_eq]

/-- The owner's map has none of the keys that the record keeps for itself. -/
def Unreserved (mapValue : MapValue) : Prop := ∀ key ∈ reservedKeys, key ∉ mapValue

theorem Unreserved.get {mapValue : MapValue} (free : Unreserved mapValue) {key : Bytes} (reserved : key ∈ reservedKeys) :
    mapValue[key]? = none := Std.ExtTreeMap.getElem?_eq_none (free key reserved)

section Fields

variable {wtx : CWalletTxRecord}

/-- Each pass that writes leaves the map as it was. -/
theorem eraseFields_putFields (free : Unreserved wtx.mapValue) : eraseFields wtx.putFields = wtx.mapValue := by
  refine Std.ExtTreeMap.ext_getElem? fun key => ?_
  rw [getElem?_eraseFields]
  split_ifs with reserved
  · exact (free.get reserved).symm
  · have others : timesmartKey ≠ key ∧ nKey ≠ key ∧ spentKey ≠ key ∧ fromaccountKey ≠ key := by
      refine ⟨?_, ?_, ?_, ?_⟩ <;> rintro rfl <;> exact reserved (by decide)
    simp only [getElem?_putFields, others.1, others.2.1, others.2.2.1, others.2.2.2, and_false, if_false]

theorem get_fromaccount : wtx.putFields.get fromaccountKey = wtx.strFromAccount := by
  rw [MapValue.get, getElem?_putFields, if_neg (fun both => absurd both.2 (by decide)),
    if_neg (fun both => absurd both.2 (by decide)), if_neg (by decide), if_pos rfl, Option.getD_some]

theorem readSpent_putFields (outputs : Nat) (fSpent : UInt8) :
    readSpent wtx.putFields outputs fSpent = wtx.vfSpent.map fun f => if f ≠ 0 then 1 else 0 := by
  rw [readSpent, getElem?_putFields, if_neg (fun both => absurd both.2 (by decide)),
    if_neg (fun both => absurd both.2 (by decide)), if_pos rfl]
  simp only [spentText, List.map_map]
  refine List.map_congr_left fun f _ => ?_
  by_cases set : f = 0 <;> simp [set]

theorem readOrderPos_putFields (free : Unreserved wtx.mapValue) : readOrderPos wtx.putFields = wtx.nOrderPos := by
  refine readOrderPos_eq ?_
  rw [getElem?_putFields, if_neg (fun both => absurd both.2 (by decide)), if_neg (show ¬ spentKey = nKey by decide),
    if_neg (show ¬ fromaccountKey = nKey by decide), free.get (by decide)]
  simp only [and_true]

theorem readTimeSmart_putFields (free : Unreserved wtx.mapValue) : readTimeSmart wtx.putFields = wtx.nTimeSmart := by
  have written : wtx.putFields[timesmartKey]? =
      if wtx.nTimeSmart ≠ 0 then some (decimal wtx.nTimeSmart.toNat) else none := by
    rw [getElem?_putFields, if_neg (show ¬ (_ ∧ nKey = timesmartKey) from fun both => absurd both.2 (by decide)),
      if_neg (show ¬ spentKey = timesmartKey by decide), if_neg (show ¬ fromaccountKey = timesmartKey by decide),
      free.get (by decide)]
    simp only [and_true]
  rw [readTimeSmart, written]
  by_cases default : wtx.nTimeSmart = 0
  · rw [if_neg (not_not.mpr default), default]
  · rw [if_pos default]
    exact atoi64_unsigned wtx.nTimeSmart

end Fields

/-- Every vector and string that is written has at most `MAX_SIZE` elements. -/
structure Fits (wtx : CWalletTxRecord) : Prop where
  merkle : wtx.merkle.Fits
  vtxPrev : wtx.vtxPrev.length ≤ maxSize ∧ ∀ prev ∈ wtx.vtxPrev, prev.Fits
  mapValue : wtx.putFields.Fits
  vOrderForm : wtx.vOrderForm.length ≤ maxSize ∧ ∀ item ∈ wtx.vOrderForm, PairFits item

/-- The record with each spent flag as its truth value. -/
def normal (wtx : CWalletTxRecord) : CWalletTxRecord :=
  { wtx with vfSpent := wtx.vfSpent.map fun f => if f ≠ 0 then 1 else 0 }

theorem serialize_snd {wtx : CWalletTxRecord} (free : Unreserved wtx.mapValue) : wtx.serialize.2 = wtx := by
  simp only [serialize, eraseFields_putFields free]

theorem getSerializeSize_snd {wtx : CWalletTxRecord} (free : Unreserved wtx.mapValue) :
    wtx.getSerializeSize.2 = wtx := by
  simp only [getSerializeSize, eraseFields_putFields free]

theorem getSerializeSize_fst (wtx : CWalletTxRecord) :
    wtx.getSerializeSize.1 = UInt32.ofNat wtx.serialize.1.length := by
  simp only [getSerializeSize, serialize, CMerkleTx.serializeSize_eq, MapValue.serializeSize_eq,
    vectorSerializeSize_eq CMerkleTx.serializeSize_eq, vectorSerializeSize_eq pairSerializeSize_eq,
    List.length_append, UInt32.ofNat_add, writeUInt32, writeChar, length_littleEndianBytes]
  simp only [UInt32.add_assoc, UInt32.zero_add]
  rfl

theorem unserialize_serialize {wtx : CWalletTxRecord} (fits : wtx.Fits) (free : Unreserved wtx.mapValue) :
    Restores source wtx.serialize.1 unserialize wtx.normal := by
  refine (CMerkleTx.unserialize_lawful.restores fits.merkle).bind ?_
  refine ((readVector_lawful CMerkleTx.unserialize_lawful).restores fits.vtxPrev).bind ?_
  refine (MapValue.restores fits.mapValue).bind ?_
  refine ((readVector_lawful readPair_lawful).restores fits.vOrderForm).bind ?_
  refine (readUInt32_lawful.restores trivial).bind ?_
  refine (readUInt32_lawful.restores trivial).bind ?_
  refine (readChar_lawful.restores trivial).bind ?_
  have built : (⟨wtx.merkle, wtx.vtxPrev, eraseFields wtx.putFields, wtx.vOrderForm, wtx.fTimeReceivedIsTxTime,
      wtx.nTimeReceived, readTimeSmart wtx.putFields, wtx.fFromMe, wtx.putFields.get fromaccountKey,
      readSpent wtx.putFields wtx.merkle.tx.vout.length wtx.fSpent, readOrderPos wtx.putFields⟩ :
        CWalletTxRecord) = wtx.normal := by
    rw [eraseFields_putFields free, readTimeSmart_putFields free, get_fromaccount, readSpent_putFields,
      readOrderPos_putFields free]
    rfl
  rw [← built]
  exact (readChar_lawful.restores trivial).map

end CWalletTxRecord

namespace CAccountingEntry

/-- The comment has no NUL, and the owner's map has no position. -/
structure Plain (entry : CAccountingEntry) : Prop where
  strComment : (0 : UInt8) ∉ entry.strComment
  mapValue : nKey ∉ entry.mapValue

/-- The strings that are written have at most `MAX_SIZE` bytes. -/
structure Fits (entry : CAccountingEntry) : Prop where
  strOtherAccount : entry.strOtherAccount.length ≤ maxSize
  putFields : entry.putFields.length ≤ maxSize

theorem takeWhile_append_nul {comment : Bytes} (plain : (0 : UInt8) ∉ comment) (rest : Bytes) :
    (comment ++ 0 :: rest).takeWhile (· ≠ 0) = comment ∧ (comment ++ 0 :: rest).dropWhile (· ≠ 0) = 0 :: rest := by
  have kept : ∀ c ∈ comment, decide (c ≠ 0) = true := by
    intro c member
    exact decide_eq_true (ne_of_mem_of_not_mem member plain)
  constructor
  · rw [List.takeWhile_append_of_pos kept, List.takeWhile_cons_of_neg (by decide), List.append_nil]
  · rw [List.dropWhile_append_of_pos kept, List.dropWhile_cons_of_neg (by decide)]

theorem takeWhile_plain {comment : Bytes} (plain : (0 : UInt8) ∉ comment) :
    comment.takeWhile (· ≠ 0) = comment ∧ comment.dropWhile (· ≠ 0) = [] := by
  have kept : ∀ c ∈ comment, decide (c ≠ 0) = true := by
    intro c member
    exact decide_eq_true (ne_of_mem_of_not_mem member plain)
  exact ⟨List.takeWhile_eq_self_iff.mpr kept, List.dropWhile_eq_nil_iff.mpr kept⟩

/-- The comment is what stands before the first NUL of what is written. -/
theorem takeWhile_putFields {entry : CAccountingEntry} (plain : entry.Plain) :
    entry.putFields.takeWhile (· ≠ 0) = entry.strComment := by
  rw [putFields]
  split_ifs
  · exact (takeWhile_plain plain.strComment).1
  · exact (takeWhile_append_nul plain.strComment _).1

/-- Each pass that writes leaves the entry as it was. -/
theorem eraseFields_eq {entry : CAccountingEntry} (plain : entry.Plain) : entry.eraseFields = entry := by
  rw [eraseFields, takeWhile_putFields plain, (writeOrderPos_spec entry.nOrderPos plain.mapValue).2]

theorem getSerializeSize_fst (nType : UInt32) (nVersion : Int32) (entry : CAccountingEntry) :
    (entry.getSerializeSize nType).1 = UInt32.ofNat (entry.serialize nType nVersion).1.length := by
  simp only [getSerializeSize, serialize, List.length_append, UInt32.ofNat_add, writeInt64,
    length_littleEndianBytes, length_writeBytes]
  simp only [UInt32.add_assoc, UInt32.zero_add, writeVersion]
  split_ifs <;> rfl

/-- The map and the extra data are read back from behind the comment. -/
theorem readTail_putFields {entry : CAccountingEntry} (fits : entry.Fits) (plain : entry.Plain)
    (me : CAccountingEntry) (fresh : me.ssExtra = []) :
    readTail me entry.putFields = some (writeOrderPos entry.nOrderPos entry.mapValue, entry.ssExtra) := by
  by_cases bare : (writeOrderPos entry.nOrderPos entry.mapValue).isEmpty ∧ entry.ssExtra = []
  · have written : entry.putFields = entry.strComment := if_pos bare
    have empty := Std.ExtTreeMap.isEmpty_iff.mp bare.1
    rw [readTail, written, (takeWhile_plain plain.strComment).2, fresh, empty, bare.2]
  · have written : entry.putFields = entry.strComment ++
        0 :: ((writeOrderPos entry.nOrderPos entry.mapValue).serialize ++ entry.ssExtra) := if_neg bare
    have short := fits.putFields
    rw [written, List.length_append, List.length_cons, List.length_append] at short
    have mapFits := MapValue.fits_of_length
      (show (writeOrderPos entry.nOrderPos entry.mapValue).serialize.length ≤ maxSize by omega)
    obtain ⟨after, done, left, -⟩ := @MapValue.restores _ mapFits
      (ofBytes ((writeOrderPos entry.nOrderPos entry.mapValue).serialize ++ entry.ssExtra))
      entry.ssExtra rfl (by
        simp only [source, ofBytes, UInt32.toNat_zero, maxSize] at short ⊢
        omega)
    rw [readTail, written, (takeWhile_append_nul plain.strComment _).2]
    simp only [done, Option.map_some]
    exact congrArg (fun rest => some (_, rest)) left

/-- The entry as it is read into an object, which keeps what is not in the record. -/
def readInto (entry me : CAccountingEntry) : CAccountingEntry :=
  { entry with strAccount := me.strAccount, nEntryNo := me.nEntryNo }

theorem unserialize_serialize {entry : CAccountingEntry} (fits : entry.Fits) (plain : entry.Plain)
    {me : CAccountingEntry} (fresh : me.ssExtra = []) (nType : UInt32) (nVersion : Int32) :
    Restores source (entry.serialize nType nVersion).1 (unserialize nType me) (entry.readInto me) := by
  have version : Restores source (writeVersion nType nVersion) (readVersion nType)
      (if forHash nType then 0 else nVersion) := by
    rw [writeVersion, readVersion]
    split_ifs
    · exact .pure 0
    · exact readInt32_lawful.restores trivial
  obtain ⟨position, erased⟩ := writeOrderPos_spec entry.nOrderPos plain.mapValue
  refine version.bind ?_
  refine (readInt64_lawful.restores trivial).bind ?_
  refine (readInt64_lawful.restores trivial).bind ?_
  refine (readStdString_lawful.restores fits.strOtherAccount).bind ?_
  rw [← List.append_nil (writeBytes entry.putFields)]
  refine (readStdString_lawful.restores fits.putFields).bind ?_
  have built : ({ me with
      nCreditDebit := entry.nCreditDebit, nTime := entry.nTime, strOtherAccount := entry.strOtherAccount
      ssExtra := entry.ssExtra, strComment := entry.putFields.takeWhile (· ≠ 0)
      mapValue := (writeOrderPos entry.nOrderPos entry.mapValue).erase nKey
      nOrderPos := readOrderPos (writeOrderPos entry.nOrderPos entry.mapValue) } : CAccountingEntry) =
        entry.readInto me := by
    rw [takeWhile_putFields plain, position, erased]
    rfl
  rw [← built]
  exact (Restores.lift (readTail_putFields fits plain me fresh)).map

/-- A comment that is read is no longer than a string that is read. -/
theorem length_comment_of_unserialize {nType : UInt32} {me entry : CAccountingEntry} {s after : CDataStream}
    (done : unserialize nType me s = some (entry, after)) : entry.strComment.length ≤ maxSize := by
  rw [unserialize] at done
  obtain ⟨⟨version, s₁⟩, -, done⟩ := Option.bind_eq_some_iff.mp done
  obtain ⟨⟨credit, s₂⟩, -, done⟩ := Option.bind_eq_some_iff.mp done
  obtain ⟨⟨time, s₃⟩, -, done⟩ := Option.bind_eq_some_iff.mp done
  obtain ⟨⟨other, s₄⟩, -, done⟩ := Option.bind_eq_some_iff.mp done
  obtain ⟨⟨strComment, s₅⟩, comment, done⟩ := Option.bind_eq_some_iff.mp done
  obtain ⟨⟨⟨mapValue, ssExtra⟩, s₆⟩, -, done⟩ := Option.bind_eq_some_iff.mp done
  cases done
  exact (List.takeWhile_sublist _).length_le.trans (readStdString_lawful.accepts comment)

theorem length_serialize_lt {entry : CAccountingEntry} (fits : entry.Fits) (nType : UInt32) (nVersion : Int32) :
    (entry.serialize nType nVersion).1.length < 2 ^ 32 := by
  have other := fits.strOtherAccount
  have comment := fits.putFields
  simp only [maxSize] at other comment
  have version : (writeVersion nType nVersion).length ≤ 4 := by
    rw [writeVersion]
    split_ifs
    · exact Nat.zero_le 4
    · exact (length_littleEndianBytes 4 _).le
  simp only [serialize, List.length_append, writeInt64, length_littleEndianBytes, length_writeBytes, bytesSize,
    getSizeOfCompactSize]
  split_ifs <;> omega

end CAccountingEntry

/-- The passes over a value are exact: those that write leave it as it is, the size is the number of bytes
written, and from the bytes and whatever follows them the image of the value is read. -/
def RecordExact {α : Type} (serialize : α → Bytes × α) (getSerializeSize : α → UInt32 × α)
    (unserialize : Reader CDataStream α) (value image : α) : Prop :=
  (serialize value).2 = value ∧ (getSerializeSize value).2 = value ∧
    (getSerializeSize value).1.toNat = (serialize value).1.length ∧
    ∀ rest, ∃ after, unserialize (ofBytes ((serialize value).1 ++ rest)) = some (image, after) ∧
      after.remaining = rest

theorem RecordExact.of_restores {α : Type} {serialize : α → Bytes × α} {getSerializeSize : α → UInt32 × α}
    {unserialize : Reader CDataStream α} {value image : α} (written : (serialize value).2 = value)
    (counted : (getSerializeSize value).2 = value)
    (size : (getSerializeSize value).1 = UInt32.ofNat (serialize value).1.length)
    (small : (serialize value).1.length < 2 ^ 32)
    (restores : Restores source (serialize value).1 unserialize image) :
    RecordExact serialize getSerializeSize unserialize value image := by
  refine ⟨written, counted, by rw [size, UInt32.toNat_ofNat_of_lt' small], fun rest => ?_⟩
  obtain ⟨after, done, left, -⟩ := @restores (ofBytes ((serialize value).1 ++ rest)) rest rfl (by
    simp only [source, ofBytes, UInt32.toNat_zero]
    omega)
  exact ⟨after, done, left⟩

/-- Wallet records are read back as they were written, and no pass leaves a trace in them. -/
theorem wallet_records_exact (nType : UInt32) (nVersion : Int32) :
    (∀ wtx : CWalletTxRecord, CWalletTxRecord.Unreserved wtx.mapValue → wtx.Fits →
      wtx.serialize.1.length < 2 ^ 32 → RecordExact CWalletTxRecord.serialize CWalletTxRecord.getSerializeSize
        CWalletTxRecord.unserialize wtx wtx.normal) ∧
    ∀ entry me : CAccountingEntry, entry.Plain → entry.Fits → me.ssExtra = [] →
      RecordExact (CAccountingEntry.serialize nType nVersion) (CAccountingEntry.getSerializeSize nType)
        (CAccountingEntry.unserialize nType me) entry (entry.readInto me) := by
  constructor
  · intro wtx free fits small
    exact .of_restores (CWalletTxRecord.serialize_snd free) (CWalletTxRecord.getSerializeSize_snd free)
      wtx.getSerializeSize_fst small (CWalletTxRecord.unserialize_serialize fits free)
  · intro entry me plain fits fresh
    exact .of_restores (CAccountingEntry.eraseFields_eq plain) (CAccountingEntry.eraseFields_eq plain)
      (entry.getSerializeSize_fst nType nVersion) (CAccountingEntry.length_serialize_lt fits nType nVersion)
      (CAccountingEntry.unserialize_serialize fits plain fresh nType nVersion)

section Concrete

/-- A spend whose owner noted a comment, at position 5. -/
def sampleRecord : CWalletTxRecord :=
  ⟨⟨sampleTx, 3, [4], 0⟩, [⟨sampleTx, 0, [], -1⟩], (∅ : MapValue).insert [99] [120], [([97], [98])], 1, 1000, 900, 1,
    [65], [1, 0], 5⟩

/-- A move with a comment and data that this version does not know. -/
def sampleEntry : CAccountingEntry := ⟨[65], 10, 1000, [66], [104, 105], (∅ : MapValue).insert [99] [120], 6, 1, [7]⟩

theorem sampleTx_fits : sampleTx.Fits :=
  ⟨⟨by decide, by simp [sampleTx, CTxIn.Fits, maxSize]⟩, ⟨by decide, by simp [sampleTx, CTxOut.Fits, maxSize]⟩⟩

theorem wallet_records_sample :
    (∃ after, CWalletTxRecord.unserialize (ofBytes (sampleRecord.serialize.1 ++ [9])) = some (sampleRecord, after) ∧
      after.remaining = [9]) ∧
    ∃ after, CAccountingEntry.unserialize serDisk (.null 1) (ofBytes ((sampleEntry.serialize serDisk 60000).1 ++ [9])) =
      some (sampleEntry.readInto (.null 1), after) ∧ after.remaining = [9] := by
  obtain ⟨records, entries⟩ := wallet_records_exact serDisk 60000
  have fits : sampleRecord.Fits := by
    refine ⟨⟨sampleTx_fits, by decide⟩, ⟨by decide, ?_⟩, MapValue.fits_of_length (by decide), by decide, ?_⟩
    · intro prev member
      obtain rfl := List.mem_singleton.mp member
      exact ⟨sampleTx_fits, by decide⟩
    · intro item member
      obtain rfl := List.mem_singleton.mp member
      exact ⟨by decide, by decide⟩
  obtain ⟨-, -, -, recordRead⟩ := records sampleRecord (by unfold CWalletTxRecord.Unreserved; decide)
    fits (by decide +kernel)
  obtain ⟨-, -, -, entryRead⟩ := entries sampleEntry (.null 1) ⟨by decide, by decide⟩ ⟨by decide, by decide⟩ rfl
  exact ⟨recordRead [9], entryRead [9]⟩

/-- An entry whose comment is one byte longer than a string that can be read. -/
def longEntry : CAccountingEntry := { CAccountingEntry.null 0 with strComment := List.replicate (maxSize + 1) 97 }

/-- A comment without a NUL can be too long: nothing whatever is read as the entry. -/
theorem long_comment_unreadable : longEntry.Plain ∧
    ∀ nType me s after, CAccountingEntry.unserialize nType me s ≠ some (longEntry, after) := by
  refine ⟨⟨fun member => absurd (List.eq_of_mem_replicate member) (by decide), Std.ExtTreeMap.not_mem_empty⟩, ?_⟩
  intro nType me s after done
  have short := CAccountingEntry.length_comment_of_unserialize done
  rw [longEntry, List.length_replicate] at short
  omega

end Concrete

end InfiniteRicks
