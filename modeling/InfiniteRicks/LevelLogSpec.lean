import InfiniteRicks.LevelLog

/-!
# What the log gives back

A reader that stands where the writer stood finds the record that the writer appended, whole, and stands behind it. Of
a log that ends inside a record it finds nothing more, and drops nothing. So a log that is cut off at any byte gives
back the records that it has whole.
-/

namespace InfiniteRicks.LevelDb

theorem unmask_mask (crc : UInt32) : unmask (mask crc) = crc := by
  have shifts : (17#32 % 32).toNat = 17 ∧ (15#32 % 32).toNat = 15 := by decide
  simp only [unmask, mask, UInt32.add_sub_cancel]
  apply UInt32.eq_of_toBitVec_eq
  ext position inside
  simp only [UInt32.toBitVec_or, UInt32.toBitVec_shiftLeft, UInt32.toBitVec_shiftRight, UInt32.toBitVec_ofNat,
    BitVec.shiftLeft_eq', BitVec.ushiftRight_eq', shifts, BitVec.getElem_or, BitVec.getElem_shiftLeft,
    BitVec.getElem_ushiftRight, BitVec.getLsbD_or, BitVec.getLsbD_shiftLeft, BitVec.getLsbD_ushiftRight]
  by_cases low : position < 15
  · have past : crc.toBitVec.getLsbD (15 + (17 + position)) = false := BitVec.getLsbD_of_ge _ _ (by omega)
    have inner : 17 + position < 32 := by omega
    simp [low, past, inner, BitVec.getLsbD_eq_getElem inside]
  · have back : 15 + (position - 15) = position := by omega
    have past : crc.toBitVec.getLsbD (15 + (17 + position)) = false := BitVec.getLsbD_of_ge _ _ (by omega)
    have outer : ¬17 + position < 32 := by omega
    have inner : position - 15 < 17 := by omega
    simp [low, past, outer, inner, back, BitVec.getLsbD_eq_getElem inside]

theorem length_emitPhysicalRecord (crc : Crc32c) (t : RecordType) (fragment : Bytes) :
    (emitPhysicalRecord crc t fragment).length = kHeaderSize + fragment.length := by
  simp only [emitPhysicalRecord, List.length_append, length_littleEndianBytes, List.length_singleton, kHeaderSize]

namespace Reader

/-- The reader stands at an offset of a block, and this is what it has not read yet. -/
structure At (r : Reader) (offset : Nat) (rest : Bytes) : Prop where
  inBlock : offset ≤ kBlockSize
  buffer : r.buffer = rest.take (kBlockSize - offset)
  file : r.file = rest.drop (kBlockSize - offset)
  eof : r.eof = decide (rest.length < kBlockSize - offset)

/-- A new reader is behind a block that it has read. -/
theorem new_at (file : Bytes) : (Reader.new file).At kBlockSize file where
  inBlock := Nat.le_refl _
  buffer := by rw [Nat.sub_self, List.take_zero]; rfl
  file := by rw [Nat.sub_self, List.drop_zero]; rfl
  eof := by rw [Nat.sub_self]; rfl

variable {crc : Crc32c} {r : Reader} {offset : Nat} {rest tail fragment : Bytes} {t : RecordType}

/-- Behind what it has of a block, a reader that is not at the end goes on to the next one. -/
theorem At.readBlock (at_ : r.At offset rest) (whole : kBlockSize - offset ≤ rest.length) :
    r.readBlock.At 0 (rest.drop (kBlockSize - offset)) where
  inBlock := Nat.zero_le _
  buffer := congrArg (List.take kBlockSize) at_.file
  file := congrArg (List.drop kBlockSize) at_.file
  eof := by
    have taken : r.readBlock.eof = decide ((r.file.take kBlockSize).length < kBlockSize) := rfl
    rw [taken, at_.file, decide_eq_decide, List.length_take]
    omega

/-- What a reader takes from the bytes of a record. -/
structure Parts (crc : Crc32c) (t : RecordType) (fragment more bytes : Bytes) : Prop where
  length : CScript.littleEndian ((bytes.drop 4).take 2) = fragment.length
  type : (bytes.drop 6).headD 0 = t.code
  payload : (bytes.drop kHeaderSize).take fragment.length = fragment
  covered : (bytes.drop 6).take (1 + fragment.length) = t.code :: fragment
  checksum : unmask (UInt32.ofNat (CScript.littleEndian (bytes.take 4))) = crc.value (t.code :: fragment)
  behind : bytes.drop (kHeaderSize + fragment.length) = more

theorem emitPhysicalRecord_parts (small : fragment.length < 65536) (more : Bytes) :
    Parts crc t fragment more (emitPhysicalRecord crc t fragment ++ more) := by
  obtain ⟨sum, sumEq⟩ : ∃ sum, mask (crc.extend (crc.value [t.code]) fragment) = sum := ⟨_, rfl⟩
  have shape : emitPhysicalRecord crc t fragment ++ more = littleEndianBytes 4 sum.toNat ++
      (littleEndianBytes 2 fragment.length ++ t.code :: (fragment ++ more)) := by
    simp only [emitPhysicalRecord, sumEq, List.append_assoc, List.cons_append, List.nil_append]
  have four : (littleEndianBytes 4 sum.toNat).length = 4 := length_littleEndianBytes _ _
  have two : (littleEndianBytes 2 fragment.length).length = 2 := length_littleEndianBytes _ _
  have behindSum : (emitPhysicalRecord crc t fragment ++ more).drop 4 =
      littleEndianBytes 2 fragment.length ++ t.code :: (fragment ++ more) := by
    rw [shape, List.drop_left' four]
  have behindLength : (emitPhysicalRecord crc t fragment ++ more).drop 6 = t.code :: (fragment ++ more) := by
    rw [← List.drop_drop (i := 2) (j := 4), behindSum, List.drop_left' two]
  have behindType : (emitPhysicalRecord crc t fragment ++ more).drop kHeaderSize = fragment ++ more := by
    rw [kHeaderSize, ← List.drop_drop (i := 1) (j := 6), behindLength]
    rfl
  constructor
  · rw [behindSum, List.take_left' two]
    exact littleEndian_littleEndianBytes small
  · rw [behindLength]
    rfl
  · rw [behindType, List.take_left]
  · rw [behindLength, Nat.add_comm, List.take_succ_cons, List.take_left]
  · rw [shape, List.take_left' four, littleEndian_littleEndianBytes sum.toNat_lt, UInt32.ofNat_toNat, ← sumEq,
      unmask_mask]
    exact crc.extend_append 0 [t.code] fragment
  · rw [← List.drop_drop, behindType, List.drop_left]

theorem typeOfChar_code : typeOfChar t.code ≠ 0 ∧ typeOfChar t.code ≠ kEof := by
  cases t <;> decide

/-- A physical record that the buffer has whole. -/
theorem At.parseRecord (at_ : r.At offset (emitPhysicalRecord crc t fragment ++ tail))
    (fits : offset + kHeaderSize + fragment.length ≤ kBlockSize) :
    ∃ next, r.parseRecord crc = ((typeOfChar t.code, fragment), next) ∧ next.drops = r.drops ∧
      next.At (offset + kHeaderSize + fragment.length) tail := by
  have sizes : kBlockSize = 32768 ∧ kHeaderSize = 7 := by decide
  have emitted := length_emitPhysicalRecord crc t fragment
  have left : kBlockSize - offset = (emitPhysicalRecord crc t fragment).length +
      (kBlockSize - (offset + kHeaderSize + fragment.length)) := by omega
  have buffer : r.buffer = emitPhysicalRecord crc t fragment ++
      tail.take (kBlockSize - (offset + kHeaderSize + fragment.length)) := by
    rw [at_.buffer, left, List.take_length_add_append]
  have parts : Parts crc t fragment _ r.buffer := buffer ▸ emitPhysicalRecord_parts (by omega) _
  have enough : ¬r.buffer.length < kHeaderSize + fragment.length := by
    rw [buffer, List.length_append, emitted]
    omega
  refine ⟨{ r with buffer := tail.take (kBlockSize - (offset + kHeaderSize + fragment.length)) }, ?_, rfl, fits, rfl,
    ?_, ?_⟩
  · simp only [Reader.parseRecord, parts.length, parts.type, parts.covered, parts.checksum, parts.payload,
      parts.behind, if_neg enough, typeOfChar_code.1, false_and, if_false, ne_eq, not_true_eq_false]
  · rw [at_.file, left, List.drop_length_add_append]
  · rw [at_.eof, decide_eq_decide, List.length_append]
    omega

/-- The end of a file that has a physical record in part only. -/
theorem At.parseRecord_cut (at_ : r.At offset rest) (start : rest <+: emitPhysicalRecord crc t fragment)
    (short : rest.length < kHeaderSize + fragment.length) (header : kHeaderSize ≤ r.buffer.length)
    (fits : offset + kHeaderSize + fragment.length ≤ kBlockSize) :
    (r.parseRecord crc).1.1 = kEof ∧ (r.parseRecord crc).2.drops = r.drops := by
  have sizes : kBlockSize = 32768 ∧ kHeaderSize = 7 := by decide
  have buffer : r.buffer = rest := by rw [at_.buffer, List.take_of_length_le (by omega)]
  have final : r.eof = true := by
    rw [at_.eof, decide_eq_true_iff]
    omega
  obtain ⟨missing, whole⟩ := start
  have length : CScript.littleEndian ((r.buffer.drop 4).take 2) = fragment.length := by
    have parts : Parts crc t fragment [] (emitPhysicalRecord crc t fragment ++ []) :=
      emitPhysicalRecord_parts (by omega) []
    rw [List.append_nil, ← whole] at parts
    have field := parts.length
    rw [buffer] at header ⊢
    rwa [List.drop_append_of_le_length (by omega), List.take_append_of_le_length (by rw [List.length_drop]; omega)]
      at field
  have cut : r.buffer.length < kHeaderSize + fragment.length := buffer ▸ short
  simp only [Reader.parseRecord, length, if_pos cut, final, Bool.not_true, Bool.false_eq_true, if_false, and_self]

/-- A reader finds the physical record that a writer appends where it stands. -/
theorem At.readPhysicalRecord
    (at_ : r.At offset ((switchBlock offset).1 ++ (emitPhysicalRecord crc t fragment ++ tail)))
    (fits : (switchBlock offset).2 + kHeaderSize + fragment.length ≤ kBlockSize) :
    ∃ next, r.readPhysicalRecord crc = ((typeOfChar t.code, fragment), next) ∧ next.drops = r.drops ∧
      next.At ((switchBlock offset).2 + kHeaderSize + fragment.length) tail := by
  have sizes : kBlockSize = 32768 ∧ kHeaderSize = 7 := by decide
  have emitted := length_emitPhysicalRecord crc t fragment
  rcases switchBlock_cases offset with ⟨close, switched⟩ | ⟨room, stays⟩
  · simp only [switched] at at_ fits ⊢
    have whole : kBlockSize - offset ≤ (List.replicate (kBlockSize - offset) (0 : UInt8) ++
        (emitPhysicalRecord crc t fragment ++ tail)).length := by
      rw [List.length_append, List.length_replicate]
      omega
    have next := at_.readBlock whole
    rw [List.drop_left' List.length_replicate] at next
    have trailer : r.buffer.length < kHeaderSize := by
      rw [at_.buffer, List.length_take]
      omega
    have more : ¬r.eof = true := by
      rw [at_.eof, decide_eq_true_iff]
      omega
    have header : ¬r.readBlock.buffer.length < kHeaderSize := by
      rw [next.buffer, List.length_take, List.length_append, emitted]
      omega
    simp only [Reader.readPhysicalRecord, if_pos trailer, if_neg more, if_neg header]
    exact next.parseRecord fits
  · rw [stays] at at_ fits ⊢
    rw [List.nil_append] at at_
    have header : ¬r.buffer.length < kHeaderSize := by
      rw [at_.buffer, List.length_take, List.length_append, emitted]
      omega
    simp only [Reader.readPhysicalRecord, if_neg header]
    exact at_.parseRecord fits

/-- A file that ends inside what a writer appends for a physical record has nothing more. -/
theorem At.readPhysicalRecord_cut (at_ : r.At offset rest)
    (start : rest <+: (switchBlock offset).1 ++ emitPhysicalRecord crc t fragment)
    (short : rest ≠ (switchBlock offset).1 ++ emitPhysicalRecord crc t fragment)
    (fits : (switchBlock offset).2 + kHeaderSize + fragment.length ≤ kBlockSize) :
    (r.readPhysicalRecord crc).1.1 = kEof ∧ (r.readPhysicalRecord crc).2.drops = r.drops := by
  have sizes : kBlockSize = 32768 ∧ kHeaderSize = 7 := by decide
  have emitted := length_emitPhysicalRecord crc t fragment
  have shorter : rest.length < ((switchBlock offset).1 ++ emitPhysicalRecord crc t fragment).length :=
    lt_of_le_of_ne start.length_le fun same => short (start.eq_of_length same)
  rcases switchBlock_cases offset with ⟨close, switched⟩ | ⟨room, stays⟩
  · rw [switched] at start shorter fits
    rw [List.length_append, List.length_replicate, emitted] at shorter
    have trailer : r.buffer.length < kHeaderSize := by
      rw [at_.buffer, List.length_take]
      omega
    by_cases inside : rest.length < kBlockSize - offset
    · have final : r.eof = true := by rw [at_.eof, decide_eq_true_iff]; exact inside
      simp only [Reader.readPhysicalRecord, if_pos trailer, if_pos final, and_self]
    · have more : ¬r.eof = true := by rw [at_.eof, decide_eq_true_iff]; exact inside
      have next := at_.readBlock (Nat.le_of_not_lt inside)
      simp only [Reader.readPhysicalRecord, if_pos trailer, if_neg more]
      split
      · exact ⟨rfl, rfl⟩
      · rename_i header
        have begins : rest.drop (kBlockSize - offset) <+: emitPhysicalRecord crc t fragment := by
          obtain ⟨missing, whole⟩ := start
          refine ⟨missing, ?_⟩
          have dropped := congrArg (List.drop (kBlockSize - offset)) whole
          rwa [List.drop_append_of_le_length (Nat.le_of_not_lt inside), List.drop_left' List.length_replicate]
            at dropped
        have cut : (rest.drop (kBlockSize - offset)).length < kHeaderSize + fragment.length := by
          rw [List.length_drop]
          omega
        exact next.parseRecord_cut begins cut (Nat.le_of_not_lt header) fits
  · rw [stays] at start shorter fits
    rw [List.nil_append] at start shorter
    rw [emitted] at shorter
    have final : r.eof = true := by
      rw [at_.eof, decide_eq_true_iff]
      omega
    simp only [Reader.readPhysicalRecord, final, if_true]
    split
    · exact ⟨rfl, rfl⟩
    · rename_i header
      exact at_.parseRecord_cut start shorter (Nat.le_of_not_lt header) fits

end Reader

section Records

open Reader

variable {crc : Crc32c} {r : Reader} {offset : Nat} {rest tail slice : Bytes}

theorem addFragments_fits (block_offset : Nat) (left : Bytes) :
    (switchBlock block_offset).2 + kHeaderSize +
      (left.take (avail block_offset)).length ≤ kBlockSize := by
  have sizes : kBlockSize = 32768 ∧ kHeaderSize = 7 := by decide
  rw [List.length_take, avail]
  rcases switchBlock_cases block_offset with ⟨close, switched⟩ | ⟨room, stays⟩
  · simp only [switched]
    omega
  · simp only [stays]
    omega

theorem addFragments_final {begins : Bool} {left : Bytes} (final : left.drop (avail offset) = []) :
    addFragments crc begins offset left =
      ((switchBlock offset).1 ++ emitPhysicalRecord crc (fragmentType begins true) (left.take (avail offset)),
        (switchBlock offset).2 + kHeaderSize + (left.take (avail offset)).length) := by
  rw [addFragments]
  simp only [final, if_true, List.isEmpty_nil]

theorem addFragments_more {begins : Bool} {left : Bytes} (more : left.drop (avail offset) ≠ []) :
    addFragments crc begins offset left =
      ((switchBlock offset).1 ++ emitPhysicalRecord crc (fragmentType begins false) (left.take (avail offset)) ++
          (addFragments crc false ((switchBlock offset).2 + kHeaderSize + (left.take (avail offset)).length)
            (left.drop (avail offset))).1,
        (addFragments crc false ((switchBlock offset).2 + kHeaderSize + (left.take (avail offset)).length)
          (left.drop (avail offset))).2) := by
  rw [addFragments]
  simp only [if_neg more, List.isEmpty_eq_false_iff.mpr more]

/-- A reader puts together what a writer has cut, from any fragment of the record on. -/
theorem Reader.At.readFragments {begins : Bool} {left scratch : Bytes}
    (at_ : r.At offset ((addFragments crc begins offset left).1 ++ tail)) (whole : begins = true → scratch = []) :
    ∃ next, r.readFragments crc (!begins) scratch = (some (scratch ++ left), next) ∧ next.drops = r.drops ∧
      next.At (addFragments crc begins offset left).2 tail := by
  induction begins, offset, left using addFragments.induct crc generalizing r scratch with
  | case1 begins offset left rest =>
      rename_i final
      rw [addFragments_final final] at at_ ⊢
      rw [List.append_assoc] at at_
      obtain ⟨next, physical, drops, behind⟩ := at_.readPhysicalRecord (addFragments_fits offset left)
      have all : left.take (avail offset) = left := List.take_of_length_le (List.drop_eq_nil_iff.mp final)
      refine ⟨next, ?_, drops, behind⟩
      rw [Reader.readFragments, physical, all]
      cases begins with
      | true => simp [fragmentType, RecordType.code, typeOfChar, kEof, whole rfl]
      | false => simp [fragmentType, RecordType.code, typeOfChar, kEof]
  | case2 begins offset left fragment rest blockOffset =>
      rename_i more ih
      rw [addFragments_more more] at at_ ⊢
      simp only [List.append_assoc] at at_
      obtain ⟨next, physical, drops, behind⟩ := at_.readPhysicalRecord (addFragments_fits offset left)
      have joined : (scratch ++ left.take (avail offset)) ++ left.drop (avail offset) = scratch ++ left := by
        rw [List.append_assoc, List.take_append_drop]
      obtain ⟨final, read, kept, stands⟩ := @ih next (scratch ++ left.take (avail offset)) behind (by simp)
      refine ⟨final, ?_, kept.trans drops, stands⟩
      have whole' : next.readFragments crc true (scratch ++ left.take (avail offset)) =
          (some (scratch ++ left), final) := read.trans (by rw [joined])
      rw [Reader.readFragments, physical]
      cases begins with
      | true => simpa [fragmentType, RecordType.code, typeOfChar, kEof, whole rfl] using whole'
      | false => simpa [fragmentType, RecordType.code, typeOfChar, kEof] using whole'

/-- A reader that is at the end of its file has no record. -/
theorem readFragments_eof {in_fragmented_record : Bool} {scratch : Bytes}
    (physical : (r.readPhysicalRecord crc).1.1 = kEof) :
    r.readFragments crc in_fragmented_record scratch = (none, (r.readPhysicalRecord crc).2) := by
  rw [Reader.readFragments]
  simp only [dif_pos physical]

/-- Of a file that ends inside what a writer appends for a record there is no record. -/
theorem Reader.At.readFragments_cut {begins : Bool} {left scratch : Bytes} (at_ : r.At offset rest)
    (start : rest <+: (addFragments crc begins offset left).1) (short : rest ≠ (addFragments crc begins offset left).1)
    (whole : begins = true → scratch = []) :
    (r.readFragments crc (!begins) scratch).1 = none ∧ (r.readFragments crc (!begins) scratch).2.drops = r.drops := by
  induction begins, offset, left using addFragments.induct crc generalizing r scratch rest with
  | case1 begins offset left fragment =>
      rename_i final
      rw [addFragments_final final] at start short
      obtain ⟨physical, drops⟩ := at_.readPhysicalRecord_cut start short (addFragments_fits offset left)
      rw [readFragments_eof physical]
      exact ⟨rfl, drops⟩
  | case2 begins offset left fragment behind =>
      rename_i more ih
      rw [addFragments_more more] at start short
      by_cases reached : (switchBlock offset).1 ++ emitPhysicalRecord crc (fragmentType begins false)
          (left.take (avail offset)) <+: rest
      · obtain ⟨last, rfl⟩ := reached
        rw [List.append_assoc] at at_
        obtain ⟨next, physical, drops, stands⟩ := at_.readPhysicalRecord (addFragments_fits offset left)
        obtain ⟨none, kept⟩ := @ih next last (scratch ++ left.take (avail offset)) stands
          (List.prefix_append_right_inj _ |>.mp start) (fun same => short (by rw [same])) (by simp)
        rw [Reader.readFragments, physical]
        cases begins with
        | true =>
            simp only [whole rfl, List.nil_append] at none kept
            simpa [fragmentType, RecordType.code, typeOfChar, kEof, none, drops] using ⟨none, kept.trans drops⟩
        | false => simpa [fragmentType, RecordType.code, typeOfChar, kEof] using ⟨none, kept.trans drops⟩
      · have first := (List.prefix_or_prefix_of_prefix start (List.prefix_append _ _)).resolve_right reached
        have apart : rest ≠ (switchBlock offset).1 ++ emitPhysicalRecord crc (fragmentType begins false)
            (left.take (avail offset)) := fun same => reached (same ▸ List.prefix_rfl)
        obtain ⟨physical, drops⟩ := at_.readPhysicalRecord_cut first apart (addFragments_fits offset left)
        rw [readFragments_eof physical]
        exact ⟨rfl, drops⟩

/-- A reader finds the record that a writer appends where it stands. -/
theorem Reader.At.readRecord (at_ : r.At offset ((addRecord crc offset slice).1 ++ tail)) :
    ∃ next, r.readRecord crc = (some slice, next) ∧ next.drops = r.drops ∧
      next.At (addRecord crc offset slice).2 tail := by
  have whole : true = true → ([] : Bytes) = [] := fun _ => rfl
  exact at_.readFragments whole

/-- A file that ends inside what a writer appends for a record has no further record, and nothing is dropped. -/
theorem Reader.At.readRecord_cut (at_ : r.At offset rest) (start : rest <+: (addRecord crc offset slice).1)
    (short : rest ≠ (addRecord crc offset slice).1) :
    (r.readRecord crc).1 = none ∧ (r.readRecord crc).2.drops = r.drops := by
  have whole : true = true → ([] : Bytes) = [] := fun _ => rfl
  exact at_.readFragments_cut start short whole

/-- A file that ends behind a record has no further one. -/
theorem Reader.At.readRecord_nil (at_ : r.At offset []) :
    (r.readRecord crc).1 = none ∧ (r.readRecord crc).2.drops = r.drops := by
  have apart : [] ≠ (addRecord crc offset []).1 := by
    intro same
    have lengths := congrArg List.length same
    have final : ([] : Bytes).drop (avail offset) = [] := List.drop_nil
    rw [addRecord, addFragments_final final, List.length_append, length_emitPhysicalRecord] at lengths
    simp [kHeaderSize] at lengths
  exact at_.readRecord_cut List.nil_prefix apart

/-- A writer that has filled a block and one that begins a block append the same. -/
theorem addRecord_kBlockSize : addRecord crc kBlockSize slice = addRecord crc 0 slice := by
  have filled : switchBlock kBlockSize = ([], 0) := by decide
  have begun : switchBlock 0 = ([], 0) := by decide
  have room : avail kBlockSize = avail 0 := by rw [avail, avail, filled, begun]
  by_cases final : slice.drop (avail 0) = []
  · rw [addRecord, addRecord, addFragments_final (room.symm ▸ final), addFragments_final final, room, filled, begun]
  · rw [addRecord, addRecord, addFragments_more (room.symm ▸ final), addFragments_more final, room, filled, begun]

/-- The loop of a caller. -/
def Reader.readRecords (crc : Crc32c) (r : Reader) : List Bytes × Reader :=
  match read : r.readRecord crc with
  | (none, next) => ([], next)
  | (some record, next) => (record :: (next.readRecords crc).1, (next.readRecords crc).2)
termination_by r.unread
decreasing_by all_goals exact Reader.readFragments_unread crc read

theorem Reader.readRecords_none (none : (r.readRecord crc).1 = none) :
    r.readRecords crc = ([], (r.readRecord crc).2) := by
  rw [Reader.readRecords]
  split
  · rename_i next read
    rw [read]
  · rename_i record next read
    rw [read] at none
    cases none

theorem Reader.readRecords_some {record : Bytes} {next : Reader} (found : r.readRecord crc = (some record, next)) :
    r.readRecords crc = (record :: (next.readRecords crc).1, (next.readRecords crc).2) := by
  rw [Reader.readRecords]
  split
  · rename_i after read
    rw [found] at read
    cases read
  · rename_i other after read
    rw [found] at read
    cases read
    rfl

/-- The records of a log that are whole in what is left of it. -/
structure Survive (crc : Crc32c) (offset : Nat) (records : List Bytes) (rest : Bytes) (k : Nat) : Prop where
  bound : k ≤ records.length
  whole : addRecords crc offset (records.take k) <+: rest
  last : k = records.length ∨ ¬addRecords crc offset (records.take (k + 1)) <+: rest

/-- The loop goes over the records that are whole, and stops. -/
theorem Reader.At.readRecords {records : List Bytes} (at_ : r.At offset rest)
    (start : rest <+: addRecords crc offset records) :
    ∃ k, Survive crc offset records rest k ∧ (r.readRecords crc).1 = records.take k ∧
      (r.readRecords crc).2.drops = r.drops := by
  induction records generalizing r offset rest with
  | nil =>
      rw [addRecords, List.prefix_nil] at start
      subst start
      obtain ⟨none, drops⟩ : (r.readRecord crc).1 = none ∧ (r.readRecord crc).2.drops = r.drops := at_.readRecord_nil
      refine ⟨0, ⟨Nat.le_refl _, List.nil_prefix, Or.inl rfl⟩, ?_⟩
      rw [Reader.readRecords_none none]
      exact ⟨rfl, drops⟩
  | cons record records ih =>
      rw [addRecords] at start
      by_cases whole : (addRecord crc offset record).1 <+: rest
      · obtain ⟨behind, rfl⟩ := whole
        obtain ⟨next, read, drops, stands⟩ := at_.readRecord
        obtain ⟨k, survive, found, kept⟩ := ih stands ((List.prefix_append_right_inj _).mp start)
        refine ⟨k + 1, ⟨Nat.succ_le_succ survive.bound, ?_, ?_⟩, ?_⟩
        · rw [List.take_succ_cons, addRecords]
          exact (List.prefix_append_right_inj _).mpr survive.whole
        · refine survive.last.imp (congrArg Nat.succ) fun cut => ?_
          rw [List.take_succ_cons, addRecords]
          exact fun longer => cut ((List.prefix_append_right_inj _).mp longer)
        · rw [Reader.readRecords_some read, found]
          exact ⟨rfl, kept.trans drops⟩
      · have first := (List.prefix_or_prefix_of_prefix start (List.prefix_append _ _)).resolve_right whole
        have apart : rest ≠ (addRecord crc offset record).1 := fun same => whole (same ▸ List.prefix_rfl)
        obtain ⟨none, drops⟩ := at_.readRecord_cut first apart
        refine ⟨0, ⟨Nat.zero_le _, List.nil_prefix, Or.inr fun longer => whole ?_⟩, ?_⟩
        · rw [List.take_succ_cons, List.take_zero, addRecords, addRecords, List.append_nil] at longer
          exact longer
        · rw [Reader.readRecords_none none]
          exact ⟨rfl, drops⟩

theorem addRecords_take (offset k : Nat) (records : List Bytes) :
    addRecords crc offset (records.take k) <+: addRecords crc offset records := by
  induction records generalizing offset k with
  | nil => rw [List.take_nil]
  | cons record records ih =>
      cases k with
      | zero => exact List.nil_prefix
      | succ k =>
          rw [List.take_succ_cons, addRecords, addRecords]
          exact (List.prefix_append_right_inj _).mpr (ih _ k)

theorem addRecords_kBlockSize (records : List Bytes) :
    addRecords crc kBlockSize records = addRecords crc 0 records := by
  cases records with
  | nil => rfl
  | cons record records => rw [addRecords, addRecords, addRecord_kBlockSize]

end Records

/-- The length of a log after so many records. -/
def logLength (crc : Crc32c) (records : List Bytes) (k : Nat) : Nat := (addRecords crc 0 (records.take k)).length

/-- A log that is cut off at any byte is read as the records that it has whole, and nothing is dropped. -/
theorem readRecords_cut (crc : Crc32c) (records : List Bytes) (cut : Nat) :
    ∃ k ≤ records.length, logLength crc records k ≤ cut ∧
      (k < records.length → cut < logLength crc records (k + 1)) ∧
      ((Reader.new ((addRecords crc 0 records).take cut)).readRecords crc).1 = records.take k ∧
      ((Reader.new ((addRecords crc 0 records).take cut)).readRecords crc).2.drops = [] := by
  have start : (addRecords crc 0 records).take cut <+: addRecords crc kBlockSize records := by
    rw [addRecords_kBlockSize]
    exact List.take_prefix _ _
  obtain ⟨k, survive, found, drops⟩ := (Reader.new_at _).readRecords start
  have prefixes : ∀ n, addRecords crc kBlockSize (records.take n) <+: (addRecords crc 0 records).take cut ↔
      logLength crc records n ≤ cut := by
    intro n
    rw [addRecords_kBlockSize, List.prefix_take_iff]
    exact ⟨And.right, fun short => ⟨addRecords_take 0 n records, short⟩⟩
  refine ⟨k, survive.bound, (prefixes k).mp survive.whole, fun more => ?_, found, drops⟩
  rcases survive.last with all | cut
  · omega
  · exact Nat.lt_of_not_le fun short => cut ((prefixes (k + 1)).mpr short)

/-- CRC-32C, one bit at a time. -/
def crc32cByte (l : UInt32) (byte : UInt8) : UInt32 :=
  (List.range 8).foldl (fun l _ => if l &&& 1 = 1 then (l >>> 1) ^^^ 0x82f63b78 else l >>> 1) (l ^^^ byte.toUInt32)

/-- The checksum that the tables of `crc32c.cc` compute. -/
def Crc32c.castagnoli : Crc32c where
  extend crc data := data.foldl crc32cByte (crc ^^^ 0xffffffff) ^^^ 0xffffffff
  extend_append crc first second := by
    rw [List.foldl_append, UInt32.xor_assoc, UInt32.xor_self, UInt32.xor_zero]

end InfiniteRicks.LevelDb
