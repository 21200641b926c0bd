import Mathlib.Data.List.Basic
import InfiniteRicks.ImportFile
import InfiniteRicks.OrphanSpec

/-!
# What an import finds

A record of a block file is a message start, the size of a block and a block of this size. The import ends and
hands over every record that no accepted record covers, exactly where three things hold: no exception ends the scan
in front of a record, no record lies past the last position of 32 bits, and the position does not come around again
and again.
-/

namespace InfiniteRicks

open Library.Codec CDataStream

/-- A record at an offset of a file. -/
structure RecordAt (fTestNet : Bool) (file : Bytes) (offset : Nat) (nSize : UInt32) (block : CBlock) : Prop where
  marker : (file.drop offset).take 4 = messageStart fTestNet
  size : (file.drop (offset + 4)).take 4 = writeUInt32 nSize
  inRange : 0 < nSize ∧ nSize.toNat ≤ maxBlockSize
  content : ∃ after, CBlock.unserialize serDisk (ofBytes (file.drop (offset + 8))) = some (block, after) ∧
    offset + 8 + nSize.toNat + after.remaining.length = file.length

namespace ImportCall

/-- The call is for the record at an offset. -/
def Passes (call : ImportCall) (offset : Nat) (nSize : UInt32) (block : CBlock) : Prop :=
  call.nPos.toNat = offset + 4 ∧ call.nSize = nSize ∧ call.block = block

/-- The call accepted a record that an offset lies inside of. -/
def Covers (call : ImportCall) (offset : Nat) : Prop :=
  call.accepted = true ∧ call.nPos.toNat < offset + 4 ∧ offset < call.nPos.toNat + 4 + call.nSize.toNat

end ImportCall

/-- A record is passed to `ProcessBlock` or overlaps one that it accepted before. -/
def Handled (calls : List ImportCall) (offset : Nat) (nSize : UInt32) (block : CBlock) : Prop :=
  ∃ call ∈ calls, call.Passes offset nSize block ∨ call.Covers offset

theorem Handled.mono {calls more : List ImportCall} {offset : Nat} {nSize : UInt32} {block : CBlock}
    (handled : Handled calls offset nSize block) (sub : calls ⊆ more) : Handled more offset nSize block :=
  let ⟨call, member, how⟩ := handled
  ⟨call, sub member, how⟩

/-! ## One buffer -/

theorem length_messageStart (fTestNet : Bool) : (messageStart fTestNet).length = 4 := by
  cases fTestNet <;> rfl

/-- The first byte of a message start does not come again in it. -/
theorem messageStart_separate {fTestNet : Bool} {bytes : Bytes} (here : bytes.take 4 = messageStart fTestNet)
    {shift : Nat} (positive : 0 < shift) (short : shift < 4) : (bytes.drop shift).take 4 ≠ messageStart fTestNet := by
  intro again
  have first : bytes[shift]? = some ((messageStart fTestNet).headD 0) := by
    have head : ((bytes.drop shift).take 4)[0]? = (messageStart fTestNet)[0]? := by rw [again]
    rw [List.getElem?_take_of_lt (by omega), List.getElem?_drop, Nat.add_zero] at head
    rw [head]
    cases fTestNet <;> rfl
  have second : bytes[shift]? = (messageStart fTestNet)[shift]? := by
    rw [← here, List.getElem?_take_of_lt short]
  rw [second] at first
  have differ : ∀ fTestNet, ∀ shift < 4, 0 < shift →
      (messageStart fTestNet)[shift]? ≠ some ((messageStart fTestNet).headD 0) := by decide
  exact differ fTestNet shift short positive first

/-- A message start in a file is four bytes of it and begins with the first of them. -/
theorem marker_first {fTestNet : Bool} {file : Bytes} {offset : Nat}
    (marker : (file.drop offset).take 4 = messageStart fTestNet) :
    offset + 4 ≤ file.length ∧ file[offset]? = some ((messageStart fTestNet).headD 0) := by
  have full := congrArg List.length marker
  rw [List.length_take, List.length_drop, length_messageStart] at full
  refine ⟨by omega, ?_⟩
  have head : ((file.drop offset).take 4)[0]? = (messageStart fTestNet)[0]? := by rw [marker]
  rw [List.getElem?_take_of_lt (by omega), List.getElem?_drop, Nat.add_zero] at head
  rw [head]
  cases fTestNet <;> rfl

/-- What a buffer shows about the file. -/
def ChunkSearch.Tells (fTestNet : Bool) (file : Bytes) (nPos : Nat) : ChunkSearch → Prop
  | .ended => file.length ≤ nPos + 8
  | .moves n => 0 < n ∧ n ≤ 65536 ∧ nPos + 8 < file.length ∧
      ∀ offset, nPos ≤ offset → offset < nPos + n → (file.drop offset).take 4 ≠ messageStart fTestNet
  | .finds n => ∃ offset, nPos ≤ offset ∧ offset + 4 = nPos + n ∧ n ≤ 65536 ∧
      (file.drop offset).take 4 = messageStart fTestNet ∧
      ∀ before, nPos ≤ before → before < offset → (file.drop before).take 4 ≠ messageStart fTestNet

theorem searchChunk_tells (fTestNet : Bool) (file : Bytes) (nPos : Nat) :
    (searchChunk (messageStart fTestNet) file nPos).Tells fTestNet file nPos := by
  have length : ((file.drop nPos).take 65536).length = min 65536 (file.length - nPos) := by
    rw [List.length_take, List.length_drop]
  have entry : ∀ {index}, index < 65536 → ((file.drop nPos).take 65536)[index]? = file[nPos + index]? := by
    intro index small
    rw [List.getElem?_take_of_lt small, List.getElem?_drop]
  -- a message start that begins in the part searched begins with the byte looked for
  have absent : ∀ {count : Nat}, (∀ index < count, index + 4 ≤ ((file.drop nPos).take 65536).length →
        file[nPos + index]? ≠ some ((messageStart fTestNet).headD 0)) → count + 3 ≤ 65536 →
      ∀ offset, nPos ≤ offset → offset < nPos + count → (file.drop offset).take 4 ≠ messageStart fTestNet := by
    intro count clear small offset low high marker
    obtain ⟨inside, first⟩ := marker_first marker
    refine clear (offset - nPos) (by omega) (by rw [length]; omega) ?_
    rw [Nat.add_sub_cancel' low]
    exact first
  unfold searchChunk
  simp only
  split
  · rename_i short
    rw [length] at short
    change file.length ≤ nPos + 8
    omega
  · rename_i enough
    have unmarked : ∀ {index}, index < ((file.drop nPos).take 65536).length + 1 - 4 →
        (((file.drop nPos).take 65536).take (((file.drop nPos).take 65536).length + 1 - 4))[index]? =
          file[nPos + index]? := by
      intro index inside
      rw [List.getElem?_take_of_lt inside, entry (by omega)]
    split
    · rename_i nFind found
      obtain ⟨inside, hit, missed⟩ := List.findIdx?_eq_some_iff_getElem.mp found
      have small : nFind + 4 ≤ ((file.drop nPos).take 65536).length := by
        rw [List.length_take] at inside
        omega
      have clear : ∀ index < nFind, index + 4 ≤ ((file.drop nPos).take 65536).length →
          file[nPos + index]? ≠ some ((messageStart fTestNet).headD 0) := by
        intro index less _ same
        refine missed index less ?_
        rw [← unmarked (by omega), List.getElem?_eq_getElem (by omega)] at same
        exact decide_eq_true (Option.some.inj same)
      have window : (((file.drop nPos).take 65536).drop nFind).take 4 = (file.drop (nPos + nFind)).take 4 := by
        rw [List.drop_take, List.drop_drop, List.take_take, Nat.min_eq_left (by omega)]
      have before := absent clear (by omega)
      rw [window]
      split
      · rename_i marker
        exact ⟨nPos + nFind, by omega, by omega, by omega, marker, before⟩
      · rename_i other
        refine ⟨by omega, by omega, by omega, fun offset low high => ?_⟩
        rcases Nat.lt_or_ge offset (nPos + nFind) with less | reached
        · exact before offset low less
        · rw [show offset = nPos + nFind by omega]
          exact other
    · rename_i found
      refine ⟨by omega, by omega, by omega, absent (fun index less inside same => ?_) (by omega)⟩
      have passed := List.findIdx?_eq_none_iff.mp found
      rw [← unmarked (by omega)] at same
      exact absurd (passed _ (List.mem_of_getElem? same)) (by simp)

/-! ## One round -/

theorem RecordAt.fits {fTestNet : Bool} {file : Bytes} {offset : Nat} {nSize : UInt32} {block : CBlock}
    (record : RecordAt fTestNet file offset nSize block) : offset + 8 < file.length := by
  obtain ⟨after, -, whole⟩ := record.content
  have positive := UInt32.lt_iff_toNat_lt.mp record.inRange.1
  rw [UInt32.toNat_zero] at positive
  omega

namespace ImportState

variable {σ : Type} {fTestNet : Bool} {process : σ → CBlock → Except σ σ} {file : Bytes}

/-- The size and the block of a record are read where they stand. -/
theorem read_record {offset : Nat} {nSize : UInt32} {block : CBlock}
    (record : RecordAt fTestNet file offset nSize block) {nPos : UInt32} (position : nPos.toNat = offset + 4) :
    readSizeAt file nPos = some nSize ∧ readBlockAt file nPos = some block := by
  obtain ⟨after, read, -⟩ := record.content
  constructor
  · rw [readSizeAt, position, record.size]
    simp only [writeUInt32, length_littleEndianBytes, if_true]
    rw [littleEndian_littleEndianBytes (by simpa using nSize.toNat_lt), UInt32.ofNat_toNat]
  · rw [readBlockAt, position, read]
    rfl

/-- What follows a message start: the size is out of range, or there is one more call. -/
theorem examine_cases {s next : ImportState σ} {nPos : UInt32} (taken : s.examine process file nPos = some next) :
    ∃ nSize, readSizeAt file nPos = some nSize ∧
      (¬ (0 < nSize ∧ nSize.toNat ≤ maxBlockSize) ∧ next = { s with nPos := nPos, outer := true } ∨
        ∃ block node accepted, readBlockAt file nPos = some block ∧ nSize.toNat ≤ maxBlockSize ∧
          next = ⟨if accepted then nPos + (4 + nSize) else nPos, true, node,
            s.calls ++ [⟨nPos, nSize, block, accepted⟩]⟩) := by
  unfold examine at taken
  split at taken
  · cases taken
  · rename_i nSize size
    refine ⟨nSize, size, ?_⟩
    split at taken
    · rename_i inRange
      split at taken
      · cases taken
      · rename_i block read
        split at taken
        · rename_i node _
          exact .inr ⟨block, node, true, read, inRange.2, (Option.some.inj taken).symm⟩
        · rename_i node _
          exact .inr ⟨block, node, false, read, inRange.2, (Option.some.inj taken).symm⟩
    · rename_i outside
      exact .inl ⟨outside, (Option.some.inj taken).symm⟩

/-- A round goes on in the file, or finds a message start and looks at what follows. -/
theorem step_cases {s next : ImportState σ} (taken : s.step fTestNet process file = some next) :
    (∃ n, searchChunk (messageStart fTestNet) file s.nPos.toNat = .moves n ∧
      next = { s with nPos := s.nPos + UInt32.ofNat n, outer := false }) ∨
    ∃ n, searchChunk (messageStart fTestNet) file s.nPos.toNat = .finds n ∧ s.nPos + UInt32.ofNat n ≠ 0xffffffff ∧
      s.examine process file (s.nPos + UInt32.ofNat n) = some next := by
  unfold step at taken
  split at taken
  · cases taken
  · split at taken
    · cases taken
    · rename_i n search
      exact .inl ⟨n, search, (Option.some.inj taken).symm⟩
    · rename_i n search
      split at taken
      · cases taken
      · rename_i more
        exact .inr ⟨n, search, more, taken⟩

/-- A position after a move of at most a buffer. -/
theorem toNat_move (nPos : UInt32) {n : Nat} (small : n ≤ 65536) :
    (nPos + UInt32.ofNat n).toNat = (nPos.toNat + n) % 2 ^ 32 := by
  rw [UInt32.toNat_add, UInt32.toNat_ofNat_of_lt' (by simp [UInt32.size]; omega)]

/-- A position after an accepted record. -/
theorem toNat_accept (nPos nSize : UInt32) (small : nSize.toNat ≤ maxBlockSize) :
    (nPos + (4 + nSize)).toNat = (nPos.toNat + 4 + nSize.toNat) % 2 ^ 32 := by
  rw [maxBlockSize] at small
  rw [UInt32.toNat_add, UInt32.toNat_add, show (4 : UInt32).toNat = 4 from rfl,
    Nat.mod_eq_of_lt (a := 4 + _) (by omega)]
  congr 1
  omega

/-- A round adds to the calls. -/
theorem step_calls {s next : ImportState σ} (taken : s.step fTestNet process file = some next) :
    s.calls ⊆ next.calls := by
  rcases step_cases taken with ⟨n, -, rfl⟩ | ⟨n, -, -, examined⟩
  · exact List.Subset.refl _
  · obtain ⟨nSize, -, ⟨-, rfl⟩ | ⟨block, node, accepted, -, -, rfl⟩⟩ := examine_cases examined
    · exact List.Subset.refl _
    · exact List.subset_append_left _ _

/-- A record below the new position, or below the last position of all when the position comes around, is
handled after the round. -/
theorem step_handles {s next : ImportState σ} (taken : s.step fTestNet process file = some next) {offset : Nat}
    {nSize : UInt32} {block : CBlock} (record : RecordAt fTestNet file offset nSize block) (low : offset + 5 < 2 ^ 32)
    (old : offset < s.nPos.toNat → Handled s.calls offset nSize block)
    (passed : offset < next.nPos.toNat ∨ next.nPos ≤ s.nPos) : Handled next.calls offset nSize block := by
  rw [UInt32.le_iff_toNat_le] at passed
  have before := s.nPos.toNat_lt
  rcases Nat.lt_or_ge offset s.nPos.toNat with seen | ahead
  · exact (old seen).mono (step_calls taken)
  · have tells := searchChunk_tells fTestNet file s.nPos.toNat
    rcases step_cases taken with ⟨n, search, rfl⟩ | ⟨n, search, more, examined⟩
    · rw [search] at tells
      obtain ⟨positive, small, -, clear⟩ := tells
      rw [toNat_move s.nPos small] at passed
      exact absurd record.marker (clear offset ahead (by omega))
    · rw [search] at tells
      obtain ⟨found, reached, stop, small, marker, clear⟩ := tells
      have beyond : found ≤ offset := by
        by_contra less
        exact clear offset ahead (by omega) record.marker
      have position : (s.nPos + UInt32.ofNat n).toNat = found + 4 := by
        rw [toNat_move s.nPos small]
        omega
      have apart : offset = found ∨ found + 4 ≤ offset := by
        by_contra between
        have shifted := record.marker
        rw [show offset = found + (offset - found) by omega, ← List.drop_drop] at shifted
        exact messageStart_separate marker (by omega) (by omega) shifted
      obtain ⟨size, readSize, ⟨outside, rfl⟩ | ⟨read, node, accepted, readBlock, inRange, rfl⟩⟩ :=
        examine_cases examined
      · simp only [position] at passed
        obtain rfl : offset = found := by omega
        obtain rfl := Option.some.inj (readSize.symm.trans (read_record record position).1)
        exact absurd record.inRange outside
      · refine ⟨_, List.mem_append_right _ (List.mem_singleton_self _), ?_⟩
        rcases apart with rfl | after
        · obtain rfl := Option.some.inj (readSize.symm.trans (read_record record position).1)
          obtain rfl := Option.some.inj (readBlock.symm.trans (read_record record position).2)
          exact .inl ⟨position, rfl, rfl⟩
        · cases accepted with
          | false =>
              simp only [Bool.false_eq_true, if_false, position] at passed
              omega
          | true =>
              simp only [if_true, toNat_accept _ _ inRange, position] at passed
              rw [maxBlockSize] at inRange
              refine .inr ⟨rfl, ?_, ?_⟩
              · simp only [position]
                omega
              · simp only [position]
                omega

end ImportState

/-! ## Whole runs -/

namespace ImportState

variable {σ : Type} (fTestNet : Bool) (process : σ → CBlock → Except σ σ) (file : Bytes)

/-- A state that the import comes to before its position comes around. -/
abbrev Forward : ImportState σ → ImportState σ → Prop :=
  Relation.ReflTransGen fun s next => s.step fTestNet process file = some next ∧ s.nPos < next.nPos

/-- The next message start that the import finds ends at a position, and the stream throws behind it: the size is
cut off, or it is in range and the bytes are no block. -/
def Throws (s : ImportState σ) (nPos : UInt32) : Prop :=
  ¬ (s.outer = true ∧ s.nPos = 0xffffffff) ∧
    (∃ n, searchChunk (messageStart fTestNet) file s.nPos.toNat = .finds n ∧ s.nPos.toNat + n = nPos.toNat) ∧
    nPos ≠ 0xffffffff ∧
    (readSizeAt file nPos = none ∨
      ∃ nSize, readSizeAt file nPos = some nSize ∧ 0 < nSize ∧ nSize.toNat ≤ maxBlockSize ∧
        readBlockAt file nPos = none)

/-- Every move from a state on goes forward in the file. -/
def Onward (s : ImportState σ) : Prop :=
  ∀ later next, Reaches fTestNet process file s later → later.step fTestNet process file = some next →
    later.nPos < next.nPos

variable {fTestNet process file}

theorem Forward.reaches {s later : ImportState σ} (run : Forward fTestNet process file s later) :
    Reaches fTestNet process file s later :=
  Relation.ReflTransGen.mono (fun _ _ move => move.1) _ _ run

theorem Reaches.calls {s later : ImportState σ} (run : Reaches fTestNet process file s later) :
    s.calls ⊆ later.calls := by
  induction run with
  | refl => exact List.Subset.refl _
  | tail _ taken ih => exact List.Subset.trans ih (step_calls taken)

/-- The import is deterministic, so every state comes before the last one. -/
theorem Reaches.before_last {s later final : ImportState σ} (run : Reaches fTestNet process file s later)
    (ends : EndsIn fTestNet process file s final) : Reaches fTestNet process file later final := by
  have unique : Relator.RightUnique fun s next : ImportState σ => s.step fTestNet process file = some next :=
    fun _ _ _ one other => Option.some.inj (one.symm.trans other)
  rcases Relation.ReflTransGen.total_of_right_unique unique run ends.1 with onward | back
  · exact onward
  · rcases Relation.ReflTransGen.cases_head back with rfl | ⟨next, taken, -⟩
    · exact .refl
    · rw [ends.2] at taken
      cases taken

/-- A run that never comes around ends. -/
theorem Onward.ends {s : ImportState σ} (onward : Onward fTestNet process file s) :
    ∃ final, EndsIn fTestNet process file s final := by
  generalize room : 2 ^ 32 - s.nPos.toNat = fuel
  induction fuel using Nat.strong_induction_on generalizing s with
  | _ fuel ih =>
      cases taken : s.step fTestNet process file with
      | none => exact ⟨s, .refl, taken⟩
      | some next =>
          have forward := UInt32.lt_iff_toNat_lt.mp (onward s next .refl taken)
          have bound := next.nPos.toNat_lt
          obtain ⟨final, run, last⟩ := ih _ (by omega)
            (s := next) (fun later beyond run => onward later beyond (.head taken run)) rfl
          exact ⟨final, .head taken run, last⟩

theorem EndsIn.onward {s final : ImportState σ} (ends : EndsIn fTestNet process file s final) :
    Onward fTestNet process file final := by
  intro later next run taken
  rcases Relation.ReflTransGen.cases_head run with rfl | ⟨other, first, -⟩
  · rw [ends.2] at taken
    cases taken
  · rw [ends.2] at first
    cases first

/-- Until the position comes around, every record below it is handled; from then on every record is that begins
below the last positions. -/
theorem Reaches.handles {node : σ} {s : ImportState σ} (run : Reaches fTestNet process file (initial node) s) :
    (Forward fTestNet process file (initial node) s ∧ ∀ offset nSize block, RecordAt fTestNet file offset nSize block →
      offset + 5 < 2 ^ 32 → offset < s.nPos.toNat → Handled s.calls offset nSize block) ∨
    ∀ offset nSize block, RecordAt fTestNet file offset nSize block → offset + 5 < 2 ^ 32 →
      Handled s.calls offset nSize block := by
  induction run with
  | refl => exact .inl ⟨.refl, fun offset _ _ _ _ less => absurd less (Nat.not_lt_zero offset)⟩
  | @tail s next _ taken ih =>
      rcases ih with ⟨forward, below⟩ | all
      · by_cases more : s.nPos < next.nPos
        · exact .inl ⟨forward.tail ⟨taken, more⟩, fun offset nSize block record low less =>
            step_handles taken record low (below offset nSize block record low) (.inl less)⟩
        · exact .inr fun offset nSize block record low =>
            step_handles taken record low (below offset nSize block record low) (.inr (UInt32.not_lt.mp more))
      · exact .inr fun offset nSize block record low => (all offset nSize block record low).mono (step_calls taken)

end ImportState

namespace ImportState

variable {σ : Type} {fTestNet : Bool} {process : σ → CBlock → Except σ σ} {file : Bytes}

/-- What was called for lies below the position, and so does every accepted record as a whole. -/
structure Behind (s : ImportState σ) : Prop where
  start : ∀ call ∈ s.calls, call.nPos ≤ s.nPos
  stop : ∀ call ∈ s.calls, call.accepted = true → call.nPos.toNat + 4 + call.nSize.toNat ≤ s.nPos.toNat

theorem Behind.step {s next : ImportState σ} (behind : s.Behind) (taken : s.step fTestNet process file = some next)
    (forward : s.nPos < next.nPos) : next.Behind := by
  have advance := UInt32.lt_iff_toNat_lt.mp forward
  have keeps : ∀ call ∈ s.calls, call.nPos ≤ next.nPos ∧
      (call.accepted = true → call.nPos.toNat + 4 + call.nSize.toNat ≤ next.nPos.toNat) := by
    intro call member
    refine ⟨UInt32.le_trans (behind.start call member) (UInt32.le_of_lt forward), fun accepted => ?_⟩
    have below := behind.stop call member accepted
    omega
  rcases step_cases taken with ⟨n, -, rfl⟩ | ⟨n, search, more, examined⟩
  · exact ⟨fun call member => (keeps call member).1, fun call member => (keeps call member).2⟩
  · have tells := searchChunk_tells fTestNet file s.nPos.toNat
    rw [search] at tells
    obtain ⟨found, reached, stop, small, -, -⟩ := tells
    have position := toNat_move s.nPos small
    have before := s.nPos.toNat_lt
    obtain ⟨size, -, ⟨-, rfl⟩ | ⟨read, node, accepted, -, inRange, rfl⟩⟩ := examine_cases examined
    · exact ⟨fun call member => (keeps call member).1, fun call member => (keeps call member).2⟩
    · have behind' : ∀ call ∈ s.calls ++ [⟨s.nPos + UInt32.ofNat n, size, read, accepted⟩],
          call.nPos ≤ (if accepted then s.nPos + UInt32.ofNat n + (4 + size) else s.nPos + UInt32.ofNat n) ∧
          (call.accepted = true → call.nPos.toNat + 4 + call.nSize.toNat ≤
            (if accepted then s.nPos + UInt32.ofNat n + (4 + size) else s.nPos + UInt32.ofNat n).toNat) := by
        intro call member
        rcases List.mem_append.mp member with old | new
        · exact keeps call old
        · obtain rfl := List.mem_singleton.mp new
          cases accepted with
          | false => exact ⟨UInt32.le_refl _, fun rejected => absurd rejected Bool.false_ne_true⟩
          | true =>
              have exact' := toNat_accept (s.nPos + UInt32.ofNat n) size inRange
              simp only [if_true] at advance ⊢
              rw [maxBlockSize] at inRange
              rw [UInt32.le_iff_toNat_le]
              omega
      exact ⟨fun call member => (behind' call member).1, fun call member => (behind' call member).2⟩

theorem Forward.behind {node : σ} {s : ImportState σ} (run : Forward fTestNet process file (initial node) s) :
    s.Behind := by
  induction run with
  | refl => exact ⟨fun call member => absurd member List.not_mem_nil, fun call member => absurd member List.not_mem_nil⟩
  | tail _ move ih => exact ih.step move.1 move.2

/-- No record that ends its message start at the last position is passed on. -/
theorem Reaches.call_ne {node : σ} {s : ImportState σ} (run : Reaches fTestNet process file (initial node) s) :
    ∀ call ∈ s.calls, call.nPos ≠ 0xffffffff := by
  induction run with
  | refl => exact fun call member => absurd member List.not_mem_nil
  | tail _ taken ih =>
      rcases step_cases taken with ⟨n, -, rfl⟩ | ⟨n, -, more, examined⟩
      · exact ih
      · obtain ⟨nSize, -, ⟨-, rfl⟩ | ⟨block, node, accepted, -, -, rfl⟩⟩ := examine_cases examined
        · exact ih
        · intro call member
          rcases List.mem_append.mp member with old | new
          · exact ih call old
          · rw [List.mem_singleton.mp new]
            exact more

/-- The import ends where the stream throws. -/
theorem Throws.step_eq_none {s : ImportState σ} {nPos : UInt32} (throws : s.Throws fTestNet file nPos) :
    s.step fTestNet process file = none := by
  obtain ⟨go, ⟨n, search, reached⟩, more, refused⟩ := throws
  have position : s.nPos + UInt32.ofNat n = nPos := by
    apply UInt32.toNat_inj.mp
    have bound := nPos.toNat_lt
    rw [UInt32.toNat_add, UInt32.toNat_ofNat', Nat.add_mod_mod, reached, Nat.mod_eq_of_lt bound]
  have nothing : s.examine process file nPos = none := by
    rcases refused with size | ⟨nSize, size, positive, small, block⟩
    · simp only [examine, size]
    · simp only [examine, size, positive, small, true_and, if_true, block]
  simp only [step, go, if_false, search, position, more, nothing]

/-- When the import ends, the records below the position are handled, and those ahead that no exception hides. -/
theorem last_handles {final : ImportState σ} (last : final.step fTestNet process file = none) {offset : Nat}
    {nSize : UInt32} {block : CBlock} (record : RecordAt fTestNet file offset nSize block) (low : offset + 5 < 2 ^ 32)
    (below : offset < final.nPos.toNat → Handled final.calls offset nSize block)
    (open' : ∀ nPos, final.Throws fTestNet file nPos → offset + 4 ≤ nPos.toNat) :
    Handled final.calls offset nSize block := by
  apply below
  by_contra ahead
  have room := record.fits
  have before := final.nPos.toNat_lt
  have tells := searchChunk_tells fTestNet file final.nPos.toNat
  unfold step at last
  split at last
  · rename_i top
    rw [top.2, show (0xffffffff : UInt32).toNat = 2 ^ 32 - 1 from rfl] at ahead
    omega
  · rename_i go
    split at last
    · rename_i search
      rw [search] at tells
      change file.length ≤ final.nPos.toNat + 8 at tells
      omega
    · cases last
    · rename_i n search
      rw [search] at tells
      obtain ⟨found, reached, stop, small, marker, clear⟩ := tells
      have position := toNat_move final.nPos small
      have beyond : found ≤ offset := by
        by_contra less
        exact clear offset (by omega) (by omega) record.marker
      rw [← stop, Nat.mod_eq_of_lt (by omega)] at position
      have more : final.nPos + UInt32.ofNat n ≠ 0xffffffff := by
        intro top
        rw [top, show (0xffffffff : UInt32).toNat = 2 ^ 32 - 1 from rfl] at position
        omega
      rw [if_neg more] at last
      have throws : final.Throws fTestNet file (final.nPos + UInt32.ofNat n) := by
        refine ⟨go, ⟨n, search, by omega⟩, more, ?_⟩
        cases size : readSizeAt file (final.nPos + UInt32.ofNat n) with
        | none => exact .inl rfl
        | some nSize =>
            simp only [examine, size] at last
            split at last
            · rename_i inRange
              split at last
              · rename_i read
                exact .inr ⟨nSize, rfl, inRange.1, inRange.2, read⟩
              · split at last <;> cases last
            · cases last
      -- the stream does not throw at a record
      obtain rfl : offset = found := by
        have reach := open' _ throws
        omega
      obtain ⟨size, read⟩ := read_record record position
      rcases throws.2.2.2 with none' | ⟨other, size', -, -, none'⟩
      · rw [size] at none'
        cases none'
      · rw [read] at none'
        cases none'

end ImportState

/-! ## Every file -/

section Files

variable {σ : Type} (fTestNet : Bool) (process : σ → CBlock → Except σ σ) (file : Bytes) (node : σ)

open ImportState

/-- The import ends, and every record of the file is passed to `ProcessBlock` or overlaps one accepted before. -/
def Imports : Prop :=
  ∃ final, EndsIn fTestNet process file (initial node) final ∧
    ∀ offset nSize block, RecordAt fTestNet file offset nSize block → Handled final.calls offset nSize block

/-- Nothing takes a record from the import: as long as the position has not come around, no record starts behind a
message start that the stream throws at; a record at the last positions of 32 bits overlaps an accepted one; and the
position comes around finitely often. -/
structure Undisturbed : Prop where
  intact : ∀ s nPos, Forward fTestNet process file (initial node) s → s.Throws fTestNet file nPos →
    ∀ offset nSize block, RecordAt fTestNet file offset nSize block → offset + 4 ≤ nPos.toNat
  covered : ∀ offset nSize block, RecordAt fTestNet file offset nSize block → 2 ^ 32 ≤ offset + 5 →
    ∃ s, Reaches fTestNet process file (initial node) s ∧ ∃ call ∈ s.calls, call.Covers offset
  settles : ∃ s, Reaches fTestNet process file (initial node) s ∧ Onward fTestNet process file s

variable {fTestNet process file node}

/-- From a complete import nothing takes a record. -/
theorem Imports.undisturbed (imports : Imports fTestNet process file node) :
    Undisturbed fTestNet process file node := by
  obtain ⟨final, ends, handled⟩ := imports
  refine ⟨fun s nPos forward throws offset nSize block record => ?_, fun offset nSize block record high => ?_,
    final, ends.1, ends.onward⟩
  · -- the state where the stream throws is the last one, and its calls are all for what lies below it
    have same : s = final := by
      rcases Relation.ReflTransGen.cases_head (forward.reaches.before_last ends) with same | ⟨next, taken, -⟩
      · exact same
      · rw [throws.step_eq_none] at taken
        cases taken
    subst same
    obtain ⟨-, ⟨n, search, reached⟩, -⟩ := throws
    obtain ⟨call, member, ⟨position, -⟩ | ⟨accepted, -, stop⟩⟩ := handled offset nSize block record
    · have below := UInt32.le_iff_toNat_le.mp (forward.behind.start call member)
      omega
    · have below := forward.behind.stop call member accepted
      have tells := searchChunk_tells fTestNet file s.nPos.toNat
      rw [search] at tells
      obtain ⟨found, low, there, -⟩ := tells
      omega
  · obtain ⟨call, member, ⟨position, -⟩ | covers⟩ := handled offset nSize block record
    · have bound := call.nPos.toNat_lt
      refine absurd (UInt32.toNat_inj.mp ?_) (ends.1.call_ne call member)
      rw [show (0xffffffff : UInt32).toNat = 2 ^ 32 - 1 from rfl]
      omega
    · exact ⟨final, ends.1, call, member, covers⟩

/-- The import is complete where nothing takes a record from it. -/
theorem Undisturbed.imports (undisturbed : Undisturbed fTestNet process file node) :
    Imports fTestNet process file node := by
  obtain ⟨intact, covered, s, run, onward⟩ := undisturbed
  obtain ⟨final, beyond, last⟩ := onward.ends
  have ends : EndsIn fTestNet process file (initial node) final := ⟨run.trans beyond, last⟩
  refine ⟨final, ends, fun offset nSize block record => ?_⟩
  rcases Nat.lt_or_ge (offset + 5) (2 ^ 32) with low | high
  · rcases ends.1.handles with ⟨forward, below⟩ | all
    · exact last_handles last record low (below offset nSize block record low) fun nPos throws =>
        intact final nPos forward throws offset nSize block record
    · exact all offset nSize block record low
  · obtain ⟨before, reached, call, member, covers⟩ := covered offset nSize block record high
    exact ⟨call, (reached.before_last ends).calls member, .inr covers⟩

variable (fTestNet process file node)

/-- The import is complete for exactly the files in which nothing takes a record from it. -/
theorem imports_iff_undisturbed : Imports fTestNet process file node ↔ Undisturbed fTestNet process file node :=
  ⟨Imports.undisturbed, Undisturbed.imports⟩

end Files

/-- The smallest record, of a block whose `nBits` and `nNonce` are all ones. -/
def importRecord : Bytes :=
  pchMessageStart ++ writeUInt32 82 ++ List.replicate 72 0 ++ List.replicate 8 0xff ++ [0, 0]

/-- A message start with a size of one, directly in front of a record. -/
def disturbedFile : Bytes := pchMessageStart ++ writeUInt32 1 ++ importRecord

theorem disturbedFile_record :
    RecordAt false disturbedFile 8 82 ⟨⟨0, 0, 0, 0, 0xffffffff, 0xffffffff⟩, [], []⟩ := by
  have read : (CBlock.unserialize serDisk (ofBytes (disturbedFile.drop (8 + 8)))).map
      (fun result => (result.1, result.2.remaining.length)) =
      some (⟨⟨0, 0, 0, 0, 0xffffffff, 0xffffffff⟩, [], []⟩, 0) := by decide +kernel
  obtain ⟨⟨block, after⟩, done, whole⟩ := Option.map_eq_some_iff.mp read
  obtain ⟨rfl, rest⟩ := Prod.mk.inj whole
  exact ⟨by decide, by decide, by decide, after, done, by rw [rest]; decide⟩

/-- The stream throws at the message start, and the record behind it is lost. -/
theorem import_loses_record :
    ¬ Imports false (fun s block => processBlock orphanSetup s block false) disturbedFile orphanStart := by
  intro imports
  have throws : (ImportState.initial orphanStart).Throws false disturbedFile 4 :=
    ⟨by decide, ⟨4, by decide, by decide⟩, by decide, .inr ⟨1, by decide, by decide, by decide, by decide +kernel⟩⟩
  have reach := imports.undisturbed.intact _ 4 .refl throws 8 82 _ disturbedFile_record
  exact absurd reach (by decide)

end InfiniteRicks
