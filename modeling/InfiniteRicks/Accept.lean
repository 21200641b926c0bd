import InfiniteRicks.Block
import Mathlib.Data.List.Infix

/-!
# The coinbase height rule

`AcceptBlock` makes every coinbase start with its serialized height,
`CScript() << nHeight`. The push encodings of two positive heights are never
prefixes of one script, so coinbases of different heights differ.
-/

namespace InfiniteRicks

namespace CScript

/-- `CScript() << n`, which is `push_int64`. -/
def pushInt64 (n : Int64) : CScript :=
  if n = -1 ∨ (1 ≤ n ∧ n ≤ 16) then [UInt8.ofInt (n.toInt + (0x51 - 1))]
  else pushData (CBigNum.getvch n.toInt)

end CScript

/-- `CScript() << nHeight` for an `int`. -/
def heightScript (nHeight : Int32) : CScript := CScript.pushInt64 nHeight.toInt64

/-- The test of `AcceptBlock` that the coinbase starts with the serialized height. -/
def CBlock.checkCoinbaseHeight (block : CBlock) (nHeight : Int32) : Bool :=
  match block.vtx with
  | coinbase :: _ =>
      match coinbase.vin with
      | txin :: _ => (heightScript nHeight).isPrefixOf txin.scriptSig
      | [] => false
  | [] => false

/-- An `int` that is not negative has at most five bytes. -/
theorem getvch_length_le {nHeight : Int32} (nonneg : 0 ≤ nHeight.toInt) :
    (CBigNum.getvch nHeight.toInt).length ≤ 5 := by
  have bound : CBigNum.mpiSize (2 ^ 31) = 5 := by decide +kernel
  have below := nHeight.toInt_lt
  rw [CBigNum.getvch_length, ← bound]
  exact CBigNum.mpiSize_mono (by omega)

/-- A height script is one small-integer opcode, or the number of its bytes and the
bytes. -/
theorem heightScript_cases {nHeight : Int32} (positive : 0 < nHeight.toInt) :
    (nHeight.toInt ≤ 16 ∧ heightScript nHeight = [UInt8.ofNat (nHeight.toInt.toNat + 80)]) ∨
      (16 < nHeight.toInt ∧ heightScript nHeight =
        UInt8.ofNat (CBigNum.getvch nHeight.toInt).length :: CBigNum.getvch nHeight.toInt) := by
  have value : nHeight.toInt64.toInt = nHeight.toInt := Int32.toInt_toInt64 nHeight
  have notMinus : nHeight.toInt64 ≠ -1 := by
    intro equal
    have minus : nHeight.toInt = -1 := value.symm.trans (congrArg Int64.toInt equal)
    omega
  have one : (1 : Int64) ≤ nHeight.toInt64 := by
    rw [Int64.le_iff_toInt_le, value]
    exact positive
  have sixteen : nHeight.toInt64 ≤ 16 ↔ nHeight.toInt ≤ 16 := by
    rw [Int64.le_iff_toInt_le, value]
    rfl
  unfold heightScript CScript.pushInt64
  simp only [notMinus, one, true_and, false_or, sixteen, value]
  by_cases small : nHeight.toInt ≤ 16
  · refine Or.inl ⟨small, ?_⟩
    rw [if_pos small, UInt8.ofInt]
    congr 2
    omega
  · have short := getvch_length_le positive.le
    exact Or.inr ⟨by omega, by rw [if_neg small, CScript.pushData, if_pos (by omega)]⟩

/-- Two positive heights whose scripts start one script are the same. -/
theorem heightScript_inj {first second : Int32} {script : CScript} (firstPos : 0 < first.toInt)
    (secondPos : 0 < second.toInt) (firstStarts : heightScript first <+: script)
    (secondStarts : heightScript second <+: script) : first = second := by
  have firstShort := getvch_length_le firstPos.le
  have secondShort := getvch_length_le secondPos.le
  rw [← Int32.toInt_inj]
  -- The first byte tells an opcode from a length, and gives the opcode or the length.
  rcases heightScript_cases firstPos with ⟨smallFirst, shapeFirst⟩ | ⟨largeFirst, shapeFirst⟩ <;>
    rcases heightScript_cases secondPos with ⟨smallSecond, shapeSecond⟩ | ⟨largeSecond, shapeSecond⟩
  all_goals
    rw [shapeFirst] at firstStarts
    rw [shapeSecond] at secondStarts
    obtain ⟨restFirst, rfl⟩ := firstStarts
    obtain ⟨restSecond, same⟩ := secondStarts
    rw [List.cons_append, List.cons_append, List.cons.injEq] at same
    have head := congrArg UInt8.toNat same.1
    rw [UInt8.toNat_ofNat', UInt8.toNat_ofNat'] at head
  · omega
  · omega
  · omega
  · have lengths : (CBigNum.getvch second.toInt).length = (CBigNum.getvch first.toInt).length := by omega
    have bytes := (List.append_inj same.2 lengths).1
    have values := congrArg (fun vch => CBigNum.ofBigEndian (vch.reverse.map UInt8.toNat)) bytes
    simp only [CBigNum.ofBigEndian_getvch firstPos.le, CBigNum.ofBigEndian_getvch secondPos.le] at values
    omega

end InfiniteRicks
