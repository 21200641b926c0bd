import InfiniteRicks.BigNum
import Mathlib.Data.List.GetD

/-!
# Round trips of big numbers

The compact word of a target is that of the rounded target: rounding keeps the leading
bit and the bytes that the word is made of. The bytes of a script number give it back,
whatever its sign.
-/

namespace InfiniteRicks

namespace CBigNum

section Compact

/-- Clearing bits below the leading one keeps it. -/
theorem log2_div_mul_pow {n k : Nat} (nonzero : n ≠ 0) (below : k ≤ n.log2) : (n / 2 ^ k * 2 ^ k).log2 = n.log2 := by
  have positive : 0 < 2 ^ k := Nat.pow_pos (by omega)
  have kept : 2 ^ n.log2 ≤ n / 2 ^ k * 2 ^ k := by
    have unit : 2 ^ n.log2 = 2 ^ (n.log2 - k) * 2 ^ k := by rw [← pow_add, Nat.sub_add_cancel below]
    rw [unit]
    refine Nat.mul_le_mul_right _ ((Nat.le_div_iff_mul_le positive).mpr ?_)
    rw [← unit]
    exact Nat.log2_self_le nonzero
  have cleared : n / 2 ^ k * 2 ^ k ≠ 0 := (Nat.lt_of_lt_of_le (Nat.pow_pos (by omega)) kept).ne'
  refine le_antisymm ?_ ((Nat.le_log2 cleared).mpr kept)
  rw [Nat.log2_eq_log_two, Nat.log2_eq_log_two]
  exact Nat.log_mono_right (Nat.div_mul_le_self _ _)

theorem pow_256 (k : Nat) : 256 ^ k = 2 ^ (8 * k) := by
  rw [pow_mul]
  norm_num

theorem mpiSize_clearLow (n : Nat) : mpiSize (clearLow n) = mpiSize n := by
  rcases Nat.eq_zero_or_pos n with rfl | positive
  · simp [clearLow]
  have nonzero : n ≠ 0 := by omega
  have cleared : clearLow n ≠ 0 := (clearLow_pos nonzero).ne'
  have bits : numBits n = n.log2 + 1 := by rw [numBits, if_neg nonzero]
  have below : 8 * droppedBytes n ≤ n.log2 := by
    rw [droppedBytes, mpiSize_eq nonzero, bits]
    omega
  rw [mpiSize_eq cleared, mpiSize_eq nonzero, numBits, if_neg cleared, bits, clearLow, pow_256,
    log2_div_mul_pow nonzero below]

/-- A byte above the dropped ones is kept. -/
theorem clearLow_div {n k : Nat} (kept : droppedBytes n ≤ k) : clearLow n / 256 ^ k = n / 256 ^ k := by
  obtain ⟨more, rfl⟩ := Nat.exists_eq_add_of_le kept
  rw [clearLow, pow_add, ← Nat.div_div_eq_div_mul, ← Nat.div_div_eq_div_mul,
    Nat.mul_div_cancel _ (Nat.pow_pos (by omega))]

theorem bigEndian_getD {len n i : Nat} (inside : i < len) :
    (bigEndian len n).getD i 0 = n / 256 ^ (len - 1 - i) % 256 := by
  rw [List.getD_eq_getElem _ _ (by rw [bigEndian_length]; exact inside)]
  simp only [bigEndian, List.getElem_map, List.getElem_range]

/-- The leading three bytes of a form, which the compact word is made of. -/
theorem bigEndian_clearLow {n i : Nat} (leading : i < 3) :
    (bigEndian (mpiSize n) (clearLow n)).getD i 0 = (bigEndian (mpiSize n) n).getD i 0 := by
  rcases Nat.lt_or_ge i (mpiSize n) with inside | outside
  · rw [bigEndian_getD inside, bigEndian_getD inside, clearLow_div (by rw [droppedBytes]; omega)]
  · rw [List.getD_eq_default _ _ (by rw [bigEndian_length]; exact outside),
      List.getD_eq_default _ _ (by rw [bigEndian_length]; exact outside)]

theorem compacted_of_nonneg {t : Int} (small : mpiSize t.natAbs < 256) (nonneg : 0 ≤ t) :
    compacted t = (clearLow t.natAbs : Int) := by
  rw [compacted_eq small, if_neg (by omega), one_mul]

/-- The compact word of a rounded target is that of the target. -/
theorem getCompact_compacted {t : Int} (small : mpiSize t.natAbs < 256) (nonneg : 0 ≤ t) :
    getCompact (compacted t) = getCompact t := by
  rw [compacted_of_nonneg small nonneg, getCompact, getCompact, bn2mpi_nonneg nonneg, bn2mpi_nonneg (by omega),
    Int.natAbs_natCast, mpiSize_clearLow, bigEndian_length, bigEndian_length, bigEndian_clearLow (by omega),
    bigEndian_clearLow (by omega), bigEndian_clearLow (by omega)]

theorem compacted_eq_div {t : Int} (small : mpiSize t.natAbs < 256) (nonneg : 0 ≤ t) :
    compacted t = t / 256 ^ droppedBytes t.natAbs * 256 ^ droppedBytes t.natAbs := by
  rw [compacted_of_nonneg small nonneg, clearLow, Nat.cast_mul, Int.natCast_ediv, Int.natAbs_of_nonneg nonneg]
  rfl

/-- Rounding takes away less than one unit of the precision that is kept. -/
theorem sub_lt_compacted {t : Int} (small : mpiSize t.natAbs < 256) (nonneg : 0 ≤ t) :
    t - 256 ^ droppedBytes t.natAbs < compacted t := by
  have unit : (0 : Int) < 256 ^ droppedBytes t.natAbs := Int.pow_pos (by omega)
  have above := Int.lt_ediv_add_one_mul_self t unit
  rw [add_mul, one_mul, ← compacted_eq_div small nonneg] at above
  omega

end Compact

section Bytes

theorem bn2mpi_lt (bn : Int) : ∀ byte ∈ bn2mpi bn, byte < 256 := by
  have bytes : ∀ byte ∈ bigEndian (mpiSize bn.natAbs) bn.natAbs, byte < 256 := by
    intro byte member
    obtain ⟨i, -, rfl⟩ := List.mem_map.mp member
    exact Nat.mod_lt _ (by omega)
  rcases Int.lt_or_le bn 0 with negative | nonneg
  · obtain ⟨len, size⟩ : ∃ len, mpiSize bn.natAbs = len + 1 := ⟨_, mpiSize_eq (by omega)⟩
    have lead := lead_lt (size ▸ two_mul_lt_pow_mpiSize (n := bn.natAbs) (by omega))
    rw [size, bigEndian_succ, List.forall_mem_cons] at bytes
    rw [bn2mpi_succ size, if_pos negative, List.forall_mem_cons]
    exact ⟨by rw [Nat.mod_eq_of_lt (by omega)]; omega, bytes.2⟩
  · rwa [bn2mpi_nonneg nonneg]

/-- `BN_mpi2bn` reads what `BN_bn2mpi` writes. -/
theorem mpi2bn_bn2mpi (bn : Int) : mpi2bn (bn2mpi bn) = bn := by
  rcases eq_or_ne bn 0 with rfl | nonzero
  · rfl
  have magnitude : bn.natAbs ≠ 0 := by omega
  obtain ⟨len, size⟩ : ∃ len, mpiSize bn.natAbs = len + 1 := ⟨_, mpiSize_eq magnitude⟩
  have bound := size ▸ two_mul_lt_pow_mpiSize magnitude
  have lead := lead_lt bound
  have whole : ofBigEndian (bn.natAbs / 256 ^ len % 256 :: bigEndian len bn.natAbs) = bn.natAbs := by
    rw [← bigEndian_succ, ofBigEndian_bigEndian]
    exact Nat.mod_eq_of_lt (by omega)
  have free : bn.natAbs / 256 ^ len % 256 < 128 := Nat.lt_of_le_of_lt (Nat.mod_le _ _) lead
  rw [bn2mpi_succ size, mpi2bn]
  by_cases negative : bn < 0
  · rw [if_pos negative, if_pos (by omega), Nat.add_sub_cancel, whole]
    omega
  · rw [if_neg negative, if_neg (by omega), whole]
    omega

theorem setvch_getvch (bn : Int) : setvch (getvch bn) = bn := by
  have bytes : ((bn2mpi bn).map UInt8.ofNat).map UInt8.toNat = bn2mpi bn := by
    rw [List.map_map]
    refine (List.map_congr_left fun byte member => ?_).trans (List.map_id _)
    exact UInt8.toNat_ofNat_of_lt' (bn2mpi_lt bn byte member)
  rw [setvch, getvch, List.reverse_reverse, bytes, mpi2bn_bn2mpi]

end Bytes

/-- Compact words round a target down by less than the unit they keep, without
changing its word or the order of targets; script numbers are read back exactly. -/
theorem compact_encoding :
    (∀ t : Int, 0 ≤ t → t < 2 ^ 256 →
      setCompact (getCompact t) = t / 256 ^ (mpiSize t.natAbs - 3) * 256 ^ (mpiSize t.natAbs - 3) ∧
        setCompact (getCompact t) ≤ t ∧ t - 256 ^ (mpiSize t.natAbs - 3) < setCompact (getCompact t) ∧
        getCompact (setCompact (getCompact t)) = getCompact t) ∧
    (∀ t1 t2 : Int, 0 ≤ t1 → t1 ≤ t2 → t2 < 2 ^ 256 →
      setCompact (getCompact t1) ≤ setCompact (getCompact t2)) ∧
    ∀ n : Int, setvch (getvch n) = n := by
  have small : ∀ {t : Int}, 0 ≤ t → t < 2 ^ 256 → mpiSize t.natAbs < 256 := fun nonneg bound =>
    mpiSize_lt_of_le (by omega)
  refine ⟨fun t nonneg bound => ⟨compacted_eq_div (small nonneg bound) nonneg,
    compacted_le (small nonneg bound) nonneg, sub_lt_compacted (small nonneg bound) nonneg,
    getCompact_compacted (small nonneg bound) nonneg⟩, fun t1 t2 nonneg le bound => ?_, setvch_getvch⟩
  exact compacted_mono (small nonneg (by omega)) (small (by omega) bound) nonneg le

/-- A target of four bytes with the high bit of the first one set takes a sign byte
and keeps two. -/
theorem compact_encoding_sign :
    setCompact (getCompact 0x80123456) = 0x80120000 ∧
      setCompact (getCompact 0x7fffffff) ≤ setCompact (getCompact 0x80123456) := by
  have first := (compact_encoding.1 0x80123456 (by decide) (by decide)).1
  have size : mpiSize (Int.natAbs 0x80123456) = 5 := by decide +kernel
  rw [size] at first
  exact ⟨first.trans (by decide), compact_encoding.2.1 0x7fffffff 0x80123456 (by decide) (by decide) (by decide)⟩

end CBigNum

end InfiniteRicks
