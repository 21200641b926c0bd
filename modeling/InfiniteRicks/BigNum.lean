import InfiniteRicks.Script
import Mathlib.Data.Nat.Log
import Mathlib.Tactic.Ring

/-!
# Big numbers and compact targets

`CBigNum` from `bignum.h`, as far as difficulty targets use it. The number is an
`Int`; OpenSSL's MPI conversions `BN_bn2mpi` and `BN_mpi2bn` are written out
without their four length bytes, and `SetCompact` / `GetCompact` read and write
the first three bytes of that form. `setCompact_getCompact` says what the two
do together: they clear every byte of the magnitude below the leading ones. `getvch`
and `setvch` are the numbers of the script interpreter.
-/

namespace InfiniteRicks

namespace CBigNum

/-- `BN_num_bits`. -/
def numBits (n : Nat) : Nat := if n = 0 then 0 else n.log2 + 1

/-- `BN_num_bytes`. -/
def numBytes (n : Nat) : Nat := (numBits n + 7) / 8

/-- The low `len` bytes of a magnitude, most significant first (`BN_bn2bin`). -/
def bigEndian (len n : Nat) : List Nat :=
  (List.range len).map fun i => n / 256 ^ (len - 1 - i) % 256

/-- The magnitude with the given most-significant-first bytes (`BN_bin2bn`). -/
def ofBigEndian (bytes : List Nat) : Nat := bytes.foldl (fun n byte => n * 256 + byte) 0

/-- Length of the MPI form: one more byte where the leading bit is taken. -/
def mpiSize (n : Nat) : Nat :=
  if n = 0 then 0 else numBytes n + if numBits n % 8 = 0 then 1 else 0

/-- `BN_bn2mpi` without the length bytes: the sign is the top bit of the first byte. -/
def bn2mpi (bn : Int) : List Nat :=
  match bigEndian (mpiSize bn.natAbs) bn.natAbs with
  | [] => []
  | first :: rest => (if bn < 0 then first + 128 else first) :: rest

/-- `BN_mpi2bn` without the length bytes. -/
def mpi2bn : List Nat → Int
  | [] => 0
  | first :: rest =>
      if 128 ≤ first then -(ofBigEndian ((first - 128) :: rest) : Int)
      else (ofBigEndian (first :: rest) : Int)

/-- `CBigNum::SetCompact`: the top byte is the MPI length, the low three bytes
its leading bytes. -/
def setCompact (nCompact : UInt32) : Int :=
  let nSize := nCompact.toNat / 2 ^ 24
  let bytes := [nCompact.toNat / 2 ^ 16 % 256, nCompact.toNat / 2 ^ 8 % 256, nCompact.toNat % 256]
  mpi2bn (bytes.take nSize ++ List.replicate (nSize - 3) 0)

/-- `CBigNum::GetCompact`. -/
def getCompact (bn : Int) : UInt32 :=
  let vch := bn2mpi bn
  UInt32.ofNat (vch.length * 2 ^ 24 + vch.getD 0 0 * 2 ^ 16 + vch.getD 1 0 * 2 ^ 8 + vch.getD 2 0)

/-- `CBigNum::getuint256`: the low 32 bytes of the magnitude. -/
def getUInt256 (bn : Int) : UInt256 := BitVec.ofNat 256 bn.natAbs

/-- `CBigNum::getuint64`: the low eight bytes of the magnitude. -/
def getUInt64 (bn : Int) : UInt64 := UInt64.ofNat bn.natAbs

theorem mpiSize_eq {n : Nat} (nonzero : n ≠ 0) : mpiSize n = numBits n / 8 + 1 := by
  simp only [mpiSize, nonzero, if_false, numBytes]
  split <;> omega

/-- The MPI form leaves the top bit of its first byte free for the sign. -/
theorem two_mul_lt_pow_mpiSize {n : Nat} (nonzero : n ≠ 0) : 2 * n < 256 ^ mpiSize n := by
  have below : n < 2 ^ numBits n := by
    simp only [numBits, nonzero, if_false]
    exact Nat.lt_log2_self
  have exponent : numBits n + 1 ≤ 8 * mpiSize n := by
    rw [mpiSize_eq nonzero]
    omega
  have base : (256 : Nat) ^ mpiSize n = 2 ^ (8 * mpiSize n) := by
    rw [pow_mul]
    norm_num
  calc 2 * n < 2 * 2 ^ numBits n := by omega
    _ = 2 ^ (numBits n + 1) := by ring
    _ ≤ 2 ^ (8 * mpiSize n) := Nat.pow_le_pow_right (by omega) exponent
    _ = 256 ^ mpiSize n := base.symm

theorem ofBigEndian_append_zeros (bytes : List Nat) (count : Nat) :
    ofBigEndian (bytes ++ List.replicate count 0) = ofBigEndian bytes * 256 ^ count := by
  induction count with
  | zero => simp
  | succ count ih =>
      rw [List.replicate_succ', ← List.append_assoc]
      simp only [ofBigEndian, List.foldl_append, List.foldl_cons, List.foldl_nil] at ih ⊢
      rw [ih]
      ring

/-- `SetCompact` splits the word that `GetCompact` assembles. -/
theorem setCompact_ofNat (size : Nat) {b0 b1 b2 : Nat} (small : size < 256) (h0 : b0 < 256)
    (h1 : b1 < 256) (h2 : b2 < 256) :
    setCompact (UInt32.ofNat (size * 2 ^ 24 + b0 * 2 ^ 16 + b1 * 2 ^ 8 + b2)) =
      mpi2bn ([b0, b1, b2].take size ++ List.replicate (size - 3) 0) := by
  have word : (UInt32.ofNat (size * 2 ^ 24 + b0 * 2 ^ 16 + b1 * 2 ^ 8 + b2)).toNat =
      size * 2 ^ 24 + b0 * 2 ^ 16 + b1 * 2 ^ 8 + b2 := by
    rw [UInt32.toNat_ofNat']
    omega
  have sizeEq : (size * 2 ^ 24 + b0 * 2 ^ 16 + b1 * 2 ^ 8 + b2) / 2 ^ 24 = size := by omega
  have byte0 : (size * 2 ^ 24 + b0 * 2 ^ 16 + b1 * 2 ^ 8 + b2) / 2 ^ 16 % 256 = b0 := by omega
  have byte1 : (size * 2 ^ 24 + b0 * 2 ^ 16 + b1 * 2 ^ 8 + b2) / 2 ^ 8 % 256 = b1 := by omega
  have byte2 : (size * 2 ^ 24 + b0 * 2 ^ 16 + b1 * 2 ^ 8 + b2) % 256 = b2 := by omega
  simp only [setCompact, word, sizeEq, byte0, byte1, byte2]

/-- Reading back leading bytes whose top bit is free, followed by zeros. -/
theorem mpi2bn_signed (negative : Prop) [Decidable negative] {first : Nat} (rest : List Nat)
    (free : first < 128) (count : Nat) :
    mpi2bn (((if negative then first + 128 else first) :: rest) ++ List.replicate count 0) =
      (if negative then -1 else 1) * ((ofBigEndian (first :: rest) * 256 ^ count : Nat) : Int) := by
  rw [← ofBigEndian_append_zeros]
  by_cases sign : negative
  · simp [mpi2bn, sign]
  · simp only [sign, if_false, List.cons_append, mpi2bn, Nat.not_le.mpr free, one_mul]

/-- Number of low bytes of a magnitude that a compact word drops. -/
def droppedBytes (n : Nat) : Nat := mpiSize n - 3

@[simp] theorem bigEndian_length (len n : Nat) : (bigEndian len n).length = len := by
  simp [bigEndian]

theorem bigEndian_succ (len n : Nat) :
    bigEndian (len + 1) n = n / 256 ^ len % 256 :: bigEndian len n := by
  simp only [bigEndian, List.range_succ_eq_map, List.map_cons, List.map_map]
  congr 1
  apply List.map_congr_left
  intro i _
  simp only [Function.comp_apply, Nat.succ_eq_add_one]
  rw [show len + 1 - 1 - (i + 1) = len - 1 - i by omega]

theorem bn2mpi_succ {bn : Int} {len : Nat} (size : mpiSize bn.natAbs = len + 1) :
    bn2mpi bn = (if bn < 0 then bn.natAbs / 256 ^ len % 256 + 128 else bn.natAbs / 256 ^ len % 256) ::
      bigEndian len bn.natAbs := by
  rw [bn2mpi, size, bigEndian_succ]

/-- The first MPI byte of a nonzero magnitude is below 128 before the sign is set. -/
theorem lead_lt {n len : Nat} (bound : 2 * n < 256 ^ (len + 1)) : n / 256 ^ len < 128 := by
  apply Nat.div_lt_of_lt_mul
  rw [pow_succ] at bound
  omega

/-- `SetCompact (GetCompact bn)` clears the low bytes of the magnitude and keeps
the sign. -/
theorem setCompact_getCompact {bn : Int} (small : mpiSize bn.natAbs < 256) :
    setCompact (getCompact bn) = (if bn < 0 then -1 else 1) *
      ((bn.natAbs / 256 ^ droppedBytes bn.natAbs * 256 ^ droppedBytes bn.natAbs : Nat) : Int) := by
  by_cases zero : bn.natAbs = 0
  · have : bn = 0 := by omega
    subst this
    decide
  obtain ⟨len, size⟩ : ∃ len, mpiSize bn.natAbs = len + 1 := ⟨_, mpiSize_eq zero⟩
  have bound := two_mul_lt_pow_mpiSize zero
  rw [size] at bound small
  have shape := bn2mpi_succ size
  have lead := lead_lt bound
  simp only [getCompact, droppedBytes, shape, size]
  generalize bn.natAbs = n at *
  have free : n / 256 ^ len % 256 < 128 := Nat.lt_of_le_of_lt (Nat.mod_le _ _) lead
  have first : (if bn < 0 then n / 256 ^ len % 256 + 128 else n / 256 ^ len % 256) < 256 := by
    split <;> omega
  have byte (b : Nat) : b % 256 < 256 := Nat.mod_lt _ (by omega)
  -- Forms of up to three bytes are kept whole; a longer one loses its tail.
  rcases len with _ | _ | k
  · have read := mpi2bn_signed (bn < 0) [] free 0
    have word := setCompact_ofNat 1 (by omega) first (byte 0) (byte 0)
    have rest : bigEndian 0 n = [] := rfl
    simp only [rest, List.length_cons, List.length_nil, List.getD_cons_zero, List.getD_cons_succ, List.getD_nil]
    rw [word]
    simp only [List.take_succ_cons, List.take_zero] at read ⊢
    rw [read]
    simp only [ofBigEndian, List.foldl_cons, List.foldl_nil, pow_zero, Nat.div_one] at lead ⊢
    congr 2
    omega
  · have read := mpi2bn_signed (bn < 0) [n % 256] free 0
    have word := setCompact_ofNat 2 (by omega) first (byte n) (byte 0)
    have rest : bigEndian (0 + 1) n = [n % 256] := by simp [bigEndian]
    simp only [rest, List.length_cons, List.length_nil, List.getD_cons_zero, List.getD_cons_succ, List.getD_nil]
    rw [word]
    simp only [List.take_succ_cons, List.take_zero] at read ⊢
    rw [read]
    simp only [ofBigEndian, List.foldl_cons, List.foldl_nil, zero_add, pow_one] at lead ⊢
    congr 2
    omega
  · have read := mpi2bn_signed (bn < 0) [n / 256 ^ (k + 1) % 256, n / 256 ^ k % 256] free k
    have word := setCompact_ofNat (k + 3) (by omega) first (byte (n / 256 ^ (k + 1)))
      (byte (n / 256 ^ k))
    simp only [List.length_cons, bigEndian_length, bigEndian_succ, List.getD_cons_zero, List.getD_cons_succ]
    rw [word]
    simp only [List.take_succ_cons, List.take_nil, Nat.add_sub_cancel] at read ⊢
    rw [read]
    have top : n / 256 ^ (k + 1 + 1) = n / 256 ^ k / 65536 := by
      rw [Nat.div_div_eq_div_mul, add_assoc, pow_add]
      norm_num
    have middle : n / 256 ^ (k + 1) = n / 256 ^ k / 256 := by
      rw [Nat.div_div_eq_div_mul, pow_succ]
    rw [top] at lead
    simp only [ofBigEndian, List.foldl_cons, List.foldl_nil, top, middle,
      show k + 1 + 1 + 1 - 3 = k by omega]
    generalize n / 256 ^ k = kept at lead ⊢
    congr 3
    omega

/-- The target a compact word stands for after `GetCompact` has rounded it. -/
def compacted (bn : Int) : Int := setCompact (getCompact bn)

/-- The leading byte of the MPI form, or the one after it, is in use. -/
theorem pow_mpiSize_le_two_mul {n : Nat} (nonzero : n ≠ 0) : 256 ^ (mpiSize n - 1) ≤ 2 * n := by
  have above : 2 ^ n.log2 ≤ n := Nat.log2_self_le nonzero
  have bits : numBits n = n.log2 + 1 := by simp [numBits, nonzero]
  have exponent : 8 * (mpiSize n - 1) ≤ n.log2 + 1 := by
    rw [mpiSize_eq nonzero, bits]
    omega
  calc 256 ^ (mpiSize n - 1) = 2 ^ (8 * (mpiSize n - 1)) := by
        rw [pow_mul]
        norm_num
    _ ≤ 2 ^ (n.log2 + 1) := Nat.pow_le_pow_right (by omega) exponent
    _ = 2 * 2 ^ n.log2 := by ring
    _ ≤ 2 * n := by omega

theorem mpiSize_mono {a b : Nat} (le : a ≤ b) : mpiSize a ≤ mpiSize b := by
  rcases Nat.eq_zero_or_pos a with rfl | positive
  · simp [mpiSize]
  have nonzeroA : a ≠ 0 := by omega
  have nonzeroB : b ≠ 0 := by omega
  have logs : a.log2 ≤ b.log2 := by
    rw [Nat.log2_eq_log_two, Nat.log2_eq_log_two]
    exact Nat.log_mono_right le
  rw [mpiSize_eq nonzeroA, mpiSize_eq nonzeroB]
  simp only [numBits, nonzeroA, nonzeroB, if_false]
  omega

/-- A number of at most 256 bits has an MPI form far below the longest one that a
compact word can give the length of. -/
theorem mpiSize_lt_of_le {n : Nat} (le : n ≤ 2 ^ 256) : mpiSize n < 256 := by
  have bound : mpiSize (2 ^ 256) = 33 := by decide +kernel
  have := mpiSize_mono le
  omega

/-- Clearing the low bytes that a compact word drops. -/
def clearLow (n : Nat) : Nat := n / 256 ^ droppedBytes n * 256 ^ droppedBytes n

theorem clearLow_le (n : Nat) : clearLow n ≤ n := Nat.div_mul_le_self _ _

/-- A multiple of the dropped unit below a magnitude survives the rounding. -/
theorem le_clearLow {n m : Nat} (dvd : 256 ^ droppedBytes n ∣ m) (le : m ≤ n) : m ≤ clearLow n := by
  obtain ⟨q, rfl⟩ := dvd
  have positive : 0 < 256 ^ droppedBytes n := Nat.pow_pos (by omega)
  have quotient : q ≤ n / 256 ^ droppedBytes n := by
    rw [Nat.le_div_iff_mul_le positive, Nat.mul_comm]
    exact le
  rw [clearLow, Nat.mul_comm]
  exact Nat.mul_le_mul_right _ quotient

theorem clearLow_pos {n : Nat} (nonzero : n ≠ 0) : 0 < clearLow n := by
  have unit : 256 ^ droppedBytes n ≤ n := by
    rcases Nat.lt_or_ge (mpiSize n) 4 with short | long
    · have : droppedBytes n = 0 := by simp only [droppedBytes]; omega
      rw [this]
      omega
    · have lower := pow_mpiSize_le_two_mul nonzero
      have : mpiSize n - 1 = droppedBytes n + 2 := by simp only [droppedBytes]; omega
      rw [this, pow_add] at lower
      omega
  exact Nat.lt_of_lt_of_le (Nat.pow_pos (by omega)) (le_clearLow dvd_rfl unit)

theorem clearLow_mono {a b : Nat} (le : a ≤ b) : clearLow a ≤ clearLow b := by
  rcases Nat.eq_zero_or_pos a with rfl | positive
  · simp [clearLow]
  have nonzeroA : a ≠ 0 := by omega
  have nonzeroB : b ≠ 0 := by omega
  rcases Nat.lt_or_ge (droppedBytes a) (droppedBytes b) with fewer | same
  · -- A longer form is at least half a unit of its leading byte, which it keeps.
    have upper := two_mul_lt_pow_mpiSize nonzeroA
    have lower := pow_mpiSize_le_two_mul nonzeroB
    have sizes : mpiSize a ≤ mpiSize b - 1 := by simp only [droppedBytes] at fewer; omega
    have half : 256 ^ (mpiSize b - 1) = 2 * (32768 * 256 ^ droppedBytes b) := by
      have : mpiSize b - 1 = droppedBytes b + 2 := by simp only [droppedBytes] at fewer ⊢; omega
      rw [this, pow_add]
      ring
    have kept : 32768 * 256 ^ droppedBytes b ≤ clearLow b :=
      le_clearLow (Dvd.intro_left _ rfl) (by omega)
    have between : 256 ^ mpiSize a ≤ 256 ^ (mpiSize b - 1) := Nat.pow_le_pow_right (by omega) sizes
    have below := clearLow_le a
    omega
  · have equal : droppedBytes a = droppedBytes b := by
      have := mpiSize_mono le
      simp only [droppedBytes] at same ⊢
      omega
    simp only [clearLow, equal]
    exact Nat.mul_le_mul_right _ (Nat.div_le_div_right le)

/-- Clearing twice clears no more. -/
theorem clearLow_clearLow (n : Nat) : clearLow (clearLow n) = clearLow n := by
  refine le_antisymm (clearLow_le _) (le_clearLow ?_ le_rfl)
  have fewer : droppedBytes (clearLow n) ≤ droppedBytes n := by
    have := mpiSize_mono (clearLow_le n)
    simp only [droppedBytes]
    omega
  exact (pow_dvd_pow 256 fewer).trans (Dvd.intro_left _ rfl)

theorem compacted_eq {bn : Int} (small : mpiSize bn.natAbs < 256) :
    compacted bn = (if bn < 0 then -1 else 1) * (clearLow bn.natAbs : Int) :=
  setCompact_getCompact small

/-- Rounding keeps the sign of a target. -/
theorem compacted_pos_iff {bn : Int} (small : mpiSize bn.natAbs < 256) :
    0 < compacted bn ↔ 0 < bn := by
  rw [compacted_eq small]
  by_cases negative : bn < 0
  · simp only [negative, if_true]
    omega
  · simp only [negative, if_false, one_mul]
    constructor
    · intro positive
      have := clearLow_le bn.natAbs
      omega
    · intro positive
      have := clearLow_pos (n := bn.natAbs) (by omega)
      omega

/-- Whatever the compact word keeps of a number that is not positive, it reads back
as one: the sign bit stays in the leading byte. -/
theorem compacted_nonpos {bn : Int} (nonpos : bn ≤ 0) : compacted bn ≤ 0 := by
  rcases eq_or_ne bn 0 with rfl | nonzero
  · decide
  have magnitude : bn.natAbs ≠ 0 := by omega
  obtain ⟨len, size⟩ : ∃ len, mpiSize bn.natAbs = len + 1 := ⟨_, mpiSize_eq magnitude⟩
  have lead := lead_lt (size ▸ two_mul_lt_pow_mpiSize magnitude)
  have byte (i : Nat) : (bigEndian len bn.natAbs).getD i 0 < 256 := by
    rw [List.getD_eq_getElem?_getD]
    cases found : (bigEndian len bn.natAbs)[i]? with
    | none => simp
    | some b =>
        obtain ⟨j, -, rfl⟩ := List.mem_map.mp (List.mem_of_getElem? found)
        exact Nat.mod_lt _ (by omega)
  have first : bn.natAbs / 256 ^ len % 256 + 128 < 256 := by
    have := Nat.mod_le (bn.natAbs / 256 ^ len) 256
    omega
  simp only [compacted, getCompact, bn2mpi_succ size, show bn < 0 by omega, if_true, List.length_cons,
    bigEndian_length, List.getD_cons_zero, List.getD_cons_succ]
  -- The length byte may wrap; the three leading bytes do not depend on it.
  have word (b1 b2 : Nat) : UInt32.ofNat ((len + 1) * 2 ^ 24 +
      (bn.natAbs / 256 ^ len % 256 + 128) * 2 ^ 16 + b1 * 2 ^ 8 + b2) =
      UInt32.ofNat ((len + 1) % 256 * 2 ^ 24 +
        (bn.natAbs / 256 ^ len % 256 + 128) * 2 ^ 16 + b1 * 2 ^ 8 + b2) := by
    rw [← UInt32.toNat_inj, UInt32.toNat_ofNat', UInt32.toNat_ofNat']
    omega
  rw [word, setCompact_ofNat _ (Nat.mod_lt _ (by omega)) first (byte 0) (byte 1)]
  cases (len + 1) % 256 with
  | zero => exact le_refl (0 : Int)
  | succ kept =>
      simp only [List.take_succ_cons, List.cons_append, mpi2bn]
      rw [if_pos (by omega)]
      omega

/-- Rounding never raises a nonnegative target. -/
theorem compacted_le {bn : Int} (small : mpiSize bn.natAbs < 256) (nonneg : 0 ≤ bn) :
    compacted bn ≤ bn := by
  have := clearLow_le bn.natAbs
  rw [compacted_eq small, if_neg (by omega)]
  omega

/-- Rounding again changes nothing. -/
theorem compacted_compacted {bn : Int} (small : mpiSize bn.natAbs < 256) (nonneg : 0 ≤ bn) :
    compacted (compacted bn) = compacted bn := by
  have rounded : compacted bn = (clearLow bn.natAbs : Int) := by
    rw [compacted_eq small, if_neg (by omega), one_mul]
  have smaller : mpiSize (clearLow bn.natAbs : Int).natAbs < 256 :=
    (mpiSize_mono (clearLow_le bn.natAbs)).trans_lt small
  rw [rounded, compacted_eq smaller, if_neg (by omega), one_mul, Int.natAbs_natCast, clearLow_clearLow]

/-- Rounding is monotone on nonnegative targets. -/
theorem compacted_mono {a b : Int} (smallA : mpiSize a.natAbs < 256) (smallB : mpiSize b.natAbs < 256)
    (nonneg : 0 ≤ a) (le : a ≤ b) : compacted a ≤ compacted b := by
  have := clearLow_mono (a := a.natAbs) (b := b.natAbs) (by omega)
  rw [compacted_eq smallA, compacted_eq smallB, if_neg (by omega), if_neg (by omega)]
  omega

/-- `CBigNum::setvch`. -/
def setvch (vch : Bytes) : Int := mpi2bn (vch.reverse.map UInt8.toNat)

/-- `CBigNum::getvch`: the MPI form, least significant byte first. -/
def getvch (bn : Int) : List UInt8 := ((bn2mpi bn).map UInt8.ofNat).reverse

theorem foldl_bigEndian (bytes : List Nat) (start : Nat) :
    bytes.foldl (fun n byte => n * 256 + byte) start = start * 256 ^ bytes.length + ofBigEndian bytes := by
  induction bytes generalizing start with
  | nil => simp [ofBigEndian]
  | cons byte rest ih =>
      simp only [List.foldl_cons, List.length_cons, ofBigEndian]
      rw [ih (start * 256 + byte), ih (0 * 256 + byte), pow_succ]
      ring

theorem ofBigEndian_cons (byte : Nat) (rest : List Nat) :
    ofBigEndian (byte :: rest) = byte * 256 ^ rest.length + ofBigEndian rest := by
  rw [ofBigEndian, List.foldl_cons, foldl_bigEndian]
  simp

theorem ofBigEndian_bigEndian (len n : Nat) : ofBigEndian (bigEndian len n) = n % 256 ^ len := by
  induction len with
  | zero => simp [bigEndian, ofBigEndian, Nat.mod_one]
  | succ len ih =>
      rw [bigEndian_succ, ofBigEndian_cons, ih, bigEndian_length, pow_succ, Nat.mod_mul]
      ring

theorem bn2mpi_nonneg {bn : Int} (nonneg : 0 ≤ bn) : bn2mpi bn = bigEndian (mpiSize bn.natAbs) bn.natAbs := by
  unfold bn2mpi
  split
  · rename_i empty
    exact empty.symm
  · rename_i first rest shape
    rw [shape, if_neg (by omega)]

/-- The bytes of a number that is not negative give it back. -/
theorem ofBigEndian_getvch {bn : Int} (nonneg : 0 ≤ bn) :
    ofBigEndian ((getvch bn).reverse.map UInt8.toNat) = bn.natAbs := by
  have bytes : ((bigEndian (mpiSize bn.natAbs) bn.natAbs).map UInt8.ofNat).map UInt8.toNat =
      bigEndian (mpiSize bn.natAbs) bn.natAbs := by
    rw [List.map_map]
    refine (List.map_congr_left ?_).trans (List.map_id _)
    intro byte member
    obtain ⟨i, -, rfl⟩ := List.mem_map.mp member
    simp [UInt8.toNat_ofNat']
  rw [getvch, List.reverse_reverse, bn2mpi_nonneg nonneg, bytes, ofBigEndian_bigEndian]
  apply Nat.mod_eq_of_lt
  rcases Nat.eq_zero_or_pos bn.natAbs with zero | positive
  · simp [zero]
  · have := two_mul_lt_pow_mpiSize (n := bn.natAbs) (by omega)
    omega

@[simp] theorem getvch_length (bn : Int) : (getvch bn).length = mpiSize bn.natAbs := by
  have size : (bn2mpi bn).length = mpiSize bn.natAbs := by
    have := bigEndian_length (mpiSize bn.natAbs) bn.natAbs
    unfold bn2mpi
    split <;> simp_all
  simp [getvch, size]

theorem ofBigEndian_lt {bytes : List Nat} (small : ∀ byte ∈ bytes, byte < 256) :
    ofBigEndian bytes < 256 ^ bytes.length := by
  induction bytes with
  | nil => simp [ofBigEndian]
  | cons byte rest ih =>
      obtain ⟨first, others⟩ := List.forall_mem_cons.mp small
      have below := ih others
      rw [ofBigEndian_cons, List.length_cons, pow_succ]
      calc byte * 256 ^ rest.length + ofBigEndian rest
          < byte * 256 ^ rest.length + 256 ^ rest.length := by omega
        _ = (byte + 1) * 256 ^ rest.length := by ring
        _ ≤ 256 * 256 ^ rest.length := Nat.mul_le_mul_right _ first
        _ = 256 ^ rest.length * 256 := Nat.mul_comm _ _

/-- The magnitude of a script number is bounded by its length. -/
theorem natAbs_setvch_lt (vch : Bytes) : (setvch vch).natAbs < 256 ^ vch.length := by
  have bytes : ∀ byte ∈ vch.reverse.map UInt8.toNat, byte < 256 := by
    intro byte member
    obtain ⟨raw, -, rfl⟩ := List.mem_map.mp member
    exact raw.toNat_lt
  have length : (vch.reverse.map UInt8.toNat).length = vch.length := by simp
  rw [setvch, ← length]
  cases shape : vch.reverse.map UInt8.toNat with
  | nil => simp [mpi2bn]
  | cons first rest =>
      obtain ⟨low, others⟩ := List.forall_mem_cons.mp (shape ▸ bytes)
      rw [mpi2bn]
      split
      · rw [Int.natAbs_neg, Int.natAbs_natCast]
        have below := @ofBigEndian_lt ((first - 128) :: rest) (List.forall_mem_cons.mpr ⟨by omega, others⟩)
        rwa [List.length_cons] at below ⊢
      · rw [Int.natAbs_natCast]
        exact ofBigEndian_lt (List.forall_mem_cons.mpr ⟨low, others⟩)

end CBigNum

end InfiniteRicks
