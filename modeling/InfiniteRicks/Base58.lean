import InfiniteRicks.Library.Numerals
import InfiniteRicks.WalletCoins
import InfiniteRicks.WalletRecord
import Mathlib.Data.List.TakeWhile

/-!
# Base 58

`EncodeBase58`, `DecodeBase58`, the layer with a checksum, and `CBitcoinAddress`
(`base58.h`). The conversions of OpenSSL between numbers and bytes are those of `CBigNum`. A
`std::string` is its bytes, and what takes one reads it as a C string.
-/

namespace InfiniteRicks

namespace Base58

open Library.Numerals

/-- `pszBase58`. -/
def pszBase58 : Bytes :=
  text ['1', '2', '3', '4', '5', '6', '7', '8', '9',
    'A', 'B', 'C', 'D', 'E', 'F', 'G', 'H', 'J', 'K', 'L', 'M', 'N', 'P', 'Q', 'R', 'S', 'T', 'U', 'V', 'W', 'X', 'Y', 'Z',
    'a', 'b', 'c', 'd', 'e', 'f', 'g', 'h', 'i', 'j', 'k', 'm', 'n', 'o', 'p', 'q', 'r', 's', 't', 'u', 'v', 'w', 'x', 'y', 'z']

/-- `pszBase58[c]`. -/
def charOf (c : Nat) : UInt8 := pszBase58.getD c 0

/-- The division loop of `EncodeBase58`. -/
def divisions (bn : Int) : Bytes :=
  if 0 < bn then charOf (bn % 58).toNat :: divisions (bn / 58) else []
termination_by bn.toNat
decreasing_by omega

/-- `EncodeBase58`. The extra zero keeps the number positive. -/
def encodeBase58 (vch : Bytes) : Bytes :=
  let vchTmp := vch.reverse ++ [0]
  let str := divisions (CBigNum.setvch vchTmp)
  (str ++ (vch.takeWhile fun c => decide (c = 0)).map fun _ => charOf 0).reverse

/-- `c_str` up to the terminating zero. -/
def cString (str : Bytes) : Bytes := str.takeWhile fun c => decide (c ≠ 0)

/-- The multiplication loop of `DecodeBase58`. After a character outside the alphabet only space may follow. -/
def readChars : Bytes → Int → Option Int
  | [], bn => some bn
  | c :: rest, bn =>
      match pszBase58.idxOf? c with
      | none => if ((c :: rest).dropWhile isSpace).isEmpty then some bn else none
      | some digit => readChars rest (bn * 58 + digit)

/-- Trim off the sign byte. -/
def trimSign (vchTmp : Bytes) : Bytes :=
  if 2 ≤ vchTmp.length ∧ vchTmp.getD (vchTmp.length - 1) 0 = 0 ∧ 0x80 ≤ vchTmp.getD (vchTmp.length - 2) 0 then
    vchTmp.dropLast
  else vchTmp

/-- `DecodeBase58`. Where it returns false the vector is empty. -/
def decodeBase58 (str : Bytes) : Option Bytes :=
  let psz := (cString str).dropWhile isSpace
  (readChars psz 0).map fun bn =>
    let vchTmp := trimSign (CBigNum.getvch bn)
    List.replicate (psz.takeWhile fun c => decide (c = charOf 0)).length 0 ++ vchTmp.reverse

section Checksum

variable (hash : Bytes → UInt256)

/-- The first four bytes of `Hash`. -/
def checksum (vch : Bytes) : Bytes := (littleEndianBytes 32 (hash vch).toNat).take 4

/-- `EncodeBase58Check`. -/
def encodeBase58Check (vchIn : Bytes) : Bytes := encodeBase58 (vchIn ++ checksum hash vchIn)

/-- `DecodeBase58Check`. Where it returns false the vector is empty. -/
def decodeBase58Check (str : Bytes) : Option Bytes :=
  (decodeBase58 str).bind fun vchRet =>
    if vchRet.length < 4 then none
    else if checksum hash (vchRet.take (vchRet.length - 4)) = vchRet.drop (vchRet.length - 4) then
      some (vchRet.take (vchRet.length - 4))
    else none

end Checksum

end Base58

open Base58

/-- `CBase58Data`. -/
structure CBase58Data where
  nVersion : UInt8
  vchData : Bytes
deriving DecidableEq

namespace CBase58Data

/-- `CBase58Data()`. -/
def new : CBase58Data := ⟨0, []⟩

/-- `SetString`. -/
def setString (hash : Bytes → UInt256) (str : Bytes) : Bool × CBase58Data :=
  match (decodeBase58Check hash str).getD [] with
  | [] => (false, new)
  | nVersion :: vchData => (true, ⟨nVersion, vchData⟩)

/-- `ToString`. -/
def toText (hash : Bytes → UInt256) (data : CBase58Data) : Bytes :=
  encodeBase58Check hash (data.nVersion :: data.vchData)

end CBase58Data

namespace CBitcoinAddress

def pubkeyAddress : UInt8 := 0
def scriptAddress : UInt8 := 85
def pubkeyAddressTest : UInt8 := 111
def scriptAddressTest : UInt8 := 196

/-- `Set`, with the object it is called on. -/
def set (fTestNet : Bool) (address : CBase58Data) : CTxDestination → Bool × CBase58Data
  | .keyID id => (true, ⟨if fTestNet then pubkeyAddressTest else pubkeyAddress, littleEndianBytes 20 id.toNat⟩)
  | .scriptID id => (true, ⟨if fTestNet then scriptAddressTest else scriptAddress, littleEndianBytes 20 id.toNat⟩)
  | .none => (false, address)

/-- `IsValid`. -/
def isValid (fTestNet : Bool) (address : CBase58Data) : Bool :=
  if address.nVersion = pubkeyAddress ∨ address.nVersion = scriptAddress then
    !fTestNet && decide (address.vchData.length = 20)
  else if address.nVersion = pubkeyAddressTest ∨ address.nVersion = scriptAddressTest then
    fTestNet && decide (address.vchData.length = 20)
  else false

/-- The `uint160` in the data. -/
def dataID (address : CBase58Data) : BitVec 160 := BitVec.ofNat 160 (CScript.littleEndian (address.vchData.take 20))

/-- `Get`. -/
def get (fTestNet : Bool) (address : CBase58Data) : CTxDestination :=
  if isValid fTestNet address = false then .none
  else if address.nVersion = pubkeyAddress ∨ address.nVersion = pubkeyAddressTest then .keyID (dataID address)
  else .scriptID (dataID address)

end CBitcoinAddress

namespace Base58

open Library.Numerals

/-! ## The alphabet -/

theorem idxOf_charOf {d : Nat} (digit : d < 58) : pszBase58.idxOf? (charOf d) = some d := by
  have all : ∀ d : Fin 58, pszBase58.idxOf? (charOf d.1) = some d.1 := by decide
  exact all ⟨d, digit⟩

theorem isSpace_charOf {d : Nat} (digit : d < 58) : isSpace (charOf d) = false ∧ charOf d ≠ 0 := by
  have all : ∀ d : Fin 58, isSpace (charOf d.1) = false ∧ charOf d.1 ≠ 0 := by decide
  exact all ⟨d, digit⟩

theorem charOf_eq_charOf_zero {d : Nat} (digit : d < 58) : charOf d = charOf 0 ↔ d = 0 := by
  have all : ∀ d : Fin 58, charOf d.1 = charOf 0 ↔ d.1 = 0 := by decide
  exact all ⟨d, digit⟩

/-- What `strchr` finds in the alphabet. -/
theorem charOf_of_idxOf {c : UInt8} {d : Nat} (found : pszBase58.idxOf? c = some d) : d < 58 ∧ charOf d = c := by
  obtain ⟨inside, same, -⟩ := List.idxOf?_eq_some_iff.mp found
  refine ⟨inside, ?_⟩
  rw [charOf, List.getD_eq_getElem _ _ inside]
  exact same

/-! ## Encoding -/

theorem divisions_eq (n : Nat) : divisions (n : Int) = (Nat.digits 58 n).map charOf := by
  induction n using Nat.strong_induction_on with
  | _ n ih =>
      rw [divisions]
      by_cases positive : 0 < n
      · rw [if_pos (by omega), Nat.digits_def' (by omega) positive, List.map_cons]
        have smaller := ih (n / 58) (by omega)
        have rest : (n : Int) / 58 = ((n / 58 : Nat) : Int) := by omega
        have first : ((n : Int) % 58).toNat = n % 58 := by omega
        rw [rest, smaller, first]
      · obtain rfl : n = 0 := by omega
        rfl

/-- The number that the bytes of a vector are read as. -/
theorem setvch_positive (vch : Bytes) :
    CBigNum.setvch (vch.reverse ++ [0]) = ((value 256 (vch.map UInt8.toNat) : Nat) : Int) := by
  have bytes : (vch.reverse ++ [0]).reverse.map UInt8.toNat = 0 :: vch.map UInt8.toNat := by
    rw [List.reverse_append, List.reverse_singleton, List.reverse_reverse, List.singleton_append, List.map_cons]
    rfl
  rw [CBigNum.setvch, bytes, CBigNum.mpi2bn, if_neg (by omega), CBigNum.ofBigEndian, List.foldl_cons]
  rfl

theorem takeWhile_zero (vch : Bytes) :
    (vch.takeWhile fun c => decide (c = 0)).length = leadingZeros (vch.map UInt8.toNat) := by
  have same : (fun d => decide (d = 0)) ∘ UInt8.toNat = fun c => decide (c = 0) := by
    funext c
    exact decide_eq_decide.mpr (by rw [← UInt8.toNat_inj]; rfl)
  rw [leadingZeros, List.takeWhile_map, List.length_map, same]

/-- `EncodeBase58` keeps the number of leading zeros and the value. -/
theorem encodeBase58_eq (vch : Bytes) :
    encodeBase58 vch =
      (numeral 58 (leadingZeros (vch.map UInt8.toNat)) (value 256 (vch.map UInt8.toNat))).map charOf := by
  rw [encodeBase58, setvch_positive, divisions_eq, List.reverse_append, List.map_const', List.reverse_replicate, takeWhile_zero, numeral,
    List.map_append, List.map_replicate, List.map_reverse]

/-! ## Decoding -/

theorem readChars_digits {digits : List Nat} (small : ∀ d ∈ digits, d < 58) (n : Nat) :
    readChars (digits.map charOf) n = some ((digits.foldl (fun n d => n * 58 + d) n : Nat) : Int) := by
  induction digits generalizing n with
  | nil => rfl
  | cons d rest ih =>
      obtain ⟨first, others⟩ := List.forall_mem_cons.mp small
      rw [List.map_cons, readChars, idxOf_charOf first]
      dsimp only
      have next := ih others (n * 58 + d)
      rw [Nat.cast_add, Nat.cast_mul] at next
      exact next

/-- The bytes of the MPI form of a number: there is a zero at the top only where the byte below it takes the bit of
the sign. -/
theorem getvch_eq (n : Nat) :
    ∃ zeros, CBigNum.getvch n = (Nat.digits 256 n ++ List.replicate zeros 0).map UInt8.ofNat ∧
      (zeros = 0 ∨ zeros = 1 ∧ ∃ lower top, Nat.digits 256 n = lower ++ [top] ∧ 128 ≤ top) := by
  have size : (CBigNum.bigEndian (CBigNum.mpiSize n) n).length = CBigNum.mpiSize n := CBigNum.bigEndian_length _ _
  have fits : n < 256 ^ CBigNum.mpiSize n := by
    rcases Nat.eq_zero_or_pos n with rfl | positive
    · exact Nat.pow_pos (by omega)
    · have := CBigNum.two_mul_lt_pow_mpiSize (n := n) (by omega)
      omega
  have small : ∀ d ∈ CBigNum.bigEndian (CBigNum.mpiSize n) n, d < 256 := by
    intro d member
    obtain ⟨i, -, rfl⟩ := List.mem_map.mp member
    exact Nat.mod_lt _ (by omega)
  have sum : value 256 (CBigNum.bigEndian (CBigNum.mpiSize n) n) = n :=
    (CBigNum.ofBigEndian_bigEndian _ n).trans (Nat.mod_eq_of_lt fits)
  have shape := numeral_eq (by omega) small
  rw [sum] at shape
  generalize leadingZeros (CBigNum.bigEndian (CBigNum.mpiSize n) n) = zeros at shape
  refine ⟨zeros, ?_, ?_⟩
  · rw [CBigNum.getvch, CBigNum.bn2mpi_nonneg (Int.natCast_nonneg n), Int.natAbs_natCast, ← shape, numeral, ← List.map_reverse,
      List.reverse_append, List.reverse_reverse, List.reverse_replicate]
  · rcases Nat.eq_zero_or_pos n with rfl | positive
    · left
      have length := congrArg List.length shape
      rw [size, numeral, Nat.digits_zero, List.length_append, List.length_replicate] at length
      exact length
    · have length := congrArg List.length shape
      rw [size, numeral, List.length_append, List.length_replicate, List.length_reverse] at length
      have short := CBigNum.pow_mpiSize_le_two_mul (n := n) (by omega)
      obtain ⟨lower, top, digits⟩ : ∃ lower top, Nat.digits 256 n = lower ++ [top] := by
        rcases List.eq_nil_or_concat (Nat.digits 256 n) with none | ⟨lower, top, digits⟩
        · exact absurd (Nat.digits_eq_nil_iff_eq_zero.mp none) (by omega)
        · exact ⟨lower, top, digits.trans (List.concat_eq_append ..)⟩
      have below : n < 256 ^ lower.length * (top + 1) := by
        have digit : ∀ d ∈ lower, d < 256 := fun d member =>
          Nat.digits_lt_base (by omega) (digits ▸ List.mem_append_left _ member)
        have rest := Nat.ofDigits_lt_base_pow_length (b := 256) (by omega) digit
        have whole := Nat.ofDigits_digits 256 n
        rw [digits, Nat.ofDigits_append, Nat.ofDigits_singleton] at whole
        rw [Nat.mul_succ]
        omega
      rw [digits, List.length_append, List.length_singleton] at length
      have bound : 256 ^ (zeros + lower.length) < 256 ^ lower.length * (2 * (top + 1)) := by
        rw [← length, show zeros + (lower.length + 1) - 1 = zeros + lower.length by omega] at short
        calc 256 ^ (zeros + lower.length) ≤ 2 * n := short
          _ < 2 * (256 ^ lower.length * (top + 1)) := by omega
          _ = 256 ^ lower.length * (2 * (top + 1)) := by ring
      rw [Nat.add_comm, pow_add] at bound
      have ratio := Nat.lt_of_mul_lt_mul_left bound
      have digit : top < 256 := Nat.digits_lt_base (b := 256) (m := n) (by omega) (by rw [digits]; simp)
      rcases zeros with _ | _ | zeros
      · exact .inl rfl
      · refine .inr ⟨rfl, lower, top, digits, ?_⟩
        omega
      · have large : 256 ^ 2 ≤ 256 ^ (zeros + 1 + 1) := Nat.pow_le_pow_right (by omega) (by omega)
        omega

theorem getD_concat (bytes : Bytes) (c : UInt8) : (bytes ++ [c]).getD ((bytes ++ [c]).length - 1) 0 = c := by
  rw [List.length_append, List.length_singleton, Nat.add_sub_cancel, List.getD_append_right _ _ _ _ le_rfl, Nat.sub_self]
  rfl

/-- Without the sign byte these are the digits of the number. -/
theorem trimSign_getvch (n : Nat) : trimSign (CBigNum.getvch n) = (Nat.digits 256 n).map UInt8.ofNat := by
  have digit : ∀ {d}, d ∈ Nat.digits 256 n → (UInt8.ofNat d).toNat = d := fun member =>
    UInt8.toNat_ofNat_of_lt (Nat.digits_lt_base (b := 256) (by omega) member)
  obtain ⟨zeros, bytes, rfl | ⟨rfl, lower, top, digits, high⟩⟩ := getvch_eq n
  · rw [bytes, List.replicate_zero, List.append_nil, trimSign, if_neg]
    rintro ⟨long, last, -⟩
    rcases List.eq_nil_or_concat (Nat.digits 256 n) with none | ⟨lower, top, digits⟩
    · rw [none] at long
      cases long
    · rw [List.concat_eq_append] at digits
      have member : top ∈ Nat.digits 256 n := digits ▸ List.mem_append_right _ List.mem_cons_self
      rw [digits, List.map_append, List.map_singleton, getD_concat] at last
      have nonzero := Nat.getLast_digit_ne_zero 256 (m := n) (by
        rintro rfl
        rw [Nat.digits_zero] at member
        cases member)
      refine nonzero ?_
      have zero : top = 0 := (digit member).symm.trans (congrArg UInt8.toNat last)
      simp only [digits, zero, List.getLast_append_singleton]
  · have member : top ∈ Nat.digits 256 n := digits ▸ List.mem_append_right _ List.mem_cons_self
    have shape : CBigNum.getvch n = (Nat.digits 256 n).map UInt8.ofNat ++ [0] := by
      rw [bytes, List.map_append, List.replicate_one, List.map_singleton]
      rfl
    have below : ((Nat.digits 256 n).map UInt8.ofNat ++ [0]).getD (((Nat.digits 256 n).map UInt8.ofNat ++ [0]).length - 2) 0 =
        UInt8.ofNat top := by
      rw [digits, List.map_append, List.map_singleton, List.length_append, List.length_append, List.length_singleton,
        List.length_singleton, List.append_assoc, List.getD_append_right _ _ _ _ (by omega),
        show ∀ size, size + 1 + 1 - 2 - size = 0 by omega]
      rfl
    have large : 0x80 ≤ UInt8.ofNat top := by
      rw [UInt8.le_iff_toNat_le, digit member]
      exact high
    have long : 2 ≤ ((Nat.digits 256 n).map UInt8.ofNat ++ [0]).length := by
      rw [digits]
      simp
    rw [shape, trimSign, if_pos ⟨long, getD_concat _ _, below ▸ large⟩, List.dropLast_concat]

theorem cString_eq {str : Bytes} (whole : ∀ c ∈ str, c ≠ 0) : cString str = str :=
  List.takeWhile_eq_self_iff.mpr fun c member => decide_eq_true (whole c member)

theorem dropWhile_isSpace {str : Bytes} (start : ∀ c, str.head? = some c → isSpace c = false) :
    str.dropWhile isSpace = str := by
  cases str with
  | nil => rfl
  | cons c rest => rw [List.dropWhile_cons, if_neg (Bool.eq_false_iff.mp (start c rfl))]

/-- `DecodeBase58` keeps the number of leading zeros and the value. -/
theorem decodeBase58_eq {digits : List Nat} (small : ∀ d ∈ digits, d < 58) :
    decodeBase58 (digits.map charOf) = some ((numeral 256 (leadingZeros digits) (value 58 digits)).map UInt8.ofNat) := by
  have chars : ∀ c ∈ digits.map charOf, isSpace c = false ∧ c ≠ 0 := by
    intro c member
    obtain ⟨d, inside, rfl⟩ := List.mem_map.mp member
    exact isSpace_charOf (small d inside)
  have ones : ((digits.map charOf).takeWhile fun c => decide (c = charOf 0)).length = leadingZeros digits := by
    have same : ∀ d ∈ digits, decide (charOf d = charOf 0) = decide (d = 0) := fun d inside =>
      decide_eq_decide.mpr (charOf_eq_charOf_zero (small d inside))
    rw [leadingZeros, List.takeWhile_map, List.length_map]
    clear chars
    induction digits with
    | nil => rfl
    | cons d rest ih =>
        obtain ⟨first, others⟩ := List.forall_mem_cons.mp same
        rw [List.takeWhile_cons, List.takeWhile_cons, Function.comp_apply, first]
        split
        · exact congrArg Nat.succ (ih (fun e inside => small e (List.mem_cons_of_mem _ inside)) others)
        · rfl
  have start : (digits.map charOf).dropWhile isSpace = digits.map charOf := by
    refine dropWhile_isSpace fun c first => (chars c ?_).1
    exact List.mem_of_head? first
  have read : readChars (digits.map charOf) 0 = some ((value 58 digits : Nat) : Int) := readChars_digits small 0
  rw [decodeBase58, cString_eq fun c member => (chars c member).2, start, read, Option.map_some, ones,
    trimSign_getvch, numeral, List.map_append, List.map_replicate, List.map_reverse]
  rfl

theorem map_ofNat_toNat (vch : Bytes) : (vch.map UInt8.toNat).map UInt8.ofNat = vch := by
  rw [List.map_map]
  exact (List.map_congr_left fun c _ => UInt8.ofNat_toNat).trans (List.map_id _)

theorem toNat_lt (vch : Bytes) : ∀ d ∈ vch.map UInt8.toNat, d < 256 := by
  intro d member
  obtain ⟨c, -, rfl⟩ := List.mem_map.mp member
  exact c.toNat_lt

/-- What is encoded is decoded again. -/
theorem decodeBase58_encodeBase58 (vch : Bytes) : decodeBase58 (encodeBase58 vch) = some vch := by
  rw [encodeBase58_eq, decodeBase58_eq fun d => lt_of_mem_numeral (by omega), leadingZeros_numeral, value_numeral,
    numeral_eq (by omega) (toNat_lt vch), map_ofNat_toNat]

/-- A text without space at its end is read up to the end. -/
theorem digits_of_readChars {str : Bytes} {bn result : Int} (read : readChars str bn = some result)
    (last : ∀ c, str.getLast? = some c → isSpace c = false) :
    ∃ digits : List Nat, (∀ d ∈ digits, d < 58) ∧ str = digits.map charOf := by
  induction str generalizing bn with
  | nil => exact ⟨[], fun d member => (List.not_mem_nil member).elim, rfl⟩
  | cons c rest ih =>
      rw [readChars] at read
      cases found : pszBase58.idxOf? c with
      | none =>
          rw [found] at read
          dsimp only at read
          split at read
          · rename_i onlySpace
            have spaces := List.dropWhile_eq_nil_iff.mp (List.isEmpty_iff.mp onlySpace)
            have end_ := List.getLast?_eq_some_getLast (List.cons_ne_nil c rest)
            have space := spaces _ (List.getLast_mem (List.cons_ne_nil c rest))
            rw [last _ end_] at space
            cases space
          · cases read
      | some d =>
          rw [found] at read
          obtain ⟨digit, same⟩ := charOf_of_idxOf found
          obtain ⟨digits, small, rfl⟩ := ih read fun e isLast => last e (by
            rw [List.getLast?_cons, isLast]
            rfl)
          refine ⟨d :: digits, List.forall_mem_cons.mpr ⟨digit, small⟩, ?_⟩
          rw [List.map_cons, same]

/-- A text that is decoded is the one that encodes the result. -/
theorem encodeBase58_of_decodeBase58 {str vch : Bytes} (whole : ∀ c ∈ str, c ≠ 0)
    (start : ∀ c, str.head? = some c → isSpace c = false) (last : ∀ c, str.getLast? = some c → isSpace c = false)
    (decoded : decodeBase58 str = some vch) : encodeBase58 vch = str := by
  have read := decoded
  rw [decodeBase58, cString_eq whole, dropWhile_isSpace start] at read
  obtain ⟨bn, read, -⟩ := Option.map_eq_some_iff.mp read
  obtain ⟨digits, small, rfl⟩ := digits_of_readChars read last
  rw [decodeBase58_eq small] at decoded
  obtain rfl := Option.some.inj decoded
  have bytes : ((numeral 256 (leadingZeros digits) (value 58 digits)).map UInt8.ofNat).map UInt8.toNat =
      numeral 256 (leadingZeros digits) (value 58 digits) := by
    rw [List.map_map]
    exact (List.map_congr_left fun d member => UInt8.toNat_ofNat_of_lt (lt_of_mem_numeral (b := 256) (by omega) member)).trans
      (List.map_id _)
  rw [encodeBase58_eq, bytes, leadingZeros_numeral, value_numeral, numeral_eq (by omega) small]

/-! ## Addresses -/

theorem length_checksum (hash : Bytes → UInt256) (vch : Bytes) : (checksum hash vch).length = 4 := by
  rw [checksum, List.length_take, length_littleEndianBytes]
  rfl

theorem decodeBase58Check_encodeBase58Check (hash : Bytes → UInt256) (vch : Bytes) :
    decodeBase58Check hash (encodeBase58Check hash vch) = some vch := by
  have size : (vch ++ checksum hash vch).length - 4 = vch.length := by
    rw [List.length_append, length_checksum]
    omega
  rw [decodeBase58Check, encodeBase58Check, decodeBase58_encodeBase58, Option.bind_some, size, List.take_left, List.drop_left,
    if_neg (by rw [List.length_append, length_checksum]; omega), if_pos rfl]

end Base58

namespace CBase58Data

/-- What is printed is parsed again. -/
theorem setString_toText (hash : Bytes → UInt256) (data : CBase58Data) : setString hash (data.toText hash) = (true, data) := by
  rw [setString, toText, decodeBase58Check_encodeBase58Check, Option.getD_some]

end CBase58Data

namespace CBitcoinAddress

theorem dataID_bytes (nVersion : UInt8) (id : BitVec 160) :
    dataID ⟨nVersion, littleEndianBytes 20 id.toNat⟩ = id := by
  have fits : id.toNat < 256 ^ 20 := id.isLt
  rw [dataID, List.take_of_length_le (length_littleEndianBytes 20 _).le, littleEndian_littleEndianBytes fits,
    BitVec.ofNat_toNat, BitVec.setWidth_eq]

/-- The versions of a key id and of a script id, on either network, are told apart. -/
theorem get_set (fTestNet : Bool) (address : CBase58Data) {dest : CTxDestination} (real : dest ≠ .none) :
    get fTestNet (set fTestNet address dest).2 = dest := by
  cases dest with
  | none => exact absurd rfl real
  | keyID id =>
      cases fTestNet
      · exact congrArg CTxDestination.keyID (dataID_bytes pubkeyAddress id)
      · exact congrArg CTxDestination.keyID (dataID_bytes pubkeyAddressTest id)
  | scriptID id =>
      cases fTestNet
      · exact congrArg CTxDestination.scriptID (dataID_bytes scriptAddress id)
      · exact congrArg CTxDestination.scriptID (dataID_bytes scriptAddressTest id)

end CBitcoinAddress

namespace Base58

/-- Encoding can be undone on every vector, decoding on every text without a zero byte and without space around it,
and an address that is set, printed and parsed gives its destination back. -/
theorem base58_round_trip (hash : Bytes → UInt256) :
    (∀ vch, decodeBase58 (encodeBase58 vch) = some vch) ∧
      (∀ str vch, (∀ c ∈ str, c ≠ 0) → (∀ c, str.head? = some c → isSpace c = false) →
        (∀ c, str.getLast? = some c → isSpace c = false) → decodeBase58 str = some vch → encodeBase58 vch = str) ∧
      ∀ fTestNet address dest, dest ≠ .none →
        CBitcoinAddress.get fTestNet
          (CBase58Data.setString hash ((CBitcoinAddress.set fTestNet address dest).2.toText hash)).2 = dest := by
  refine ⟨decodeBase58_encodeBase58, fun str vch whole start last decoded =>
    encodeBase58_of_decodeBase58 whole start last decoded, fun fTestNet address dest real => ?_⟩
  rw [CBase58Data.setString_toText]
  exact CBitcoinAddress.get_set fTestNet address real

/-- The text `12` and the address of a key on the test network. -/
theorem base58_round_trip_sample :
    encodeBase58 [0, 1] = text ['1', '2'] ∧
      CBitcoinAddress.get true (CBase58Data.setString (fun _ => 0)
        ((CBitcoinAddress.set true .new (.keyID 7)).2.toText fun _ => 0)).2 = .keyID 7 := by
  obtain ⟨-, texts, addresses⟩ := base58_round_trip fun _ => 0
  refine ⟨texts _ _ (by decide +kernel) (by decide +kernel) (by decide +kernel) (by decide +kernel), addresses _ _ _ (fun same => ?_)⟩
  cases same

/-- A text is read as a C string: what follows a zero byte is lost. -/
theorem decodeBase58_stops_at_zero :
    ¬∀ str vch, (∀ c, str.head? = some c → isSpace c = false) → (∀ c, str.getLast? = some c → isSpace c = false) →
      decodeBase58 str = some vch → encodeBase58 vch = str := by
  intro claim
  have same := claim [50, 0, 50] [1] (by decide +kernel) (by decide +kernel) (by decide +kernel)
  have differs : encodeBase58 [1] ≠ [50, 0, 50] := by decide +kernel
  exact differs same

end Base58

end InfiniteRicks
