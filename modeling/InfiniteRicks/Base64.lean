import InfiniteRicks.Base58

/-!
# Base 64 and base 32

`EncodeBase64`, `DecodeBase64`, `EncodeBase32` and `DecodeBase32` (`util.cpp`). Each is a machine
that keeps a mode and some bits that are left. A decoder reads to the first character outside its
alphabet and then looks whether the padding is right.
-/

namespace InfiniteRicks

open Base58 (cString)

/-- The variables of an encoder. -/
structure EncodeState where
  mode : Nat
  left : Nat
  strRet : Bytes

/-- The variables of a decoder. -/
structure DecodeState where
  mode : Nat
  left : Nat
  vchRet : Bytes

/-- `vchRet.push_back`. -/
def DecodeState.push (s : DecodeState) (value : Nat) : Bytes := s.vchRet ++ [UInt8.ofNat value]

/-- `pbase64`. -/
def pbase64 : Bytes :=
  text ['A', 'B', 'C', 'D', 'E', 'F', 'G', 'H', 'I', 'J', 'K', 'L', 'M', 'N', 'O', 'P', 'Q', 'R', 'S', 'T', 'U', 'V', 'W', 'X',
    'Y', 'Z', 'a', 'b', 'c', 'd', 'e', 'f', 'g', 'h', 'i', 'j', 'k', 'l', 'm', 'n', 'o', 'p', 'q', 'r', 's', 't', 'u', 'v', 'w',
    'x', 'y', 'z', '0', '1', '2', '3', '4', '5', '6', '7', '8', '9', '+', '/']

/-- `pbase64[d]`. -/
def char64 (d : Nat) : UInt8 := pbase64.getD d 0

/-- One byte in `EncodeBase64`. -/
def encodeBase64Step (s : EncodeState) (enc : Nat) : EncodeState :=
  match s.mode with
  | 0 => ⟨1, (enc &&& 3) <<< 4, s.strRet ++ [char64 (enc >>> 2)]⟩
  | 1 => ⟨2, (enc &&& 15) <<< 2, s.strRet ++ [char64 (s.left ||| enc >>> 4)]⟩
  | 2 => ⟨0, s.left, s.strRet ++ [char64 (s.left ||| enc >>> 6), char64 (enc &&& 63)]⟩
  | _ => s

/-- `EncodeBase64`. -/
def encodeBase64 (bytes : Bytes) : Bytes :=
  let s := bytes.foldl (fun s c => encodeBase64Step s c.toNat) ⟨0, 0, []⟩
  if s.mode = 0 then s.strRet
  else s.strRet ++ [char64 s.left, 61] ++ if s.mode = 1 then [61] else []

/-- `decode64_table`. -/
def decode64_table : List Int :=
  [
    -1, -1, -1, -1, -1, -1, -1, -1, -1, -1, -1, -1, -1, -1, -1, -1, -1, -1, -1, -1,
    -1, -1, -1, -1, -1, -1, -1, -1, -1, -1, -1, -1, -1, -1, -1, -1, -1, -1, -1, -1,
    -1, -1, -1, 62, -1, -1, -1, 63, 52, 53, 54, 55, 56, 57, 58, 59, 60, 61, -1, -1,
    -1, -1, -1, -1, -1, 0, 1, 2, 3, 4, 5, 6, 7, 8, 9, 10, 11, 12, 13, 14,
    15, 16, 17, 18, 19, 20, 21, 22, 23, 24, 25, -1, -1, -1, -1, -1, -1, 26, 27, 28,
    29, 30, 31, 32, 33, 34, 35, 36, 37, 38, 39, 40, 41, 42, 43, 44, 45, 46, 47, 48,
    49, 50, 51, -1, -1, -1, -1, -1, -1, -1, -1, -1, -1, -1, -1, -1, -1, -1, -1, -1,
    -1, -1, -1, -1, -1, -1, -1, -1, -1, -1, -1, -1, -1, -1, -1, -1, -1, -1, -1, -1,
    -1, -1, -1, -1, -1, -1, -1, -1, -1, -1, -1, -1, -1, -1, -1, -1, -1, -1, -1, -1,
    -1, -1, -1, -1, -1, -1, -1, -1, -1, -1, -1, -1, -1, -1, -1, -1, -1, -1, -1, -1,
    -1, -1, -1, -1, -1, -1, -1, -1, -1, -1, -1, -1, -1, -1, -1, -1, -1, -1, -1, -1,
    -1, -1, -1, -1, -1, -1, -1, -1, -1, -1, -1, -1, -1, -1, -1, -1, -1, -1, -1, -1,
    -1, -1, -1, -1, -1, -1, -1, -1, -1, -1, -1, -1, -1, -1, -1, -1
  ]

/-- `decode64_table[(unsigned char)c]`; none for -1. -/
def digit64 (c : UInt8) : Option Nat :=
  if decode64_table.getD c.toNat (-1) = -1 then none else some (decode64_table.getD c.toNat (-1)).toNat

/-- One character in `DecodeBase64`. -/
def decodeBase64Step (s : DecodeState) (dec : Nat) : DecodeState :=
  match s.mode with
  | 0 => ⟨1, dec, s.vchRet⟩
  | 1 => ⟨2, dec &&& 15, s.push (s.left <<< 2 ||| dec >>> 4)⟩
  | 2 => ⟨3, dec &&& 3, s.push (s.left <<< 4 ||| dec >>> 2)⟩
  | 3 => ⟨0, s.left, s.push (s.left <<< 6 ||| dec)⟩
  | _ => s

/-- The loop of a decoder, and where it stops. -/
def decodeLoop (digit : UInt8 → Option Nat) (step : DecodeState → Nat → DecodeState) :
    Bytes → DecodeState → DecodeState × Bytes
  | [], s => (s, [])
  | c :: p, s =>
      match digit c with
      | none => (s, c :: p)
      | some dec => decodeLoop digit step p (step s dec)

/-- Bits are left, or the padding is not `count` equals signs and then a character outside the alphabet. -/
def wrongPadding (digit : UInt8 → Option Nat) (count left : Nat) (p : Bytes) : Bool :=
  left ≠ 0 || !(p.take count = List.replicate count 61) || (digit (p.getD count 0)).isSome

/-- `DecodeBase64`, with `*pfInvalid`. -/
def decodeBase64 (str : Bytes) : Bytes × Bool :=
  let (s, p) := decodeLoop digit64 decodeBase64Step (cString str) ⟨0, 0, []⟩
  let pfInvalid := match s.mode with
    | 1 => true
    | 2 => wrongPadding digit64 2 s.left p
    | 3 => wrongPadding digit64 1 s.left p
    | _ => false
  (s.vchRet, pfInvalid)

/-- `pbase32`. -/
def pbase32 : Bytes :=
  text ['a', 'b', 'c', 'd', 'e', 'f', 'g', 'h', 'i', 'j', 'k', 'l', 'm', 'n', 'o', 'p', 'q', 'r', 's', 't', 'u', 'v', 'w', 'x',
    'y', 'z', '2', '3', '4', '5', '6', '7']

/-- `pbase32[d]`. -/
def char32 (d : Nat) : UInt8 := pbase32.getD d 0

/-- One byte in `EncodeBase32`. -/
def encodeBase32Step (s : EncodeState) (enc : Nat) : EncodeState :=
  match s.mode with
  | 0 => ⟨1, (enc &&& 7) <<< 2, s.strRet ++ [char32 (enc >>> 3)]⟩
  | 1 => ⟨2, (enc &&& 1) <<< 4, s.strRet ++ [char32 (s.left ||| enc >>> 6), char32 (enc >>> 1 &&& 31)]⟩
  | 2 => ⟨3, (enc &&& 15) <<< 1, s.strRet ++ [char32 (s.left ||| enc >>> 4)]⟩
  | 3 => ⟨4, (enc &&& 3) <<< 3, s.strRet ++ [char32 (s.left ||| enc >>> 7), char32 (enc >>> 2 &&& 31)]⟩
  | 4 => ⟨0, s.left, s.strRet ++ [char32 (s.left ||| enc >>> 5), char32 (enc &&& 31)]⟩
  | _ => s

/-- `nPadding`. -/
def nPadding : List Nat := [0, 6, 4, 3, 1]

/-- `EncodeBase32`. -/
def encodeBase32 (bytes : Bytes) : Bytes :=
  let s := bytes.foldl (fun s c => encodeBase32Step s c.toNat) ⟨0, 0, []⟩
  if s.mode = 0 then s.strRet
  else s.strRet ++ [char32 s.left] ++ List.replicate (nPadding.getD s.mode 0) 61

/-- `decode32_table`. -/
def decode32_table : List Int :=
  [
    -1, -1, -1, -1, -1, -1, -1, -1, -1, -1, -1, -1, -1, -1, -1, -1, -1, -1, -1, -1,
    -1, -1, -1, -1, -1, -1, -1, -1, -1, -1, -1, -1, -1, -1, -1, -1, -1, -1, -1, -1,
    -1, -1, -1, -1, -1, -1, -1, -1, -1, -1, 26, 27, 28, 29, 30, 31, -1, -1, -1, -1,
    -1, -1, -1, -1, -1, 0, 1, 2, 3, 4, 5, 6, 7, 8, 9, 10, 11, 12, 13, 14,
    15, 16, 17, 18, 19, 20, 21, 22, 23, 24, 25, -1, -1, -1, -1, -1, -1, 0, 1, 2,
    3, 4, 5, 6, 7, 8, 9, 10, 11, 12, 13, 14, 15, 16, 17, 18, 19, 20, 21, 22,
    23, 24, 25, -1, -1, -1, -1, -1, -1, -1, -1, -1, -1, -1, -1, -1, -1, -1, -1, -1,
    -1, -1, -1, -1, -1, -1, -1, -1, -1, -1, -1, -1, -1, -1, -1, -1, -1, -1, -1, -1,
    -1, -1, -1, -1, -1, -1, -1, -1, -1, -1, -1, -1, -1, -1, -1, -1, -1, -1, -1, -1,
    -1, -1, -1, -1, -1, -1, -1, -1, -1, -1, -1, -1, -1, -1, -1, -1, -1, -1, -1, -1,
    -1, -1, -1, -1, -1, -1, -1, -1, -1, -1, -1, -1, -1, -1, -1, -1, -1, -1, -1, -1,
    -1, -1, -1, -1, -1, -1, -1, -1, -1, -1, -1, -1, -1, -1, -1, -1, -1, -1, -1, -1,
    -1, -1, -1, -1, -1, -1, -1, -1, -1, -1, -1, -1, -1, -1, -1, -1
  ]

/-- `decode32_table[(unsigned char)c]`; none for -1. -/
def digit32 (c : UInt8) : Option Nat :=
  if decode32_table.getD c.toNat (-1) = -1 then none else some (decode32_table.getD c.toNat (-1)).toNat

/-- One character in `DecodeBase32`. -/
def decodeBase32Step (s : DecodeState) (dec : Nat) : DecodeState :=
  match s.mode with
  | 0 => ⟨1, dec, s.vchRet⟩
  | 1 => ⟨2, dec &&& 3, s.push (s.left <<< 3 ||| dec >>> 2)⟩
  | 2 => ⟨3, s.left <<< 5 ||| dec, s.vchRet⟩
  | 3 => ⟨4, dec &&& 15, s.push (s.left <<< 1 ||| dec >>> 4)⟩
  | 4 => ⟨5, dec &&& 1, s.push (s.left <<< 4 ||| dec >>> 1)⟩
  | 5 => ⟨6, s.left <<< 5 ||| dec, s.vchRet⟩
  | 6 => ⟨7, dec &&& 7, s.push (s.left <<< 2 ||| dec >>> 3)⟩
  | 7 => ⟨0, s.left, s.push (s.left <<< 5 ||| dec)⟩
  | _ => s

/-- `DecodeBase32`, with `*pfInvalid`. -/
def decodeBase32 (str : Bytes) : Bytes × Bool :=
  let (s, p) := decodeLoop digit32 decodeBase32Step (cString str) ⟨0, 0, []⟩
  let pfInvalid := match s.mode with
    | 1 | 3 | 6 => true
    | 2 => wrongPadding digit32 6 s.left p
    | 4 => wrongPadding digit32 4 s.left p
    | 5 => wrongPadding digit32 3 s.left p
    | 7 => wrongPadding digit32 1 s.left p
    | _ => false
  (s.vchRet, pfInvalid)

end InfiniteRicks
