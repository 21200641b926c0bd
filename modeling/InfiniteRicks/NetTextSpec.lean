import InfiniteRicks.CreateToolSpec
import InfiniteRicks.NetText

/-!
# Which addresses come back from their texts

A printed address is a special name of ten bytes in base 32, or a numeric name of the system, in brackets
where it may have colons. The port is behind the last colon. A name of I2P is read with the prefix of
Tor, so all addresses but those of I2P come back.
-/

namespace InfiniteRicks

open Base58 (cString cString_eq)

/-- The characters of numeric names: hexadecimal digits, points and colons. -/
def isNumeric (c : UInt8) : Bool := isDigit c || (97 ≤ c && c ≤ 102) || (65 ≤ c && c ≤ 70) || c = 46 || c = 58

/-- Every address of the two families has a numeric name, and the name gives the address back. A name of the
first family has digits and points, and one of the second hexadecimal digits, colons and points. -/
structure Resolver.Numeric (resolver : Resolver) : Prop where
  inverse : ∀ addr, addr ≠ .other → ∃ name, resolver.getnameinfo addr = some name ∧ resolver.getaddrinfo name =
    some [addr]
  inet : ∀ addr size name, resolver.getnameinfo (.inet addr size) = some name → ∀ c ∈ name, isDigit c = true ∨ c = 46
  inet6 : ∀ addr size name, resolver.getnameinfo (.inet6 addr size) = some name → ∀ c ∈ name, isNumeric c = true

section Port

theorem takeWhile_isDigit_decimal (value : Nat) : (decimal value).takeWhile isDigit = decimal value :=
  List.takeWhile_eq_self_iff.mpr (digits_decimal value)

/-- The first character of a number is neither space nor a sign. -/
theorem decimal_head (value : Nat) : ∃ first rest, decimal value = first :: rest ∧ isSpace first = false ∧ first ≠ 45 ∧
    first ≠ 43 := by
  obtain ⟨first, rest, shape⟩ := List.exists_cons_of_ne_nil
    (show decimal value ≠ [] from fun nil => Nat.toDigits_ne_nil (List.map_eq_nil_iff.mp nil))
  obtain ⟨space, -, minus, plus, -⟩ := digit_not (digits_decimal value first (shape ▸ List.mem_cons_self))
  exact ⟨first, rest, shape, space, minus, plus⟩

theorem strtol_decimal {value : Nat} (small : value < 2 ^ 63) : strtol (decimal value) = (Int64.ofNat value, []) := by
  obtain ⟨first, rest, shape, space, minus, plus⟩ := decimal_head value
  have trimmed : (decimal value).dropWhile isSpace = decimal value := by
    rw [shape, List.dropWhile_cons, if_neg (by rw [space]; exact Bool.false_ne_true)]
  have sign : (decimal value).head? = some first := by rw [shape]; rfl
  have unsigned : (decide ((decimal value).head? = some 45) || decide ((decimal value).head? = some 43)) = false := by
    rw [sign]
    simp [minus, plus]
  have digits : ((decimal value).takeWhile isDigit).isEmpty = false := by
    rw [takeWhile_isDigit_decimal, shape]
    rfl
  have stopped : (decimal value).dropWhile isDigit = [] :=
    List.dropWhile_eq_nil_iff.mpr fun c member => digits_decimal value c member
  unfold strtol
  dsimp only
  rw [trimmed, unsigned, if_neg Bool.false_ne_true, digits, if_neg Bool.false_ne_true, sign,
    if_neg (by simpa using minus), stopped, readDigits_decimal, clampInt64_of_range (by omega)]
  rfl

/-- A text up to its last colon, and what is behind it. -/
theorem behind_colon (front : Bytes) (value : Nat) :
    ((front ++ 58 :: decimal value).reverse.takeWhile fun c => decide (c ≠ 58)).reverse = decimal value ∧
      (front ++ 58 :: decimal value).take ((front ++ 58 :: decimal value).length - (decimal value).length - 1) =
        front := by
  have digits : ∀ c ∈ (decimal value).reverse, decide (c ≠ 58) = true := by
    intro c member
    refine decide_eq_true ?_
    rintro rfl
    cases digits_decimal value 58 (List.mem_reverse.mp member)
  constructor
  · rw [List.reverse_append, List.reverse_cons, List.append_assoc, List.singleton_append,
      List.takeWhile_append_of_pos digits, List.takeWhile_cons_of_neg (by simp), List.append_nil, List.reverse_reverse]
  · have length : (front ++ 58 :: decimal value).length - (decimal value).length - 1 = front.length := by
      rw [List.length_append, List.length_cons]
      omega
    rw [length, List.take_left]

/-- A port as the `int` that `strtol` gives. -/
theorem port_toInt (port : UInt16) : (Int64.ofNat port.toNat).toInt32.toInt = port.toNat := by
  have small := port.toNat_lt
  rw [Int64.toInt_toInt32, Int64.toInt_ofNat_of_lt (by omega), Int.bmod_eq_of_le (by omega) (by omega)]

/-- A port behind a host that has no other colon, or is in brackets. -/
theorem splitHostPort_port {front : Bytes} {port : UInt16} (real : port ≠ 0) (portDefault : Int32)
    (separates : front.contains 58 = false ∨ front.head? = some 91 ∧ front.getLast? = some 93) :
    splitHostPort (front ++ 58 :: decimal port.toNat) portDefault =
      ((Int64.ofNat port.toNat).toInt32, unbracketed front) := by
  have small := port.toNat_lt
  have positive : 0 < port.toNat := Nat.pos_of_ne_zero fun zero => real (UInt16.toNat_inj.mp zero)
  have colon : (front ++ 58 :: decimal port.toNat).contains 58 = true := by simp
  obtain ⟨behind, before⟩ := behind_colon front port.toNat
  have whole : ∀ c ∈ decimal port.toNat, c ≠ 0 := by
    rintro c member rfl
    cases digits_decimal port.toNat 0 member
  have value := port_toInt port
  have taken : (front.isEmpty || (true && decide ((front ++ 58 :: decimal port.toNat).head? = some 91) &&
      decide (front.getLast? = some 93)) || !(true && (front.isEmpty || front.contains 58))) = true := by
    cases front with
    | nil => rfl
    | cons first rest =>
        rcases separates with alone | ⟨opened, closed⟩
        · rw [alone]
          simp
        · rw [List.cons_append, List.head?_cons, ← List.head?_cons, opened, closed]
          rfl
  unfold splitHostPort
  dsimp only
  rw [behind, before, colon, Bool.true_and, taken, if_pos rfl, cString_eq whole, strtol_decimal (by omega)]
  rw [if_pos (by
    rw [List.isEmpty_nil, Bool.true_and, decide_eq_true_eq, Int32.le_iff_toInt_le, value]
    exact Int.natCast_nonneg _)]
  rw [if_pos (by
    rw [Bool.and_eq_true, decide_eq_true_eq, decide_eq_true_eq, Int32.lt_iff_toInt_lt, Int32.lt_iff_toInt_lt, value]
    exact ⟨Int.ofNat_lt.mpr positive, Int.ofNat_lt.mpr small⟩)]

end Port

section Special

theorem withoutSuffix_append {name suffix : Bytes} (some_ : name ≠ []) :
    CNetAddr.withoutSuffix (name ++ suffix) suffix = some name := by
  have length : (name ++ suffix).length - suffix.length = name.length := by rw [List.length_append]; omega
  have longer : suffix.length < (name ++ suffix).length := by
    have positive := List.length_pos_iff.mpr some_
    rw [List.length_append]
    omega
  rw [CNetAddr.withoutSuffix, length, List.drop_left, List.take_left, decide_eq_true longer, decide_eq_true rfl]
  rfl

/-- A text that ends otherwise has no such suffix. -/
theorem withoutSuffix_of_drop {strName suffix : Bytes} {n : Nat} (length : strName.length - suffix.length = n)
    (other : strName.drop n ≠ suffix) : CNetAddr.withoutSuffix strName suffix = none := by
  rw [CNetAddr.withoutSuffix, length, decide_eq_false other, Bool.and_false]
  rfl

/-- The characters of a suffix are in a text that has it. -/
theorem withoutSuffix_of_notMem {strName suffix : Bytes} {c : UInt8} (member : c ∈ suffix) (absent : c ∉ strName) :
    CNetAddr.withoutSuffix strName suffix = none := by
  refine withoutSuffix_of_drop rfl fun same => absent ?_
  rw [← same] at member
  exact List.mem_of_mem_drop member

/-- The characters of base 32 are neither a terminator nor part of the punctuation of hosts. -/
theorem encodeBase32_chars (bytes : Bytes) : ∀ c ∈ encodeBase32 bytes, c ≠ 0 ∧ c ≠ 58 ∧ c ≠ 91 := by
  have alphabet : ∀ d < 2 ^ 5, char32 d ≠ 0 ∧ char32 d ≠ 58 ∧ char32 d ≠ 91 := by decide
  obtain ⟨digits, zeros, padded, -, shape⟩ := BaseText.encodeBase32_padded bytes
  intro c member
  rw [shape] at member
  rcases List.mem_append.mp member with digit | padding
  · obtain ⟨d, listed, rfl⟩ := List.mem_map.mp digit
    exact alphabet d (padded.digits d listed)
  · rw [List.eq_of_mem_replicate padding]
    decide

theorem decode_encodeBase32 (bytes : Bytes) : (decodeBase32 (encodeBase32 bytes)).1 = bytes :=
  congrArg Prod.fst (BaseText.base32_lawful.decode_encode bytes)

theorem encodeBase32_ne_nil {bytes : Bytes} (some_ : bytes ≠ []) : encodeBase32 bytes ≠ [] := by
  intro none
  have back := decode_encodeBase32 bytes
  rw [none] at back
  exact some_ back.symm

/-- Ten bytes in base 32 with the suffix of Tor. -/
theorem setSpecial_onion {bytes : Bytes} (size : (CNetAddr.pchOnionCat ++ bytes).length = 16) :
    CNetAddr.setSpecial (encodeBase32 bytes ++ CNetAddr.onionSuffix) =
      some (CNetAddr.ofPrefix CNetAddr.pchOnionCat bytes size) := by
  have some_ : bytes ≠ [] := by
    rintro rfl
    cases size
  have back := decode_encodeBase32 bytes
  unfold CNetAddr.setSpecial
  rw [withoutSuffix_append (encodeBase32_ne_nil some_)]
  dsimp only
  rw [dif_pos (by rw [back]; exact size)]
  simp only [CNetAddr.ofPrefix, back]

/-- The same with the suffix of I2P is an address of Tor too. -/
theorem setSpecial_garli {bytes : Bytes} (size : (CNetAddr.pchOnionCat ++ bytes).length = 16) :
    CNetAddr.setSpecial (encodeBase32 bytes ++ CNetAddr.garliSuffix) =
      some (CNetAddr.ofPrefix CNetAddr.pchOnionCat bytes size) := by
  have some_ : bytes ≠ [] := by
    rintro rfl
    cases size
  have back := decode_encodeBase32 bytes
  have other : CNetAddr.withoutSuffix (encodeBase32 bytes ++ CNetAddr.garliSuffix) CNetAddr.onionSuffix = none := by
    refine withoutSuffix_of_drop (n := (encodeBase32 bytes).length + 5) ?_ ?_
    · rw [List.length_append]
      rfl
    · rw [← List.drop_drop, List.drop_left]
      decide
  unfold CNetAddr.setSpecial
  rw [other, withoutSuffix_append (encodeBase32_ne_nil some_)]
  dsimp only
  rw [dif_pos (by rw [back]; exact size)]
  simp only [CNetAddr.ofPrefix, back]

/-- A numeric name is no special one. -/
theorem setSpecial_numeric {name : Bytes} (numeric : ∀ c ∈ name, isNumeric c = true) : CNetAddr.setSpecial name =
    none := by
  have absent : ∀ c : UInt8, isNumeric c = false → c ∉ name := by
    intro c other member
    rw [numeric c member] at other
    cases other
  unfold CNetAddr.setSpecial
  rw [withoutSuffix_of_notMem (c := 110) (by decide) (absent 110 (by decide)),
    withoutSuffix_of_notMem (c := 112) (by decide) (absent 112 (by decide))]

end Special

section Lookup

variable {resolver : Resolver} {service : CService}

/-- A host that is found, with a port behind it. -/
theorem lookupNumeric_port {front host : Bytes} {addr : CNetAddr} {port : UInt16} (real : port ≠ 0)
    (portDefault : Int32)
    (whole : ∀ c ∈ front, c ≠ 0)
    (separates : front.contains 58 = false ∨ front.head? = some 91 ∧ front.getLast? = some 93)
    (bare : unbracketed front = host) (found : resolver.lookupIntern host 1 = some [addr]) :
    resolver.lookupNumeric (front ++ 58 :: decimal port.toNat) portDefault = some { addr with port := port } := by
  have wholeText : ∀ c ∈ front ++ 58 :: decimal port.toNat, c ≠ 0 := by
    intro c member
    rcases List.mem_append.mp member with inside | behind
    · exact whole c inside
    · rcases List.mem_cons.mp behind with rfl | digit
      · decide
      · rintro rfl
        cases digits_decimal port.toNat 0 digit
  have filled : (front ++ 58 :: decimal port.toNat).isEmpty = false := by
    rw [List.isEmpty_eq_false_iff]
    exact List.append_ne_nil_of_right_ne_nil _ (List.cons_ne_nil _ _)
  unfold Resolver.lookupNumeric
  rw [cString_eq wholeText, filled, if_neg Bool.false_ne_true, splitHostPort_port real portDefault separates, bare]
  dsimp only
  have same : UInt16.ofInt (port.toNat : Int) = port := by
    have small := port.toNat_lt
    rw [UInt16.ofInt, Int.emod_eq_of_lt (Int.natCast_nonneg _) (by omega), Int.toNat_natCast, UInt16.ofNat_toNat]
  rw [found, port_toInt, same]

/-- A special name is found without the resolver. -/
theorem lookupIntern_special {host : Bytes} {addr : CNetAddr} (whole : ∀ c ∈ host, c ≠ 0)
    (special : CNetAddr.setSpecial host = some addr) (n : Nat) : resolver.lookupIntern host n = some [addr] := by
  rw [Resolver.lookupIntern, cString_eq whole, special]

/-- A numeric name is found by the resolver. -/
theorem lookupIntern_numeric {host : Bytes} {sockAddr : SockAddr} {addr : CNetAddr}
    (numeric : ∀ c ∈ host, isNumeric c = true) (read : resolver.getaddrinfo host = some [sockAddr])
    (kind : CNetAddr.ofSockAddr sockAddr = some addr) : resolver.lookupIntern host 1 = some [addr] := by
  have whole : ∀ c ∈ host, c ≠ 0 := by
    rintro c member rfl
    cases numeric 0 member
  rw [Resolver.lookupIntern, cString_eq whole, setSpecial_numeric numeric, read]
  simp [kind]

theorem ip_of_hasBytes {addr : CNetAddr} {pch : List UInt8} (starts : addr.hasBytes 0 pch = true) :
    addr.ip = pch ++ addr.ip.drop pch.length := by
  have front : addr.ip.take pch.length = pch := by simpa [CNetAddr.hasBytes] using starts
  conv_lhs => rw [← List.take_append_drop pch.length addr.ip, front]

/-- A host that does not start with a bracket stands for itself. -/
theorem unbracketed_plain {host : Bytes} (plain : 91 ∉ host) : unbracketed host = host := by
  refine if_neg fun both => plain ?_
  rw [Bool.and_eq_true, decide_eq_true_eq] at both
  exact List.mem_of_mem_head? both.1

theorem unbracketed_brackets (name : Bytes) : unbracketed (91 :: name ++ [93]) = name := by
  have length : (91 :: name ++ [93]).length - 2 = name.length := by simp
  rw [unbracketed, length, List.getLast?_concat, List.cons_append, List.head?_cons, if_pos (by decide),
    List.drop_one, List.tail_cons, List.take_left]

/-- The text of an address of Tor or I2P comes back as an address of Tor. -/
theorem lookupNumeric_special {suffix bytes : Bytes} {port : UInt16} (real : port ≠ 0) (portDefault : Int32)
    (plain : suffix.all (fun c => decide (c ≠ 0 ∧ c ≠ 58 ∧ c ≠ 91)) = true) {addr : CNetAddr}
    (special : CNetAddr.setSpecial (encodeBase32 bytes ++ suffix) = some addr) :
    resolver.lookupNumeric (encodeBase32 bytes ++ suffix ++ 58 :: decimal port.toNat) portDefault =
      some { addr with port := port } := by
  have characters : ∀ c ∈ encodeBase32 bytes ++ suffix, c ≠ 0 ∧ c ≠ 58 ∧ c ≠ 91 := by
    intro c member
    exact (List.mem_append.mp member).elim (encodeBase32_chars bytes c) fun inside =>
      of_decide_eq_true (List.all_eq_true.mp plain c inside)
  have whole : ∀ c ∈ encodeBase32 bytes ++ suffix, c ≠ 0 := fun c member => (characters c member).1
  refine lookupNumeric_port real portDefault whole (Or.inl ?_)
    (unbracketed_plain fun member => (characters 91 member).2.2 rfl) (lookupIntern_special whole special 1)
  rw [← Bool.not_eq_true, List.contains_iff_mem]
  exact fun member => (characters 58 member).2.1 rfl

/-- An address of Tor comes back. -/
theorem onion_round_trip (real : service.port ≠ 0) (tor : service.isTor = true) (portDefault : Int32) :
    resolver.lookupNumeric (service.toStringIPPort resolver) portDefault = some service := by
  have shape := ip_of_hasBytes tor
  have size : (CNetAddr.pchOnionCat ++ service.ip.drop 6).length = 16 := shape ▸ service.size
  have written : service.toStringIPPort resolver =
      encodeBase32 (service.ip.drop 6) ++ CNetAddr.onionSuffix ++ 58 :: decimal service.port.toNat := by
    rw [CService.toStringIPPort, tor, Bool.or_true, Bool.true_or, if_pos rfl, CNetAddr.toStringIP, if_pos tor]
  rw [written, lookupNumeric_special real portDefault (by decide) (setSpecial_onion size)]
  have same : CNetAddr.ofPrefix CNetAddr.pchOnionCat (service.ip.drop 6) size = service.toCNetAddr :=
    CNetAddr.ext shape.symm
  rw [same]

/-- An address of I2P comes back with the prefix of Tor. -/
theorem garli_lookup (resolver : Resolver) (real : service.port ≠ 0) (tor : service.isTor = false)
    (i2p : service.isI2P = true)
    (portDefault : Int32) : ∃ addr : CNetAddr, addr.isTor = true ∧
      resolver.lookupNumeric (service.toStringIPPort resolver) portDefault = some { addr with port :=
        service.port } := by
  have size : (CNetAddr.pchOnionCat ++ service.ip.drop 6).length = 16 := by
    have length := service.size
    rw [List.length_append, List.length_drop, length]
    rfl
  have written : service.toStringIPPort resolver =
      encodeBase32 (service.ip.drop 6) ++ CNetAddr.garliSuffix ++ 58 :: decimal service.port.toNat := by
    rw [CService.toStringIPPort, i2p, Bool.or_true, if_pos rfl, CNetAddr.toStringIP, tor, if_neg Bool.false_ne_true,
      i2p,
      if_pos rfl]
  refine ⟨CNetAddr.ofPrefix CNetAddr.pchOnionCat (service.ip.drop 6) size, ?_, ?_⟩
  · rw [CNetAddr.isTor, CNetAddr.hasBytes, List.drop_zero, CNetAddr.ofPrefix, List.take_left, decide_eq_true rfl]
  · rw [written, lookupNumeric_special real portDefault (by decide) (setSpecial_garli size)]

/-- An address with a numeric name comes back: the name stands alone for IPv4, and in brackets otherwise. -/
theorem numeric_round_trip (numeric : resolver.Numeric) (real : service.port ≠ 0) (tor : service.isTor = false)
    (i2p : service.isI2P = false) (portDefault : Int32) :
    resolver.lookupNumeric (service.toStringIPPort resolver) portDefault = some service := by
  rw [CService.toStringIPPort, tor, i2p, Bool.or_false, Bool.or_false, CNetAddr.toStringIP, tor,
    if_neg Bool.false_ne_true, i2p,
    if_neg Bool.false_ne_true, CNetAddr.getSockAddr]
  cases kind : service.isIPv4 with
  | true =>
      rw [if_pos rfl, if_pos rfl, Option.bind_some]
      have length : (service.ip.drop 12).length = 4 := by rw [List.length_drop, service.size]
      obtain ⟨name, named, read⟩ := numeric.inverse (.inet (service.ip.drop 12) length) (by simp)
      have characters := numeric.inet _ length name named
      have digits : ∀ c ∈ name, isNumeric c = true := by
        intro c member
        rcases characters c member with digit | rfl
        · rw [isNumeric, digit]
          rfl
        · rfl
      have absent : ∀ c : UInt8, isDigit c = false → c ≠ 46 → c ∉ name := by
        intro c other point member
        rcases characters c member with digit | dot
        · rw [other] at digit
          cases digit
        · exact point dot
      rw [named, Option.getD_some]
      change _ = some (CService.mk service.toCNetAddr service.port)
      refine lookupNumeric_port real portDefault ?_ (Or.inl ?_)
        (unbracketed_plain (absent 91 (by decide) (by decide))) (lookupIntern_numeric digits read ?_)
      · rintro c member rfl
        exact absent 0 (by decide) (by decide) member
      · rw [← Bool.not_eq_true, List.contains_iff_mem]
        exact absent 58 (by decide) (by decide)
      · exact congrArg some (CNetAddr.ext (ip_of_hasBytes kind).symm)
  | false =>
      have ipv6 : service.isIPv6 = true := by rw [CNetAddr.isIPv6, kind, tor, i2p]; rfl
      rw [if_neg Bool.false_ne_true, if_neg Bool.false_ne_true, ipv6, if_pos rfl, Option.bind_some]
      obtain ⟨name, named, read⟩ := numeric.inverse (.inet6 service.ip service.size) (by simp)
      have digits := numeric.inet6 _ service.size name named
      have shape : 91 :: name ++ 93 :: 58 :: decimal service.port.toNat =
          (91 :: name ++ [93]) ++ 58 :: decimal service.port.toNat := by simp
      rw [named, Option.getD_some, shape]
      change _ = some (CService.mk service.toCNetAddr service.port)
      refine lookupNumeric_port real portDefault ?_ (Or.inr ⟨rfl, ?_⟩)
        (unbracketed_brackets name) (lookupIntern_numeric digits read rfl)
      · intro c member
        simp only [List.cons_append, List.mem_cons, List.mem_append, List.not_mem_nil, or_false] at member
        rcases member with rfl | inside | rfl
        · decide
        · rintro rfl
          cases digits 0 inside
        · decide
      · exact List.getLast?_concat

/-- With a resolver whose numeric names give the addresses back, the text of an address and a port comes back
exactly where the address is not one of I2P. -/
theorem service_text_round_trip_iff (resolver : Resolver) (numeric : resolver.Numeric) (service : CService)
    (real : service.port ≠ 0) (portDefault : Int32) :
    resolver.lookupNumeric (service.toStringIPPort resolver) portDefault = some service ↔ service.isI2P = false := by
  cases tor : service.isTor with
  | true =>
      have i2p : service.isI2P = false := by
        have front : service.ip.take 6 = CNetAddr.pchOnionCat := by
          rw [ip_of_hasBytes tor]
          exact List.take_left' rfl
        rw [CNetAddr.isI2P, CNetAddr.hasBytes, List.drop_zero]
        refine decide_eq_false fun same => absurd (front.symm.trans same) (by decide)
      exact iff_of_true (onion_round_trip real tor portDefault) i2p
  | false =>
      cases i2p : service.isI2P with
      | true =>
          obtain ⟨addr, other, found⟩ := garli_lookup resolver real tor i2p portDefault
          rw [found]
          refine iff_of_false (fun same => ?_) Bool.noConfusion
          have sameAddr : addr = service.toCNetAddr := congrArg CService.toCNetAddr (Option.some.inj same)
          rw [sameAddr, tor] at other
          cases other
      | false => exact iff_of_true (numeric_round_trip numeric real tor i2p portDefault) rfl

end Lookup

section Concrete

open WalletDump (hexStr hexmap)

/-- The words of an address, as pairs of bytes. -/
def addrWords (addr : List UInt8) : List Bytes := (List.range 8).map fun i => (addr.drop (2 * i)).take 2

/-- Numbers between points, and words of four hexadecimal digits between colons. -/
def plainResolver : Resolver where
  getnameinfo
    | .inet addr _ => some (List.intercalate [46] (addr.map fun byte => decimal byte.toNat))
    | .inet6 addr _ => some (List.intercalate [58] ((addrWords addr).map hexStr))
    | .other => none
  getaddrinfo name :=
    if name.contains 58 then
      let addr := (name.splitOn 58).flatMap parseHex
      if size : addr.length = 16 then some [.inet6 addr size] else none
    else
      let addr := (name.splitOn 46).map fun number => UInt8.ofNat (readDigits number)
      if size : addr.length = 4 then some [.inet addr size] else none

theorem mem_intercalate {sep c : UInt8} {parts : List Bytes} (member : c ∈ List.intercalate [sep] parts) :
    c = sep ∨ ∃ part ∈ parts, c ∈ part := by
  induction parts with
  | nil => cases member
  | cons first rest ih =>
      cases rest with
      | nil => exact Or.inr ⟨first, List.mem_cons_self, by simpa [List.intercalate] using member⟩
      | cons second rest =>
          have shape : List.intercalate [sep] (first :: second :: rest) =
              first ++ sep :: List.intercalate [sep] (second :: rest) := by simp [List.intercalate]
          rw [shape, List.mem_append, List.mem_cons] at member
          rcases member with here | same | later
          · exact Or.inr ⟨first, List.mem_cons_self, here⟩
          · exact Or.inl same
          · rcases ih later with same | ⟨part, listed, inside⟩
            · exact Or.inl same
            · exact Or.inr ⟨part, List.mem_cons_of_mem _ listed, inside⟩

theorem hexStr_numeric {bytes : Bytes} : ∀ c ∈ hexStr bytes, isNumeric c = true ∧ c ≠ 58 := by
  intro c member
  have digit : ∀ {half : UInt8}, half.toNat < 16 → isNumeric (hexmap half) = true ∧ hexmap half ≠ 58 := fun
    {half} small =>
    @WalletDump.forall_hexmap (fun half => isNumeric (hexmap half) = true ∧ hexmap half ≠ 58) (by decide) half small
  obtain ⟨val, -, written⟩ := List.mem_flatMap.mp member
  rcases List.mem_pair.mp written with rfl | rfl
  · exact digit (WalletDump.shiftRight_four_lt val)
  · exact digit (WalletDump.and_fifteen_lt val)

/-- The pairs of bytes, one after the other. -/
theorem flatMap_pairs (addr : List UInt8) (n : Nat) :
    (List.range n).flatMap (fun i => (addr.drop (2 * i)).take 2) = addr.take (2 * n) := by
  induction n with
  | zero => rfl
  | succ n ih =>
      rw [List.range_succ, List.flatMap_append, ih, List.flatMap_singleton, Nat.mul_succ, List.take_add]

theorem plainResolver_inet {addr : List UInt8} (size : addr.length = 4) :
    ∃ name, plainResolver.getnameinfo (.inet addr size) = some name ∧
      plainResolver.getaddrinfo name = some [.inet addr size] := by
  have digit : ∀ c : UInt8, isDigit c = false → ∀ number ∈ addr.map fun byte => decimal byte.toNat, c ∉ number := by
    intro c other number listed member
    obtain ⟨byte, -, rfl⟩ := List.mem_map.mp listed
    rw [digits_decimal _ c member] at other
    cases other
  have colon : (List.intercalate [46] (addr.map fun byte => decimal byte.toNat)).contains 58 = false := by
    rw [← Bool.not_eq_true, List.contains_iff_mem]
    intro member
    rcases mem_intercalate member with same | ⟨number, listed, inside⟩
    · cases same
    · exact digit 58 (by decide) number listed inside
  have some_ : (addr.map fun byte => decimal byte.toNat) ≠ [] := by
    rintro none
    rw [List.map_eq_nil_iff.mp none] at size
    cases size
  have back : ((addr.map fun byte => decimal byte.toNat).map fun number => UInt8.ofNat (readDigits number)) = addr := by
    rw [List.map_map]
    conv_rhs => rw [← List.map_id addr]
    exact List.map_congr_left fun byte _ => by
      rw [Function.comp_apply, readDigits_decimal, UInt8.ofNat_toNat, id]
  refine ⟨_, rfl, ?_⟩
  unfold plainResolver
  dsimp only
  rw [colon, if_neg Bool.false_ne_true, List.splitOn_intercalate 46 (digit 46 (by decide)) some_]
  simp only [back, size, dif_pos]

theorem plainResolver_inet6 {addr : List UInt8} (size : addr.length = 16) :
    ∃ name, plainResolver.getnameinfo (.inet6 addr size) = some name ∧
      plainResolver.getaddrinfo name = some [.inet6 addr size] := by
  have colon : (List.intercalate [58] ((addrWords addr).map hexStr)).contains 58 = true := by
    rw [List.contains_iff_mem]
    simp [addrWords, List.range_succ, List.intercalate]
  have words : ∀ word ∈ (addrWords addr).map hexStr, 58 ∉ word := by
    intro word listed member
    obtain ⟨bytes, -, rfl⟩ := List.mem_map.mp listed
    exact (hexStr_numeric 58 member).2 rfl
  have back : ((addrWords addr).map hexStr).flatMap parseHex = addr := by
    rw [List.flatMap_map]
    simp only [parseHex_hexStr]
    rw [addrWords, List.flatMap_map, flatMap_pairs, List.take_of_length_le (by omega)]
  refine ⟨_, rfl, ?_⟩
  unfold plainResolver
  dsimp only
  rw [colon, if_pos rfl, List.splitOn_intercalate 58 words (by simp [addrWords])]
  simp only [back, size, dif_pos]

theorem plainResolver_numeric : plainResolver.Numeric where
  inverse addr real := by
    cases addr with
    | inet addr size => exact plainResolver_inet size
    | inet6 addr size => exact plainResolver_inet6 size
    | other => exact absurd rfl real
  inet addr size name named c member := by
    cases named
    rcases mem_intercalate member with same | ⟨number, listed, inside⟩
    · exact Or.inr same
    · obtain ⟨byte, -, rfl⟩ := List.mem_map.mp listed
      exact Or.inl (digits_decimal _ c inside)
  inet6 addr size name named c member := by
    cases named
    rcases mem_intercalate member with same | ⟨word, listed, inside⟩
    · rw [same]
      rfl
    · obtain ⟨bytes, -, rfl⟩ := List.mem_map.mp listed
      exact (hexStr_numeric c inside).1

/-- An address of the tests. -/
def localService : CService := ⟨⟨CNetAddr.pchIPv4 ++ [127, 0, 0, 1], rfl⟩, 8333⟩

/-- An address of I2P. -/
def garlicService : CService := ⟨⟨CNetAddr.pchGarliCat ++ [0, 1, 2, 3, 4, 5, 6, 7, 8, 9], rfl⟩, 8333⟩

theorem service_text_round_trip_local :
    localService.toStringIPPort plainResolver =
        text ['1', '2', '7', '.', '0', '.', '0', '.', '1', ':', '8', '3', '3', '3'] ∧
      plainResolver.lookupNumeric (localService.toStringIPPort plainResolver) 65535 = some localService :=
  ⟨by decide +kernel, (service_text_round_trip_iff plainResolver plainResolver_numeric localService
    (by decide) _).mpr rfl⟩

/-- The address of I2P is read as one of Tor. -/
theorem garlic_service_reads_as_onion :
    garlicService.toStringIPPort plainResolver =
        text ['a', 'a', 'a', 'q', 'e', 'a', 'y', 'e', 'a', 'u', 'd', 'a', 'o', 'c', 'a', 'j', '.', 'o', 'c', '.',
          'b', '3', '2',
          '.', 'i', '2', 'p', ':', '8', '3', '3', '3'] ∧
      (plainResolver.lookupNumeric (garlicService.toStringIPPort plainResolver) 65535).map (fun service => service.ip) =
        some (CNetAddr.pchOnionCat ++ [0, 1, 2, 3, 4, 5, 6, 7, 8, 9]) ∧
      plainResolver.lookupNumeric (garlicService.toStringIPPort plainResolver) 65535 ≠ some garlicService := by
  decide +kernel

end Concrete

end InfiniteRicks
