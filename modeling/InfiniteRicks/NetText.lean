import InfiniteRicks.Base64Spec
import InfiniteRicks.MoneySpec
import InfiniteRicks.NetAddr

/-!
# Network addresses as texts

`SetSpecial`, `ToStringIP`, `ToStringIPPort`, `SplitHostPort` and `LookupNumeric` (`netbase.cpp`). The
resolver of the system, with numeric names only, is a parameter.
-/

namespace InfiniteRicks

/-- The addresses of a `sockaddr_in` and a `sockaddr_in6`, in network order, and those of other families. -/
inductive SockAddr where
  | inet (addr : List UInt8) (size : addr.length = 4)
  | inet6 (addr : List UInt8) (size : addr.length = 16)
  | other

/-- `getnameinfo` with `NI_NUMERICHOST` and `getaddrinfo` with `AI_NUMERICHOST`; none where they fail. -/
structure Resolver where
  getnameinfo : SockAddr → Option Bytes
  getaddrinfo : Bytes → Option (List SockAddr)

/-- `strtol` with base ten: the value, and where it stops. -/
def strtol (str : Bytes) : Int64 × Bytes :=
  let number := str.dropWhile isSpace
  let signed := number.head? = some 45 || number.head? = some 43
  let digits := if signed then number.tail else number
  if (digits.takeWhile isDigit).isEmpty then (0, str)
  else
    (if number.head? = some 45 then clampInt64 (-(readDigits digits)) else clampInt64 (readDigits digits),
      digits.dropWhile isDigit)

namespace CNetAddr

/-- An address with the six bytes of a prefix. -/
def ofPrefix (pch vchAddr : List UInt8) (size : (pch ++ vchAddr).length = 16) : CNetAddr := ⟨pch ++ vchAddr, size⟩

def onionSuffix : Bytes := text ['.', 'o', 'n', 'i', 'o', 'n']
def garliSuffix : Bytes := text ['.', 'o', 'c', '.', 'b', '3', '2', '.', 'i', '2', 'p']

/-- What is in front of a suffix, if the text is longer. -/
def withoutSuffix (strName suffix : Bytes) : Option Bytes :=
  if suffix.length < strName.length && strName.drop (strName.length - suffix.length) = suffix then
    some (strName.take (strName.length - suffix.length))
  else none

/-- `SetSpecial`: the address, where it returns true. Both branches copy `pchOnionCat`. -/
def setSpecial (strName : Bytes) : Option CNetAddr :=
  match withoutSuffix strName onionSuffix with
  | some name =>
      if size : (pchOnionCat ++ (decodeBase32 name).1).length = 16 then
        some (ofPrefix pchOnionCat (decodeBase32 name).1 size)
      else none
  | none =>
      match withoutSuffix strName garliSuffix with
      | some name =>
          if size : (pchOnionCat ++ (decodeBase32 name).1).length = 16 then
            some (ofPrefix pchOnionCat (decodeBase32 name).1 size)
          else none
      | none => none

/-- `IsIPv6`. -/
def isIPv6 (addr : CNetAddr) : Bool := !addr.isIPv4 && !addr.isTor && !addr.isI2P

/-- The constructors from the system's addresses. -/
def ofSockAddr : SockAddr → Option CNetAddr
  | .inet addr size => some ⟨pchIPv4 ++ addr, by rw [List.length_append, size]; rfl⟩
  | .inet6 addr size => some ⟨addr, size⟩
  | .other => none

/-- `GetSockAddr`, as far as the name depends on it. -/
def getSockAddr (addr : CNetAddr) : Option SockAddr :=
  if addr.isIPv4 then some (.inet (addr.ip.drop 12) (by rw [List.length_drop, addr.size]))
  else if addr.isIPv6 then some (.inet6 addr.ip addr.size)
  else none

/-- `%x`. -/
def hexNumber (value : Nat) : Bytes := text (Nat.toDigits 16 value)

/-- `GetByte(n) << 8 | GetByte(n - 1)`. -/
def getWord (addr : CNetAddr) (n : Nat) : Nat := (addr.getByte n).toNat <<< 8 ||| (addr.getByte (n - 1)).toNat

/-- The numbers that `ToStringIP` prints where the resolver fails. -/
def plainName (addr : CNetAddr) : Bytes :=
  if addr.isIPv4 then
    List.intercalate [46] ([3, 2, 1, 0].map fun n => decimal (addr.getByte n).toNat)
  else List.intercalate [58] ([15, 13, 11, 9, 7, 5, 3, 1].map fun n => hexNumber (addr.getWord n))

/-- `ToStringIP`. -/
def toStringIP (resolver : Resolver) (addr : CNetAddr) : Bytes :=
  if addr.isTor then encodeBase32 (addr.ip.drop 6) ++ onionSuffix
  else if addr.isI2P then encodeBase32 (addr.ip.drop 6) ++ garliSuffix
  else ((addr.getSockAddr.bind resolver.getnameinfo).getD addr.plainName)

end CNetAddr

/-- `ToStringIPPort`. -/
def CService.toStringIPPort (resolver : Resolver) (service : CService) : Bytes :=
  let addr := service.toCNetAddr
  if addr.isIPv4 || addr.isTor || addr.isI2P then addr.toStringIP resolver ++ 58 :: decimal service.port.toNat
  else 91 :: addr.toStringIP resolver ++ 93 :: 58 :: decimal service.port.toNat

/-- A text without its brackets. -/
def unbracketed (in_ : Bytes) : Bytes :=
  if in_.head? = some 91 && in_.getLast? = some 93 then (in_.drop 1).take (in_.length - 2) else in_

/-- `SplitHostPort`: the port, which may be the one before, and the host. -/
def splitHostPort (in_ : Bytes) (portOut : Int32) : Int32 × Bytes :=
  let fHaveColon := in_.contains 58
  let behind := (in_.reverse.takeWhile fun c => decide (c ≠ 58)).reverse
  let front := in_.take (in_.length - behind.length - 1)
  let fBracketed := fHaveColon && in_.head? = some 91 && front.getLast? = some 93
  let fMultiColon := fHaveColon && (front.isEmpty || front.contains 58)
  if fHaveColon && (front.isEmpty || fBracketed || !fMultiColon) then
    let n := (strtol (Base58.cString behind)).1.toInt32
    if (strtol (Base58.cString behind)).2.isEmpty && 0 ≤ n then
      (if 0 < n && n < 0x10000 then n else portOut, unbracketed front)
    else (portOut, unbracketed in_)
  else (portOut, unbracketed in_)

namespace Resolver

variable (resolver : Resolver)

/-- `LookupIntern` without name lookup; none where it returns false. -/
def lookupIntern (pszName : Bytes) (nMaxSolutions : Nat) : Option (List CNetAddr) :=
  match CNetAddr.setSpecial (Base58.cString pszName) with
  | some addr => some [addr]
  | none =>
      match resolver.getaddrinfo (Base58.cString pszName) with
      | none => none
      | some aiRes =>
          let found := aiRes.filterMap CNetAddr.ofSockAddr
          let vIP := if nMaxSolutions = 0 then found else found.take nMaxSolutions
          if vIP.isEmpty then none else some vIP

/-- `LookupNumeric`; none where it returns false. -/
def lookupNumeric (pszName : Bytes) (portDefault : Int32) : Option CService :=
  if (Base58.cString pszName).isEmpty then none
  else
    let (port, hostname) := splitHostPort (Base58.cString pszName) portDefault
    match resolver.lookupIntern hostname 1 with
    | some (addr :: _) => some { addr with port := UInt16.ofInt port.toInt }
    | _ => none

end Resolver

end InfiniteRicks
