import Mathlib.Tactic.Linarith
import InfiniteRicks.Transaction

/-!
# Network addresses

`CNetAddr`, `CService` and `CAddress` (`netbase.cpp`, `protocol.h`): the kinds of
addresses, and the group of an address. An IPv4 address is one of the 16-byte addresses,
with the prefix of mapped addresses.
-/

namespace InfiniteRicks

/-- `CNetAddr`: 16 bytes in network order. -/
structure CNetAddr where
  ip : List UInt8
  size : ip.length = 16
deriving DecidableEq

namespace CNetAddr

@[ext] theorem ext {a b : CNetAddr} (same : a.ip = b.ip) : a = b := by
  cases a
  cases b
  cases same
  rfl

/-- The order of `memcmp`. -/
instance : Ord CNetAddr := ⟨compareOn ip⟩

instance : Std.TransOrd CNetAddr := inferInstanceAs (Std.TransCmp (compareOn ip))

instance : Std.LawfulEqOrd CNetAddr where
  eq_of_compare same := CNetAddr.ext (Std.LawfulEqCmp.eq_of_compare same)

/-- `memcmp(ip + start, pch, sizeof(pch)) == 0`. -/
def hasBytes (addr : CNetAddr) (start : Nat) (pch : List UInt8) : Bool :=
  (addr.ip.drop start).take pch.length = pch

/-- `GetByte`, counted from the end. -/
def getByte (addr : CNetAddr) (n : Nat) : UInt8 := addr.ip.getD (15 - n) 0

def pchIPv4 : List UInt8 := [0, 0, 0, 0, 0, 0, 0, 0, 0, 0, 0xff, 0xff]
def pchOnionCat : List UInt8 := [0xFD, 0x87, 0xD8, 0x7E, 0xEB, 0x43]
def pchGarliCat : List UInt8 := [0xFD, 0x60, 0xDB, 0x4D, 0xDD, 0xB5]

def isIPv4 (addr : CNetAddr) : Bool := addr.hasBytes 0 pchIPv4

def isTor (addr : CNetAddr) : Bool := addr.hasBytes 0 pchOnionCat

def isI2P (addr : CNetAddr) : Bool := addr.hasBytes 0 pchGarliCat

/-- Private networks. -/
def isRFC1918 (addr : CNetAddr) : Bool :=
  addr.isIPv4 && (addr.getByte 3 = 10 || (addr.getByte 3 = 192 && addr.getByte 2 = 168) ||
    (addr.getByte 3 = 172 && (16 ≤ addr.getByte 2 && addr.getByte 2 ≤ 31)))

/-- Autoconfiguration of IPv4. -/
def isRFC3927 (addr : CNetAddr) : Bool := addr.isIPv4 && (addr.getByte 3 = 169 && addr.getByte 2 = 254)

/-- Documentation addresses. -/
def isRFC3849 (addr : CNetAddr) : Bool :=
  addr.getByte 15 = 0x20 && addr.getByte 14 = 0x01 && addr.getByte 13 = 0x0D && addr.getByte 12 = 0xB8

/-- 6to4 tunnelling. -/
def isRFC3964 (addr : CNetAddr) : Bool := addr.getByte 15 = 0x20 && addr.getByte 14 = 0x02

/-- The well-known prefix. -/
def isRFC6052 (addr : CNetAddr) : Bool := addr.hasBytes 0 [0, 0x64, 0xFF, 0x9B, 0, 0, 0, 0, 0, 0, 0, 0]

/-- Teredo tunnelling. -/
def isRFC4380 (addr : CNetAddr) : Bool :=
  addr.getByte 15 = 0x20 && addr.getByte 14 = 0x01 && addr.getByte 13 = 0 && addr.getByte 12 = 0

/-- Autoconfiguration of IPv6. -/
def isRFC4862 (addr : CNetAddr) : Bool := addr.hasBytes 0 [0xFE, 0x80, 0, 0, 0, 0, 0, 0]

/-- Unique local addresses. -/
def isRFC4193 (addr : CNetAddr) : Bool := addr.getByte 15 &&& 0xFE = 0xFC

/-- Translated IPv4 addresses. -/
def isRFC6145 (addr : CNetAddr) : Bool := addr.hasBytes 0 [0, 0, 0, 0, 0, 0, 0, 0, 0xFF, 0xFF, 0, 0]

/-- ORCHID. -/
def isRFC4843 (addr : CNetAddr) : Bool :=
  addr.getByte 15 = 0x20 && addr.getByte 14 = 0x01 && addr.getByte 13 = 0x00 && addr.getByte 12 &&& 0xF0 = 0x10

def isLocal (addr : CNetAddr) : Bool :=
  (addr.isIPv4 && (addr.getByte 3 = 127 || addr.getByte 3 = 0)) ||
    addr.hasBytes 0 [0, 0, 0, 0, 0, 0, 0, 0, 0, 0, 0, 0, 0, 0, 0, 1]

/-- `IsValid`: not shifted by three bytes, not unspecified, not documentation, and neither
`INADDR_NONE` nor zero. -/
def isValid (addr : CNetAddr) : Bool :=
  !addr.hasBytes 0 (pchIPv4.drop 3) && !addr.hasBytes 0 (List.replicate 16 0) && !addr.isRFC3849 &&
    !(addr.isIPv4 && (addr.hasBytes 12 [0xff, 0xff, 0xff, 0xff] || addr.hasBytes 12 [0, 0, 0, 0]))

def isRoutable (addr : CNetAddr) : Bool :=
  addr.isValid && !(addr.isRFC1918 || addr.isRFC3927 || addr.isRFC4862 ||
    (addr.isRFC4193 && !addr.isTor && !addr.isI2P) || addr.isRFC4843 || addr.isLocal)

/-- `enum Network`, as the classes of groups. -/
def netUnroutable : UInt8 := 0
def netIPv4 : UInt8 := 1
def netIPv6 : UInt8 := 2
def netTor : UInt8 := 3
def netI2P : UInt8 := 4

/-- The class, then `nBits` bits of the address from a byte on, filled up with ones. -/
def groupOf (addr : CNetAddr) (nClass : UInt8) (nStartByte nBits : Nat) : List UInt8 :=
  nClass :: ((addr.ip.drop nStartByte).take (nBits / 8) ++
    if nBits % 8 = 0 then []
    else [addr.getByte (15 - (nStartByte + nBits / 8)) ||| UInt8.ofNat (2 ^ (nBits % 8) - 1)])

/-- `GetGroup`. -/
def getGroup (addr : CNetAddr) : List UInt8 :=
  if !addr.isRoutable then addr.groupOf netUnroutable 0 0
  else if addr.isIPv4 || addr.isRFC6145 || addr.isRFC6052 then
    addr.groupOf netIPv4 12 (if addr.isLocal then 0 else 16)
  else if addr.isRFC3964 then addr.groupOf netIPv4 2 (if addr.isLocal then 0 else 16)
  else if addr.isRFC4380 then [netIPv4, addr.getByte 3 ^^^ 0xFF, addr.getByte 2 ^^^ 0xFF]
  else if addr.isTor then addr.groupOf netTor 6 4
  else if addr.isI2P then addr.groupOf netI2P 6 4
  else
    let nClass := if addr.isLocal then 255 else netIPv6
    if addr.getByte 15 = 0x20 && addr.getByte 14 = 0x11 && addr.getByte 13 = 0x04 && addr.getByte 12 = 0x70 then
      addr.groupOf nClass 0 36
    else addr.groupOf nClass 0 32

end CNetAddr

/-- `CService`: an address with a port. -/
structure CService extends CNetAddr where
  port : UInt16
deriving DecidableEq

/-- `GetKey`. -/
def CService.getKey (service : CService) : List UInt8 :=
  service.ip ++ [UInt8.ofNat (service.port.toNat / 0x100), service.port.toUInt8]

/-- `CAddress`. -/
structure CAddress extends CService where
  nServices : UInt64
  nTime : UInt32
  nLastTry : Int64
deriving DecidableEq

end InfiniteRicks
