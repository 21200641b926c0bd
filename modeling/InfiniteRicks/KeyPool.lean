import Mathlib.Data.Int.Basic
import Mathlib.Logic.Function.Basic
import Mathlib.Tactic.Common

/-!
# The key pool

`NewKeyPool`, `TopUpKeyPool`, `ReserveKeyFromKeyPool`, `GetKeyFromPool` and `CReserveKey`
(`wallet.cpp`) of a wallet with a wallet file. An index is generated from the largest one
that is left in the pool, while reservations hold smaller or larger ones.
-/

namespace InfiniteRicks

/-- A `CReserveKey`: the index it has reserved, or -1, and its public key. -/
structure CReserveKey (Key : Type) where
  nIndex : Int
  vchPubKey : Option Key

/-- The constructor's holder, which is also the state after `KeepKey` and `ReturnKey`. -/
def CReserveKey.free {Key : Type} : CReserveKey Key := ⟨-1, none⟩

/-- What the key pool reads and writes of a wallet. `setKeyPool` is the list of its elements, `pool` the pool records
of the wallet file, and `holders` are the `CReserveKey` objects. -/
structure KeyPoolWallet (Key : Type) where
  setKeyPool : List Int
  pool : Int → Option Key
  /-- `IsLocked()` -/
  fLocked : Bool
  /-- How many keys `GenerateNewKey` has made. -/
  nGenerated : Nat
  vchDefaultKey : Option Key
  holders : Nat → CReserveKey Key

/-- What a call hands out: a key of its own, the default key, the key it holds already, or none. A call that throws
hands out none. -/
inductive HandOut (Key : Type) where
  | own (vchPubKey : Key)
  | defaultKey (vchPubKey : Key)
  | held (vchPubKey : Option Key)
  | none

namespace KeyPoolWallet

section Model

variable {Key : Type}

/-- A wallet without keys. -/
def new (fLocked : Bool) (vchDefaultKey : Option Key) : KeyPoolWallet Key :=
  ⟨[], fun _ => none, fLocked, 0, vchDefaultKey, fun _ => .free⟩

/-- `setKeyPool.insert`. -/
def insertIndex (s : KeyPoolWallet Key) (nIndex : Int) : KeyPoolWallet Key :=
  if nIndex ∈ s.setKeyPool then s else { s with setKeyPool := nIndex :: s.setKeyPool }

/-- `ErasePool`. -/
def erasePool (s : KeyPoolWallet Key) (nIndex : Int) : KeyPoolWallet Key :=
  { s with pool := Function.update s.pool nIndex none }

def setHolder (s : KeyPoolWallet Key) (h : Nat) (holder : CReserveKey Key) : KeyPoolWallet Key :=
  { s with holders := Function.update s.holders h holder }

/-- The index after the last one of the pool, or 1. -/
def nEnd (s : KeyPoolWallet Key) : Int :=
  match s.setKeyPool.max? with
  | some last => last + 1
  | none => 1

/-- `max(GetArg("-keypool", 100), 0)`. -/
def keypoolArg (nKeypool : Int64) : Int := max nKeypool.toInt 0

/-- `nTargetSize` plus 1, in `unsigned int`. -/
def targetSize (nKeypool : Int64) (nSize : UInt32) : Nat :=
  ((if 0 < nSize then nSize else UInt32.ofInt (keypoolArg nKeypool)) + 1).toNat

-- The keys that `GenerateNewKey` draws.
variable (newKey : Nat → Key)

/-- `WritePool(nIndex, CKeyPool(GenerateNewKey()))` and `setKeyPool.insert(nIndex)`. -/
def addPoolKey (s : KeyPoolWallet Key) (nIndex : Int) : KeyPoolWallet Key :=
  insertIndex { s with
    pool := Function.update s.pool nIndex (some (newKey s.nGenerated)), nGenerated := s.nGenerated + 1 } nIndex

def newKeyPool (nKeypool : Int64) (s : KeyPoolWallet Key) : KeyPoolWallet Key :=
  let s := { s with pool := fun nIndex => if nIndex ∈ s.setKeyPool then none else s.pool nIndex, setKeyPool := [] }
  if s.fLocked then s
  else (List.range (keypoolArg nKeypool).toNat).foldl (fun s (i : Nat) => s.addPoolKey newKey ((i : Int) + 1)) s

/-- The loop of `TopUpKeyPool`. Every round adds an index, so the target is enough fuel. -/
def topUp (target : Nat) : Nat → KeyPoolWallet Key → KeyPoolWallet Key
  | 0, s => s
  | fuel + 1, s => if s.setKeyPool.length < target then topUp target fuel (s.addPoolKey newKey s.nEnd) else s

def topUpKeyPool (nKeypool : Int64) (nSize : UInt32) (s : KeyPoolWallet Key) : KeyPoolWallet Key :=
  if s.fLocked then s else topUp newKey (targetSize nKeypool nSize) (targetSize nKeypool nSize) s

variable [DecidableEq Key]

/-- `HaveKey`: the wallet has the keys it has generated. -/
def haveKey (s : KeyPoolWallet Key) (vchPubKey : Key) : Bool :=
  (List.range s.nGenerated).any fun i => newKey i = vchPubKey

/-- `ReserveKeyFromKeyPool`, with `nIndex` and the public key of `keypool`. It throws where it has an index and no key. -/
def reserveKeyFromKeyPool (nKeypool : Int64) (s : KeyPoolWallet Key) : Int × Option Key × KeyPoolWallet Key :=
  let s := s.topUpKeyPool newKey nKeypool 0
  match s.setKeyPool.min? with
  | none => (-1, none, s)
  | some nIndex =>
      let s := { s with setKeyPool := s.setKeyPool.filter (· ≠ nIndex) }
      match s.pool nIndex with
      | none => (nIndex, none, s)
      | some vchPubKey => (nIndex, if s.haveKey newKey vchPubKey then some vchPubKey else none, s)

/-- `CReserveKey::GetReservedKey`. -/
def getReservedKey (nKeypool : Int64) (s : KeyPoolWallet Key) (h : Nat) : HandOut Key × KeyPoolWallet Key :=
  if (s.holders h).nIndex ≠ -1 then (.held (s.holders h).vchPubKey, s)
  else
    match s.reserveKeyFromKeyPool newKey nKeypool with
    | (nIndex, keypool, s) =>
        if nIndex ≠ -1 then
          match keypool with
          | some vchPubKey => (.own vchPubKey, s.setHolder h ⟨nIndex, some vchPubKey⟩)
          | none => (.none, s.setHolder h ⟨nIndex, (s.holders h).vchPubKey⟩)
        else
          match s.vchDefaultKey with
          | some vchPubKey => (.defaultKey vchPubKey, s.setHolder h ⟨-1, some vchPubKey⟩)
          | none => (.none, s)

/-- `CReserveKey::KeepKey`. -/
def keepKey (s : KeyPoolWallet Key) (h : Nat) : KeyPoolWallet Key :=
  let s' := if (s.holders h).nIndex ≠ -1 then s.erasePool (s.holders h).nIndex else s
  s'.setHolder h .free

/-- `CReserveKey::ReturnKey`, which is also its destructor. -/
def returnKey (s : KeyPoolWallet Key) (h : Nat) : KeyPoolWallet Key :=
  let s' := if (s.holders h).nIndex ≠ -1 then s.insertIndex (s.holders h).nIndex else s
  s'.setHolder h .free

def getKeyFromPool (nKeypool : Int64) (s : KeyPoolWallet Key) (fAllowReuse : Bool) : HandOut Key × KeyPoolWallet Key :=
  match s.reserveKeyFromKeyPool newKey nKeypool with
  | (nIndex, keypool, s) =>
      if nIndex = -1 then
        match fAllowReuse, s.vchDefaultKey with
        | true, some vchPubKey => (.defaultKey vchPubKey, s)
        | _, _ =>
            if s.fLocked then (.none, s)
            else (.own (newKey s.nGenerated), { s with nGenerated := s.nGenerated + 1 })
      else
        match keypool with
        | some vchPubKey => (.own vchPubKey, s.erasePool nIndex)
        | none => (.none, s)

end Model

end KeyPoolWallet

/-- A call on the key pool, by a holder or not, or a change of the lock. -/
inductive KeyPoolEvent where
  | topUpKeyPool (nSize : UInt32)
  | newKeyPool
  | getReservedKey (h : Nat)
  | keepKey (h : Nat)
  | returnKey (h : Nat)
  | getKeyFromPool (fAllowReuse : Bool)
  | setLocked (fLocked : Bool)

namespace KeyPoolEvent

variable {Key : Type} [DecidableEq Key] (newKey : Nat → Key) (nKeypool : Int64)

def step (s : KeyPoolWallet Key) : KeyPoolEvent → HandOut Key × KeyPoolWallet Key
  | topUpKeyPool nSize => (.none, s.topUpKeyPool newKey nKeypool nSize)
  | newKeyPool => (.none, s.newKeyPool newKey nKeypool)
  | getReservedKey h => s.getReservedKey newKey nKeypool h
  | keepKey h => (.none, s.keepKey h)
  | returnKey h => (.none, s.returnKey h)
  | getKeyFromPool fAllowReuse => s.getKeyFromPool newKey nKeypool fAllowReuse
  | setLocked fLocked => (.none, { s with fLocked := fLocked })

/-- The keys that a call keeps: that of the holder, or that of `GetKeyFromPool`, which keeps what it hands out. -/
def kept (s : KeyPoolWallet Key) : KeyPoolEvent → List Key
  | keepKey h => if (s.holders h).nIndex ≠ -1 then (s.holders h).vchPubKey.toList else []
  | getKeyFromPool fAllowReuse =>
      match (s.getKeyFromPool newKey nKeypool fAllowReuse).1 with
      | .own vchPubKey => [vchPubKey]
      | _ => []
  | _ => []

end KeyPoolEvent

end InfiniteRicks
