import InfiniteRicks.Block
import Mathlib.Data.List.AList
import Mathlib.Logic.Function.Basic

/-!
# The memory pool

`CTxMemPool` from `main.h` and `main.cpp`: the stored transactions and the map
from spent outpoints to the pool input that spends them. A `CTransaction*` into
`mapTx` is the hash under which the transaction is stored.
-/

namespace InfiniteRicks

/-- `CInPoint`: a pool transaction and an index into its inputs. -/
structure CInPoint where
  ptx : UInt256
  n : Nat
deriving DecidableEq

/-- `CTxMemPool`. -/
structure CTxMemPool where
  mapTx : AList fun _ : UInt256 => CTransaction
  mapNextTx : COutPoint → Option CInPoint

namespace CTxMemPool

/-- The pool a node starts with. -/
def empty : CTxMemPool := ⟨∅, fun _ => none⟩

/-- `CTxMemPool::exists`. -/
def contains (pool : CTxMemPool) (hash : UInt256) : Bool := decide (hash ∈ pool.mapTx)

/-- `CTxMemPool::lookup`. -/
def lookup (pool : CTxMemPool) (hash : UInt256) : Option CTransaction := pool.mapTx.lookup hash

/-- Record the inputs of the transaction stored under `hash`, from index `i` on. -/
def linkInputs (hash : UInt256) : Nat → List CTxIn → (COutPoint → Option CInPoint) →
    COutPoint → Option CInPoint
  | _, [], mapNextTx => mapNextTx
  | i, txin :: rest, mapNextTx =>
      linkInputs hash (i + 1) rest (Function.update mapNextTx txin.prevout (some ⟨hash, i⟩))

/-- `CTxMemPool::addUnchecked`. -/
def addUnchecked (pool : CTxMemPool) (hash : UInt256) (tx : CTransaction) : CTxMemPool where
  mapTx := pool.mapTx.insert hash tx
  mapNextTx := linkInputs hash 0 tx.vin pool.mapNextTx

/-- Erase the outpoints that a transaction spends. -/
def unlinkInputs (mapNextTx : COutPoint → Option CInPoint) (vin : List CTxIn) :
    COutPoint → Option CInPoint :=
  vin.foldl (fun mapNextTx txin => Function.update mapNextTx txin.prevout none) mapNextTx

/-- The part of `CTxMemPool::remove` that erases one transaction. -/
def eraseTx (pool : CTxMemPool) (hash : UInt256) (tx : CTransaction) : CTxMemPool where
  mapTx := pool.mapTx.erase hash
  mapNextTx := unlinkInputs pool.mapNextTx tx.vin

/-- `CTxMemPool::remove` with a bound on the recursion depth. -/
def removeFuel (env : Env) : Nat → CTxMemPool → CTransaction → Bool → CTxMemPool
  | 0, pool, _, _ => pool
  | fuel + 1, pool, tx, fRecursive =>
      let hash := env.txHash tx
      if hash ∈ pool.mapTx then
        let pool :=
          if fRecursive then
            (List.range tx.vout.length).foldl (fun pool i =>
              match pool.mapNextTx ⟨hash, UInt32.ofNat i⟩ with
              | none => pool
              | some inpoint =>
                  match pool.mapTx.lookup inpoint.ptx with
                  | none => pool
                  | some child => removeFuel env fuel pool child true) pool
          else pool
        pool.eraseTx hash tx
      else pool

/-- `CTxMemPool::remove`. A chain of dependent pool transactions is no longer than
the pool, so its size bounds the recursion. -/
def remove (env : Env) (pool : CTxMemPool) (tx : CTransaction) (fRecursive : Bool := false) : CTxMemPool :=
  removeFuel env (pool.mapTx.entries.length + 1) pool tx fRecursive

/-- `CTxMemPool::removeConflicts`. -/
def removeConflicts (env : Env) (pool : CTxMemPool) (tx : CTransaction) : CTxMemPool :=
  tx.vin.foldl (fun pool txin =>
    match pool.mapNextTx txin.prevout with
    | none => pool
    | some inpoint =>
        match pool.mapTx.lookup inpoint.ptx with
        | none => pool
        | some txConflict => if txConflict ≠ tx then pool.remove env txConflict true else pool) pool

/-- `CTxMemPool::clear`. -/
def clear (_ : CTxMemPool) : CTxMemPool := empty

end CTxMemPool

end InfiniteRicks
