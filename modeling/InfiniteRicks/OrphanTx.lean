import InfiniteRicks.BestChainSpec
import Mathlib.Data.List.AList

/-!
# Orphan transactions

`AddOrphanTx`, `EraseOrphanTx`, `LimitOrphanTxSize` and the handling of a `tx` message
(`main.cpp`). `mapOrphanTransactionsByPrev` is the index of the orphans by the
transactions that they spend from. The release of orphans reads the index with
`operator[]`, which inserts an empty set where there is no entry.
-/

namespace InfiniteRicks

/-- `MAX_ORPHAN_TRANSACTIONS`. -/
def maxOrphanTransactions : Nat := maxBlockSize / 100

/-- The orphan maps. A set is the list of its elements in order. -/
structure OrphanTxs where
  mapOrphanTransactions : AList fun _ : UInt256 => CTransaction
  mapOrphanTransactionsByPrev : AList fun _ : UInt256 => List UInt256

namespace OrphanTxs

def empty : OrphanTxs := ⟨∅, ∅⟩

/-- `mapOrphanTransactions.size()`. -/
def size (s : OrphanTxs) : Nat := s.mapOrphanTransactions.keys.length

/-- The set that `mapOrphanTransactionsByPrev[hashPrev]` refers to. -/
def waiting (s : OrphanTxs) (hashPrev : UInt256) : List UInt256 :=
  (s.mapOrphanTransactionsByPrev.lookup hashPrev).getD []

/-- `mapOrphanTransactionsByPrev[hashPrev]`, which inserts an empty set where there is none. -/
def touch (s : OrphanTxs) (hashPrev : UInt256) : OrphanTxs :=
  { s with mapOrphanTransactionsByPrev := s.mapOrphanTransactionsByPrev.insert hashPrev (s.waiting hashPrev) }

/-- `std::set<uint256>::insert`. -/
def setInsert (hash : UInt256) (hashes : List UInt256) : List UInt256 :=
  if hash ∈ hashes then hashes else List.orderedInsert (fun a b => a.toNat ≤ b.toNat) hash hashes

/-- `mapOrphanTransactionsByPrev[hashPrev].insert(hash)`. -/
def link (s : OrphanTxs) (hash hashPrev : UInt256) : OrphanTxs :=
  { s with
    mapOrphanTransactionsByPrev := s.mapOrphanTransactionsByPrev.insert hashPrev (setInsert hash (s.waiting hashPrev)) }

/-- `mapOrphanTransactionsByPrev[hashPrev].erase(hash)`, and the entry with its last element. -/
def unlink (s : OrphanTxs) (hash hashPrev : UInt256) : OrphanTxs :=
  { s with
    mapOrphanTransactionsByPrev :=
      if ((s.waiting hashPrev).filter (· ≠ hash)).isEmpty then s.mapOrphanTransactionsByPrev.erase hashPrev
      else s.mapOrphanTransactionsByPrev.insert hashPrev ((s.waiting hashPrev).filter (· ≠ hash)) }

/-- `AddOrphanTx`. -/
def addOrphanTx (env : Env) (s : OrphanTxs) (tx : CTransaction) : OrphanTxs :=
  let hash := env.txHash tx
  if (s.mapOrphanTransactions.lookup hash).isSome then s
  else if 5000 < tx.getSerializeSize then s
  else
    tx.vin.foldl (fun s txin => s.link hash txin.prevout.hash)
      { s with mapOrphanTransactions := s.mapOrphanTransactions.insert hash tx }

/-- `EraseOrphanTx`. -/
def eraseOrphanTx (s : OrphanTxs) (hash : UInt256) : OrphanTxs :=
  match s.mapOrphanTransactions.lookup hash with
  | none => s
  | some tx =>
      let s := tx.vin.foldl (fun s txin => s.unlink hash txin.prevout.hash) s
      { s with mapOrphanTransactions := s.mapOrphanTransactions.erase hash }

/-- The least of some hashes. -/
def least : List UInt256 → Option UInt256
  | [] => none
  | hash :: rest => some (rest.foldl (fun a b => if b < a then b else a) hash)

/-- The key at `lower_bound(randomhash)`, or the first one where that is the end. -/
def victim (s : OrphanTxs) (randomhash : UInt256) : Option UInt256 :=
  match least (s.mapOrphanTransactions.keys.filter (randomhash ≤ ·)) with
  | some hash => some hash
  | none => least s.mapOrphanTransactions.keys

/-- `LimitOrphanTxSize`, with the hashes that it draws. The fuel is the size of the map: every round takes
one from it. -/
def limitOrphanTxSize (nMaxOrphans : Nat) : Nat → (Nat → UInt256) → OrphanTxs → OrphanTxs
  | 0, _, s => s
  | fuel + 1, getRandHash, s =>
      if nMaxOrphans < s.size then
        match s.victim (getRandHash fuel) with
        | none => s
        | some hash => limitOrphanTxSize nMaxOrphans fuel getRandHash (s.eraseOrphanTx hash)
      else s

end OrphanTxs

/-- `fMissingInputs` after a call of `AcceptToMemoryPool` that returns false. -/
def missingInputs (env : Env) (policy : Policy) (s : Node) (tx : CTransaction) : Bool :=
  acceptable env policy s tx &&
    match tx.fetchInputs s s.txdb.fresh ∅ false false with
    | .error .missing => true
    | _ => false

/-- The variables of the release of orphans: the node, the maps and the two queues. -/
structure Release where
  node : Node
  orphans : OrphanTxs
  vWorkQueue : List UInt256
  vEraseQueue : List UInt256

section Message

variable (env : Env) (policy : Policy)

/-- `CTransaction()`. -/
def CTransaction.null : CTransaction := ⟨1, 0, [], [], 0⟩

/-- One orphan that waits for an accepted transaction. `mapOrphanTransactions[orphanTxHash]` inserts a null
transaction where there is none. -/
def tryOrphan (r : Release) (orphanTxHash : UInt256) : Release :=
  let orphanTx := (r.orphans.mapOrphanTransactions.lookup orphanTxHash).getD CTransaction.null
  let r := { r with
    orphans := { r.orphans with
      mapOrphanTransactions := r.orphans.mapOrphanTransactions.insert orphanTxHash orphanTx } }
  match acceptToMemoryPool env policy r.node orphanTx with
  | some node =>
      { r with node := node, vWorkQueue := r.vWorkQueue ++ [orphanTxHash], vEraseQueue := r.vEraseQueue ++ [orphanTxHash] }
  | none =>
      if missingInputs env policy r.node orphanTx then r
      else { r with vEraseQueue := r.vEraseQueue ++ [orphanTxHash] }

/-- The loop over the work queue from its `i`-th entry on; `none` where the fuel is used up. -/
def releaseOrphanTxs : Nat → Nat → Release → Option Release
  | fuel, i, r =>
      match r.vWorkQueue[i]? with
      | none => some r
      | some hashPrev =>
          match fuel with
          | 0 => none
          | fuel + 1 =>
              releaseOrphanTxs fuel (i + 1)
                ((r.orphans.waiting hashPrev).foldl (tryOrphan env policy) { r with orphans := r.orphans.touch hashPrev })

/-- What the `tx` message changes: the node, by its memory pool, and the orphans. -/
structure TxNode where
  node : Node
  orphans : OrphanTxs

/-- The queues after the release that follows an accepted transaction. Every orphan can be accepted once. -/
def releaseFor (s : TxNode) (node : Node) (tx : CTransaction) : Option Release :=
  releaseOrphanTxs env policy (s.orphans.size + 1) 0 ⟨node, s.orphans, [env.txHash tx], [env.txHash tx]⟩

/-- The `tx` message. -/
def processTx (getRandHash : Nat → UInt256) (s : TxNode) (tx : CTransaction) : Option TxNode :=
  match acceptToMemoryPool env policy s.node tx with
  | some node =>
      (releaseFor env policy s node tx).map fun r => ⟨r.node, r.vEraseQueue.foldl OrphanTxs.eraseOrphanTx r.orphans⟩
  | none =>
      if missingInputs env policy s.node tx then
        let orphans := s.orphans.addOrphanTx env tx
        some { s with orphans := orphans.limitOrphanTxSize maxOrphanTransactions orphans.size getRandHash }
      else some s

end Message

end InfiniteRicks
