import InfiniteRicks.Template

/-!
# The containers of a template

`CreateNewBlock` (`miner.cpp`) with `vOrphan`, `mapDependers` and the pointers between them. A transaction
that waits for the pool is in both. One whose missing input is found afterwards leaves `vOrphan` only,
and `mapDependers` keeps its pointer.
-/

namespace InfiniteRicks

/-- The containers of the collection. A `COrphan*` is the number of its `COrphan` among all that were made. -/
structure PoolQueues where
  vOrphan : List (Nat × COrphan)
  mapDependers : UInt256 → List Nat
  vecPriority : List CTransaction
  nMade : Nat

namespace PoolQueues

def empty : PoolQueues := ⟨[], fun _ => [], [], 0⟩

/-- `vOrphan.push_back(COrphan(&tx))`. -/
def pushOrphan (q : PoolQueues) (tx : CTransaction) : PoolQueues :=
  { q with vOrphan := q.vOrphan ++ [(q.nMade, ⟨tx, []⟩)], nMade := q.nMade + 1 }

/-- `vOrphan.pop_back()`. -/
def popOrphan (q : PoolQueues) : PoolQueues := { q with vOrphan := q.vOrphan.dropLast }

/-- A `COrphan` is written through a pointer to it. -/
def write (q : PoolQueues) (porphan : Nat) (setDependsOn : List UInt256 → List UInt256) : PoolQueues :=
  { q with
    vOrphan := q.vOrphan.map fun entry =>
      if entry.1 = porphan then (entry.1, ⟨entry.2.ptx, setDependsOn entry.2.setDependsOn⟩) else entry }

/-- `mapDependers[hash].push_back(porphan)`, and the hash goes into the set of the orphan. -/
def dependOn (q : PoolQueues) (porphan : Nat) (hash : UInt256) : PoolQueues :=
  { q.write porphan (List.insert hash) with
    mapDependers := Function.update q.mapDependers hash (q.mapDependers hash ++ [porphan]) }

section Collect

variable (fDebug : Bool) (s : Node)

/-- The loop over the inputs, with `porphan`: `fMissingInputs`, `porphan` and the containers. With `fDebug` a missing
input fails an assertion. -/
def collectInputs (tx : CTransaction) : List CTxIn → Option Nat → PoolQueues → Option (Bool × Option Nat × PoolQueues)
  | [], porphan, q => some (false, porphan, q)
  | txin :: rest, porphan, q =>
      if (readPrevTx s txin.prevout).isSome then collectInputs tx rest porphan q
      else if !s.mempool.contains txin.prevout.hash then
        if fDebug then none else some (true, porphan, if porphan.isSome then q.popOrphan else q)
      else
        match porphan with
        | some porphan => collectInputs tx rest (some porphan) (q.dependOn porphan txin.prevout.hash)
        | none => collectInputs tx rest (some q.nMade) ((q.pushOrphan tx).dependOn q.nMade txin.prevout.hash)

/-- Whether the collection looks at the inputs of a pool transaction. -/
def considered (nHeight : Int) (tx : CTransaction) : Bool :=
  !(tx.isCoinBase || tx.isCoinStake || !isFinalTx s tx nHeight 0)

/-- One round of the collection. -/
def collectTx (nHeight : Int) (q : PoolQueues) (tx : CTransaction) : Option PoolQueues :=
  if !considered s nHeight tx then some q
  else
    match collectInputs fDebug s tx tx.vin none q with
    | none => none
    | some (fMissingInputs, porphan, q) =>
        if fMissingInputs then some q
        else if porphan.isSome then some q
        else some { q with vecPriority := q.vecPriority ++ [tx] }

/-- The collection; `none` is the failed assertion. -/
def collectPool (nHeight : Int) : Option PoolQueues :=
  (s.mempool.mapTx.entries.map Sigma.snd).foldlM (collectTx fDebug s nHeight) empty

end Collect

/-- One pointer of `mapDependers[hash]` when the transaction is in the block; `none` where its `COrphan` is gone. -/
def releaseOne (hash : UInt256) (q : PoolQueues) (porphan : Nat) : Option PoolQueues :=
  match q.vOrphan.lookup porphan with
  | none => none
  | some orphan =>
      if orphan.setDependsOn.isEmpty then some q
      else
        let q := q.write porphan (·.erase hash)
        if (orphan.setDependsOn.erase hash).isEmpty then some { q with vecPriority := q.vecPriority ++ [orphan.ptx] }
        else some q

/-- The transactions that depend on one in the block go into the queue. -/
def release (q : PoolQueues) (hash : UInt256) : Option PoolQueues := (q.mapDependers hash).foldlM (releaseOne hash) q

/-- What the selection loop makes of the containers: each round takes a transaction off the queue, and releases those
that wait for it where it goes into the block. -/
inductive Selects (env : Env) (start : PoolQueues) : PoolQueues → Prop where
  | refl : Selects env start start
  | skip {q : PoolQueues} (i : Nat) (run : Selects env start q) :
      Selects env start { q with vecPriority := q.vecPriority.eraseIdx i }
  | add {q q' : PoolQueues} {i : Nat} {tx : CTransaction} (run : Selects env start q) (front : q.vecPriority[i]? =
    some tx)
      (released : PoolQueues.release { q with vecPriority := q.vecPriority.eraseIdx i } (env.txHash tx) = some q') :
      Selects env start q'

end PoolQueues

end InfiniteRicks
