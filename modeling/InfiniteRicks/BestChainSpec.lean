import InfiniteRicks.BestChain

/-!
# What a chain switch leaves behind

`codeConnector` is the `Connector` of the source. A switch that returns false has
changed nothing but the batch it abandons and the record of the heaviest invalid
chain (`setBestChain_error`).
-/

namespace InfiniteRicks

open CBlock (Frame)

section Frames

variable {env : Env} {s after : Node}

theorem CBlock.Frame.refl (s : Node) : Frame s s := ⟨rfl, CTxDB.Queues.refl _⟩

theorem CBlock.Frame.trans {first second third : Node} (left : Frame first second)
    (right : Frame second third) : Frame first third := by
  refine ⟨?_, left.queues.trans right.queues⟩
  rw [right.rest, left.rest]

theorem CTransaction.queues_unspendInputs {vin : List CTxIn} {txdb result : CTxDB}
    (unspent : unspendInputs vin txdb = .ok result ∨ unspendInputs vin txdb = .error result) :
    CTxDB.Queues txdb result := by
  induction vin generalizing txdb with
  | nil =>
      simp only [unspendInputs, Except.ok.injEq, reduceCtorEq, or_false] at unspent
      exact unspent ▸ CTxDB.Queues.refl txdb
  | cons txin rest ih =>
      simp only [unspendInputs] at unspent
      split at unspent
      · simp only [reduceCtorEq, Except.error.injEq, false_or] at unspent
        exact unspent ▸ CTxDB.Queues.refl txdb
      · split at unspent
        · simp only [reduceCtorEq, Except.error.injEq, false_or] at unspent
          exact unspent ▸ CTxDB.Queues.refl txdb
        · exact (CTxDB.queues_write _ _ _).trans (ih unspent)

theorem CTransaction.queues_disconnectInputs {tx : CTransaction} {txdb result : CTxDB}
    (undone : tx.disconnectInputs env txdb = .ok result ∨ tx.disconnectInputs env txdb = .error result) :
    CTxDB.Queues txdb result := by
  unfold disconnectInputs at undone
  split at undone
  · rename_i failed inputs
    simp only [reduceCtorEq, Except.error.injEq, false_or] at undone
    subst undone
    split at inputs
    · cases inputs
    · exact queues_unspendInputs (Or.inr inputs)
  · rename_i unspent inputs
    simp only [Except.ok.injEq, reduceCtorEq, or_false] at undone
    subst undone
    refine CTxDB.Queues.trans ?_ (CTxDB.queues_erase _ _)
    split at inputs
    · cases inputs
      exact CTxDB.Queues.refl _
    · exact queues_unspendInputs (Or.inl inputs)

theorem CBlock.queues_disconnectTxs {vtx : List CTransaction} {txdb result : CTxDB}
    (undone : disconnectTxs env vtx txdb = .ok result ∨ disconnectTxs env vtx txdb = .error result) :
    CTxDB.Queues txdb result := by
  induction vtx generalizing txdb with
  | nil =>
      simp only [disconnectTxs, Except.ok.injEq, reduceCtorEq, or_false] at undone
      exact undone ▸ CTxDB.Queues.refl txdb
  | cons tx rest ih =>
      simp only [disconnectTxs] at undone
      split at undone
      · rename_i failed step
        simp only [reduceCtorEq, Except.error.injEq, false_or] at undone
        subst undone
        exact CTransaction.queues_disconnectInputs (Or.inr step)
      · rename_i next step
        exact (CTransaction.queues_disconnectInputs (Or.inl step)).trans (ih undone)

theorem CBlock.frame_disconnectBlock {block : CBlock} {pprev : BlockPtr}
    (undone : block.disconnectBlock env s pprev = .ok after ∨
      block.disconnectBlock env s pprev = .error after) : Frame s after := by
  unfold disconnectBlock at undone
  split at undone
  · rename_i txdb failed
    simp only [reduceCtorEq, Except.error.injEq, false_or] at undone
    subst undone
    exact ⟨rfl, queues_disconnectTxs (Or.inr failed)⟩
  · rename_i txdb succeeded
    simp only [Except.ok.injEq, reduceCtorEq, or_false] at undone
    subst undone
    refine ⟨rfl, (queues_disconnectTxs (Or.inl succeeded)).trans ?_⟩
    cases pprev with
    | nil => exact CTxDB.Queues.refl _
    | cons prev grand => exact CTxDB.queues_write _ _ _

end Frames

/-- `ConnectBlock` and `DisconnectBlock` at an entry. -/
def codeConnector (env : Env) : Connector where
  connect s block pindex :=
    match pindex with
    | [] => none
    | entry :: pprev => block.connectBlock env s entry pprev
  disconnect s block pindex :=
    match pindex with
    | [] => .error s
    | _ :: pprev => block.disconnectBlock env s pprev
  connectFrame := by
    intro s after block pindex connected
    cases pindex with
    | nil => cases connected
    | cons entry pprev => exact (CBlock.connectBlock_spec connected).frame
  disconnectFrame := by
    intro s after block pindex undone
    cases pindex with
    | nil => cases undone
    | cons entry pprev => exact CBlock.frame_disconnectBlock (Or.inl undone)
  failedFrame := by
    intro s after block pindex failed
    cases pindex with
    | nil =>
        cases failed
        exact CBlock.Frame.refl s
    | cons entry pprev => exact CBlock.frame_disconnectBlock (Or.inr failed)

/-- What an accepted transaction has passed, and what accepting it did. -/
structure Accepted (env : Env) (s : Node) (tx : CTransaction) (after : Node) : Prop where
  wellFormed : tx.checkTransaction = true
  notCoinBase : tx.isCoinBase = false
  unpooled : s.mempool.contains (env.txHash tx) = false
  unlinked : ∀ txin ∈ tx.vin, s.mempool.mapNextTx txin.prevout = none
  unconfirmed : s.txdb.fresh.containsTx (env.txHash tx) = false
  spendable : ∃ mapInputs queued, tx.fetchInputs s s.txdb.fresh ∅ false false = .ok mapInputs ∧
    tx.connectInputs env s.nBestHeight mapInputs ∅ CDiskTxPos.memoryPool s.pindexBest false false =
      some queued
  result : after = { s with mempool := s.mempool.addUnchecked (env.txHash tx) tx }

theorem acceptToMemoryPool_cases {env : Env} {policy : Policy} {s after : Node} {tx : CTransaction}
    (accepted : acceptToMemoryPool env policy s tx = some after) : Accepted env s tx after := by
  unfold acceptToMemoryPool at accepted
  split at accepted
  · cases accepted
  rename_i tests
  split at accepted
  · cases accepted
  rename_i mapInputs fetched
  split at accepted
  · cases accepted
  split at accepted
  · cases accepted
  split at accepted
  · cases accepted
  rename_i queued connected
  cases accepted
  simp only [acceptable, Bool.not_eq_true', Bool.not_eq_false, Bool.and_eq_true, List.all_eq_true,
    Option.isNone_iff_eq_none] at tests
  obtain ⟨⟨⟨⟨⟨⟨wellFormed, notCoinBase⟩, -⟩, -⟩, unpooled⟩, unlinked⟩, unconfirmed⟩ := tests
  exact ⟨wellFormed, notCoinBase, unpooled, unlinked, unconfirmed, ⟨mapInputs, queued, fetched, connected⟩, rfl⟩

/-- The chain, the pool and the committed database are as they were, but for the
record of the heaviest invalid chain. -/
structure Kept (s after : Node) : Prop where
  mapBlockIndex : after.mapBlockIndex = s.mapBlockIndex
  pnext : after.pnext = s.pnext
  pindexGenesisBlock : after.pindexGenesisBlock = s.pindexGenesisBlock
  pindexBest : after.pindexBest = s.pindexBest
  hashBestChain : after.hashBestChain = s.hashBestChain
  nBestHeight : after.nBestHeight = s.nBestHeight
  nBestChainTrust : after.nBestChainTrust = s.nBestChainTrust
  mempool : after.mempool = s.mempool
  files : after.files = s.files
  store : ∀ key, key ≠ .bnBestInvalidTrust → after.txdb.pdb key = s.txdb.pdb key

theorem Kept.refl (s : Node) : Kept s s := ⟨rfl, rfl, rfl, rfl, rfl, rfl, rfl, rfl, rfl, fun _ _ => rfl⟩

theorem Kept.trans {first second third : Node} (left : Kept first second) (right : Kept second third) :
    Kept first third where
  mapBlockIndex := right.mapBlockIndex.trans left.mapBlockIndex
  pnext := right.pnext.trans left.pnext
  pindexGenesisBlock := right.pindexGenesisBlock.trans left.pindexGenesisBlock
  pindexBest := right.pindexBest.trans left.pindexBest
  hashBestChain := right.hashBestChain.trans left.hashBestChain
  nBestHeight := right.nBestHeight.trans left.nBestHeight
  nBestChainTrust := right.nBestChainTrust.trans left.nBestChainTrust
  mempool := right.mempool.trans left.mempool
  files := right.files.trans left.files
  store key other := (right.store key other).trans (left.store key other)

section Switches

variable {env : Env} {policy : Policy} {c : Connector} {s after : Node}

/-- The database has a batch and the batch has not been applied. -/
def Batching (s : Node) : Prop := s.txdb.activeBatch.isSome

theorem CBlock.Frame.batching (frame : Frame s after) (active : Batching s) : Batching after := by
  obtain ⟨batch, present⟩ := Option.isSome_iff_exists.mp active
  obtain ⟨more, queued⟩ := frame.queues batch present
  simp [Batching, queued]

/-- Work on a batch leaves the committed state alone. -/
theorem CBlock.Frame.kept (frame : Frame s after) (active : Batching s) : Kept s after := by
  obtain ⟨batch, present⟩ := Option.isSome_iff_exists.mp active
  obtain ⟨more, queued⟩ := frame.queues batch present
  have store : ∀ key, after.txdb.pdb key = s.txdb.pdb key := by
    intro key
    rw [queued]
  rw [frame.rest]
  exact ⟨rfl, rfl, rfl, rfl, rfl, rfl, rfl, rfl, rfl, fun key _ => store key⟩

theorem kept_txnBegin (s : Node) : Kept s s.txnBegin :=
  ⟨rfl, rfl, rfl, rfl, rfl, rfl, rfl, rfl, rfl, fun _ _ => rfl⟩

theorem kept_txnAbort (s : Node) : Kept s s.txnAbort :=
  ⟨rfl, rfl, rfl, rfl, rfl, rfl, rfl, rfl, rfl, fun _ _ => rfl⟩

theorem batching_txnBegin (s : Node) : Batching s.txnBegin := rfl

theorem kept_invalidChainFound (s : Node) (pindexNew : BlockPtr) : Kept s (invalidChainFound s pindexNew) := by
  unfold invalidChainFound
  split
  · exact Kept.refl s
  · split
    · refine ⟨rfl, rfl, rfl, rfl, rfl, rfl, rfl, rfl, rfl, ?_⟩
      intro key other
      simp [CTxDB.fresh, CTxDB.writeBestInvalidTrust, CTxDB.write, Function.update_of_ne other]
    · exact Kept.refl s

/-- A commit that fails leaves the store as it was. -/
theorem kept_of_commitBest {hash : UInt256} (active : Batching s) (failed : s.commitBest hash = .error after) :
    Kept s after := by
  simp only [Node.commitBest] at failed
  split at failed
  · cases failed
  · rename_i status
    cases failed
    refine ⟨rfl, rfl, rfl, rfl, rfl, rfl, rfl, rfl, rfl, ?_⟩
    intro key _
    obtain ⟨batch, present⟩ := Option.isSome_iff_exists.mp active
    simp only [CTxDB.txnCommit, Bool.not_eq_true] at status
    simp only [Node.withTxdb, CTxDB.txnCommit, status, Bool.false_eq_true, if_false]
    simp [CTxDB.writeHashBestChain, CTxDB.write, present]

/-- A commit that succeeds makes the view, with the new best hash, the store. -/
theorem commitBest_ok {hash : UInt256} (committed : s.commitBest hash = .ok after) :
    after = s.withTxdb after.txdb ∧
      after.txdb.pdb = Function.update s.txdb.view .hashBestChain (some (.hash hash)) := by
  simp only [Node.commitBest] at committed
  split at committed
  · rename_i status
    cases committed
    refine ⟨rfl, ?_⟩
    rw [← CTxDB.view_write]
    simp only [CTxDB.txnCommit] at status
    simp only [Node.withTxdb, CTxDB.txnCommit, status, if_true]
    rfl
  · cases committed

theorem txIndex_fresh_of_commitBest {hash : UInt256} (committed : s.commitBest hash = .ok after) :
    after.txdb.fresh.txIndex = s.txdb.txIndex := by
  funext id
  rw [CTxDB.txIndex_eq, CTxDB.txIndex_eq, CTxDB.view_of_no_batch rfl]
  change CTxDB.txIndexOf (after.txdb.pdb (.tx id)) = _
  rw [(commitBest_ok committed).2, Function.update_of_ne (by simp)]

theorem txIndex_txnBegin (s : Node) : s.txnBegin.txdb.txIndex = s.txdb.fresh.txIndex := by
  funext id
  rw [CTxDB.txIndex_eq, CTxDB.txIndex_eq]
  rfl

theorem frame_disconnectBranch (result : List CTransaction) {vDisconnect : List BlockPtr}
    {vResurrect : List CTransaction}
    (undone : disconnectBranch env c vDisconnect s vResurrect = .ok (after, result) ∨
      disconnectBranch env c vDisconnect s vResurrect = .error after) : Frame s after := by
  induction vDisconnect generalizing s vResurrect with
  | nil =>
      simp only [disconnectBranch, Except.ok.injEq, Prod.mk.injEq, reduceCtorEq, or_false] at undone
      exact undone.1 ▸ CBlock.Frame.refl s
  | cons pindex rest ih =>
      simp only [disconnectBranch] at undone
      split at undone
      · simp only [reduceCtorEq, Except.error.injEq, false_or] at undone
        exact undone ▸ CBlock.Frame.refl s
      · split at undone
        · rename_i failed step
          simp only [reduceCtorEq, Except.error.injEq, false_or] at undone
          subst undone
          exact c.failedFrame step
        · rename_i next step
          exact (c.disconnectFrame step).trans (ih undone)

theorem frame_connectBranch (result : List CTransaction) {vConnect : List BlockPtr}
    {vDelete : List CTransaction}
    (done : connectBranch env c vConnect s vDelete = .ok (after, result) ∨
      connectBranch env c vConnect s vDelete = .error after) : Frame s after := by
  induction vConnect generalizing s vDelete with
  | nil =>
      simp only [connectBranch, Except.ok.injEq, Prod.mk.injEq, reduceCtorEq, or_false] at done
      exact done.1 ▸ CBlock.Frame.refl s
  | cons pindex rest ih =>
      simp only [connectBranch] at done
      split at done
      · simp only [reduceCtorEq, Except.error.injEq, false_or] at done
        exact done ▸ CBlock.Frame.refl s
      · split at done
        · simp only [reduceCtorEq, Except.error.injEq, false_or] at done
          exact done ▸ CBlock.Frame.refl s
        · rename_i next step
          exact (c.connectFrame step).trans (ih done)

theorem connectBranch_append (first second : List BlockPtr) (s : Node) (vDelete : List CTransaction) :
    connectBranch env c (first ++ second) s vDelete =
      match connectBranch env c first s vDelete with
      | .error s => .error s
      | .ok (s, vDelete) => connectBranch env c second s vDelete := by
  induction first generalizing s vDelete with
  | nil => rfl
  | cons pindex rest ih =>
      simp only [List.cons_append, connectBranch]
      split
      · rfl
      · split
        · rfl
        · exact ih _ _

theorem connectSecondary_append (first second : List BlockPtr) (s : Node) :
    connectSecondary env c (first ++ second) s =
      match connectSecondary env c first s with
      | .error s => .error s
      | .ok s => connectSecondary env c second s := by
  induction first generalizing s with
  | nil => rfl
  | cons pindex rest ih =>
      simp only [List.cons_append, connectSecondary]
      split
      · rfl
      · split
        · rfl
        · exact ih _

theorem kept_of_reorganize {pindexNew : BlockPtr} (active : Batching s)
    (failed : reorganize env policy c s pindexNew = .error after) : Kept s after := by
  simp only [reorganize] at failed
  split at failed
  · cases failed
    exact Kept.refl s
  split at failed
  · rename_i broken undone
    cases failed
    exact (frame_disconnectBranch [] (Or.inr undone)).kept active
  rename_i middle vResurrect undone
  have down := frame_disconnectBranch _ (Or.inl undone)
  split at failed
  · rename_i broken done
    cases failed
    exact (down.trans (frame_connectBranch [] (Or.inr done))).kept active
  rename_i top vDelete done
  have up := down.trans (frame_connectBranch _ (Or.inl done))
  split at failed
  · rename_i broken commit
    cases failed
    exact (up.kept active).trans (kept_of_commitBest (up.batching active) commit)
  · cases failed

theorem kept_of_setBestChainInner {block : CBlock} {pindexNew : BlockPtr} (active : Batching s)
    (failed : setBestChainInner env c s block pindexNew = .error after) : Kept s after := by
  simp only [setBestChainInner] at failed
  split at failed
  · cases failed
    exact (kept_txnAbort s).trans (kept_invalidChainFound _ _)
  rename_i next step
  have frame := c.connectFrame step
  split at failed
  · rename_i broken commit
    cases failed
    exact (frame.kept active).trans (kept_of_commitBest (frame.batching active) commit)
  · cases failed

/-- A `SetBestChain` that returns false has changed nothing of the chain, the pool
and the committed database but the record of the heaviest invalid chain. -/
theorem setBestChain_error {block : CBlock} {pindexNew : BlockPtr}
    (failed : setBestChain env policy c s block pindexNew = .error after) : Kept s after := by
  simp only [setBestChain] at failed
  split at failed
  · split at failed
    · rename_i broken commit
      cases failed
      exact (kept_txnBegin s).trans (kept_of_commitBest (batching_txnBegin s) commit)
    · cases failed
  split at failed
  · split at failed
    · rename_i broken inner
      cases failed
      exact (kept_txnBegin s).trans (kept_of_setBestChainInner (batching_txnBegin s) inner)
    · cases failed
  · split at failed
    · rename_i broken switch
      cases failed
      exact ((kept_txnBegin s).trans (kept_of_reorganize (batching_txnBegin s) switch)).trans
        ((kept_txnAbort _).trans (kept_invalidChainFound _ _))
    · cases failed

end Switches

/-- The parts of a node that chain switching leaves alone until it is done. -/
structure SameBest (s after : Node) : Prop where
  mapBlockIndex : after.mapBlockIndex = s.mapBlockIndex
  pindexGenesisBlock : after.pindexGenesisBlock = s.pindexGenesisBlock
  pindexBest : after.pindexBest = s.pindexBest
  hashBestChain : after.hashBestChain = s.hashBestChain
  files : after.files = s.files

section Successes

variable {env : Env} {policy : Policy} {c : Connector} {s after : Node}

/-- A block is read from the files and nothing else. -/
theorem readBlock_of_files (same : after.files = s.files) (pindex : BlockPtr) :
    readBlock env after pindex = readBlock env s pindex := by
  cases pindex with
  | nil => rfl
  | cons entry pprev => simp only [readBlock, Node.readFromDisk, Node.readBlockAt, same]

theorem SameBest.refl (s : Node) : SameBest s s := ⟨rfl, rfl, rfl, rfl, rfl⟩

theorem SameBest.trans {first second third : Node} (left : SameBest first second)
    (right : SameBest second third) : SameBest first third :=
  ⟨right.1.trans left.1, right.2.trans left.2, right.3.trans left.3, right.4.trans left.4, right.5.trans left.5⟩

theorem sameBest_txnBegin (s : Node) : SameBest s s.txnBegin := ⟨rfl, rfl, rfl, rfl, rfl⟩

theorem SameBest.of_kept (kept : Kept s after) : SameBest s after :=
  ⟨kept.mapBlockIndex, kept.pindexGenesisBlock, kept.pindexBest, kept.hashBestChain, kept.files⟩

theorem SameBest.of_frame (frame : Frame s after) : SameBest s after := by
  rw [frame.rest]
  exact ⟨rfl, rfl, rfl, rfl, rfl⟩

theorem SameBest.of_commitBest {hash : UInt256} (committed : s.commitBest hash = .ok after) :
    SameBest s after := by
  rw [(commitBest_ok committed).1]
  exact ⟨rfl, rfl, rfl, rfl, rfl⟩

/-- A resurrected transaction changes nothing but the pool. -/
theorem resurrect_rest (s : Node) (tx : CTransaction) :
    resurrect env policy s tx = { s with mempool := (resurrect env policy s tx).mempool } := by
  unfold resurrect
  cases accepted : acceptToMemoryPool env policy s tx with
  | none => rfl
  | some next =>
      rw [Option.getD_some, (acceptToMemoryPool_cases accepted).result]

theorem foldl_resurrect_rest (s : Node) (vResurrect : List CTransaction) :
    vResurrect.foldl (resurrect env policy) s =
      { s with mempool := (vResurrect.foldl (resurrect env policy) s).mempool } := by
  induction vResurrect generalizing s with
  | nil => rfl
  | cons tx rest ih =>
      rw [List.foldl_cons, ih]
      rw [resurrect_rest]

/-- What a `Reorganize` that returns true has done. -/
theorem reorganize_ok {pindexNew : BlockPtr} (switched : reorganize env policy c s pindexNew = .ok after) :
    ∃ pfork middle vResurrect top vDelete committed,
      findFork s.pindexBest pindexNew = some pfork ∧
      disconnectBranch env c (pathTo pfork s.pindexBest) s [] = .ok (middle, vResurrect) ∧
      connectBranch env c (pathTo pfork pindexNew).reverse middle [] = .ok (top, vDelete) ∧
      top.commitBest ((pindexNew.head?.map CBlockIndex.hash).getD 0) = .ok committed ∧
      after = { committed with
        pnext := (pathTo pfork pindexNew).reverse.foldl linkNext
          ((pathTo pfork s.pindexBest).foldl unlinkNext committed.pnext)
        mempool := vDelete.foldl (removeConfirmed env)
          (vResurrect.foldl (resurrect env policy)
            { committed with
              pnext := (pathTo pfork pindexNew).reverse.foldl linkNext
                ((pathTo pfork s.pindexBest).foldl unlinkNext committed.pnext) }).mempool } := by
  simp only [reorganize] at switched
  split at switched
  · cases switched
  rename_i pfork fork
  split at switched
  · cases switched
  rename_i middle vResurrect undone
  split at switched
  · cases switched
  rename_i top vDelete done
  split at switched
  · cases switched
  rename_i committed commit
  refine ⟨pfork, middle, vResurrect, top, vDelete, committed, fork, undone, done, commit, ?_⟩
  cases switched
  rw [foldl_resurrect_rest]

/-- What a `SetBestChainInner` that returns true has done. -/
theorem setBestChainInner_ok {block : CBlock} {pindexNew : BlockPtr}
    (extended : setBestChainInner env c s block pindexNew = .ok after) :
    ∃ next committed, c.connect s block pindexNew = some next ∧
      next.commitBest (block.getHash env) = .ok committed ∧
      after = { committed with
        pnext := linkNext committed.pnext pindexNew
        mempool := block.vtx.foldl (fun pool tx => pool.remove env tx) committed.mempool } := by
  simp only [setBestChainInner] at extended
  split at extended
  · cases extended
  rename_i next step
  split at extended
  · cases extended
  rename_i committed commit
  cases extended
  exact ⟨next, committed, step, commit, rfl⟩

theorem SameBest.of_reorganize {pindexNew : BlockPtr}
    (switched : reorganize env policy c s pindexNew = .ok after) : SameBest s after := by
  obtain ⟨pfork, middle, vResurrect, top, vDelete, committed, -, undone, done, commit, rfl⟩ :=
    reorganize_ok switched
  have down := SameBest.of_frame (frame_disconnectBranch _ (Or.inl undone))
  have up := SameBest.of_frame (frame_connectBranch _ (Or.inl done))
  exact (down.trans up).trans ((SameBest.of_commitBest commit).trans ⟨rfl, rfl, rfl, rfl, rfl⟩)

theorem SameBest.of_setBestChainInner {block : CBlock} {pindexNew : BlockPtr}
    (extended : setBestChainInner env c s block pindexNew = .ok after) : SameBest s after := by
  obtain ⟨next, committed, step, commit, rfl⟩ := setBestChainInner_ok extended
  have up := SameBest.of_frame (c.connectFrame step)
  exact (up.trans (SameBest.of_commitBest commit)).trans ⟨rfl, rfl, rfl, rfl, rfl⟩

/-- The loop over the postponed blocks, left by `break` or not. -/
theorem sameBest_connectSecondary (vpindexSecondary : List BlockPtr) (s : Node) :
    SameBest s (afterLoop (connectSecondary env c vpindexSecondary s)) := by
  induction vpindexSecondary generalizing s with
  | nil => exact SameBest.refl s
  | cons pindex rest ih =>
      simp only [connectSecondary]
      split
      · exact SameBest.refl s
      · split
        · rename_i broken failed
          exact SameBest.of_kept ((kept_txnBegin s).trans (kept_of_setBestChainInner (batching_txnBegin s) failed))
        · rename_i next extended
          exact ((sameBest_txnBegin s).trans (SameBest.of_setBestChainInner extended)).trans (ih next)

/-- A `SetBestChain` that returns true after genesis ends by making the new block the
best one. -/
theorem setBestChain_ok {block : CBlock} {pindexNew : BlockPtr} (started : s.pindexGenesisBlock ≠ [])
    (switched : setBestChain env policy c s block pindexNew = .ok after) :
    ∃ middle, SameBest s middle ∧ after = newBest env middle block pindexNew := by
  have notFirst : ¬(s.txnBegin.pindexGenesisBlock = [] ∧ block.getHash env = env.hashGenesisBlock) :=
    fun first => started first.1
  simp only [setBestChain, notFirst, if_false] at switched
  split at switched
  · split at switched
    · cases switched
    rename_i middle extended
    cases switched
    exact ⟨middle, (sameBest_txnBegin s).trans (SameBest.of_setBestChainInner extended), rfl⟩
  · split at switched
    · cases switched
    rename_i middle reorganized
    cases switched
    exact ⟨_, ((sameBest_txnBegin s).trans (SameBest.of_reorganize reorganized)).trans
      (sameBest_connectSecondary _ _), rfl⟩

end Successes

/-- When `SetBestChain` returns false, at whatever block of the branch and for whatever
reason, the committed database but for the record of the heaviest invalid chain, the
links of the block index, the best block and the memory pool are as before the call. -/
theorem setBestChain_failure_atomic {env : Env} {policy : Policy} {s after : Node} {block : CBlock}
    {pindexNew : BlockPtr}
    (failed : setBestChain env policy (codeConnector env) s block pindexNew = .error after) :
    (∀ key, key ≠ .bnBestInvalidTrust → after.txdb.pdb key = s.txdb.pdb key) ∧
      after.pnext = s.pnext ∧ after.pindexBest = s.pindexBest ∧ after.hashBestChain = s.hashBestChain ∧
      after.nBestHeight = s.nBestHeight ∧ after.nBestChainTrust = s.nBestChainTrust ∧
      after.mempool = s.mempool := by
  have kept := setBestChain_error failed
  exact ⟨kept.store, kept.pnext, kept.pindexBest, kept.hashBestChain, kept.nBestHeight,
    kept.nBestChainTrust, kept.mempool⟩

section Concrete

/-- A policy under which every transaction may be relayed. -/
def Policy.lax : Policy := ⟨fun _ => true, fun _ _ => true, fun _ => false⟩

/-- A small block tree of the test network, by label: the parent's hash, the height,
the chain trust, and the value and further transactions that the block has. -/
def smallBlock (label : UInt32) (hashPrevBlock : UInt256) (nReward : Int64) (vtx : List CTransaction) : CBlock :=
  .labelled label hashPrevBlock 1000 0x1f00ffff
    (.labelledCoinBase (100 + label) 1000 [0x51, 0] [⟨nReward, [0x51]⟩] :: vtx)

def smallEntry (label : UInt32) (nHeight : Int) (nChainTrust : UInt256) : CBlockIndex :=
  .labelled label nHeight nChainTrust false 1000 0x1f00ffff

def smallGenesis : CBlock := smallBlock 0 0 0 []

def smallRoot : BlockPtr := [{ smallEntry 0 0 1 with hash := genesisHash true }]

/-- A node that has not started, with the given blocks on disk. -/
def smallInitial (blocks : List CBlock) : Node :=
  .initial ⟨fun _ => none, fun _ nBlockPos => blocks.find? fun block => 1000 * block.nNonce = nBlockPos⟩
    (fun _ => true) 1000

/-- One call of `SetBestChain`. -/
def smallSwitch (s : Node) (block : CBlock) (pindexNew : BlockPtr) : Except Node Node :=
  setBestChain (Env.labelled true) .lax (codeConnector (Env.labelled true)) s block pindexNew

/-- The node once it has started from genesis. -/
def smallNode (blocks : List CBlock) : Node :=
  afterLoop (smallSwitch (smallInitial blocks) smallGenesis smallRoot)

/-- Whether a call returned true, and an observation of the state it left. -/
def observe {α : Type} (look : Node → α) : Except Node Node → Bool × α
  | .error s => (false, look s)
  | .ok s => (true, look s)

theorem value_of_observe {α : Type} {look : Node → α} {returned : Bool} {value : α}
    {result : Except Node Node} (observed : observe look result = (returned, value)) :
    look (afterLoop result) = value := by
  cases result with
  | error s => exact congrArg Prod.snd observed
  | ok s => exact congrArg Prod.snd observed

/-- A call that returned true is one with the state it left. -/
theorem ok_of_observe {α : Type} {look : Node → α} {value : α} {result : Except Node Node}
    (observed : observe look result = (true, value)) : result = .ok (afterLoop result) := by
  cases result with
  | error s => cases observed
  | ok s => rfl

/-- A block on genesis whose coinbase takes too much. -/
def greedy : CBlock := smallBlock 1 (genesisHash true) (1001 * coin) []

def greedyEntry : BlockPtr := smallEntry 1 1 2 :: smallRoot

/-- A failed extension writes the record of the heaviest invalid chain to the
committed database. -/
theorem failed_switch_writes :
    ((smallNode [greedy]).txdb.pdb .bnBestInvalidTrust).isSome = false ∧
      observe (fun s => (s.txdb.pdb .bnBestInvalidTrust).isSome)
        (smallSwitch (smallNode [greedy]) greedy greedyEntry) = (false, true) := by
  decide +kernel

/-- The same failure leaves the best block alone. -/
theorem failed_switch_keeps_best :
    ∃ after, smallSwitch (smallNode [greedy]) greedy greedyEntry = .error after ∧
      after.pindexBest = (smallNode [greedy]).pindexBest := by
  have failed : (observe (fun _ => ()) (smallSwitch (smallNode [greedy]) greedy greedyEntry)).1 = false := by
    decide +kernel
  cases result : smallSwitch (smallNode [greedy]) greedy greedyEntry with
  | ok after =>
      rw [result] at failed
      cases failed
  | error after => exact ⟨after, rfl, (setBestChain_failure_atomic result).2.2.1⟩

end Concrete

end InfiniteRicks
