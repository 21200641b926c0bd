import InfiniteRicks.Consistency

/-!
# Wallet notifications

`ConnectBlock` and `DisconnectBlock` call `SyncWithWallets` inside the batch they work
in, before it is committed. The wallets have therefore seen every block that any batch
connected or disconnected (`walletLog_setBestChain`), and this is the committed history
as long as no batch is given up after it has connected or disconnected a block.
-/

namespace InfiniteRicks

/-- A block that a batch connects or disconnects. -/
inductive BlockEvent where
  | connected (block : CBlock)
  | disconnected (block : CBlock)

/-- The `SyncWithWallets` calls for the transactions of the block. -/
def BlockEvent.notices : BlockEvent → List WalletNotice
  | .connected block => block.vtx.map fun tx => ⟨tx, block, true, true⟩
  | .disconnected block => block.vtx.map fun tx => ⟨tx, block, false, false⟩

/-- One batch of a chain switch: what was connected and disconnected in it, and whether
it was committed. -/
structure Batch where
  events : List BlockEvent
  committed : Bool

/-- The notifications for the blocks of some batches. -/
def notices (batches : List Batch) : List WalletNotice :=
  batches.flatMap fun batch => batch.events.flatMap BlockEvent.notices

/-- The batches that were committed. -/
def committed (batches : List Batch) : List Batch := batches.filter Batch.committed

section Batches

variable (env : Env) (policy : Policy) (c : Connector)

/-- The blocks that the disconnection loop of `Reorganize` gets through. -/
def disconnectEvents : List BlockPtr → Node → List BlockEvent
  | [], _ => []
  | pindex :: rest, s =>
      match readBlock env s pindex with
      | none => []
      | some block =>
          match c.disconnect s block pindex with
          | .error _ => []
          | .ok s => .disconnected block :: disconnectEvents rest s

/-- The blocks that the connection loop of `Reorganize` gets through. -/
def connectEvents : List BlockPtr → Node → List BlockEvent
  | [], _ => []
  | pindex :: rest, s =>
      match readBlock env s pindex with
      | none => []
      | some block =>
          match c.connect s block pindex with
          | none => []
          | some s => .connected block :: connectEvents rest s

/-- The batch of a `Reorganize`. -/
def reorganizeBatch (s : Node) (pindexNew : BlockPtr) : Batch where
  events :=
    match findFork s.pindexBest pindexNew with
    | none => []
    | some pfork =>
        disconnectEvents env c (pathTo pfork s.pindexBest) s ++
          match disconnectBranch env c (pathTo pfork s.pindexBest) s [] with
          | .error _ => []
          | .ok (s, _) => connectEvents env c (pathTo pfork pindexNew).reverse s
  committed := (reorganize env policy c s pindexNew).isOk

/-- The batch of a `SetBestChainInner`. -/
def innerBatch (s : Node) (block : CBlock) (pindexNew : BlockPtr) : Batch where
  events :=
    match c.connect s block pindexNew with
    | none => []
    | some _ => [.connected block]
  committed := (setBestChainInner env c s block pindexNew).isOk

/-- The batches of the loop over the postponed blocks. -/
def secondaryBatches : List BlockPtr → Node → List Batch
  | [], _ => []
  | pindex :: rest, s =>
      match readBlock env s pindex with
      | none => []
      | some block =>
          innerBatch env c s.txnBegin block pindex ::
            match setBestChainInner env c s.txnBegin block pindex with
            | .error _ => []
            | .ok s => secondaryBatches rest s

/-- The batches of a `SetBestChain` in which blocks may be connected. -/
def switchBatches (s : Node) (block : CBlock) (pindexNew : BlockPtr) : List Batch :=
  if s.pindexGenesisBlock = [] ∧ block.getHash env = env.hashGenesisBlock then []
  else if block.hashPrevBlock = s.hashBestChain then [innerBatch env c s.txnBegin block pindexNew]
  else
    reorganizeBatch env policy c s.txnBegin (postpone (bestTrust s) pindexNew).2 ::
      match reorganize env policy c s.txnBegin (postpone (bestTrust s) pindexNew).2 with
      | .error _ => []
      | .ok switched => secondaryBatches env c (postpone (bestTrust s) pindexNew).1.reverse switched

end Batches

/-- Block connection that notifies the wallets of a block when it succeeds, and only
then. -/
structure Notifies (c : Connector) : Prop where
  connect : ∀ {s after block pindex}, c.connect s block pindex = some after →
    after.walletLog = s.walletLog ++ (BlockEvent.connected block).notices
  disconnect : ∀ {s after block pindex}, c.disconnect s block pindex = .ok after →
    after.walletLog = s.walletLog ++ (BlockEvent.disconnected block).notices
  failed : ∀ {s after block pindex}, c.disconnect s block pindex = .error after → after.walletLog = s.walletLog

theorem codeConnector_notifies (env : Env) : Notifies (codeConnector env) where
  connect := by
    intro s after block pindex connected
    cases pindex with
    | nil => cases connected
    | cons entry pprev => exact (CBlock.connectBlock_spec connected).notified
  disconnect := by
    intro s after block pindex undone
    cases pindex with
    | nil => cases undone
    | cons entry pprev =>
        have undone : block.disconnectBlock env s pprev = .ok after := undone
        unfold CBlock.disconnectBlock at undone
        split at undone
        · cases undone
        · cases undone
          rfl
  failed := by
    intro s after block pindex failed
    cases pindex with
    | nil =>
        cases failed
        rfl
    | cons entry pprev =>
        have failed : block.disconnectBlock env s pprev = .error after := failed
        unfold CBlock.disconnectBlock at failed
        split at failed
        · cases failed
          rfl
        · cases failed

section Log

variable {env : Env} {policy : Policy} {c : Connector} {s after : Node}

theorem walletLog_disconnectBranch (notifies : Notifies c) {vDisconnect : List BlockPtr}
    {vResurrect : List CTransaction} (result : List CTransaction)
    (undone : disconnectBranch env c vDisconnect s vResurrect = .ok (after, result) ∨
      disconnectBranch env c vDisconnect s vResurrect = .error after) :
    after.walletLog = s.walletLog ++ (disconnectEvents env c vDisconnect s).flatMap BlockEvent.notices := by
  induction vDisconnect generalizing s vResurrect with
  | nil =>
      simp only [disconnectBranch, Except.ok.injEq, Prod.mk.injEq, reduceCtorEq, or_false] at undone
      simp [disconnectEvents, undone.1]
  | cons pindex rest ih =>
      simp only [disconnectBranch] at undone
      split at undone
      · rename_i unread
        simp only [reduceCtorEq, Except.error.injEq, false_or] at undone
        subst undone
        simp [disconnectEvents, unread]
      · rename_i block found
        split at undone
        · rename_i broken step
          simp only [reduceCtorEq, Except.error.injEq, false_or] at undone
          rw [← undone, notifies.failed step]
          simp [disconnectEvents, found, step]
        · rename_i next step
          rw [ih undone, notifies.disconnect step]
          simp [disconnectEvents, found, step]

theorem walletLog_connectBranch (notifies : Notifies c) {vConnect : List BlockPtr} {vDelete : List CTransaction}
    (result : List CTransaction)
    (done : connectBranch env c vConnect s vDelete = .ok (after, result) ∨
      connectBranch env c vConnect s vDelete = .error after) :
    after.walletLog = s.walletLog ++ (connectEvents env c vConnect s).flatMap BlockEvent.notices := by
  induction vConnect generalizing s vDelete with
  | nil =>
      simp only [connectBranch, Except.ok.injEq, Prod.mk.injEq, reduceCtorEq, or_false] at done
      simp [connectEvents, done.1]
  | cons pindex rest ih =>
      simp only [connectBranch] at done
      split at done
      · rename_i unread
        simp only [reduceCtorEq, Except.error.injEq, false_or] at done
        subst done
        simp [connectEvents, unread]
      · rename_i block found
        split at done
        · rename_i step
          simp only [reduceCtorEq, Except.error.injEq, false_or] at done
          subst done
          simp [connectEvents, found, step]
        · rename_i next step
          rw [ih done, notifies.connect step]
          simp [connectEvents, found, step]

theorem walletLog_commitBest {hash : UInt256}
    (done : s.commitBest hash = .ok after ∨ s.commitBest hash = .error after) : after.walletLog = s.walletLog := by
  simp only [Node.commitBest] at done
  split at done
  · simp only [Except.ok.injEq, reduceCtorEq, or_false] at done
    rw [← done]
    rfl
  · simp only [reduceCtorEq, Except.error.injEq, false_or] at done
    rw [← done]
    rfl

theorem walletLog_invalidChainFound (s : Node) (pindexNew : BlockPtr) :
    (invalidChainFound s pindexNew).walletLog = s.walletLog := by
  unfold invalidChainFound
  split
  · rfl
  · split <;> rfl

/-- Whatever becomes of a `Reorganize`, the wallets have seen its batch. -/
theorem walletLog_reorganize (notifies : Notifies c) (s : Node) (pindexNew : BlockPtr) :
    (afterLoop (reorganize env policy c s pindexNew)).walletLog =
      s.walletLog ++ (reorganizeBatch env policy c s pindexNew).events.flatMap BlockEvent.notices := by
  simp only [reorganize, reorganizeBatch]
  cases findFork s.pindexBest pindexNew with
  | none => simp [afterLoop]
  | some pfork =>
      dsimp only
      cases down : disconnectBranch env c (pathTo pfork s.pindexBest) s [] with
      | error broken => simp [afterLoop, walletLog_disconnectBranch notifies [] (Or.inr down)]
      | ok reached =>
          obtain ⟨middle, vResurrect⟩ := reached
          have logDown := walletLog_disconnectBranch notifies _ (Or.inl down)
          rw [List.flatMap_append, ← List.append_assoc, ← logDown]
          dsimp only
          cases up : connectBranch env c (pathTo pfork pindexNew).reverse middle [] with
          | error broken => exact walletLog_connectBranch notifies [] (Or.inr up)
          | ok reached =>
              obtain ⟨top, vDelete⟩ := reached
              rw [← walletLog_connectBranch notifies _ (Or.inl up)]
              dsimp only
              cases commit : top.commitBest ((pindexNew.head?.map CBlockIndex.hash).getD 0) with
              | error broken => exact walletLog_commitBest (Or.inr commit)
              | ok committed =>
                  simp only [afterLoop]
                  rw [foldl_resurrect_rest]
                  change committed.walletLog = _
                  exact walletLog_commitBest (Or.inl commit)

/-- Whatever becomes of a `SetBestChainInner`, the wallets have seen its batch. -/
theorem walletLog_setBestChainInner (notifies : Notifies c) (s : Node) (block : CBlock) (pindexNew : BlockPtr) :
    (afterLoop (setBestChainInner env c s block pindexNew)).walletLog =
      s.walletLog ++ (innerBatch env c s block pindexNew).events.flatMap BlockEvent.notices := by
  simp only [setBestChainInner, innerBatch]
  cases step : c.connect s block pindexNew with
  | none =>
      simp only [afterLoop, walletLog_invalidChainFound]
      exact (List.append_nil _).symm
  | some next =>
      rw [List.flatMap_singleton, ← notifies.connect step]
      dsimp only
      cases commit : next.commitBest (block.getHash env) with
      | error broken => exact walletLog_commitBest (Or.inr commit)
      | ok committed =>
          change committed.walletLog = _
          exact walletLog_commitBest (Or.inl commit)

theorem walletLog_connectSecondary (notifies : Notifies c) (vpindexSecondary : List BlockPtr) (s : Node) :
    (afterLoop (connectSecondary env c vpindexSecondary s)).walletLog =
      s.walletLog ++ notices (secondaryBatches env c vpindexSecondary s) := by
  induction vpindexSecondary generalizing s with
  | nil => simp [connectSecondary, secondaryBatches, notices, afterLoop]
  | cons pindex rest ih =>
      simp only [connectSecondary, secondaryBatches]
      cases found : readBlock env s pindex with
      | none => simp [notices, afterLoop]
      | some block =>
          dsimp only
          have logInner : (afterLoop (setBestChainInner env c s.txnBegin block pindex)).walletLog =
              s.walletLog ++ _ := walletLog_setBestChainInner notifies s.txnBegin block pindex
          cases inner : setBestChainInner env c s.txnBegin block pindex with
          | error broken =>
              rw [inner] at logInner
              simp only [notices, List.flatMap_cons, List.flatMap_nil, List.append_nil]
              exact logInner
          | ok next =>
              rw [inner] at logInner
              rw [ih, show next.walletLog = _ from logInner]
              simp only [notices, List.flatMap_cons, List.append_assoc]

/-- Whatever becomes of a `SetBestChain`, the wallets have seen all its batches. -/
theorem walletLog_setBestChain (notifies : Notifies c) (s : Node) (block : CBlock) (pindexNew : BlockPtr) :
    (afterLoop (setBestChain env policy c s block pindexNew)).walletLog =
      s.walletLog ++ notices (switchBatches env policy c s block pindexNew) := by
  have genesisEq : s.txnBegin.pindexGenesisBlock = s.pindexGenesisBlock := rfl
  have hashEq : s.txnBegin.hashBestChain = s.hashBestChain := rfl
  have trustEq : bestTrust s.txnBegin = bestTrust s := rfl
  simp only [setBestChain, switchBatches, genesisEq, hashEq, trustEq]
  split
  · -- Genesis is not connected.
    cases commit : s.txnBegin.commitBest (block.getHash env) with
    | error broken =>
        simp only [afterLoop, notices, List.flatMap_nil, List.append_nil]
        change broken.walletLog = s.txnBegin.walletLog
        exact walletLog_commitBest (Or.inr commit)
    | ok committed =>
        simp only [afterLoop, notices, List.flatMap_nil, List.append_nil]
        change committed.walletLog = s.txnBegin.walletLog
        exact walletLog_commitBest (Or.inl commit)
  split
  · have logInner : (afterLoop (setBestChainInner env c s.txnBegin block pindexNew)).walletLog = _ :=
      walletLog_setBestChainInner notifies s.txnBegin block pindexNew
    simp only [notices, List.flatMap_cons, List.flatMap_nil, List.append_nil]
    refine Eq.trans ?_ logInner
    cases setBestChainInner env c s.txnBegin block pindexNew <;> rfl
  · have logSwitch : (afterLoop (reorganize env policy c s.txnBegin
        (postpone (bestTrust s) pindexNew).2)).walletLog = _ := walletLog_reorganize notifies _ _
    cases switch : reorganize env policy c s.txnBegin (postpone (bestTrust s) pindexNew).2 with
    | error broken =>
        rw [switch] at logSwitch
        simp only [afterLoop, walletLog_invalidChainFound, notices, List.flatMap_cons, List.flatMap_nil,
          List.append_nil]
        exact logSwitch
    | ok switched =>
        rw [switch] at logSwitch
        have logLoop : (afterLoop (connectSecondary env c (postpone (bestTrust s) pindexNew).1.reverse
            switched)).walletLog = _ := walletLog_connectSecondary notifies _ _
        refine logLoop.trans ?_
        rw [show switched.walletLog = _ from logSwitch]
        simp only [notices, List.flatMap_cons, List.append_assoc]
        rfl

end Log

/-- No batch of the call is given up after it has connected or disconnected a block. -/
def NothingAbandoned (env : Env) (policy : Policy) (c : Connector) (s : Node) (block : CBlock)
    (pindexNew : BlockPtr) : Prop :=
  ∀ batch ∈ switchBatches env policy c s block pindexNew, batch.committed = false → batch.events = []

/-- Runs of `SetBestChain` calls, each returning true or false, with the batches they
have made. -/
inductive Called (env : Env) (policy : Policy) (c : Connector) (Allowed : Node → CBlock → BlockPtr → Prop)
    (start : Node) : Node → List Batch → Prop
  | start : Called env policy c Allowed start start []
  | call {s batches block pindexNew} (earlier : Called env policy c Allowed start s batches)
      (allowed : Allowed s block pindexNew) :
      Called env policy c Allowed start (afterLoop (setBestChain env policy c s block pindexNew))
        (batches ++ switchBatches env policy c s block pindexNew)
  | outside {s after batches} (earlier : Called env policy c Allowed start s batches)
      (same : after.walletLog = s.walletLog) : Called env policy c Allowed start after batches

section Runs

variable {env : Env} {policy : Policy} {c : Connector} {Allowed : Node → CBlock → BlockPtr → Prop}
  {start s : Node} {batches : List Batch}

/-- The wallets have seen every block of every batch of the run. -/
theorem Called.walletLog (notifies : Notifies c) (called : Called env policy c Allowed start s batches) :
    s.walletLog = start.walletLog ++ notices batches := by
  induction called with
  | start => simp [notices]
  | call earlier _ ih =>
      rw [walletLog_setBestChain notifies, ih]
      simp [notices]
  | outside _ same ih => exact same.trans ih

theorem Called.nothing_abandoned
    (called : Called env policy c (NothingAbandoned env policy c) start s batches) :
    ∀ batch ∈ batches, batch.committed = false → batch.events = [] := by
  induction called with
  | start => simp
  | call _ allowed ih =>
      intro batch member given
      rcases List.mem_append.mp member with earlier | now
      · exact ih batch earlier given
      · exact allowed batch now given
  | outside _ _ ih => exact ih

/-- Batches that were given up empty leave no trace. -/
theorem notices_committed (given : ∀ batch ∈ batches, batch.committed = false → batch.events = []) :
    notices (committed batches) = notices batches := by
  induction batches with
  | nil => rfl
  | cons batch rest ih =>
      have later := ih fun batch member => given batch (List.mem_cons_of_mem _ member)
      cases status : batch.committed with
      | true =>
          simp only [committed, List.filter_cons, status, if_true, notices, List.flatMap_cons]
          exact congrArg _ later
      | false =>
          have empty := given batch List.mem_cons_self status
          simp only [committed, List.filter_cons, status, Bool.false_eq_true, if_false, notices,
            List.flatMap_cons, empty, List.flatMap_nil, List.nil_append]
          exact later

end Runs

/-- Along every run of calls none of which gives a batch up after it has connected or
disconnected a block, the wallets have received exactly the notifications for the blocks
whose connection or disconnection was committed, in order. -/
theorem wallet_notices_committed {env : Env} {policy : Policy} {start s : Node} {batches : List Batch}
    (called : Called env policy (codeConnector env) (NothingAbandoned env policy (codeConnector env)) start s
      batches) :
    s.walletLog = start.walletLog ++ notices (committed batches) := by
  rw [notices_committed called.nothing_abandoned]
  exact called.walletLog (codeConnector_notifies env)

section Concrete

/-- The batches of a call on a block of the fork. -/
def forkBatches (s : Node) (entry : CBlockIndex) (pprev : BlockPtr) : List Batch :=
  switchBatches (Env.labelled true) .lax (codeConnector (Env.labelled true)) s (forkBlock entry) (entry :: pprev)

theorem forkCall {Allowed : Node → CBlock → BlockPtr → Prop} {s : Node} {entry : CBlockIndex} {pprev : BlockPtr}
    (allowed : Allowed s (forkBlock entry) (entry :: pprev)) :
    Called (Env.labelled true) .lax (codeConnector (Env.labelled true)) Allowed s
      (afterLoop (forkSwitch s entry pprev)) ([] ++ forkBatches s entry pprev) :=
  .call .start allowed

/-- The extension by the light branch: one batch, which is committed. -/
theorem wallet_notices_committed_light :
    (forkBatches forkStart (forkEntry 1 1) forkRoot).length = 1 ∧
      forkLight.walletLog =
        forkStart.walletLog ++ notices (committed (forkBatches forkStart (forkEntry 1 1) forkRoot)) := by
  have kept : ∀ batch ∈ forkBatches forkStart (forkEntry 1 1) forkRoot, batch.committed = true := by
    decide +kernel
  have steady : NothingAbandoned (Env.labelled true) .lax (codeConnector (Env.labelled true)) forkStart
      (forkBlock (forkEntry 1 1)) (forkEntry 1 1 :: forkRoot) := by
    intro batch member given
    rw [kept batch member] at given
    cases given
  exact ⟨by decide +kernel, wallet_notices_committed (forkCall steady)⟩

/-- The switch from the light branch to the invalid block 4 fails and its batch is
aborted, but the wallets have seen block 1 disconnected and block 2 connected. -/
theorem aborted_switch_notifies :
    ∃ s batches, Called (Env.labelled true) .lax (codeConnector (Env.labelled true)) (fun _ _ _ => True) forkLight
        s batches ∧ committed batches = [] ∧
      s.walletLog = forkLight.walletLog ++
        ((BlockEvent.disconnected (forkBlock (forkEntry 1 1))).notices ++
          (BlockEvent.connected (forkBlock (forkEntry 2 1))).notices) ∧
      s.walletLog ≠ forkLight.walletLog ++ notices (committed batches) := by
  have given : (committed ([] ++ forkBatches forkLight (forkEntry 4 2) heavyTip.tail)).length = 0 := by
    decide +kernel
  have nothing := List.eq_nil_of_length_eq_zero given
  have seen : (afterLoop (forkSwitch forkLight (forkEntry 4 2) heavyTip.tail)).walletLog =
      forkLight.walletLog ++ ((BlockEvent.disconnected (forkBlock (forkEntry 1 1))).notices ++
        (BlockEvent.connected (forkBlock (forkEntry 2 1))).notices) := by
    decide +kernel
  refine ⟨_, _, forkCall trivial, nothing, seen, ?_⟩
  intro silent
  rw [seen, nothing, List.append_right_inj] at silent
  cases silent

end Concrete

end InfiniteRicks
