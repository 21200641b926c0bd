import InfiniteRicks.Connect
import InfiniteRicks.Ledger

/-!
# Block connection refines the abstract index

`ConnectBlock` reads previous index entries through the overlay
`mapQueuedChanges`, marks spent outputs in it, and writes it to the database at
the end; `DisconnectBlock` edits the database entry by entry, last transaction
first. `connectBlock_spec` and `disconnectBlock_entries` state both as operations
of `Ledger` on the transaction index, and later modules use only these.
-/

namespace InfiniteRicks

open Ledger

/-- What the overlay and the database say together: the overlay wins. -/
def overlay (queued : QueuedChanges) (index : TxIndexMap) : TxIndexMap :=
  fun hash => (queued.lookup hash).or (index hash)

@[simp] theorem overlay_empty (index : TxIndexMap) : overlay ∅ index = index := by
  funext hash
  simp [overlay]

theorem overlay_insert (queued : QueuedChanges) (index : TxIndexMap) (hash : UInt256)
    (txindex : CTxIndex) :
    overlay (queued.insert hash txindex) index =
      Function.update (overlay queued index) hash (some txindex) := by
  funext other
  by_cases same : other = hash
  · subst same
    simp [overlay]
  · simp [overlay, AList.lookup_insert_ne same, Function.update_of_ne same]

namespace CTransaction

variable {env : Env} {s : Node} {tx : CTransaction} {queued : QueuedChanges}

/-- Fetched entries are entries of the overlay view. -/
def Fetched (inputs : MapPrevTx) (index : TxIndexMap) : Prop :=
  ∀ hash txindex txPrev, inputs hash = some (txindex, txPrev) → index hash = some txindex

theorem fetchPrev_entry {hash : UInt256} {txindex : CTxIndex} {txPrev : CTransaction}
    (fetched : fetchPrev s s.txdb queued true false hash = some (txindex, txPrev)) :
    overlay queued s.txdb.txIndex hash = some txindex := by
  simp only [fetchPrev, Bool.true_or, if_true] at fetched
  unfold overlay CTxDB.txIndex
  split at fetched
  · simp at fetched
  · rename_i entry found
    rw [found]
    split at fetched
    · obtain ⟨_, _, equal⟩ := Option.map_eq_some_iff.mp fetched
      rw [(Prod.mk.inj equal).1]
    · obtain ⟨_, _, equal⟩ := Option.map_eq_some_iff.mp fetched
      rw [(Prod.mk.inj equal).1]

/-- What holds of every fetched entry holds of the whole map. -/
theorem fetchLoop_forall {P : UInt256 → CTxIndex × CTransaction → Prop} {txdb : CTxDB} {fBlock fMiner : Bool}
    {vin : List CTxIn} {before inputs : MapPrevTx}
    (each : ∀ hash prev, fetchPrev s txdb queued fBlock fMiner hash = some prev → P hash prev)
    (fetched : fetchLoop s txdb queued fBlock fMiner vin before = some inputs)
    (start : ∀ hash prev, before hash = some prev → P hash prev) :
    ∀ hash prev, inputs hash = some prev → P hash prev := by
  induction vin generalizing before with
  | nil =>
      simp only [fetchLoop, Option.some.injEq] at fetched
      exact fetched ▸ start
  | cons txin rest ih =>
      simp only [fetchLoop] at fetched
      split at fetched
      · exact ih fetched start
      · split at fetched
        · simp at fetched
        · rename_i prev found
          refine ih fetched ?_
          intro hash other present
          by_cases same : hash = txin.prevout.hash
          · subst same
            rw [Function.update_self, Option.some.injEq] at present
            subst present
            exact each _ _ found
          · rw [Function.update_of_ne same] at present
            exact start hash other present

theorem fetchInputs_forall {P : UInt256 → CTxIndex × CTransaction → Prop} {txdb : CTxDB} {fBlock fMiner : Bool}
    {inputs : MapPrevTx}
    (each : ∀ hash prev, fetchPrev s txdb queued fBlock fMiner hash = some prev → P hash prev)
    (fetched : tx.fetchInputs s txdb queued fBlock fMiner = .ok inputs) :
    ∀ hash prev, inputs hash = some prev → P hash prev := by
  unfold fetchInputs at fetched
  split at fetched
  · cases fetched
    intro hash prev present
    simp at present
  · split at fetched
    · cases fetched
    · rename_i found
      split at fetched
      · cases fetched
        refine fetchLoop_forall each found ?_
        intro hash prev present
        simp at present
      · cases fetched

theorem fetchInputs_fetched {inputs : MapPrevTx}
    (fetched : tx.fetchInputs s s.txdb queued true false = .ok inputs) :
    Fetched inputs (overlay queued s.txdb.txIndex) := by
  have entries := fetchInputs_forall (P := fun hash prev =>
    overlay queued s.txdb.txIndex hash = some prev.1) (fun _ _ found => fetchPrev_entry found) fetched
  intro hash txindex txPrev present
  exact entries hash _ present

/-- The spending loop marks in the overlay exactly what it marks in its inputs. -/
theorem spendInputs_spec {nBestHeight : Int} {pos : CDiskTxPos} {index : TxIndexMap} {i : Nat}
    {vin : List CTxIn} {inputs : MapPrevTx} {after : QueuedChanges}
    (spent : spendInputs env nBestHeight tx pos true false i vin inputs queued = some after)
    (fetched : Fetched inputs (overlay queued index)) :
    Spendable pos (overlay queued index) vin ∧
      overlay after index = setSlots (overlay queued index) vin pos := by
  induction vin generalizing i inputs queued with
  | nil =>
      simp only [spendInputs, Option.some.injEq] at spent
      exact ⟨trivial, by rw [← spent]; rfl⟩
  | cons txin rest ih =>
      simp only [spendInputs] at spent
      split at spent
      · simp at spent
      · rename_i txindex txPrev found
        split at spent
        · simp at spent
        · rename_i slotValue inRange
          have entry := fetched _ _ _ found
          split at spent
          · simp at spent
          · rename_i unspent
            split at spent
            · simp at spent
            · have null : slotValue = CDiskTxPos.null :=
                CDiskTxPos.isNull_iff.mp (by simpa using unspent)
              simp only [Bool.true_or, if_true] at spent
              -- The overlay after the write is the slot write on the overlay view.
              have written : overlay (queued.insert txin.prevout.hash
                  { txindex with vSpent := txindex.vSpent.set txin.prevout.n.toNat pos }) index =
                  setSlot (overlay queued index) txin.prevout pos := by
                rw [overlay_insert, setSlot, entry]
                rfl
              have step := ih spent (by
                rw [overlay_insert]
                intro hash other txOther present
                by_cases same : hash = txin.prevout.hash
                · subst same
                  rw [Function.update_self, Option.some.injEq, Prod.mk.injEq] at present
                  rw [Function.update_self, present.1]
                · rw [Function.update_of_ne same] at present ⊢
                  exact fetched _ _ _ present)
              rw [written] at step
              refine ⟨⟨?_, step.1⟩, step.2⟩
              simp [slotAt, slot, entry, inRange, null]

/-- A successful `ConnectInputs` spends unspent outputs only. -/
theorem connectInputs_spec {nBestHeight : Int} {inputs : MapPrevTx} {pos : CDiskTxPos}
    {pindexBlock : BlockPtr} {index : TxIndexMap} {after : QueuedChanges}
    (connected : tx.connectInputs env nBestHeight inputs queued pos pindexBlock true false = some after)
    (ordinary : tx.isCoinBase = false) (fetched : Fetched inputs (overlay queued index)) :
    Spendable pos (overlay queued index) tx.vin ∧
      overlay after index = setSlots (overlay queued index) tx.vin pos := by
  simp only [connectInputs, ordinary, Bool.false_eq_true, if_false] at connected
  split at connected
  · simp at connected
  · split at connected
    · simp at connected
    · rename_i queuedAfter spent
      split at connected
      · rw [Option.some.injEq] at connected
        subst connected
        exact spendInputs_spec spent fetched
      · simp at connected

end CTransaction

namespace Ledger

/-- Connect transactions in block order. -/
def applyTxs (env : Env) (index : TxIndexMap) (entries : TxHistory) : TxIndexMap :=
  entries.foldl (fun index entry => applyTx env index entry.1 entry.2) index

/-- Every transaction finds its inputs unspent when its turn comes. -/
def Connectable (env : Env) : TxIndexMap → TxHistory → Prop
  | _, [] => True
  | index, (tx, pos) :: rest =>
      TxSpendable index tx pos ∧ Connectable env (applyTx env index tx pos) rest

end Ledger

namespace CBlock

variable {env : Env} {s after : Node} {block : CBlock} {pindex : CBlockIndex} {pprev : BlockPtr}

/-- The transactions of a block with the positions `ConnectBlock` records, in block
order, from the position of the first one. -/
def entriesFrom (pindex : CBlockIndex) : UInt32 → List CTransaction → TxHistory
  | _, [] => []
  | nTxPos, tx :: rest =>
      (tx, pindex.txPos nTxPos) :: entriesFrom pindex (nTxPos + UInt32.ofNat tx.getSerializeSize) rest

/-- The transactions of a block with their positions. -/
def entries (block : CBlock) (pindex : CBlockIndex) : TxHistory :=
  entriesFrom pindex (block.firstTxPos pindex false) block.vtx

theorem entriesFrom_map_fst (pindex : CBlockIndex) (nTxPos : UInt32) (vtx : List CTransaction) :
    (entriesFrom pindex nTxPos vtx).map Prod.fst = vtx := by
  induction vtx generalizing nTxPos with
  | nil => rfl
  | cons tx rest ih => simp [entriesFrom, ih]

@[simp] theorem entries_map_fst (block : CBlock) (pindex : CBlockIndex) :
    (block.entries pindex).map Prod.fst = block.vtx :=
  entriesFrom_map_fst _ _ _

theorem ids_entries (env : Env) (block : CBlock) (pindex : CBlockIndex) :
    ids env (block.entries pindex) = block.vtx.map env.txHash := by
  rw [← entries_map_fst block pindex, List.map_map]
  rfl

theorem entriesFrom_real {nTxPos : UInt32} {vtx : List CTransaction} {entry : CTransaction × CDiskTxPos}
    (member : entry ∈ entriesFrom pindex nTxPos vtx) : entry.2.isNull = false := by
  induction vtx generalizing nTxPos with
  | nil => simp [entriesFrom] at member
  | cons tx rest ih =>
      rcases List.mem_cons.mp member with rfl | later
      · exact pindex.txPos_not_null _
      · exact ih later

/-- `ConnectBlock` records no null position: block files have real numbers. -/
theorem entries_real {entry : CTransaction × CDiskTxPos} (member : entry ∈ block.entries pindex) :
    entry.2.isNull = false :=
  entriesFrom_real member

/-- The position the loop has reached after one transaction. -/
def nextTxPos (nTxPos : UInt32) (fJustCheck : Bool) (tx : CTransaction) : UInt32 :=
  if fJustCheck then nTxPos else nTxPos + UInt32.ofNat tx.getSerializeSize

/-- Everything one successful round of the transaction loop can have done. -/
theorem connectTx_cases {fJustCheck : Bool} {acc next : ConnectState} {tx : CTransaction}
    (step : connectTx env s pindex pprev fJustCheck acc tx = some next) :
    (∀ old, s.txdb.txIndex (env.txHash tx) = some old → ∀ spent ∈ old.vSpent, spent.isNull = false) ∧
      next.nTxPos = nextTxPos acc.nTxPos fJustCheck tx ∧
      ((tx.isCoinBase = true ∧ ∃ nTxValueOut, tx.getValueOut = some nTxValueOut ∧
          next.nFees = acc.nFees ∧ next.nStakeReward = acc.nStakeReward ∧
          (next.nValueIn = acc.nValueIn ∧ next.nValueOut = acc.nValueOut + nTxValueOut) ∧
          next.mapQueuedChanges = acc.mapQueuedChanges.insert (env.txHash tx)
            (CTxIndex.new (pindex.txPos acc.nTxPos) tx.vout.length)) ∨
        (tx.isCoinBase = false ∧ ∃ mapInputs nTxValueIn nTxValueOut queued,
          tx.fetchInputs s s.txdb acc.mapQueuedChanges true false = .ok mapInputs ∧
          tx.getValueIn mapInputs = some nTxValueIn ∧ tx.getValueOut = some nTxValueOut ∧
          tx.connectInputs env s.nBestHeight mapInputs acc.mapQueuedChanges (pindex.txPos acc.nTxPos)
            (pindex :: pprev) true false = some queued ∧
          next.nFees = (if tx.isCoinStake then acc.nFees else acc.nFees + (nTxValueIn - nTxValueOut)) ∧
          next.nStakeReward =
            (if tx.isCoinStake then nTxValueOut - nTxValueIn else acc.nStakeReward) ∧
          (next.nValueIn = acc.nValueIn + nTxValueIn ∧ next.nValueOut = acc.nValueOut + nTxValueOut) ∧
          next.mapQueuedChanges = queued.insert (env.txHash tx)
            (CTxIndex.new (pindex.txPos acc.nTxPos) tx.vout.length))) := by
  simp only [connectTx] at step
  split at step
  · simp at step
  rename_i overwritable
  split at step
  · simp at step
  refine ⟨?_, ?_⟩
  · intro old present spent member
    have absent : ¬((s.txdb.readTxIndex (env.txHash tx)).any fun txindexOld =>
        txindexOld.vSpent.any CDiskTxPos.isNull) = true := overwritable
    have found : s.txdb.readTxIndex (env.txHash tx) = some old := present
    rw [found] at absent
    simp only [Option.any_some, List.any_eq_true, not_exists, not_and, Bool.not_eq_true] at absent
    exact absent spent member
  split at step
  · rename_i base
    split at step
    · simp at step
    · rename_i nTxValueOut value
      rw [Option.some.injEq] at step
      subst step
      exact ⟨rfl, Or.inl ⟨base, nTxValueOut, value, rfl, rfl, ⟨rfl, rfl⟩, rfl⟩⟩
  · rename_i ordinary
    split at step
    · simp at step
    · rename_i mapInputs fetched
      split at step
      · simp at step
      · split at step
        · rename_i nTxValueIn nTxValueOut valueIn valueOut
          split at step
          · simp at step
          · rename_i queued connected
            rw [Option.some.injEq] at step
            subst step
            refine ⟨rfl, Or.inr ⟨by simpa using ordinary, mapInputs, nTxValueIn, nTxValueOut, queued,
              fetched, valueIn, valueOut, connected, rfl, rfl, ⟨rfl, rfl⟩, rfl⟩⟩
        · simp at step

/-- One round connects the transaction in the overlay view. -/
theorem connectTx_overlay {fJustCheck : Bool} {acc next : ConnectState} {tx : CTransaction}
    (step : connectTx env s pindex pprev fJustCheck acc tx = some next) :
    TxSpendable (overlay acc.mapQueuedChanges s.txdb.txIndex) tx (pindex.txPos acc.nTxPos) ∧
      overlay next.mapQueuedChanges s.txdb.txIndex =
        applyTx env (overlay acc.mapQueuedChanges s.txdb.txIndex) tx (pindex.txPos acc.nTxPos) := by
  obtain ⟨-, -, ⟨base, _, _, _, _, _, queue⟩ |
    ⟨ordinary, inputs, _, _, queued, fetched, _, _, connected, _, _, _, queue⟩⟩ := connectTx_cases step
  · refine ⟨fun ordinary => ?_, ?_⟩
    · rw [base] at ordinary
      cases ordinary
    · rw [queue, overlay_insert, applyTx, base, if_pos rfl]
  · have spec := CTransaction.connectInputs_spec connected ordinary
      (CTransaction.fetchInputs_fetched fetched)
    refine ⟨fun _ => spec.1, ?_⟩
    rw [queue, overlay_insert, applyTx, ordinary, spec.2]
    simp

/-- The whole loop connects the transactions of the block in order. -/
theorem connectTxs_overlay {vtx : List CTransaction} {acc final : ConnectState}
    (loop : connectTxs env s pindex pprev false vtx acc = some final) :
    Connectable env (overlay acc.mapQueuedChanges s.txdb.txIndex) (entriesFrom pindex acc.nTxPos vtx) ∧
      overlay final.mapQueuedChanges s.txdb.txIndex =
        applyTxs env (overlay acc.mapQueuedChanges s.txdb.txIndex) (entriesFrom pindex acc.nTxPos vtx) ∧
      ∀ tx ∈ vtx, ∀ old, s.txdb.txIndex (env.txHash tx) = some old →
        ∀ spent ∈ old.vSpent, spent.isNull = false := by
  induction vtx generalizing acc with
  | nil =>
      simp only [connectTxs, Option.some.injEq] at loop
      subst loop
      exact ⟨trivial, rfl, by simp⟩
  | cons tx rest ih =>
      simp only [connectTxs] at loop
      split at loop
      · simp at loop
      · rename_i next step
        have round := connectTx_overlay step
        obtain ⟨overwritable, place, -⟩ := connectTx_cases step
        have tail := ih loop
        simp only [nextTxPos, Bool.false_eq_true, if_false] at place
        rw [round.2, place] at tail
        refine ⟨⟨round.1, tail.1⟩, tail.2.1, ?_⟩
        intro other member
        rcases List.mem_cons.mp member with rfl | later
        · exact overwritable
        · exact tail.2.2 other later

/-- What block connection leaves alone: everything but the queued writes, the sums
of the entry and the wallet notifications. -/
structure Frame (before after : Node) : Prop where
  rest : after = { before with
    txdb := after.txdb
    nMint := after.nMint
    nMoneySupply := after.nMoneySupply
    walletLog := after.walletLog }
  queues : CTxDB.Queues before.txdb after.txdb

/-- Writing queued entries adds the overlay to the index. -/
theorem txIndex_writeQueued {entries : List (Sigma fun _ : UInt256 => CTxIndex)} (txdb : CTxDB)
    (nodup : entries.NodupKeys) (hash : UInt256) :
    (entries.foldl (fun txdb entry => txdb.updateTxIndex entry.1 entry.2) txdb).txIndex hash =
      (entries.dlookup hash).or (txdb.txIndex hash) := by
  induction entries generalizing txdb with
  | nil => simp
  | cons entry rest ih =>
      obtain ⟨key, txindex⟩ := entry
      rw [List.nodupKeys_cons] at nodup
      rw [List.foldl_cons, ih _ nodup.2, CTxDB.txIndex_updateTxIndex]
      by_cases same : hash = key
      · subst same
        rw [List.dlookup_eq_none.mpr nodup.1]
        simp
      · rw [Function.update_of_ne same, List.dlookup_cons_ne _ _ same]

theorem queues_writeQueued (entries : List (Sigma fun _ : UInt256 => CTxIndex)) (txdb : CTxDB) :
    CTxDB.Queues txdb (entries.foldl (fun txdb entry => txdb.updateTxIndex entry.1 entry.2) txdb) := by
  induction entries generalizing txdb with
  | nil => exact CTxDB.Queues.refl txdb
  | cons entry rest ih => exact (CTxDB.queues_write _ _ _).trans (ih _)

theorem txIndex_writeConnected (acc : ConnectState) :
    (block.writeConnected s pindex pprev false acc).txdb.txIndex =
      overlay acc.mapQueuedChanges s.txdb.txIndex := by
  funext hash
  have queued := fun txdb => txIndex_writeQueued txdb acc.mapQueuedChanges.nodupKeys hash
  cases pprev with
  | nil => simp [writeConnected, queued, overlay, AList.lookup]
  | cons prev grand => simp [writeConnected, queued, overlay, AList.lookup]

theorem frame_writeConnected (acc : ConnectState) :
    Frame s (block.writeConnected s pindex pprev false acc) := by
  refine ⟨rfl, ?_⟩
  cases pprev with
  | nil => exact (CTxDB.queues_write _ _ _).trans (queues_writeQueued _ _)
  | cons prev grand =>
      exact ((CTxDB.queues_write _ _ _).trans (queues_writeQueued _ _)).trans (CTxDB.queues_write _ _ _)

/-- What a successful `ConnectBlock` has established and done. -/
structure Connected (env : Env) (s : Node) (block : CBlock) (pindex : CBlockIndex) (after : Node) :
    Prop where
  checked : block.checkBlock env s.nAdjustedTime true true false = true
  connectable : Connectable env s.txdb.txIndex (block.entries pindex)
  txIndex : after.txdb.txIndex = applyTxs env s.txdb.txIndex (block.entries pindex)
  /-- A transaction id already in the index is overwritten only when fully spent. -/
  overwritable : ∀ tx ∈ block.vtx, ∀ old, s.txdb.txIndex (env.txHash tx) = some old →
    ∀ spent ∈ old.vSpent, spent.isNull = false
  frame : Frame s after
  notified : after.walletLog = s.walletLog ++ block.vtx.map fun tx => ⟨tx, block, true, true⟩

theorem connectBlock_cases (connected : block.connectBlock env s pindex pprev = some after) :
    block.checkBlock env s.nAdjustedTime true true false = true ∧
      ∃ acc, connectTxs env s pindex pprev false block.vtx
          ⟨∅, 0, 0, 0, 0, 0, block.firstTxPos pindex false⟩ = some acc ∧
        block.checkReward env s acc.nFees acc.nStakeReward = true ∧
        after = block.writeConnected s pindex pprev false acc := by
  simp only [connectBlock, Bool.not_false] at connected
  split at connected
  · simp at connected
  · rename_i checked
    split at connected
    · simp at connected
    · rename_i acc loop
      split at connected
      · rename_i rewarded
        rw [Option.some.injEq] at connected
        exact ⟨by simpa using checked, acc, loop, rewarded, connected.symm⟩
      · simp at connected

theorem connectBlock_spec (connected : block.connectBlock env s pindex pprev = some after) :
    Connected env s block pindex after := by
  obtain ⟨checked, acc, loop, -, rfl⟩ := connectBlock_cases connected
  obtain ⟨connectable, index, overwritable⟩ := connectTxs_overlay loop
  rw [overlay_empty] at connectable index
  exact ⟨checked, connectable, (txIndex_writeConnected acc).trans index, overwritable,
    frame_writeConnected acc, rfl⟩

end CBlock

namespace CTransaction

variable {env : Env} {tx : CTransaction}

/-- Writing one slot makes no slot appear or vanish. -/
theorem slotAt_setSlot_isSome (index : TxIndexMap) (written prevout : COutPoint) (pos : CDiskTxPos) :
    (slotAt (setSlot index written pos) prevout).isSome = (slotAt index prevout).isSome := by
  by_cases same : prevout = written
  · subst same
    cases present : slotAt index prevout with
    | none =>
        simp only [slotAt, slot, setSlot_apply_self] at present ⊢
        cases entry : index prevout.hash with
        | none => rfl
        | some found => simpa [entry] using present
    | some spent => rw [slotAt_setSlot_self (by simp [present])]; rfl
  · rw [slotAt_setSlot_ne same]

/-- `DisconnectInputs` succeeds where every input has a slot, and nulls them. -/
theorem unspendInputs_spec {vin : List CTxIn} (txdb : CTxDB)
    (present : ∀ txin ∈ vin, (slotAt txdb.txIndex txin.prevout).isSome) :
    ∃ after, unspendInputs vin txdb = .ok after ∧
      after.txIndex = setSlots txdb.txIndex vin CDiskTxPos.null := by
  induction vin generalizing txdb with
  | nil => exact ⟨txdb, rfl, rfl⟩
  | cons txin rest ih =>
      have here := present txin List.mem_cons_self
      obtain ⟨spent, holds⟩ := Option.isSome_iff_exists.mp here
      obtain ⟨entry, found⟩ := Option.isSome_iff_exists.mp (slotAt_isSome_entry holds)
      have bound : txin.prevout.n.toNat < entry.vSpent.length := by
        simpa [slotAt, slot, found] using here
      have read : txdb.readTxIndex txin.prevout.hash = some entry := found
      simp only [unspendInputs, read, Nat.not_le.mpr bound, if_false]
      -- The database write is the slot write of the abstract index.
      have written : (txdb.updateTxIndex txin.prevout.hash
          { entry with vSpent := entry.vSpent.set txin.prevout.n.toNat CDiskTxPos.null }).txIndex =
          setSlot txdb.txIndex txin.prevout CDiskTxPos.null := by
        rw [CTxDB.txIndex_updateTxIndex, setSlot, found]
        rfl
      obtain ⟨after, succeeds, result⟩ := ih (txdb.updateTxIndex txin.prevout.hash
          { entry with vSpent := entry.vSpent.set txin.prevout.n.toNat CDiskTxPos.null }) (by
        intro other member
        rw [written, slotAt_setSlot_isSome]
        exact present other (List.mem_cons_of_mem _ member))
      refine ⟨after, succeeds, ?_⟩
      rw [result, written]
      rfl

/-- Disconnecting a transaction right after connecting it restores the index. -/
theorem disconnectInputs_applyTx {index : TxIndexMap} {pos : CDiskTxPos} {txdb : CTxDB}
    (connected : txdb.txIndex = applyTx env index tx pos) (real : pos.isNull = false)
    (spendable : TxSpendable index tx pos) (fresh : index (env.txHash tx) = none) :
    ∃ after, tx.disconnectInputs env txdb = .ok after ∧ after.txIndex = index := by
  unfold disconnectInputs
  by_cases base : tx.isCoinBase
  · refine ⟨_, by rw [if_pos base], ?_⟩
    rw [CTxDB.txIndex_eraseTxIndex, connected, applyTx, if_pos base, Function.update_idem]
    exact Function.update_eq_self_iff.mpr fresh.symm
  · have inputs : Spendable pos index tx.vin := spendable (by simpa using base)
    -- No input refers to the transaction itself, whose id was not indexed before.
    have foreign : ∀ txin ∈ tx.vin, env.txHash tx ≠ txin.prevout.hash := by
      intro txin member same
      have entry := slotAt_isSome_entry (inputs.slotAt_null real member)
      rw [← same, fresh] at entry
      cases entry
    have slots : ∀ txin ∈ tx.vin, (slotAt txdb.txIndex txin.prevout).isSome := by
      intro txin member
      rw [connected, slotAt_applyTx_ne (foreign txin member).symm, if_neg base,
        inputs.slotAt_setSlots real member]
      rfl
    obtain ⟨after, succeeds, result⟩ := unspendInputs_spec txdb slots
    refine ⟨after.eraseTxIndex (env.txHash tx), by rw [if_neg base, succeeds], ?_⟩
    have restored : after.txIndex = Function.update index (env.txHash tx)
        (some (CTxIndex.new pos tx.vout.length)) := by
      rw [result, connected, applyTx, if_neg base, setSlots_update foreign, inputs.unspend real]
    rw [CTxDB.txIndex_eraseTxIndex, restored, Function.update_idem]
    exact Function.update_eq_self_iff.mpr fresh.symm

end CTransaction

namespace CBlock

variable {env : Env} {s : Node} {block : CBlock} {pindex : CBlockIndex}

theorem disconnectTxs_append (first second : List CTransaction) (txdb : CTxDB) :
    disconnectTxs env (first ++ second) txdb =
      match disconnectTxs env first txdb with
      | .error failed => .error failed
      | .ok after => disconnectTxs env second after := by
  induction first generalizing txdb with
  | nil => rfl
  | cons tx rest ih =>
      simp only [List.cons_append, disconnectTxs]
      cases tx.disconnectInputs env txdb with
      | error failed => rfl
      | ok after => exact ih after

/-- Disconnecting the transactions of a block, last first, undoes connecting them. -/
theorem disconnectTxs_applyTxs {entries : TxHistory} {index : TxIndexMap} {txdb : CTxDB}
    (connected : txdb.txIndex = applyTxs env index entries)
    (connectable : Connectable env index entries) (real : ∀ entry ∈ entries, entry.2.isNull = false)
    (nodup : (ids env entries).Nodup) (fresh : ∀ hash ∈ ids env entries, index hash = none) :
    ∃ after, disconnectTxs env (entries.map Prod.fst).reverse txdb = .ok after ∧
      after.txIndex = index := by
  induction entries generalizing index txdb with
  | nil => exact ⟨txdb, rfl, connected⟩
  | cons entry rest ih =>
      obtain ⟨tx, pos⟩ := entry
      simp only [ids, List.map_cons, List.nodup_cons] at nodup
      have absent : index (env.txHash tx) = none := fresh _ (by simp [ids])
      -- The later transactions stay fresh once this one is connected.
      have restFresh : ∀ hash ∈ ids env rest, applyTx env index tx pos hash = none := by
        intro hash member
        rw [← Option.not_isSome_iff_eq_none, applyTx_isSome]
        rintro (rfl | present)
        · exact nodup.1 member
        · rw [fresh hash (List.mem_cons_of_mem _ member)] at present
          cases present
      obtain ⟨middle, undone, before⟩ := ih connected connectable.2
        (fun entry member => real entry (List.mem_cons_of_mem _ member)) nodup.2 restFresh
      obtain ⟨after, succeeds, restored⟩ := CTransaction.disconnectInputs_applyTx before
        (real _ List.mem_cons_self) connectable.1 absent
      refine ⟨after, ?_, restored⟩
      rw [List.map_cons, List.reverse_cons, disconnectTxs_append, undone]
      simp only [disconnectTxs, succeeds]

/-- `DisconnectBlock` undoes the connection of a block whose ids were not indexed. -/
theorem disconnectBlock_applyTxs (pprev : BlockPtr) {index : TxIndexMap}
    (connected : s.txdb.txIndex = applyTxs env index (block.entries pindex))
    (connectable : Connectable env index (block.entries pindex))
    (nodup : (block.vtx.map env.txHash).Nodup)
    (fresh : ∀ tx ∈ block.vtx, index (env.txHash tx) = none) :
    ∃ after, block.disconnectBlock env s pprev = .ok after ∧ after.txdb.txIndex = index := by
  have idsEq := ids_entries env block pindex
  obtain ⟨txdb, undone, restored⟩ := disconnectTxs_applyTxs connected connectable
    (fun entry member => entries_real member) (idsEq ▸ nodup) (by
      intro hash member
      rw [idsEq] at member
      obtain ⟨tx, present, rfl⟩ := List.mem_map.mp member
      exact fresh tx present)
  rw [entries_map_fst] at undone
  unfold disconnectBlock
  rw [undone]
  refine ⟨_, rfl, ?_⟩
  cases pprev with
  | nil => exact restored
  | cons prev grand => simpa using restored

end CBlock

end InfiniteRicks
