import InfiniteRicks.Template
import InfiniteRicks.MoneyRange

/-!
# Every template connects

What the selection loop holds together in every round: each candidate is waiting, queued or taken, and once; the
connected transactions with those taken are a valid history whose index the overlay shows; the counters are what the
transactions taken add up to. Only a transaction that is taken changes any of it, since the others are tried on a copy.
-/

namespace InfiniteRicks

open Ledger

/-! ## The pool and the index -/

section Fresh

variable {env : Env} {Known : CTransaction → Prop} {rank : CTransaction → Nat} {s : Node} {history : TxHistory}

/-- No transaction of the pool is connected already: its inputs would be spent, so they would be outputs of others of
the pool that are connected too, and so on without end. -/
theorem MinerState.fresh (state : MinerState env Known rank s history) {hash : UInt256} {tx : CTransaction}
    (found : s.mempool.mapTx.lookup hash = some tx) : hash ∉ ids env history := by
  generalize height : rank tx = n
  induction n using Nat.strong_induction_on generalizing hash tx with
  | _ n ih =>
      intro confirmed
      obtain ⟨own, known, checked, notBase⟩ := state.keyed found
      obtain ⟨⟨other, pos⟩, member, same⟩ := List.mem_map.mp confirmed
      obtain rfl : other = tx := state.family.collisionFree (state.known _ member) known (same.trans own.symm)
      obtain ⟨txin, inputs⟩ := List.exists_mem_of_ne_nil _ (CTransaction.vin_ne_nil checked)
      have consumes : txin.prevout ∈ spends other := by
        rw [spends, notBase, if_neg Bool.false_ne_true]
        exact List.mem_map_of_mem inputs
      obtain ⟨taken, holds⟩ := state.valid.slotAt_of_spends member consumes
      rcases state.spendable hash other found txin inputs with ⟨parent, stored, -, -⟩ | unspent
      · obtain ⟨ownParent, knownParent, -, -⟩ := state.keyed stored
        have lower := state.family.acyclic known knownParent inputs ownParent.symm
        exact ih (rank parent) (height ▸ lower) stored rfl ((replay_isSome _).mp (slotAt_isSome_entry holds))
      · rw [Unspent, state.indexed, holds, Option.some.injEq] at unspent
        rw [unspent] at taken
        exact absurd taken (by decide)

end Fresh

/-! ## What a template state holds -/

/-- Every candidate of a template state: taken, queued or waiting. -/
def TemplateState.held (st : TemplateState) : List CTransaction :=
  st.vtx ++ (st.vecPriority ++ st.vOrphan.map COrphan.ptx)

theorem held_addToTemplate (env : Env) (st : TemplateState) (tx : CTransaction) (mapTestPool : QueuedChanges)
    (nTxSigOps : Nat) (nTxFees : Int64) :
    (addToTemplate env st tx mapTestPool nTxSigOps nTxFees).held.Perm (tx :: st.held) := by
  have same : ∀ orphans : List COrphan, (orphans.map fun orphan : COrphan =>
      { orphan with setDependsOn := orphan.setDependsOn.filter (· ≠ env.txHash tx) }).map COrphan.ptx =
      orphans.map COrphan.ptx := by
    intro orphans
    rw [List.map_map]
    rfl
  simp only [TemplateState.held, addToTemplate]
  rw [← same st.vOrphan]
  generalize (st.vOrphan.map fun orphan : COrphan =>
    { orphan with setDependsOn := orphan.setDependsOn.filter (· ≠ env.txHash tx) }) = orphans
  -- the orphans are those released and those that still wait
  have parts : ((orphans.filter fun orphan => orphan.setDependsOn.isEmpty).map COrphan.ptx ++
      (orphans.filter fun orphan => !orphan.setDependsOn.isEmpty).map COrphan.ptx).Perm
        (orphans.map COrphan.ptx) := by
    rw [← List.map_append]
    exact (List.filter_append_perm _ orphans).map _
  simp only [List.append_assoc]
  exact List.perm_middle.trans ((List.Perm.append_left _ (List.Perm.append_left _ parts)).cons _)

section Candidates

variable {env : Env} {s : Node}

theorem ptx_poolCandidates (s : Node) (nHeight : Int) :
    ((poolCandidates s nHeight).map COrphan.ptx).Sublist (s.mempool.mapTx.entries.map Sigma.snd) := by
  rw [poolCandidates, List.map_filterMap]
  generalize s.mempool.mapTx.entries.map Sigma.snd = txs
  induction txs with
  | nil => exact List.Sublist.slnil
  | cons tx rest ih =>
      rw [List.filterMap_cons]
      split
      · exact ih.cons tx
      · rename_i other found
        have same : other = tx := by
          split at found
          · cases found
          · obtain ⟨orphan, made, rfl⟩ := Option.map_eq_some_iff.mp found
            obtain ⟨hashes, -, rfl⟩ := Option.map_eq_some_iff.mp made
            rfl
        rw [same]
        exact ih.cons_cons tx

theorem held_startTemplate (options : MinerOptions) (s : Node) (nHeight : Int) :
    (startTemplate options s nHeight).held.Perm ((poolCandidates s nHeight).map COrphan.ptx) := by
  change (((poolCandidates s nHeight).filter fun orphan => orphan.setDependsOn.isEmpty).map COrphan.ptx ++
    ((poolCandidates s nHeight).filter fun orphan => !orphan.setDependsOn.isEmpty).map COrphan.ptx).Perm _
  rw [← List.map_append]
  exact (List.filter_append_perm _ _).map _

/-- A pool under its ids has each id once. -/
theorem nodup_pool {Known : CTransaction → Prop} {rank : CTransaction → Nat} {history : TxHistory}
    (state : MinerState env Known rank s history) :
    ((s.mempool.mapTx.entries.map Sigma.snd).map env.txHash).Nodup := by
  have keys : (s.mempool.mapTx.entries.map Sigma.snd).map env.txHash = s.mempool.mapTx.entries.map Sigma.fst := by
    rw [List.map_map]
    refine List.map_congr_left fun entry member => ?_
    exact (state.keyed (AList.mem_lookup_iff.mpr member)).1
  rw [keys]
  exact s.mempool.mapTx.nodupKeys

theorem lookup_of_mem_pool {Known : CTransaction → Prop} {rank : CTransaction → Nat} {history : TxHistory}
    (state : MinerState env Known rank s history) {tx : CTransaction}
    (member : tx ∈ s.mempool.mapTx.entries.map Sigma.snd) : s.mempool.mapTx.lookup (env.txHash tx) = some tx := by
  obtain ⟨entry, inside, rfl⟩ := List.mem_map.mp member
  have found : s.mempool.mapTx.lookup entry.1 = some entry.2 := AList.mem_lookup_iff.mpr inside
  rwa [← (state.keyed found).1] at found

end Candidates

/-! ## Sums over the transactions taken -/

section Sums

variable {env : Env} {s : Node}

@[simp] theorem templateEntries_append (first second : List CTransaction) :
    templateEntries (first ++ second) = templateEntries first ++ templateEntries second := List.map_append

theorem ids_templateEntries (vtx : List CTransaction) : ids env (templateEntries vtx) = vtx.map env.txHash := by
  rw [ids, templateEntries, List.map_map]
  rfl

theorem created_append (select : CTransaction → Bool) (index : TxIndexMap) (first second : TxHistory) :
    created env s select index (first ++ second) =
      created env s select index first + created env s select (applyTxs env index first) second := by
  induction first generalizing index with
  | nil => simp [created, applyTxs]
  | cons entry rest ih =>
      obtain ⟨tx, pos⟩ := entry
      rw [List.cons_append, created, created, ih]
      exact (Int.add_assoc _ _ _).symm

theorem sigOpsOf_append (index : TxIndexMap) (first second : TxHistory) :
    sigOpsOf env s index (first ++ second) =
      sigOpsOf env s index first + sigOpsOf env s (applyTxs env index first) second := by
  induction first generalizing index with
  | nil => simp [sigOpsOf, applyTxs]
  | cons entry rest ih =>
      obtain ⟨tx, pos⟩ := entry
      rw [List.cons_append, sigOpsOf, sigOpsOf, ih]
      exact (Nat.add_assoc _ _ _).symm

theorem replayInputs_append (fBlock fMiner : Bool) (first second : List CTransaction) (mapTestPool : QueuedChanges) :
    replayInputs env s fBlock fMiner (first ++ second) mapTestPool =
      (replayInputs env s fBlock fMiner first mapTestPool).bind (replayInputs env s fBlock fMiner second) := by
  induction first generalizing mapTestPool with
  | nil => rfl
  | cons tx rest ih =>
      simp only [List.cons_append, replayInputs]
      split
      · rfl
      · split
        · rfl
        · exact ih _

end Sums

/-! ## One transaction -/

section Taken

variable {env : Env} {s : Node} {tx : CTransaction} {queued after : QueuedChanges} {mapInputs : MapPrevTx}

/-- The counted signature operations are those of the index view. -/
theorem countedSigOps_of_located {index : TxIndexMap} (located : CTransaction.Located s index mapInputs)
    (inRange : ∀ txin ∈ tx.vin, (mapInputs txin.prevout.hash).isSome) (notBase : tx.isCoinBase = false) :
    tx.getLegacySigOpCount + tx.getP2SHSigOpCount mapInputs = countedSigOps s index tx := by
  rw [countedSigOps, CTransaction.getP2SHSigOpCount, notBase, if_neg Bool.false_ne_true]
  congr 2
  refine List.map_congr_left fun txin member => ?_
  obtain ⟨prev, found⟩ := Option.isSome_iff_exists.mp (inRange txin member)
  obtain ⟨entry, stored⟩ := located _ _ found
  have same : prevOut s index txin.prevout = CTransaction.getOutputFor mapInputs txin := by
    simp [prevOut, entry, stored, CTransaction.getOutputFor, found]
  exact same ▸ rfl

/-- What a transaction leaves is what its input sum has more than its output sum, and not negative. -/
theorem createdBy_of_connected {index : TxIndexMap} {nTxValueIn nTxValueOut : Int64} (loose : Loose tx)
    (located : CTransaction.Located s index mapInputs) (valueIn : tx.getValueIn mapInputs = some nTxValueIn)
    (valueOut : tx.getValueOut = some nTxValueOut)
    (connected : tx.connectInputs env s.nBestHeight mapInputs queued CDiskTxPos.memoryPool s.pindexBest true false =
      some after) :
    nTxValueIn - nTxValueOut = Int64.ofInt (-createdBy s index tx) ∧ 0 ≤ -createdBy s index tx := by
  obtain ⟨consumed, -, covered⟩ := CTransaction.connectInputs_value connected loose.1 located valueIn valueOut
  obtain ⟨paid, -⟩ := CTransaction.addValueOut_exact (by decide) valueOut
  have zero : Int64.toInt 0 = 0 := rfl
  have net : createdBy s index tx = nTxValueOut.toInt - nTxValueIn.toInt := by
    rw [createdBy, loose.1, consumed, paid, zero]
    simp
  rw [net, Int.neg_sub, Int64.ofInt_sub, Int64.ofInt_toInt, Int64.ofInt_toInt]
  have enough := covered loose.2
  exact ⟨rfl, by omega⟩

/-- For a block the overlay and the database are read as for the miner. -/
theorem fetchInputs_block (s : Node) (txdb : CTxDB) (queued : QueuedChanges) (tx : CTransaction) :
    tx.fetchInputs s txdb queued true false = tx.fetchInputs s txdb queued false true := by
  have loop : ∀ vin inputs, CTransaction.fetchLoop s txdb queued true false vin inputs =
      CTransaction.fetchLoop s txdb queued false true vin inputs := by
    intro vin
    induction vin with
    | nil => intro inputs; rfl
    | cons txin rest ih =>
        intro inputs
        have one : CTransaction.fetchPrev s txdb queued true false txin.prevout.hash =
            CTransaction.fetchPrev s txdb queued false true txin.prevout.hash := rfl
        simp only [CTransaction.fetchLoop, one, ih]
  simp only [CTransaction.fetchInputs, loop]

/-- Every input that is fetched is in range. -/
theorem fetchInputs_prevouts {txdb : CTxDB} {fBlock fMiner : Bool} (notBase : tx.isCoinBase = false)
    (fetched : tx.fetchInputs s txdb queued fBlock fMiner = .ok mapInputs) :
    ∀ txin ∈ tx.vin, CTransaction.prevoutInRange mapInputs txin = true := by
  simp only [CTransaction.fetchInputs, notBase, Bool.false_eq_true, if_false] at fetched
  split at fetched
  · cases fetched
  split at fetched
  · rename_i inside
    cases fetched
    exact List.all_eq_true.mp inside
  · cases fetched

theorem fetchInputs_isSome {txdb : CTxDB} {fBlock fMiner : Bool} (notBase : tx.isCoinBase = false)
    (fetched : tx.fetchInputs s txdb queued fBlock fMiner = .ok mapInputs) :
    ∀ txin ∈ tx.vin, (mapInputs txin.prevout.hash).isSome := by
  intro txin member
  have present := fetchInputs_prevouts notBase fetched txin member
  simp only [CTransaction.prevoutInRange] at present
  split at present
  · cases present
  · rename_i found
    rw [found]
    rfl

/-- A fetched input names an output. -/
theorem getValueIn_isSome {txdb : CTxDB} {fBlock fMiner : Bool} (notBase : tx.isCoinBase = false)
    (fetched : tx.fetchInputs s txdb queued fBlock fMiner = .ok mapInputs) :
    (tx.getValueIn mapInputs).isSome = true := by
  have loop : ∀ vin start, (∀ txin ∈ vin, CTransaction.prevoutInRange mapInputs txin = true) →
      (CTransaction.addValueIn mapInputs start vin).isSome = true := by
    intro vin
    induction vin with
    | nil => exact fun _ _ => rfl
    | cons txin rest ih =>
        intro start inside
        have present := inside txin List.mem_cons_self
        simp only [CTransaction.prevoutInRange] at present
        split at present
        · cases present
        rename_i txindex txPrev found
        rw [Bool.and_eq_true, decide_eq_true_eq] at present
        rw [CTransaction.addValueIn, CTransaction.getOutputFor, found]
        simp only [List.getElem?_eq_getElem present.1]
        exact ih _ fun other member => inside other (List.mem_cons_of_mem _ member)
  rw [CTransaction.getValueIn, notBase, if_neg Bool.false_ne_true]
  exact loop tx.vin 0 (fetchInputs_prevouts notBase fetched)

end Taken

/-! ## The loop -/

/-- What holds in every round of the selection. -/
structure TemplateTrace (env : Env) (options : MinerOptions) (s : Node) (history : TxHistory) (st : TemplateState) :
    Prop where
  distinct : (st.held.map env.txHash).Nodup
  pooled : ∀ tx ∈ st.held, Loose tx ∧ s.mempool.mapTx.lookup (env.txHash tx) = some tx
  size : st.nBlockSize = (st.vtx.map CTransaction.getSerializeSize).sum + 1000
  room : st.vtx ≠ [] → st.nBlockSize < options.nBlockMaxSize
  sigOps : st.nBlockSigOps = 100 + sigOpsOf env s s.txdb.fresh.txIndex (templateEntries st.vtx)
  limited : st.nBlockSigOps < maxBlockSigOps
  fees : st.nFees = Int64.ofInt (paidFees env s st.vtx)
  covered : 0 ≤ paidFees env s st.vtx
  valid : Valid env ((templateEntries st.vtx).reverse ++ history)
  view : overlay st.mapTestPool s.txdb.fresh.txIndex = replay env ((templateEntries st.vtx).reverse ++ history)
  replays : ∀ fBlock, replayInputs env s fBlock (!fBlock) st.vtx ∅ = some st.mapTestPool

section Loop

variable {env : Env} {options : MinerOptions} {scores : TxScores} {Known : CTransaction → Prop}
  {rank : CTransaction → Nat} {s : Node} {history : TxHistory} {nCoinBaseTime : UInt32}

/-- A transaction that connects on top of those taken is taken. -/
theorem TemplateTrace.add (state : MinerState env Known rank s history) {st : TemplateState} {tx : CTransaction}
    (trace : TemplateTrace env options s history st) (distinct : ((tx :: st.held).map env.txHash).Nodup)
    (loose : Loose tx) (found : s.mempool.mapTx.lookup (env.txHash tx) = some tx) {mapInputs : MapPrevTx}
    {nTxValueIn nTxValueOut : Int64} {mapTestPool : QueuedChanges}
    (room : st.nBlockSize + tx.getSerializeSize < options.nBlockMaxSize)
    (fetched : tx.fetchInputs s s.txdb.fresh st.mapTestPool false true = .ok mapInputs)
    (valueIn : tx.getValueIn mapInputs = some nTxValueIn) (valueOut : tx.getValueOut = some nTxValueOut)
    (limited : st.nBlockSigOps + (tx.getLegacySigOpCount + tx.getP2SHSigOpCount mapInputs) < maxBlockSigOps)
    (connected : tx.connectInputs env s.nBestHeight mapInputs st.mapTestPool CDiskTxPos.memoryPool s.pindexBest
      false true = some mapTestPool) :
    TemplateTrace env options s history (addToTemplate env st tx mapTestPool
      (tx.getLegacySigOpCount + tx.getP2SHSigOpCount mapInputs) (nTxValueIn - nTxValueOut)) := by
  have fetchedBlock := (CTransaction.fetchInputs_miner s st.mapTestPool tx).symm.trans fetched
  have connectedBlock := CTransaction.connectInputs_miner connected
  have located : CTransaction.Located s (overlay st.mapTestPool s.txdb.fresh.txIndex) mapInputs :=
    CTransaction.fetchInputs_located fetchedBlock
  have inRange := fetchInputs_isSome loose.1 fetched
  -- the index of its turn
  have turn : applyTxs env s.txdb.fresh.txIndex (templateEntries st.vtx) =
      overlay st.mapTestPool s.txdb.fresh.txIndex := by
    rw [trace.view, replay_reverse_append, state.indexed]
  obtain ⟨spendable, written⟩ := CTransaction.connectInputs_spec connectedBlock loose.1
    (CTransaction.fetchInputs_fetched fetchedBlock)
  have spendable : Spendable CDiskTxPos.memoryPool (overlay st.mapTestPool s.txdb.fresh.txIndex) tx.vin := spendable
  have written : overlay mapTestPool s.txdb.fresh.txIndex =
      setSlots (overlay st.mapTestPool s.txdb.fresh.txIndex) tx.vin CDiskTxPos.memoryPool := written
  obtain ⟨fee, nonneg⟩ := createdBy_of_connected loose located valueIn valueOut connectedBlock
  have counted := countedSigOps_of_located located inRange loose.1
  have entries : (templateEntries (st.vtx ++ [tx])).reverse ++ history =
      (tx, CDiskTxPos.memoryPool) :: ((templateEntries st.vtx).reverse ++ history) := by
    rw [templateEntries_append, List.reverse_append]
    rfl
  have paid : paidFees env s (st.vtx ++ [tx]) =
      paidFees env s st.vtx + -createdBy s (overlay st.mapTestPool s.txdb.fresh.txIndex) tx := by
    rw [paidFees, templateEntries_append, created_append, turn, paidFees]
    simp only [templateEntries, List.map_cons, List.map_nil, created, if_true]
    omega
  have perm := held_addToTemplate env st tx mapTestPool
    (tx.getLegacySigOpCount + tx.getP2SHSigOpCount mapInputs) (nTxValueIn - nTxValueOut)
  constructor
  · exact (perm.map env.txHash).nodup_iff.mpr distinct
  · intro other member
    rcases List.mem_cons.mp (perm.mem_iff.mp member) with rfl | before
    · exact ⟨loose, found⟩
    · exact trace.pooled other before
  · change st.nBlockSize + tx.getSerializeSize = ((st.vtx ++ [tx]).map CTransaction.getSerializeSize).sum + 1000
    rw [trace.size, List.map_append, List.sum_append, List.map_singleton, List.sum_singleton]
    omega
  · exact fun _ => room
  · change st.nBlockSigOps + (tx.getLegacySigOpCount + tx.getP2SHSigOpCount mapInputs) =
      100 + sigOpsOf env s s.txdb.fresh.txIndex (templateEntries (st.vtx ++ [tx]))
    rw [trace.sigOps, templateEntries_append, sigOpsOf_append, turn, counted]
    simp only [templateEntries, List.map_cons, List.map_nil, sigOpsOf]
    omega
  · exact limited
  · change st.nFees + (nTxValueIn - nTxValueOut) = Int64.ofInt (paidFees env s (st.vtx ++ [tx]))
    rw [paid, Int64.ofInt_add, ← trace.fees, fee]
  · change 0 ≤ paidFees env s (st.vtx ++ [tx])
    have before := trace.covered
    rw [paid]
    omega
  · change Valid env ((templateEntries (st.vtx ++ [tx])).reverse ++ history)
    rw [entries]
    refine ⟨?_, rfl, fun _ => trace.view ▸ spendable, trace.valid⟩
    intro again
    rw [ids, List.map_append, List.mem_append] at again
    rcases again with taken | confirmed
    · rw [List.map_reverse, List.mem_reverse] at taken
      have taken : env.txHash tx ∈ ids env (templateEntries st.vtx) := taken
      rw [ids_templateEntries] at taken
      rw [List.map_cons, List.nodup_cons, TemplateState.held, List.map_append, List.mem_append, not_or] at distinct
      exact distinct.1.1 taken
    · exact state.fresh found confirmed
  · change overlay (mapTestPool.insert (env.txHash tx) (CTxIndex.new CDiskTxPos.memoryPool tx.vout.length))
      s.txdb.fresh.txIndex = replay env ((templateEntries (st.vtx ++ [tx])).reverse ++ history)
    rw [entries, overlay_insert, written, trace.view, replay, applyTx, loose.1, if_neg Bool.false_ne_true]
  · intro fBlock
    change replayInputs env s fBlock (!fBlock) (st.vtx ++ [tx]) ∅ = _
    rw [replayInputs_append, trace.replays fBlock, Option.bind_some]
    cases fBlock with
    | false => simp only [replayInputs, Bool.not_false, fetched, connected, addToTemplate]
    | true => simp only [replayInputs, Bool.not_true, fetchInputs_block, fetched, connectedBlock, addToTemplate]

theorem TemplateTrace.sorted {st : TemplateState} (trace : TemplateTrace env options s history st)
    (fSortedByFee : Bool) : TemplateTrace env options s history { st with fSortedByFee := fSortedByFee } :=
  ⟨trace.distinct, trace.pooled, trace.size, trace.room, trace.sigOps, trace.limited, trace.fees, trace.covered,
    trace.valid, trace.view, trace.replays⟩

/-- A round keeps the trace, with the transaction off the queue. -/
theorem TemplateTrace.consider (state : MinerState env Known rank s history) {st next : TemplateState}
    {tx : CTransaction} (trace : TemplateTrace env options s history st)
    (distinct : ((tx :: st.held).map env.txHash).Nodup) (loose : Loose tx)
    (found : s.mempool.mapTx.lookup (env.txHash tx) = some tx)
    (round : considerTx env options scores s nCoinBaseTime st tx = some next) :
    TemplateTrace env options s history next := by
  obtain ⟨fSortedByFee, rfl | ⟨mapInputs, nTxValueIn, nTxValueOut, mapTestPool, room, fetched, valueIn, valueOut,
    limited, connected, rfl⟩⟩ := considerTx_cases round
  · exact trace.sorted _
  · exact (trace.sorted fSortedByFee).add state distinct loose found room fetched valueIn valueOut limited connected

/-- The transaction at the front of the heap is one of the queue, and the others stay. -/
theorem front_perm (i : Nat) (first : CTransaction) (others : List CTransaction) :
    ((first :: others).getD (i % (others.length + 1)) first ::
      (first :: others).eraseIdx (i % (others.length + 1))).Perm (first :: others) := by
  have inside : i % (others.length + 1) < (first :: others).length := Nat.mod_lt _ (Nat.succ_pos _)
  rw [List.getD_eq_getElem?_getD, List.getElem?_eq_getElem inside, Option.getD_some]
  exact List.getElem_cons_eraseIdx_perm inside

/-- A checked transaction raises no exception in its round. -/
theorem considerTx_isSome (st : TemplateState) {tx : CTransaction} (loose : Loose tx)
    (valueOut : tx.getValueOut.isSome = true) :
    (considerTx env options scores s nCoinBaseTime st tx).isSome = true := by
  obtain ⟨nTxValueOut, valueOut⟩ := Option.isSome_iff_exists.mp valueOut
  simp only [considerTx]
  split
  · rfl
  split
  · rfl
  split
  · rfl
  split
  · rfl
  split
  · rfl
  rename_i mapInputs fetched
  obtain ⟨nTxValueIn, valueIn⟩ := Option.isSome_iff_exists.mp (getValueIn_isSome loose.1 fetched)
  rw [valueIn, valueOut]
  simp only
  split
  · rfl
  split
  · rfl
  split <;> rfl

/-- How many candidates are not looked at yet. -/
def TemplateState.left (st : TemplateState) : Nat := st.vecPriority.length + st.vOrphan.length

/-- A round puts back no more than has waited. -/
theorem left_considerTx {st next : TemplateState} {tx : CTransaction}
    (round : considerTx env options scores s nCoinBaseTime st tx = some next) : next.left = st.left := by
  obtain ⟨fSortedByFee, rfl | ⟨mapInputs, nTxValueIn, nTxValueOut, mapTestPool, -, -, -, -, -, -, rfl⟩⟩ :=
    considerTx_cases round
  · rfl
  · have perm := held_addToTemplate env { st with fSortedByFee := fSortedByFee } tx mapTestPool
      (tx.getLegacySigOpCount + tx.getP2SHSigOpCount mapInputs) (nTxValueIn - nTxValueOut)
    have count := perm.length_eq
    have taken : (addToTemplate env { st with fSortedByFee := fSortedByFee } tx mapTestPool
        (tx.getLegacySigOpCount + tx.getP2SHSigOpCount mapInputs) (nTxValueIn - nTxValueOut)).vtx =
        st.vtx ++ [tx] := rfl
    simp only [TemplateState.held, taken, List.length_append, List.length_cons, List.length_nil, List.length_map]
      at count
    simp only [TemplateState.left]
    omega

/-- The loop ends without an exception, and with fuel for every candidate it empties the queue. -/
theorem TemplateTrace.collect (state : MinerState env Known rank s history) {fuel : Nat} {st : TemplateState}
    (trace : TemplateTrace env options s history st) :
    ∃ final, collectTxs env options scores s nCoinBaseTime fuel st = some final ∧
      TemplateTrace env options s history final ∧ (st.left ≤ fuel → final.vecPriority = []) := by
  induction fuel generalizing st with
  | zero =>
      refine ⟨st, rfl, trace, fun none => List.length_eq_zero_iff.mp ?_⟩
      rw [TemplateState.left] at none
      omega
  | succ fuel ih =>
      cases queue : st.vecPriority with
      | nil => exact ⟨st, by simp only [collectTxs, queue], trace, fun _ => queue⟩
      | cons first others =>
          have perm := front_perm (scores.front st.fSortedByFee (first :: others)) first others
          simp only [collectTxs, queue]
          generalize (first :: others).getD (scores.front st.fSortedByFee (first :: others) % (others.length + 1))
            first = tx at perm
          generalize (first :: others).eraseIdx (scores.front st.fSortedByFee (first :: others) % (others.length + 1)) =
            rest at perm
          have held : st.held.Perm (tx :: TemplateState.held { st with vecPriority := rest }) := by
            rw [TemplateState.held, queue]
            exact (List.Perm.append_left _ (perm.symm.append_right _)).trans List.perm_middle
          have distinct := (held.map env.txHash).nodup_iff.mp trace.distinct
          obtain ⟨loose, found⟩ := trace.pooled tx (held.mem_iff.mpr List.mem_cons_self)
          have taken : TemplateTrace env options s history { st with vecPriority := rest } :=
            ⟨(List.nodup_cons.mp distinct).2,
              fun other member => trace.pooled other (held.mem_iff.mpr (List.mem_cons_of_mem _ member)), trace.size,
              trace.room, trace.sigOps, trace.limited, trace.fees, trace.covered, trace.valid, trace.view,
              trace.replays⟩
          obtain ⟨nValueOut, valueOut, -⟩ := CTransaction.getValueOut_of_checkTransaction (state.keyed found).2.2.1
          have returns : (considerTx env options scores s nCoinBaseTime { st with vecPriority := rest } tx).isSome =
              true := considerTx_isSome _ loose (valueOut ▸ rfl)
          obtain ⟨next, round⟩ := Option.isSome_iff_exists.mp returns
          obtain ⟨final, collected, kept, empty⟩ := ih (taken.consider state distinct loose found round)
          refine ⟨final, ?_, kept, fun enough => empty ?_⟩
          · rw [round]
            exact collected
          · have size := perm.length_eq
            simp only [List.length_cons] at size
            rw [left_considerTx round]
            simp only [TemplateState.left, queue, List.length_cons] at enough ⊢
            omega

theorem templateTrace_start (state : MinerState env Known rank s history) (nHeight : Int) :
    TemplateTrace env options s history (startTemplate options s nHeight) := by
  have held := held_startTemplate options s nHeight
  have within := ptx_poolCandidates s nHeight
  refine ⟨?_, ?_, rfl, fun taken => absurd rfl taken, rfl, (by change 100 < maxBlockSigOps; decide), rfl, le_rfl,
    state.valid, ?_, fun _ => rfl⟩
  · exact (held.map env.txHash).nodup_iff.mpr ((nodup_pool state).sublist (within.map env.txHash))
  · intro tx member
    have inside := held.mem_iff.mp member
    obtain ⟨orphan, candidate, rfl⟩ := List.mem_map.mp inside
    exact ⟨loose_of_candidate candidate, lookup_of_mem_pool state (within.subset inside)⟩
  · exact (overlay_empty _).trans state.indexed

/-- The selection looks at every candidate that does not wait for one left out. -/
theorem selectTxs_trace (state : MinerState env Known rank s history) (scores : TxScores) (nHeight : Int)
    (nCoinBaseTime : UInt32) :
    ∃ st, selectTxs env options scores s nHeight nCoinBaseTime = some st ∧ TemplateTrace env options s history st ∧
      st.vecPriority = [] := by
  obtain ⟨st, selected, trace, empty⟩ := (templateTrace_start state nHeight).collect state
  refine ⟨st, selected, trace, empty ?_⟩
  have size := (held_startTemplate options s nHeight).length_eq
  simp only [TemplateState.held, List.length_append, List.length_map] at size
  rw [TemplateState.left]
  omega

end Loop

/-! ## Every template -/

section Templates

variable {env : Env} {options : MinerOptions} {scores : TxScores} {Known : CTransaction → Prop}
  {rank : CTransaction → Nat} {s : Node} {history : TxHistory}

/-- In a valid history no transaction spends from a later one. -/
theorem parentsFirst_of_valid {vtx : List CTransaction} (notBase : ∀ tx ∈ vtx, tx.isCoinBase = false)
    (valid : Valid env ((templateEntries vtx).reverse ++ history)) :
    vtx.Pairwise fun earlier later => ∀ txin ∈ earlier.vin, txin.prevout.hash ≠ env.txHash later := by
  induction vtx using List.reverseRecOn with
  | nil => exact List.Pairwise.nil
  | append_singleton earlier tx ih =>
      rw [templateEntries_append, List.reverse_append] at valid
      obtain ⟨fresh, -, -, before⟩ := valid
      refine List.pairwise_append.mpr ⟨ih (fun other member => notBase other (List.mem_append_left _ member)) before,
        List.pairwise_singleton _ _, ?_⟩
      intro other member last same txin inputs
      obtain rfl := List.mem_singleton.mp same
      have entry : (other, CDiskTxPos.memoryPool) ∈ (templateEntries earlier).reverse ++ history :=
        List.mem_append_left _ (List.mem_reverse.mpr (List.mem_map.mpr ⟨other, member, rfl⟩))
      have consumes : txin.prevout ∈ spends other := by
        rw [spends, notBase other (List.mem_append_left _ member), if_neg Bool.false_ne_true]
        exact List.mem_map_of_mem inputs
      obtain ⟨-, holds⟩ := before.slotAt_of_spends entry consumes
      exact hash_ne_of_slotAt fresh holds

/-- In a valid history no output is spent twice. -/
theorem spentOnce_of_valid {vtx : List CTransaction} (notBase : ∀ tx ∈ vtx, tx.isCoinBase = false)
    (valid : Valid env ((templateEntries vtx).reverse ++ history)) :
    (vtx.flatMap fun tx => tx.vin.map CTxIn.prevout).Nodup := by
  have all := valid.consumed_nodup
  rw [Ledger.consumed, List.flatMap_append] at all
  have newest := (List.nodup_append.mp all).1
  have reversed := (List.reverse_perm (templateEntries vtx)).flatMap_right fun entry => spends entry.1
  have turned := reversed.nodup_iff.mp newest
  rw [templateEntries, List.flatMap_map] at turned
  have same : (vtx.flatMap fun tx => spends tx) = vtx.flatMap fun tx => tx.vin.map CTxIn.prevout := by
    refine List.flatMap_congr fun tx member => ?_
    rw [spends, notBase tx member, if_neg Bool.false_ne_true]
  exact same ▸ turned

theorem TemplateTrace.connects {st : TemplateState} (trace : TemplateTrace env options s history st) :
    Connects env options s st.vtx st.nFees := by
  have notBase : ∀ tx ∈ st.vtx, tx.isCoinBase = false := fun tx member =>
    (trace.pooled tx (List.mem_append_left _ member)).1.1
  refine ⟨?_, parentsFirst_of_valid notBase trace.valid, spentOnce_of_valid notBase trace.valid, ?_, ?_, trace.fees, ?_,
    fun fBlock => by rw [trace.replays fBlock]; rfl⟩
  · have distinct := trace.distinct
    rw [TemplateState.held, List.map_append] at distinct
    exact (List.nodup_append.mp distinct).1
  · intro taken
    rw [← trace.size]
    exact trace.room taken
  · rw [← trace.sigOps]
    exact trace.limited
  · intro small
    have nonneg := trace.covered
    rw [trace.fees]
    exact toInt_ofInt_eq (by omega) (by rw [maxMoney_toInt]; omega)

/-- The proof-of-stake template takes its transactions from the same loop. -/
theorem createNewBlock_eq (pindexPrev : CBlockIndex) (pprev : BlockPtr) (best : s.pindexBest = pindexPrev :: pprev) :
    createNewBlock env options scores s =
      (selectTxs env options scores s (pindexPrev.nHeight + 1) (stakeCoinBase s (pindexPrev.nHeight + 1)).nTime).map
        fun st =>
          let block : CBlock :=
            { nVersion := 6
              hashPrevBlock := pindexPrev.hash
              hashMerkleRoot := 0
              nTime := 0
              nBits := getNextTargetRequired env pindexPrev pprev true
              nNonce := 0
              vtx := stakeCoinBase s (pindexPrev.nHeight + 1) :: st.vtx
              vchBlockSig := [] }
          ({ block with nTime := blockTimeOn pindexPrev pprev block.getMaxTransactionTime }, st.nFees) := by
  simp only [createNewBlock, best, selectTxs, startTemplate]
  split
  · rename_i refused
    rw [refused]
    rfl
  · rename_i st selected
    rw [selected]
    rfl

/-- With a block to build on, and a key for a proof-of-work block, `CreateNewBlock` returns what the loop selects. -/
theorem createTemplate_selected (state : MinerState env Known rank s history) {fProofOfStake : Bool}
    {reservedKey : Option (BitVec 160)} (best : s.pindexBest ≠ [])
    (key : fProofOfStake = false → reservedKey.isSome = true) :
    ∃ template st, createTemplate env options scores s fProofOfStake reservedKey = some (template, st.nFees) ∧
      template.vtx.tail = st.vtx ∧ TemplateTrace env options s history st := by
  obtain ⟨pindexPrev, pprev, best⟩ := List.exists_cons_of_ne_nil best
  cases fProofOfStake with
  | true =>
      obtain ⟨st, selected, trace, -⟩ := selectTxs_trace state scores (pindexPrev.nHeight + 1)
        (stakeCoinBase s (pindexPrev.nHeight + 1)).nTime
      rw [createTemplate, if_pos rfl, createNewBlock_eq pindexPrev pprev best, selected]
      exact ⟨_, st, rfl, rfl, trace⟩
  | false =>
      obtain ⟨st, selected, trace, -⟩ := selectTxs_trace state scores (pindexPrev.nHeight + 1) 0xffffffff
      obtain ⟨id, rfl⟩ := Option.isSome_iff_exists.mp (key rfl)
      simp only [createTemplate, Bool.false_eq_true, if_false, createWorkBlock, best]
      rw [selected]
      exact ⟨_, st, rfl, rfl, trace⟩

/-- For every pool and every order of its transactions, `CreateNewBlock` returns a template whose transactions connect,
within its limits, and leave its fees. -/
theorem template_connects (state : MinerState env Known rank s history) {fProofOfStake : Bool}
    {reservedKey : Option (BitVec 160)} (best : s.pindexBest ≠ [])
    (key : fProofOfStake = false → reservedKey.isSome = true) :
    ∃ template nFees, createTemplate env options scores s fProofOfStake reservedKey = some (template, nFees) ∧
      Connects env options s template.vtx.tail nFees := by
  obtain ⟨template, st, created, vtx, trace⟩ := createTemplate_selected state best key
  exact ⟨template, st.nFees, created, vtx ▸ trace.connects⟩

end Templates

section Concrete

/-- A coinbase whose two outputs are together worth more than 2^63. -/
def richRoot : CTransaction :=
  .labelledCoinBase 50 900 [0x51, 0] [⟨2 ^ 62 + 2 * coin, [0x51]⟩, ⟨2 ^ 62 + 2 * coin, [0x51]⟩]

/-- One transaction for each output, and one that spends from the first. -/
def richFirst : CTransaction := .labelledSpend 60 1000 ⟨50, 0⟩ coin

def richSecond : CTransaction := .labelledSpend 61 1000 ⟨50, 1⟩ coin

def richChild : CTransaction := .labelledSpend 62 1000 ⟨60, 0⟩ (coin - 20000)

/-- A node with the coinbase in its index and the others in its pool. -/
def richNode : Node :=
  { fundedNode with
    files := ⟨fun pos => if pos.nTxPos = 581 then some richRoot else none, fun _ _ => none⟩
    nAdjustedTime := 60000
    pindexBest := [workGenesis]
    nBestHeight := 0
    mempool := ((CTxMemPool.empty.addUnchecked 60 richFirst).addUnchecked 61 richSecond).addUnchecked 62 richChild }

def richOptions (blockMaxSize : Nat) : MinerOptions := ⟨blockMaxSize, 27000, 0⟩

def firstScores : TxScores := ⟨fun _ _ => 0, fun _ => false, fun _ => false⟩

def richTxs : List CTransaction := [richRoot, richFirst, richSecond, richChild]

def richHistory : TxHistory := [(richRoot, ⟨1, 500, 581, fundedPos_nullUnique⟩)]

theorem richTxs_family : TxUniverse (Env.labelled true) (· ∈ richTxs) (fun tx => tx.nLockTime.toNat) := by
  have distinct : ∀ tx ∈ richTxs, ∀ other ∈ richTxs,
      (Env.labelled true).txHash tx = (Env.labelled true).txHash other → tx = other := by decide +kernel
  have ordered : ∀ tx ∈ richTxs, ∀ other ∈ richTxs, ∀ txin ∈ tx.vin,
      txin.prevout.hash = (Env.labelled true).txHash other → other.nLockTime.toNat < tx.nLockTime.toNat := by
    decide +kernel
  exact ⟨fun known knownOther => distinct _ known _ knownOther,
    fun known knownOther member => ordered _ known _ knownOther _ member⟩

theorem richNode_pool {hash : UInt256} {tx : CTransaction} (found : richNode.mempool.mapTx.lookup hash = some tx) :
    (hash, tx) = (60, richFirst) ∨ (hash, tx) = (61, richSecond) ∨ (hash, tx) = (62, richChild) := by
  simp only [richNode, CTxMemPool.addUnchecked, CTxMemPool.empty] at found
  by_cases child : hash = 62
  · subst child
    rw [AList.lookup_insert, Option.some.injEq] at found
    exact .inr (.inr (by rw [found]))
  rw [AList.lookup_insert_ne child] at found
  by_cases second : hash = 61
  · subst second
    rw [AList.lookup_insert, Option.some.injEq] at found
    exact .inr (.inl (by rw [found]))
  rw [AList.lookup_insert_ne second] at found
  by_cases first : hash = 60
  · subst first
    rw [AList.lookup_insert, Option.some.injEq] at found
    exact .inl (by rw [found])
  · rw [AList.lookup_insert_ne first, AList.lookup_empty] at found
    cases found

theorem richNode_state :
    MinerState (Env.labelled true) (· ∈ richTxs) (fun tx => tx.nLockTime.toNat) richNode richHistory := by
  refine ⟨richTxs_family, ?_, ?_, ⟨by decide, by decide, (fun ordinary => by cases ordinary), trivial⟩,
    by decide +kernel, ?_⟩
  · intro hash tx found
    rcases richNode_pool found with same | same | same <;>
      · obtain ⟨rfl, rfl⟩ := Prod.mk.inj same
        decide +kernel
  · intro hash tx found txin inputs
    rcases richNode_pool found with same | same | same <;> obtain ⟨rfl, rfl⟩ := Prod.mk.inj same
    · obtain rfl := List.mem_singleton.mp inputs
      exact .inr (by rw [Unspent]; decide +kernel)
    · obtain rfl := List.mem_singleton.mp inputs
      exact .inr (by rw [Unspent]; decide +kernel)
    · obtain rfl := List.mem_singleton.mp inputs
      exact .inl ⟨richFirst, by decide +kernel, by decide, by decide⟩
  · funext hash
    rw [CTxDB.txIndex_eq, CTxDB.view_of_no_batch rfl]
    by_cases root : hash = 50
    · subst root
      decide +kernel
    · have other : (Env.labelled true).txHash richRoot = 50 := by decide
      rw [richHistory, replay, applyTx, other, Function.update_of_ne root]
      simp only [richNode, fundedNode, CTxDB.fresh, DbKey.tx.injEq, root, if_false]
      rfl

/-- A template with a child behind its parent. -/
theorem template_connects_rich : ∃ template nFees,
    createTemplate (Env.labelled true) (richOptions (maxBlockSizeGen / 2)) firstScores richNode true none =
        some (template, nFees) ∧
      Connects (Env.labelled true) (richOptions (maxBlockSizeGen / 2)) richNode template.vtx.tail nFees :=
  template_connects richNode_state (List.cons_ne_nil _ _) (fun work => by cases work)

/-- With the smallest block size nothing is selected and the size is not below the limit; and fees of more than 2^63
wrap around. -/
theorem template_limits :
    MinerState (Env.labelled true) (· ∈ richTxs) (fun tx => tx.nLockTime.toNat) richNode richHistory ∧
      (∃ template nFees, createTemplate (Env.labelled true) (richOptions 1000) firstScores richNode true none =
          some (template, nFees) ∧
        ¬ (template.vtx.tail.map CTransaction.getSerializeSize).sum + 1000 < (richOptions 1000).nBlockMaxSize) ∧
      ∃ template nFees, createTemplate (Env.labelled true) (richOptions (maxBlockSizeGen / 2)) firstScores richNode
          true none = some (template, nFees) ∧
        nFees.toInt ≠ paidFees (Env.labelled true) richNode template.vtx.tail := by
  refine ⟨richNode_state, ?_, ?_⟩
  · have run : (createTemplate (Env.labelled true) (richOptions 1000) firstScores richNode true none).any
        (fun made => decide (¬ (made.1.vtx.tail.map CTransaction.getSerializeSize).sum + 1000 <
          (richOptions 1000).nBlockMaxSize)) = true := by decide +kernel
    obtain ⟨made, created, passed⟩ := (Option.any_eq_true _ _).mp run
    exact ⟨made.1, made.2, created, of_decide_eq_true passed⟩
  · have run : (createTemplate (Env.labelled true) (richOptions (maxBlockSizeGen / 2)) firstScores richNode true
        none).any (fun made => decide (made.2.toInt ≠ paidFees (Env.labelled true) richNode made.1.vtx.tail)) = true := by
      decide +kernel
    obtain ⟨made, created, passed⟩ := (Option.any_eq_true _ _).mp run
    exact ⟨made.1, made.2, created, of_decide_eq_true passed⟩

end Concrete

end InfiniteRicks
