import InfiniteRicks.History
import InfiniteRicks.MempoolSpec

/-!
# What pool transactions spend

Every input of a pool transaction should name an output of another pool transaction or an
unspent one of the transaction index. `AcceptToMemoryPool` sees to it for the new one.
`SetBestChainInner` removes the transactions of the block but, unlike `Reorganize`, nothing
that conflicts with them, and `Reorganize` does not put back coinbases and coinstakes. Away
from these two the pool stays spendable.
-/

namespace InfiniteRicks

open Ledger

/-- The output is in the index and not spent. -/
def Unspent (index : TxIndexMap) (prevout : COutPoint) : Prop := slotAt index prevout = some CDiskTxPos.null

/-- The index has an output for each one that a known transaction has. -/
def Sized (env : Env) (Known : CTransaction → Prop) (index : TxIndexMap) : Prop :=
  ∀ tx, Known tx → ∀ entry, index (env.txHash tx) = some entry → entry.vSpent.length = tx.vout.length

section Disconnecting

variable {env : Env} {Known : CTransaction → Prop} {prevout : COutPoint}

theorem Unspent.setSlots_null {index : TxIndexMap} (unspent : Unspent index prevout) (vin : List CTxIn) :
    Unspent (setSlots index vin CDiskTxPos.null) prevout := by
  induction vin generalizing index with
  | nil => exact unspent
  | cons txin rest ih =>
      refine ih ?_
      by_cases same : prevout = txin.prevout
      · subst same
        refine slotAt_setSlot_self ?_
        rw [Unspent] at unspent
        simp [unspent]
      · exact (slotAt_setSlot_ne same).trans unspent

theorem Sized.setSlots {index : TxIndexMap} (sized : Sized env Known index) (vin : List CTxIn) (pos : CDiskTxPos) :
    Sized env Known (setSlots index vin pos) := by
  intro tx known entry found
  have shape := setSlots_shape index vin pos (env.txHash tx)
  rw [found, Option.map_some] at shape
  obtain ⟨before, present, fields⟩ := Option.map_eq_some_iff.mp shape.symm
  rw [← sized tx known before present]
  exact (congrArg Prod.snd fields).symm

theorem CTransaction.unspendInputs_index {vin : List CTxIn} {txdb after : CTxDB}
    (undone : unspendInputs vin txdb = .ok after) : after.txIndex = setSlots txdb.txIndex vin CDiskTxPos.null := by
  induction vin generalizing txdb with
  | nil =>
      cases undone
      rfl
  | cons txin rest ih =>
      simp only [unspendInputs] at undone
      split at undone
      · cases undone
      rename_i txindex found
      split at undone
      · cases undone
      have entry : txdb.txIndex txin.prevout.hash = some txindex := found
      rw [ih undone, CTxDB.txIndex_updateTxIndex]
      simp only [setSlots, List.foldl_cons, setSlot, entry]
      rfl

/-- The index after `DisconnectInputs`. -/
theorem CTransaction.disconnectInputs_index {tx : CTransaction} {txdb after : CTxDB}
    (undone : tx.disconnectInputs env txdb = .ok after) :
    after.txIndex = Function.update (if tx.isCoinBase then txdb.txIndex
      else setSlots txdb.txIndex tx.vin CDiskTxPos.null) (env.txHash tx) none := by
  simp only [disconnectInputs] at undone
  split at undone
  · cases undone
  rename_i middle inputs
  cases undone
  rw [CTxDB.txIndex_eraseTxIndex]
  split at inputs
  · rename_i base
    cases inputs
    rw [if_pos base]
  · rename_i ordinary
    rw [if_neg ordinary, unspendInputs_index inputs]

/-- Disconnecting transactions takes away their outputs and no others. -/
theorem Unspent.disconnectTxs {vtx : List CTransaction} {txdb after : CTxDB} (unspent : Unspent txdb.txIndex prevout)
    (foreign : ∀ tx ∈ vtx, prevout.hash ≠ env.txHash tx) (undone : CBlock.disconnectTxs env vtx txdb = .ok after) :
    Unspent after.txIndex prevout := by
  induction vtx generalizing txdb with
  | nil =>
      cases undone
      exact unspent
  | cons tx rest ih =>
      simp only [CBlock.disconnectTxs] at undone
      split at undone
      · cases undone
      rename_i middle first
      refine ih ?_ (fun other member => foreign other (List.mem_cons_of_mem _ member)) undone
      rw [CTransaction.disconnectInputs_index first, Unspent, slotAt, slot,
        Function.update_of_ne (foreign tx List.mem_cons_self)]
      split
      · exact unspent
      · exact unspent.setSlots_null tx.vin

theorem Sized.disconnectTxs {vtx : List CTransaction} {txdb after : CTxDB} (sized : Sized env Known txdb.txIndex)
    (undone : CBlock.disconnectTxs env vtx txdb = .ok after) : Sized env Known after.txIndex := by
  induction vtx generalizing txdb with
  | nil =>
      cases undone
      exact sized
  | cons tx rest ih =>
      simp only [CBlock.disconnectTxs] at undone
      split at undone
      · cases undone
      rename_i middle first
      refine ih ?_ undone
      rw [CTransaction.disconnectInputs_index first]
      intro other known entry found
      by_cases same : env.txHash other = env.txHash tx
      · rw [same, Function.update_self] at found
        cases found
      · rw [Function.update_of_ne same] at found
        split at found
        · exact sized other known entry found
        · exact sized.setSlots tx.vin _ other known entry found

/-- The index that `DisconnectBlock` leaves is that of its transaction loop. -/
theorem CBlock.disconnectBlock_index {s after : Node} {block : CBlock} {pprev : BlockPtr}
    (undone : block.disconnectBlock env s pprev = .ok after) :
    ∃ txdb, disconnectTxs env block.vtx.reverse s.txdb = .ok txdb ∧ after.txdb.txIndex = txdb.txIndex := by
  simp only [disconnectBlock] at undone
  split at undone
  · cases undone
  rename_i txdb done
  cases undone
  refine ⟨txdb, done, ?_⟩
  cases pprev with
  | nil => rfl
  | cons prev grand => exact CTxDB.txIndex_writeBlockIndex _ _

end Disconnecting

/-- An index to which transactions have been connected: an output that was unspent, or that
one of them has made, is unspent or spent by one of them. -/
structure Advanced (env : Env) (index after : TxIndexMap) (added : List CTransaction) : Prop where
  keeps : ∀ {prevout}, Unspent index prevout → Unspent after prevout ∨ ∃ tx ∈ added, prevout ∈ spends tx
  adds : ∀ {tx prevout}, tx ∈ added → prevout.hash = env.txHash tx → prevout.n.toNat < tx.vout.length →
    Unspent after prevout ∨ ∃ other ∈ added, prevout ∈ spends other

section Connecting

variable {env : Env} {Known : CTransaction → Prop} {index : TxIndexMap} {prevout : COutPoint}

theorem Advanced.refl (env : Env) (index : TxIndexMap) : Advanced env index index [] :=
  ⟨Or.inl, fun member => absurd member List.not_mem_nil⟩

theorem Advanced.trans {middle after : TxIndexMap} {first second : List CTransaction}
    (left : Advanced env index middle first) (right : Advanced env middle after second) :
    Advanced env index after (first ++ second) := by
  have later : ∀ {prevout}, Unspent middle prevout ∨ (∃ tx ∈ first, prevout ∈ spends tx) →
      Unspent after prevout ∨ ∃ tx ∈ first ++ second, prevout ∈ spends tx := by
    rintro prevout (unspent | ⟨tx, member, spent⟩)
    · refine (right.keeps unspent).imp_right ?_
      rintro ⟨tx, member, spent⟩
      exact ⟨tx, List.mem_append_right _ member, spent⟩
    · exact Or.inr ⟨tx, List.mem_append_left _ member, spent⟩
  refine ⟨fun unspent => later (left.keeps unspent), ?_⟩
  intro tx prevout member own bound
  rcases List.mem_append.mp member with old | new
  · exact later (left.adds old own bound)
  · refine (right.adds new own bound).imp_right ?_
    rintro ⟨other, inside, spent⟩
    exact ⟨other, List.mem_append_right _ inside, spent⟩

theorem unspent_applyTx_of_foreign {tx : CTransaction} {pos : CDiskTxPos} (unspent : Unspent index prevout)
    (foreign : prevout.hash ≠ env.txHash tx) (unused : prevout ∉ spends tx) :
    Unspent (applyTx env index tx pos) prevout := by
  rw [Unspent, slotAt_applyTx_ne foreign]
  rw [spends] at unused
  split
  · exact unspent
  · rename_i ordinary
    rw [if_neg ordinary] at unused
    exact (slotAt_setSlots_of_notMem unused).trans unspent

theorem unspent_applyTxs_of_foreign {entries : TxHistory} (unspent : Unspent index prevout)
    (foreign : ∀ entry ∈ entries, prevout.hash ≠ env.txHash entry.1) :
    Unspent (Ledger.applyTxs env index entries) prevout ∨ ∃ entry ∈ entries, prevout ∈ spends entry.1 := by
  induction entries generalizing index with
  | nil => exact Or.inl unspent
  | cons entry rest ih =>
      by_cases spent : prevout ∈ spends entry.1
      · exact Or.inr ⟨entry, List.mem_cons_self, spent⟩
      · refine (ih (unspent_applyTx_of_foreign unspent (foreign entry List.mem_cons_self) spent)
          fun other member => foreign other (List.mem_cons_of_mem _ member)).imp_right ?_
        rintro ⟨other, member, spends⟩
        exact ⟨other, List.mem_cons_of_mem _ member, spends⟩

/-- An output of a connected transaction is unspent until one of those after it spends it. -/
theorem unspent_applyTxs_of_mem {entries : TxHistory} (nodup : (ids env entries).Nodup)
    {entry : CTransaction × CDiskTxPos} (member : entry ∈ entries) (own : prevout.hash = env.txHash entry.1)
    (bound : prevout.n.toNat < entry.1.vout.length) :
    Unspent (Ledger.applyTxs env index entries) prevout ∨ ∃ other ∈ entries, prevout ∈ spends other.1 := by
  induction entries generalizing index with
  | nil => cases member
  | cons first rest ih =>
      simp only [ids, List.map_cons, List.nodup_cons] at nodup
      have later : (Unspent (Ledger.applyTxs env (applyTx env index first.1 first.2) rest) prevout ∨
          ∃ other ∈ rest, prevout ∈ spends other.1) →
          Unspent (Ledger.applyTxs env index (first :: rest)) prevout ∨
            ∃ other ∈ first :: rest, prevout ∈ spends other.1 := by
        refine Or.imp_right ?_
        rintro ⟨other, inside, spent⟩
        exact ⟨other, List.mem_cons_of_mem _ inside, spent⟩
      rcases List.mem_cons.mp member with rfl | inside
      · refine later (unspent_applyTxs_of_foreign ?_ ?_)
        · rw [Unspent, slotAt, slot, applyTx, own, Function.update_self, Option.bind_some, CTxIndex.new]
          exact List.getElem?_replicate_of_lt bound
        · intro other inside same
          exact nodup.1 (List.mem_map.mpr ⟨other, inside, same.symm.trans own⟩)
      · exact later (ih nodup.2 inside)

theorem Sized.applyTxs {rank : CTransaction → Nat} (family : TxUniverse env Known rank)
    (sized : Sized env Known index) {entries : TxHistory} (known : ∀ entry ∈ entries, Known entry.1) :
    Sized env Known (Ledger.applyTxs env index entries) := by
  induction entries generalizing index with
  | nil => exact sized
  | cons first rest ih =>
      refine ih ?_ fun entry member => known entry (List.mem_cons_of_mem _ member)
      intro other knownOther entry found
      change Ledger.applyTx env index first.1 first.2 (env.txHash other) = some entry at found
      by_cases same : env.txHash other = env.txHash first.1
      · have equal := family.collisionFree knownOther (known first List.mem_cons_self) same
        rw [same, Ledger.applyTx, Function.update_self, Option.some.injEq] at found
        rw [← found, equal]
        exact List.length_replicate
      · rw [Ledger.applyTx, Function.update_of_ne same] at found
        split at found
        · exact sized other knownOther entry found
        · exact sized.setSlots first.1.vin _ other knownOther entry found

/-- `ConnectBlock` adds the transactions of the block to the index. -/
theorem CBlock.Connected.advanced {s after : Node} {block : CBlock} {pindex : CBlockIndex}
    (connected : Connected env s block pindex after) : Advanced env s.txdb.txIndex after.txdb.txIndex block.vtx := by
  have inBlock : ∀ entry ∈ block.entries pindex, entry.1 ∈ block.vtx := by
    intro entry member
    rw [← entries_map_fst block pindex]
    exact List.mem_map_of_mem member
  rw [connected.txIndex]
  refine ⟨fun {prevout} unspent => ?_, fun {tx prevout} member own bound => ?_⟩
  · refine (unspent_applyTxs_of_foreign unspent ?_).imp_right ?_
    · -- An id in the index is used again only when all its outputs are spent.
      intro entry member same
      obtain ⟨old, present⟩ := Option.isSome_iff_exists.mp (slotAt_isSome_entry unspent)
      rw [Unspent, slotAt, slot, present, Option.bind_some] at unspent
      have taken := connected.overwritable entry.1 (inBlock entry member) old (same ▸ present) _
        (List.mem_of_getElem? unspent)
      cases taken
    · rintro ⟨entry, member, spent⟩
      exact ⟨entry.1, inBlock entry member, spent⟩
  · rw [← entries_map_fst block pindex] at member
    obtain ⟨entry, inside, rfl⟩ := List.mem_map.mp member
    have nodup : (ids env (block.entries pindex)).Nodup := by
      rw [ids_entries]
      exact (checked_of_checkBlock connected.checked).nodup
    refine (unspent_applyTxs_of_mem nodup inside own bound).imp_right ?_
    rintro ⟨other, inBranch, spent⟩
    exact ⟨other.1, inBlock other inBranch, spent⟩

theorem CBlock.Connected.sized {rank : CTransaction → Nat} {s after : Node} {block : CBlock} {pindex : CBlockIndex}
    (connected : Connected env s block pindex after) (family : TxUniverse env Known rank)
    (known : ∀ tx ∈ block.vtx, Known tx) (sized : Sized env Known s.txdb.txIndex) :
    Sized env Known after.txdb.txIndex := by
  rw [connected.txIndex]
  refine sized.applyTxs family fun entry member => known entry.1 ?_
  rw [← entries_map_fst block pindex]
  exact List.mem_map_of_mem member

end Connecting

/-- The transactions of the blocks at some entries. -/
def branchTxs (env : Env) (s : Node) (pindexes : List BlockPtr) : List CTransaction :=
  pindexes.flatMap fun pindex => ((readBlock env s pindex).map fun block => block.vtx).getD []

section Branches

variable {env : Env} {s : Node}

theorem branchTxs_of_files {next : Node} (files : next.files = s.files) (pindexes : List BlockPtr) :
    branchTxs env next pindexes = branchTxs env s pindexes := by
  have same : ∀ pindex, readBlock env next pindex = readBlock env s pindex := readBlock_of_files files
  simp only [branchTxs, same]

theorem branchTxs_cons {pindex : BlockPtr} (rest : List BlockPtr) {block : CBlock} {next : Node}
    (read : readBlock env s pindex = some block) (files : next.files = s.files) :
    branchTxs env s (pindex :: rest) = block.vtx ++ branchTxs env next rest := by
  rw [branchTxs_of_files files, branchTxs, List.flatMap_cons, read, Option.map_some, Option.getD_some]
  rfl

/-- The disconnection loop takes away the outputs of its blocks and no others. -/
theorem disconnectBranch_spec (Known : CTransaction → Prop) {vDisconnect : List BlockPtr} {middle : Node} {vResurrect result : List CTransaction}
    (undone : disconnectBranch env (codeConnector env) vDisconnect s vResurrect = .ok (middle, result)) :
    (∀ prevout, Unspent s.txdb.txIndex prevout →
        (∀ tx ∈ branchTxs env s vDisconnect, prevout.hash ≠ env.txHash tx) → Unspent middle.txdb.txIndex prevout) ∧
      (Sized env Known s.txdb.txIndex → Sized env Known middle.txdb.txIndex) ∧
      (∀ tx ∈ result, tx ∈ vResurrect ∨ tx ∈ branchTxs env s vDisconnect) ∧ middle.files = s.files := by
  induction vDisconnect generalizing s vResurrect with
  | nil =>
      cases undone
      exact ⟨fun _ unspent _ => unspent, id, fun _ => Or.inl, rfl⟩
  | cons pindex rest ih =>
      simp only [disconnectBranch] at undone
      split at undone
      · cases undone
      rename_i block read
      split at undone
      · cases undone
      rename_i next step
      have files := (SameBest.of_frame ((codeConnector env).disconnectFrame step)).files
      have shape := branchTxs_cons rest read files
      obtain ⟨keeps, sized, origin, same⟩ := ih undone
      cases pindex with
      | nil => cases step
      | cons entry pprev =>
          obtain ⟨txdb, loop, index⟩ := CBlock.disconnectBlock_index step
          rw [shape]
          refine ⟨?_, ?_, ?_, same.trans files⟩
          · intro prevout unspent foreign
            refine keeps prevout ?_ fun tx member => foreign tx (List.mem_append_right _ member)
            rw [index]
            exact unspent.disconnectTxs (fun tx member =>
              foreign tx (List.mem_append_left _ (List.mem_reverse.mp member))) loop
          · intro before
            exact sized (index ▸ before.disconnectTxs loop)
          · intro tx member
            rcases origin tx member with queued | later
            · rcases List.mem_append.mp queued with new | old
              · exact Or.inr (List.mem_append_left _ (List.mem_of_mem_filter new))
              · exact Or.inl old
            · exact Or.inr (List.mem_append_right _ later)

/-- The connection loop adds the transactions of its blocks. -/
theorem connectBranch_spec (Known : CTransaction → Prop) {vConnect : List BlockPtr} {top : Node} {vDelete result : List CTransaction}
    (done : connectBranch env (codeConnector env) vConnect s vDelete = .ok (top, result)) :
    result = vDelete ++ branchTxs env s vConnect ∧
      Advanced env s.txdb.txIndex top.txdb.txIndex (branchTxs env s vConnect) ∧
      (∀ {rank}, TxUniverse env Known rank → (∀ tx ∈ branchTxs env s vConnect, Known tx) →
        Sized env Known s.txdb.txIndex → Sized env Known top.txdb.txIndex) := by
  induction vConnect generalizing s vDelete with
  | nil =>
      cases done
      exact ⟨(List.append_nil _).symm, Advanced.refl env _, fun _ _ sized => sized⟩
  | cons pindex rest ih =>
      simp only [connectBranch] at done
      split at done
      · cases done
      rename_i block read
      split at done
      · cases done
      rename_i next step
      have files := (SameBest.of_frame ((codeConnector env).connectFrame step)).files
      have shape := branchTxs_cons rest read files
      obtain ⟨list, advanced, sized⟩ := ih done
      cases pindex with
      | nil => cases step
      | cons entry pprev =>
          have connected := CBlock.connectBlock_spec step
          rw [shape]
          refine ⟨by rw [list, List.append_assoc], connected.advanced.trans advanced, ?_⟩
          intro rank family known before
          refine sized family (fun tx member => known tx (List.mem_append_right _ member)) ?_
          exact connected.sized family (fun tx member => known tx (List.mem_append_left _ member)) before

end Branches

/-- An output of a pool transaction, or an unspent one of the index. -/
def Supported (pool : CTxMemPool) (index : TxIndexMap) (prevout : COutPoint) : Prop :=
  (∃ parent, pool.mapTx.lookup prevout.hash = some parent ∧ prevout.n.toNat < parent.vout.length) ∨
    Unspent index prevout

section Accepting

variable {env : Env} {s after : Node} {tx : CTransaction}

/-- Every input that the spending loop has passed was unspent before it. -/
theorem CTransaction.spendInputs_unspent {nBestHeight : Int} {pos : CDiskTxPos} {fBlock fMiner : Bool} {i : Nat}
    {vin : List CTxIn} {inputs : MapPrevTx} {queued result : QueuedChanges} (real : pos.isNull = false)
    (spent : spendInputs env nBestHeight tx pos fBlock fMiner i vin inputs queued = some result) :
    ∀ txin ∈ vin, ∃ prev, inputs txin.prevout.hash = some prev ∧
      prev.1.vSpent[txin.prevout.n.toNat]? = some CDiskTxPos.null := by
  induction vin generalizing i inputs queued with
  | nil => simp
  | cons first rest ih =>
      simp only [spendInputs] at spent
      split at spent
      · cases spent
      rename_i txindex txPrev found
      split at spent
      · cases spent
      rename_i slot present
      split at spent
      · cases spent
      rename_i unspent
      split at spent
      · cases spent
      simp only [Bool.not_eq_true', Bool.not_eq_false] at unspent
      intro txin member
      rcases List.mem_cons.mp member with rfl | later
      · exact ⟨_, found, by rw [present, CDiskTxPos.isNull_iff.mp unspent]⟩
      obtain ⟨prev, entry, null⟩ := ih spent txin later
      by_cases same : txin.prevout.hash = first.prevout.hash
      · rw [same, Function.update_self, Option.some.injEq] at entry
        subst entry
        refine ⟨_, same ▸ found, ?_⟩
        -- A slot that this loop has written holds a real position.
        by_cases own : first.prevout.n.toNat = txin.prevout.n.toNat
        · have bound := (List.getElem?_eq_some_iff.mp present).1
          rw [← own, List.getElem?_set_self bound, Option.some.injEq] at null
          rw [null] at real
          cases real
        · rwa [List.getElem?_set_ne own] at null
      · rw [Function.update_of_ne same] at entry
        exact ⟨prev, entry, null⟩

/-- What `AcceptToMemoryPool` accepts spends outputs of the pool or of the index. -/
theorem Accepted.supported (accepted : Accepted env s tx after) :
    ∀ txin ∈ tx.vin, Supported s.mempool s.txdb.fresh.txIndex txin.prevout := by
  obtain ⟨mapInputs, queued, fetched, connected⟩ := accepted.spendable
  simp only [CTransaction.connectInputs, accepted.notCoinBase, Bool.false_eq_true, if_false] at connected
  split at connected
  · cases connected
  split at connected
  · cases connected
  rename_i spent
  have origin := CTransaction.fetchInputs_forall (P := fun hash prev =>
      s.txdb.fresh.txIndex hash = some prev.1 ∨
        (s.mempool.mapTx.lookup hash = some prev.2 ∧ prev.1.vSpent.length = prev.2.vout.length)) (by
    intro hash prev found
    simp only [CTransaction.fetchPrev, Bool.or_self, Bool.false_eq_true, if_false, Option.none_or] at found
    split at found
    · obtain ⟨txPrev, pooled, rfl⟩ := Option.map_eq_some_iff.mp found
      exact Or.inr ⟨pooled, List.length_replicate⟩
    · rename_i txindex entry
      split at found
      · obtain ⟨txPrev, -, rfl⟩ := Option.map_eq_some_iff.mp found
        exact Or.inl entry
      · obtain ⟨txPrev, -, rfl⟩ := Option.map_eq_some_iff.mp found
        exact Or.inl entry) fetched
  intro txin member
  obtain ⟨prev, found, null⟩ := CTransaction.spendInputs_unspent (by decide) spent txin member
  rcases origin _ _ found with indexed | ⟨pooled, size⟩
  · refine Or.inr ?_
    rw [Unspent, slotAt, slot, indexed, Option.bind_some]
    exact null
  · exact Or.inl ⟨prev.2, pooled, size ▸ (List.getElem?_eq_some_iff.mp null).1⟩

end Accepting

namespace CTxMemPool

variable {env : Env} {Known : CTransaction → Prop} {rank : CTransaction → Nat} {pool : CTxMemPool}
  {tx : CTransaction}

theorem lookup_remove_false (env : Env) (pool : CTxMemPool) (tx : CTransaction) (hash : UInt256) :
    (pool.remove env tx).mapTx.lookup hash = if hash = env.txHash tx then none else pool.mapTx.lookup hash := by
  rw [remove, removeFuel_succ]
  split
  · exact lookup_eraseTx hash
  · rename_i absent
    split
    · rename_i same
      rw [same]
      exact AList.lookup_eq_none.mpr absent
    · rfl

/-- `SetBestChainInner` removes the transactions of the block. -/
theorem lookup_foldl_remove (vtx : List CTransaction) (hash : UInt256) :
    (vtx.foldl (fun pool tx => pool.remove env tx) pool).mapTx.lookup hash =
      if hash ∈ vtx.map env.txHash then none else pool.mapTx.lookup hash := by
  induction vtx generalizing pool with
  | nil => simp
  | cons tx rest ih =>
      rw [List.foldl_cons, ih, lookup_remove_false]
      by_cases same : hash = env.txHash tx
      · simp [same]
      · simp [same]

theorem Coherent.foldl_remove (family : TxUniverse env Known rank) (coherent : Coherent env Known pool)
    {vtx : List CTransaction} (known : ∀ tx ∈ vtx, Known tx) :
    Coherent env Known (vtx.foldl (fun pool tx => pool.remove env tx) pool) := by
  induction vtx generalizing pool with
  | nil => exact coherent
  | cons tx rest ih =>
      exact ih (coherent.remove_false family (known tx List.mem_cons_self))
        fun other member => known other (List.mem_cons_of_mem _ member)

/-- A pool that `Reorganize` has cleared of the connected transactions: what is left neither is
one of them nor spends what one of them spends, and of its parents only they are gone. -/
structure Cleared (env : Env) (Known : CTransaction → Prop) (pool after : CTxMemPool) (vDelete : List CTransaction) :
    Prop where
  coherent : Coherent env Known after
  sub : ∀ {hash tx}, after.mapTx.lookup hash = some tx → pool.mapTx.lookup hash = some tx
  apart : ∀ {hash child tx}, after.mapTx.lookup hash = some child → tx ∈ vDelete →
    child ≠ tx ∧ ∀ prevout ∈ tx.vin.map CTxIn.prevout, prevout ∉ child.vin.map CTxIn.prevout
  parents : ∀ {hash other child tx}, after.mapTx.lookup other = some child → pool.mapTx.lookup hash = some tx →
    Spends env child tx → after.mapTx.lookup hash = some tx ∨ tx ∈ vDelete

theorem cleared_removeConfirmed (family : TxUniverse env Known rank) (coherent : Coherent env Known pool)
    (known : Known tx) : Cleared env Known pool (removeConfirmed env pool tx) [tx] := by
  have first := coherent.remove_false family known
  obtain ⟨removal, alone⟩ : Removal env Known rank (pool.remove env tx) 0 (removeConfirmed env pool tx) ∧
      ∀ txin ∈ tx.vin, ∀ {hash child}, (removeConfirmed env pool tx).mapTx.lookup hash = some child →
        txin.prevout ∈ child.vin.map CTxIn.prevout → child = tx := removal_removeConflicts family first tx.vin
  have sub : ∀ {hash child}, (removeConfirmed env pool tx).mapTx.lookup hash = some child →
      hash ≠ env.txHash tx ∧ pool.mapTx.lookup hash = some child := by
    intro hash child found
    have before := removal.sub found
    rw [lookup_remove_false] at before
    split at before
    · cases before
    · rename_i different
      exact ⟨different, before⟩
  refine ⟨removal.coherent, fun found => (sub found).2, ?_, ?_⟩
  · intro hash child other found member
    rw [List.mem_singleton] at member
    subst member
    have different : child ≠ other := by
      rintro rfl
      exact (sub found).1 (coherent.keyed (sub found).2).symm
    refine ⟨different, ?_⟩
    intro prevout spent spends
    obtain ⟨txin, inside, rfl⟩ := List.mem_map.mp spent
    exact different (alone txin inside found spends)
  · intro hash other child parent stays stored spends
    by_cases same : hash = env.txHash tx
    · rw [same] at stored
      exact Or.inr (List.mem_singleton.mpr (coherent.stored family known stored))
    · have between : (pool.remove env tx).mapTx.lookup hash = some parent := by
        rw [lookup_remove_false, if_neg same]
        exact stored
      cases after : (removeConfirmed env pool tx).mapTx.lookup hash with
      | none => exact absurd spends (removal.closed between after stays)
      | some found =>
          rw [← stored, (sub after).2]
          exact Or.inl rfl

theorem Cleared.trans {middle after : CTxMemPool} {first second : List CTransaction}
    (left : Cleared env Known pool middle first) (right : Cleared env Known middle after second) :
    Cleared env Known pool after (first ++ second) := by
  refine ⟨right.coherent, fun found => left.sub (right.sub found), ?_, ?_⟩
  · intro hash child tx found member
    rcases List.mem_append.mp member with old | new
    · exact left.apart (right.sub found) old
    · exact right.apart found new
  · intro hash other child tx stays stored spends
    rcases left.parents (right.sub stays) stored spends with between | gone
    · exact (right.parents stays between spends).imp_right (List.mem_append_right _)
    · exact Or.inr (List.mem_append_left _ gone)

theorem cleared_foldl (family : TxUniverse env Known rank) (coherent : Coherent env Known pool)
    {vDelete : List CTransaction} (known : ∀ tx ∈ vDelete, Known tx) :
    Cleared env Known pool (vDelete.foldl (removeConfirmed env) pool) vDelete := by
  induction vDelete generalizing pool with
  | nil =>
      exact ⟨coherent, id, fun _ member => absurd member List.not_mem_nil, fun _ stored _ => Or.inl stored⟩
  | cons tx rest ih =>
      have first := cleared_removeConfirmed family coherent (known tx List.mem_cons_self)
      exact first.trans (ih first.coherent fun other member => known other (List.mem_cons_of_mem _ member))

/-- A pool to which accepted transactions have been added: they spend outputs of the pool or
of the index. -/
structure Refilled (env : Env) (Known : CTransaction → Prop) (index : TxIndexMap) (pool after : CTxMemPool) : Prop where
  coherent : Coherent env Known after
  keeps : ∀ {hash tx}, pool.mapTx.lookup hash = some tx → after.mapTx.lookup hash = some tx
  adds : ∀ {hash tx}, after.mapTx.lookup hash = some tx →
    pool.mapTx.lookup hash = some tx ∨ ∀ txin ∈ tx.vin, Supported after index txin.prevout

theorem Refilled.refl (coherent : Coherent env Known pool) (index : TxIndexMap) :
    Refilled env Known index pool pool :=
  ⟨coherent, id, Or.inl⟩

theorem supported_mono {index : TxIndexMap} {after : CTxMemPool} {prevout : COutPoint}
    (keeps : ∀ {hash tx}, pool.mapTx.lookup hash = some tx → after.mapTx.lookup hash = some tx)
    (supported : Supported pool index prevout) : Supported after index prevout := by
  refine supported.imp_left ?_
  rintro ⟨parent, stored, bound⟩
  exact ⟨parent, keeps stored, bound⟩

theorem Refilled.trans {index : TxIndexMap} {middle after : CTxMemPool}
    (left : Refilled env Known index pool middle) (right : Refilled env Known index middle after) :
    Refilled env Known index pool after := by
  refine ⟨right.coherent, fun stored => right.keeps (left.keeps stored), ?_⟩
  intro hash tx found
  rcases right.adds found with between | supported
  · refine (left.adds between).imp_right fun supported txin member => ?_
    exact supported_mono right.keeps (supported txin member)
  · exact Or.inr supported

theorem refilled_accept (family : TxUniverse env Known rank) {s after : Node} (coherent : Coherent env Known s.mempool)
    (known : Known tx) (accepted : Accepted env s tx after) :
    Refilled env Known s.txdb.fresh.txIndex s.mempool after.mempool := by
  have fresh : env.txHash tx ∉ s.mempool.mapTx := by
    have unpooled := accepted.unpooled
    simpa [contains] using unpooled
  have lookup : ∀ hash, after.mempool.mapTx.lookup hash =
      if hash = env.txHash tx then some tx else s.mempool.mapTx.lookup hash := by
    intro hash
    rw [accepted.result]
    change (s.mempool.mapTx.insert (env.txHash tx) tx).lookup hash = _
    split
    · rename_i same
      rw [same, AList.lookup_insert]
    · rename_i different
      rw [AList.lookup_insert_ne different]
  have keeps : ∀ {hash other}, s.mempool.mapTx.lookup hash = some other →
      after.mempool.mapTx.lookup hash = some other := by
    intro hash other stored
    rw [lookup, if_neg]
    · exact stored
    · rintro rfl
      rw [AList.lookup_eq_none.mpr fresh] at stored
      cases stored
  refine ⟨?_, keeps, ?_⟩
  · rw [accepted.result]
    exact coherent.addUnchecked family known (CTransaction.nodup_prevouts accepted.wellFormed) accepted.unlinked
  · intro hash other found
    rw [lookup] at found
    split at found
    · cases found
      exact Or.inr fun txin member => supported_mono keeps (accepted.supported txin member)
    · exact Or.inl found

theorem refilled_resurrect (policy : Policy) (family : TxUniverse env Known rank) {s : Node} {vResurrect : List CTransaction}
    (coherent : Coherent env Known s.mempool) (known : ∀ tx ∈ vResurrect, Known tx) :
    Refilled env Known s.txdb.fresh.txIndex s.mempool (vResurrect.foldl (resurrect env policy) s).mempool := by
  induction vResurrect generalizing s with
  | nil => exact Refilled.refl coherent _
  | cons tx rest ih =>
      have first : Refilled env Known s.txdb.fresh.txIndex s.mempool (resurrect env policy s tx).mempool := by
        unfold resurrect
        cases verdict : acceptToMemoryPool env policy s tx with
        | none => exact Refilled.refl coherent _
        | some after =>
            exact refilled_accept family coherent (known tx List.mem_cons_self) (acceptToMemoryPool_cases verdict)
      have later := ih first.coherent fun other member => known other (List.mem_cons_of_mem _ member)
      have index : (resurrect env policy s tx).txdb = s.txdb := by
        rw [resurrect_rest]
      rw [index] at later
      exact first.trans later

end CTxMemPool

/-- What changes the pool or the chain under it: `AcceptToMemoryPool`, `SetBestChainInner` and
`Reorganize`. -/
inductive PoolEvent where
  | accept (tx : CTransaction)
  | extend (block : CBlock) (pindexNew : BlockPtr)
  | reorganize (pindexNew : BlockPtr)

/-- Some transaction of a list spends what the given one spends. -/
def Conflicts (vtx : List CTransaction) (tx : CTransaction) : Prop :=
  ∃ other ∈ vtx, ∃ prevout ∈ spends other, prevout ∈ tx.vin.map CTxIn.prevout

instance (vtx : List CTransaction) (tx : CTransaction) : Decidable (Conflicts vtx tx) :=
  inferInstanceAs (Decidable (∃ other ∈ vtx, ∃ prevout ∈ spends other, prevout ∈ tx.vin.map CTxIn.prevout))

section Events

variable (env : Env) (policy : Policy) (s : Node)

/-- The transactions that `Reorganize` disconnects. -/
def disconnectedTxs (pindexNew : BlockPtr) : List CTransaction :=
  ((findFork s.pindexBest pindexNew).map fun pfork => branchTxs env s (pathTo pfork s.pindexBest)).getD []

/-- The transactions that `Reorganize` connects. -/
def connectedTxs (pindexNew : BlockPtr) : List CTransaction :=
  ((findFork s.pindexBest pindexNew).map fun pfork => branchTxs env s (pathTo pfork pindexNew).reverse).getD []

/-- The pool of `Reorganize` when `AcceptToMemoryPool` has been called on what it
disconnected. -/
def refilledPool (pindexNew : BlockPtr) : Option CTxMemPool :=
  match findFork s.pindexBest pindexNew with
  | none => none
  | some pfork =>
      let vDisconnect := pathTo pfork s.pindexBest
      let vConnect := (pathTo pfork pindexNew).reverse
      match disconnectBranch env (codeConnector env) vDisconnect s.txnBegin [] with
      | .error _ => none
      | .ok (s, vResurrect) =>
          match connectBranch env (codeConnector env) vConnect s [] with
          | .error _ => none
          | .ok (s, _) =>
              match s.commitBest ((pindexNew.head?.map CBlockIndex.hash).getD 0) with
              | .error _ => none
              | .ok s =>
                  let s := { s with pnext := vConnect.foldl linkNext (vDisconnect.foldl unlinkNext s.pnext) }
                  some (vResurrect.foldl (resurrect env policy) s).mempool

namespace PoolEvent

/-- The state after an event that succeeds. -/
def result : PoolEvent → Option Node
  | .accept tx => acceptToMemoryPool env policy s tx
  | .extend block pindexNew => (setBestChainInner env (codeConnector env) s.txnBegin block pindexNew).toOption
  | .reorganize pindexNew => (InfiniteRicks.reorganize env policy (codeConnector env) s.txnBegin pindexNew).toOption

/-- The transactions that an event handles. -/
def txs : PoolEvent → List CTransaction
  | .accept tx => [tx]
  | .extend block _ => block.vtx
  | .reorganize pindexNew => disconnectedTxs env s pindexNew ++ connectedTxs env s pindexNew

/-- The event leaves nothing behind in the pool that cannot be spent: a block that extends the
chain conflicts with no pool transaction that it does not have, and where a pool transaction
that the new branch leaves alone spends from a disconnected one, that one is connected again
or is put back into the pool. -/
def Safe : PoolEvent → Prop
  | .accept _ => True
  | .extend block _ => ∀ hash tx, s.mempool.mapTx.lookup hash = some tx → tx ∈ block.vtx ∨ ¬Conflicts block.vtx tx
  | .reorganize pindexNew => ∀ hash tx, s.mempool.mapTx.lookup hash = some tx →
      tx ∈ connectedTxs env s pindexNew ∨ Conflicts (connectedTxs env s pindexNew) tx ∨
        ∀ txin ∈ tx.vin, ∀ gone ∈ disconnectedTxs env s pindexNew, env.txHash gone = txin.prevout.hash →
          gone ∈ connectedTxs env s pindexNew ∨ ∀ pool ∈ refilledPool env policy s pindexNew,
            pool.mapTx.lookup (env.txHash gone) = some gone

end PoolEvent

end Events

/-- States that a node reaches from one with an empty pool. Whatever else happens leaves the
pool and the index alone, as a `SetBestChain` does that fails. -/
inductive PoolReached (env : Env) (policy : Policy) (Known : CTransaction → Prop)
    (Allowed : Node → PoolEvent → Prop) : Node → Prop
  | start {s} (empty : s.mempool = CTxMemPool.empty) (sized : Sized env Known s.txdb.fresh.txIndex) :
      PoolReached env policy Known Allowed s
  | event {s after} (event : PoolEvent) (earlier : PoolReached env policy Known Allowed s)
      (known : ∀ tx ∈ event.txs env s, Known tx) (allowed : Allowed s event)
      (result : event.result env policy s = some after) : PoolReached env policy Known Allowed after
  | outside {s after} (earlier : PoolReached env policy Known Allowed s) (pool : after.mempool = s.mempool)
      (index : after.txdb.fresh.txIndex = s.txdb.fresh.txIndex) : PoolReached env policy Known Allowed after

/-- Every input of a pool transaction names an output of another one, or an unspent one of the
index. -/
def PoolSpendable (s : Node) : Prop :=
  ∀ hash tx, s.mempool.mapTx.lookup hash = some tx → ∀ txin ∈ tx.vin,
    (∃ parent, s.mempool.mapTx.lookup txin.prevout.hash = some parent ∧ parent ≠ tx ∧
      txin.prevout.n.toNat < parent.vout.length) ∨ Unspent s.txdb.fresh.txIndex txin.prevout

/-- What holds of the pool and the index after every event. -/
structure PoolInvariant (env : Env) (Known : CTransaction → Prop) (s : Node) : Prop where
  coherent : CTxMemPool.Coherent env Known s.mempool
  sized : Sized env Known s.txdb.fresh.txIndex
  supported : ∀ {hash tx}, s.mempool.mapTx.lookup hash = some tx → ∀ txin ∈ tx.vin,
    Supported s.mempool s.txdb.fresh.txIndex txin.prevout

theorem mem_prevouts_of_spends {tx : CTransaction} {prevout : COutPoint} (spent : prevout ∈ spends tx) :
    prevout ∈ tx.vin.map CTxIn.prevout := by
  rw [spends] at spent
  split at spent
  · cases spent
  · exact spent

section Steps

variable {env : Env} {policy : Policy} {Known : CTransaction → Prop} {rank : CTransaction → Nat} {s after : Node}

theorem PoolInvariant.accept (family : TxUniverse env Known rank) (invariant : PoolInvariant env Known s)
    {tx : CTransaction} (known : Known tx) (accepted : acceptToMemoryPool env policy s tx = some after) :
    PoolInvariant env Known after := by
  have passed := acceptToMemoryPool_cases accepted
  have refilled := CTxMemPool.refilled_accept family invariant.coherent known passed
  have index : after.txdb = s.txdb := by
    rw [passed.result]
  refine ⟨refilled.coherent, index ▸ invariant.sized, ?_⟩
  intro hash other found txin member
  rw [index]
  rcases refilled.adds found with old | supported
  · exact CTxMemPool.supported_mono refilled.keeps (invariant.supported old txin member)
  · exact supported txin member

theorem PoolInvariant.extend (family : TxUniverse env Known rank) (invariant : PoolInvariant env Known s)
    {block : CBlock} {pindexNew : BlockPtr} (known : ∀ tx ∈ block.vtx, Known tx)
    (safe : PoolEvent.Safe env policy s (.extend block pindexNew))
    (extended : setBestChainInner env (codeConnector env) s.txnBegin block pindexNew = .ok after) :
    PoolInvariant env Known after := by
  obtain ⟨next, committed, step, commit, rfl⟩ := setBestChainInner_ok extended
  cases pindexNew with
  | nil => cases step
  | cons entry pprev =>
      have connected := CBlock.connectBlock_spec step
      have pool : committed.mempool = s.mempool := by
        rw [(commitBest_ok commit).1, connected.frame.rest]
        rfl
      have advanced := connected.advanced
      have sized := connected.sized family known ((txIndex_txnBegin s).symm ▸ invariant.sized)
      rw [txIndex_txnBegin] at advanced
      rw [← txIndex_fresh_of_commitBest commit] at advanced sized
      have coherent := invariant.coherent.foldl_remove family known
      rw [pool]
      refine ⟨coherent, sized, ?_⟩
      intro hash tx found txin member
      dsimp only at found
      rw [CTxMemPool.lookup_foldl_remove] at found
      split at found
      · cases found
      rename_i outside
      -- What the block spends it takes from no pool transaction that stays.
      have unspent : (Unspent committed.txdb.fresh.txIndex txin.prevout ∨
          ∃ other ∈ block.vtx, txin.prevout ∈ spends other) → Unspent committed.txdb.fresh.txIndex txin.prevout := by
        rintro (unspent | ⟨other, inBlock, spent⟩)
        · exact unspent
        rcases safe hash tx found with confirmed | apart
        · exact absurd (List.mem_map.mpr ⟨tx, confirmed, invariant.coherent.keyed found⟩) outside
        · exact absurd ⟨other, inBlock, _, spent, List.mem_map_of_mem member⟩ apart
      rcases invariant.supported found txin member with ⟨parent, stored, bound⟩ | before
      · by_cases confirmed : txin.prevout.hash ∈ block.vtx.map env.txHash
        · obtain ⟨other, inBlock, same⟩ := List.mem_map.mp confirmed
          obtain rfl := family.collisionFree (invariant.coherent.known stored) (known other inBlock)
            ((invariant.coherent.keyed stored).trans same.symm)
          exact Or.inr (unspent (advanced.adds inBlock same.symm bound))
        · refine Or.inl ⟨parent, ?_, bound⟩
          rw [CTxMemPool.lookup_foldl_remove, if_neg confirmed]
          exact stored
      · exact Or.inr (unspent (advanced.keeps before))

/-- In a pool that is cleared of the connected transactions, what was an output of the pool or
unspent before they were connected, or is one of theirs, is one of the pool or unspent. -/
theorem CTxMemPool.Cleared.supported {pool cleared : CTxMemPool} {middle index : TxIndexMap}
    {vDelete : List CTransaction} {hash : UInt256} {tx : CTransaction} {txin : CTxIn}
    (clears : Cleared env Known pool cleared vDelete) (coherent : Coherent env Known pool)
    (advanced : Advanced env middle index vDelete) (found : cleared.mapTx.lookup hash = some tx)
    (member : txin ∈ tx.vin)
    (before : Supported pool index txin.prevout ∨ Unspent middle txin.prevout ∨
      ∃ parent ∈ vDelete, txin.prevout.hash = env.txHash parent ∧ txin.prevout.n.toNat < parent.vout.length) :
    Supported cleared index txin.prevout := by
  have settle : (Unspent index txin.prevout ∨ ∃ other ∈ vDelete, txin.prevout ∈ spends other) →
      Supported cleared index txin.prevout := by
    rintro (unspent | ⟨other, inside, spent⟩)
    · exact Or.inr unspent
    · exact absurd (List.mem_map_of_mem member) ((clears.apart found inside).2 _ (mem_prevouts_of_spends spent))
  rcases before with (⟨parent, stored, bound⟩ | unspent) | unspent | ⟨parent, inside, own, bound⟩
  · have own := (coherent.keyed stored).symm
    rcases clears.parents found stored ⟨txin, member, own, bound⟩ with stays | inside
    · exact Or.inl ⟨parent, stays, bound⟩
    · exact settle (advanced.adds inside own bound)
  · exact Or.inr unspent
  · exact settle (advanced.keeps unspent)
  · exact settle (advanced.adds inside own bound)

theorem Sized.bound {index : TxIndexMap} {prevout : COutPoint} {tx : CTransaction} (sized : Sized env Known index)
    (known : Known tx) (own : prevout.hash = env.txHash tx) (unspent : Unspent index prevout) :
    prevout.n.toNat < tx.vout.length := by
  obtain ⟨entry, present⟩ := Option.isSome_iff_exists.mp (slotAt_isSome_entry unspent)
  rw [Unspent, slotAt, slot, present, Option.bind_some] at unspent
  rw [← sized tx known entry (own ▸ present)]
  exact (List.getElem?_eq_some_iff.mp unspent).1

theorem PoolInvariant.reorganize (family : TxUniverse env Known rank) (invariant : PoolInvariant env Known s)
    {pindexNew : BlockPtr} (known : ∀ tx ∈ PoolEvent.txs env s (.reorganize pindexNew), Known tx)
    (safe : PoolEvent.Safe env policy s (.reorganize pindexNew))
    (switched : InfiniteRicks.reorganize env policy (codeConnector env) s.txnBegin pindexNew = .ok after) :
    PoolInvariant env Known after := by
  obtain ⟨pfork, middle, vResurrect, top, vDelete, committed, fork, undone, done, commit, rfl⟩ :=
    reorganize_ok switched
  have fork : findFork s.pindexBest pindexNew = some pfork := fork
  have gone : disconnectedTxs env s pindexNew = branchTxs env s (pathTo pfork s.pindexBest) := by
    rw [disconnectedTxs, fork]
    rfl
  have come : connectedTxs env s pindexNew = branchTxs env s (pathTo pfork pindexNew).reverse := by
    rw [connectedTxs, fork]
    rfl
  have down := frame_disconnectBranch _ (Or.inl undone)
  have up := frame_connectBranch _ (Or.inl done)
  obtain ⟨keeps, sizedDown, origin, files⟩ := disconnectBranch_spec Known undone
  obtain ⟨list, advanced, sizedUp⟩ := connectBranch_spec Known done
  have begun : s.txnBegin.files = s.files := rfl
  rw [txIndex_txnBegin] at keeps sizedDown
  rw [branchTxs_of_files begun] at keeps origin
  rw [branchTxs_of_files (files.trans begun), ← come] at list advanced sizedUp
  rw [List.nil_append] at list
  subst list
  have knownGone : ∀ tx ∈ disconnectedTxs env s pindexNew, Known tx := fun tx member =>
    known tx (List.mem_append_left _ member)
  have knownCome : ∀ tx ∈ connectedTxs env s pindexNew, Known tx := fun tx member =>
    known tx (List.mem_append_right _ member)
  have sized := sizedUp family knownCome (sizedDown invariant.sized)
  rw [← txIndex_fresh_of_commitBest commit] at advanced sized
  have pool : committed.mempool = s.mempool := by
    rw [(commitBest_ok commit).1, up.rest, down.rest]
    rfl
  generalize node : ({ committed with
      pnext := (pathTo pfork pindexNew).reverse.foldl linkNext
        ((pathTo pfork s.txnBegin.pindexBest).foldl unlinkNext committed.pnext) } : Node) = switched
  have sameTxdb : switched.txdb = committed.txdb := by
    rw [← node]
  have samePool : switched.mempool = s.mempool := by
    rw [← node]
    exact pool
  have refilled := CTxMemPool.refilled_resurrect policy family (samePool.symm ▸ invariant.coherent)
    (s := switched) (fun tx member => knownGone tx (gone ▸ (origin tx member).resolve_left List.not_mem_nil))
  rw [sameTxdb, samePool] at refilled
  have cleared := CTxMemPool.cleared_foldl family refilled.coherent knownCome
  have putBack : refilledPool env policy s pindexNew = some (vResurrect.foldl (resurrect env policy) switched).mempool := by
    simp only [refilledPool, fork]
    have undone : disconnectBranch env (codeConnector env) (pathTo pfork s.pindexBest) s.txnBegin [] =
      .ok (middle, vResurrect) := undone
    simp only [undone, done, commit]
    rw [← node]
    rfl
  refine ⟨cleared.coherent, sized, ?_⟩
  intro hash tx found txin member
  refine cleared.supported refilled.coherent advanced found member ?_
  rcases refilled.adds (cleared.sub found) with old | supported
  swap
  · exact Or.inl (supported txin member)
  rcases invariant.supported old txin member with ⟨parent, stored, bound⟩ | unspent
  · exact Or.inl (Or.inl ⟨parent, refilled.keeps stored, bound⟩)
  by_cases foreign : ∀ tx ∈ disconnectedTxs env s pindexNew, txin.prevout.hash ≠ env.txHash tx
  · exact Or.inr (Or.inl (keeps _ unspent (gone ▸ foreign)))
  -- The output was one of a disconnected transaction.
  simp only [ne_eq, not_forall, not_not] at foreign
  obtain ⟨parent, inside, own⟩ := foreign
  have bound := invariant.sized.bound (knownGone parent inside) own unspent
  rcases safe hash tx old with confirmed | ⟨other, inBranch, prevout, spent, spends⟩ | returns
  · exact absurd rfl (cleared.apart found confirmed).1
  · exact absurd spends ((cleared.apart found inBranch).2 prevout (mem_prevouts_of_spends spent))
  · rcases returns txin member parent inside own.symm with again | back
    · exact Or.inr (Or.inr ⟨parent, again, own, bound⟩)
    · exact Or.inl (Or.inl ⟨parent, own ▸ back _ putBack, bound⟩)

end Steps

section Runs

variable {env : Env} {policy : Policy} {Known : CTransaction → Prop} {rank : CTransaction → Nat} {s after : Node}

theorem ok_of_toOption {result : Except Node Node} (succeeded : result.toOption = some after) :
    result = .ok after := by
  cases result with
  | error failed => cases succeeded
  | ok next =>
      cases succeeded
      rfl

theorem PoolReached.invariant (family : TxUniverse env Known rank)
    (reached : PoolReached env policy Known (PoolEvent.Safe env policy) s) : PoolInvariant env Known s := by
  induction reached with
  | start empty sized =>
      refine ⟨empty ▸ CTxMemPool.coherent_empty, sized, ?_⟩
      intro hash tx found
      rw [empty] at found
      cases found
  | event event _ known allowed result ih =>
      cases event with
      | accept tx => exact ih.accept family (known tx List.mem_cons_self) result
      | extend block pindexNew => exact ih.extend family known allowed (ok_of_toOption result)
      | reorganize pindexNew => exact ih.reorganize family known allowed (ok_of_toOption result)
  | outside _ pool index ih =>
      refine ⟨pool ▸ ih.coherent, index ▸ ih.sized, ?_⟩
      intro hash tx found txin member
      rw [pool] at found ⊢
      rw [index]
      exact ih.supported found txin member

/-- In every run of accepted transactions, accepted blocks and reorganisations that starts from
an empty pool, and whose events all are safe, every input of every pool transaction names, in
every state reached, an output of another pool transaction or an unspent one of the index. -/
theorem pool_stays_spendable (family : TxUniverse env Known rank)
    (reached : PoolReached env policy Known (PoolEvent.Safe env policy) s) : PoolSpendable s := by
  have invariant := reached.invariant family
  intro hash tx found txin member
  refine (invariant.supported found txin member).imp_left ?_
  rintro ⟨parent, stored, bound⟩
  refine ⟨parent, stored, ?_, bound⟩
  rintro rfl
  have known := invariant.coherent.known found
  exact absurd (family.acyclic known known member (invariant.coherent.keyed stored).symm) (lt_irrefl _)

theorem Kept.txIndex (kept : Kept s after) : after.txdb.fresh.txIndex = s.txdb.fresh.txIndex := by
  funext hash
  rw [CTxDB.txIndex_eq, CTxDB.txIndex_eq]
  exact congrArg CTxDB.txIndexOf (kept.store (.tx hash) (by simp))

/-- The loop over the postponed blocks is a sequence of events. -/
theorem PoolReached.secondary (vpindexSecondary : List BlockPtr)
    (stored : ∀ pindex block, readBlock env s pindex = some block → ∀ tx ∈ block.vtx, Known tx)
    (reached : PoolReached env policy Known (fun _ _ => True) s) :
    PoolReached env policy Known (fun _ _ => True)
      (afterLoop (connectSecondary env (codeConnector env) vpindexSecondary s)) := by
  induction vpindexSecondary generalizing s with
  | nil => exact reached
  | cons pindex rest ih =>
      simp only [connectSecondary]
      split
      · exact reached
      rename_i block read
      split
      · rename_i broken failed
        have kept := (kept_txnBegin s).trans (kept_of_setBestChainInner (batching_txnBegin s) failed)
        exact reached.outside kept.mempool kept.txIndex
      · rename_i next extended
        have files := ((sameBest_txnBegin s).trans (SameBest.of_setBestChainInner extended)).files
        refine ih ?_ (.event (.extend block pindex) reached (stored pindex block read) trivial ?_)
        · intro other found
          rw [readBlock_of_files files]
          exact stored other found
        · simp only [PoolEvent.result, extended]
          rfl

theorem known_of_reorganize
    (stored : ∀ pindex block, readBlock env s pindex = some block → ∀ tx ∈ block.vtx, Known tx)
    (pindexNew : BlockPtr) : ∀ tx ∈ PoolEvent.txs env s (.reorganize pindexNew), Known tx := by
  have inFiles : ∀ pindexes, ∀ tx ∈ branchTxs env s pindexes, Known tx := by
    intro pindexes tx member
    obtain ⟨pindex, -, inside⟩ := List.mem_flatMap.mp member
    cases read : readBlock env s pindex with
    | none =>
        rw [read] at inside
        cases inside
    | some block =>
        rw [read] at inside
        exact stored pindex block read tx inside
  intro tx member
  simp only [PoolEvent.txs, disconnectedTxs, connectedTxs] at member
  cases fork : findFork s.pindexBest pindexNew with
  | none =>
      rw [fork] at member
      cases member
  | some pfork =>
      rw [fork] at member
      exact (List.mem_append.mp member).elim (inFiles _ tx) (inFiles _ tx)

/-- A call of `SetBestChain`, whatever it returns, is a sequence of events. -/
theorem PoolReached.setBestChain {block : CBlock} {pindexNew : BlockPtr} (known : ∀ tx ∈ block.vtx, Known tx)
    (stored : ∀ pindex block, readBlock env s pindex = some block → ∀ tx ∈ block.vtx, Known tx)
    (reached : PoolReached env policy Known (fun _ _ => True) s) :
    PoolReached env policy Known (fun _ _ => True)
      (afterLoop (InfiniteRicks.setBestChain env policy (codeConnector env) s block pindexNew)) := by
  cases result : InfiniteRicks.setBestChain env policy (codeConnector env) s block pindexNew with
  | error failed =>
      have kept := setBestChain_error result
      exact reached.outside kept.mempool kept.txIndex
  | ok after =>
      simp only [InfiniteRicks.setBestChain] at result
      split at result
      · split at result
        · cases result
        rename_i committed commit
        cases result
        refine reached.outside ?_ ((txIndex_fresh_of_commitBest commit).trans (txIndex_txnBegin s))
        change committed.mempool = s.mempool
        rw [(commitBest_ok commit).1]
        rfl
      split at result
      · split at result
        · cases result
        rename_i next extended
        cases result
        have extended : PoolReached env policy Known (fun _ _ => True) next :=
          .event (.extend block pindexNew) reached known trivial (by
            simp only [PoolEvent.result, extended]
            rfl)
        exact extended.outside rfl rfl
      · split at result
        · cases result
        rename_i next switched
        cases result
        have files := ((sameBest_txnBegin s).trans (SameBest.of_reorganize switched)).files
        have reorganized : PoolReached env policy Known (fun _ _ => True) next :=
          .event (.reorganize (postpone (bestTrust s.txnBegin) pindexNew).2) reached
            (known_of_reorganize stored _) trivial (by
              simp only [PoolEvent.result, switched]
              rfl)
        have done := reorganized.secondary (postpone (bestTrust s.txnBegin) pindexNew).1.reverse (by
          intro pindex other
          rw [readBlock_of_files files]
          exact stored pindex other)
        exact done.outside rfl rfl

end Runs

section Concrete

/-- Eleven blocks of the test network; the coinbase of the first is mature. -/
def poolStack : List Linked := fillerBlock 11 [] :: repeatedCoinbase.drop 2

/-- The node at the eleventh block, with an empty pool. -/
def poolStart : Node :=
  { (connectChain (Env.labelled true) repeatedNode repeatedGenesis poolStack).getD repeatedNode with
    mempool := .empty
    pindexBest := poolStack.map Prod.snd ++ [repeatedGenesis]
    nBestHeight := 11
    hashBestChain := 11 }

/-- A transaction that spends the same coinbase as `spender`. -/
def rival : CTransaction := .labelledSpend 21 1000 ⟨1, 0⟩ (1000 * coin - 20000)

/-- A transaction that spends the output of `spender`. -/
def heir : CTransaction := .labelledSpend 22 1000 ⟨20, 0⟩ (1000 * coin - 20000)

/-- A block on top that has `spender`. -/
def poolBlock : Linked := fillerBlock 12 [spender]

def poolTxs : List CTransaction := rival :: heir :: (poolBlock :: poolStack).flatMap fun linked => linked.1.vtx

theorem poolTxs_family : TxUniverse (Env.labelled true) (· ∈ poolTxs) (fun tx => tx.nLockTime.toNat) := by
  have distinct : ∀ tx ∈ poolTxs, ∀ other ∈ poolTxs,
      (Env.labelled true).txHash tx = (Env.labelled true).txHash other → tx = other := by
    decide +kernel
  have ordered : ∀ tx ∈ poolTxs, ∀ other ∈ poolTxs, ∀ txin ∈ tx.vin,
      txin.prevout.hash = (Env.labelled true).txHash other → other.nLockTime.toNat < tx.nLockTime.toNat := by
    decide +kernel
  exact ⟨fun known knownOther => distinct _ known _ knownOther,
    fun known knownOther member => ordered _ known _ knownOther _ member⟩

theorem poolStart_reached (Allowed : Node → PoolEvent → Prop) :
    PoolReached (Env.labelled true) .lax (· ∈ poolTxs) Allowed poolStart := by
  have sized : ∀ tx ∈ poolTxs, ∀ entry ∈ poolStart.txdb.fresh.txIndex ((Env.labelled true).txHash tx),
      entry.vSpent.length = tx.vout.length := by
    decide +kernel
  exact .start rfl fun tx known entry found => sized tx known entry found

/-- The state after an event, and after `SetBestChain` calls `SetBestChainInner` for the
block. -/
def poolNext (s : Node) (event : PoolEvent) : Node := (event.result (Env.labelled true) .lax s).getD s

def poolExtend : PoolEvent := .extend poolBlock.1 (poolBlock.2 :: poolStart.pindexBest)

theorem poolNext_reached {Allowed : Node → PoolEvent → Prop} {s : Node} (event : PoolEvent)
    (reached : PoolReached (Env.labelled true) .lax (· ∈ poolTxs) Allowed s)
    (known : ∀ tx ∈ event.txs (Env.labelled true) s, tx ∈ poolTxs) (allowed : Allowed s event)
    (succeeds : (event.result (Env.labelled true) .lax s).isSome = true) :
    PoolReached (Env.labelled true) .lax (· ∈ poolTxs) Allowed (poolNext s event) := by
  obtain ⟨after, result⟩ := Option.isSome_iff_exists.mp succeeds
  rw [poolNext, result]
  exact .event event reached known allowed result

/-- A block whose transaction spends what a pool transaction spends is connected, and the pool
transaction stays. -/
theorem conflicting_spend_stays : ∃ s,
    PoolReached (Env.labelled true) .lax (· ∈ poolTxs) (fun _ _ => True) s ∧ ¬PoolSpendable s := by
  have accepted := poolNext_reached (.accept rival) (poolStart_reached fun _ _ => True) (by decide +kernel) trivial
    (by decide +kernel)
  have extended := poolNext_reached poolExtend accepted (by decide +kernel) trivial (by decide +kernel)
  refine ⟨_, extended, ?_⟩
  have stays : (poolNext (poolNext poolStart (.accept rival)) poolExtend).mempool.mapTx.lookup 21 = some rival ∧
      (poolNext (poolNext poolStart (.accept rival)) poolExtend).mempool.mapTx.lookup 1 = none ∧
      slotAt (poolNext (poolNext poolStart (.accept rival)) poolExtend).txdb.fresh.txIndex ⟨1, 0⟩ ≠
        some CDiskTxPos.null := by
    decide +kernel
  intro spendable
  rcases spendable 21 rival stays.1 ⟨⟨1, 0⟩, [], 0xffffffff⟩ List.mem_cons_self with ⟨parent, found, -⟩ | unspent
  · rw [stays.2.1] at found
    cases found
  · exact stays.2.2 unspent

/-- The block has one of two pool transactions; the other spends from it and stays. -/
theorem heir_stays_spendable :
    (poolNext (poolNext (poolNext poolStart (.accept spender)) (.accept heir)) poolExtend).mempool.mapTx.lookup 22 =
        some heir ∧
      PoolSpendable (poolNext (poolNext (poolNext poolStart (.accept spender)) (.accept heir)) poolExtend) := by
  have first := poolNext_reached (.accept spender) (poolStart_reached (PoolEvent.Safe (Env.labelled true) .lax))
    (by decide +kernel) trivial (by decide +kernel)
  have second := poolNext_reached (.accept heir) first (by decide +kernel) trivial (by decide +kernel)
  have apart : ∀ tx ∈ (poolNext (poolNext poolStart (.accept spender)) (.accept heir)).mempool.values,
      tx ∈ poolBlock.1.vtx ∨ ¬Conflicts poolBlock.1.vtx tx := by
    decide +kernel
  have extended := poolNext_reached poolExtend second (by decide +kernel)
    (fun _ tx found => apart tx (CTxMemPool.mem_values found)) (by decide +kernel)
  exact ⟨by decide +kernel, pool_stays_spendable poolTxs_family extended⟩

end Concrete

end InfiniteRicks
