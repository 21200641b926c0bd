import InfiniteRicks.History
import InfiniteRicks.Value

/-!
# Rewards mature before they are spent

`ConnectInputs` finds out whether a coinbase or coinstake is young by walking down the
chain and comparing file positions with the one in the index entry. While a reward is
young its entry keeps the position of its block and all of its outputs unspent: nothing
has spent it, and no transaction with its id could be connected over it.
-/

namespace InfiniteRicks

open Ledger

/-- A coinbase or a coinstake. -/
def CTransaction.isReward (tx : CTransaction) : Bool := tx.isCoinBase || tx.isCoinStake

theorem CTransaction.vout_pos_of_isReward {tx : CTransaction} (reward : tx.isReward = true) :
    0 < tx.vout.length := by
  rw [isReward, Bool.or_eq_true] at reward
  rcases reward with base | stake
  · simp only [isCoinBase] at base
    split at base
    · rw [Bool.and_eq_true, decide_eq_true_eq] at base
      exact base.2
    · cases base
  · simp only [isCoinStake] at stake
    split at stake
    · rename_i txin vin txout second vout inputs outputs
      rw [outputs]
      exact Nat.zero_lt_succ _
    · cases stake

/-- Every transaction spends only what the maturity test lets through, at the index of its
turn. -/
def MatureSpends (env : Env) (s : Node) (pindexBlock : BlockPtr) : TxIndexMap → TxHistory → Prop
  | _, [] => True
  | index, (tx, pos) :: rest =>
      (∀ prevout ∈ spends tx, ∃ txindex txPrev, index prevout.hash = some txindex ∧
        readTxAt s prevout.hash txindex.pos = some txPrev ∧
        CTransaction.immature env pindexBlock txindex txPrev = false) ∧
      MatureSpends env s pindexBlock (applyTx env index tx pos) rest

/-- The index has these transactions at these positions, with all of their outputs
unspent. -/
def Untouched (env : Env) (index : TxIndexMap) (rewards : Set (CTransaction × CDiskTxPos)) : Prop :=
  ∀ entry ∈ rewards, index (env.txHash entry.1) = some (CTxIndex.new entry.2 entry.1.vout.length)

/-- A reward that can be read at its position and that the maturity test stops there. -/
structure Young (env : Env) (s : Node) (pindexBlock : BlockPtr) (reward : CTransaction) (pos : CDiskTxPos) :
    Prop where
  stored : readTxAt s (env.txHash reward) pos = some reward
  immature : ∀ txindex : CTxIndex, txindex.pos = pos →
    CTransaction.immature env pindexBlock txindex reward = true

section Inputs

variable {env : Env} {s : Node} {tx : CTransaction} {pindexBlock : BlockPtr}

theorem checkInputs_mature {inputs : MapPrevTx} {vin : List CTxIn} {start total : Int64}
    (checked : CTransaction.checkInputs env pindexBlock inputs tx vin start = some total) :
    ∀ txin ∈ vin, ∃ prev, inputs txin.prevout.hash = some prev ∧
      CTransaction.immature env pindexBlock prev.1 prev.2 = false := by
  induction vin generalizing start with
  | nil => simp
  | cons first rest ih =>
      simp only [CTransaction.checkInputs] at checked
      split at checked
      · cases checked
      rename_i txindex txPrev found
      split at checked
      · cases checked
      split at checked
      · cases checked
      split at checked
      · cases checked
      rename_i mature
      split at checked
      · cases checked
      split at checked
      · cases checked
      intro txin member
      rcases List.mem_cons.mp member with rfl | later
      · exact ⟨_, found, by simpa using mature⟩
      · exact ih checked txin later

end Inputs

namespace CBlock

variable {env : Env} {s after : Node} {block : CBlock} {pindex : CBlockIndex} {pprev : BlockPtr}

/-- The transaction loop of `ConnectBlock` applies the maturity test to every spend. -/
theorem connectTxs_mature {vtx : List CTransaction} {acc final : ConnectState}
    (loop : connectTxs env s pindex pprev false vtx acc = some final) :
    MatureSpends env s (pindex :: pprev) (overlay acc.mapQueuedChanges s.txdb.txIndex)
      (entriesFrom pindex acc.nTxPos vtx) := by
  induction vtx generalizing acc with
  | nil => trivial
  | cons tx rest ih =>
      simp only [connectTxs] at loop
      split at loop
      · cases loop
      rename_i next step
      have tail := ih loop
      obtain ⟨-, place, shape⟩ := connectTx_cases step
      simp only [nextTxPos, Bool.false_eq_true, if_false] at place
      rw [(connectTx_overlay step).2, place] at tail
      refine ⟨?_, tail⟩
      intro prevout member
      rcases shape with ⟨base, -⟩ | ⟨ordinary, inputs, nValueIn, nValueOut, queued, fetched, -, -, connected, -⟩
      · simp [spends, base] at member
      · have located := CTransaction.fetchInputs_located fetched
        simp only [CTransaction.connectInputs, ordinary, Bool.false_eq_true, if_false] at connected
        split at connected
        · cases connected
        rename_i nValue checked
        simp only [spends, ordinary, Bool.false_eq_true, if_false] at member
        obtain ⟨txin, inVin, rfl⟩ := List.mem_map.mp member
        obtain ⟨prev, found, mature⟩ := checkInputs_mature checked txin inVin
        obtain ⟨entry, stored⟩ := located _ _ found
        exact ⟨prev.1, prev.2, entry, stored, mature⟩

theorem matureSpends_of_connectBlock (connected : block.connectBlock env s pindex pprev = some after) :
    MatureSpends env s (pindex :: pprev) s.txdb.txIndex (block.entries pindex) := by
  obtain ⟨-, acc, loop, -, -⟩ := connectBlock_cases connected
  have mature := connectTxs_mature loop
  rw [overlay_empty] at mature
  exact mature

end CBlock

section Rewards

variable {env : Env} {s : Node} {pindexBlock : BlockPtr} {index : TxIndexMap} {entries : TxHistory}
  {rewards : Set (CTransaction × CDiskTxPos)}

/-- A transaction that passes the maturity test spends no untouched young reward. -/
theorem Untouched.not_spent {tx : CTransaction} {pos : CDiskTxPos} {rest : TxHistory}
    (untouched : Untouched env index rewards)
    (young : ∀ entry ∈ rewards, Young env s pindexBlock entry.1 entry.2)
    (mature : MatureSpends env s pindexBlock index ((tx, pos) :: rest)) {prevout : COutPoint}
    (member : prevout ∈ spends tx) {entry : CTransaction × CDiskTxPos} (reward : entry ∈ rewards) :
    prevout.hash ≠ env.txHash entry.1 := by
  intro same
  obtain ⟨txindex, txPrev, found, stored, passed⟩ := mature.1 prevout member
  rw [same, untouched entry reward, Option.some.injEq] at found
  have place : txindex.pos = entry.2 := by rw [← found]; rfl
  rw [same, place, (young entry reward).stored, Option.some.injEq] at stored
  rw [← stored, (young entry reward).immature txindex place] at passed
  cases passed

/-- Connecting mature spends leaves the young rewards untouched, and its own rewards are
untouched too. -/
theorem Untouched.applyTxs (untouched : Untouched env index rewards)
    (mature : MatureSpends env s pindexBlock index entries)
    (young : ∀ entry ∈ rewards ∪ {entry | entry ∈ entries ∧ entry.1.isReward = true},
      Young env s pindexBlock entry.1 entry.2)
    (nodup : (ids env entries).Nodup)
    (foreign : ∀ hash ∈ ids env entries, ∀ entry ∈ rewards, hash ≠ env.txHash entry.1) :
    Untouched env (applyTxs env index entries)
      (rewards ∪ {entry | entry ∈ entries ∧ entry.1.isReward = true}) := by
  induction entries generalizing index rewards with
  | nil =>
      rintro entry (old | ⟨here, -⟩)
      · exact untouched entry old
      · cases here
  | cons head rest ih =>
      obtain ⟨tx, pos⟩ := head
      simp only [ids, List.map_cons, List.nodup_cons] at nodup
      -- The rewards so far, with the transaction itself if it is one.
      let grown : Set (CTransaction × CDiskTxPos) :=
        rewards ∪ {entry | entry = (tx, pos) ∧ tx.isReward = true}
      have union : grown ∪ {entry | entry ∈ rest ∧ entry.1.isReward = true} =
          rewards ∪ {entry | entry ∈ (tx, pos) :: rest ∧ entry.1.isReward = true} := by
        ext entry
        simp only [grown, Set.mem_union, Set.mem_ofPred_eq, List.mem_cons]
        constructor
        · rintro ((old | ⟨rfl, reward⟩) | ⟨later, reward⟩)
          · exact Or.inl old
          · exact Or.inr ⟨Or.inl rfl, reward⟩
          · exact Or.inr ⟨Or.inr later, reward⟩
        · rintro (old | ⟨rfl | later, reward⟩)
          · exact Or.inl (Or.inl old)
          · exact Or.inl (Or.inr ⟨rfl, reward⟩)
          · exact Or.inr ⟨later, reward⟩
      have untouchedNext : Untouched env (applyTx env index tx pos) grown := by
        rintro entry (old | ⟨rfl, -⟩)
        · have other : env.txHash entry.1 ≠ env.txHash tx :=
            (foreign _ (by simp [ids]) entry old).symm
          rw [applyTx, Function.update_of_ne other, ← untouched entry old]
          split
          · rfl
          rename_i ordinary
          refine setSlots_apply_ne ?_
          intro txin member same
          refine untouched.not_spent (fun entry old => young entry (Or.inl old)) mature ?_ old same.symm
          rw [spends, if_neg ordinary]
          exact List.mem_map_of_mem member
        · rw [applyTx, Function.update_self]
      have later := ih untouchedNext mature.2 (union ▸ young) nodup.2 (by
        rintro hash member entry (old | ⟨rfl, -⟩)
        · exact foreign hash (List.mem_cons_of_mem _ member) entry old
        · intro same
          exact nodup.1 (same ▸ member))
      rw [union] at later
      exact later

theorem matureSpends_append {first second : TxHistory}
    (mature : MatureSpends env s pindexBlock index (first ++ second)) :
    MatureSpends env s pindexBlock index first ∧
      MatureSpends env s pindexBlock (applyTxs env index first) second := by
  induction first generalizing index with
  | nil => exact ⟨trivial, mature⟩
  | cons head rest ih =>
      obtain ⟨tx, pos⟩ := head
      have tail := ih mature.2
      exact ⟨⟨mature.1, tail.1⟩, tail.2⟩

end Rewards

section Slots

variable {env : Env} {index : TxIndexMap} {prevout : COutPoint}

/-- A slot that is unspent after writing real positions was unspent before. -/
theorem slotAt_of_setSlots {vin : List CTxIn} {pos : CDiskTxPos} (real : pos.isNull = false)
    (unspent : slotAt (setSlots index vin pos) prevout = some CDiskTxPos.null) :
    slotAt index prevout = some CDiskTxPos.null := by
  induction vin generalizing index with
  | nil => exact unspent
  | cons txin rest ih =>
      have before := ih unspent
      by_cases same : prevout = txin.prevout
      · subst same
        have present : (slotAt index txin.prevout).isSome = true := by
          rw [← CTransaction.slotAt_setSlot_isSome index txin.prevout txin.prevout pos, before]
          rfl
        rw [slotAt_setSlot_self present, Option.some.injEq] at before
        rw [before] at real
        simp at real
      · rwa [slotAt_setSlot_ne same] at before

/-- An output of a transaction that was not connected meanwhile was unspent before. -/
theorem slotAt_of_applyTxs {entries : TxHistory} (real : ∀ entry ∈ entries, entry.2.isNull = false)
    (foreign : prevout.hash ∉ ids env entries)
    (unspent : slotAt (applyTxs env index entries) prevout = some CDiskTxPos.null) :
    slotAt index prevout = some CDiskTxPos.null := by
  induction entries generalizing index with
  | nil => exact unspent
  | cons head rest ih =>
      obtain ⟨tx, pos⟩ := head
      simp only [ids, List.map_cons, List.mem_cons, not_or] at foreign
      have before := ih (fun entry member => real entry (List.mem_cons_of_mem _ member)) foreign.2 unspent
      rw [slotAt_applyTx_ne foreign.1] at before
      split at before
      · exact before
      · exact slotAt_of_setSlots (real _ List.mem_cons_self) before

theorem connectable_append {first second : TxHistory} (connectable : Ledger.Connectable env index (first ++ second)) :
    Ledger.Connectable env (applyTxs env index first) second := by
  induction first generalizing index with
  | nil => exact connectable
  | cons head rest ih => exact ih connectable.2

theorem applyTxs_isSome {entries : TxHistory} {hash : UInt256}
    (present : (applyTxs env index entries hash).isSome = true) :
    hash ∈ ids env entries ∨ (index hash).isSome = true := by
  induction entries generalizing index with
  | nil => exact Or.inr present
  | cons head rest ih =>
      obtain ⟨tx, pos⟩ := head
      rcases ih present with later | before
      · exact Or.inl (List.mem_cons_of_mem _ later)
      · rcases (applyTx_isSome index tx pos hash).mp before with rfl | old
        · exact Or.inl List.mem_cons_self
        · exact Or.inr old

end Slots

section Walk

variable {env : Env}

/-- The maturity loop stops at an entry of the chain that holds the position, if all entries
above it are inside the window. -/
theorem immatureAt_of_window {nHeight : Int} {pos : CDiskTxPos} {above below : BlockPtr} {entry : CBlockIndex}
    (window : ∀ pindex ∈ above, nHeight - pindex.nHeight < env.nCoinbaseMaturity)
    (inside : nHeight - entry.nHeight < env.nCoinbaseMaturity) (nFile : entry.nFile = pos.nFile)
    (nBlockPos : entry.nBlockPos = pos.nBlockPos) :
    CTransaction.immatureAt env nHeight pos (above ++ entry :: below) = true := by
  induction above with
  | nil => simp [CTransaction.immatureAt, inside, nFile, nBlockPos]
  | cons pindex rest ih =>
      have deeper := ih fun lower member => window lower (List.mem_cons_of_mem _ member)
      rw [List.cons_append, CTransaction.immatureAt, if_pos (window pindex List.mem_cons_self), deeper,
        Bool.or_true]

/-- The positions of a block name its place in the files. -/
theorem CBlock.entries_place {block : CBlock} {pindex : CBlockIndex} {entry : CTransaction × CDiskTxPos}
    (member : entry ∈ block.entries pindex) :
    pindex.nFile = entry.2.nFile ∧ pindex.nBlockPos = entry.2.nBlockPos := by
  have from_place : ∀ (nTxPos : UInt32) (vtx : List CTransaction), entry ∈ entriesFrom pindex nTxPos vtx →
      pindex.nFile = entry.2.nFile ∧ pindex.nBlockPos = entry.2.nBlockPos := by
    intro nTxPos vtx
    induction vtx generalizing nTxPos with
    | nil => intro absent; cases absent
    | cons tx rest ih =>
        intro present
        rcases List.mem_cons.mp present with rfl | later
        · exact ⟨rfl, rfl⟩
        · exact ih _ later
  exact from_place _ _ member

end Walk

/-- The block files hold a block: each of its transactions is read back at the position that
`ConnectBlock` records for it, and none of these is the mark of the memory pool, since a
block never starts at offset 1. -/
def Stored (files : BlockFiles) (linked : Linked) : Prop :=
  ∀ entry ∈ linked.1.entries linked.2, entry.2 ≠ CDiskTxPos.memoryPool ∧ files.readTx entry.2 = some entry.1

/-- A main chain built by `ConnectBlock` calls on genesis, newest block first, with the index
it leaves. Its blocks lie at different places of the files and can be read back there, and
no other transaction has the id of one in the genesis block, which is never connected. -/
inductive MainChain (env : Env) (genesis : Linked) : List Linked → TxIndexMap → Prop
  | genesis (root : genesis.2.nHeight = 0) : MainChain env genesis [] fun _ => none
  | connect {stack : List Linked} {s after : Node} {block : CBlock} {pindex : CBlockIndex}
      (earlier : MainChain env genesis stack s.txdb.txIndex) (height : pindex.nHeight = stack.length + 1)
      (stored : ∀ linked ∈ (block, pindex) :: stack, Stored s.files linked)
      (unlike : ∀ base ∈ genesis.1.vtx, ∀ tx ∈ block.vtx, env.txHash tx = env.txHash base → tx = base)
      (connected : block.connectBlock env s pindex (stack.map Prod.snd ++ [genesis.2]) = some after) :
      MainChain env genesis ((block, pindex) :: stack) after.txdb.txIndex

/-- The rewards of a chain that a block at the given height may not spend yet. -/
def youngRewards (env : Env) (nHeight : Int) (stack : List Linked) : Set (CTransaction × CDiskTxPos) :=
  {entry | ∃ linked ∈ stack, nHeight - linked.2.nHeight < env.nCoinbaseMaturity ∧
    entry ∈ linked.1.entries linked.2 ∧ entry.1.isReward = true}

/-- The heights of a chain count down to genesis. -/
def Leveled : List Linked → Prop
  | [] => True
  | (_, pindex) :: earlier => pindex.nHeight = earlier.length + 1 ∧ Leveled earlier

section Chains

variable {env : Env} {genesis : Linked} {stack : List Linked} {index : TxIndexMap}

theorem MainChain.leveled (chain : MainChain env genesis stack index) : Leveled stack := by
  induction chain with
  | genesis => trivial
  | connect _ height _ _ _ ih => exact ⟨height, ih⟩

theorem Leveled.nHeight_le {linked : Linked} (leveled : Leveled stack) (member : linked ∈ stack) :
    1 ≤ linked.2.nHeight ∧ linked.2.nHeight ≤ stack.length := by
  induction stack with
  | nil => cases member
  | cons newest earlier ih =>
      obtain ⟨block, pindex⟩ := newest
      obtain ⟨height, lower⟩ := leveled
      simp only [List.length_cons, Nat.cast_add, Nat.cast_one]
      rcases List.mem_cons.mp member with rfl | older
      · simp only [height]
        omega
      · have := ih lower older
        omega

/-- Blocks above another one are higher. -/
theorem Leveled.above {above below : List Linked} {linked upper : Linked}
    (leveled : Leveled (above ++ linked :: below)) (member : upper ∈ above) :
    linked.2.nHeight ≤ upper.2.nHeight := by
  induction above with
  | nil => cases member
  | cons newest rest ih =>
      obtain ⟨block, pindex⟩ := newest
      obtain ⟨height, lower⟩ := leveled
      rcases List.mem_cons.mp member with rfl | older
      · have := (lower.nHeight_le (List.mem_append_right rest List.mem_cons_self)).2
        simp only [height]
        omega
      · exact ih lower older

/-- The maturity test stops a spend of a young reward of the chain. -/
theorem Leveled.young {s : Node} {block : CBlock} {pindex : CBlockIndex}
    (leveled : Leveled ((block, pindex) :: stack))
    (stored : ∀ linked ∈ (block, pindex) :: stack, Stored s.files linked)
    {entry : CTransaction × CDiskTxPos}
    (young : entry ∈ youngRewards env pindex.nHeight ((block, pindex) :: stack)) (genesis : CBlockIndex) :
    Young env s (pindex :: (stack.map Prod.snd ++ [genesis])) entry.1 entry.2 := by
  obtain ⟨linked, member, inside, inBlock, reward⟩ := young
  obtain ⟨ordinaryPos, read⟩ := stored linked member entry inBlock
  refine ⟨by rw [readTxAt, if_neg ordinaryPos]; exact read, ?_⟩
  intro txindex place
  obtain ⟨above, below, shape⟩ := List.append_of_mem member
  have list : pindex :: (stack.map Prod.snd ++ [genesis]) =
      above.map Prod.snd ++ linked.2 :: (below.map Prod.snd ++ [genesis]) := by
    have mapped := congrArg (List.map Prod.snd) shape
    simp only [List.map_cons, List.map_append] at mapped
    rw [← List.cons_append, mapped, List.append_assoc, List.cons_append]
  have test : (entry.1.isCoinBase || entry.1.isCoinStake) = true := reward
  rw [CTransaction.immature, test, Bool.true_and, list, place]
  obtain ⟨nFile, nBlockPos⟩ := CBlock.entries_place inBlock
  refine immatureAt_of_window ?_ inside nFile nBlockPos
  intro lower inAbove
  obtain ⟨upper, upperAbove, rfl⟩ := List.mem_map.mp inAbove
  rw [shape] at leveled
  have := leveled.above upperAbove
  omega

/-- A reward has an output, so while it is untouched its id is not overwritten. -/
theorem Untouched.foreign {rewards : Set (CTransaction × CDiskTxPos)} {block : CBlock}
    (untouched : Untouched env index rewards) (rewarding : ∀ entry ∈ rewards, entry.1.isReward = true)
    (overwritable : ∀ tx ∈ block.vtx, ∀ old, index (env.txHash tx) = some old →
      ∀ spent ∈ old.vSpent, spent.isNull = false) :
    ∀ tx ∈ block.vtx, ∀ entry ∈ rewards, env.txHash tx ≠ env.txHash entry.1 := by
  intro tx inBlock entry reward same
  have outputs := CTransaction.vout_pos_of_isReward (rewarding entry reward)
  have spent := overwritable tx inBlock _ (same ▸ untouched entry reward) CDiskTxPos.null
    (List.mem_replicate.mpr ⟨outputs.ne', rfl⟩)
  simp at spent

/-- What holds of the index of a chain: the young rewards are untouched, and every entry is
that of a connected transaction. -/
structure ChainInvariant (env : Env) (stack : List Linked) (index : TxIndexMap) : Prop where
  untouched : Untouched env index (youngRewards env (stack.length + 1) stack)
  known : ∀ hash, (index hash).isSome = true → ∃ linked ∈ stack, ∃ tx ∈ linked.1.vtx, env.txHash tx = hash

theorem mem_entries {block : CBlock} (pindex : CBlockIndex) {tx : CTransaction} (member : tx ∈ block.vtx) :
    ∃ pos, (tx, pos) ∈ block.entries pindex := by
  rw [← CBlock.entries_map_fst block pindex] at member
  obtain ⟨⟨_, pos⟩, inEntries, rfl⟩ := List.mem_map.mp member
  exact ⟨pos, inEntries⟩

theorem mem_ids_entries {block : CBlock} {pindex : CBlockIndex} {hash : UInt256}
    (member : hash ∈ ids env (block.entries pindex)) : ∃ tx ∈ block.vtx, env.txHash tx = hash := by
  rw [CBlock.ids_entries] at member
  exact List.mem_map.mp member

/-- One `ConnectBlock` on a chain. -/
structure Extension (env : Env) (genesis : Linked) (stack : List Linked) (s : Node) (block : CBlock)
    (pindex : CBlockIndex) (after : Node) : Prop where
  leveled : Leveled ((block, pindex) :: stack)
  stored : ∀ linked ∈ (block, pindex) :: stack, Stored s.files linked
  connected : block.connectBlock env s pindex (stack.map Prod.snd ++ [genesis.2]) = some after

namespace Extension

variable {s after : Node} {block : CBlock} {pindex : CBlockIndex}

theorem young (extension : Extension env genesis stack s block pindex after) {entry : CTransaction × CDiskTxPos}
    (young : entry ∈ youngRewards env pindex.nHeight stack ∪
      {entry | entry ∈ block.entries pindex ∧ entry.1.isReward = true}) :
    Young env s (pindex :: (stack.map Prod.snd ++ [genesis.2])) entry.1 entry.2 := by
  refine extension.leveled.young extension.stored ?_ genesis.2
  rcases young with ⟨linked, member, rest⟩ | ⟨member, reward⟩
  · exact ⟨linked, List.mem_cons_of_mem _ member, rest⟩
  · refine ⟨(block, pindex), List.mem_cons_self, ?_, member, reward⟩
    rw [sub_self, Env.nCoinbaseMaturity]
    split <;> decide

/-- The young rewards and those of the block are untouched when the transactions in front of
a place in the block have been connected. -/
theorem untouched (extension : Extension env genesis stack s block pindex after)
    (invariant : ChainInvariant env stack s.txdb.txIndex) {front back : TxHistory}
    (split : block.entries pindex = front ++ back) :
    Untouched env (applyTxs env s.txdb.txIndex front) (youngRewards env pindex.nHeight stack ∪
      {entry | entry ∈ front ∧ entry.1.isReward = true}) := by
  have spec := CBlock.connectBlock_spec extension.connected
  have mature := CBlock.matureSpends_of_connectBlock extension.connected
  have nodup := (CBlock.checked_of_checkBlock spec.checked).nodup
  rw [← CBlock.ids_entries env block pindex, split, ids, List.map_append] at nodup
  rw [split] at mature
  have height : pindex.nHeight = stack.length + 1 := extension.leveled.1
  refine Untouched.applyTxs (height ▸ invariant.untouched) (matureSpends_append mature).1 ?_
    nodup.of_append_left ?_
  · rintro entry (old | ⟨member, reward⟩)
    · exact extension.young (Or.inl old)
    · exact extension.young (Or.inr ⟨split ▸ List.mem_append_left _ member, reward⟩)
  · intro hash member
    have inEntries : hash ∈ ids env (block.entries pindex) := by
      rw [split, ids, List.map_append]
      exact List.mem_append_left _ member
    obtain ⟨tx, inBlock, rfl⟩ := mem_ids_entries inEntries
    refine Untouched.foreign (height ▸ invariant.untouched) ?_ spec.overwritable tx inBlock
    rintro entry ⟨linked, -, -, -, reward⟩
    exact reward

/-- The block does not spend a young reward, be it of an earlier block or of its own. -/
theorem not_spent (extension : Extension env genesis stack s block pindex after)
    (invariant : ChainInvariant env stack s.txdb.txIndex) {linked : Linked}
    (member : linked ∈ (block, pindex) :: stack)
    (inside : pindex.nHeight - linked.2.nHeight < env.nCoinbaseMaturity) {reward tx : CTransaction}
    (inLinked : reward ∈ linked.1.vtx) (isReward : reward.isReward = true) (inBlock : tx ∈ block.vtx)
    {prevout : COutPoint} (consumes : prevout ∈ spends tx) : prevout.hash ≠ env.txHash reward := by
  have spec := CBlock.connectBlock_spec extension.connected
  have mature := CBlock.matureSpends_of_connectBlock extension.connected
  obtain ⟨pos, inEntries⟩ := mem_entries pindex inBlock
  obtain ⟨front, back, split⟩ := List.append_of_mem inEntries
  have untouched := extension.untouched invariant split
  rw [split] at mature
  have passes := (matureSpends_append mature).2
  have young : ∀ entry ∈ youngRewards env pindex.nHeight stack ∪
      {entry | entry ∈ front ∧ entry.1.isReward = true},
      Young env s (pindex :: (stack.map Prod.snd ++ [genesis.2])) entry.1 entry.2 := by
    rintro entry (old | ⟨earlier, shape⟩)
    · exact extension.young (Or.inl old)
    · exact extension.young (Or.inr ⟨split ▸ List.mem_append_left _ earlier, shape⟩)
  obtain ⟨place, inLinkedEntries⟩ := mem_entries linked.2 inLinked
  rcases List.mem_cons.mp member with rfl | older
  · rw [split] at inLinkedEntries
    rcases List.mem_append.mp inLinkedEntries with earlier | notEarlier
    · have inSet : (reward, place) ∈ youngRewards env pindex.nHeight stack ∪
          {entry | entry ∈ front ∧ entry.1.isReward = true} := Or.inr ⟨earlier, isReward⟩
      exact untouched.not_spent young passes consumes inSet
    -- A later transaction, or the spender itself: its id must be free of unspent outputs.
    · intro same
      have connectable := spec.connectable
      rw [split] at connectable
      have unspent := (connectable_append connectable).1.slotAt_null
        (CBlock.entries_real inEntries) consumes
      have nodup := (CBlock.checked_of_checkBlock spec.checked).nodup
      rw [← CBlock.ids_entries env block pindex, split, ids, List.map_append] at nodup
      have foreign : prevout.hash ∉ ids env front := by
        intro inFront
        rw [same] at inFront
        exact List.disjoint_of_nodup_append nodup inFront (List.mem_map.mpr ⟨_, notEarlier, rfl⟩)
      have before := slotAt_of_applyTxs (fun entry inFront => CBlock.entries_real
        (split ▸ List.mem_append_left _ inFront)) foreign unspent
      obtain ⟨old, found⟩ := Option.isSome_iff_exists.mp (slotAt_isSome_entry before)
      simp only [slotAt, slot, found, Option.bind_some] at before
      have spent := spec.overwritable reward inLinked old (same ▸ found) _ (List.mem_of_getElem? before)
      simp at spent
  · have inSet : (reward, place) ∈ youngRewards env pindex.nHeight stack ∪
        {entry | entry ∈ front ∧ entry.1.isReward = true} :=
      Or.inl ⟨linked, older, inside, inLinkedEntries, isReward⟩
    exact untouched.not_spent young passes consumes inSet

/-- The invariant of the chain with the block on it. -/
theorem invariant (extension : Extension env genesis stack s block pindex after)
    (before : ChainInvariant env stack s.txdb.txIndex) :
    ChainInvariant env ((block, pindex) :: stack) after.txdb.txIndex := by
  have spec := CBlock.connectBlock_spec extension.connected
  have height : pindex.nHeight = stack.length + 1 := extension.leveled.1
  rw [spec.txIndex]
  refine ⟨?_, ?_⟩
  · intro entry young
    refine extension.untouched before (List.append_nil _).symm entry ?_
    obtain ⟨linked, member, inside, inLinked, reward⟩ := young
    rcases List.mem_cons.mp member with rfl | older
    · exact Or.inr ⟨inLinked, reward⟩
    · refine Or.inl ⟨linked, older, ?_, inLinked, reward⟩
      rw [List.length_cons] at inside
      push_cast at inside
      omega
  · intro hash present
    rcases applyTxs_isSome present with here | old
    · obtain ⟨tx, inBlock, same⟩ := mem_ids_entries here
      exact ⟨(block, pindex), List.mem_cons_self, tx, inBlock, same⟩
    · obtain ⟨linked, member, rest⟩ := before.known hash old
      exact ⟨linked, List.mem_cons_of_mem _ member, rest⟩

/-- What the block spends was paid out by a transaction of a connected block. -/
theorem spent_known (extension : Extension env genesis stack s block pindex after)
    (invariant : ChainInvariant env stack s.txdb.txIndex) {tx : CTransaction} (inBlock : tx ∈ block.vtx)
    {prevout : COutPoint} (consumes : prevout ∈ spends tx) :
    ∃ linked ∈ (block, pindex) :: stack, ∃ source ∈ linked.1.vtx, env.txHash source = prevout.hash := by
  have mature := CBlock.matureSpends_of_connectBlock extension.connected
  obtain ⟨pos, inEntries⟩ := mem_entries pindex inBlock
  obtain ⟨front, back, split⟩ := List.append_of_mem inEntries
  rw [split] at mature
  obtain ⟨txindex, -, found, -⟩ := (matureSpends_append mature).2.1 prevout consumes
  rcases applyTxs_isSome (Option.isSome_iff_exists.mpr ⟨_, found⟩) with here | old
  · have inIds : prevout.hash ∈ ids env (block.entries pindex) := by
      rw [split, ids, List.map_append]
      exact List.mem_append_left _ here
    obtain ⟨source, member, same⟩ := mem_ids_entries inIds
    exact ⟨(block, pindex), List.mem_cons_self, source, member, same⟩
  · obtain ⟨linked, member, rest⟩ := invariant.known _ old
    exact ⟨linked, List.mem_cons_of_mem _ member, rest⟩

end Extension

theorem MainChain.invariant (chain : MainChain env genesis stack index) : ChainInvariant env stack index := by
  induction chain with
  | genesis =>
      refine ⟨?_, ?_⟩
      · rintro entry ⟨linked, member, -⟩
        cases member
      · intro hash present
        cases present
  | connect earlier height stored _ connected ih =>
      exact Extension.invariant ⟨⟨height, earlier.leveled⟩, stored, connected⟩ ih

theorem MainChain.root (chain : MainChain env genesis stack index) : genesis.2.nHeight = 0 := by
  induction chain with
  | genesis root => exact root
  | connect _ _ _ _ _ ih => exact ih

theorem MainChain.unlike (chain : MainChain env genesis stack index) {linked : Linked} (member : linked ∈ stack)
    {base tx : CTransaction} (inGenesis : base ∈ genesis.1.vtx) (inLinked : tx ∈ linked.1.vtx)
    (same : env.txHash tx = env.txHash base) : tx = base := by
  induction chain with
  | genesis => cases member
  | connect _ _ _ unlike _ ih =>
      rcases List.mem_cons.mp member with rfl | older
      · exact unlike base inGenesis tx inLinked same
      · exact ih older

/-- No block of a main chain spends an output of a coinbase or coinstake that an ancestor or
the block itself has at a height less than `nCoinbaseMaturity` below its own, wherever in
the block the spender and the reward stand. -/
theorem immature_reward_not_spent (chain : MainChain env genesis stack index) {block : CBlock}
    {pindex : CBlockIndex} {earlier : List Linked} (suffix : (block, pindex) :: earlier <:+ stack)
    {linked : Linked} (member : linked ∈ (block, pindex) :: earlier ++ [genesis])
    (inside : pindex.nHeight - env.nCoinbaseMaturity < linked.2.nHeight) {reward tx : CTransaction}
    (inLinked : reward ∈ linked.1.vtx) (isReward : reward.isCoinBase = true ∨ reward.isCoinStake = true)
    (inBlock : tx ∈ block.vtx) {prevout : COutPoint} (consumes : prevout ∈ spends tx) :
    prevout.hash ≠ env.txHash reward := by
  induction chain with
  | genesis => simp at suffix
  | connect before height stored unlike connected ih =>
      rcases List.suffix_cons_iff.mp suffix with same | below
      swap
      · exact ih below
      obtain ⟨⟨rfl, rfl⟩, rfl⟩ : (block = _ ∧ pindex = _) ∧ earlier = _ := by simpa using same
      have whole := MainChain.connect before height stored unlike connected
      have extension : Extension env genesis earlier _ block pindex _ :=
        ⟨⟨height, before.leveled⟩, stored, connected⟩
      have shape : reward.isReward = true := by simpa [CTransaction.isReward] using isReward
      rcases List.mem_append.mp member with connectedBlock | isGenesis
      · exact extension.not_spent before.invariant connectedBlock (by omega) inLinked shape inBlock consumes
      -- An output with the id of a genesis transaction belongs to a copy in a connected block.
      · obtain rfl := List.mem_singleton.mp isGenesis
        intro equal
        obtain ⟨holder, inChain, source, inHolder, sameHash⟩ :=
          extension.spent_known before.invariant inBlock consumes
        obtain rfl := whole.unlike inChain inLinked inHolder (sameHash.trans equal)
        have lower := (whole.leveled.nHeight_le inChain).1
        have root := whole.root
        exact extension.not_spent before.invariant inChain (by omega) inHolder shape inBlock consumes equal

end Chains

section Concrete

/-- Blocks connected one after the other are a main chain. -/
theorem MainChain.of_connectChain {env : Env} {genesis : Linked} {s after : Node} {stack : List Linked}
    (start : s.txdb.txIndex = fun _ => none) (root : genesis.2.nHeight = 0) (leveled : Leveled stack)
    (stored : ∀ linked ∈ stack, Stored s.files linked)
    (unlike : ∀ base ∈ genesis.1.vtx, ∀ linked ∈ stack, ∀ tx ∈ linked.1.vtx,
      env.txHash tx = env.txHash base → tx = base)
    (connected : connectChain env s genesis.2 stack = some after) :
    MainChain env genesis stack after.txdb.txIndex ∧ after.files = s.files := by
  induction stack generalizing after with
  | nil =>
      simp only [connectChain, Option.some.injEq] at connected
      subst connected
      rw [start]
      exact ⟨.genesis root, rfl⟩
  | cons linked earlier ih =>
      obtain ⟨block, pindex⟩ := linked
      simp only [connectChain] at connected
      split at connected
      · cases connected
      rename_i before succeeded
      obtain ⟨chain, files⟩ := ih leveled.2 (fun linked member => stored linked (List.mem_cons_of_mem _ member))
        (fun base inGenesis linked member => unlike base inGenesis linked (List.mem_cons_of_mem _ member))
        succeeded
      refine ⟨.connect chain leveled.1 (files ▸ stored) ?_ connected, ?_⟩
      · intro base inGenesis
        exact unlike base inGenesis (block, pindex) List.mem_cons_self
      · rw [(CBlock.connectBlock_spec connected).frame.rest]
        exact files

/-- A node whose block files hold the blocks of `repeatedCoinbase`. -/
def maturityNode : Node :=
  let entries := repeatedCoinbase.tail.flatMap fun linked => linked.1.entries linked.2
  .initial ⟨fun pos => (entries.find? fun entry => entry.2 = pos).map Prod.fst, fun _ _ => none⟩
    (fun _ => true) 1000

def maturityGenesis : Linked := (.labelled 0 0 1000 0x1f00ffff [], repeatedGenesis)

/-- In the eleventh block the coinbase of the first is spent, and not the one of the
second. -/
theorem coinbase_spent_when_mature :
    (⟨1, 0⟩ : COutPoint) ∈ spends spender ∧
      ∀ reward ∈ (fillerBlock 2 []).1.vtx, (1 : UInt256) ≠ (Env.labelled true).txHash reward := by
  have succeeds : (connectChain (Env.labelled true) maturityNode maturityGenesis.2
      repeatedCoinbase.tail).isSome = true := by decide +kernel
  obtain ⟨after, connected⟩ := Option.isSome_iff_exists.mp succeeds
  have levels : Leveled repeatedCoinbase.tail :=
    ⟨rfl, rfl, rfl, rfl, rfl, rfl, rfl, rfl, rfl, rfl, rfl, trivial⟩
  have stored : ∀ linked ∈ repeatedCoinbase.tail, ∀ entry ∈ linked.1.entries linked.2,
      entry.2 ≠ CDiskTxPos.memoryPool ∧ maturityNode.files.readTx entry.2 = some entry.1 := by
    decide +kernel
  obtain ⟨chain, -⟩ := MainChain.of_connectChain rfl rfl levels stored
    (by simp [maturityGenesis, CBlock.labelled]) connected
  have suffix : repeatedCoinbase.tail <:+ repeatedCoinbase.tail := List.suffix_rfl
  have member : fillerBlock 2 [] ∈ repeatedCoinbase.tail ++ [maturityGenesis] := by decide +kernel
  have consumes : (⟨1, 0⟩ : COutPoint) ∈ spends spender := by decide +kernel
  refine ⟨consumes, fun reward inBlock => ?_⟩
  have isReward : reward.isCoinBase = true ∨ reward.isCoinStake = true := by
    obtain rfl := List.mem_singleton.mp inBlock
    exact Or.inl rfl
  exact immature_reward_not_spent chain suffix member (by decide +kernel) inBlock isReward
    (List.mem_cons_of_mem _ List.mem_cons_self) consumes

end Concrete

end InfiniteRicks
