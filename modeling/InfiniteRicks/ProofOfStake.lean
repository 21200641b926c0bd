import InfiniteRicks.Consistency
import InfiniteRicks.Kernel

/-!
# Checking a proof of stake

`GetKernelStakeModifier`, `CheckStakeKernelHash` and `CheckProofOfStake`, from
`kernel.cpp`. The staked output and its block are read through the transaction index,
and the modifier is looked for along `pnext`, so the verdict is one about the active
chain: nodes on the same chain agree, whatever their histories and files.
-/

namespace InfiniteRicks

open Ledger

/-- `GetWeight`; `nStakeMaxAge` is `(unsigned int)-1`. -/
def getWeight (env : Env) (nIntervalBeginning nIntervalEnd : Int) : Int :=
  min (nIntervalEnd - nIntervalBeginning - env.nStakeMinAge) 0xffffffff

/-- The loop of `GetKernelStakeModifier` along `pnext`. A step beyond the fuel counts as
the end of the chain; see `kernelWalk_eq`. -/
def kernelWalk (s : Node) (nStop : Int) : Nat → CBlockIndex → Int → Option UInt64
  | fuel, pindex, nStakeModifierTime =>
      if nStop ≤ nStakeModifierTime then some pindex.nStakeModifier
      else
        match fuel with
        | 0 => none
        | fuel + 1 =>
            match (s.pnext pindex.hash).bind s.mapBlockIndex with
            | some (next :: _) =>
                kernelWalk s nStop fuel next
                  (if next.fGeneratedStakeModifier then next.getBlockTime else nStakeModifierTime)
            | _ => none

/-- `GetKernelStakeModifier`. -/
def getKernelStakeModifier (s : Node) (hashBlockFrom : UInt256) : Option UInt64 :=
  match s.mapBlockIndex hashBlockFrom with
  | some (pindexFrom :: _) =>
      kernelWalk s (pindexFrom.getBlockTime + getStakeModifierSelectionInterval) s.pindexBest.length
        pindexFrom pindexFrom.getBlockTime
  | _ => none

/-- `CheckStakeKernelHash`: `hashProofOfStake` and `targetProofOfStake`, if it returns
true. -/
def checkStakeKernelHash (env : Env) (hashes : KernelHash) (s : Node) (nBits : UInt32) (blockFrom : CBlock)
    (nTxPrevOffset : UInt32) (txPrev : CTransaction) (txout : CTxOut) (prevout : COutPoint)
    (nTimeTx : UInt32) : Option (UInt256 × UInt256) :=
  if nTimeTx < txPrev.nTime then none
  else if nTimeTx < blockFrom.nTime + UInt32.ofInt env.nStakeMinAge then none
  else
    let bnTargetPerCoinDay := CBigNum.setCompact nBits
    let bnCoinDayWeight :=
      ((txout.nValue.toInt * getWeight env txPrev.nTime.toNat nTimeTx.toNat).tdiv coin.toInt).tdiv
        (24 * 60 * 60)
    match getKernelStakeModifier s (blockFrom.getHash env) with
    | none => none
    | some nStakeModifier =>
        let hashProofOfStake :=
          hashes.kernel nStakeModifier blockFrom.nTime nTxPrevOffset txPrev.nTime prevout.n nTimeTx
        if bnCoinDayWeight * bnTargetPerCoinDay < hashProofOfStake.toNat then none
        else some (hashProofOfStake, CBigNum.getUInt256 (bnCoinDayWeight * bnTargetPerCoinDay))

/-- `CTransaction::ReadFromDisk(txdb, prevout, txindex)`, with the output that `prevout`
names. -/
def readPrevTx (s : Node) (prevout : COutPoint) : Option (CTxIndex × CTransaction × CTxOut) :=
  match s.txdb.fresh.readTxIndex prevout.hash with
  | none => none
  | some txindex =>
      match s.files.readTx txindex.pos with
      | none => none
      | some txPrev =>
          match txPrev.vout[prevout.n.toNat]? with
          | none => none
          | some txout => some (txindex, txPrev, txout)

/-- `CheckProofOfStake`: `hashProofOfStake` and `targetProofOfStake`, if it returns
true. -/
def checkProofOfStake (env : Env) (hashes : KernelHash) (s : Node) (tx : CTransaction) (nBits : UInt32) :
    Option (UInt256 × UInt256) :=
  if !tx.isCoinStake then none
  else
    match tx.vin with
    | [] => none
    | txin :: _ =>
        match readPrevTx s txin.prevout with
        | none => none
        | some (txindex, txPrev, txout) =>
            if !env.verifySignature txPrev tx 0 then none
            else
              match s.files.readBlock txindex.pos.nFile txindex.pos.nBlockPos with
              | none => none
              | some block =>
                  checkStakeKernelHash env hashes s nBits block
                    (txindex.pos.nTxPos - txindex.pos.nBlockPos) txPrev txout txin.prevout tx.nTime

section Walk

/-- The loop of `GetKernelStakeModifier` over the blocks above an entry, oldest
first. -/
def pathWalk (nStop : Int) : List CBlockIndex → CBlockIndex → Int → Option UInt64
  | [], pindex, nStakeModifierTime => if nStop ≤ nStakeModifierTime then some pindex.nStakeModifier else none
  | next :: above, pindex, nStakeModifierTime =>
      if nStop ≤ nStakeModifierTime then some pindex.nStakeModifier
      else
        pathWalk nStop above next
          (if next.fGeneratedStakeModifier then next.getBlockTime else nStakeModifierTime)

/-- The link of an entry of a chain leads to the entry above it. -/
theorem pathLinks_above {newer below : BlockPtr} {next entry : CBlockIndex}
    (distinct : DistinctHashes (newer ++ next :: entry :: below)) :
    pathLinks (newer ++ next :: entry :: below) entry.hash = some next.hash := by
  induction newer with
  | nil => rw [List.nil_append, pathLinks, Function.update_self]
  | cons top newer ih =>
      obtain ⟨second, others, shape, inside⟩ : ∃ second others,
          newer ++ next :: entry :: below = second :: others ∧ entry ∈ others := by
        cases newer with
        | nil => exact ⟨next, entry :: below, rfl, List.mem_cons_self⟩
        | cons second newer => exact ⟨second, newer ++ next :: entry :: below, rfl, by simp⟩
      have rest : DistinctHashes (second :: others) := shape ▸ distinct.tail
      have different : entry.hash ≠ second.hash := by
        intro same
        exact (List.nodup_cons.mp rest).1 (same ▸ List.mem_map_of_mem inside)
      have above := ih distinct.tail
      rw [List.cons_append, shape, pathLinks, Function.update_of_ne different, ← shape]
      exact above

/-- On a chain whose links and index are right, the walk passes over exactly the blocks
above the entry, however much fuel is left beyond them. -/
theorem kernelWalk_eq {s : Node} {pindex below : BlockPtr} {entry : CBlockIndex} {above : List CBlockIndex}
    {nStop nStakeModifierTime : Int} {fuel : Nat} (links : s.pnext = pathLinks pindex)
    (indexed : Indexed s.mapBlockIndex pindex) (shape : pindex = above.reverse ++ entry :: below)
    (enough : above.length ≤ fuel) :
    kernelWalk s nStop fuel entry nStakeModifierTime = pathWalk nStop above entry nStakeModifierTime := by
  induction above generalizing fuel entry below nStakeModifierTime with
  | nil =>
      have stops : s.pnext entry.hash = none := by
        rw [links, shape, List.reverse_nil, List.nil_append]
        refine pathLinks_eq_none ?_
        have distinct := indexed.nodup
        rw [shape, List.reverse_nil, List.nil_append] at distinct
        exact (List.nodup_cons.mp distinct).1
      rw [kernelWalk.eq_def, pathWalk]
      cases fuel with
      | zero => rfl
      | succ fuel => simp only [stops, Option.bind_none]
  | cons next above ih =>
      obtain ⟨fuel, rfl⟩ : ∃ less, fuel = less + 1 := ⟨fuel - 1, by simp only [List.length_cons] at enough; omega⟩
      rw [List.reverse_cons, List.append_assoc, List.singleton_append] at shape
      have link : s.pnext entry.hash = some next.hash := by
        rw [links, shape]
        exact pathLinks_above (shape ▸ indexed.nodup)
      have lookup : s.mapBlockIndex next.hash = some (next :: entry :: below) :=
        indexed next (entry :: below) ⟨above.reverse, shape.symm⟩
      rw [kernelWalk.eq_def, pathWalk]
      simp only [link, Option.bind_some, lookup]
      rw [ih shape (by simpa using enough)]

end Walk

section Places

variable {env : Env}

/-- The positions that a block gives its transactions are at the same offsets wherever
it is stored. -/
theorem CBlock.entriesFrom_offset {pindex : CBlockIndex} {nStart : UInt32} {vtx : List CTransaction}
    {tx : CTransaction} {pos : CDiskTxPos}
    (member : (tx, pos) ∈ entriesFrom pindex (pindex.nBlockPos + nStart) vtx) :
    ∃ nOffset, pos = pindex.txPos (pindex.nBlockPos + nOffset) ∧
      ∀ other : CBlockIndex, (tx, other.txPos (other.nBlockPos + nOffset)) ∈
        entriesFrom other (other.nBlockPos + nStart) vtx := by
  induction vtx generalizing nStart with
  | nil => simp [entriesFrom] at member
  | cons first rest ih =>
      rw [entriesFrom] at member
      rcases List.mem_cons.mp member with here | later
      · obtain ⟨rfl, rfl⟩ := Prod.mk.inj here
        exact ⟨nStart, rfl, fun other => by rw [entriesFrom]; exact List.mem_cons_self⟩
      · rw [UInt32.add_assoc] at later
        obtain ⟨nOffset, place, everywhere⟩ := ih later
        refine ⟨nOffset, place, fun other => ?_⟩
        rw [entriesFrom, UInt32.add_assoc]
        exact List.mem_cons_of_mem _ (everywhere other)

theorem CBlock.entries_offset {block : CBlock} {pindex : CBlockIndex} {tx : CTransaction} {pos : CDiskTxPos}
    (member : (tx, pos) ∈ block.entries pindex) :
    ∃ nOffset, pos = pindex.txPos (pindex.nBlockPos + nOffset) ∧
      ∀ other : CBlockIndex, (tx, other.txPos (other.nBlockPos + nOffset)) ∈ block.entries other := by
  have start : ∀ other : CBlockIndex, block.firstTxPos other false = other.nBlockPos +
      (82 - 2 * UInt32.ofNat (getSizeOfCompactSize 0) + UInt32.ofNat (getSizeOfCompactSize block.vtx.length)) := by
    intro other
    rw [firstTxPos, if_neg (by simp)]
    grind
  rw [entries, start] at member
  obtain ⟨nOffset, place, everywhere⟩ := entriesFrom_offset member
  refine ⟨nOffset, place, fun other => ?_⟩
  rw [entries, start]
  exact everywhere other

/-- Two stacks of the same blocks, each stored in the files of its node. -/
def SameStack : List Linked → List Linked → Prop :=
  List.Forall₂ fun linked other => linked.1 = other.1 ∧ linked.2.unplaced = other.2.unplaced

theorem SameStack.symm {stack other : List Linked} (same : SameStack stack other) : SameStack other stack :=
  List.Forall₂.flip (same.imp fun _ _ both => ⟨both.1.symm, both.2.symm⟩)

/-- A transaction of one of the stacks is at the same offset of the same block in the
other. -/
theorem SameStack.mem_ledger {stack other : List Linked} (same : SameStack stack other) {tx : CTransaction}
    {pos : CDiskTxPos} (member : (tx, pos) ∈ ledger stack) :
    ∃ block entry entryOther nOffset, (block, entry) ∈ stack ∧ (block, entryOther) ∈ other ∧
      entry.unplaced = entryOther.unplaced ∧ pos = entry.txPos (entry.nBlockPos + nOffset) ∧
      (tx, entryOther.txPos (entryOther.nBlockPos + nOffset)) ∈ ledger other := by
  induction same with
  | nil => simp [ledger] at member
  | @cons linked linkedOther stack other here rest ih =>
      obtain ⟨block, entry⟩ := linked
      obtain ⟨blockOther, entryOther⟩ := linkedOther
      obtain ⟨rfl, sameEntry⟩ := here
      rw [ledger] at member
      rcases List.mem_append.mp member with inBlock | earlier
      · obtain ⟨nOffset, place, everywhere⟩ := CBlock.entries_offset (List.mem_reverse.mp inBlock)
        refine ⟨block, entry, entryOther, nOffset, List.mem_cons_self, List.mem_cons_self, sameEntry, place, ?_⟩
        rw [ledger]
        exact List.mem_append_left _ (List.mem_reverse.mpr (everywhere entryOther))
      · obtain ⟨older, lower, lowerOther, nOffset, inStack, inOther, sameLower, place, found⟩ := ih earlier
        refine ⟨older, lower, lowerOther, nOffset, List.mem_cons_of_mem _ inStack,
          List.mem_cons_of_mem _ inOther, sameLower, place, ?_⟩
        rw [ledger]
        exact List.mem_append_right _ found

theorem SameBlocks.pathWalk {above other : List CBlockIndex} {entry entryOther : CBlockIndex}
    (same : SameBlocks above other) (sameEntry : entry.unplaced = entryOther.unplaced)
    (nStop nStakeModifierTime : Int) :
    InfiniteRicks.pathWalk nStop above entry nStakeModifierTime =
      InfiniteRicks.pathWalk nStop other entryOther nStakeModifierTime := by
  induction above generalizing other entry entryOther nStakeModifierTime with
  | nil =>
      have modifier : entry.nStakeModifier = entryOther.nStakeModifier :=
        CBlockIndex.eq_of_unplaced CBlockIndex.nStakeModifier (fun _ => rfl) sameEntry
      rw [same.nil_left, InfiniteRicks.pathWalk, InfiniteRicks.pathWalk, modifier]
  | cons next above ih =>
      obtain ⟨nextOther, rest, rfl, sameNext, sameRest⟩ := same.cons_left
      have modifier : entry.nStakeModifier = entryOther.nStakeModifier :=
        CBlockIndex.eq_of_unplaced CBlockIndex.nStakeModifier (fun _ => rfl) sameEntry
      have generated : next.fGeneratedStakeModifier = nextOther.fGeneratedStakeModifier :=
        CBlockIndex.eq_of_unplaced CBlockIndex.fGeneratedStakeModifier (fun _ => rfl) sameNext
      have time : next.getBlockTime = nextOther.getBlockTime :=
        CBlockIndex.eq_of_unplaced CBlockIndex.getBlockTime (fun _ => rfl) sameNext
      rw [InfiniteRicks.pathWalk, InfiniteRicks.pathWalk, modifier, generated, time,
        ih sameRest sameNext]

end Places

/-- A node that stands on a chain of connected blocks: the links and the index lead
along it, the transaction index is its replay, and its blocks can be read. -/
structure OnChain (env : Env) (genesis : CBlockIndex) (stack : List Linked) (s : Node) : Prop where
  best : s.pindexBest = stack.map Prod.snd ++ [genesis]
  links : s.pnext = pathLinks s.pindexBest
  indexed : Indexed s.mapBlockIndex s.pindexBest
  sound : Sound env stack
  txIndex : s.txdb.fresh.txIndex = replay env (ledger stack)
  named : ∀ linked ∈ stack, linked.1.getHash env = linked.2.hash
  readTx : ∀ entry ∈ ledger stack, s.files.readTx entry.2 = some entry.1
  readBlock : ∀ linked ∈ stack, s.files.readBlock linked.2.nFile linked.2.nBlockPos = some linked.1

section Verdict

variable {env : Env} {hashes : KernelHash} {genesis genesisOther : CBlockIndex} {stack stackOther : List Linked}
  {s other : Node}

theorem OnChain.readPrevTx_missing (on : OnChain env genesis stack s) {prevout : COutPoint}
    (absent : prevout.hash ∉ ids env (ledger stack)) : readPrevTx s prevout = none := by
  have missing : s.txdb.fresh.readTxIndex prevout.hash = none := by
    change s.txdb.fresh.txIndex prevout.hash = none
    rw [on.txIndex, ← Option.not_isSome_iff_eq_none, replay_isSome]
    exact absent
  rw [readPrevTx, missing]

theorem OnChain.readPrevTx_found (on : OnChain env genesis stack s) {prevout : COutPoint}
    {txPrev : CTransaction} {pos : CDiskTxPos} (member : (txPrev, pos) ∈ ledger stack)
    (hash : env.txHash txPrev = prevout.hash) :
    ∃ txindex : CTxIndex, txindex.pos = pos ∧
      readPrevTx s prevout = (txPrev.vout[prevout.n.toNat]?).map fun txout => (txindex, txPrev, txout) := by
  obtain ⟨txindex, present, shape⟩ := Option.map_eq_some_iff.mp (on.sound.valid.entry_of_mem member)
  have place : txindex.pos = pos := (Prod.mk.inj shape).1
  have found : s.txdb.fresh.readTxIndex prevout.hash = some txindex := by
    change s.txdb.fresh.txIndex prevout.hash = some txindex
    rw [on.txIndex, ← hash, present]
  refine ⟨txindex, place, ?_⟩
  rw [readPrevTx, found]
  simp only [place, on.readTx _ member]
  cases txPrev.vout[prevout.n.toNat]? <;> rfl

/-- Two nodes on the same chain find the same kernel modifier for each of its
blocks. -/
theorem OnChain.kernelModifier_agree (on : OnChain env genesis stack s)
    (onOther : OnChain env genesisOther stackOther other) (same : SameBlocks s.pindexBest other.pindexBest)
    {entry entryOther : CBlockIndex} (member : entry ∈ s.pindexBest)
    (sameEntry : entry.unplaced = entryOther.unplaced) :
    getKernelStakeModifier s entry.hash = getKernelStakeModifier other entry.hash := by
  obtain ⟨newer, below, shape⟩ := List.append_of_mem member
  have mapped := same
  rw [SameBlocks, shape, List.map_append, List.map_cons] at mapped
  obtain ⟨newerOther, rest, shapeOther, sameNewer, sameRest⟩ := List.map_eq_append_iff.mp mapped.symm
  obtain ⟨found, belowOther, rfl, sameFound, -⟩ := List.map_eq_cons_iff.mp sameRest
  have lookup := on.indexed entry below ⟨newer, shape.symm⟩
  have lookupOther := onOther.indexed found belowOther ⟨newerOther, shapeOther.symm⟩
  have hash : found.hash = entry.hash := CBlockIndex.eq_of_unplaced CBlockIndex.hash (fun _ => rfl) sameFound
  have time : found.getBlockTime = entry.getBlockTime :=
    CBlockIndex.eq_of_unplaced CBlockIndex.getBlockTime (fun _ => rfl) sameFound
  rw [hash] at lookupOther
  have above : SameBlocks newer.reverse newerOther.reverse := by
    rw [SameBlocks, List.map_reverse, List.map_reverse, sameNewer]
  have walk : kernelWalk s (entry.getBlockTime + getStakeModifierSelectionInterval) s.pindexBest.length entry
      entry.getBlockTime = pathWalk (entry.getBlockTime + getStakeModifierSelectionInterval) newer.reverse
        entry entry.getBlockTime :=
    kernelWalk_eq on.links on.indexed (by rw [List.reverse_reverse, shape]) (by simp [shape])
  have walkOther : kernelWalk other (entry.getBlockTime + getStakeModifierSelectionInterval)
      other.pindexBest.length found entry.getBlockTime =
        pathWalk (entry.getBlockTime + getStakeModifierSelectionInterval) newerOther.reverse found
          entry.getBlockTime :=
    kernelWalk_eq onOther.links onOther.indexed (by rw [List.reverse_reverse, shapeOther])
      (by simp [shapeOther])
  simp only [getKernelStakeModifier, lookup, lookupOther, time, walk, walkOther]
  exact above.pathWalk sameFound.symm _ _

/-- The verdict on a proof of stake is one about the chain that the node stands on. -/
theorem OnChain.checkProofOfStake_agree (on : OnChain env genesis stack s)
    (onOther : OnChain env genesisOther stackOther other) (same : SameBlocks s.pindexBest other.pindexBest)
    (sameStack : SameStack stack stackOther) (tx : CTransaction) (nBits : UInt32) :
    checkProofOfStake env hashes s tx nBits = checkProofOfStake env hashes other tx nBits := by
  unfold checkProofOfStake
  split
  · rfl
  split
  · rfl
  rename_i txin rest inputs
  by_cases known : txin.prevout.hash ∈ ids env (ledger stack)
  · obtain ⟨⟨txPrev, pos⟩, member, hash⟩ := List.mem_map.mp known
    obtain ⟨block, entry, entryOther, nOffset, inStack, inOther, sameEntry, rfl, found⟩ :=
      sameStack.mem_ledger member
    obtain ⟨txindex, place, reads⟩ := on.readPrevTx_found member hash
    obtain ⟨txindexOther, placeOther, readsOther⟩ := onOther.readPrevTx_found found hash
    rw [reads, readsOther]
    cases txPrev.vout[txin.prevout.n.toNat]? with
    | none => rfl
    | some txout =>
        have readBlock := on.readBlock _ inStack
        have readBlockOther := onOther.readBlock _ inOther
        have inBest : entry ∈ s.pindexBest := by
          rw [on.best]
          exact List.mem_append_left _ (List.mem_map_of_mem (f := Prod.snd) inStack)
        have modifier := on.kernelModifier_agree onOther same inBest sameEntry
        have offset : ∀ nBlockPos : UInt32, nBlockPos + nOffset - nBlockPos = nOffset := by
          intro nBlockPos
          grind
        simp only [Option.map_some, place, placeOther, CBlockIndex.txPos, readBlock, readBlockOther, offset,
          checkStakeKernelHash, on.named _ inStack, modifier]
  · have unknown : txin.prevout.hash ∉ ids env (ledger stackOther) := by
      intro present
      obtain ⟨⟨txPrev, pos⟩, member, hash⟩ := List.mem_map.mp present
      obtain ⟨block, entryOther, entry, nOffset, -, -, -, -, found⟩ := sameStack.symm.mem_ledger member
      exact known (List.mem_map.mpr ⟨_, found, hash⟩)
    rw [on.readPrevTx_missing known, onOther.readPrevTx_missing unknown]

end Verdict

/-- A node whose best chain was reached by `SetBestChain` calls on accepted blocks (their
coinbases start with the height), and which can find and read the blocks of that
chain. -/
structure ChainNode (env : Env) (policy : Policy) (U : Set CTransaction) (tree : BlockTree env) (s : Node) :
    Prop where
  admits : Admits tree (HeightRule U)
  reached : Reached policy tree (PostponedConnected env policy) s
  indexed : Indexed s.mapBlockIndex s.pindexBest
  readTx : ∀ {stack}, Represents tree stack s.pindexBest →
    ∀ entry ∈ ledger stack, s.files.readTx entry.2 = some entry.1
  readBlock : ∀ entry ∈ s.pindexBest.dropLast,
    s.files.readBlock entry.nFile entry.nBlockPos = some (tree.block entry)

section Nodes

variable {env : Env} {hashes : KernelHash} {policy policyOther : Policy} {U : Set CTransaction}
  {tree treeOther : BlockTree env} {s other : Node}

theorem ChainNode.onChain (collisionFree : Set.InjOn env.txHash U) (node : ChainNode env policy U tree s) :
    ∃ stack, Represents tree stack s.pindexBest ∧ OnChain env tree.genesis stack s := by
  have consistent : Consistent tree (HeightRule U) s :=
    node.reached.consistent node.admits fun allowed => allowed
  obtain ⟨stack, represents, runs⟩ := consistent.here.connected
  obtain ⟨sound, txIndex⟩ := runs.sound fun earlier sound indexed rule connected =>
    fresh_of_height collisionFree earlier.heighted sound indexed rule connected
  refine ⟨stack, represents, represents.1.symm, consistent.here.links, node.indexed, sound, txIndex, ?_,
    node.readTx represents, ?_⟩
  · intro linked member
    have inBest : linked.2 ∈ s.pindexBest := by
      rw [← represents.1]
      exact List.mem_append_left _ (List.mem_map_of_mem (f := Prod.snd) member)
    obtain ⟨newer, below, shape⟩ := List.append_of_mem inBest
    have inTree : tree.mem (linked.2 :: below) :=
      BlockTree.mem_of_suffix consistent.here.mem ⟨newer, shape.symm⟩ (List.cons_ne_nil _ _)
    rw [represents.2 linked member]
    exact tree.named inTree
  · intro linked member
    rw [represents.2 linked member]
    refine node.readBlock linked.2 ?_
    rw [← represents.1, List.dropLast_concat]
    exact List.mem_map_of_mem (f := Prod.snd) member

/-- The stack that represents an entry is made of the blocks above genesis. -/
theorem Represents.eq {stack : List Linked} {pindex : BlockPtr} (represents : Represents tree stack pindex) :
    stack = pindex.dropLast.map fun entry => (tree.block entry, entry) := by
  rw [← represents.1, List.dropLast_concat, List.map_map]
  refine ((List.map_id stack).symm.trans (List.map_congr_left ?_))
  intro linked member
  exact Prod.ext (represents.2 linked member) rfl

/-- Stacks that represent the same blocks are the same up to their places. -/
theorem SameStack.of_represents {stack stackOther : List Linked} {pindex pindexOther : BlockPtr}
    (represents : Represents tree stack pindex) (representsOther : Represents treeOther stackOther pindexOther)
    (same : SameBlocks pindex pindexOther)
    (contents : ∀ entry ∈ pindex, ∀ entryOther ∈ pindexOther, entry.hash = entryOther.hash →
      tree.block entry = treeOther.block entryOther) : SameStack stack stackOther := by
  obtain ⟨shape, blocks⟩ := represents
  obtain ⟨shapeOther, blocksOther⟩ := representsOther
  induction stack generalizing pindex pindexOther stackOther with
  | nil =>
      have lengths := congrArg List.length same
      cases stackOther with
      | nil => exact .nil
      | cons linked rest => simp [← shape, ← shapeOther] at lengths
  | cons linked earlier ih =>
      cases stackOther with
      | nil =>
          have lengths := congrArg List.length same
          simp [← shape, ← shapeOther] at lengths
      | cons linkedOther earlierOther =>
          rw [List.map_cons, List.cons_append] at shape shapeOther
          subst shape shapeOther
          obtain ⟨sameEntry, sameRest⟩ := SameBlocks.cons_iff.mp same
          refine .cons ⟨?_, sameEntry⟩ (ih sameRest ?_ rfl ?_ rfl ?_)
          · rw [blocks _ List.mem_cons_self, blocksOther _ List.mem_cons_self]
            exact contents _ List.mem_cons_self _ List.mem_cons_self
              (CBlockIndex.eq_of_unplaced CBlockIndex.hash (fun _ => rfl) sameEntry)
          · exact fun entry member entryOther memberOther =>
              contents entry (List.mem_cons_of_mem _ member) entryOther (List.mem_cons_of_mem _ memberOther)
          · exact fun linked member => blocks linked (List.mem_cons_of_mem _ member)
          · exact fun linked member => blocksOther linked (List.mem_cons_of_mem _ member)

/-- The verdict on a proof of stake and its hash depend on the coinstake and on the
blocks of the active chain only: two nodes on the same best chain agree, whatever
they did to get there, wherever they store the blocks and whatever else they know. -/
theorem stake_verdict_of_active_chain (collisionFree : Set.InjOn env.txHash U)
    (node : ChainNode env policy U tree s) (nodeOther : ChainNode env policyOther U treeOther other)
    (shared : SameBlocks s.pindexBest other.pindexBest)
    (contents : ∀ entry ∈ s.pindexBest, ∀ entryOther ∈ other.pindexBest, entry.hash = entryOther.hash →
      tree.block entry = treeOther.block entryOther) (tx : CTransaction) (nBits : UInt32) :
    checkProofOfStake env hashes s tx nBits = checkProofOfStake env hashes other tx nBits := by
  obtain ⟨stack, represents, on⟩ := node.onChain collisionFree
  obtain ⟨stackOther, representsOther, onOther⟩ := nodeOther.onChain collisionFree
  exact on.checkProofOfStake_agree onOther shared
    (.of_represents represents representsOther shared contents) tx nBits

end Nodes

section Concrete

/-- A block of the test network whose coinbase starts with its height. -/
def stakeBlock (label : UInt32) (hashPrevBlock : UInt256) (nHeight : UInt8) (nTime : UInt32) : CBlock :=
  .labelled label hashPrevBlock nTime 0x1f00ffff
    [.labelledCoinBase (100 + label) nTime [0x50 + nHeight, 0] [⟨1000 * coin, [0x51]⟩]]

/-- A branch of two blocks (1, 2) and one of a single block (3). -/
def stakeBlocks : List CBlock :=
  [stakeBlock 1 (genesisHash true) 1 1000, stakeBlock 2 1 2 41000, stakeBlock 3 (genesisHash true) 1 1000]

def stakeBlockOf (entry : CBlockIndex) : CBlock :=
  (stakeBlocks.find? fun block => block.nNonce = entry.nNonce).getD smallGenesis

def stakeRoot : CBlockIndex := { forkEntry 0 0 with hash := genesisHash true }

/-- The second block is late enough to give a modifier for stakes in the first. -/
def stakeTip : BlockPtr :=
  [{ forkEntry 2 2 with nTime := 41000, fGeneratedStakeModifier := true, nStakeModifier := 7 },
    forkEntry 1 1, stakeRoot]

def stakeFork : BlockPtr := [forkEntry 3 1, stakeRoot]

def stakeTree : BlockTree (Env.labelled true) :=
  .ofList stakeRoot stakeBlockOf [[stakeRoot], stakeTip.tail, stakeTip, stakeFork] (by decide +kernel)

/-- The index of a node that has accepted all blocks of the tree. -/
def stakeIndex (hash : UInt256) : Option BlockPtr :=
  [[stakeRoot], stakeTip.tail, stakeTip, stakeFork].find? fun pindex =>
    pindex.head?.map CBlockIndex.hash = some hash

def stakeInitial : Node :=
  { Node.initial ⟨fun pos => (stakeBlocks.find? fun block => 1000 * block.nNonce = pos.nBlockPos).bind
        fun block => block.vtx.head?,
      fun _ nBlockPos => stakeBlocks.find? fun block => 1000 * block.nNonce = nBlockPos⟩
      (fun _ => true) 60000 with mapBlockIndex := stakeIndex }

/-- The nodes after `SetBestChain` calls on some entries. -/
def stakeNode : List BlockPtr → Node
  | [] => afterLoop (smallSwitch stakeInitial smallGenesis [stakeRoot])
  | pindex :: earlier =>
      match pindex with
      | [] => stakeNode earlier
      | entry :: _ => afterLoop (smallSwitch (stakeNode earlier) (stakeBlockOf entry) pindex)

/-- A coinstake on the coinbase of the first block. -/
def stakeTx : CTransaction where
  nVersion := 1
  nTime := 50000
  vin := [⟨⟨101, 0⟩, [], 0xffffffff⟩]
  vout := [⟨0, []⟩, ⟨1000 * coin, [0x51]⟩]
  nLockTime := 200

def stakeHashes : KernelHash :=
  ⟨fun hashProof _ => hashProof, fun _ _ _ _ _ _ => 1, fun _ _ _ _ => 0⟩

/-- One more call that succeeds with nothing postponed. -/
theorem stakeNode_reached {pindexes : List BlockPtr} {entry : CBlockIndex} {pprev : BlockPtr}
    (earlier : Reached .lax stakeTree (PostponedConnected (Env.labelled true) .lax) (stakeNode pindexes))
    (call : entry :: pprev ∈ [[stakeRoot], stakeTip.tail, stakeTip, stakeFork] ∧
      (∀ pindex ∈ [[stakeRoot], stakeTip.tail, stakeTip, stakeFork],
        ∀ block ∈ readBlock (Env.labelled true) (stakeNode pindexes) pindex, ∀ entry ∈ pindex.head?,
          block = stakeBlockOf entry) ∧
      (postpone (bestTrust (stakeNode pindexes)) (entry :: pprev)).1 = [] ∧
      observe (fun _ => ()) (smallSwitch (stakeNode pindexes) (stakeBlockOf entry) (entry :: pprev)) = (true, ())) :
    Reached .lax stakeTree (PostponedConnected (Env.labelled true) .lax)
      (stakeNode ((entry :: pprev) :: pindexes)) := by
  obtain ⟨member, stored, nothing, switched⟩ := call
  exact .call earlier member (fun member found => stored _ member _ found _ rfl) (.of_nil nothing)
    (ok_of_observe switched)

/-- The fork alone, the first branch connected block by block, and the first branch after the fork. -/
theorem stakeNodes_reached :
    Reached .lax stakeTree (PostponedConnected (Env.labelled true) .lax) (stakeNode [stakeFork]) ∧
      Reached .lax stakeTree (PostponedConnected (Env.labelled true) .lax) (stakeNode [stakeTip, stakeTip.tail]) ∧
      Reached .lax stakeTree (PostponedConnected (Env.labelled true) .lax) (stakeNode [stakeTip, stakeFork]) := by
  have started : observe (fun _ => ()) (smallSwitch stakeInitial smallGenesis [stakeRoot]) = (true, ()) := by
    decide +kernel
  have start : Reached .lax stakeTree (PostponedConnected (Env.labelled true) .lax) (stakeNode []) := by
    refine .start ⟨rfl, rfl, ?_⟩ (ok_of_observe started)
    funext id
    rw [CTxDB.txIndex_eq]
    rfl
  have fork : Reached .lax stakeTree (PostponedConnected (Env.labelled true) .lax) (stakeNode [stakeFork]) :=
    stakeNode_reached start (by decide +kernel)
  have lower : Reached .lax stakeTree (PostponedConnected (Env.labelled true) .lax) (stakeNode [stakeTip.tail]) :=
    stakeNode_reached start (by decide +kernel)
  exact ⟨fork, stakeNode_reached lower (by decide +kernel), stakeNode_reached fork (by decide +kernel)⟩

theorem stakeIndex_indexed : Indexed stakeIndex stakeTip := by
  have found : ∀ pindex ∈ stakeTip.tails, ∀ entry ∈ pindex.head?, stakeIndex entry.hash = some pindex := by
    decide +kernel
  intro entry pprev suffix
  exact found _ ((List.mem_tails _ _).mpr suffix) _ rfl

/-- Both nodes know the blocks 1 and 2; the one whose active chain they are accepts the
stake of a block on top of 2, and the one on the other branch does not even find the
staked transaction. -/
theorem stake_verdicts_differ :
    ∃ s other, Reached .lax stakeTree (PostponedConnected (Env.labelled true) .lax) s ∧
      Reached .lax stakeTree (PostponedConnected (Env.labelled true) .lax) other ∧
      Indexed s.mapBlockIndex stakeTip ∧ Indexed other.mapBlockIndex stakeTip ∧
      (checkProofOfStake (Env.labelled true) stakeHashes s stakeTx 0x1f00ffff).isSome = true ∧
      checkProofOfStake (Env.labelled true) stakeHashes other stakeTx 0x1f00ffff = none := by
  obtain ⟨fork, branch, -⟩ := stakeNodes_reached
  refine ⟨stakeNode [stakeTip, stakeTip.tail], stakeNode [stakeFork], branch, fork, ?_, ?_, by decide +kernel,
    by decide +kernel⟩
  · exact stakeIndex_indexed
  · exact stakeIndex_indexed

/-- A node that switches over from the other branch gives the verdict of the one that
connected the branch block by block. -/
theorem stake_verdict_after_switch :
    checkProofOfStake (Env.labelled true) stakeHashes (stakeNode [stakeTip, stakeTip.tail]) stakeTx 0x1f00ffff =
      checkProofOfStake (Env.labelled true) stakeHashes (stakeNode [stakeTip, stakeFork]) stakeTx
        0x1f00ffff := by
  have distinct : ∀ first ∈ stakeBlocks.flatMap CBlock.vtx, ∀ second ∈ stakeBlocks.flatMap CBlock.vtx,
      (Env.labelled true).txHash first = (Env.labelled true).txHash second → first = second := by
    decide +kernel
  have heights : ∀ pindex ∈ [[stakeRoot], stakeTip.tail, stakeTip, stakeFork],
      ∀ entry ∈ pindex.head?, ∀ _ ∈ pindex.tail.head?,
        (∀ tx ∈ (stakeBlockOf entry).vtx, tx ∈ stakeBlocks.flatMap CBlock.vtx) ∧
          (Int32.ofNat pindex.tail.length).toInt = pindex.tail.length ∧
          (stakeBlockOf entry).checkCoinbaseHeight (Int32.ofNat pindex.tail.length) = true := by
    decide +kernel
  have admits : Admits stakeTree (HeightRule {tx | tx ∈ stakeBlocks.flatMap CBlock.vtx}) := by
    intro entry prev grand stack index member represents
    obtain ⟨known, height, starts⟩ := heights _ member _ rfl _ rfl
    refine ⟨known, _, height.trans ?_, starts⟩
    have length := congrArg List.length represents.1
    simp at length ⊢
    omega
  have nodes : ∀ s, Reached .lax stakeTree (PostponedConnected (Env.labelled true) .lax) s →
      s.pindexBest = stakeTip → s.mapBlockIndex = stakeIndex → s.files = stakeInitial.files →
      ChainNode (Env.labelled true) .lax {tx | tx ∈ stakeBlocks.flatMap CBlock.vtx} stakeTree s := by
    intro s reached best index files
    have readTx : ∀ entry ∈ ledger (stakeTip.dropLast.map fun entry => (stakeTree.block entry, entry)),
        stakeInitial.files.readTx entry.2 = some entry.1 := by
      decide +kernel
    have readBlock : ∀ entry ∈ stakeTip.dropLast,
        stakeInitial.files.readBlock entry.nFile entry.nBlockPos = some (stakeTree.block entry) := by
      decide +kernel
    refine ⟨admits, reached, ?_, ?_, ?_⟩
    · rw [best, index]
      exact stakeIndex_indexed
    · intro stack represents
      rw [represents.eq, best, files]
      exact readTx
    · rw [best, files]
      exact readBlock
  obtain ⟨-, branch, switched⟩ := stakeNodes_reached
  have best : (stakeNode [stakeTip, stakeTip.tail]).pindexBest = stakeTip := by decide +kernel
  have bestSwitched : (stakeNode [stakeTip, stakeFork]).pindexBest = stakeTip := by decide +kernel
  refine stake_verdict_of_active_chain (fun first inFirst second inSecond => distinct first inFirst second inSecond)
    (nodes _ branch best rfl rfl) (nodes _ switched bestSwitched rfl rfl) ?_ ?_ _ _
  · rw [best, bestSwitched]
    rfl
  · rw [best, bestSwitched]
    decide +kernel

end Concrete

end InfiniteRicks
