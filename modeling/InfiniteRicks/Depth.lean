import InfiniteRicks.Locator
import InfiniteRicks.WalletCoins

/-!
# How deep a transaction is

`CMerkleTx::GetDepthInMainChain` (`main.cpp`) for a transaction of the wallet, and
`listsinceblock` (`rpcwallet.cpp`), which compares that depth with the depth of a block
found by a locator. The flag `fMerkleVerified` is `mutable` in the source, so it stands beside
the transaction here.
-/

namespace InfiniteRicks

/-- `nHeight` of an entry that there is. -/
def heightOf (pindex : BlockPtr) : Int := (pindex.head?.map CBlockIndex.nHeight).getD 0

/-- What `GetDepthInMainChainINTERNAL` returns, the entry it sets `pindexRet` to, and its flag afterwards. -/
structure DepthResult where
  nDepth : Int
  pindexRet : Option BlockPtr
  fMerkleVerified : Bool

namespace CWalletTx

/-- `GetDepthInMainChainINTERNAL`. -/
def getDepthInMainChainINTERNAL (env : Env) (s : Node) (wtx : CWalletTx) (fMerkleVerified : Bool) : DepthResult :=
  if wtx.hashBlock = 0 ∨ wtx.nIndex = -1 then ⟨0, none, fMerkleVerified⟩
  else
    match s.mapBlockIndex wtx.hashBlock with
    | none => ⟨0, none, fMerkleVerified⟩
    | some pindex =>
        if isInMainChain s pindex = false then ⟨0, none, fMerkleVerified⟩
        else if fMerkleVerified = false ∧
            pindex.head?.map CBlockIndex.hashMerkleRoot ≠
              some (CBlock.checkMerkleBranch env (env.txHash wtx.tx) wtx.vMerkleBranch wtx.nIndex.toInt) then
          ⟨0, none, fMerkleVerified⟩
        else ⟨heightOf s.pindexBest - heightOf pindex + 1, some pindex, true⟩

/-- `GetDepthInMainChain`, with the flag that it leaves. -/
def getDepthInMainChain (env : Env) (s : Node) (wtx : CWalletTx) (fMerkleVerified : Bool) : Int × Bool :=
  let result := wtx.getDepthInMainChainINTERNAL env s fMerkleVerified
  (if result.nDepth = 0 ∧ s.mempool.contains (env.txHash wtx.tx) = false then -1 else result.nDepth,
    result.fMerkleVerified)

variable {env : Env} {s : Node} {wtx : CWalletTx} {flag : Bool} {pindex : BlockPtr}

/-- Where the depth is that of a block, the block is the one that the transaction names. -/
theorem pindexRet_spec (found : (wtx.getDepthInMainChainINTERNAL env s flag).pindexRet = some pindex) :
    s.mapBlockIndex wtx.hashBlock = some pindex ∧ isInMainChain s pindex = true ∧
      (wtx.getDepthInMainChainINTERNAL env s flag).nDepth = heightOf s.pindexBest - heightOf pindex + 1 := by
  rw [getDepthInMainChainINTERNAL] at found ⊢
  split at found
  · cases found
  rename_i placed
  rw [if_neg placed]
  cases known : s.mapBlockIndex wtx.hashBlock with
  | none =>
      rw [known] at found
      cases found
  | some entry =>
      rw [known] at found
      dsimp only at found ⊢
      split at found
      · cases found
      rename_i active
      split at found
      · cases found
      rename_i proven
      obtain rfl : entry = pindex := Option.some.inj found
      rw [if_neg active, if_neg proven]
      exact ⟨rfl, Bool.of_not_eq_false active, rfl⟩

end CWalletTx

/-! ## Chains of different lengths -/

theorem Rooted.heightOf_eq {genesis : CBlockIndex} {pindex : BlockPtr} (rooted : Rooted genesis pindex) :
    heightOf pindex + 1 = pindex.length := by
  obtain ⟨entry, pprev, rfl⟩ := List.exists_cons_of_ne_nil rooted.real
  rw [List.length_cons, Nat.cast_add, Nat.cast_one, ← rooted.height]
  rfl

/-- The branch of a tip leaves the active chain somewhere. -/
theorem exists_leavesAt (tip best : BlockPtr) : ∃ fork, LeavesAt tip best fork := by
  induction tip with
  | nil =>
      refine ⟨[], List.suffix_rfl, List.nil_suffix, fun common ofTip _ => ?_⟩
      rw [List.suffix_nil.mp ofTip]
  | cons entry pprev ih =>
      by_cases active : entry :: pprev <:+ best
      · exact ⟨entry :: pprev, List.suffix_rfl, active, fun common ofTip _ => ofTip.length_le⟩
      · obtain ⟨fork, leaves⟩ := ih
        refine ⟨fork, leaves.ofTip.trans (List.suffix_cons _ _), leaves.ofBest, fun common ofTip ofBest => ?_⟩
        rcases List.suffix_cons_iff.mp ofTip with rfl | below
        · exact absurd ofBest active
        · exact leaves.highest common below ofBest

/-- Of two ancestors of a block the one that is not higher is an ancestor of the other. -/
theorem Rooted.suffix_of_height {genesis : CBlockIndex} {lower upper best : BlockPtr} (rooted : Rooted genesis best)
    (ofLower : lower <:+ best) (ofUpper : upper <:+ best) (realLower : lower ≠ []) (realUpper : upper ≠ [])
    (height : heightOf lower ≤ heightOf upper) : lower <:+ upper := by
  have below := (rooted.of_suffix ofLower realLower).heightOf_eq
  have above := (rooted.of_suffix ofUpper realUpper).heightOf_eq
  exact List.suffix_of_suffix_length_le ofLower ofUpper (by omega)

theorem lowerTo_le {nHeight : Int} {pindex pprev : BlockPtr} {entry : CBlockIndex}
    (lowered : lowerTo nHeight pindex = some (entry :: pprev)) : entry.nHeight ≤ nHeight := by
  induction pindex with
  | nil => cases lowered
  | cons top rest ih =>
      rw [lowerTo] at lowered
      split at lowered
      · exact ih lowered
      · rename_i low
        obtain ⟨rfl, rfl⟩ := List.cons.inj (Option.some.inj lowered)
        exact Int.not_lt.mp low

/-! ## `listsinceblock` -/

/-- A transaction of `mapWallet` with its flag. -/
structure WalletEntry where
  wtx : CWalletTx
  fMerkleVerified : Bool

/-- What `listsinceblock` answers: the transactions given to `ListTransactions`, and `lastblock`. -/
structure SinceBlock where
  transactions : List WalletEntry
  lastblock : UInt256

namespace SinceBlock

variable (env : Env) (s : Node)

/-- The depth of the block of the first parameter. -/
def depthSince (blockId : UInt256) : Int :=
  match (CBlockLocator.ofHash env s blockId).getBlockIndex s with
  | [] => -1
  | pindex :: _ => 1 + s.nBestHeight - pindex.nHeight

/-- The block that has `target_confirms` confirmations now. -/
def lastBlock (target_confirms : Int) : UInt256 :=
  if target_confirms = 1 then s.hashBestChain
  else ((lowerTo (heightOf s.pindexBest + 1 - target_confirms) s.pindexBest).map blockHash).getD 0

/-- `listsinceblock`. The first parameter may be missing, and then the second one is. -/
def listsinceblock (mapWallet : List WalletEntry) (params : Option (UInt256 × Option Int)) : Option SinceBlock :=
  let depth := (params.map fun params => depthSince env s params.1).getD (-1)
  let target_confirms := (params.bind Prod.snd).getD 1
  if target_confirms < 1 then none
  else
    some
      { transactions := mapWallet.filter fun entry =>
          decide (depth = -1 ∨ (entry.wtx.getDepthInMainChain env s entry.fMerkleVerified).1 < depth)
        lastblock := lastBlock s target_confirms }

/-- The second parameter. -/
def confirmations (params : Option (UInt256 × Option Int)) : Int := (params.bind Prod.snd).getD 1

/-- The main-chain block in which the transaction is confirmed. -/
def confirmedIn (entry : WalletEntry) : Option BlockPtr :=
  (entry.wtx.getDepthInMainChainINTERNAL env s entry.fMerkleVerified).pindexRet

variable {env} {s} {genesis : CBlockIndex}

theorem listsinceblock_spec {mapWallet : List WalletEntry} {params : Option (UInt256 × Option Int)} {answer : SinceBlock}
    (answered : listsinceblock env s mapWallet params = some answer) :
    1 ≤ confirmations params ∧ answer.lastblock = lastBlock s (confirmations params) ∧
      ∀ entry ∈ mapWallet, (∀ blockId target, params = some (blockId, target) →
        (entry.wtx.getDepthInMainChain env s entry.fMerkleVerified).1 < depthSince env s blockId) →
          entry ∈ answer.transactions := by
  simp only [listsinceblock] at answered
  split at answered
  · cases answered
  · rename_i positive
    obtain rfl := Option.some.inj answered
    refine ⟨Int.not_lt.mp positive, rfl, fun entry member recent => List.mem_filter.mpr ⟨member, decide_eq_true ?_⟩⟩
    cases params with
    | none => exact .inl rfl
    | some params => exact .inr (recent params.1 params.2 rfl)

/-- `lastblock` is the hash of a block of the active chain with that many confirmations, or zero where the chain is
not that long. -/
theorem lastBlock_spec (chain : ActiveChain env genesis s) {target : Int} (positive : 1 ≤ target) :
    lastBlock s target = 0 ∨ ∃ last, s.mapBlockIndex (lastBlock s target) = some last ∧ last <:+ s.pindexBest ∧
      target ≤ heightOf s.pindexBest - heightOf last + 1 := by
  rw [lastBlock]
  split
  · rename_i one
    exact .inr ⟨s.pindexBest, chain.best, List.suffix_rfl, by omega⟩
  · cases lowered : lowerTo (heightOf s.pindexBest + 1 - target) s.pindexBest with
    | none => exact .inl rfl
    | some last =>
        obtain ⟨suffix, real⟩ := lowerTo_suffix lowered
        obtain ⟨entry, pprev, rfl⟩ := List.exists_cons_of_ne_nil real
        have height := lowerTo_le lowered
        refine .inr ⟨entry :: pprev, chain.grounded.indexed chain.best entry pprev suffix, suffix, ?_⟩
        rw [show heightOf (entry :: pprev) = entry.nHeight from rfl]
        omega

/-- The block that a call finds for an indexed one is an ancestor of both that block and the best one. -/
theorem getBlockIndex_ofHash (chain : ActiveChain env genesis s) {hash : UInt256} {tip : BlockPtr}
    (found : s.mapBlockIndex hash = some tip) :
    (CBlockLocator.ofHash env s hash).getBlockIndex s <:+ tip ∧
      (CBlockLocator.ofHash env s hash).getBlockIndex s <:+ s.pindexBest ∧
      (CBlockLocator.ofHash env s hash).getBlockIndex s ≠ [] := by
  obtain ⟨fork, leaves⟩ := exists_leavesAt tip s.pindexBest
  obtain ⟨common, -⟩ := CBlockLocator.getBlockIndex_set chain found leaves
  rw [CBlockLocator.ofHash, found]
  exact ⟨common.ofTip, common.ofBest, common.real⟩

theorem getBlockIndex_unknown (chain : ActiveChain env genesis s) {hash : UInt256}
    (unknown : s.mapBlockIndex hash = none) : (CBlockLocator.ofHash env s hash).getBlockIndex s = [genesis] := by
  rw [CBlockLocator.ofHash, unknown, CBlockLocator.getBlockIndex, List.findSome?_nil, chain.started]
  rfl

theorem depthSince_eq {blockId : UInt256} (real : (CBlockLocator.ofHash env s blockId).getBlockIndex s ≠ []) :
    depthSince env s blockId = 1 + s.nBestHeight - heightOf ((CBlockLocator.ofHash env s blockId).getBlockIndex s) := by
  rw [depthSince]
  cases shape : (CBlockLocator.ofHash env s blockId).getBlockIndex s with
  | nil => exact absurd shape real
  | cons pindex pprev => rfl

section Polling

variable {s₁ s₂ : Node} {mapWallet₁ mapWallet₂ : List WalletEntry} {params : Option (UInt256 × Option Int)}
  {answer₁ answer₂ : SinceBlock} {target : Option Int} {entry : WalletEntry} {block : BlockPtr}

/-- A second call with the `lastblock` of the first one gets every transaction that is confirmed in a block after
genesis, unless that was already a block of the active chain, with the confirmations that the first call asked for. -/
theorem listsinceblock_misses_nothing (chain₁ : ActiveChain env genesis s₁) (chain₂ : ActiveChain env genesis s₂)
    (bestHeight : s₂.nBestHeight = heightOf s₂.pindexBest) (nullHash : s₂.mapBlockIndex 0 = none)
    (grown : ∀ hash pindex, s₁.mapBlockIndex hash = some pindex → s₂.mapBlockIndex hash = some pindex)
    (first : listsinceblock env s₁ mapWallet₁ params = some answer₁)
    (second : listsinceblock env s₂ mapWallet₂ (some (answer₁.lastblock, target)) = some answer₂)
    (member : entry ∈ mapWallet₂) (confirmed : confirmedIn env s₂ entry = some block) (later : block ≠ [genesis])
    (fresh : ¬(isInMainChain s₁ block = true ∧
      confirmations params ≤ heightOf s₁.pindexBest - heightOf block + 1)) :
    entry ∈ answer₂.transactions := by
  obtain ⟨positive, last, -⟩ := listsinceblock_spec first
  obtain ⟨-, -, passed⟩ := listsinceblock_spec second
  obtain ⟨named, active, depth⟩ := CWalletTx.pindexRet_spec confirmed
  have suffix := (chain₂.isInMainChain_iff named).mp active
  have real := (chain₂.rooted named).real
  refine passed entry member fun blockId target same => ?_
  obtain ⟨rfl, -⟩ := Prod.mk.inj (Option.some.inj same)
  have rooted₂ := chain₂.rooted chain₂.best
  have inside := (rooted₂.of_suffix suffix real).heightOf_eq
  have tall := rooted₂.heightOf_eq
  have shorter := suffix.length_le
  rw [CWalletTx.getDepthInMainChain]
  dsimp only
  rw [if_neg (by omega), depth]
  -- Otherwise the block is an ancestor of the one that the locator finds.
  by_contra low
  rcases lastBlock_spec chain₁ positive with zero | ⟨tip, found, ofBest, deep⟩
  · rw [← last] at zero
    have lowest := getBlockIndex_unknown chain₂ (zero ▸ nullHash : s₂.mapBlockIndex answer₁.lastblock = none)
    have bottom := rooted₂.of_suffix rooted₂.genesis_suffix (List.cons_ne_nil _ _)
    rw [depthSince_eq (lowest ▸ List.cons_ne_nil _ _), lowest] at low
    have under := rooted₂.suffix_of_height suffix rooted₂.genesis_suffix real (List.cons_ne_nil _ _) (by omega)
    rcases List.suffix_cons_iff.mp under with same | below
    · exact later same
    · exact real (List.suffix_nil.mp below)
  · rw [← last] at found
    obtain ⟨ofTip, ofBest₂, realCommon⟩ := getBlockIndex_ofHash chain₂ (grown _ _ found)
    rw [depthSince_eq realCommon] at low
    have under := rooted₂.suffix_of_height suffix ofBest₂ real realCommon (by omega)
    have old : block <:+ s₁.pindexBest := (under.trans ofTip).trans ofBest
    have rooted₁ := chain₁.rooted chain₁.best
    have oldHeight := (rooted₁.of_suffix old real).heightOf_eq
    have tipHeight := (rooted₁.of_suffix ofBest (chain₁.rooted found).real).heightOf_eq
    have length := (under.trans ofTip).length_le
    obtain ⟨top, pprev, rfl⟩ := List.exists_cons_of_ne_nil real
    have indexed := chain₁.grounded.indexed chain₁.best top pprev old
    exact fresh ⟨(chain₁.isInMainChain_iff indexed).mpr old, by omega⟩

end Polling

section Concrete

/-- The node of `forkedNode` after it has switched to the other branch. -/
def switchedNode : Node :=
  { CBlockLocator.forkedNode with
    pnext := pathLinks heavyTip
    pindexBest := heavyTip
    hashBestChain := 3
    nBestHeight := 2 }

theorem switchedNode_activeChain : ActiveChain (Env.labelled true) forkTree.genesis switchedNode :=
  let chain := CBlockLocator.forkedNode_activeChain
  ⟨chain.genesisHash, chain.bottom, chain.started, chain.keyed, chain.root, chain.parent, by decide +kernel, rfl⟩

/-- A transaction in the block below the new tip. -/
def minedEntry : WalletEntry := ⟨{ CWalletTx.ofTx (.labelledSpend 1 0 ⟨9, 0⟩ coin) with hashBlock := 2, nIndex := 0 }, true⟩

/-- The first call is made on one branch and the second one on the other. -/
theorem listsinceblock_misses_nothing_switched :
    ∃ answer, listsinceblock (Env.labelled true) switchedNode [minedEntry] (some (1, none)) = some answer ∧
      minedEntry ∈ answer.transactions := by
  have first : listsinceblock (Env.labelled true) CBlockLocator.forkedNode [] none = some ⟨[], 1⟩ := rfl
  have confirmed : confirmedIn (Env.labelled true) switchedNode minedEntry = some heavyTip.tail := by decide +kernel
  obtain ⟨answer, second⟩ := Option.isSome_iff_exists.mp
    (show (listsinceblock (Env.labelled true) switchedNode [minedEntry] (some (1, none))).isSome = true from rfl)
  exact ⟨answer, second, listsinceblock_misses_nothing CBlockLocator.forkedNode_activeChain switchedNode_activeChain
    rfl (by decide +kernel) (fun hash pindex found => found) first second List.mem_cons_self confirmed
    (by decide +kernel) (by decide +kernel)⟩

end Concrete

end SinceBlock

end InfiniteRicks
