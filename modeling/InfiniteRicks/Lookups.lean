import InfiniteRicks.Consistency
import InfiniteRicks.Locator
import InfiniteRicks.WalletDump

/-!
# Lookups by height

`FindBlockByHeight` walks from genesis, from the best block or from what it found last, down along `pprev` and up
along `pnext`. On an active chain whose links are complete it finds the ancestor of the best block at the height.
Along the runs of `SetBestChain` calls the links are complete unless the loop over postponed blocks is left early.
-/

namespace InfiniteRicks

/-- A chain down from the best block whose links lead up again, and a last lookup that is on it. -/
structure Searchable (genesis : CBlockIndex) (s : Node) : Prop where
  started : s.pindexGenesisBlock = [genesis]
  rooted : Rooted genesis s.pindexBest
  indexed : Indexed s.mapBlockIndex s.pindexBest
  links : s.pnext = pathLinks s.pindexBest
  height : s.pindexBest.head?.map CBlockIndex.nHeight = some s.nBestHeight
  cached : s.pblockindexFBBHLast <:+ s.pindexBest

/-- A proper ancestor has a child on the way to the tip. -/
theorem exists_child {pindex tip : BlockPtr} (suffix : pindex <:+ tip) (proper : pindex ≠ tip) :
    ∃ next, next :: pindex <:+ tip := by
  obtain ⟨newer, rfl⟩ := suffix
  rcases List.eq_nil_or_concat newer with rfl | ⟨newer, next, rfl⟩
  · exact absurd rfl proper
  · exact ⟨next, newer, by simp⟩

section Search

variable {genesis : CBlockIndex} {s : Node} {nHeight : Int}

theorem Searchable.best_height (searchable : Searchable genesis s) : (s.pindexBest.length : Int) = s.nBestHeight + 1 := by
  have height := searchable.height
  have rooted := searchable.rooted
  cases best : s.pindexBest with
  | nil => exact absurd best rooted.real
  | cons entry pprev =>
      rw [best] at height rooted
      have here : entry.nHeight = s.nBestHeight := Option.some.inj height
      rw [← here, rooted.height]
      simp

/-- A link from a block of the active chain leads to its child there. -/
theorem Searchable.pnext_child (searchable : Searchable genesis s) {entry : CBlockIndex} {pprev : BlockPtr}
    (suffix : entry :: pprev <:+ s.pindexBest) (proper : entry :: pprev ≠ s.pindexBest) :
    ∃ next, next :: entry :: pprev <:+ s.pindexBest ∧
      (s.pnext entry.hash).bind s.mapBlockIndex = some (next :: entry :: pprev) := by
  obtain ⟨next, above⟩ := exists_child suffix proper
  have link : s.pnext entry.hash = some next.hash := by
    obtain ⟨newer, shape⟩ := above
    rw [searchable.links, ← shape]
    exact pathLinks_above (shape ▸ searchable.indexed.nodup)
  exact ⟨next, above, by rw [link, Option.bind_some, searchable.indexed next _ above]⟩

/-- The best block has no link. -/
theorem Searchable.pnext_best (searchable : Searchable genesis s) {entry : CBlockIndex} {pprev : BlockPtr}
    (best : entry :: pprev = s.pindexBest) : s.pnext entry.hash = none := by
  have distinct := searchable.indexed.nodup
  rw [searchable.links, ← best]
  rw [← best] at distinct
  exact pathLinks_eq_none (List.nodup_cons.mp distinct).1

/-- The loop up the active chain. -/
theorem Searchable.raiseTo_found (searchable : Searchable genesis s) (high : nHeight ≤ s.nBestHeight) {fuel : Nat}
    {entry : CBlockIndex} {pprev : BlockPtr} (suffix : entry :: pprev <:+ s.pindexBest) (low : entry.nHeight ≤ nHeight)
    (enough : nHeight ≤ entry.nHeight + fuel) :
    ∃ found below, raiseTo s nHeight fuel (entry :: pprev) = some (found :: below) ∧
      found :: below <:+ s.pindexBest ∧ found.nHeight = nHeight := by
  induction fuel generalizing entry pprev with
  | zero =>
      refine ⟨entry, pprev, ?_, suffix, by omega⟩
      rw [raiseTo, if_neg (by omega)]
  | succ fuel ih =>
      rw [raiseTo]
      split
      · rename_i lower
        have height := (searchable.rooted.of_suffix suffix (List.cons_ne_nil _ _)).height
        have top := searchable.best_height
        obtain ⟨next, above, link⟩ := searchable.pnext_child suffix fun same => by
          rw [← same, List.length_cons] at top
          omega
        have nextHeight := (searchable.rooted.of_suffix above (List.cons_ne_nil _ _)).height
        rw [List.length_cons] at nextHeight
        rw [link, Option.bind_some]
        exact ih above (by omega) (by omega)
      · exact ⟨entry, pprev, rfl, suffix, by omega⟩

/-- It does not leave the active chain. -/
theorem Searchable.raiseTo_suffix (searchable : Searchable genesis s) {fuel : Nat} {pindex found : BlockPtr}
    (suffix : pindex <:+ s.pindexBest) (raised : raiseTo s nHeight fuel pindex = some found) :
    found <:+ s.pindexBest := by
  induction fuel generalizing pindex with
  | zero =>
      cases pindex with
      | nil => cases raised
      | cons entry pprev =>
          rw [raiseTo] at raised
          split at raised
          · cases raised
          · exact Option.some.inj raised ▸ suffix
  | succ fuel ih =>
      cases pindex with
      | nil => cases raised
      | cons entry pprev =>
          rw [raiseTo] at raised
          split at raised
          · by_cases best : entry :: pprev = s.pindexBest
            · rw [searchable.pnext_best best] at raised
              cases raised
            · obtain ⟨next, above, link⟩ := searchable.pnext_child suffix best
              rw [link, Option.bind_some] at raised
              exact ih above raised
          · exact Option.some.inj raised ▸ suffix

theorem Searchable.search (searchable : Searchable genesis s) (low : 0 ≤ nHeight) (high : nHeight ≤ s.nBestHeight)
    {pindex : BlockPtr} (suffix : pindex <:+ s.pindexBest) (real : pindex ≠ []) :
    ∃ found below, ((lowerTo nHeight pindex).bind fun pblockindex =>
        raiseTo s nHeight (nHeight - ((pblockindex.head?.map CBlockIndex.nHeight).getD 0)).toNat pblockindex) =
          some (found :: below) ∧ found :: below <:+ s.pindexBest ∧ found.nHeight = nHeight := by
  obtain ⟨entry, pprev, lowered, -, height⟩ := (searchable.rooted.of_suffix suffix real).lowerTo low
  have below := (lowerTo_suffix lowered).1.trans suffix
  rw [lowered, Option.bind_some]
  refine searchable.raiseTo_found high below height ?_
  simp only [List.head?_cons, Option.map_some, Option.getD_some]
  omega

/-- A lookup starts on the active chain. -/
theorem Searchable.findBlockByHeight_start (searchable : Searchable genesis s) (nHeight : Int) :
    ∃ pindex, pindex <:+ s.pindexBest ∧ pindex ≠ [] ∧
      findBlockByHeight s nHeight = (lowerTo nHeight pindex).bind fun pblockindex =>
        raiseTo s nHeight (nHeight - ((pblockindex.head?.map CBlockIndex.nHeight).getD 0)).toNat pblockindex := by
  have starts : ∀ pblockindex, pblockindex = (if nHeight < s.nBestHeight.tdiv 2 then s.pindexGenesisBlock
      else s.pindexBest) → pblockindex <:+ s.pindexBest ∧ pblockindex ≠ [] := by
    rintro _ rfl
    split
    · rw [searchable.started]
      exact ⟨searchable.rooted.genesis_suffix, List.cons_ne_nil _ _⟩
    · exact ⟨List.suffix_rfl, searchable.rooted.real⟩
  rw [findBlockByHeight]
  refine ⟨_, ?_, ?_, rfl⟩
  · split
    · rename_i cached
      split
      · exact cached ▸ searchable.cached
      · exact (starts _ rfl).1
    · exact (starts _ rfl).1
  · split
    · split
      · exact List.cons_ne_nil _ _
      · exact (starts _ rfl).2
    · exact (starts _ rfl).2

/-- A lookup finds the ancestor of the best block at the height. -/
theorem Searchable.findBlockByHeight_found (searchable : Searchable genesis s) (low : 0 ≤ nHeight)
    (high : nHeight ≤ s.nBestHeight) :
    ∃ found below, findBlockByHeight s nHeight = some (found :: below) ∧ found :: below <:+ s.pindexBest ∧
      found.nHeight = nHeight := by
  obtain ⟨pindex, suffix, real, lookup⟩ := searchable.findBlockByHeight_start nHeight
  rw [lookup]
  exact searchable.search low high suffix real

/-- Whatever a lookup finds is on the active chain. -/
theorem Searchable.findBlockByHeight_suffix (searchable : Searchable genesis s) {found : BlockPtr}
    (returned : findBlockByHeight s nHeight = some found) : found <:+ s.pindexBest := by
  obtain ⟨pindex, suffix, -, lookup⟩ := searchable.findBlockByHeight_start nHeight
  rw [lookup] at returned
  obtain ⟨lower, lowered, raised⟩ := Option.bind_eq_some_iff.mp returned
  exact searchable.raiseTo_suffix ((lowerTo_suffix lowered).1.trans suffix) raised

end Search

/-- States that a node reaches by `SetBestChain` calls that return true, with lookups in between. An entry is in the
index with its ancestors when it is switched to. -/
inductive Looked {env : Env} (policy : Policy) (tree : BlockTree env) (Allowed : Node → BlockPtr → Prop) : Node → Prop
  | start {s after} (fresh : Unstarted s) (known : Indexed s.mapBlockIndex [tree.genesis])
      (started : setBestChain env policy (codeConnector env) s (tree.block tree.genesis) [tree.genesis] =
        .ok after) : Looked policy tree Allowed after
  | call {s after entry pprev} (earlier : Looked policy tree Allowed s) (member : tree.mem (entry :: pprev))
      (known : Indexed s.mapBlockIndex (entry :: pprev)) (onDisk : OnDisk tree s) (allowed : Allowed s (entry :: pprev))
      (switched : setBestChain env policy (codeConnector env) s (tree.block entry) (entry :: pprev) =
        .ok after) : Looked policy tree Allowed after
  | lookup {s nHeight found} (earlier : Looked policy tree Allowed s)
      (returned : findBlockByHeight s nHeight = some found) :
      Looked policy tree Allowed { s with pblockindexFBBHLast := found }
  | outside {s after} (earlier : Looked policy tree Allowed s) (same : SameChain s after)
      (cached : after.pblockindexFBBHLast = s.pblockindexFBBHLast)
      (kept : ∀ hash pindex, s.mapBlockIndex hash = some pindex → after.mapBlockIndex hash = some pindex) :
      Looked policy tree Allowed after

section Runs

variable {env : Env} {policy : Policy} {tree : BlockTree env} {Allowed : Node → BlockPtr → Prop} {s : Node}

/-- Lookups do not change the chain. -/
theorem Looked.reached (looked : Looked policy tree Allowed s) : Reached policy tree Allowed s := by
  induction looked with
  | start fresh _ started => exact .start fresh started
  | call _ member _ onDisk allowed switched ih => exact .call ih member onDisk allowed switched
  | lookup _ _ ih => exact .outside ih ⟨rfl, rfl, rfl, rfl, rfl, rfl, rfl⟩
  | outside _ same _ _ ih => exact .outside ih same

theorem BlockTree.rooted_of_mem {pindex : BlockPtr} (bottom : tree.genesis.nHeight = 0) (member : tree.mem pindex) :
    Rooted tree.genesis pindex := by
  induction pindex with
  | nil => exact absurd rfl (BlockTree.ne_nil member)
  | cons entry pprev ih =>
      cases pprev with
      | nil =>
          obtain rfl : entry = tree.genesis := Option.some.inj (tree.rooted member)
          exact .root bottom
      | cons prev grand => exact .child (ih (tree.parent member)) (tree.height member)

theorem Searchable.of_consistent {Admit : Admission} (bottom : tree.genesis.nHeight = 0)
    (consistent : Consistent tree Admit s) (indexed : Indexed s.mapBlockIndex s.pindexBest)
    (cached : s.pblockindexFBBHLast <:+ s.pindexBest) : Searchable tree.genesis s :=
  ⟨consistent.started, BlockTree.rooted_of_mem bottom consistent.here.mem, indexed, consistent.here.links,
    consistent.height, cached⟩

theorem Looked.searchable (bottom : tree.genesis.nHeight = 0)
    (postponed : ∀ {s pindexNew}, Allowed s pindexNew → PostponedConnected env policy s pindexNew)
    (looked : Looked policy tree Allowed s) : Searchable tree.genesis s := by
  have consistent : ∀ {s}, Looked policy tree Allowed s → Consistent tree (fun _ _ _ => True) s :=
    fun looked => looked.reached.consistent (fun _ _ => trivial) postponed
  induction looked with
  | @start s after fresh known started =>
      have here := consistent (.start fresh known started)
      have genesisHash : (tree.block tree.genesis).getHash env = env.hashGenesisBlock :=
        (tree.named tree.root).trans tree.genesisNamed
      have unstarted : s.txnBegin.pindexGenesisBlock = [] := fresh.pindexGenesisBlock
      simp only [setBestChain, unstarted, genesisHash, and_self, if_true] at started
      split at started
      · cases started
      rename_i committed commit
      cases started
      refine .of_consistent bottom here ?_ (List.nil_suffix)
      change Indexed committed.mapBlockIndex [tree.genesis]
      rw [(commitBest_ok commit).1]
      exact known
  | call earlier member known onDisk allowed switched ih =>
      have here := consistent (.call earlier member known onDisk allowed switched)
      have started := ih.started
      obtain ⟨middle, same, rfl⟩ := setBestChain_ok (by rw [started]; exact List.cons_ne_nil _ _) switched
      refine .of_consistent bottom here ?_ (List.nil_suffix)
      change Indexed middle.mapBlockIndex _
      rw [same.mapBlockIndex]
      exact known
  | lookup earlier returned ih =>
      exact .of_consistent bottom (consistent (.lookup earlier returned)) ih.indexed (ih.findBlockByHeight_suffix returned)
  | outside earlier same cached kept ih =>
      refine .of_consistent bottom (consistent (.outside earlier same cached kept)) ?_ ?_
      · rw [same.pindexBest]
        exact fun entry pprev suffix => kept _ _ (ih.indexed entry pprev suffix)
      · rw [same.pindexBest, cached]
        exact ih.cached

/-- In every state reached by lookups and by calls whose postponed blocks are all connected, a lookup finds the
ancestor of the best block at the height. -/
theorem findBlockByHeight_ancestor (bottom : tree.genesis.nHeight = 0)
    (looked : Looked policy tree (PostponedConnected env policy) s) {nHeight : Int} (low : 0 ≤ nHeight)
    (high : nHeight ≤ s.nBestHeight) :
    ∃ found below, findBlockByHeight s nHeight = some (found :: below) ∧ found :: below <:+ s.pindexBest ∧
      found.nHeight = nHeight :=
  (looked.searchable bottom fun allowed => allowed).findBlockByHeight_found low high

end Runs

section Concrete

/-- A branch of one block (1), and one of eight (2 to 9) whose third block is invalid. -/
def longBlocks : List CBlock :=
  smallBlock 1 (genesisHash true) (1000 * coin) [] :: smallBlock 2 (genesisHash true) (1000 * coin) [] ::
    (List.range 7).map fun n => smallBlock (UInt32.ofNat (n + 3)) (BitVec.ofNat 256 (n + 2))
      (if n = 1 then 1001 * coin else 1000 * coin) []

def longBlock (entry : CBlockIndex) : CBlock :=
  (longBlocks.find? fun block => block.nNonce = entry.nNonce).getD smallGenesis

/-- The longer branch up to a height. -/
def longTip : Nat → BlockPtr
  | 0 => forkRoot
  | n + 1 => forkEntry (UInt32.ofNat (n + 2)) (n + 1) :: longTip n

def longIndex : List BlockPtr := lightTip :: (List.range 9).map longTip

def longTree : BlockTree (Env.labelled true) :=
  .ofList { forkEntry 0 0 with hash := genesisHash true } longBlock longIndex (by decide +kernel)

/-- A node that has not started and that has all entries in its index. -/
def longInitial : Node :=
  { smallInitial longBlocks with
    mapBlockIndex := fun hash => longIndex.find? fun pindex => blockHash pindex = hash }

def longStart : Node := afterLoop (smallSwitch longInitial (longBlock longTree.genesis) forkRoot)

def longLight : Node := afterLoop (smallSwitch longStart (longBlock (forkEntry 1 1)) lightTip)

def longSwitched : Node := afterLoop (smallSwitch longLight (longBlock (forkEntry 9 8)) (longTip 8))

theorem longTree_indexed {s : Node} {pindex : BlockPtr} (member : pindex ∈ longIndex)
    (found : ∀ pindex ∈ longIndex, s.mapBlockIndex (blockHash pindex) = some pindex) :
    Indexed s.mapBlockIndex pindex := fun entry pprev suffix =>
  found (entry :: pprev) (@BlockTree.mem_of_suffix _ longTree _ _ member suffix (List.cons_ne_nil _ _))

theorem longTree_onDisk {s : Node}
    (blocks : ∀ pindex ∈ longIndex, ∀ block ∈ readBlock (Env.labelled true) s pindex, ∀ entry ∈ pindex.head?,
      block = longBlock entry) : OnDisk longTree s := by
  intro entry pprev block member found
  exact blocks _ member _ found _ rfl

theorem longStart_looked (Allowed : Node → BlockPtr → Prop) : Looked .lax longTree Allowed longStart := by
  have started : observe (fun s => s.hashBestChain) (smallSwitch longInitial (longBlock longTree.genesis) forkRoot) =
      (true, genesisHash true) := by
    decide +kernel
  have fresh : Unstarted longInitial := ⟨rfl, rfl, (unstarted_smallInitial longBlocks).txIndex⟩
  exact .start fresh
    (longTree_indexed (by decide +kernel) (by decide +kernel)) (ok_of_observe started)

theorem longLight_looked {Allowed : Node → BlockPtr → Prop} (allowed : Allowed longStart lightTip) :
    Looked .lax longTree Allowed longLight := by
  have extended : observe (fun s => s.hashBestChain) (smallSwitch longStart (longBlock (forkEntry 1 1)) lightTip) =
      (true, 1) := by
    decide +kernel
  refine .call (longStart_looked Allowed) ?_ (longTree_indexed ?_ (by decide +kernel))
    (longTree_onDisk (by decide +kernel)) allowed (ok_of_observe extended)
  · change lightTip ∈ longIndex
    decide +kernel
  · decide +kernel

/-- A lookup of genesis, and then one of the light branch's block. -/
theorem findBlockByHeight_ancestor_light :
    ∃ found below, findBlockByHeight { longLight with pblockindexFBBHLast := forkRoot } 1 = some (found :: below) ∧
      found :: below <:+ longLight.pindexBest ∧ found.nHeight = 1 := by
  have returned : findBlockByHeight longLight 0 = some forkRoot := by decide +kernel
  have light : Looked .lax longTree (PostponedConnected (Env.labelled true) .lax) longLight :=
    longLight_looked (.of_nil (by decide +kernel))
  exact findBlockByHeight_ancestor rfl (.lookup light returned) (by decide) (by decide +kernel)

/-- A switch to the block at height 8 whose postponed block at height 3 fails to connect returns true. A lookup of
height 3 then walks up from genesis and finds no link at height 2. -/
theorem postponed_failure_breaks_lookup :
    ∃ s, Looked .lax longTree (fun _ _ => True) s ∧ s.nBestHeight = 8 ∧ findBlockByHeight s 3 = none := by
  have switched : observe (fun s => (s.nBestHeight, findBlockByHeight s 3))
      (smallSwitch longLight (longBlock (forkEntry 9 8)) (longTip 8)) = (true, 8, none) := by
    decide +kernel
  have member : longTip 8 ∈ longIndex := by decide +kernel
  have values := value_of_observe switched
  exact ⟨_, .call (longLight_looked trivial) member (longTree_indexed member (by decide +kernel))
    (longTree_onDisk (by decide +kernel)) trivial (ok_of_observe switched), congrArg Prod.fst values,
    congrArg Prod.snd values⟩

end Concrete

end InfiniteRicks
