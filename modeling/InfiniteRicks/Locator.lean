import InfiniteRicks.AcceptSpec
import InfiniteRicks.ProofOfStake

/-!
# Block locators

`CBlockLocator` (`main.h`). The entries of a locator are ancestors of its tip, the first
eleven of them one after another and then with gaps that double. `GetDistanceBack` doubles
its step by the distance where `Set` doubles it by the number of entries, and the two stay
`InStep`.
-/

namespace InfiniteRicks

/-- `CBlockLocator`. -/
structure CBlockLocator where
  vHave : List UInt256

/-- `GetBlockHash` of an entry. -/
def blockHash (pindex : BlockPtr) : UInt256 := (pindex.head?.map CBlockIndex.hash).getD 0

namespace CBlockLocator

/-- `if (count > 10) nStep *= 2`. -/
def doubled (nStep count : Nat) : Nat := if 10 < count then nStep * 2 else nStep

theorem length_back_lt (pindex : CBlockIndex) (pprev : BlockPtr) (nStep : Nat) :
    (pprev.drop (nStep - 1)).length < (pindex :: pprev).length := by
  rw [List.length_drop, List.length_cons]
  omega

/-- The loop of `Set`, with the number of hashes pushed so far. The first of the `nStep` steps back is that from
an entry to its parent. -/
def pushBack : BlockPtr → Nat → Nat → List UInt256
  | [], _, _ => []
  | pindex :: pprev, nStep, size =>
      pindex.hash :: pushBack (pprev.drop (nStep - 1)) (doubled nStep (size + 1)) (size + 1)
termination_by pindex => pindex.length
decreasing_by exact length_back_lt _ _ _

/-- `Set`. -/
def set (env : Env) (pindex : BlockPtr) : CBlockLocator := ⟨pushBack pindex 1 0 ++ [env.hashGenesisBlock]⟩

/-- `CBlockLocator(hashBlock)`. -/
def ofHash (env : Env) (s : Node) (hashBlock : UInt256) : CBlockLocator :=
  match s.mapBlockIndex hashBlock with
  | some pindex => set env pindex
  | none => ⟨[]⟩

/-- The entry of a hash, where that is in the main chain. -/
def inMainChain (s : Node) (hash : UInt256) : Option BlockPtr := (s.mapBlockIndex hash).filter (isInMainChain s)

/-- The loop of `GetDistanceBack`. -/
def distanceBack (s : Node) : List UInt256 → Nat → Nat → Nat
  | [], nDistance, _ => nDistance
  | hash :: rest, nDistance, nStep =>
      if (inMainChain s hash).isSome then nDistance
      else distanceBack s rest (nDistance + nStep) (doubled nStep (nDistance + nStep))

/-- `GetDistanceBack`. -/
def getDistanceBack (locator : CBlockLocator) (s : Node) : Nat := distanceBack s locator.vHave 0 1

/-- `GetBlockIndex`. -/
def getBlockIndex (locator : CBlockLocator) (s : Node) : BlockPtr :=
  (locator.vHave.findSome? (inMainChain s)).getD s.pindexGenesisBlock

/-! ## The entries of a locator -/

/-- The entries whose hashes `Set` pushes. -/
def visited : BlockPtr → Nat → Nat → List BlockPtr
  | [], _, _ => []
  | pindex :: pprev, nStep, size =>
      (pindex :: pprev) ::
        visited (pprev.drop (nStep - 1)) (doubled nStep (size + 1)) (size + 1)
termination_by pindex => pindex.length
decreasing_by exact length_back_lt _ _ _

theorem pushBack_eq (pindex : BlockPtr) (nStep size : Nat) :
    pushBack pindex nStep size = (visited pindex nStep size).map blockHash := by
  induction pindex, nStep, size using visited.induct with
  | case1 => rw [pushBack, visited, List.map_nil]
  | case2 pindex pprev nStep size ih =>
      rw [pushBack, visited, List.map_cons, ih]
      rfl

/-- They are ancestors. -/
theorem suffix_of_visited {pindex ancestor : BlockPtr} {nStep size : Nat}
    (member : ancestor ∈ visited pindex nStep size) : ancestor <:+ pindex ∧ ancestor ≠ [] := by
  induction pindex, nStep, size using visited.induct with
  | case1 =>
      rw [visited] at member
      cases member
  | case2 pindex pprev nStep size ih =>
      rw [visited] at member
      rcases List.mem_cons.mp member with rfl | later
      · exact ⟨List.suffix_rfl, List.cons_ne_nil _ _⟩
      · obtain ⟨suffix, real⟩ := ih later
        exact ⟨(suffix.trans (List.drop_suffix _ _)).trans (List.suffix_cons _ _), real⟩

/-- Each is lower than those before it. -/
theorem visited_lower (pindex : BlockPtr) (nStep size : Nat) :
    (visited pindex nStep size).Pairwise fun upper lower => lower.length < upper.length := by
  induction pindex, nStep, size using visited.induct with
  | case1 =>
      rw [visited]
      exact List.Pairwise.nil
  | case2 pindex pprev nStep size ih =>
      rw [visited]
      refine List.pairwise_cons.mpr ⟨fun lower member => ?_, ih⟩
      exact (suffix_of_visited member).1.length_le.trans_lt (length_back_lt pindex pprev nStep)

/-- The step of an entry, the number of entries before it, and its distance from the tip. -/
def InStep (nStep size nDistance : Nat) : Prop :=
  size ≤ 10 ∧ nStep = 1 ∧ nDistance = size ∨ 11 ≤ size ∧ 2 ≤ nStep ∧ nDistance = 9 + nStep

theorem InStep.start : InStep 1 0 0 := .inl ⟨Nat.zero_le _, rfl, rfl⟩

theorem InStep.next {nStep size nDistance : Nat} (inStep : InStep nStep size nDistance) :
    InStep (doubled nStep (size + 1)) (size + 1) (nDistance + nStep) ∧
      doubled nStep (nDistance + nStep) = doubled nStep (size + 1) := by
  simp only [InStep, doubled] at inStep ⊢
  split_ifs <;> omega

theorem InStep.positive {nStep size nDistance : Nat} (inStep : InStep nStep size nDistance) : 0 < nStep := by
  rw [InStep] at inStep
  omega

/-- From an entry above the fork a step does not go below twice the depth of the fork. -/
theorem InStep.bound {nStep size nDistance depth : Nat} (inStep : InStep nStep size nDistance)
    (above : nDistance < depth) : nDistance + nStep ≤ 2 * depth := by
  rw [InStep] at inStep
  omega

/-- Of the entries of a locator the first at or below a height is at most twice as far from the tip as that. -/
theorem find_visited {pindex found : BlockPtr} {nStep size nDistance height depth : Nat}
    (inStep : InStep nStep size nDistance) (near : nDistance ≤ 2 * depth)
    (total : pindex ≠ [] → pindex.length + nDistance = height + depth)
    (isFirst : (visited pindex nStep size).find? (fun ancestor => decide (ancestor.length ≤ height)) = some found) :
    height + depth ≤ found.length + 2 * depth := by
  induction pindex, nStep, size using visited.induct generalizing nDistance with
  | case1 =>
      rw [visited] at isFirst
      cases isFirst
  | case2 pindex pprev nStep size ih =>
      have here := total (List.cons_ne_nil _ _)
      rw [visited, List.find?_cons] at isFirst
      by_cases below : (pindex :: pprev).length ≤ height
      · rw [decide_eq_true below] at isFirst
        obtain rfl : pindex :: pprev = found := Option.some.inj isFirst
        omega
      · rw [decide_eq_false below] at isFirst
        have step := inStep.bound (show nDistance < depth by omega)
        have positive := inStep.positive
        refine ih inStep.next.1 step (fun real => ?_) isFirst
        have some := List.length_pos_of_ne_nil real
        rw [List.length_drop] at some ⊢
        rw [List.length_cons] at here
        omega

end CBlockLocator

/-! ## Locators and the active chain -/

/-- A block tree on one genesis block, whose links are those of the chain that ends in the best block. -/
structure ActiveChain (env : Env) (genesis : CBlockIndex) (s : Node) : Prop where
  genesisHash : genesis.hash = env.hashGenesisBlock
  bottom : genesis.nHeight = 0
  started : s.pindexGenesisBlock = [genesis]
  keyed : ∀ hash pindex, s.mapBlockIndex hash = some pindex → pindex.head?.map CBlockIndex.hash = some hash
  root : ∀ hash entry, s.mapBlockIndex hash = some [entry] → entry = genesis
  parent : ∀ hash entry prev grand, s.mapBlockIndex hash = some (entry :: prev :: grand) →
    s.mapBlockIndex prev.hash = some (prev :: grand) ∧ entry.nHeight = prev.nHeight + 1
  best : s.mapBlockIndex s.hashBestChain = some s.pindexBest
  links : s.pnext = pathLinks s.pindexBest

theorem Rooted.genesis_suffix {genesis : CBlockIndex} {pindex : BlockPtr} (rooted : Rooted genesis pindex) :
    [genesis] <:+ pindex := by
  induction rooted with
  | root => exact List.suffix_rfl
  | child below height ih => exact ih.trans (List.suffix_cons _ _)

theorem Rooted.real {genesis : CBlockIndex} {pindex : BlockPtr} (rooted : Rooted genesis pindex) : pindex ≠ [] := by
  cases rooted <;> exact List.cons_ne_nil _ _

namespace ActiveChain

variable {env : Env} {genesis : CBlockIndex} {s : Node} {hash : UInt256} {pindex : BlockPtr}

theorem grounded (chain : ActiveChain env genesis s) : Grounded s where
  started := by
    rw [chain.started]
    exact List.cons_ne_nil _ _
  keyed := chain.keyed
  parent := chain.parent
  best := chain.best
  links := by
    intro hash linked
    rw [chain.links] at linked
    cases shape : s.pindexBest with
    | nil =>
        rw [shape] at linked
        cases linked
    | cons entry pprev =>
        rw [shape] at linked
        by_contra absent
        rw [pathLinks_eq_none (show hash ∉ pprev.map CBlockIndex.hash from absent)] at linked
        cases linked

/-- Every entry stands on genesis. -/
theorem rooted (chain : ActiveChain env genesis s) (found : s.mapBlockIndex hash = some pindex) :
    Rooted genesis pindex := by
  induction pindex generalizing hash with
  | nil => cases chain.keyed _ _ found
  | cons entry pprev ih =>
      cases pprev with
      | nil =>
          rw [chain.root _ _ found]
          exact .root chain.bottom
      | cons prev grand =>
          obtain ⟨foundPrev, height⟩ := chain.parent _ _ _ _ found
          exact .child (ih foundPrev) height

theorem isInMainChain_iff (chain : ActiveChain env genesis s) (found : s.mapBlockIndex hash = some pindex) :
    isInMainChain s pindex = true ↔ pindex <:+ s.pindexBest := by
  constructor
  · exact chain.grounded.suffix_of_isInMainChain found
  · rintro ⟨newer, shape⟩
    cases pindex with
    | nil => cases chain.keyed _ _ found
    | cons entry below =>
        rw [isInMainChain, Bool.or_eq_true, decide_eq_true_eq]
        rcases List.eq_nil_or_concat newer with rfl | ⟨newer, next, rfl⟩
        · exact .inr shape
        · left
          rw [List.concat_eq_append, List.append_assoc, List.singleton_append] at shape
          have distinct : DistinctHashes s.pindexBest := (chain.grounded.indexed chain.best).nodup
          rw [← shape] at distinct
          rw [chain.links, ← shape, pathLinks_above distinct]
          rfl

/-- Looking for an ancestor in the main chain. -/
theorem inMainChain_blockHash (chain : ActiveChain env genesis s) (found : s.mapBlockIndex hash = some pindex)
    {ancestor : BlockPtr} (suffix : ancestor <:+ pindex) (real : ancestor ≠ []) :
    CBlockLocator.inMainChain s (blockHash ancestor) =
      if ancestor <:+ s.pindexBest then some ancestor else none := by
  obtain ⟨entry, below, rfl⟩ := List.exists_cons_of_ne_nil real
  have lookup := chain.grounded.indexed found entry below suffix
  have named : blockHash (entry :: below) = entry.hash := rfl
  rw [named, CBlockLocator.inMainChain, lookup, Option.filter_some]
  by_cases active : entry :: below <:+ s.pindexBest
  · rw [if_pos active, if_pos ((chain.isInMainChain_iff lookup).mpr active)]
  · rw [if_neg active, if_neg (fun inside => active ((chain.isInMainChain_iff lookup).mp inside))]

/-- The genesis block is in the main chain. -/
theorem inMainChain_genesis (chain : ActiveChain env genesis s) :
    CBlockLocator.inMainChain s env.hashGenesisBlock = some [genesis] := by
  have suffix := (chain.rooted chain.best).genesis_suffix
  have named : blockHash [genesis] = env.hashGenesisBlock := chain.genesisHash
  rw [← named, chain.inMainChain_blockHash chain.best suffix (List.cons_ne_nil _ _), if_pos suffix]

end ActiveChain

/-- The branch of a tip leaves the active chain at the fork, some blocks below the tip. -/
structure LeavesAt (tip best fork : BlockPtr) : Prop where
  ofTip : fork <:+ tip
  ofBest : fork <:+ best
  highest : ∀ common, common <:+ tip → common <:+ best → common.length ≤ fork.length

/-- An ancestor of the tip is in the active chain just if it is at the fork or below. -/
theorem LeavesAt.suffix_iff {tip best fork ancestor : BlockPtr} (leaves : LeavesAt tip best fork)
    (suffix : ancestor <:+ tip) : ancestor <:+ best ↔ ancestor.length ≤ fork.length := by
  constructor
  · exact leaves.highest ancestor suffix
  · exact fun lower => (List.suffix_of_suffix_length_le suffix leaves.ofTip lower).trans leaves.ofBest

namespace CBlockLocator

section Search

variable {env : Env} {genesis : CBlockIndex} {s : Node} {hash : UInt256} {tip fork : BlockPtr}

/-- The search of `GetBlockIndex` in the hashes of ancestors of a tip. -/
theorem findSome_blockHash (chain : ActiveChain env genesis s) (found : s.mapBlockIndex hash = some tip)
    (leaves : LeavesAt tip s.pindexBest fork) {ancestors : List BlockPtr}
    (suffixes : ∀ ancestor ∈ ancestors, ancestor <:+ tip ∧ ancestor ≠ []) :
    (ancestors.map blockHash).findSome? (inMainChain s) =
      ancestors.find? fun ancestor => decide (ancestor.length ≤ fork.length) := by
  induction ancestors with
  | nil => rfl
  | cons first rest ih =>
      obtain ⟨suffix, real⟩ := suffixes first List.mem_cons_self
      have later := ih fun ancestor member => suffixes ancestor (List.mem_cons_of_mem _ member)
      rw [List.map_cons, List.findSome?_cons, chain.inMainChain_blockHash found suffix real, List.find?_cons]
      by_cases active : first <:+ s.pindexBest
      · rw [if_pos active, decide_eq_true ((leaves.suffix_iff suffix).mp active)]
      · rw [if_neg active, decide_eq_false fun lower => active ((leaves.suffix_iff suffix).mpr lower)]
        exact later

/-- `GetDistanceBack` retraces the steps of `Set`. -/
theorem distanceBack_visited (chain : ActiveChain env genesis s) (found : s.mapBlockIndex hash = some tip)
    (leaves : LeavesAt tip s.pindexBest fork) {pindex first : BlockPtr} {nStep size nDistance : Nat}
    (suffix : pindex <:+ tip) (inStep : InStep nStep size nDistance)
    (total : pindex ≠ [] → pindex.length + nDistance = tip.length)
    (isFirst : (visited pindex nStep size).find? (fun ancestor => decide (ancestor.length ≤ fork.length)) =
      some first) (rest : List UInt256) :
    distanceBack s ((visited pindex nStep size).map blockHash ++ rest) nDistance nStep + first.length =
      tip.length := by
  induction pindex, nStep, size using visited.induct generalizing nDistance with
  | case1 =>
      rw [visited] at isFirst
      cases isFirst
  | case2 pindex pprev nStep size ih =>
      have here := total (List.cons_ne_nil _ _)
      rw [visited, List.find?_cons] at isFirst
      rw [visited, List.map_cons, List.cons_append, distanceBack,
        chain.inMainChain_blockHash found suffix (List.cons_ne_nil _ _)]
      by_cases below : (pindex :: pprev).length ≤ fork.length
      · rw [decide_eq_true below] at isFirst
        obtain rfl : pindex :: pprev = first := Option.some.inj isFirst
        rw [if_pos ((leaves.suffix_iff suffix).mpr below)]
        exact (Nat.add_comm _ _).trans here
      · rw [decide_eq_false below] at isFirst
        rw [if_neg fun active => below ((leaves.suffix_iff suffix).mp active),
          if_neg (show ¬ (none : Option BlockPtr).isSome = true from Bool.false_ne_true), inStep.next.2]
        have positive := inStep.positive
        refine ih (((List.drop_suffix _ _).trans (List.suffix_cons _ _)).trans suffix) inStep.next.1
          (fun real => ?_) isFirst
        have some := List.length_pos_of_ne_nil real
        rw [List.length_drop] at some ⊢
        rw [List.length_cons] at here
        omega

/-- The block that `GetBlockIndex` finds with a locator of a tip. -/
structure Common (tip best fork : BlockPtr) (genesis : CBlockIndex) (common : BlockPtr) : Prop where
  ofTip : common <:+ tip
  ofBest : common <:+ best
  real : common ≠ []
  near : common = [genesis] ∨ tip.length ≤ common.length + 2 * (tip.length - fork.length)

theorem getBlockIndex_set (chain : ActiveChain env genesis s) (found : s.mapBlockIndex hash = some tip)
    (leaves : LeavesAt tip s.pindexBest fork) :
    Common tip s.pindexBest fork genesis ((set env tip).getBlockIndex s) ∧
      ((set env tip).getBlockIndex s ∈ visited tip 1 0 →
        (set env tip).getDistanceBack s + ((set env tip).getBlockIndex s).length = tip.length) := by
  have rooted := chain.rooted found
  have bottom := (chain.rooted chain.best).genesis_suffix
  have lowest := leaves.highest [genesis] rooted.genesis_suffix bottom
  have searched : (set env tip).vHave.findSome? (inMainChain s) =
      ((visited tip 1 0).find? fun ancestor => decide (ancestor.length ≤ fork.length)).or (some [genesis]) := by
    rw [set, pushBack_eq, List.findSome?_append, findSome_blockHash chain found leaves fun _ => suffix_of_visited,
      List.findSome?_singleton, chain.inMainChain_genesis]
  cases first : (visited tip 1 0).find? fun ancestor => decide (ancestor.length ≤ fork.length) with
  | none =>
      have result : (set env tip).getBlockIndex s = [genesis] := by
        rw [getBlockIndex, searched, first]
        rfl
      rw [result]
      refine ⟨⟨rooted.genesis_suffix, bottom, List.cons_ne_nil _ _, .inl rfl⟩, fun member => ?_⟩
      exact absurd (decide_eq_true lowest) (List.find?_eq_none.mp first _ member)
  | some common =>
      have result : (set env tip).getBlockIndex s = common := by
        rw [getBlockIndex, searched, first]
        rfl
      rw [result]
      obtain ⟨suffix, real⟩ := suffix_of_visited (List.mem_of_find?_eq_some first)
      have holds := List.find?_some first
      have lower : common.length ≤ fork.length := of_decide_eq_true holds
      have near := find_visited .start (Nat.zero_le _)
        (fun _ => (show tip.length + 0 = fork.length + (tip.length - fork.length) by
          have shorter := leaves.ofTip.length_le
          omega)) first
      have shorter := leaves.ofTip.length_le
      refine ⟨⟨suffix, (leaves.suffix_iff suffix).mpr lower, real, .inr (by omega)⟩, fun _ => ?_⟩
      rw [getDistanceBack, set, pushBack_eq]
      exact distanceBack_visited chain found leaves List.suffix_rfl .start (fun _ => rfl) first _

/-- The locator of a tip names ancestors that are lower and lower, and genesis. The block it finds in the active
chain is at most twice as deep as the fork, and its distance is the one that `GetDistanceBack` measures. -/
theorem locator_finds_fork (chain : ActiveChain env genesis s) (found : s.mapBlockIndex hash = some tip)
    (leaves : LeavesAt tip s.pindexBest fork) :
    ∃ ancestors : List BlockPtr,
      (set env tip).vHave = ancestors.map blockHash ++ [env.hashGenesisBlock] ∧
      (∀ ancestor ∈ ancestors, ancestor <:+ tip ∧ ancestor ≠ []) ∧ ancestors.head? = some tip ∧
      (ancestors.Pairwise fun upper lower => ∀ above ∈ upper.head?, ∀ below ∈ lower.head?,
        below.nHeight < above.nHeight) ∧
      Common tip s.pindexBest fork genesis ((set env tip).getBlockIndex s) ∧
      ((set env tip).getBlockIndex s ∈ ancestors →
        (set env tip).getDistanceBack s + ((set env tip).getBlockIndex s).length = tip.length) := by
  have rooted := chain.rooted found
  obtain ⟨common, distance⟩ := getBlockIndex_set chain found leaves
  refine ⟨visited tip 1 0, by rw [set, pushBack_eq], fun _ => suffix_of_visited, ?_, ?_, common, distance⟩
  · obtain ⟨entry, pprev, rfl⟩ := List.exists_cons_of_ne_nil rooted.real
    rw [visited, List.head?_cons]
  · refine (visited_lower tip 1 0).imp_of_mem fun {upper lower} inUpper inLower shorter above isAbove below isBelow => ?_
    obtain ⟨upperSuffix, upperReal⟩ := suffix_of_visited inUpper
    obtain ⟨lowerSuffix, lowerReal⟩ := suffix_of_visited inLower
    obtain ⟨grand, rfl⟩ := List.head?_eq_some_iff.mp isAbove
    obtain ⟨rest, rfl⟩ := List.head?_eq_some_iff.mp isBelow
    rw [(rooted.of_suffix upperSuffix upperReal).height, (rooted.of_suffix lowerSuffix lowerReal).height]
    rw [List.length_cons, List.length_cons] at shorter
    omega

end Search

section Concrete

def forkedIndex : List BlockPtr := [heavyTip, heavyTip.tail, lightTip, forkRoot]

/-- A node whose active chain ends in `lightTip` and that knows the other branch. -/
def forkedNode : Node :=
  { smallInitial forkBlocks with
    mapBlockIndex := fun hash => forkedIndex.find? fun pindex => blockHash pindex = hash
    pnext := pathLinks lightTip
    pindexGenesisBlock := forkRoot
    pindexBest := lightTip
    hashBestChain := 1 }

theorem forkedNode_activeChain : ActiveChain (Env.labelled true) forkTree.genesis forkedNode := by
  have members : ∀ hash pindex, forkedNode.mapBlockIndex hash = some pindex →
      pindex ∈ forkedIndex ∧ blockHash pindex = hash := by
    intro hash pindex found
    have found : forkedIndex.find? (fun pindex => decide (blockHash pindex = hash)) = some pindex := found
    have holds := List.find?_some found
    exact ⟨List.mem_of_find?_eq_some found, of_decide_eq_true holds⟩
  refine ⟨rfl, rfl, rfl, fun hash pindex found => ?_, fun hash entry found => ?_,
    fun hash entry prev grand found => ?_, by decide +kernel, rfl⟩
  · obtain ⟨member, rfl⟩ := members hash pindex found
    have named : ∀ pindex ∈ forkedIndex, pindex.head?.map CBlockIndex.hash = some (blockHash pindex) := by
      decide +kernel
    exact named pindex member
  · obtain ⟨member, -⟩ := members hash [entry] found
    have lone : ∀ pindex ∈ forkedIndex, pindex.tail = [] → pindex = forkRoot := by decide +kernel
    exact (List.cons.inj (lone _ member rfl)).1
  · obtain ⟨member, -⟩ := members hash _ found
    have parents : ∀ pindex ∈ forkedIndex, pindex.tail ≠ [] →
        forkedNode.mapBlockIndex (blockHash pindex.tail) = some pindex.tail ∧
          pindex.head?.map CBlockIndex.nHeight = pindex.tail.head?.map fun prev => prev.nHeight + 1 := by
      decide +kernel
    obtain ⟨known, height⟩ := parents _ member (List.cons_ne_nil _ _)
    exact ⟨known, Option.some.inj height⟩

theorem locator_finds_fork_forked :
    Common heavyTip lightTip forkRoot forkTree.genesis ((set (Env.labelled true) heavyTip).getBlockIndex forkedNode) ∧
      (set (Env.labelled true) heavyTip).getDistanceBack forkedNode = 2 := by
  have leaves : LeavesAt heavyTip forkedNode.pindexBest forkRoot := by
    refine ⟨by decide +kernel, by decide +kernel, fun common ofTip ofBest => ?_⟩
    have tails : ∀ tail ∈ heavyTip.tails, tail <:+ lightTip → tail.length ≤ forkRoot.length := by decide +kernel
    exact tails common ((List.mem_tails _ _).mpr ofTip) ofBest
  obtain ⟨ancestors, -, -, -, -, common, -⟩ :=
    locator_finds_fork forkedNode_activeChain (show forkedNode.mapBlockIndex 3 = some heavyTip by decide +kernel) leaves
  exact ⟨common, by decide +kernel⟩

end Concrete

end CBlockLocator

end InfiniteRicks
