import InfiniteRicks.Block
import InfiniteRicks.Library.MerkleTree
import Mathlib.Data.List.GetD
import Mathlib.Data.Nat.Bitwise

/-!
# Merkle trees and branches

`CBlock::BuildMerkleTree`, `GetMerkleBranch` and `CheckMerkleBranch` from `main.h`. The
source keeps the tree in one vector, level after level, and addresses a level by the
running offset `j`. The vector is the concatenation of the levels
(`vMerkleTree_eq`), so that a branch is read off them.
-/

namespace InfiniteRicks

open Library.MerkleTree

namespace CBlock

variable (env : Env)

/-- The inner loop of `BuildMerkleTree`: the level of `nSize` nodes at offset `j` is
paired up and appended. -/
def pushLevel (j nSize : Nat) (vMerkleTree : List UInt256) : List UInt256 :=
  (List.range ((nSize + 1) / 2)).foldl (fun vMerkleTree k =>
    let i := 2 * k
    let i2 := min (i + 1) (nSize - 1)
    vMerkleTree ++ [env.hashPair (vMerkleTree.getD (j + i) 0) (vMerkleTree.getD (j + i2) 0)]) vMerkleTree

/-- The outer loop of `BuildMerkleTree`; the fuel is the number of leaves. -/
def pushLevels : Nat → Nat → Nat → List UInt256 → List UInt256
  | 0, _, _, vMerkleTree => vMerkleTree
  | fuel + 1, nSize, j, vMerkleTree =>
      if 1 < nSize then pushLevels fuel ((nSize + 1) / 2) (j + nSize) (pushLevel env j nSize vMerkleTree)
      else vMerkleTree

/-- `vMerkleTree` after `BuildMerkleTree`. -/
def vMerkleTree (block : CBlock) : List UInt256 :=
  pushLevels env block.vtx.length block.vtx.length 0 (block.vtx.map env.txHash)

/-- The loop of `GetMerkleBranch`. -/
def branchLevels (vMerkleTree : List UInt256) : Nat → Nat → Nat → Nat → List UInt256
  | 0, _, _, _ => []
  | fuel + 1, nSize, j, nIndex =>
      if 1 < nSize then
        let i := min (nIndex ^^^ 1) (nSize - 1)
        vMerkleTree.getD (j + i) 0 :: branchLevels vMerkleTree fuel ((nSize + 1) / 2) (j + nSize) (nIndex >>> (1 : Nat))
      else []

/-- `CBlock::GetMerkleBranch`, whose tree is the one of `BuildMerkleTree`. -/
def getMerkleBranch (block : CBlock) (nIndex : Nat) : List UInt256 :=
  branchLevels (block.vMerkleTree env) block.vtx.length block.vtx.length 0 nIndex

/-- The loop of `CheckMerkleBranch`. -/
def climbBranch : UInt256 → List UInt256 → Int → UInt256
  | hash, [], _ => hash
  | hash, otherside :: vMerkleBranch, nIndex =>
      climbBranch (if nIndex % 2 = 1 then env.hashPair otherside hash else env.hashPair hash otherside)
        vMerkleBranch (nIndex >>> (1 : Nat))

/-- `CBlock::CheckMerkleBranch`. -/
def checkMerkleBranch (hash : UInt256) (vMerkleBranch : List UInt256) (nIndex : Int) : UInt256 :=
  if nIndex = -1 then 0 else climbBranch env hash vMerkleBranch nIndex

section Levels

variable {env}

theorem merkleLevel_eq : ∀ entries : List UInt256, merkleLevel env entries = level env.hashPair entries
  | [] => rfl
  | [_] => rfl
  | left :: right :: rest => by rw [merkleLevel, merkleLevel_eq rest, level]

theorem merkleRoot_eq (fuel : Nat) (entries : List UInt256) :
    merkleRoot env fuel entries = root env.hashPair 0 fuel entries := by
  induction fuel generalizing entries with
  | zero =>
      match entries with
      | [] => rfl
      | [_] => rfl
      | _ :: _ :: _ => rfl
  | succ fuel ih =>
      match entries with
      | [] => rfl
      | [_] => rfl
      | left :: right :: rest =>
          change merkleRoot env fuel (merkleLevel env _) = root env.hashPair 0 fuel (level env.hashPair _)
          rw [ih, merkleLevel_eq]

theorem getD_middle (before entries after : List UInt256) {i : Nat} (inside : i < entries.length) :
    (before ++ entries ++ after).getD (before.length + i) 0 = entries.getD i 0 := by
  rw [List.append_assoc, List.getD_append_right _ _ _ _ (by omega), Nat.add_sub_cancel_left,
    List.getD_append _ _ _ _ inside]

/-- The first nodes of the next level, as far as the inner loop has come. -/
theorem foldl_pushLevel (before entries : List UInt256) {m : Nat} (within : 2 * m ≤ entries.length + 1) :
    (List.range m).foldl (fun vMerkleTree k =>
        let i := 2 * k
        let i2 := min (i + 1) (entries.length - 1)
        vMerkleTree ++ [env.hashPair (vMerkleTree.getD (before.length + i) 0)
          (vMerkleTree.getD (before.length + i2) 0)]) (before ++ entries) =
      before ++ entries ++ (level env.hashPair entries).take m := by
  induction m with
  | zero => simp
  | succ m ih =>
      have inside : m < (level env.hashPair entries).length := by
        rw [length_level]
        omega
      rw [List.range_succ, List.foldl_append, ih (by omega)]
      simp only [List.foldl_cons, List.foldl_nil]
      rw [getD_middle _ _ _ (by omega), getD_middle _ _ _ (by omega), ← getD_level env.hashPair 0 entries (by omega),
        List.append_assoc, List.take_add_one, List.getElem?_eq_getElem inside, List.getD_eq_getElem _ _ inside]
      rfl

theorem pushLevel_eq (before entries : List UInt256) :
    pushLevel env before.length entries.length (before ++ entries) =
      before ++ entries ++ level env.hashPair entries := by
  rw [pushLevel, foldl_pushLevel before entries (by omega), List.take_of_length_le]
  rw [length_level]

/-- The vector is the concatenation of the levels. -/
theorem pushLevels_eq (fuel : Nat) (before entries : List UInt256) :
    pushLevels env fuel entries.length before.length (before ++ entries) =
      before ++ (levels env.hashPair fuel entries).flatten := by
  induction fuel generalizing before entries with
  | zero => simp [pushLevels, levels]
  | succ fuel ih =>
      rw [pushLevels, levels]
      split
      · have step := ih (before ++ entries) (level env.hashPair entries)
        rw [length_level, List.length_append] at step
        rw [pushLevel_eq, step, List.flatten_cons, List.append_assoc]
      · simp

theorem vMerkleTree_eq (block : CBlock) :
    block.vMerkleTree env = (levels env.hashPair block.vtx.length (block.vtx.map env.txHash)).flatten := by
  have whole : pushLevels env _ _ _ _ = _ := pushLevels_eq block.vtx.length [] (block.vtx.map env.txHash)
  simpa [vMerkleTree] using whole

/-- `BuildMerkleTree` returns the last node of the vector it has built. -/
theorem buildMerkleTree_eq_back (block : CBlock) :
    block.buildMerkleTree env = (block.vMerkleTree env).getLast?.getD 0 := by
  rw [buildMerkleTree, merkleRoot_eq, vMerkleTree_eq]
  cases shape : block.vtx with
  | nil => simp [levels, root]
  | cons first rest =>
      rw [getLast_levels _ 0 (by simp) (by simp)]
      rfl

/-- One step of `CheckMerkleBranch`: an entry and its sibling make their parent. -/
theorem climb_step (entries : List UInt256) {nIndex : Nat} (inside : nIndex < entries.length) :
    (if (nIndex : Int) % 2 = 1 then
        env.hashPair (entries.getD (min (nIndex ^^^ 1) (entries.length - 1)) 0) (entries.getD nIndex 0)
      else env.hashPair (entries.getD nIndex 0) (entries.getD (min (nIndex ^^^ 1) (entries.length - 1)) 0)) =
      (level env.hashPair entries).getD (nIndex / 2) 0 := by
  rw [getD_level _ _ _ (by omega)]
  rcases Nat.even_or_odd nIndex with even | odd
  · have parity := Nat.even_iff.mp even
    have left : 2 * (nIndex / 2) = nIndex := by omega
    rw [if_neg (by omega), Nat.xor_one_of_even even, left]
  · have parity := Nat.odd_iff.mp odd
    have left : 2 * (nIndex / 2) = nIndex - 1 := by omega
    have lower : min (nIndex - 1) (entries.length - 1) = nIndex - 1 := by omega
    have upper : min (nIndex - 1 + 1) (entries.length - 1) = nIndex := by omega
    rw [if_pos (by omega), Nat.xor_one_of_odd odd, left, lower, upper]

/-- Climbing the branch of an entry of a level leads to the root. -/
theorem climbBranch_branchLevels {fuel : Nat} (before entries : List UInt256) {nIndex : Nat}
    (enough : entries.length ≤ fuel) (inside : nIndex < entries.length) :
    climbBranch env (entries.getD nIndex 0)
        (branchLevels (before ++ (levels env.hashPair fuel entries).flatten) fuel entries.length before.length
          nIndex) nIndex = root env.hashPair 0 fuel entries := by
  induction fuel generalizing before entries nIndex with
  | zero => omega
  | succ fuel ih =>
      match entries, inside with
      | [top], inside =>
          have first : nIndex = 0 := by
            simp only [List.length_singleton] at inside
            omega
          subst first
          rfl
      | left :: right :: rest, inside =>
          generalize shape : left :: right :: rest = entries at *
          have several : 1 < entries.length := by
            rw [← shape]
            simp
          have rootStep : root env.hashPair 0 (fuel + 1) entries =
              root env.hashPair 0 fuel (level env.hashPair entries) := by
            rw [← shape]
            rfl
          have shorter : (level env.hashPair entries).length ≤ fuel := by
            rw [length_level]
            omega
          have parent : nIndex / 2 < (level env.hashPair entries).length := by
            rw [length_level]
            omega
          have above := ih (before ++ entries) (level env.hashPair entries) shorter parent
          rw [length_level, List.length_append, List.append_assoc] at above
          rw [levels, if_pos several, List.flatten_cons, branchLevels, if_pos several]
          simp only [climbBranch]
          rw [← List.append_assoc, getD_middle _ _ _ (by omega), climb_step entries inside, rootStep,
            List.append_assoc]
          exact above

end Levels

/-- The branch of every transaction of a block leads from its hash to the Merkle root,
whatever the hash function. -/
theorem checkMerkleBranch_getMerkleBranch (env : Env) (block : CBlock) {nIndex : Nat} {tx : CTransaction}
    (found : block.vtx[nIndex]? = some tx) :
    checkMerkleBranch env (env.txHash tx) (block.getMerkleBranch env nIndex) nIndex =
      block.buildMerkleTree env := by
  obtain ⟨inside, rfl⟩ := List.getElem?_eq_some_iff.mp found
  have bound : nIndex < (block.vtx.map env.txHash).length := by simpa using inside
  have climb : climbBranch env _ _ _ = root env.hashPair 0 block.vtx.length _ :=
    climbBranch_branchLevels [] (block.vtx.map env.txHash) (by simp) bound
  have leaf : (block.vtx.map env.txHash).getD nIndex 0 = env.txHash (block.vtx[nIndex]) := by
    rw [List.getD_eq_getElem _ _ bound, List.getElem_map]
  rw [leaf, List.nil_append, ← vMerkleTree_eq, List.length_map, List.length_nil] at climb
  rw [checkMerkleBranch, if_neg (by omega), getMerkleBranch, climb, buildMerkleTree, merkleRoot_eq]

/-- The second of three transactions, whose last one is paired with itself. -/
theorem checkMerkleBranch_getMerkleBranch_second :
    let tx := CTransaction.labelledSpend 2 0 COutPoint.null 0
    let block := CBlock.labelled 1 0 0 0
      [.labelledSpend 1 0 COutPoint.null 0, tx, .labelledSpend 3 0 COutPoint.null 0]
    checkMerkleBranch (Env.labelled true) ((Env.labelled true).txHash tx)
      (block.getMerkleBranch (Env.labelled true) 1) 1 = block.buildMerkleTree (Env.labelled true) :=
  checkMerkleBranch_getMerkleBranch (Env.labelled true) _ rfl

/-- The pairs that `BuildMerkleTree` hashes. -/
def hashedPairs (env : Env) (block : CBlock) : List (UInt256 × UInt256) :=
  hashed env.hashPair block.vtx.length (block.vtx.map env.txHash)

/-- Two blocks that are not empty and repeat no transaction id have the same ids when
they have the same Merkle root, as long as the pairs hashed for the two trees do not
collide with each other or with a transaction id. -/
theorem buildMerkleTree_binds (env : Env) (first second : CBlock) (nonempty : first.vtx ≠ [])
    (nonempty' : second.vtx ≠ []) (distinct : (first.vtx.map env.txHash).Nodup)
    (distinct' : (second.vtx.map env.txHash).Nodup)
    (injective : ∀ both ∈ first.hashedPairs env ++ second.hashedPairs env,
      ∀ both' ∈ first.hashedPairs env ++ second.hashedPairs env,
        env.hashPair both.1 both.2 = env.hashPair both'.1 both'.2 → both = both')
    (notPair : ∀ tx ∈ first.vtx ++ second.vtx, ∀ both ∈ first.hashedPairs env ++ second.hashedPairs env,
      env.hashPair both.1 both.2 ≠ env.txHash tx)
    (same : first.buildMerkleTree env = second.buildMerkleTree env) :
    first.vtx.map env.txHash = second.vtx.map env.txHash := by
  have collisionFree : CollisionFree env.hashPair
      (fun both => both ∈ first.hashedPairs env ++ second.hashedPairs env) := by
    intro left right left' right' within within' equal
    exact Prod.mk.inj (injective _ within _ within' equal)
  have leaves : ∀ block : CBlock, (∀ tx ∈ block.vtx, tx ∈ first.vtx ++ second.vtx) →
      ∀ hash ∈ block.vtx.map env.txHash, Depth env.hashPair
        (fun both => both ∈ first.hashedPairs env ++ second.hashedPairs env) 0 hash := by
    intro block inside hash member
    obtain ⟨tx, found, rfl⟩ := List.mem_map.mp member
    exact .leaf fun left right within => notPair tx (inside tx found) (left, right) within
  rw [buildMerkleTree, buildMerkleTree, merkleRoot_eq, merkleRoot_eq] at same
  have deep := leaves first fun tx member => List.mem_append_left _ member
  have deep' := leaves second fun tx member => List.mem_append_right _ member
  exact root_inj collisionFree 0 (by simp) (by simp) (by simpa using nonempty) (by simpa using nonempty')
    (fun both member => List.mem_append_left _ member) (fun both member => List.mem_append_right _ member)
    deep deep' distinct distinct' same

/-- An environment whose pair hash keeps small values apart. -/
def spreading : Env := { Env.labelled true with hashPair := fun left right => 1 <<< 128 + left <<< 64 + right }

def threeTxs : List CTransaction :=
  [.labelledSpend 1 0 COutPoint.null 0, .labelledSpend 2 0 COutPoint.null 0, .labelledSpend 3 0 COutPoint.null 0]

/-- The pairs of the two headers below. -/
def threePairs : List (UInt256 × UInt256) :=
  (labelled 1 0 0 0 threeTxs).hashedPairs spreading ++ (labelled 2 0 0 0 threeTxs).hashedPairs spreading

/-- Two headers over the same three transactions. -/
theorem buildMerkleTree_binds_three :
    let vtx := [CTransaction.labelledSpend 1 0 COutPoint.null 0, .labelledSpend 2 0 COutPoint.null 0,
      .labelledSpend 3 0 COutPoint.null 0]
    (CBlock.labelled 1 0 0 0 vtx).vtx.map spreading.txHash = (CBlock.labelled 2 0 0 0 vtx).vtx.map spreading.txHash := by
  have apart : (threePairs.all fun both => threePairs.all fun both' =>
      decide (spreading.hashPair both.1 both.2 = spreading.hashPair both'.1 both'.2 → both = both')) = true := by
    decide +kernel
  have leaves : ((threeTxs ++ threeTxs).all fun tx => threePairs.all fun both =>
      decide (spreading.hashPair both.1 both.2 ≠ spreading.txHash tx)) = true := by
    decide +kernel
  simp only [List.all_eq_true, decide_eq_true_eq] at apart leaves
  exact buildMerkleTree_binds spreading _ _ (by decide) (by decide) (by decide +kernel) (by decide +kernel)
    apart leaves rfl

end CBlock

end InfiniteRicks
