import InfiniteRicks.AcceptSpec
import Mathlib.Logic.Relation

/-!
# The synchronized checkpoint moves forward along the main chain

Along every run of checkpoint messages, pending checkpoints and accepted blocks, each new
synchronized checkpoint descends from the one before; and in the strict mode accepted
blocks descend from it and it stays an ancestor of the best block.
-/

namespace InfiniteRicks

/-- A block is indexed as a proper descendant of another. -/
def DescendsFrom (s : Node) (hash ancestor : UInt256) : Prop :=
  ∃ entry pprev below, s.mapBlockIndex hash = some (entry :: pprev) ∧
    s.mapBlockIndex ancestor = some below ∧ below <:+ pprev

/-- The block of the current checkpoint is the best block or an ancestor of it. -/
def SyncInMainChain (s : SyncNode) : Prop :=
  ∃ pindexSync, s.mapBlockIndex s.hashSyncCheckpoint = some pindexSync ∧ pindexSync <:+ s.pindexBest

/-- The block that can be read for an index entry names the parent of the entry. -/
def BlocksNamed (env : Env) (s : Node) : Prop :=
  ∀ entry prev grand block, s.mapBlockIndex entry.hash = some (entry :: prev :: grand) →
    readBlock env s (entry :: prev :: grand) = some block → block.hashPrevBlock = prev.hash

/-- `WriteToDisk` appends: at the new place the block can be read, and elsewhere what was
there before. -/
def AppendsBlocks (setup : Setup) : Prop :=
  ∀ files block pos written, setup.writeToDisk files block = some (pos, written) → ∀ nFile nBlockPos,
    written.readBlock nFile nBlockPos =
      if nFile = pos.nFile ∧ nBlockPos = pos.nBlockPos then some block else files.readBlock nFile nBlockPos

section Validation

variable {s : SyncNode} {hash : UInt256}

/-- Walking down from an indexed block to one with the hash of another indexed block
finds that block. -/
theorem Grounded.lowerTo_found {node : Node} (grounded : Grounded node) {key : UInt256} {nHeight : Int}
    {entry : CBlockIndex} {pindex rest below : BlockPtr} (found : node.mapBlockIndex key = some pindex)
    (lowered : lowerTo nHeight pindex = some (entry :: rest)) (target : node.mapBlockIndex entry.hash = some below) :
    below <:+ pindex := by
  have suffix := (lowerTo_suffix lowered).1
  have lookup := grounded.indexed found entry rest suffix
  rw [target, Option.some.injEq] at lookup
  exact lookup ▸ suffix

/-- A validated checkpoint descends from the current one. -/
theorem validateSyncCheckpoint_ok (grounded : Grounded s.toNode)
    (valid : validateSyncCheckpoint s hash = .ok ()) : DescendsFrom s.toNode hash s.hashSyncCheckpoint := by
  simp only [validateSyncCheckpoint] at valid
  split at valid
  · rename_i pindexSync pprevSync pindexRecv pprevRecv sync recv
    split at valid
    · split at valid
      · split at valid <;> cases valid
      · cases valid
    rename_i newer
    split at valid
    · rename_i pindex rest lowered
      split at valid
      · cases valid
      rename_i named
      have hashSync : pindex.hash = s.hashSyncCheckpoint := by simpa using named
      refine ⟨pindexRecv, pprevRecv, _, recv, sync, ?_⟩
      rw [lowerTo, if_pos (by omega)] at lowered
      have suffix := (lowerTo_suffix lowered).1
      have lookup := grounded.indexed recv pindex rest (suffix.trans (List.suffix_cons _ _))
      rw [hashSync, sync, Option.some.injEq] at lookup
      exact lookup ▸ suffix
    · cases valid
  · cases valid

theorem validateSyncCheckpoint_error {after : SyncNode} (invalid : validateSyncCheckpoint s hash = .error after) :
    ∃ hashInvalid, after = { s with hashInvalidCheckpoint := hashInvalid } := by
  simp only [validateSyncCheckpoint] at invalid
  split at invalid
  · split at invalid
    · split at invalid
      · split at invalid <;> cases invalid
        · exact ⟨_, rfl⟩
        · exact ⟨_, rfl⟩
      · cases invalid
        exact ⟨_, rfl⟩
    · split at invalid
      · split at invalid
        · cases invalid
          exact ⟨_, rfl⟩
        · cases invalid
      · cases invalid
        exact ⟨_, rfl⟩
  · cases invalid
    exact ⟨_, rfl⟩

/-- A block that passes `CheckSync` on the main network and is new stands on the current
checkpoint. -/
theorem checkSync_descends {setup : Setup} (mainNet : setup.env.fTestNet = false) (grounded : Grounded s.toNode)
    {key : UInt256} {pindexPrev : CBlockIndex} {pprev pindexSync : BlockPtr}
    (parent : s.mapBlockIndex key = some (pindexPrev :: pprev)) (new : s.mapBlockIndex hash = none)
    (sync : s.mapBlockIndex s.hashSyncCheckpoint = some pindexSync)
    (passes : checkSync setup s hash pindexPrev pprev = true) : pindexSync <:+ pindexPrev :: pprev := by
  cases pindexSync with
  | nil => cases grounded.keyed _ _ sync
  | cons entry below =>
      simp only [checkSync, mainNet, sync, Bool.false_eq_true, if_false, Bool.and_eq_true, Bool.not_eq_true',
        Bool.and_eq_false_imp, decide_eq_true_eq, new, Option.isNone_none, Bool.true_eq_false,
        imp_false] at passes
      obtain ⟨⟨above, level⟩, notBelow⟩ := passes
      have higher : entry.nHeight < pindexPrev.nHeight + 1 := by
        by_contra notHigher
        have same : pindexPrev.nHeight + 1 = entry.nHeight := by omega
        have isSync := level same
        simp only [decide_not, Bool.not_eq_eq_eq_not, Bool.not_false, decide_eq_true_eq] at isSync
        rw [isSync, sync] at new
        cases new
      rw [if_pos higher] at above
      split at above
      · rename_i pindex rest lowered
        simp only [Bool.not_eq_true', Bool.or_eq_false_iff, decide_eq_false_iff_not, not_not] at above
        refine grounded.lowerTo_found parent lowered ?_
        rw [above.2]
        exact sync
      · cases above

end Validation

/-- What any of the checkpoint functions leaves behind, whatever it returns. -/
structure SyncEffect (s after : SyncNode) : Prop where
  grounded : Grounded after.toNode
  mapBlockIndex : after.mapBlockIndex = s.mapBlockIndex
  files : after.files = s.files
  forward : after.hashSyncCheckpoint = s.hashSyncCheckpoint ∨
    DescendsFrom s.toNode after.hashSyncCheckpoint s.hashSyncCheckpoint
  inMainChain : SyncInMainChain s → SyncInMainChain after

/-- The state that a function left, whether it returned true or false. -/
def Leaves (result : Except SyncNode SyncNode) (after : SyncNode) : Prop :=
  result = .error after ∨ result = .ok after

section Effects

variable {setup : Setup} {s after : SyncNode} {hash : UInt256}

theorem SyncEffect.refl (grounded : Grounded s.toNode) : SyncEffect s s :=
  ⟨grounded, rfl, rfl, Or.inl rfl, fun here => here⟩

theorem writeSyncCheckpoint_cases (s : SyncNode) (hash : UInt256) :
    ∃ txdb, writeSyncCheckpoint s hash = .error { s with toNode := s.toNode.withTxdb txdb } ∨
      writeSyncCheckpoint s hash =
        .ok { s with toNode := s.toNode.withTxdb txdb, hashSyncCheckpoint := hash } := by
  simp only [writeSyncCheckpoint]
  split
  · exact ⟨_, Or.inr rfl⟩
  · exact ⟨_, Or.inl rfl⟩

/-- Writing a descendant of the current checkpoint that is in the main chain. -/
theorem SyncEffect.write (middle : SyncNode) {pindex : BlockPtr}
    (descends : DescendsFrom s.toNode hash s.hashSyncCheckpoint) (grounded : Grounded middle.toNode)
    (index : middle.mapBlockIndex = s.mapBlockIndex) (files : middle.files = s.files) (sync : middle.hashSyncCheckpoint = s.hashSyncCheckpoint)
    (inMain : SyncInMainChain s → SyncInMainChain middle) (found : s.mapBlockIndex hash = some pindex)
    (below : pindex <:+ middle.pindexBest) (left : Leaves (writeSyncCheckpoint middle hash) after) :
    SyncEffect s after := by
  have same : ∀ txdb, Grounded (middle.toNode.withTxdb txdb) := fun txdb =>
    ⟨grounded.started, grounded.keyed, grounded.parent, grounded.best, grounded.links⟩
  obtain ⟨txdb, failed | written⟩ := writeSyncCheckpoint_cases middle hash
  · rw [failed] at left
    rcases left with ⟨⟨⟩⟩ | ⟨⟨⟩⟩
    exact ⟨same txdb, index, files, Or.inl sync, inMain⟩
  · rw [written] at left
    rcases left with ⟨⟨⟩⟩ | ⟨⟨⟩⟩
    exact ⟨same txdb, index, files, Or.inr descends, fun _ => ⟨pindex, index ▸ found, below⟩⟩

/-- A proper descendant of an indexed block has a parent. -/
theorem DescendsFrom.parent {node : Node} (grounded : Grounded node) {ancestor : UInt256}
    (descends : DescendsFrom node hash ancestor) :
    ∃ entry prev grand below, node.mapBlockIndex hash = some (entry :: prev :: grand) ∧
      node.mapBlockIndex ancestor = some below ∧ below <:+ prev :: grand := by
  obtain ⟨entry, pprev, below, found, lower, suffix⟩ := descends
  cases pprev with
  | nil =>
      rw [List.suffix_nil.mp suffix] at lower
      cases grounded.keyed _ _ lower
  | cons prev grand => exact ⟨entry, prev, grand, below, found, lower, suffix⟩

theorem advanceSyncCheckpoint_effect (grounded : Grounded s.toNode) (named : BlocksNamed setup.env s.toNode)
    (descends : DescendsFrom s.toNode hash s.hashSyncCheckpoint)
    (left : Leaves (advanceSyncCheckpoint setup s hash) after) : SyncEffect s after := by
  obtain ⟨entry, prev, grand, below, found, sync, suffix⟩ := descends.parent grounded
  simp only [advanceSyncCheckpoint, found, Option.getD_some] at left
  split at left
  · rename_i inMainChain
    exact .write s descends grounded rfl rfl rfl (fun here => here) found
      (grounded.suffix_of_isInMainChain found inMainChain) left
  have hash_eq : entry.hash = hash := Option.some.inj (grounded.keyed _ _ found)
  split at left
  · rcases left with ⟨⟨⟩⟩ | ⟨⟨⟩⟩
    exact .refl grounded
  rename_i block read
  have prevHash : block.hashPrevBlock = prev.hash := named entry prev grand block (hash_eq ▸ found) read
  have blockHash : block.getHash setup.env = hash := by
    simp only [readBlock, Node.readFromDisk] at read
    split at read
    · cases read
    · split at read
      · rename_i same
        cases read
        exact same.trans hash_eq
      · cases read
  split at left
  · rename_i node failed
    have kept := setBestChain_error failed
    rcases left with ⟨⟨⟩⟩ | ⟨⟨⟩⟩
    refine ⟨grounded.of_kept kept, kept.mapBlockIndex, kept.files, Or.inl rfl, ?_⟩
    rintro ⟨pindexSync, current, inBest⟩
    exact ⟨pindexSync, kept.mapBlockIndex ▸ current, kept.pindexBest ▸ inBest⟩
  · rename_i node switched
    obtain ⟨groundedNode, index, best, files⟩ := grounded.setBestChain (blockHash ▸ found) prevHash switched
    have inMain : SyncInMainChain { s with toNode := node } := by
      refine ⟨below, index ▸ sync, ?_⟩
      change below <:+ node.pindexBest
      rw [best]
      exact suffix.trans (List.suffix_cons _ _)
    exact .write { s with toNode := node } descends groundedNode index files rfl (fun _ => inMain) found
      (best ▸ List.suffix_rfl) left

/-- The end of both checkpoint functions: a validated checkpoint is switched to, and then
none is pending. -/
theorem validated_effect (grounded : Grounded s.toNode) (named : BlocksNamed setup.env s.toNode)
    (valid : validateSyncCheckpoint s hash = .ok ())
    (left : Leaves (match advanceSyncCheckpoint setup s hash with
      | .error s => .error s
      | .ok s => .ok { s with hashPendingCheckpoint := 0 }) after) : SyncEffect s after := by
  have descends := validateSyncCheckpoint_ok grounded valid
  split at left
  · rename_i middle advanced
    rcases left with ⟨⟨⟩⟩ | ⟨⟨⟩⟩
    exact advanceSyncCheckpoint_effect grounded named descends (Or.inl advanced)
  · rename_i middle advanced
    have effect := advanceSyncCheckpoint_effect grounded named descends (Or.inr advanced)
    rcases left with ⟨⟨⟩⟩ | ⟨⟨⟩⟩
    exact ⟨effect.grounded, effect.mapBlockIndex, effect.files, effect.forward, effect.inMainChain⟩

theorem processSyncCheckpoint_effect {fSigned : Bool} (grounded : Grounded s.toNode)
    (named : BlocksNamed setup.env s.toNode)
    (left : Leaves (processSyncCheckpoint setup s hash fSigned) after) : SyncEffect s after := by
  simp only [processSyncCheckpoint] at left
  split at left
  · rcases left with ⟨⟨⟩⟩ | ⟨⟨⟩⟩
    exact .refl grounded
  split at left
  · rcases left with ⟨⟨⟩⟩ | ⟨⟨⟩⟩
    exact ⟨grounded, rfl, rfl, Or.inl rfl, fun here => here⟩
  split at left
  · rename_i middle invalid
    obtain ⟨hashInvalid, rfl⟩ := validateSyncCheckpoint_error invalid
    rcases left with ⟨⟨⟩⟩ | ⟨⟨⟩⟩
    exact ⟨grounded, rfl, rfl, Or.inl rfl, fun here => here⟩
  rename_i valid
  exact validated_effect grounded named valid left

theorem acceptPendingSyncCheckpoint_effect (grounded : Grounded s.toNode)
    (named : BlocksNamed setup.env s.toNode)
    (left : Leaves (acceptPendingSyncCheckpoint setup s) after) : SyncEffect s after := by
  simp only [acceptPendingSyncCheckpoint] at left
  split at left
  swap
  · rcases left with ⟨⟨⟩⟩ | ⟨⟨⟩⟩
    exact .refl grounded
  split at left
  · rename_i middle invalid
    obtain ⟨hashInvalid, rfl⟩ := validateSyncCheckpoint_error invalid
    rcases left with ⟨⟨⟩⟩ | ⟨⟨⟩⟩
    exact ⟨grounded, rfl, rfl, Or.inl rfl, fun here => here⟩
  rename_i valid
  exact validated_effect grounded named valid left

end Effects

section Blocks

variable {setup : Setup} {s after : SyncNode} {block : CBlock}

/-- A new block in the files, not yet in the index, cannot be read for another entry. -/
theorem BlocksNamed.append {pos : DiskBlockPos} {files : BlockFiles} (appends : AppendsBlocks setup)
    (named : BlocksNamed setup.env s.toNode) (new : s.mapBlockIndex (block.getHash setup.env) = none)
    (written : setup.writeToDisk s.files block = some (pos, files)) :
    BlocksNamed setup.env { s.toNode with files := files } := by
  intro entry prev grand content found read
  by_cases here : entry.nFile = pos.nFile ∧ entry.nBlockPos = pos.nBlockPos
  · simp only [readBlock, Node.readFromDisk, Node.readBlockAt, appends _ _ _ _ written, here, and_self,
      if_true] at read
    split at read
    · cases read
    rename_i readBack back
    split at back
    · cases back
    cases back
    split at read
    · rename_i same
      change s.mapBlockIndex entry.hash = _ at found
      rw [← same, new] at found
      cases found
    · cases read
  · refine named entry prev grand content found ?_
    simpa only [readBlock, Node.readFromDisk, Node.readBlockAt, appends _ _ _ _ written, here, if_false] using read

/-- The new entry of an extended index reads back the new block. -/
theorem BlocksNamed.extend {pos : DiskBlockPos} {files : BlockFiles} {entry prev : CBlockIndex}
    {grand : BlockPtr} {node : Node} (appends : AppendsBlocks setup)
    (named : BlocksNamed setup.env { s.toNode with files := files })
    (written : setup.writeToDisk s.files block = some (pos, files)) (nFile : entry.nFile = pos.nFile)
    (nBlockPos : entry.nBlockPos = pos.nBlockPos) (prevHash : block.hashPrevBlock = prev.hash)
    (extended : Extended { s.toNode with files := files } entry (prev :: grand) node) :
    BlocksNamed setup.env node := by
  intro other lower rest content found read
  rw [readBlock_of_files extended.files] at read
  rw [extended.mapBlockIndex] at found
  by_cases same : other.hash = entry.hash
  · rw [same, Function.update_self, Option.some.injEq] at found
    obtain ⟨rfl, rfl, rfl⟩ : entry = other ∧ prev = lower ∧ grand = rest := by simpa using found
    simp only [readBlock, Node.readFromDisk, Node.readBlockAt, appends _ _ _ _ written, nFile, nBlockPos,
      and_self, if_true] at read
    split at read
    · cases read
    rename_i readBack back
    split at back
    · cases back
    cases back
    split at read
    · cases read
      exact prevHash
    · cases read
  · rw [Function.update_of_ne same] at found
    exact named other lower rest content found read

theorem BlocksNamed.of_same {env : Env} {node other : Node} (named : BlocksNamed env node)
    (index : other.mapBlockIndex = node.mapBlockIndex) (files : other.files = node.files) :
    BlocksNamed env other := by
  intro entry prev grand content found read
  rw [readBlock_of_files files] at read
  exact named entry prev grand content (index ▸ found) read

/-- In the strict mode the tests of `AcceptBlock` include `CheckSync`. -/
theorem checkSync_of_acceptChecks {pindexPrev : CBlockIndex} {pprev : BlockPtr} {hashProof : UInt256}
    (passes : acceptChecks setup s block pindexPrev pprev = some hashProof) (strict : setup.mode = .strict) :
    checkSync setup s (block.getHash setup.env) pindexPrev pprev = true := by
  simp only [acceptChecks] at passes
  split at passes
  · cases passes
  split at passes
  · cases passes
  split at passes
  · cases passes
  split at passes
  · cases passes
  split at passes
  · cases passes
  split at passes
  · cases passes
  split at passes
  · cases passes
  rename_i satisfied
  by_contra fails
  exact satisfied ⟨strict, by simpa using fails⟩

/-- What `AcceptBlock` leaves behind, whatever it returns. -/
structure BlockEffect (setup : Setup) (s after : SyncNode) : Prop where
  grounded : Grounded after.toNode
  named : BlocksNamed setup.env after.toNode
  kept : ∀ hash pindex, s.mapBlockIndex hash = some pindex → after.mapBlockIndex hash = some pindex
  forward : after.hashSyncCheckpoint = s.hashSyncCheckpoint ∨
    DescendsFrom after.toNode after.hashSyncCheckpoint s.hashSyncCheckpoint
  inMainChain : setup.mode = .strict → SyncInMainChain s → SyncInMainChain after

/-- The current checkpoint stays below the best block when a block that stands on it is
added. -/
theorem SyncInMainChain.extend {entry prev : CBlockIndex} {grand : BlockPtr} {files : BlockFiles} {node : Node}
    (extended : Extended { s.toNode with files := files } entry (prev :: grand) node)
    (kept : ∀ hash pindex, s.mapBlockIndex hash = some pindex → node.mapBlockIndex hash = some pindex)
    (standsOn : ∀ pindexSync, s.mapBlockIndex s.hashSyncCheckpoint = some pindexSync →
      pindexSync <:+ prev :: grand) (here : SyncInMainChain s) :
    SyncInMainChain { s with toNode := node } := by
  obtain ⟨pindexSync, current, inBest⟩ := here
  refine ⟨pindexSync, kept _ _ current, ?_⟩
  change pindexSync <:+ node.pindexBest
  rcases extended.best with old | new
  · rw [old]
    exact inBest
  · rw [new]
    exact (standsOn pindexSync current).trans (List.suffix_cons _ _)

/-- `AcceptBlock` keeps the node grounded and its checkpoint moving forward; in the strict
mode the checkpoint stays below the best block and an accepted block stands on it. -/
theorem acceptBlock_effect (mainNet : setup.env.fTestNet = false) (appends : AppendsBlocks setup)
    (grounded : Grounded s.toNode) (named : BlocksNamed setup.env s.toNode)
    (left : Leaves (acceptBlock setup s block) after) :
    BlockEffect setup s after ∧
      (setup.mode = .strict → acceptBlock setup s block = .ok after →
        (s.mapBlockIndex s.hashSyncCheckpoint).isSome = true →
        DescendsFrom after.toNode (block.getHash setup.env) s.hashSyncCheckpoint) := by
  rcases acceptBlock_cases setup s block with
    refused | ⟨prev, grand, hashProof, pos, files, new, parent, tests, written, outcome⟩
  · rw [refused] at left ⊢
    rcases left with ⟨⟨⟩⟩ | ⟨⟨⟩⟩
    exact ⟨⟨grounded, named, fun _ _ found => found, Or.inl rfl, fun _ here => here⟩, fun _ ok => by cases ok⟩
  have groundedDisk : Grounded { s.toNode with files := files } :=
    ⟨grounded.started, grounded.keyed, grounded.parent, grounded.best, grounded.links⟩
  have namedDisk : BlocksNamed setup.env { s.toNode with files := files } := named.append appends new written
  have prevHash : block.hashPrevBlock = prev.hash := (Option.some.inj (grounded.keyed _ _ parent)).symm
  rcases addToBlockIndex_extends setup.policy (codeKernel setup.hashes { s.toNode with files := files }) pos
      hashProof groundedDisk new parent with
    unchanged | ⟨entry, node, hash, nFile, nBlockPos, groundedNode, extended, result⟩
  · rcases outcome with ⟨node, failed, returns⟩ | ⟨node, middle, added, -, -⟩
    · rw [unchanged, Except.error.injEq] at failed
      subst failed
      rw [returns] at left ⊢
      rcases left with ⟨⟨⟩⟩ | ⟨⟨⟩⟩
      exact ⟨⟨groundedDisk, namedDisk, fun _ _ found => found, Or.inl rfl, fun _ here => here⟩,
        fun _ ok => by cases ok⟩
    · rw [unchanged] at added
      cases added
  have namedNode : BlocksNamed setup.env node :=
    namedDisk.extend appends written nFile nBlockPos prevHash extended
  have kept : ∀ key pindex, s.mapBlockIndex key = some pindex → node.mapBlockIndex key = some pindex := by
    intro key pindex found
    rw [extended.mapBlockIndex, Function.update_of_ne]
    · exact found
    · rintro rfl
      rw [hash, new] at found
      cases found
  have standsOn : setup.mode = .strict → ∀ pindexSync,
      s.mapBlockIndex s.hashSyncCheckpoint = some pindexSync → pindexSync <:+ prev :: grand :=
    fun strict pindexSync current => checkSync_descends mainNet grounded parent new current
      (checkSync_of_acceptChecks tests strict)
  have inMain : setup.mode = .strict → SyncInMainChain s → SyncInMainChain { s with toNode := node } :=
    fun strict here => here.extend extended kept (standsOn strict)
  rcases outcome with ⟨failedNode, failed, returns⟩ | ⟨addedNode, middle, added, pending, returns⟩
  · obtain rfl : node = failedNode := by
      rcases result with same | same <;> rw [failed] at same <;> cases same
      rfl
    rw [returns] at left ⊢
    rcases left with ⟨⟨⟩⟩ | ⟨⟨⟩⟩
    exact ⟨⟨groundedNode, namedNode, kept, Or.inl rfl, inMain⟩, fun _ ok => by cases ok⟩
  · obtain rfl : node = addedNode := by
      rcases result with same | same <;> rw [added] at same <;> cases same
      rfl
    have effect := acceptPendingSyncCheckpoint_effect (s := { s with toNode := node }) groundedNode namedNode pending
    rw [returns] at left ⊢
    rcases left with ⟨⟨⟩⟩ | ⟨⟨⟩⟩
    have keptAfter : ∀ key pindex, s.mapBlockIndex key = some pindex → after.mapBlockIndex key = some pindex := by
      intro key pindex found
      rw [effect.mapBlockIndex]
      exact kept key pindex found
    refine ⟨⟨effect.grounded, namedNode.of_same effect.mapBlockIndex effect.files, keptAfter, ?_,
      fun strict here => effect.inMainChain (inMain strict here)⟩, ?_⟩
    · rcases effect.forward with same | ⟨top, below, lower, found, current, suffix⟩
      · exact Or.inl same
      · exact Or.inr ⟨top, below, lower, effect.mapBlockIndex ▸ found, effect.mapBlockIndex ▸ current, suffix⟩
    · intro strict _ present
      obtain ⟨pindexSync, current⟩ := Option.isSome_iff_exists.mp present
      refine ⟨entry, prev :: grand, pindexSync, ?_, keptAfter _ _ current, standsOn strict _ current⟩
      rw [effect.mapBlockIndex]
      change node.mapBlockIndex _ = _
      rw [extended.mapBlockIndex, ← hash, Function.update_self]

end Blocks

/-- The steps of a node that concern the checkpoint: a message, a look at the pending
checkpoint, a block; whatever else happens leaves the chain and the checkpoint alone. -/
inductive SyncStep (setup : Setup) : SyncNode → SyncNode → Prop
  | message {s after hashCheckpoint fSigned}
      (left : Leaves (processSyncCheckpoint setup s hashCheckpoint fSigned) after) : SyncStep setup s after
  | pending {s after} (left : Leaves (acceptPendingSyncCheckpoint setup s) after) : SyncStep setup s after
  | block {s after block} (left : Leaves (acceptBlock setup s block) after) : SyncStep setup s after
  | outside {s after : SyncNode} (same : SameBest s.toNode after.toNode) (pnext : after.pnext = s.pnext)
      (sync : after.hashSyncCheckpoint = s.hashSyncCheckpoint) : SyncStep setup s after

/-- What holds of a node from step to step. -/
structure SyncInvariant (setup : Setup) (s : SyncNode) : Prop where
  grounded : Grounded s.toNode
  named : BlocksNamed setup.env s.toNode
  current : (s.mapBlockIndex s.hashSyncCheckpoint).isSome = true
  inMainChain : setup.mode = .strict → SyncInMainChain s

section Steps

variable {setup : Setup} {start s after : SyncNode}

/-- A checkpoint that is the old one or descends from it is indexed. -/
theorem isSome_of_forward {node : Node} {hash hashSync : UInt256}
    (forward : hash = hashSync ∨ DescendsFrom node hash hashSync)
    (current : (node.mapBlockIndex hashSync).isSome = true) : (node.mapBlockIndex hash).isSome = true := by
  rcases forward with rfl | ⟨entry, pprev, below, found, -, -⟩
  · exact current
  · rw [found]
    rfl

theorem SyncInvariant.of_effect (invariant : SyncInvariant setup s) (effect : SyncEffect s after) :
    SyncInvariant setup after ∧ (after.hashSyncCheckpoint = s.hashSyncCheckpoint ∨
      DescendsFrom after.toNode after.hashSyncCheckpoint s.hashSyncCheckpoint) := by
  have forward : after.hashSyncCheckpoint = s.hashSyncCheckpoint ∨
      DescendsFrom after.toNode after.hashSyncCheckpoint s.hashSyncCheckpoint := by
    rw [DescendsFrom, effect.mapBlockIndex]
    exact effect.forward
  refine ⟨⟨effect.grounded, invariant.named.of_same effect.mapBlockIndex effect.files, ?_,
    fun strict => effect.inMainChain (invariant.inMainChain strict)⟩, forward⟩
  exact isSome_of_forward forward (effect.mapBlockIndex ▸ invariant.current)

/-- One step keeps the invariant and moves the checkpoint forward, if at all. -/
theorem SyncInvariant.step (mainNet : setup.env.fTestNet = false) (appends : AppendsBlocks setup)
    (invariant : SyncInvariant setup s) (step : SyncStep setup s after) :
    SyncInvariant setup after ∧ (after.hashSyncCheckpoint = s.hashSyncCheckpoint ∨
      DescendsFrom after.toNode after.hashSyncCheckpoint s.hashSyncCheckpoint) := by
  cases step with
  | message left =>
      exact invariant.of_effect (processSyncCheckpoint_effect invariant.grounded invariant.named left)
  | pending left =>
      exact invariant.of_effect (acceptPendingSyncCheckpoint_effect invariant.grounded invariant.named left)
  | block left =>
      obtain ⟨effect, -⟩ := acceptBlock_effect mainNet appends invariant.grounded invariant.named left
      refine ⟨⟨effect.grounded, effect.named, ?_, fun strict => effect.inMainChain strict
        (invariant.inMainChain strict)⟩, effect.forward⟩
      obtain ⟨pindexSync, current⟩ := Option.isSome_iff_exists.mp invariant.current
      refine isSome_of_forward effect.forward ?_
      rw [effect.kept _ _ current]
      rfl
  | outside same pnext sync =>
      refine ⟨⟨invariant.grounded.of_sameBest same pnext,
        invariant.named.of_same same.mapBlockIndex same.files, ?_, ?_⟩, Or.inl sync⟩
      · rw [same.mapBlockIndex, sync]
        exact invariant.current
      · intro strict
        obtain ⟨pindexSync, current, inBest⟩ := invariant.inMainChain strict
        exact ⟨pindexSync, by rw [same.mapBlockIndex, sync]; exact current, same.pindexBest ▸ inBest⟩

/-- From a state with the checkpoint in the main chain, on the main network: each step
leaves the checkpoint or replaces it by a proper descendant; and in the strict mode the
checkpoint is an ancestor of the best block, or that block, in every state reached, and a
block accepted there is a proper descendant of it. -/
theorem sync_checkpoint_moves_forward (mainNet : setup.env.fTestNet = false) (appends : AppendsBlocks setup)
    (grounded : Grounded start.toNode) (named : BlocksNamed setup.env start.toNode)
    (inMainChain : SyncInMainChain start) (run : Relation.ReflTransGen (SyncStep setup) start s) :
    (∀ after, SyncStep setup s after → after.hashSyncCheckpoint = s.hashSyncCheckpoint ∨
        DescendsFrom after.toNode after.hashSyncCheckpoint s.hashSyncCheckpoint) ∧
      (setup.mode = .strict → SyncInMainChain s ∧
        ∀ block after, acceptBlock setup s block = .ok after →
          DescendsFrom after.toNode (block.getHash setup.env) s.hashSyncCheckpoint) := by
  have invariant : SyncInvariant setup s := by
    induction run with
    | refl =>
        obtain ⟨pindexSync, current, below⟩ := inMainChain
        exact ⟨grounded, named, by rw [current]; rfl, fun _ => ⟨pindexSync, current, below⟩⟩
    | tail _ step ih => exact (ih.step mainNet appends step).1
  refine ⟨fun after step => (invariant.step mainNet appends step).2, fun strict =>
    ⟨invariant.inMainChain strict, fun block after accepted => ?_⟩⟩
  exact (acceptBlock_effect mainNet appends invariant.grounded invariant.named (Or.inr accepted)).2 strict
    accepted invariant.current

end Steps

section Concrete

/-- A strict node of the main network that appends every block at one place. -/
def syncSetup : Setup where
  env := Env.labelled false
  policy := .lax
  hashes := stakeHashes
  mode := .strict
  writeToDisk files block :=
    some (⟨1, 9000, DiskBlockPos.first_onDisk⟩,
      { files with
        readBlock := fun nFile nBlockPos =>
          if nFile = 1 ∧ nBlockPos = 9000 then some block else files.readBlock nFile nBlockPos })

def syncRoot : CBlockIndex := .labelled 1 0 0 false 1000 0x1f00ffff

def syncTip : CBlockIndex := .labelled 2 1 0 false 1000 0x1f00ffff

/-- A node on two blocks whose checkpoint is the lower one. -/
def syncStart : SyncNode where
  toNode := { Node.initial ⟨fun _ => none, fun _ _ => none⟩ (fun _ => true) 1000 with
    mapBlockIndex := fun hash =>
      if hash = 1 then some [syncRoot] else if hash = 2 then some [syncTip, syncRoot] else none
    pnext := fun hash => if hash = 1 then some 2 else none
    pindexGenesisBlock := [syncRoot]
    pindexBest := [syncTip, syncRoot]
    hashBestChain := 2 }
  hashSyncCheckpoint := 1
  hashPendingCheckpoint := 0
  hashInvalidCheckpoint := 0

theorem syncStart_grounded : Grounded syncStart.toNode := by
  have lookup : ∀ {hash pindex}, syncStart.mapBlockIndex hash = some pindex →
      (hash = 1 ∧ pindex = [syncRoot]) ∨ (hash = 2 ∧ pindex = [syncTip, syncRoot]) := by
    intro hash pindex found
    simp only [syncStart] at found
    split at found
    · rename_i first
      exact Or.inl ⟨first, (Option.some.inj found).symm⟩
    · split at found
      · rename_i second
        exact Or.inr ⟨second, (Option.some.inj found).symm⟩
      · cases found
  refine ⟨List.cons_ne_nil _ _, ?_, ?_, rfl, ?_⟩
  · intro hash pindex found
    rcases lookup found with ⟨rfl, rfl⟩ | ⟨rfl, rfl⟩
    · rfl
    · rfl
  · intro hash entry prev grand found
    rcases lookup found with ⟨rfl, shape⟩ | ⟨rfl, shape⟩
    · cases shape
    · cases shape
      exact ⟨rfl, rfl⟩
  · intro hash present
    simp only [syncStart] at present
    split at present
    · rename_i first
      rw [first]
      exact List.mem_cons_self
    · cases present

/-- A message for the upper block makes it the checkpoint. -/
theorem sync_checkpoint_moves_up :
    ∃ after, processSyncCheckpoint syncSetup syncStart 2 true = .ok after ∧ after.hashSyncCheckpoint = 2 ∧
      DescendsFrom after.toNode 2 1 ∧ SyncInMainChain syncStart := by
  have appends : AppendsBlocks syncSetup := by
    intro files block pos written appended nFile nBlockPos
    simp only [syncSetup, Option.some.injEq, Prod.mk.injEq] at appended
    obtain ⟨rfl, rfl⟩ := appended
    rfl
  have named : BlocksNamed syncSetup.env syncStart.toNode := by
    intro entry prev grand block found read
    simp [readBlock, Node.readFromDisk, Node.readBlockAt, syncStart, Node.initial] at read
  have inMainChain : SyncInMainChain syncStart := ⟨[syncRoot], rfl, List.suffix_cons _ _⟩
  obtain ⟨forward, strict⟩ := sync_checkpoint_moves_forward rfl appends syncStart_grounded named inMainChain .refl
  obtain ⟨after, processed, sync⟩ : ∃ after, processSyncCheckpoint syncSetup syncStart 2 true = .ok after ∧
      after.hashSyncCheckpoint = 2 := ⟨_, rfl, rfl⟩
  refine ⟨after, processed, sync, ?_, (strict rfl).1⟩
  rcases forward after (.message (Or.inr processed)) with same | descends
  · rw [sync] at same
    cases same
  · rw [← sync]
    exact descends

end Concrete

end InfiniteRicks
