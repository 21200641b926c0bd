import InfiniteRicks.OrphanSpec

/-!
# The stakes of the held blocks

`setStakeSeenOrphan` is meant to be the set of the stakes of the held proof-of-stake
blocks. A stake may be repeated by a block that has an orphan child, and then the set has
one copy of it for two held blocks: the release of one takes it away from the other.
-/

namespace InfiniteRicks

/-- `setStakeSeenOrphan` has the stakes of the held proof-of-stake blocks and no others. -/
def StakesSeen (env : Env) (s : OrphanNode) : Prop :=
  ∀ stake, stake ∈ s.setStakeSeenOrphan ↔
    ∃ block, s.Holds env block ∧ block.isProofOfStake = true ∧ block.getProofOfStake = stake

/-- A held block waits for a hash, as the child of the block with this hash or of a held
block that waits for it. -/
inductive Waits (env : Env) (s : OrphanNode) (hash : UInt256) : CBlock → Prop
  | child {block : CBlock} : s.Holds env block → block.hashPrevBlock = hash → Waits env s hash block
  | through {parent block : CBlock} : Waits env s hash parent → s.Holds env block →
      block.hashPrevBlock = parent.getHash env → Waits env s hash block

/-- No held block that waits for the received one shares its stake with another held
block. -/
def UnsharedStakes (env : Env) (s : OrphanNode) (received : CBlock) : Prop :=
  ∀ waiting other, Waits env s (received.getHash env) waiting → s.Holds env other →
    waiting.isProofOfStake = true → other.isProofOfStake = true →
    other.getProofOfStake = waiting.getProofOfStake → other = waiting

section Stakes

variable {setup : Setup} {s after : OrphanNode} {block : CBlock}

theorem getProofOfStake_of_work (work : block.isProofOfStake = false) :
    block.getProofOfStake = (COutPoint.null, 0) := by
  have none : block.coinStake = none := by
    simp only [CBlock.isProofOfStake] at work
    simp only [CBlock.coinStake]
    split
    · rename_i coinbase tx rest shape
      simp only [shape] at work
      rw [if_neg (by rw [work]; exact Bool.false_ne_true)]
    · rfl
  rw [CBlock.getProofOfStake, none]

/-- A coinstake spends a real output. -/
theorem getProofOfStake_not_null (stake : block.isProofOfStake = true) :
    block.getProofOfStake.1.isNull = false := by
  simp only [CBlock.isProofOfStake] at stake
  split at stake
  · rename_i coinbase tx rest shape
    simp only [CBlock.getProofOfStake, CBlock.coinStake, shape, stake, if_true]
    simp only [CTransaction.isCoinStake] at stake
    split at stake
    · rename_i txin vin txout second vout inputs outputs
      simp only [Bool.and_eq_true, Bool.not_eq_true'] at stake
      rw [inputs]
      exact stake.1
    · cases stake
  · cases stake

/-- A proof-of-stake block shares its stake with no proof-of-work block. -/
theorem getProofOfStake_ne {other : CBlock} (stake : block.isProofOfStake = true)
    (work : other.isProofOfStake = false) : other.getProofOfStake ≠ block.getProofOfStake := by
  intro same
  have real := getProofOfStake_not_null stake
  rw [← same, getProofOfStake_of_work work] at real
  cases real

theorem StakesSeen.hold {env : Env} (seen : StakesSeen env s) (new : block.getHash env ∉ s.mapOrphanBlocks) :
    StakesSeen env (s.hold env block) := by
  intro stake
  simp only [holds_hold new]
  have before := seen stake
  simp only [OrphanNode.hold]
  split
  · rename_i proof
    rw [List.mem_insert_iff, before]
    constructor
    · rintro (rfl | ⟨other, held, isStake, same⟩)
      · exact ⟨block, Or.inl rfl, proof, rfl⟩
      · exact ⟨other, Or.inr held, isStake, same⟩
    · rintro ⟨other, rfl | held, isStake, same⟩
      · exact Or.inl same.symm
      · exact Or.inr ⟨other, held, isStake, same⟩
  · rename_i work
    rw [before]
    constructor
    · rintro ⟨other, held, isStake, same⟩
      exact ⟨other, Or.inr held, isStake, same⟩
    · rintro ⟨other, rfl | held, isStake, same⟩
      · exact absurd isStake work
      · exact ⟨other, held, isStake, same⟩

/-- A turn of the work queue whose blocks share their stakes with no other held block. -/
theorem StakesSeen.turn {hashPrev : UInt256} {vWorkQueue : List UInt256} {next : OrphanNode × List UInt256}
    (seen : StakesSeen setup.env s) (turned : Turned setup.env s hashPrev vWorkQueue next)
    (unshared : ∀ waiting other, s.Holds setup.env waiting → waiting.hashPrevBlock = hashPrev →
      s.Holds setup.env other → waiting.isProofOfStake = true → other.isProofOfStake = true →
      other.getProofOfStake = waiting.getProofOfStake → other = waiting) :
    StakesSeen setup.env next.1 := by
  intro stake
  rw [turned.stakes, seen]
  simp only [turned.holds]
  constructor
  · rintro ⟨⟨other, held, isStake, same⟩, kept⟩
    exact ⟨other, ⟨held, fun waits => kept other held waits same⟩, isStake, same⟩
  · rintro ⟨other, ⟨held, notWaiting⟩, isStake, same⟩
    refine ⟨⟨other, held, isStake, same⟩, ?_⟩
    intro waiting heldToo waits equal
    cases proof : waiting.isProofOfStake with
    | true =>
        rw [unshared waiting other heldToo waits held proof isStake (same.trans equal.symm)] at notWaiting
        exact notWaiting waits
    | false => exact getProofOfStake_ne isStake proof (equal.trans same.symm)

/-- The release of blocks that all wait for the received one in an earlier state. -/
theorem StakesSeen.releaseOrphans {origin : OrphanNode} {received : CBlock} {fuel : Nat}
    {vWorkQueue : List UInt256} (unshared : UnsharedStakes setup.env origin received)
    (mirrored : Mirrored setup.env s) (seen : StakesSeen setup.env s)
    (older : ∀ block, s.Holds setup.env block → origin.Holds setup.env block)
    (queued : ∀ hash ∈ vWorkQueue, hash = received.getHash setup.env ∨
      ∃ parent, Waits setup.env origin (received.getHash setup.env) parent ∧ parent.getHash setup.env = hash) :
    StakesSeen setup.env (InfiniteRicks.releaseOrphans setup fuel vWorkQueue s) := by
  induction fuel generalizing s vWorkQueue with
  | zero => exact seen
  | succ fuel ih =>
      cases vWorkQueue with
      | nil => exact seen
      | cons hashPrev vWorkQueue =>
          have turned := mirrored.turn hashPrev vWorkQueue
          have waits : ∀ block, s.Holds setup.env block → block.hashPrevBlock = hashPrev →
              Waits setup.env origin (received.getHash setup.env) block := by
            intro block held named
            rcases queued hashPrev List.mem_cons_self with rfl | ⟨parent, waitsParent, rfl⟩
            · exact .child (older block held) named
            · exact .through waitsParent (older block held) named
          rw [releaseOrphans_cons]
          refine ih turned.mirrored ?_ ?_ ?_
          · refine seen.turn turned ?_
            intro waiting other held named heldOther proof proofOther same
            exact unshared waiting other (waits waiting held named) (older other heldOther) proof proofOther same
          · intro block held
            exact older block ((turned.holds block).mp held).1
          · intro hash member
            rcases turned.queued hash member with before | ⟨block, held, named, same⟩
            · exact queued hash (List.mem_cons_of_mem _ before)
            · exact Or.inr ⟨block, waits block held named, same⟩

theorem StakesSeen.process (mirrored : Mirrored setup.env s) (seen : StakesSeen setup.env s)
    (unshared : UnsharedStakes setup.env s block) (processes : Processes setup s block after) :
    StakesSeen setup.env after := by
  have accepted : ∀ block, StakesSeen setup.env (s.acceptBlock setup block).1 ∧
      ∀ other, (s.acceptBlock setup block).1.Holds setup.env other → s.Holds setup.env other := by
    intro block
    obtain ⟨node, accepted, called, -⟩ := s.acceptBlock_cases setup block
    rw [called]
    exact ⟨seen, fun other held => held⟩
  rcases processBlock_cases processes with rfl | ⟨new, -, rfl⟩ | ⟨-, -, rfl⟩ | ⟨-, -, node, -, rfl⟩
  · exact seen
  · exact seen.hold new
  · exact (accepted block).1
  · refine StakesSeen.releaseOrphans unshared mirrored.acceptBlock (accepted block).1 (accepted block).2 ?_
    intro hash member
    exact Or.inl (List.mem_singleton.mp member)

/-- In every run whose received blocks release no stake that another held block has,
`setStakeSeenOrphan` is the set of the stakes of the held proof-of-stake blocks. -/
theorem orphan_stakes_seen (run : OrphanRun setup (UnsharedStakes setup.env) s) : StakesSeen setup.env s := by
  induction run with
  | start node =>
      intro stake
      constructor
      · intro member
        cases member
      · rintro ⟨block, held, -⟩
        cases held
  | call before unshared processes seen => exact seen.process (.of_run before) unshared processes
  | outside node _ _ seen => exact seen

end Stakes

section Concrete

/-- A block that stakes one fixed output. -/
def stakedOrphan (label : UInt32) (hashPrevBlock : UInt256) : CBlock :=
  .labelled label hashPrevBlock 1200 0x1e0fffff
    [.labelledCoinBase (100 + label) 1200 [0x52, 0] [⟨0, []⟩],
      { CTransaction.labelledSpend (200 + label) 1200 ⟨7, 0⟩ 0 with vout := [⟨0, []⟩, ⟨coin, [0x51]⟩] }]

/-- A child of the second of two blocks with one stake, which lets that block in. -/
def stakedChild : CBlock :=
  .labelled 13 12 1300 0x1f00ffff [.labelledCoinBase 113 1300 [0x53, 0] [⟨1000 * coin, [0x51]⟩]]

def orphanCalls (blocks : List CBlock) : OrphanNode :=
  blocks.foldl (fun s block => afterCall (processBlock orphanSetup s block false)) orphanStart

theorem OrphanRun.snoc {meets : OrphanNode → CBlock → Prop} {blocks : List CBlock} {block : CBlock}
    (run : OrphanRun orphanSetup meets (orphanCalls blocks)) (meet : meets (orphanCalls blocks) block) :
    OrphanRun orphanSetup meets (orphanCalls (blocks ++ [block])) := by
  have last : orphanCalls (blocks ++ [block]) =
      afterCall (processBlock orphanSetup (orphanCalls blocks) block false) := by
    rw [orphanCalls, List.foldl_append]
    rfl
  rw [last]
  exact .call run meet (processes_afterCall _ _ _)

theorem orphanRun_calls (blocks : List CBlock) : OrphanRun orphanSetup (fun _ _ => True) (orphanCalls blocks) := by
  induction blocks using List.reverseRecOn with
  | nil => exact .start _
  | append_singleton blocks block ih => exact ih.snoc trivial

/-- Two blocks with one stake are held, and the parent of the first is accepted: the stake
is gone from the set while the second is still held. -/
theorem released_stake_forgotten :
    ∃ s, OrphanRun orphanSetup (fun _ _ => True) s ∧ ¬StakesSeen orphanSetup.env s := by
  refine ⟨orphanCalls [stakedOrphan 11 1, stakedChild, stakedOrphan 12 99, orphanParent (1000 * coin)],
    orphanRun_calls _, ?_⟩
  intro seen
  have member := (seen (stakedOrphan 12 99).getProofOfStake).mpr
    ⟨stakedOrphan 12 99, by decide +kernel, rfl, rfl⟩
  revert member
  decide +kernel

/-- One held block with its stake, and then its parent: the stake is forgotten with it. -/
theorem released_stake_unshared :
    StakesSeen orphanSetup.env (orphanCalls [stakedOrphan 11 1, orphanParent (1000 * coin)]) ∧
      (orphanCalls [stakedOrphan 11 1]).setStakeSeenOrphan = [(stakedOrphan 11 1).getProofOfStake] := by
  have entries : (orphanCalls [stakedOrphan 11 1]).mapOrphanBlocks.entries = [⟨11, stakedOrphan 11 1⟩] := by
    decide +kernel
  have only : ∀ block, (orphanCalls [stakedOrphan 11 1]).Holds orphanSetup.env block →
      block = stakedOrphan 11 1 := by
    intro block holds
    have member := AList.mem_lookup_iff.mp holds
    rw [entries, List.mem_singleton, Sigma.mk.injEq] at member
    exact eq_of_heq member.2
  have start : OrphanRun orphanSetup (UnsharedStakes orphanSetup.env) (orphanCalls []) := .start _
  have first : OrphanRun orphanSetup (UnsharedStakes orphanSetup.env) (orphanCalls [stakedOrphan 11 1]) := by
    refine start.snoc ?_
    intro waiting other _ holds
    cases holds
  refine ⟨orphan_stakes_seen (first.snoc ?_), by decide +kernel⟩
  intro waiting other waits holds _ _ _
  have waitingHolds : (orphanCalls [stakedOrphan 11 1]).Holds orphanSetup.env waiting := by
    cases waits with
    | child held _ => exact held
    | through _ held _ => exact held
  rw [only waiting waitingHolds]
  exact only other holds

end Concrete

end InfiniteRicks
