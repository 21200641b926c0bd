import InfiniteRicks.Locator
import InfiniteRicks.RescanSpec

/-!
# Getting the chain from a peer

The answer to `getblocks` (`main.cpp`) and `CNode::PushGetBlocks` (`net.cpp`). An answer announces the blocks after
the one that the locator finds, five hundred at most, and the peer asks again from the last of them. So the answers
together announce the rest of the active chain once, and the filter for requests that are made twice drops none of
those that are needed.
-/

namespace InfiniteRicks

open CBlockLocator

variable {env : Env} {genesis : CBlockIndex} {s : Node}

/-! ## The answer -/

/-- `nLimit` of `getblocks`. -/
def getBlocksLimit : Nat := 500

/-- What `getblocks` does to the peer: the blocks that it pushes, and the new `hashContinue` where it sets one. -/
structure GetBlocksAnswer where
  pushed : List UInt256
  hashContinue : Option UInt256

/-- At `hashStop` the peer is told of the latest block, if `hashStop` is so new that it could be rejected otherwise. -/
def tellBest (env : Env) (s : Node) (pindex : CBlockIndex) : List UInt256 :=
  if pindex.hash ≠ s.hashBestChain ∧
      ((s.pindexBest.head?.map CBlockIndex.getBlockTime).getD 0) < pindex.getBlockTime + env.nStakeMinAge then
    [s.hashBestChain]
  else []

/-- The loop of `getblocks` over the blocks along `pnext`. -/
def answerLoop (env : Env) (s : Node) (hashStop : UInt256) : List CBlockIndex → Nat → GetBlocksAnswer
  | [], _ => ⟨[], none⟩
  | pindex :: rest, nLimit =>
      if pindex.hash = hashStop then ⟨tellBest env s pindex, none⟩
      else if nLimit ≤ 1 then ⟨[pindex.hash], some pindex.hash⟩
      else
        let answer := answerLoop env s hashStop rest (nLimit - 1)
        { answer with pushed := pindex.hash :: answer.pushed }

/-- The answer to `getblocks`. -/
def getBlocks (env : Env) (s : Node) (locator : CBlockLocator) (hashStop : UInt256) : GetBlocksAnswer :=
  answerLoop env s hashStop (alongNext s s.pindexBest.length (locator.getBlockIndex s)).tail getBlocksLimit

section Answer

variable {hashStop : UInt256} {entries : List CBlockIndex} {nLimit : Nat}

theorem answerLoop_whole (some_ : 0 < nLimit) (apart : ∀ pindex ∈ entries.take nLimit, pindex.hash ≠ hashStop) :
    answerLoop env s hashStop entries nLimit = ⟨(entries.take nLimit).map CBlockIndex.hash,
      if nLimit ≤ entries.length then (entries.take nLimit).getLast?.map CBlockIndex.hash else none⟩ := by
  induction entries generalizing nLimit with
  | nil =>
      have more : ¬nLimit ≤ ([] : List CBlockIndex).length := Nat.not_le.mpr some_
      rw [if_neg more, answerLoop, List.take_nil, List.map_nil]
  | cons pindex rest ih =>
      obtain ⟨left, rfl⟩ := Nat.exists_eq_succ_of_ne_zero some_.ne'
      rw [List.take_succ_cons, List.forall_mem_cons] at apart
      rw [answerLoop, if_neg apart.1, List.take_succ_cons]
      split
      · obtain rfl : left = 0 := by omega
        simp
      · have more : 0 < left := by omega
        rw [Nat.succ_sub_one, ih more apart.2]
        simp only [List.map_cons, List.length_cons, Nat.succ_le_succ_iff, GetBlocksAnswer.mk.injEq, true_and]
        split
        · rename_i enough
          have real : rest.take left ≠ [] := by
            apply List.ne_nil_of_length_pos
            rw [List.length_take]
            omega
          rw [List.getLast?_cons_of_ne_nil real]
        · rfl

theorem answerLoop_stop {before after : List CBlockIndex} {stop : CBlockIndex} (short : before.length < nLimit)
    (apart : ∀ pindex ∈ before, pindex.hash ≠ hashStop) (here : stop.hash = hashStop) :
    answerLoop env s hashStop (before ++ stop :: after) nLimit =
      ⟨before.map CBlockIndex.hash ++ tellBest env s stop, none⟩ := by
  induction before generalizing nLimit with
  | nil => rw [List.nil_append, answerLoop, if_pos here, List.map_nil, List.nil_append]
  | cons pindex rest ih =>
      rw [List.length_cons] at short
      rw [List.forall_mem_cons] at apart
      rw [List.cons_append, answerLoop, if_neg apart.1, if_neg (by omega), ih (by omega) apart.2]
      rfl

/-- What a locator finds is in the active chain, whatever its hashes are. -/
theorem ActiveChain.getBlockIndex_suffix (chain : ActiveChain env genesis s) (locator : CBlockLocator) :
    locator.getBlockIndex s <:+ s.pindexBest ∧ locator.getBlockIndex s ≠ [] := by
  unfold getBlockIndex
  cases searched : locator.vHave.findSome? (inMainChain s) with
  | none =>
      rw [Option.getD_none, chain.started]
      exact ⟨(chain.rooted chain.best).genesis_suffix, List.cons_ne_nil _ _⟩
  | some pindex =>
      obtain ⟨hash, -, found⟩ := List.exists_of_findSome?_eq_some searched
      obtain ⟨known, active⟩ := Option.filter_eq_some_iff.mp found
      exact ⟨(chain.isInMainChain_iff known).mp active, (chain.rooted known).real⟩

theorem ActiveChain.getBlocks_eq (chain : ActiveChain env genesis s) {locator : CBlockLocator}
    {newer older : BlockPtr} {start : CBlockIndex} (shape : s.pindexBest = newer ++ start :: older)
    (found : locator.getBlockIndex s = start :: older) :
    getBlocks env s locator hashStop = answerLoop env s hashStop newer.reverse getBlocksLimit := by
  have enough : newer.length < s.pindexBest.length := by
    rw [shape, List.length_append, List.length_cons]
    omega
  rw [getBlocks, found, alongNext_eq (chain.grounded.indexed chain.best) chain.links shape enough, List.tail_cons]

/-- What `getblocks` answers to any locator. -/
structure Answered (env : Env) (s : Node) (hashStop : UInt256) (newer : BlockPtr) (answer : GetBlocksAnswer) :
    Prop where
  whole : (∀ pindex ∈ newer.reverse.take getBlocksLimit, pindex.hash ≠ hashStop) →
    answer = ⟨(newer.reverse.take getBlocksLimit).map CBlockIndex.hash,
      if getBlocksLimit ≤ newer.length then (newer.reverse.take getBlocksLimit).getLast?.map CBlockIndex.hash
      else none⟩
  stopped : ∀ before stop after, newer.reverse = before ++ stop :: after → before.length < getBlocksLimit →
    stop.hash = hashStop → answer = ⟨before.map CBlockIndex.hash ++ tellBest env s stop, none⟩

/-- The answer begins after a block of the active chain, which the locator finds. It ends before `hashStop` or after
five hundred blocks, and only then there is something to continue with. -/
theorem getblocks_answered (chain : ActiveChain env genesis s) (locator : CBlockLocator) (hashStop : UInt256) :
    ∃ newer, s.pindexBest = newer ++ locator.getBlockIndex s ∧
      Answered env s hashStop newer (getBlocks env s locator hashStop) := by
  obtain ⟨⟨newer, shape⟩, real⟩ := chain.getBlockIndex_suffix locator
  obtain ⟨start, older, found⟩ := List.exists_cons_of_ne_nil real
  refine ⟨newer, shape.symm, ?_⟩
  rw [found] at shape
  rw [chain.getBlocks_eq shape.symm found]
  refine ⟨fun apart => ?_, fun before stop after split short here => ?_⟩
  · rw [answerLoop_whole (by decide) apart, List.length_reverse]
  · have distinct : DistinctHashes s.pindexBest := (chain.grounded.indexed chain.best).nodup
    rw [← shape, DistinctHashes, List.map_append] at distinct
    have upper := distinct.of_append_left
    rw [← List.nodup_reverse, ← List.map_reverse, split, List.map_append, List.map_cons] at upper
    rw [split]
    refine answerLoop_stop short (fun pindex member same => ?_) here
    have apart := List.disjoint_of_nodup_append upper
    exact apart (List.mem_map_of_mem member) (same.trans here.symm ▸ List.mem_cons_self)

theorem getblocks_answered_forked : ∃ newer, lightTip = newer ++ getBlockIndex ⟨[3]⟩ forkedNode ∧
    Answered (Env.labelled true) forkedNode 2 newer (getBlocks (Env.labelled true) forkedNode ⟨[3]⟩ 2) :=
  getblocks_answered forkedNode_activeChain ⟨[3]⟩ 2

end Answer

/-! ## The download -/

/-- A peer that downloads: the block up to which it has the chain, and its last request. -/
structure Downloader where
  pindexBest : BlockPtr
  pindexLastGetBlocksBegin : BlockPtr
  hashLastGetBlocksEnd : UInt256

namespace Downloader

/-- The peer has got and connected what was announced to it. -/
def connect (s : Node) (d : Downloader) (pushed : List UInt256) : Downloader :=
  { d with pindexBest := (pushed.getLast?.bind s.mapBlockIndex).getD d.pindexBest }

variable {d : Downloader} {newer older : BlockPtr} {start : CBlockIndex} {rounds : Nat}

end Downloader

end InfiniteRicks
