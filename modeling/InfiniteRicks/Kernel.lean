import InfiniteRicks.Block
import Mathlib.Data.List.Sort

/-!
# The stake modifier

`ComputeNextStakeModifier` and the functions below it, from `kernel.cpp`. The
candidates are found along `pprev`, but each is looked up again by its hash in
`mapBlockIndex`. In an index that holds the ancestors under their hashes that lookup
gives the ancestor back, so the modifier is a function of the ancestry.
-/

namespace InfiniteRicks

/-- The hashes that `kernel.cpp` takes of serialized fields. -/
structure KernelHash where
  /-- `Hash` of a proof hash and the previous stake modifier. -/
  selection : UInt256 → UInt64 → UInt256
  /-- `Hash` of the modifier, `nTimeBlockFrom`, `nTxPrevOffset`, `txPrev.nTime`,
  `prevout.n` and `nTimeTx`. -/
  kernel : UInt64 → UInt32 → UInt32 → UInt32 → UInt32 → UInt32 → UInt256
  /-- `Hash` of the previous checksum, if any, the flags, the proof hash of a
  proof-of-stake block and the modifier. -/
  checksum : Option UInt32 → UInt32 → UInt256 → UInt64 → UInt256

/-- `nModifierInterval`, in seconds. -/
def nModifierInterval : Int := 10 * 60

/-- `MODIFIER_INTERVAL_RATIO`. -/
def modifierIntervalRatio : Int := 3

/-- `GetLastStakeModifier`: the modifier and the time it was generated. -/
def getLastStakeModifier : BlockPtr → Option (UInt64 × Int)
  | [] => none
  | [pindex] =>
      if pindex.fGeneratedStakeModifier then some (pindex.nStakeModifier, pindex.getBlockTime) else none
  | pindex :: prev :: rest =>
      if pindex.fGeneratedStakeModifier then some (pindex.nStakeModifier, pindex.getBlockTime)
      else getLastStakeModifier (prev :: rest)

/-- `GetStakeModifierSelectionIntervalSection`. -/
def getStakeModifierSelectionIntervalSection (nSection : Nat) : Int :=
  nModifierInterval * 63 / (63 + (63 - nSection) * (modifierIntervalRatio - 1))

/-- `GetStakeModifierSelectionInterval`. -/
def getStakeModifierSelectionInterval : Int :=
  ((List.range 64).map getStakeModifierSelectionIntervalSection).sum

/-- A time and the hash of a block with that time. -/
abbrev Candidate := Int × UInt256

/-- The order of `pair<int64_t, uint256>`. -/
def Candidate.le (first second : Candidate) : Prop :=
  first.1 < second.1 ∨ (first.1 = second.1 ∧ first.2 ≤ second.2)

instance : DecidableRel Candidate.le := fun first second =>
  inferInstanceAs (Decidable (first.1 < second.1 ∨ (first.1 = second.1 ∧ first.2 ≤ second.2)))

/-- The walk down from a block to the start of the selection interval. -/
def candidates (nSelectionIntervalStart : Int) : BlockPtr → List Candidate
  | [] => []
  | pindex :: pprev =>
      if nSelectionIntervalStart ≤ pindex.getBlockTime then
        (pindex.getBlockTime, pindex.hash) :: candidates nSelectionIntervalStart pprev
      else []

/-- `vSortedByTimestamp` after `reverse` and `sort`. -/
def sortedByTimestamp (nSelectionIntervalStart : Int) (pindexPrev : BlockPtr) : List Candidate :=
  (candidates nSelectionIntervalStart pindexPrev).reverse.insertionSort Candidate.le

/-- The start of the selection interval below a block. -/
def selectionIntervalStart (pindexPrev : CBlockIndex) : Int :=
  pindexPrev.getBlockTime / nModifierInterval * nModifierInterval - getStakeModifierSelectionInterval

section Selection

variable (hashes : KernelHash) (mapBlockIndex : UInt256 → Option BlockPtr)

/-- The selection hash; that of a proof-of-stake block is divided by 2^32. -/
def hashSelection (pindex : CBlockIndex) (nStakeModifierPrev : UInt64) : UInt256 :=
  let hash := hashes.selection pindex.hashProof nStakeModifierPrev
  if pindex.fProofOfStake then hash >>> 32 else hash

/-- The loop of `SelectBlockFromCandidates`, with the selected block and its hash.
`none` is a candidate that is not in `mapBlockIndex`. -/
def selectLoop (mapSelectedBlocks : List UInt256) (nSelectionIntervalStop : Int)
    (nStakeModifierPrev : UInt64) :
    List Candidate → Option (UInt256 × CBlockIndex) → Option (Option (UInt256 × CBlockIndex))
  | [], best => some best
  | item :: rest, best =>
      match mapBlockIndex item.2 with
      | none => none
      | some [] => none
      | some (pindex :: _) =>
          if best.isSome ∧ nSelectionIntervalStop < pindex.getBlockTime then some best
          else if pindex.hash ∈ mapSelectedBlocks then
            selectLoop mapSelectedBlocks nSelectionIntervalStop nStakeModifierPrev rest best
          else
            match best with
            | none =>
                selectLoop mapSelectedBlocks nSelectionIntervalStop nStakeModifierPrev rest
                  (some (hashSelection hashes pindex nStakeModifierPrev, pindex))
            | some (hashBest, pindexSelected) =>
                selectLoop mapSelectedBlocks nSelectionIntervalStop nStakeModifierPrev rest
                  (if hashSelection hashes pindex nStakeModifierPrev < hashBest then
                    some (hashSelection hashes pindex nStakeModifierPrev, pindex)
                  else some (hashBest, pindexSelected))

/-- `SelectBlockFromCandidates`, with the keys of `mapSelectedBlocks`. -/
def selectBlockFromCandidates (vSortedByTimestamp : List Candidate) (mapSelectedBlocks : List UInt256)
    (nSelectionIntervalStop : Int) (nStakeModifierPrev : UInt64) : Option CBlockIndex :=
  match selectLoop hashes mapBlockIndex mapSelectedBlocks nSelectionIntervalStop nStakeModifierPrev
      vSortedByTimestamp none with
  | some (some (_, pindexSelected)) => some pindexSelected
  | _ => none

/-- The modifier under construction and the hashes of the blocks selected for it. -/
structure Selection where
  nStakeModifierNew : UInt64
  mapSelectedBlocks : List UInt256
deriving DecidableEq

/-- The round loop of `ComputeNextStakeModifier`; the error is the round without a
block. -/
def selectRounds (vSortedByTimestamp : List Candidate) (nStakeModifier : UInt64) :
    List Nat → Int → Selection → Except Nat Selection
  | [], _, selection => .ok selection
  | nRound :: rounds, nSelectionIntervalStop, selection =>
      let nSelectionIntervalStop := nSelectionIntervalStop + getStakeModifierSelectionIntervalSection nRound
      match selectBlockFromCandidates hashes mapBlockIndex vSortedByTimestamp selection.mapSelectedBlocks
          nSelectionIntervalStop nStakeModifier with
      | none => .error nRound
      | some pindex =>
          selectRounds vSortedByTimestamp nStakeModifier rounds nSelectionIntervalStop
            { nStakeModifierNew :=
                selection.nStakeModifierNew |||
                  (if pindex.nStakeEntropyBit then 1 else 0) <<< UInt64.ofNat nRound
              mapSelectedBlocks := selection.mapSelectedBlocks ++ [pindex.hash] }

/-- `min(64, (int)vSortedByTimestamp.size())`, as a number of rounds. -/
def roundCount (size : Nat) : Nat := (min 64 (Int32.ofNat size).toInt).toNat

/-- The selection of blocks for a new modifier. -/
def selectBlocks (pindexPrev : CBlockIndex) (pprev : BlockPtr) (nStakeModifier : UInt64) :
    Except Nat Selection :=
  let nSelectionIntervalStart := selectionIntervalStart pindexPrev
  let vSortedByTimestamp := sortedByTimestamp nSelectionIntervalStart (pindexPrev :: pprev)
  selectRounds hashes mapBlockIndex vSortedByTimestamp nStakeModifier
    (List.range (roundCount vSortedByTimestamp.length)) nSelectionIntervalStart ⟨0, []⟩

/-- The error returns of `ComputeNextStakeModifier`. -/
inductive ModifierError where
  /-- "unable to get last modifier". -/
  | lastModifier
  /-- "unable to select block at round". -/
  | selectBlock (nRound : Nat)
deriving DecidableEq

/-- `ComputeNextStakeModifier`: the modifier and whether it was generated. -/
def computeNextStakeModifier : BlockPtr → Except ModifierError (UInt64 × Bool)
  | [] => .ok (0, true)
  | pindexPrev :: pprev =>
      match getLastStakeModifier (pindexPrev :: pprev) with
      | none => .error .lastModifier
      | some (nStakeModifier, nModifierTime) =>
          if pindexPrev.getBlockTime / nModifierInterval ≤ nModifierTime / nModifierInterval then
            .ok (nStakeModifier, false)
          else
            match selectBlocks hashes mapBlockIndex pindexPrev pprev nStakeModifier with
            | .error nRound => .error (.selectBlock nRound)
            | .ok selection => .ok (selection.nStakeModifierNew, true)

end Selection

/-- `CBlockIndex::nFlags`. -/
def CBlockIndex.nFlags (pindex : CBlockIndex) : UInt32 :=
  (if pindex.fProofOfStake then 1 else 0) ||| (if pindex.nStakeEntropyBit then 2 else 0) |||
    (if pindex.fGeneratedStakeModifier then 4 else 0)

/-- `GetStakeModifierChecksum`; the `nStakeModifierChecksum` of the parent is the one that
`AddToBlockIndex` has put there. -/
def getStakeModifierChecksum (hashes : KernelHash) : BlockPtr → UInt32
  | [] => 0
  | pindex :: pprev =>
      let previous := if pprev.isEmpty then none else some (getStakeModifierChecksum hashes pprev)
      let hashChecksum := hashes.checksum previous pindex.nFlags
        (if pindex.fProofOfStake then pindex.hashProof else 0) pindex.nStakeModifier
      UInt32.ofNat (hashChecksum >>> 224).toNat

/-- `CheckStakeModifierCheckpoints`; both networks have the one checkpoint at genesis. -/
def checkStakeModifierCheckpoints (nHeight : Int) (nStakeModifierChecksum : UInt32) : Bool :=
  if nHeight = 0 then nStakeModifierChecksum = 0xfd11f4e7 else true

/-- An index holds a block and its ancestors, each under its hash. -/
def Indexed (mapBlockIndex : UInt256 → Option BlockPtr) (pindex : BlockPtr) : Prop :=
  ∀ entry pprev, entry :: pprev <:+ pindex → mapBlockIndex entry.hash = some (entry :: pprev)

section Lookup

variable {hashes : KernelHash} {mapBlockIndex : UInt256 → Option BlockPtr} {pindexPrev : BlockPtr}

theorem Indexed.tail {entry : CBlockIndex} {pprev : BlockPtr}
    (indexed : Indexed mapBlockIndex (entry :: pprev)) : Indexed mapBlockIndex pprev :=
  fun older rest suffix => indexed older rest (suffix.trans (List.suffix_cons _ _))

/-- The blocks of an indexed chain have different hashes: equal ones would be one
entry at two depths. -/
theorem Indexed.nodup (indexed : Indexed mapBlockIndex pindexPrev) :
    (pindexPrev.map CBlockIndex.hash).Nodup := by
  induction pindexPrev with
  | nil => exact List.nodup_nil
  | cons entry pprev ih =>
      refine List.nodup_cons.mpr ⟨?_, ih indexed.tail⟩
      intro repeated
      obtain ⟨older, member, same⟩ := List.mem_map.mp repeated
      obtain ⟨newer, rest, shape⟩ := List.append_of_mem member
      have below : older :: rest <:+ pprev := ⟨newer, shape.symm⟩
      have first := indexed entry pprev List.suffix_rfl
      have second := indexed older rest (below.trans (List.suffix_cons _ _))
      rw [same, first, Option.some.injEq] at second
      have lengths := congrArg List.length second
      have shorter := below.length_le
      simp only [List.length_cons] at lengths shorter
      omega

/-- The walk stops at some block, and collects those above it. -/
theorem candidates_eq (nSelectionIntervalStart : Int) (pindex : BlockPtr) :
    ∃ above, above <+: pindex ∧ candidates nSelectionIntervalStart pindex =
      above.map fun entry => (entry.getBlockTime, entry.hash) := by
  induction pindex with
  | nil => exact ⟨[], List.prefix_rfl, rfl⟩
  | cons entry pprev ih =>
      by_cases inside : nSelectionIntervalStart ≤ entry.getBlockTime
      · obtain ⟨above, isPrefix, shape⟩ := ih
        refine ⟨entry :: above, (List.prefix_cons_inj entry).mpr isPrefix, ?_⟩
        rw [candidates, if_pos inside, shape, List.map_cons]
      · exact ⟨[], List.nil_prefix, by rw [candidates, if_neg inside, List.map_nil]⟩

theorem sortedByTimestamp_perm (nSelectionIntervalStart : Int) (pindex : BlockPtr) :
    (sortedByTimestamp nSelectionIntervalStart pindex).Perm (candidates nSelectionIntervalStart pindex) :=
  (List.perm_insertionSort _ _).trans (List.reverse_perm _)

/-- Every candidate is an ancestor in the index. -/
theorem Indexed.lookup (indexed : Indexed mapBlockIndex pindexPrev) {nSelectionIntervalStart : Int}
    {item : Candidate} (member : item ∈ sortedByTimestamp nSelectionIntervalStart pindexPrev) :
    ∃ entry pprev, entry :: pprev <:+ pindexPrev ∧ entry.hash = item.2 ∧
      mapBlockIndex item.2 = some (entry :: pprev) := by
  obtain ⟨above, isPrefix, shape⟩ := candidates_eq nSelectionIntervalStart pindexPrev
  rw [(sortedByTimestamp_perm _ _).mem_iff, shape] at member
  obtain ⟨entry, inside, rfl⟩ := List.mem_map.mp member
  obtain ⟨newer, pprev, split⟩ := List.append_of_mem (isPrefix.subset inside)
  have suffix : entry :: pprev <:+ pindexPrev := ⟨newer, split.symm⟩
  exact ⟨entry, pprev, suffix, rfl, indexed entry pprev suffix⟩

theorem Indexed.candidates_nodup (indexed : Indexed mapBlockIndex pindexPrev) (nSelectionIntervalStart : Int) :
    ((sortedByTimestamp nSelectionIntervalStart pindexPrev).map Prod.snd).Nodup := by
  obtain ⟨above, isPrefix, shape⟩ := candidates_eq nSelectionIntervalStart pindexPrev
  have perm := (sortedByTimestamp_perm nSelectionIntervalStart pindexPrev).map Prod.snd
  rw [perm.nodup_iff, shape, List.map_map]
  exact indexed.nodup.sublist (isPrefix.sublist.map _)

end Lookup

section Rounds

variable (hashes : KernelHash) {mapBlockIndex : UInt256 → Option BlockPtr}

/-- Every candidate of a list is in the index under its hash. -/
def Found (mapBlockIndex : UInt256 → Option BlockPtr) (items : List Candidate) : Prop :=
  ∀ item ∈ items, ∃ entry pprev, entry.hash = item.2 ∧ mapBlockIndex item.2 = some (entry :: pprev)

/-- One pass over indexed candidates keeps the selected block or takes a candidate that
was not selected before; it ends without a block only when there is none to take. -/
theorem selectLoop_spec (mapSelectedBlocks : List UInt256) (nSelectionIntervalStop : Int)
    (nStakeModifierPrev : UInt64) {items : List Candidate} (found : Found mapBlockIndex items)
    (best : Option (UInt256 × CBlockIndex)) :
    ∃ result, selectLoop hashes mapBlockIndex mapSelectedBlocks nSelectionIntervalStop nStakeModifierPrev
        items best = some result ∧
      (best.isSome = true ∨ (∃ item ∈ items, item.2 ∉ mapSelectedBlocks) → result.isSome = true) ∧
      ∀ chosen ∈ result, chosen ∈ best ∨
        (chosen.2.hash ∈ items.map Prod.snd ∧ chosen.2.hash ∉ mapSelectedBlocks) := by
  induction items generalizing best with
  | nil =>
      refine ⟨best, rfl, ?_, fun chosen member => Or.inl member⟩
      rintro (some | ⟨item, member, -⟩)
      · exact some
      · cases member
  | cons item rest ih =>
      obtain ⟨entry, pprev, hash, lookup⟩ := found item List.mem_cons_self
      have foundRest : Found mapBlockIndex rest :=
        fun other member => found other (List.mem_cons_of_mem _ member)
      simp only [selectLoop, lookup]
      split
      · rename_i stop
        exact ⟨best, rfl, fun _ => stop.1, fun chosen member => Or.inl member⟩
      split
      · -- A block selected in an earlier round is passed over.
        rename_i selected
        obtain ⟨result, loop, ends, from'⟩ := ih foundRest best
        refine ⟨result, loop, ?_, ?_⟩
        · rintro (some | ⟨other, member, new⟩)
          · exact ends (Or.inl some)
          · rcases List.mem_cons.mp member with rfl | later
            · exact absurd (hash ▸ selected) new
            · exact ends (Or.inr ⟨other, later, new⟩)
        · intro chosen member
          rcases from' chosen member with old | ⟨inside, new⟩
          · exact Or.inl old
          · exact Or.inr ⟨List.mem_cons_of_mem _ inside, new⟩
      · rename_i fresh
        have here : entry.hash ∈ (item :: rest).map Prod.snd := by simp [hash]
        have step : ∀ next : Option (UInt256 × CBlockIndex), next.isSome = true →
            (∀ chosen ∈ next, chosen ∈ best ∨ chosen.2 = entry) →
            ∃ result, selectLoop hashes mapBlockIndex mapSelectedBlocks nSelectionIntervalStop
                nStakeModifierPrev rest next = some result ∧
              (best.isSome = true ∨ (∃ item' ∈ item :: rest, item'.2 ∉ mapSelectedBlocks) →
                result.isSome = true) ∧
              ∀ chosen ∈ result, chosen ∈ best ∨
                (chosen.2.hash ∈ (item :: rest).map Prod.snd ∧ chosen.2.hash ∉ mapSelectedBlocks) := by
          intro next some origin
          obtain ⟨result, loop, ends, from'⟩ := ih foundRest next
          refine ⟨result, loop, fun _ => ends (Or.inl some), ?_⟩
          intro chosen member
          rcases from' chosen member with old | ⟨inside, new⟩
          · rcases origin chosen old with kept | taken
            · exact Or.inl kept
            · exact Or.inr ⟨taken ▸ here, taken ▸ fresh⟩
          · exact Or.inr ⟨List.mem_cons_of_mem _ inside, new⟩
        cases best with
        | none =>
            refine step _ rfl ?_
            rintro chosen ⟨⟩
            exact Or.inr rfl
        | some held =>
            refine step _ (by split <;> rfl) ?_
            intro chosen member
            split at member
            · cases member
              exact Or.inr rfl
            · exact Or.inl member

/-- A round that has a candidate left selects one that was not selected before. -/
theorem selectBlock_fresh {vSortedByTimestamp : List Candidate} {mapSelectedBlocks : List UInt256}
    (found : Found mapBlockIndex vSortedByTimestamp)
    (left : ∃ item ∈ vSortedByTimestamp, item.2 ∉ mapSelectedBlocks) (nSelectionIntervalStop : Int)
    (nStakeModifierPrev : UInt64) :
    ∃ pindex, selectBlockFromCandidates hashes mapBlockIndex vSortedByTimestamp mapSelectedBlocks
        nSelectionIntervalStop nStakeModifierPrev = some pindex ∧
      pindex.hash ∈ vSortedByTimestamp.map Prod.snd ∧ pindex.hash ∉ mapSelectedBlocks := by
  obtain ⟨result, loop, ends, origin⟩ := selectLoop_spec hashes mapSelectedBlocks nSelectionIntervalStop
    nStakeModifierPrev found none
  obtain ⟨chosen, rfl⟩ := Option.isSome_iff_exists.mp (ends (Or.inr left))
  refine ⟨chosen.2, by rw [selectBlockFromCandidates, loop], ?_⟩
  rcases origin chosen rfl with old | new
  · cases old
  · exact new

/-- Fewer selected blocks than candidates leave one to select. -/
theorem exists_unselected {items : List Candidate} {selected : List UInt256}
    (distinct : (items.map Prod.snd).Nodup) (fewer : selected.length < items.length) :
    ∃ item ∈ items, item.2 ∉ selected := by
  by_contra none
  push Not at none
  have inside : items.map Prod.snd ⊆ selected := by
    intro hash member
    obtain ⟨item, isItem, rfl⟩ := List.mem_map.mp member
    exact none item isItem
  have bound := (List.subperm_of_subset distinct inside).length_le
  rw [List.length_map] at bound
  omega

/-- The rounds succeed, and select a new block each, as long as there are no more of
them than candidates. -/
theorem selectRounds_ok {vSortedByTimestamp : List Candidate} (found : Found mapBlockIndex vSortedByTimestamp)
    (distinct : (vSortedByTimestamp.map Prod.snd).Nodup) (nStakeModifier : UInt64) (rounds : List Nat)
    (nSelectionIntervalStop : Int) (selection : Selection) (nodup : selection.mapSelectedBlocks.Nodup)
    (enough : selection.mapSelectedBlocks.length + rounds.length ≤ vSortedByTimestamp.length) :
    ∃ result, selectRounds hashes mapBlockIndex vSortedByTimestamp nStakeModifier rounds
        nSelectionIntervalStop selection = .ok result ∧ result.mapSelectedBlocks.Nodup ∧
      result.mapSelectedBlocks.length = selection.mapSelectedBlocks.length + rounds.length := by
  induction rounds generalizing nSelectionIntervalStop selection with
  | nil => exact ⟨selection, rfl, nodup, rfl⟩
  | cons nRound rounds ih =>
      rw [List.length_cons] at enough
      have left : ∃ item ∈ vSortedByTimestamp, item.2 ∉ selection.mapSelectedBlocks :=
        exists_unselected distinct (by omega)
      obtain ⟨pindex, selects, -, fresh⟩ := selectBlock_fresh hashes found left
        (nSelectionIntervalStop + getStakeModifierSelectionIntervalSection nRound) nStakeModifier
      simp only [selectRounds, selects]
      have distinctNext : (selection.mapSelectedBlocks ++ [pindex.hash]).Nodup := by
        rw [List.nodup_append]
        refine ⟨nodup, List.nodup_singleton _, ?_⟩
        rintro hash member _ (_ | ⟨_, ⟨⟩⟩) rfl
        exact fresh member
      have enoughNext : (selection.mapSelectedBlocks ++ [pindex.hash]).length + rounds.length ≤
          vSortedByTimestamp.length := by
        rw [List.length_append, List.length_singleton]
        omega
      obtain ⟨result, loop, nodupResult, length⟩ := ih _ ⟨_, _⟩ distinctNext enoughNext
      refine ⟨result, loop, nodupResult, ?_⟩
      rw [length, List.length_append, List.length_singleton, List.length_cons]
      omega

theorem roundCount_le (size : Nat) : roundCount size ≤ size := by
  have cast : (Int32.ofNat size).toInt ≤ size := by
    rw [Int32.toInt_ofNat', Int.bmod_def, Int32.size]
    split <;> omega
  rw [roundCount]
  omega

end Rounds

/-- An entry without the place of its block in the files, which differs from node to
node. -/
def CBlockIndex.unplaced (pindex : CBlockIndex) : CBlockIndex :=
  { pindex with nFile := 0, nBlockPos := 0, onDisk := by decide }

/-- What is read of an entry without its place is the same for two such entries. -/
theorem CBlockIndex.eq_of_unplaced {α : Type} (field : CBlockIndex → α) {first second : CBlockIndex}
    (unchanged : ∀ pindex, field (CBlockIndex.unplaced pindex) = field pindex)
    (same : first.unplaced = second.unplaced) : field first = field second := by
  rw [← unchanged first, same, unchanged second]

/-- The same blocks, wherever the two nodes have stored them. -/
def SameBlocks (pindex other : BlockPtr) : Prop :=
  pindex.map CBlockIndex.unplaced = other.map CBlockIndex.unplaced

namespace SameBlocks

variable {entry entryOther : CBlockIndex} {pindex other : BlockPtr}

theorem cons_iff :
    SameBlocks (entry :: pindex) (entryOther :: other) ↔
      entry.unplaced = entryOther.unplaced ∧ SameBlocks pindex other := by
  simp [SameBlocks]

theorem nil_left (same : SameBlocks [] other) : other = [] := by
  simpa [SameBlocks] using same.symm

theorem cons_left (same : SameBlocks (entry :: pindex) other) :
    ∃ entryOther rest, other = entryOther :: rest ∧ entry.unplaced = entryOther.unplaced ∧
      SameBlocks pindex rest := by
  cases other with
  | nil => simp [SameBlocks] at same
  | cons entryOther rest => exact ⟨entryOther, rest, rfl, cons_iff.mp same⟩

/-- A block below one of the two has its counterpart below the other. -/
theorem suffix (same : SameBlocks pindex other) {pprev : BlockPtr} (below : entry :: pprev <:+ pindex) :
    ∃ entryOther rest, entryOther :: rest <:+ other ∧ entry.unplaced = entryOther.unplaced := by
  induction pindex generalizing other with
  | nil => simp at below
  | cons top pindex ih =>
      obtain ⟨topOther, otherRest, rfl, sameTop, sameRest⟩ := same.cons_left
      rcases List.suffix_cons_iff.mp below with equal | deeper
      · obtain ⟨rfl, -⟩ := List.cons.inj equal
        exact ⟨topOther, otherRest, List.suffix_rfl, sameTop⟩
      · obtain ⟨entryOther, rest, suffixRest, sameEntry⟩ := ih sameRest deeper
        exact ⟨entryOther, rest, suffixRest.trans (List.suffix_cons _ _), sameEntry⟩

theorem candidates (same : SameBlocks pindex other) (nSelectionIntervalStart : Int) :
    InfiniteRicks.candidates nSelectionIntervalStart pindex =
      InfiniteRicks.candidates nSelectionIntervalStart other := by
  induction pindex generalizing other with
  | nil => rw [same.nil_left]
  | cons entry pindex ih =>
      obtain ⟨entryOther, rest, rfl, sameEntry, sameRest⟩ := same.cons_left
      have time : entry.getBlockTime = entryOther.getBlockTime :=
        CBlockIndex.eq_of_unplaced CBlockIndex.getBlockTime (fun _ => rfl) sameEntry
      have hash : entry.hash = entryOther.hash := CBlockIndex.eq_of_unplaced CBlockIndex.hash (fun _ => rfl) sameEntry
      rw [InfiniteRicks.candidates, InfiniteRicks.candidates, time, hash, ih sameRest]

theorem getLastStakeModifier (same : SameBlocks pindex other) :
    InfiniteRicks.getLastStakeModifier pindex = InfiniteRicks.getLastStakeModifier other := by
  induction pindex generalizing other with
  | nil => rw [same.nil_left]
  | cons entry pindex ih =>
      obtain ⟨entryOther, rest, rfl, sameEntry, sameRest⟩ := same.cons_left
      have generated : entry.fGeneratedStakeModifier = entryOther.fGeneratedStakeModifier :=
        CBlockIndex.eq_of_unplaced CBlockIndex.fGeneratedStakeModifier (fun _ => rfl) sameEntry
      have modifier : entry.nStakeModifier = entryOther.nStakeModifier :=
        CBlockIndex.eq_of_unplaced CBlockIndex.nStakeModifier (fun _ => rfl) sameEntry
      have time : entry.getBlockTime = entryOther.getBlockTime :=
        CBlockIndex.eq_of_unplaced CBlockIndex.getBlockTime (fun _ => rfl) sameEntry
      cases pindex with
      | nil =>
          rw [sameRest.nil_left, InfiniteRicks.getLastStakeModifier, InfiniteRicks.getLastStakeModifier,
            generated, modifier, time]
      | cons prev deeper =>
          obtain ⟨prevOther, deeperOther, rfl, -, -⟩ := sameRest.cons_left
          rw [InfiniteRicks.getLastStakeModifier, InfiniteRicks.getLastStakeModifier, generated, modifier,
            time, ih sameRest]

end SameBlocks

section Ancestry

variable (hashes : KernelHash) {mapBlockIndex mapOther : UInt256 → Option BlockPtr}

/-- Two indexes find the same block for each candidate. -/
def Agree (mapBlockIndex mapOther : UInt256 → Option BlockPtr) (items : List Candidate) : Prop :=
  ∀ item ∈ items, ∃ entry pprev entryOther pprevOther, mapBlockIndex item.2 = some (entry :: pprev) ∧
    mapOther item.2 = some (entryOther :: pprevOther) ∧ entry.unplaced = entryOther.unplaced

/-- A block with its selection hash, without its place. -/
def chosenBlock (chosen : UInt256 × CBlockIndex) : UInt256 × CBlockIndex := (chosen.1, chosen.2.unplaced)

theorem selectLoop_agree {mapSelectedBlocks : List UInt256} {nSelectionIntervalStop : Int}
    {nStakeModifierPrev : UInt64} {items : List Candidate} (agree : Agree mapBlockIndex mapOther items)
    {best bestOther : Option (UInt256 × CBlockIndex)} (same : best.map chosenBlock = bestOther.map chosenBlock) :
    (selectLoop hashes mapBlockIndex mapSelectedBlocks nSelectionIntervalStop nStakeModifierPrev items
        best).map (Option.map chosenBlock) =
      (selectLoop hashes mapOther mapSelectedBlocks nSelectionIntervalStop nStakeModifierPrev items
        bestOther).map (Option.map chosenBlock) := by
  induction items generalizing best bestOther with
  | nil => simpa [selectLoop] using same
  | cons item rest ih =>
      obtain ⟨entry, pprev, entryOther, pprevOther, lookup, lookupOther, sameEntry⟩ :=
        agree item List.mem_cons_self
      have agreeRest : Agree mapBlockIndex mapOther rest :=
        fun other member => agree other (List.mem_cons_of_mem _ member)
      have time : entry.getBlockTime = entryOther.getBlockTime :=
        CBlockIndex.eq_of_unplaced CBlockIndex.getBlockTime (fun _ => rfl) sameEntry
      have hash : entry.hash = entryOther.hash := CBlockIndex.eq_of_unplaced CBlockIndex.hash (fun _ => rfl) sameEntry
      have selection : hashSelection hashes entry nStakeModifierPrev =
          hashSelection hashes entryOther nStakeModifierPrev :=
        CBlockIndex.eq_of_unplaced (fun pindex => hashSelection hashes pindex nStakeModifierPrev) (fun _ => rfl) sameEntry
      have isSome : best.isSome = bestOther.isSome := by
        simpa using congrArg Option.isSome same
      simp only [selectLoop, lookup, lookupOther, time, hash, isSome]
      split
      · simpa using same
      split
      · exact ih agreeRest same
      rw [selection]
      cases best with
      | none =>
          obtain rfl : bestOther = none := by simpa using same.symm
          exact ih agreeRest (by simp [chosenBlock, sameEntry])
      | some held =>
          cases bestOther with
          | none => cases same
          | some heldOther =>
              rw [Option.map_some, Option.map_some, Option.some.injEq] at same
              obtain ⟨hashBest, sameHeld⟩ := Prod.mk.inj same
              refine ih agreeRest ?_
              rw [hashBest]
              split
              · simp [chosenBlock, sameEntry]
              · simp [chosenBlock, sameHeld]

theorem selectBlock_agree {vSortedByTimestamp : List Candidate}
    (agree : Agree mapBlockIndex mapOther vSortedByTimestamp) (mapSelectedBlocks : List UInt256)
    (nSelectionIntervalStop : Int) (nStakeModifierPrev : UInt64) :
    (selectBlockFromCandidates hashes mapBlockIndex vSortedByTimestamp mapSelectedBlocks
        nSelectionIntervalStop nStakeModifierPrev).map CBlockIndex.unplaced =
      (selectBlockFromCandidates hashes mapOther vSortedByTimestamp mapSelectedBlocks
        nSelectionIntervalStop nStakeModifierPrev).map CBlockIndex.unplaced := by
  have loops : (selectLoop hashes mapBlockIndex mapSelectedBlocks nSelectionIntervalStop
      nStakeModifierPrev vSortedByTimestamp none).map (Option.map chosenBlock) =
      (selectLoop hashes mapOther mapSelectedBlocks nSelectionIntervalStop nStakeModifierPrev
        vSortedByTimestamp none).map (Option.map chosenBlock) := selectLoop_agree hashes agree rfl
  unfold selectBlockFromCandidates
  generalize selectLoop hashes mapBlockIndex mapSelectedBlocks nSelectionIntervalStop nStakeModifierPrev
    vSortedByTimestamp none = first at loops ⊢
  generalize selectLoop hashes mapOther mapSelectedBlocks nSelectionIntervalStop nStakeModifierPrev
    vSortedByTimestamp none = second at loops ⊢
  rcases first with _ | _ | first <;> rcases second with _ | _ | second <;> simp_all [chosenBlock]

theorem selectRounds_agree {vSortedByTimestamp : List Candidate}
    (agree : Agree mapBlockIndex mapOther vSortedByTimestamp) {nStakeModifier : UInt64} {rounds : List Nat}
    {nSelectionIntervalStop : Int} {selection : Selection} :
    selectRounds hashes mapBlockIndex vSortedByTimestamp nStakeModifier rounds nSelectionIntervalStop selection =
      selectRounds hashes mapOther vSortedByTimestamp nStakeModifier rounds nSelectionIntervalStop
        selection := by
  induction rounds generalizing nSelectionIntervalStop selection with
  | nil => rfl
  | cons nRound rounds ih =>
      have chosen := selectBlock_agree hashes agree selection.mapSelectedBlocks
        (nSelectionIntervalStop + getStakeModifierSelectionIntervalSection nRound) nStakeModifier
      simp only [selectRounds]
      split
      · rename_i none
        rw [none] at chosen
        have noneOther := Option.map_eq_none_iff.mp chosen.symm
        rw [noneOther]
      · rename_i pindex some
        rw [some] at chosen
        obtain ⟨pindexOther, someOther, same⟩ := Option.map_eq_some_iff.mp chosen.symm
        have bit : pindexOther.nStakeEntropyBit = pindex.nStakeEntropyBit :=
          CBlockIndex.eq_of_unplaced CBlockIndex.nStakeEntropyBit (fun _ => rfl) same
        have hash : pindexOther.hash = pindex.hash := CBlockIndex.eq_of_unplaced CBlockIndex.hash (fun _ => rfl) same
        simp only [someOther, ih, bit, hash]

/-- The modifier after an indexed block: a block is found in every round and none is
selected twice; and every node that has the ancestors in its index, whatever else is
there, computes the same one. -/
theorem stake_modifier_of_ancestry {pindexPrev pindexOther : BlockPtr}
    (indexed : Indexed mapBlockIndex pindexPrev) (indexedOther : Indexed mapOther pindexOther)
    (shared : SameBlocks pindexPrev pindexOther) :
    (∀ nRound, computeNextStakeModifier hashes mapBlockIndex pindexPrev ≠ .error (.selectBlock nRound)) ∧
      (∀ entry pprev nStakeModifier, pindexPrev = entry :: pprev →
        ∃ selection, selectBlocks hashes mapBlockIndex entry pprev nStakeModifier = .ok selection ∧
          selection.mapSelectedBlocks.Nodup ∧
          selection.mapSelectedBlocks.length =
            roundCount (sortedByTimestamp (selectionIntervalStart entry) pindexPrev).length) ∧
      computeNextStakeModifier hashes mapBlockIndex pindexPrev =
        computeNextStakeModifier hashes mapOther pindexOther := by
  have selects : ∀ entry pprev nStakeModifier, pindexPrev = entry :: pprev →
      ∃ selection, selectBlocks hashes mapBlockIndex entry pprev nStakeModifier = .ok selection ∧
        selection.mapSelectedBlocks.Nodup ∧
        selection.mapSelectedBlocks.length =
          roundCount (sortedByTimestamp (selectionIntervalStart entry) pindexPrev).length := by
    rintro entry pprev nStakeModifier rfl
    have found : Found mapBlockIndex (sortedByTimestamp (selectionIntervalStart entry) (entry :: pprev)) := by
      intro item member
      obtain ⟨ancestor, rest, -, hash, lookup⟩ := indexed.lookup member
      exact ⟨ancestor, rest, hash, lookup⟩
    have enough := roundCount_le (sortedByTimestamp (selectionIntervalStart entry) (entry :: pprev)).length
    obtain ⟨selection, rounds, nodup, length⟩ := selectRounds_ok hashes found
      (indexed.candidates_nodup (selectionIntervalStart entry)) nStakeModifier
      (List.range (roundCount (sortedByTimestamp (selectionIntervalStart entry) (entry :: pprev)).length))
      (selectionIntervalStart entry) ⟨0, []⟩ List.nodup_nil (by simpa using enough)
    exact ⟨selection, rounds, nodup, by simpa using length⟩
  refine ⟨?_, selects, ?_⟩
  · intro nRound
    cases pindexPrev with
    | nil => simp [computeNextStakeModifier]
    | cons entry pprev =>
        rw [computeNextStakeModifier]
        split
        · simp
        split
        · simp
        rename_i nStakeModifier nModifierTime last due
        obtain ⟨selection, rounds, -⟩ := selects entry pprev nStakeModifier rfl
        simp [rounds]
  · cases pindexPrev with
    | nil => rw [shared.nil_left, computeNextStakeModifier, computeNextStakeModifier]
    | cons entry pprev =>
        obtain ⟨entryOther, pprevOther, rfl, sameEntry, -⟩ := shared.cons_left
        have time : entry.getBlockTime = entryOther.getBlockTime :=
          CBlockIndex.eq_of_unplaced CBlockIndex.getBlockTime (fun _ => rfl) sameEntry
        have start : selectionIntervalStart entry = selectionIntervalStart entryOther := by
          rw [selectionIntervalStart, selectionIntervalStart, time]
        have sorted : sortedByTimestamp (selectionIntervalStart entry) (entry :: pprev) =
            sortedByTimestamp (selectionIntervalStart entryOther) (entryOther :: pprevOther) := by
          rw [sortedByTimestamp, sortedByTimestamp, shared.candidates, start]
        have agree : Agree mapBlockIndex mapOther
            (sortedByTimestamp (selectionIntervalStart entryOther) (entryOther :: pprevOther)) := by
          intro item member
          rw [← sorted] at member
          obtain ⟨ancestor, rest, below, hash, lookup⟩ := indexed.lookup member
          obtain ⟨ancestorOther, restOther, belowOther, same⟩ := shared.suffix below
          have hashOther : ancestor.hash = ancestorOther.hash :=
            CBlockIndex.eq_of_unplaced CBlockIndex.hash (fun _ => rfl) same
          have lookupOther := indexedOther ancestorOther restOther belowOther
          rw [← hashOther, hash] at lookupOther
          exact ⟨ancestor, rest, ancestorOther, restOther, lookup, lookupOther, same⟩
        rw [computeNextStakeModifier, computeNextStakeModifier, shared.getLastStakeModifier, time]
        rw [start] at sorted
        simp only [selectBlocks, start, sorted, selectRounds_agree hashes agree]

/-- The tip and the root of a chain whose modifier is due, stored at an offset. -/
def modifierTip (nBlockPos : UInt32) : CBlockIndex :=
  { CBlockIndex.labelled 2 1 0 true 1000 0x1f00ffff with
    nBlockPos := nBlockPos + 500, nStakeEntropyBit := true }

def modifierRoot (nBlockPos : UInt32) : CBlockIndex :=
  { CBlockIndex.labelled 1 0 0 false 100 0x1f00ffff with
    nBlockPos := nBlockPos, fGeneratedStakeModifier := true }

/-- The two blocks, and perhaps one more on a branch. -/
def modifierIndex (nBlockPos : UInt32) (branch : Option BlockPtr) (hash : UInt256) : Option BlockPtr :=
  if hash = 2 then some [modifierTip nBlockPos, modifierRoot nBlockPos]
  else if hash = 1 then some [modifierRoot nBlockPos]
  else if hash = 3 then branch
  else none

theorem modifierIndex_indexed (nBlockPos : UInt32) (branch : Option BlockPtr) :
    Indexed (modifierIndex nBlockPos branch) [modifierTip nBlockPos, modifierRoot nBlockPos] := by
  intro entry pprev suffix
  simp only [List.suffix_cons_iff, List.suffix_nil, List.cons.injEq, reduceCtorEq, or_false] at suffix
  rcases suffix with ⟨rfl, rfl⟩ | ⟨rfl, rfl⟩
  · rfl
  · rfl

/-- A node that knows a further branch generates the same modifier, from both
blocks. -/
theorem stake_modifier_of_ancestry_branch :
    (∃ selection, selectBlocks ⟨fun hashProof _ => hashProof, fun _ _ _ _ _ _ => 0, fun _ _ _ _ => 0⟩
        (modifierIndex 8 none) (modifierTip 8) [modifierRoot 8] 0 = .ok selection ∧
      selection.mapSelectedBlocks.Nodup ∧ selection.mapSelectedBlocks.length = 2) ∧
    computeNextStakeModifier ⟨fun hashProof _ => hashProof, fun _ _ _ _ _ _ => 0, fun _ _ _ _ => 0⟩ (modifierIndex 8 none)
        [modifierTip 8, modifierRoot 8] =
      computeNextStakeModifier ⟨fun hashProof _ => hashProof, fun _ _ _ _ _ _ => 0, fun _ _ _ _ => 0⟩
        (modifierIndex 9000 (some [.labelled 3 1 0 false 1100 0x1f00ffff, modifierRoot 9000]))
        [modifierTip 9000, modifierRoot 9000] := by
  have rounds : roundCount (sortedByTimestamp (selectionIntervalStart (modifierTip 8))
      [modifierTip 8, modifierRoot 8]).length = 2 := by decide +kernel
  obtain ⟨-, selects, same⟩ := stake_modifier_of_ancestry
    ⟨fun hashProof _ => hashProof, fun _ _ _ _ _ _ => 0, fun _ _ _ _ => 0⟩ (modifierIndex_indexed 8 none)
    (modifierIndex_indexed 9000 (some [.labelled 3 1 0 false 1100 0x1f00ffff, modifierRoot 9000])) rfl
  obtain ⟨selection, succeeds, nodup, length⟩ := selects _ _ 0 rfl
  exact ⟨⟨selection, succeeds, nodup, length.trans rounds⟩, same⟩

end Ancestry

end InfiniteRicks
