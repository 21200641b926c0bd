import InfiniteRicks.Block
import Mathlib.Algebra.Order.Ring.Int
import Mathlib.Data.List.Sort
import Mathlib.Tactic.Positivity

/-!
# Difficulty

The retarget rules `GetNextTargetRequiredV1` and `V2`, the doubling envelope
`ComputeMaxBits`, and the flood check of `ProcessBlock` that compares the two.
`getNextTargetRequired_eq` reduces both rules to one number, the retargeted
target before `GetCompact`; the two main results say exactly on which chains the
required target is a usable one, and which honest blocks the flood check lets
through.
-/

namespace InfiniteRicks

open CBigNum

/-- `nTargetSpacing`, in seconds. -/
def nTargetSpacing : Int := 2 * 60

/-- `nTargetTimespan`, in seconds. -/
def nTargetTimespan : Int := 16 * 60

/-- `LAST_POW_BLOCK`. -/
def lastPowBlock : Int := 3000

/-- The limit of a proof type: `fProofOfStake ? bnProofOfStakeLimit : bnProofOfWorkLimit`. -/
def bnTargetLimit (env : Env) (fProofOfStake : Bool) : Int :=
  if fProofOfStake then Env.bnProofOfStakeLimit else env.bnProofOfWorkLimit

/-- `GetLastBlockIndex`. -/
def getLastBlockIndex : BlockPtr → Bool → BlockPtr
  | [], _ => []
  | [pindex], _ => [pindex]
  | pindex :: prev :: rest, fProofOfStake =>
      if pindex.fProofOfStake ≠ fProofOfStake then getLastBlockIndex (prev :: rest) fProofOfStake
      else pindex :: prev :: rest

/-- The exponential move toward the target spacing that both rules make. -/
def retarget (bnTarget nActualSpacing : Int) : Int :=
  let nInterval := nTargetTimespan / nTargetSpacing
  (bnTarget * ((nInterval - 1) * nTargetSpacing + nActualSpacing + nActualSpacing)).tdiv
    ((nInterval + 1) * nTargetSpacing)

/-- `GetNextTargetRequiredV1`. -/
def getNextTargetRequiredV1 (env : Env) (pindexLast : BlockPtr) (fProofOfStake : Bool) : UInt32 :=
  let limit := bnTargetLimit env fProofOfStake
  match getLastBlockIndex pindexLast fProofOfStake with
  | [] => getCompact limit
  | [_] => getCompact limit
  | pindexPrev :: pprev =>
      match getLastBlockIndex pprev fProofOfStake with
      | [] => getCompact limit
      | [_] => getCompact limit
      | pindexPrevPrev :: _ =>
          let nActualSpacing := pindexPrev.getBlockTime - pindexPrevPrev.getBlockTime
          let bnNew := retarget (setCompact pindexPrev.nBits) nActualSpacing
          getCompact (if limit < bnNew then limit else bnNew)

/-- `GetNextTargetRequiredV2`: a negative spacing counts as the target spacing, and
a target that is not positive becomes the limit. -/
def getNextTargetRequiredV2 (env : Env) (pindexLast : BlockPtr) (fProofOfStake : Bool) : UInt32 :=
  let limit := bnTargetLimit env fProofOfStake
  match getLastBlockIndex pindexLast fProofOfStake with
  | [] => getCompact limit
  | [_] => getCompact limit
  | pindexPrev :: pprev =>
      match getLastBlockIndex pprev fProofOfStake with
      | [] => getCompact limit
      | [_] => getCompact limit
      | pindexPrevPrev :: _ =>
          let nActualSpacing := pindexPrev.getBlockTime - pindexPrevPrev.getBlockTime
          let nActualSpacing := if nActualSpacing < 0 then nTargetSpacing else nActualSpacing
          let bnNew := retarget (setCompact pindexPrev.nBits) nActualSpacing
          getCompact (if bnNew ≤ 0 ∨ limit < bnNew then limit else bnNew)

/-- `GetNextTargetRequired`, for an entry and its ancestors. -/
def getNextTargetRequired (env : Env) (pindexLast : CBlockIndex) (pprev : BlockPtr)
    (fProofOfStake : Bool) : UInt32 :=
  if pindexLast.nHeight < 10000 then getNextTargetRequiredV1 env (pindexLast :: pprev) fProofOfStake
  else getNextTargetRequiredV2 env (pindexLast :: pprev) fProofOfStake

/-- `CBlockIndex::GetMedianTimePast`, which is `GetPastTimeLimit`. -/
def getMedianTimePast (pindex : BlockPtr) : Int :=
  let times := ((pindex.take 11).map CBlockIndex.getBlockTime).insertionSort (· ≤ ·)
  times.getD (times.length / 2) 0

/-- The timestamp rule of `AcceptBlock` against the previous entry. -/
def checkTimeAgainstPrev (nTime : Int) (pindexPrev : CBlockIndex) (pprev : BlockPtr) : Bool :=
  !(nTime ≤ getMedianTimePast (pindexPrev :: pprev) || futureDrift nTime < pindexPrev.getBlockTime)

/-- A chain built under the height, `nBits` and timestamp rules of `AcceptBlock`
from the genesis entry. -/
def BuiltChain (env : Env) : BlockPtr → Prop
  | [] => False
  | [genesis] =>
      genesis.nHeight = 0 ∧ genesis.fProofOfStake = false ∧
        genesis.nBits = getCompact env.bnProofOfWorkLimit
  | pindex :: prev :: grand =>
      BuiltChain env (prev :: grand) ∧ pindex.nHeight = prev.nHeight + 1 ∧
        (pindex.fProofOfStake = false → pindex.nHeight ≤ lastPowBlock) ∧
        pindex.nBits = getNextTargetRequired env prev grand pindex.fProofOfStake ∧
        checkTimeAgainstPrev pindex.getBlockTime prev grand = true

instance BuiltChain.decidable (env : Env) : ∀ chain, Decidable (BuiltChain env chain)
  | [] => .isFalse id
  | [_] => inferInstanceAs (Decidable (_ ∧ _))
  | _ :: prev :: grand =>
      have := BuiltChain.decidable env (prev :: grand)
      inferInstanceAs (Decidable (_ ∧ _))

/-- The loop of `ComputeMaxBits`; the fuel is the remaining time, which falls by a
day each round. -/
def doubleDaily (limit : Int) : Nat → Int → Int → Int
  | 0, bnResult, _ => bnResult
  | fuel + 1, bnResult, nTime =>
      if 0 < nTime ∧ bnResult < limit then doubleDaily limit fuel (bnResult * 2) (nTime - 24 * 60 * 60)
      else bnResult

/-- `ComputeMaxBits`. -/
def computeMaxBits (limit : Int) (nBase : UInt32) (nTime : Int) : UInt32 :=
  let bnResult := doubleDaily limit nTime.toNat (setCompact nBase * 2) nTime
  getCompact (if limit < bnResult then limit else bnResult)

/-- `ComputeMinWork`. -/
def computeMinWork (env : Env) (nBase : UInt32) (nTime : Int) : UInt32 :=
  computeMaxBits env.bnProofOfWorkLimit nBase nTime

/-- `ComputeMinStake`. -/
def computeMinStake (nBase : UInt32) (nTime : Int) : UInt32 :=
  computeMaxBits Env.bnProofOfStakeLimit nBase nTime

/-- `GetLastBlockIndex(pcheckpoint, fProofOfStake)->nBits`. -/
def lastBits (pcheckpoint : BlockPtr) (fProofOfStake : Bool) : UInt32 :=
  ((getLastBlockIndex pcheckpoint fProofOfStake).head?.map CBlockIndex.nBits).getD 0

/-- The flood check of `ProcessBlock`: the block is not rejected with "block with
too little proof". -/
def floodCheck (env : Env) (checkpoint : CBlockIndex) (pprev : BlockPtr) (block : CBlock) : Bool :=
  let deltaTime := block.getBlockTime - checkpoint.nTime.toNat
  let bnNewBlock := setCompact block.nBits
  let bnRequired := setCompact (
    if block.isProofOfStake then computeMinStake (lastBits (checkpoint :: pprev) true) deltaTime
    else computeMinWork env (lastBits (checkpoint :: pprev) false) deltaTime)
  !(bnRequired < bnNewBlock)

/-- What a retarget starts from: the target of the last block of the type and its
spacing to the one before; `none` up to the second such block. -/
def retargetInput (pindexLast : BlockPtr) (fProofOfStake : Bool) : Option (Int × Int) :=
  match getLastBlockIndex pindexLast fProofOfStake with
  | pindexPrev :: prev :: grand =>
      match getLastBlockIndex (prev :: grand) fProofOfStake with
      | pindexPrevPrev :: _ :: _ =>
          some (setCompact pindexPrev.nBits, pindexPrev.getBlockTime - pindexPrevPrev.getBlockTime)
      | _ => none
  | _ => none

/-- The spacing as the rule at this height takes it. -/
def usedSpacing (nHeight nActualSpacing : Int) : Int :=
  if nHeight < 10000 then nActualSpacing
  else if nActualSpacing < 0 then nTargetSpacing else nActualSpacing

/-- The required target before `GetCompact` rounds it. -/
def requiredTarget (limit nHeight : Int) : Option (Int × Int) → Int
  | none => limit
  | some (bnTarget, nActualSpacing) =>
      let bnNew := retarget bnTarget (usedSpacing nHeight nActualSpacing)
      if 10000 ≤ nHeight ∧ bnNew ≤ 0 then limit else min limit bnNew

section Rules

variable {env : Env} {last : CBlockIndex} {pprev : BlockPtr} {fProofOfStake : Bool}

/-- Both rules round the required target. -/
theorem getNextTargetRequired_eq :
    getNextTargetRequired env last pprev fProofOfStake =
      getCompact (requiredTarget (bnTargetLimit env fProofOfStake) last.nHeight
        (retargetInput (last :: pprev) fProofOfStake)) := by
  unfold getNextTargetRequired getNextTargetRequiredV1 getNextTargetRequiredV2 retargetInput
  generalize getLastBlockIndex (last :: pprev) fProofOfStake = found
  rcases found with _ | ⟨pindexPrev, _ | ⟨prev, grand⟩⟩
  · simp [requiredTarget]
  · simp [requiredTarget]
  dsimp only
  generalize getLastBlockIndex (prev :: grand) fProofOfStake = before
  rcases before with _ | ⟨pindexPrevPrev, _ | ⟨first, rest⟩⟩
  · simp [requiredTarget]
  · simp [requiredTarget]
  by_cases early : last.nHeight < 10000
  · simp only [early, if_true, requiredTarget, usedSpacing, Int.not_le.mpr early, false_and, if_false]
    congr 1
    exact (min_def_lt _ _).symm
  · simp only [early, if_false, requiredTarget, usedSpacing, Int.not_lt.mp early, true_and]
    congr 1
    by_cases spent : retarget (setCompact pindexPrev.nBits)
        (if pindexPrev.getBlockTime - pindexPrevPrev.getBlockTime < 0 then nTargetSpacing
          else pindexPrev.getBlockTime - pindexPrevPrev.getBlockTime) ≤ 0
    · simp only [spent, true_or, if_true]
    · simp only [spent, false_or, if_false]
      exact (min_def_lt _ _).symm

theorem bnTargetLimit_pos (env : Env) (fProofOfStake : Bool) : 0 < bnTargetLimit env fProofOfStake := by
  unfold bnTargetLimit Env.bnProofOfStakeLimit Env.bnProofOfWorkLimit
  split
  · decide
  · split <;> decide

theorem bnTargetLimit_lt (env : Env) (fProofOfStake : Bool) : bnTargetLimit env fProofOfStake < 2 ^ 256 := by
  unfold bnTargetLimit Env.bnProofOfStakeLimit Env.bnProofOfWorkLimit
  split
  · decide
  · split <;> decide

/-- Compact words hold every target up to a limit. -/
theorem mpiSize_lt_of_le_limit {bn : Int} (nonneg : 0 ≤ bn) (le : bn ≤ bnTargetLimit env fProofOfStake) :
    mpiSize bn.natAbs < 256 := by
  have below := bnTargetLimit_lt env fProofOfStake
  refine mpiSize_lt_of_le ?_
  have : (bn.natAbs : Int) ≤ (2 ^ 256 : Nat) := by
    rw [Int.natAbs_of_nonneg nonneg]
    exact le.trans below.le
  exact_mod_cast this

theorem requiredTarget_le (limit nHeight : Int) (input : Option (Int × Int)) :
    requiredTarget limit nHeight input ≤ limit := by
  unfold requiredTarget
  split
  · exact le_rfl
  · dsimp only
    split
    · exact le_rfl
    · exact min_le_left _ _

/-- A rounded target is positive only where the target is, and then below it. -/
theorem compacted_le_limit {bn : Int} (le : bn ≤ bnTargetLimit env fProofOfStake) :
    compacted bn ≤ bnTargetLimit env fProofOfStake := by
  rcases le_total bn 0 with nonpos | nonneg
  · exact (compacted_nonpos nonpos).trans (bnTargetLimit_pos env fProofOfStake).le
  · exact (compacted_le (mpiSize_lt_of_le_limit nonneg le) nonneg).trans le

/-- The constants of the retarget worked out. -/
theorem retarget_eq (bnTarget nActualSpacing : Int) :
    retarget bnTarget nActualSpacing = (bnTarget * (840 + 2 * nActualSpacing)).tdiv 1080 := by
  have interval : nTargetTimespan / nTargetSpacing = 8 := by decide
  simp only [retarget, interval]
  simp only [nTargetSpacing]
  congr 2
  ring

theorem retarget_pos_iff (bnTarget nActualSpacing : Int) :
    0 < retarget bnTarget nActualSpacing ↔ 1080 ≤ bnTarget * (840 + 2 * nActualSpacing) := by
  rw [retarget_eq]
  generalize bnTarget * (840 + 2 * nActualSpacing) = product
  rcases le_total 0 product with nonneg | nonpos
  · rw [Int.tdiv_eq_ediv_of_nonneg nonneg]
    omega
  · have quotient : 0 ≤ (-product).tdiv 1080 := Int.tdiv_nonneg (by omega) (by omega)
    rw [Int.neg_tdiv] at quotient
    omega

/-- The required target is not positive exactly where the first rule retargets to
a number that is not. -/
theorem requiredTarget_pos_iff {nHeight : Int} {input : Option (Int × Int)} {limit : Int}
    (positive : 0 < limit) :
    0 < requiredTarget limit nHeight input ↔
      (10000 ≤ nHeight ∨ ∀ bnTarget nActualSpacing, input = some (bnTarget, nActualSpacing) →
        1080 ≤ bnTarget * (840 + 2 * nActualSpacing)) := by
  rcases input with _ | ⟨bnTarget, nActualSpacing⟩
  · simp [requiredTarget, positive]
  by_cases late : 10000 ≤ nHeight
  · simp only [requiredTarget, late, true_and, true_or, iff_true]
    split
    · exact positive
    · rename_i usable
      exact lt_min positive (Int.not_le.mp usable)
  · simp only [requiredTarget, late, false_and, if_false, false_or, usedSpacing, Int.not_le.mp late, if_true,
      lt_min_iff, positive, true_and, retarget_pos_iff, Option.some.injEq, Prod.mk.injEq]
    constructor
    · rintro enough _ _ ⟨rfl, rfl⟩
      exact enough
    · intro enough
      exact enough _ _ ⟨rfl, rfl⟩

end Rules

/-- `GetNextTargetRequired` returns a positive target up to the limit of the proof
type, for every chain and both types, except where the first rule (below height
10000) retargets from a spacing so negative that the product drops below the
divisor. -/
theorem getNextTargetRequired_usable_iff (env : Env) (last : CBlockIndex) (pprev : BlockPtr)
    (fProofOfStake : Bool) :
    (0 < setCompact (getNextTargetRequired env last pprev fProofOfStake) ∧
        setCompact (getNextTargetRequired env last pprev fProofOfStake) ≤
          bnTargetLimit env fProofOfStake) ↔
      (10000 ≤ last.nHeight ∨ ∀ bnTarget nActualSpacing,
        retargetInput (last :: pprev) fProofOfStake = some (bnTarget, nActualSpacing) →
          1080 ≤ bnTarget * (840 + 2 * nActualSpacing)) := by
  rw [getNextTargetRequired_eq, ← requiredTarget_pos_iff (bnTargetLimit_pos env fProofOfStake)]
  have below := requiredTarget_le (bnTargetLimit env fProofOfStake) last.nHeight
    (retargetInput (last :: pprev) fProofOfStake)
  generalize requiredTarget (bnTargetLimit env fProofOfStake) last.nHeight
    (retargetInput (last :: pprev) fProofOfStake) = bnNew at below ⊢
  change 0 < compacted bnNew ∧ compacted bnNew ≤ _ ↔ _
  constructor
  · rintro ⟨positive, -⟩
    by_contra nonpos
    exact absurd (compacted_nonpos (Int.not_lt.mp nonpos)) (Int.not_le.mpr positive)
  · intro positive
    exact ⟨(compacted_pos_iff (mpiSize_lt_of_le_limit positive.le below)).mpr positive,
      compacted_le_limit below⟩

/-- How many days have begun in a stretch of time. -/
def startedDays (nTime : Int) : Nat := ((nTime + (24 * 60 * 60 - 1)) / (24 * 60 * 60)).toNat

theorem startedDays_of_pos {nTime : Int} (positive : 0 < nTime) :
    startedDays nTime = startedDays (nTime - 24 * 60 * 60) + 1 := by
  unfold startedDays
  omega

theorem startedDays_of_nonpos {nTime : Int} (nonpos : nTime ≤ 0) : startedDays nTime = 0 := by
  unfold startedDays
  omega

/-- Below the limit, the loop of `ComputeMaxBits` doubles once for each started day. -/
theorem min_doubleDaily {limit bnResult nTime : Int} {fuel : Nat} (positive : 0 < bnResult)
    (enough : nTime ≤ fuel) :
    min limit (doubleDaily limit fuel bnResult nTime) = min limit (bnResult * 2 ^ startedDays nTime) := by
  induction fuel generalizing bnResult nTime with
  | zero =>
      rw [startedDays_of_nonpos (by simpa using enough)]
      simp [doubleDaily]
  | succ fuel ih =>
      simp only [doubleDaily]
      split
      · rename_i running
        rw [ih (by omega) (by push_cast at enough; omega), startedDays_of_pos running.1, pow_succ]
        congr 1
        ring
      · rename_i stopped
        rcases Int.lt_or_le 0 nTime with remaining | ended
        · -- Stopped early: the limit is reached, and doubling only goes further.
          have reached : limit ≤ bnResult := by
            by_contra below
            exact stopped ⟨remaining, Int.not_le.mp below⟩
          have further : bnResult ≤ bnResult * 2 ^ startedDays nTime :=
            le_mul_of_one_le_right positive.le (one_le_pow₀ (by omega))
          rw [min_eq_left reached, min_eq_left (reached.trans further)]
        · rw [startedDays_of_nonpos ended]
          simp

theorem computeMaxBits_eq {limit nTime : Int} {nBase : UInt32} (positive : 0 < setCompact nBase) :
    computeMaxBits limit nBase nTime =
      getCompact (min limit (setCompact nBase * 2 ^ (1 + startedDays nTime))) := by
  have loop : min limit (doubleDaily limit nTime.toNat (setCompact nBase * 2) nTime) =
      min limit (setCompact nBase * 2 * 2 ^ startedDays nTime) :=
    min_doubleDaily (by omega) (by omega)
  have envelope : setCompact nBase * 2 ^ (1 + startedDays nTime) =
      setCompact nBase * 2 * 2 ^ startedDays nTime := by
    rw [pow_add]
    ring
  rw [envelope, ← loop, computeMaxBits]
  congr 1
  exact (min_def_lt _ _).symm

/-- A rounded target lies below a rounded bound exactly where it lies below the
bound: rounding takes the largest compact target that is not above. -/
theorem compacted_le_compacted_iff {env : Env} {fProofOfStake : Bool} {bn bound : Int} (positive : 0 < bound)
    (le : bn ≤ bnTargetLimit env fProofOfStake) (boundLe : bound ≤ bnTargetLimit env fProofOfStake) :
    compacted bn ≤ compacted bound ↔ compacted bn ≤ bound := by
  have small := mpiSize_lt_of_le_limit positive.le boundLe
  constructor
  · intro below
    exact below.trans (compacted_le small positive.le)
  · intro below
    rcases le_total bn 0 with nonpos | nonneg
    · have := (compacted_pos_iff small).mpr positive
      exact (compacted_nonpos nonpos).trans this.le
    · have smallBn := mpiSize_lt_of_le_limit nonneg le
      have rounded : 0 ≤ compacted bn := by
        rcases eq_or_lt_of_le nonneg with rfl | strict
        · decide
        · exact ((compacted_pos_iff smallBn).mpr strict).le
      rw [← compacted_compacted smallBn nonneg]
      exact compacted_mono (mpiSize_lt_of_le_limit rounded (below.trans boundLe)) small rounded below

/-- The required target, rounded, lies below a positive bound where the limit does,
or where the rule retargets to something up to the limit that does. -/
theorem compacted_requiredTarget_le_iff {env : Env} {fProofOfStake : Bool} {nHeight bound : Int}
    {input : Option (Int × Int)} (positive : 0 < bound) :
    compacted (requiredTarget (bnTargetLimit env fProofOfStake) nHeight input) ≤ bound ↔
      compacted (bnTargetLimit env fProofOfStake) ≤ bound ∨
        ∃ bnTarget nActualSpacing, input = some (bnTarget, nActualSpacing) ∧
          retarget bnTarget (usedSpacing nHeight nActualSpacing) ≤ bnTargetLimit env fProofOfStake ∧
          (nHeight < 10000 ∨ 0 < retarget bnTarget (usedSpacing nHeight nActualSpacing)) ∧
          compacted (retarget bnTarget (usedSpacing nHeight nActualSpacing)) ≤ bound := by
  rcases input with _ | ⟨bnTarget, nActualSpacing⟩
  · simp [requiredTarget]
  simp only [requiredTarget, Option.some.injEq, Prod.mk.injEq, and_assoc, exists_eq_left', ↓existsAndEq, true_and]
  generalize retarget bnTarget (usedSpacing nHeight nActualSpacing) = bnNew
  have limitPos := bnTargetLimit_pos env fProofOfStake
  by_cases replaced : 10000 ≤ nHeight ∧ bnNew ≤ 0
  · rw [if_pos replaced]
    refine ⟨Or.inl, ?_⟩
    rintro (below | ⟨-, usable, -⟩)
    · exact below
    · omega
  rw [if_neg replaced]
  rcases Int.lt_or_le (bnTargetLimit env fProofOfStake) bnNew with above | within
  · rw [min_eq_left above.le]
    refine ⟨Or.inl, ?_⟩
    rintro (below | ⟨le, -⟩)
    · exact below
    · omega
  · rw [min_eq_right within]
    constructor
    · intro below
      exact Or.inr ⟨within, by omega, below⟩
    · rintro (below | ⟨-, -, below⟩)
      · rcases le_total bnNew 0 with nonpos | nonneg
        · exact (compacted_nonpos nonpos).trans positive.le
        · exact (compacted_mono (mpiSize_lt_of_le_limit nonneg within)
            (mpiSize_lt_of_le_limit limitPos.le le_rfl) nonneg within).trans below
      · exact below

/-- The flood check lets an honest block through exactly when the checkpoint's
target for the proof type, doubled once and once more for each started day, reaches
the limit or reaches the last target of the type times `(840 + 2 * spacing) / 1080`
(both to the precision of a compact word). -/
theorem floodCheck_iff (env : Env) (last checkpoint : CBlockIndex) (pprev checkpointPrev : BlockPtr)
    (block : CBlock)
    (honest : block.nBits = getNextTargetRequired env last pprev block.isProofOfStake)
    (positive : 0 < setCompact (lastBits (checkpoint :: checkpointPrev) block.isProofOfStake)) :
    floodCheck env checkpoint checkpointPrev block = true ↔
      compacted (bnTargetLimit env block.isProofOfStake) ≤
          setCompact (lastBits (checkpoint :: checkpointPrev) block.isProofOfStake) *
            2 ^ (1 + startedDays (block.getBlockTime - checkpoint.nTime.toNat)) ∨
        ∃ bnTarget nActualSpacing,
          retargetInput (last :: pprev) block.isProofOfStake = some (bnTarget, nActualSpacing) ∧
          let bnNew := (bnTarget * (840 + 2 * usedSpacing last.nHeight nActualSpacing)).tdiv 1080
          bnNew ≤ bnTargetLimit env block.isProofOfStake ∧ (last.nHeight < 10000 ∨ 0 < bnNew) ∧
          compacted bnNew ≤ setCompact (lastBits (checkpoint :: checkpointPrev) block.isProofOfStake) *
            2 ^ (1 + startedDays (block.getBlockTime - checkpoint.nTime.toNat)) := by
  simp only [← retarget_eq]
  generalize deltaDef : block.getBlockTime - checkpoint.nTime.toNat = deltaTime
  have required : (if block.isProofOfStake then
      computeMinStake (lastBits (checkpoint :: checkpointPrev) true) deltaTime
      else computeMinWork env (lastBits (checkpoint :: checkpointPrev) false) deltaTime) =
      computeMaxBits (bnTargetLimit env block.isProofOfStake)
        (lastBits (checkpoint :: checkpointPrev) block.isProofOfStake) deltaTime := by
    cases block.isProofOfStake <;> rfl
  have limitPos := bnTargetLimit_pos env block.isProofOfStake
  have envelopePos : 0 < setCompact (lastBits (checkpoint :: checkpointPrev) block.isProofOfStake) *
      2 ^ (1 + startedDays deltaTime) := by positivity
  have below := requiredTarget_le (bnTargetLimit env block.isProofOfStake) last.nHeight
    (retargetInput (last :: pprev) block.isProofOfStake)
  have bound := compacted_le_compacted_iff (lt_min limitPos envelopePos) below (min_le_left _ _)
  simp only [floodCheck, deltaDef, required, computeMaxBits_eq positive, honest,
    getNextTargetRequired_eq, Bool.not_eq_true', decide_eq_false_iff_not, Int.not_lt]
  rw [← compacted_requiredTarget_le_iff envelopePos]
  refine bound.trans ?_
  rw [le_min_iff]
  exact and_iff_right (compacted_le_limit below)

/-- A chain of proof-of-work entries with the given times and targets, newest first. -/
def workChain : List (UInt32 × UInt32) → BlockPtr
  | [] => []
  | (nTime, nBits) :: earlier =>
      CBlockIndex.labelled (UInt32.ofNat earlier.length) earlier.length 0 false nTime nBits ::
        workChain earlier

/-- Three blocks after genesis, the last one dated 600 seconds before the second,
as the timestamp rule allows. -/
def backdated : BlockPtr :=
  workChain [(400, 0x1e0fffff), (1000, 0x1e0fffff), (100, 0x1e0fffff), (0, 0x1e0fffff)]

/-- The tip of a chain that has one. -/
def tipOf (chain : BlockPtr) : CBlockIndex := chain.headD (CBlockIndex.labelled 0 0 0 false 0 0)

/-- After a backdated block the first rule asks for a negative target. -/
theorem getNextTargetRequired_negative :
    BuiltChain (Env.labelled false) backdated ∧ backdated = tipOf backdated :: backdated.tail ∧
      setCompact (getNextTargetRequired (Env.labelled false) (tipOf backdated) backdated.tail false) < 0 := by
  decide +kernel

/-- A proof-of-work block on a chain, with the `nBits` that `AcceptBlock` asks for. -/
def honestBlock (env : Env) (chain : BlockPtr) (label nTime : UInt32) : CBlock :=
  CBlock.labelled label (tipOf chain).hash nTime (getNextTargetRequired env (tipOf chain) chain.tail false)
    [CTransaction.labelledCoinBase label nTime [1, label.toUInt8] [⟨0, [0x51]⟩]]

theorem honestBlock_nBits (env : Env) (chain : BlockPtr) (label nTime : UInt32) :
    (honestBlock env chain label nTime).nBits = getNextTargetRequired env (tipOf chain) chain.tail
      (honestBlock env chain label nTime).isProofOfStake := rfl

/-- One block a second, and then none for a day. -/
def slowDay : BlockPtr :=
  workChain [(86425, 487414754), (24, 487662221), (23, 487979637), (22, 488386774), (21, 488908993),
    (20, 489578822), (19, 490437985), (18, 491540000), (17, 492953510), (16, 494766564), (15, 503357702),
    (14, 503369354), (13, 503384300), (12, 503403471), (11, 503428061), (10, 503459601), (9, 503500056),
    (8, 503551946), (7, 503618503), (6, 503703873), (5, 503813374), (4, 503953827), (3, 504133980),
    (2, 504365055), (1, 504365055), (0, 504365055)]

/-- Before the slow day, a second after the checkpoint, the block is let through. -/
theorem floodCheck_accepts_quick :
    floodCheck (Env.labelled false) (tipOf slowDay.tail) slowDay.tail.tail
      (honestBlock (Env.labelled false) slowDay.tail 25 25) = true :=
  (floodCheck_iff (Env.labelled false) _ _ _ _ _ (honestBlock_nBits _ _ _ _) (by decide +kernel)).mpr
    (Or.inr ⟨setCompact 487662221, 1, by decide +kernel, by decide +kernel, by decide +kernel,
      by decide +kernel⟩)

/-- With the checkpoint one block below the tip, the flood check rejects the block
after a slow day: the retarget went up by more than a hundred, the envelope by eight. -/
theorem floodCheck_rejects_honest :
    let block := honestBlock (Env.labelled false) slowDay 26 86426
    BuiltChain (Env.labelled false) slowDay ∧
      slowDay = tipOf slowDay :: tipOf slowDay.tail :: slowDay.tail.tail ∧
      block.checkBlock (Env.labelled false) 86426 true true true = true ∧
      checkTimeAgainstPrev block.getBlockTime (tipOf slowDay) slowDay.tail = true ∧
      block.nBits =
        getNextTargetRequired (Env.labelled false) (tipOf slowDay) slowDay.tail block.isProofOfStake ∧
      floodCheck (Env.labelled false) (tipOf slowDay.tail) slowDay.tail.tail block = false := by
  decide +kernel

end InfiniteRicks
