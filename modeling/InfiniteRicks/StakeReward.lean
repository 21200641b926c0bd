import InfiniteRicks.Connect

/-!
# The stake reward

`GetProofOfStakeReward` multiplies the coin age by the reward of a year and by 33 before
it divides. The products are exact up to a coin age of 910,410,821 coin-days; above it
the second one does not fit.
-/

namespace InfiniteRicks

/-- The largest coin age for which `nCoinAge * COIN_YEAR_REWARD * 33` is an `int64_t`. -/
def maxRewardedCoinAge : Nat := 910410821

/-- The reward for a coin age, which `ConnectBlock` passes on as an `int64_t`. -/
def stakeReward (nCoinAge : UInt64) : Int64 := getProofOfStakeReward nCoinAge.toInt64 0

/-- The reward is the exact one, no product overflows, and no smaller coin age has a larger reward. -/
structure RewardExact (nCoinAge : UInt64) : Prop where
  year : (nCoinAge.toNat : Int) * (307 * cent.toInt) < 2 ^ 63
  product : (nCoinAge.toNat : Int) * (307 * cent.toInt) * 33 < 2 ^ 63
  exact : (stakeReward nCoinAge).toInt = (nCoinAge.toNat : Int) * (307 * cent.toInt) * 33 / (365 * 33 + 8)
  nonneg : 0 ≤ stakeReward nCoinAge
  monotone : ∀ younger ≤ nCoinAge, stakeReward younger ≤ stakeReward nCoinAge

theorem toInt_toInt64 {n : UInt64} (fits : n.toNat < 2 ^ 63) : n.toInt64.toInt = n.toNat :=
  BitVec.toInt_eq_toNat_of_lt (by change 2 * n.toNat < 2 ^ 64; omega)

/-- Where the products fit the reward is the exact one. -/
theorem stakeReward_toInt {nCoinAge : UInt64} (fits : nCoinAge.toNat ≤ maxRewardedCoinAge) :
    (stakeReward nCoinAge).toInt = (nCoinAge.toNat : Int) * (307 * cent.toInt) * 33 / (365 * 33 + 8) := by
  rw [maxRewardedCoinAge] at fits
  have age : nCoinAge.toInt64.toInt = nCoinAge.toNat := toInt_toInt64 (by omega)
  have year : coinYearReward.toInt = 307000000 := by decide
  have first : (nCoinAge.toInt64 * coinYearReward).toInt = nCoinAge.toNat * 307000000 := by
    rw [Int64.toInt_mul, age, year, Int.bmod_eq_of_le (by omega) (by omega)]
  have thirtyThree : (33 : Int64).toInt = 33 := by decide
  have second : (nCoinAge.toInt64 * coinYearReward * 33).toInt = nCoinAge.toNat * 307000000 * 33 := by
    rw [Int64.toInt_mul, first, thirtyThree, Int.bmod_eq_of_le (by omega) (by omega)]
  have divisor : (365 * 33 + 8 : Int64).toInt = 12053 := by decide
  rw [stakeReward, getProofOfStakeReward, Int64.add_zero, Int64.toInt_div, second, divisor, cent_toInt,
    Int.tdiv_eq_ediv_of_nonneg (by omega), Int.bmod_eq_of_le (by omega) (by omega)]
  rfl

/-- The reward of a coin age, which may be any that `GetCoinAge` returns, is exact and monotone just where the
products fit. -/
theorem rewardExact_iff (nCoinAge : UInt64) : RewardExact nCoinAge ↔ nCoinAge.toNat ≤ maxRewardedCoinAge := by
  constructor
  · intro reward
    have product := reward.product
    rw [cent_toInt] at product
    rw [maxRewardedCoinAge]
    omega
  · intro fits
    have exact := stakeReward_toInt fits
    have range := fits
    rw [maxRewardedCoinAge] at range
    refine ⟨?_, ?_, exact, ?_, fun younger le => ?_⟩
    · rw [cent_toInt]
      omega
    · rw [cent_toInt]
      omega
    · rw [Int64.le_iff_toInt_le, exact, cent_toInt]
      exact Int.ediv_nonneg (by omega) (by omega)
    · have younger_le : younger.toNat ≤ nCoinAge.toNat := UInt64.le_iff_toNat_le.mp le
      rw [Int64.le_iff_toInt_le, exact, stakeReward_toInt (younger_le.trans fits), cent_toInt]
      exact Int.ediv_le_ediv (by omega) (by omega)

/-- A hundred million coins that have not moved for ten days. -/
def hoard : CTransaction := .labelledSpend 1 1000 ⟨9, 0⟩ (100000000 * coin)

def hoardStake : CTransaction := .labelledSpend 2 865000 ⟨1, 0⟩ (100000000 * coin)

def hoardNode : Node :=
  { Node.initial ⟨fun _ => some hoard, fun _ _ => some (.labelled 1 0 1000 0x1f00ffff [hoard])⟩ (fun _ => true)
      865000 with
    txdb := CTxDB.updateTxIndex ⟨fun _ => none, none, fun _ => true, 0⟩ 1
      (.new (CBlockIndex.txPos (.labelled 1 1 0 false 1000 0x1f00ffff) 1081) 1) }

/-- For a coin age of a thousand million coin-days the reward is negative. -/
theorem hoard_reward_overflows : ¬ ∀ (env : Env) (s : Node) (tx : CTransaction) (nCoinAge : UInt64),
    tx.checkTransaction = true → tx.getCoinAge env s = some nCoinAge → RewardExact nCoinAge := by
  intro always
  have reward := always (Env.labelled true) hoardNode hoardStake 1000000000 (by decide +kernel) (by decide +kernel)
  have negative : stakeReward 1000000000 < 0 := by decide +kernel
  exact absurd reward.nonneg (Int64.not_le.mpr negative)

end InfiniteRicks
