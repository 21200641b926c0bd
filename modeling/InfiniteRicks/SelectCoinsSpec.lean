import InfiniteRicks.SelectCoins
import InfiniteRicks.Value

/-!
# What coin selection achieves

A selection is right when it takes distinct coins that the rules allow, tells their exact
sum, and reaches the target, or when it gives up because all coins together do not reach it.
`SelectCoinsMinConf` is right as long as its sums stay in range and no coin is as large as
the value from which it starts to look for a larger one.
-/

namespace InfiniteRicks

open Library.Flagged

/-- Exact value of some coins. -/
def coinSum (coins : List Coin) : Int := (coins.map fun coin => coin.nValue.toInt).sum

/-- The coins that the depth and timestamp rules allow. -/
def eligibleCoins (isFromMe : Coin → Bool) (nSpendTime : UInt32) (nConfMine nConfTheirs : Int)
    (vCoins : List COutput) : List Coin :=
  (vCoins.filter fun output =>
    !decide (output.nDepth < minDepth nConfMine nConfTheirs (isFromMe output.coin)) &&
      !decide (nSpendTime < output.coin.tx.wtx.tx.nTime)).map COutput.coin

/-- Distinct coins that reach the target, with their exact sum. -/
structure Covers (coins : List Coin) (nTargetValue : Int64) (ret : CoinSet × Int64) : Prop where
  distinct : (ret.1.map Coin.key).Nodup
  members : ∀ coin ∈ ret.1, coin ∈ coins
  total : ret.2.toInt = coinSum ret.1
  reached : nTargetValue.toInt ≤ coinSum ret.1

/-- A right outcome of a selection from coins. -/
structure Selected (coins : List Coin) (nTargetValue : Int64) (result : Bool × CoinSet × Int64) : Prop where
  taken : result.1 = true → Covers coins nTargetValue result.2
  short : result.1 = false → coinSum coins < nTargetValue.toInt

/-- The coins below the target and a cent. -/
def lowerCoins (nTargetValue : Int64) (coins : List Coin) : List Coin :=
  coins.filter fun coin => coin.nValue.toInt < nTargetValue.toInt + cent.toInt

/-- A selection from the coins comes out right. Some coin has the very value; or the target
leaves room for a cent, the lower coins sum up in range, and if they do not reach the target
a coin of the largest value is not the only larger one; or the target leaves no room, but
every coin reaches it, and not all have the largest value. -/
def Selectable (coins : List Coin) (nTargetValue : Int64) : Prop :=
  (∃ coin ∈ coins, coin.nValue = nTargetValue) ∨
    (nTargetValue.toInt + cent.toInt ≤ maxMoney.toInt ∧
      coinSum (lowerCoins nTargetValue coins) ≤ maxMoney.toInt ∧
      (nTargetValue.toInt ≤ coinSum (lowerCoins nTargetValue coins) ∨
        (∀ coin ∈ coins, coin.nValue ≠ maxMoney) ∨
        ∃ coin ∈ coins, nTargetValue.toInt + cent.toInt ≤ coin.nValue.toInt ∧ coin.nValue ≠ maxMoney)) ∨
    (maxMoney.toInt < nTargetValue.toInt + cent.toInt ∧
      (∀ coin ∈ coins, nTargetValue.toInt ≤ coin.nValue.toInt) ∧
      (coins = [] ∨ ∃ coin ∈ coins, coin.nValue ≠ maxMoney))

/-- No selection from the coins falls short: some coin has the very value, or the lower coins sum
up in range, or without room for a cent every coin reaches the target. -/
def NeverShort (coins : List Coin) (nTargetValue : Int64) : Prop :=
  (∃ coin ∈ coins, coin.nValue = nTargetValue) ∨
    (nTargetValue.toInt + cent.toInt ≤ maxMoney.toInt ∧
      coinSum (lowerCoins nTargetValue coins) ≤ maxMoney.toInt) ∨
    (maxMoney.toInt < nTargetValue.toInt + cent.toInt ∧
      ∀ coin ∈ coins, nTargetValue.toInt ≤ coin.nValue.toInt)

/-- No coin has the very value, the lower coins do not reach it, and all others have the largest
value, which is never selected. -/
def Hopeless (coins : List Coin) (nTargetValue : Int64) : Prop :=
  (∀ coin ∈ coins, coin.nValue ≠ nTargetValue) ∧
    (nTargetValue.toInt + cent.toInt ≤ maxMoney.toInt →
      coinSum (lowerCoins nTargetValue coins) < nTargetValue.toInt) ∧
    ∀ coin ∈ coins, nTargetValue.toInt + cent.toInt ≤ coin.nValue.toInt ∨
      maxMoney.toInt < nTargetValue.toInt + cent.toInt → coin.nValue = maxMoney

section Sums

variable {coins : List Coin}

theorem le_maxMoney (nValue : Int64) : nValue.toInt ≤ maxMoney.toInt := by
  have upper := nValue.toInt_lt
  rw [maxMoney_toInt]
  omega

theorem lt_maxMoney_iff {nValue : Int64} : nValue.toInt < maxMoney.toInt ↔ nValue ≠ maxMoney := by
  have upper := le_maxMoney nValue
  rw [← Int64.toInt_inj.ne]
  omega

@[simp] theorem coinSum_nil : coinSum [] = 0 := rfl

@[simp] theorem coinSum_cons (coin : Coin) (coins : List Coin) :
    coinSum (coin :: coins) = coin.nValue.toInt + coinSum coins := rfl

theorem coinSum_perm {first second : List Coin} (perm : first.Perm second) : coinSum first = coinSum second :=
  (perm.map _).sum_eq

theorem coinSum_nonneg (nonneg : ∀ coin ∈ coins, 0 ≤ coin.nValue.toInt) : 0 ≤ coinSum coins := by
  refine List.sum_nonneg ?_
  intro value member
  obtain ⟨coin, inList, rfl⟩ := List.mem_map.mp member
  exact nonneg coin inList

theorem coinSum_le_of_sublist {some : List Coin} (sublist : some.Sublist coins)
    (nonneg : ∀ coin ∈ coins, 0 ≤ coin.nValue.toInt) : coinSum some ≤ coinSum coins := by
  refine (sublist.map _).sum_le_sum ?_
  intro value member
  obtain ⟨coin, inList, rfl⟩ := List.mem_map.mp member
  exact nonneg coin inList

theorem le_coinSum (nonneg : ∀ coin ∈ coins, 0 ≤ coin.nValue.toInt) {coin : Coin} (member : coin ∈ coins) :
    coin.nValue.toInt ≤ coinSum coins := by
  have single := coinSum_le_of_sublist (List.singleton_sublist.mpr member) nonneg
  simpa using single

/-- Coins with different keys all become elements of the set, and the total is their exact sum, wrapped. -/
theorem takeCoins_append {ret : CoinSet × Int64} (distinct : ((ret.1 ++ coins).map Coin.key).Nodup) :
    takeCoins coins ret = (ret.1 ++ coins, ret.2 + Int64.ofInt (coinSum coins)) := by
  induction coins generalizing ret with
  | nil =>
      have zero : Int64.ofInt 0 = 0 := rfl
      simp [takeCoins, zero]
  | cons coin rest ih =>
      have absent : ret.1.any (fun other => other.key = coin.key) = false := by
        rw [List.any_eq_false]
        intro other member
        rw [List.map_append, List.map_cons, List.nodup_append] at distinct
        simpa using distinct.2.2 _ (List.mem_map_of_mem member) _ List.mem_cons_self
      have step : takeCoins (coin :: rest) ret = takeCoins rest (ret.1 ++ [coin], ret.2 + coin.nValue) := by
        rw [takeCoins, List.foldl_cons, CoinSet.insert, if_neg (by simp [absent])]
        rfl
      rw [step, ih (by simpa using distinct)]
      simp only [List.append_assoc, List.singleton_append, coinSum_cons]
      rw [Int64.ofInt_add, Int64.ofInt_toInt, Int64.add_assoc]

theorem takeCoins_eq (distinct : (coins.map Coin.key).Nodup) :
    takeCoins coins ([], 0) = (coins, Int64.ofInt (coinSum coins)) := by
  rw [takeCoins_append (by simpa using distinct), Int64.zero_add, List.nil_append]

end Sums

/-- The best subset of a search reaches the target, and its total is exact. -/
structure BestExact (vValue : List Coin) (nTargetValue : Int64) (search : SubsetSearch) : Prop where
  nBest : search.nBest.toInt = coinSum (flagged vValue search.vfBest)
  reached : nTargetValue.toInt ≤ search.nBest.toInt

/-- Within a round the total of the included coins is exact as well. -/
structure Tracks (vValue : List Coin) (nTargetValue : Int64) (search : SubsetSearch) : Prop
    extends BestExact vValue nTargetValue search where
  length : search.vfIncluded.length = vValue.length
  nTotal : search.nTotal.toInt = coinSum (flagged vValue search.vfIncluded)

section Searching

variable {vValue : List Coin} {nTargetValue : Int64} {search : SubsetSearch}

/-- Trying a coin that is not included. -/
theorem Tracks.includeCoin (tracks : Tracks vValue nTargetValue search)
    (nonneg : ∀ coin ∈ vValue, 0 ≤ coin.nValue.toInt) (inRange : coinSum vValue ≤ maxMoney.toInt) {i : Nat}
    {coin : Coin} (element : vValue[i]? = some coin) (unset : search.vfIncluded[i]? = some false) :
    Tracks vValue nTargetValue (search.includeCoin nTargetValue i coin.nValue) := by
  obtain ⟨⟨nBest, reached⟩, length, nTotal⟩ := tracks
  have sum : coinSum (flagged vValue (search.vfIncluded.set i true)) =
      coinSum (flagged vValue search.vfIncluded) + coin.nValue.toInt :=
    sum_flagged_set (fun coin : Coin => coin.nValue.toInt) element unset
  have upper : coinSum (flagged vValue (search.vfIncluded.set i true)) ≤ coinSum vValue :=
    sum_flagged_le (fun coin : Coin => coin.nValue.toInt) nonneg _
  have lower := coinSum_nonneg fun other member => nonneg other
    ((flagged_sublist vValue search.vfIncluded).subset member)
  have coinNonneg := nonneg coin (List.mem_of_getElem? element)
  have total : (search.nTotal + coin.nValue).toInt =
      coinSum (flagged vValue (search.vfIncluded.set i true)) := by
    have wrapped : search.nTotal + coin.nValue =
        Int64.ofInt (coinSum (flagged vValue (search.vfIncluded.set i true))) := by
      rw [sum, Int64.ofInt_add, ← nTotal, Int64.ofInt_toInt, Int64.ofInt_toInt]
    rw [wrapped]
    exact toInt_ofInt_eq (by omega) (upper.trans inRange)
  simp only [SubsetSearch.includeCoin]
  split
  · rename_i enough
    have restored : (search.vfIncluded.set i true).set i false = search.vfIncluded := by
      obtain ⟨bound, value⟩ := List.getElem?_eq_some_iff.mp unset
      rw [List.set_set, ← value, List.set_getElem_self]
    have back : search.nTotal + coin.nValue - coin.nValue = search.nTotal := by
      rw [Int64.add_sub_cancel]
    refine ⟨⟨?_, ?_⟩, ?_, ?_⟩
    · split
      · exact total
      · exact nBest
    · rw [Int64.le_iff_toInt_le] at enough
      split
      · exact enough
      · exact reached
    · simp only [restored, length]
    · simp only [restored, back, nTotal]
  · exact ⟨⟨nBest, reached⟩, by simp [length], total⟩

/-- A pass that only tries coins that are not included. `Free` is what it keeps of the flags. -/
theorem Tracks.pass (Free : Nat → List Bool → Prop) (included : SubsetSearch → Nat → Bool)
    (nonneg : ∀ coin ∈ vValue, 0 ≤ coin.nValue.toInt) (inRange : coinSum vValue ≤ maxMoney.toInt)
    (unset : ∀ (search : SubsetSearch) i, search.vfIncluded.length = vValue.length → i < vValue.length →
      Free i search.vfIncluded → included search i = true → search.vfIncluded[i]? = some false)
    (kept : ∀ (vfIncluded : List Bool) i flag, Free i vfIncluded →
      Free (i + 1) vfIncluded ∧ Free (i + 1) (vfIncluded.set i flag))
    {done rest : List Coin} (whole : done ++ rest = vValue) (tracks : Tracks vValue nTargetValue search)
    (free : Free done.length search.vfIncluded) :
    Tracks vValue nTargetValue (SubsetSearch.pass nTargetValue included done.length rest search) := by
  induction rest generalizing done search with
  | nil => exact tracks
  | cons coin rest ih =>
      have further : done ++ [coin] ++ rest = vValue := by simpa using whole
      have element : vValue[done.length]? = some coin := by simp [← whole]
      have inside : done.length < vValue.length := by simp [← whole]
      have next {search : SubsetSearch} := @ih search (done ++ [coin]) further
      simp only [List.length_append, List.length_singleton] at next
      simp only [SubsetSearch.pass]
      split
      · rename_i chosen
        refine next (tracks.includeCoin nonneg inRange element
          (unset search _ tracks.length inside free chosen)) ?_
        simp only [SubsetSearch.includeCoin]
        split
        · rw [List.set_set]
          exact (kept _ _ _ free).2
        · exact (kept _ _ _ free).2
      · exact next tracks (kept _ _ true free).1

/-- A round of the search. -/
theorem BestExact.round (best : BestExact vValue nTargetValue search)
    (nonneg : ∀ coin ∈ vValue, 0 ≤ coin.nValue.toInt) (inRange : coinSum vValue ≤ maxMoney.toInt)
    (bits : Nat → Bool) : BestExact vValue nTargetValue (search.round nTargetValue vValue bits) := by
  have started : Tracks vValue nTargetValue { search with
      nTotal := 0, vfIncluded := List.replicate vValue.length false, fReachedTarget := false } :=
    ⟨⟨best.nBest, best.reached⟩, by simp, by rw [flagged_replicate_false]; rfl⟩
  -- The first pass meets every coin once, so no coin from here on is included yet.
  have first := started.pass (fun i vfIncluded => ∀ j, i ≤ j → j < vValue.length → vfIncluded[j]? = some false)
    (fun _ i => bits i) nonneg inRange
    (fun search i _ inside free _ => free i le_rfl inside)
    (fun vfIncluded i flag free => ⟨fun j above inside => free j (by omega) inside,
      fun j above inside => by rw [List.getElem?_set_ne (by omega)]; exact free j (by omega) inside⟩)
    (show [] ++ vValue = vValue from rfl) (fun j _ inside => by simp [inside])
  simp only [SubsetSearch.round]
  split
  · exact first.toBestExact
  · refine (first.pass (fun _ _ => True) _ nonneg inRange ?_ (fun _ _ _ _ => ⟨trivial, trivial⟩)
      (show [] ++ vValue = vValue from rfl) trivial).toBestExact
    intro search i length inside _ chosen
    have bound : i < search.vfIncluded.length := length ▸ inside
    simpa [bound] using chosen

theorem BestExact.rounds (best : BestExact vValue nTargetValue search)
    (nonneg : ∀ coin ∈ vValue, 0 ≤ coin.nValue.toInt) (inRange : coinSum vValue ≤ maxMoney.toInt)
    (bits : Nat → Nat → Bool) (left nRep : Nat) :
    BestExact vValue nTargetValue (search.rounds nTargetValue vValue bits left nRep) := by
  induction left generalizing nRep search with
  | zero => exact best
  | succ left ih =>
      simp only [SubsetSearch.rounds]
      split
      · exact best
      · exact ih (best.round nonneg inRange _) _

/-- `ApproximateBestSubset` tells the exact sum of its subset, which reaches the target. -/
theorem approximateBestSubset_exact (nonneg : ∀ coin ∈ vValue, 0 ≤ coin.nValue.toInt) {nTotalLower : Int64}
    (total : nTotalLower.toInt = coinSum vValue) (reached : nTargetValue.toInt ≤ nTotalLower.toInt)
    (bits : Nat → Nat → Bool) (iterations : Nat) :
    (approximateBestSubset bits vValue nTotalLower nTargetValue iterations).2.toInt =
        coinSum (flagged vValue (approximateBestSubset bits vValue nTotalLower nTargetValue iterations).1) ∧
      nTargetValue.toInt ≤ (approximateBestSubset bits vValue nTotalLower nTargetValue iterations).2.toInt := by
  have inRange : coinSum vValue ≤ maxMoney.toInt := total ▸ le_maxMoney nTotalLower
  have started : BestExact vValue nTargetValue
      ⟨0, [], false, List.replicate vValue.length true, nTotalLower⟩ :=
    ⟨by rw [flagged_replicate_true]; exact total, reached⟩
  have best := started.rounds nonneg inRange bits iterations 0
  exact ⟨best.nBest, best.reached⟩

end Searching

section Scanning

variable {isFromMe : Coin → Bool} {nTargetValue : Int64} {nSpendTime : UInt32} {nConfMine nConfTheirs : Int}
  {coins : List Coin}

/-- The comparison by which the loop tells the lower coins. -/
def isLower (nTargetValue : Int64) (coin : Coin) : Bool := decide (coin.nValue < nTargetValue + cent)

/-- One step of the search for the lowest larger coin. -/
def lowerOf (lowest : Option Coin) (coin : Coin) : Option Coin :=
  if coin.nValue < lowestLarger lowest then some coin else lowest

/-- The loop over the coins, once the rules have been applied. -/
def sortCoins (nTargetValue : Int64) : List Coin → List Coin → Int64 → Option Coin → CoinScan
  | [], vValue, nTotalLower, lowest => .sorted vValue nTotalLower lowest
  | coin :: rest, vValue, nTotalLower, lowest =>
      if coin.nValue = nTargetValue then .exact coin
      else if isLower nTargetValue coin then
        sortCoins nTargetValue rest (vValue ++ [coin]) (nTotalLower + coin.nValue) lowest
      else sortCoins nTargetValue rest vValue nTotalLower (lowerOf lowest coin)

/-- The loop passes over the coins that the rules do not allow. -/
theorem scanCoins_eq (vCoins : List COutput) (vValue : List Coin) (nTotalLower : Int64) (lowest : Option Coin) :
    scanCoins (fun coin => some (isFromMe coin)) nTargetValue nSpendTime nConfMine nConfTheirs vCoins vValue
        nTotalLower lowest =
      some (sortCoins nTargetValue (eligibleCoins isFromMe nSpendTime nConfMine nConfTheirs vCoins) vValue
        nTotalLower lowest) := by
  induction vCoins generalizing vValue nTotalLower lowest with
  | nil => rfl
  | cons output rest ih =>
      simp only [scanCoins, eligibleCoins, List.filter_cons]
      split
      · rename_i shallow
        rw [decide_eq_true shallow]
        exact ih _ _ _
      rename_i deep
      rw [decide_eq_false deep]
      split
      · rename_i late
        rw [decide_eq_true late]
        exact ih _ _ _
      rename_i early
      rw [decide_eq_false early]
      simp only [Bool.not_false, Bool.and_self, if_true, List.map_cons, sortCoins, isLower, decide_eq_true_eq,
        lowerOf]
      split
      · rfl
      split
      · exact ih _ _ _
      split
      · exact ih _ _ _
      · exact ih _ _ _

/-- The loop ends at a coin of the very value, or it has sorted all coins. -/
theorem sortCoins_cases (coins vValue : List Coin) (nTotalLower : Int64) (lowest : Option Coin) :
    (∃ coin ∈ coins, coin.nValue = nTargetValue ∧
      sortCoins nTargetValue coins vValue nTotalLower lowest = .exact coin) ∨
    (∀ coin ∈ coins, coin.nValue ≠ nTargetValue) ∧
      sortCoins nTargetValue coins vValue nTotalLower lowest =
        .sorted (vValue ++ coins.filter (isLower nTargetValue))
          (nTotalLower + Int64.ofInt (coinSum (coins.filter (isLower nTargetValue))))
          ((coins.filter fun coin => !isLower nTargetValue coin).foldl lowerOf lowest) := by
  induction coins generalizing vValue nTotalLower lowest with
  | nil =>
      have zero : Int64.ofInt 0 = 0 := rfl
      exact Or.inr ⟨by simp, by simp [sortCoins, zero]⟩
  | cons coin rest ih =>
      simp only [sortCoins]
      split
      · rename_i hit
        exact Or.inl ⟨coin, List.mem_cons_self, hit, rfl⟩
      rename_i miss
      split
      · rename_i lower
        rcases ih (vValue ++ [coin]) (nTotalLower + coin.nValue) lowest with ⟨other, member, hit⟩ | ⟨none, sorted⟩
        · exact Or.inl ⟨other, List.mem_cons_of_mem _ member, hit⟩
        · refine Or.inr ⟨List.forall_mem_cons.mpr ⟨miss, none⟩, ?_⟩
          rw [sorted]
          simp only [List.filter_cons, lower, if_true, Bool.not_true, Bool.false_eq_true, if_false, coinSum_cons,
            List.append_assoc, List.singleton_append]
          rw [Int64.ofInt_add, Int64.ofInt_toInt, Int64.add_assoc]
      · rename_i larger
        rw [Bool.not_eq_true] at larger
        rcases ih vValue nTotalLower (lowerOf lowest coin) with ⟨other, member, hit⟩ | ⟨none, sorted⟩
        · exact Or.inl ⟨other, List.mem_cons_of_mem _ member, hit⟩
        · refine Or.inr ⟨List.forall_mem_cons.mpr ⟨miss, none⟩, ?_⟩
          rw [sorted]
          simp only [List.filter_cons, larger, Bool.false_eq_true, if_false, Bool.not_false, if_true,
            List.foldl_cons]

/-- The search for the lowest larger coin keeps what it has, or finds one of the coins below
the largest value; no coin is lower. -/
theorem foldl_lowerOf (coins : List Coin) (lowest : Option Coin) :
    (coins.foldl lowerOf lowest = lowest ∨
      ∃ coin ∈ coins, coins.foldl lowerOf lowest = some coin ∧ coin.nValue ≠ maxMoney) ∧
    (lowestLarger (coins.foldl lowerOf lowest)).toInt ≤ (lowestLarger lowest).toInt ∧
    ∀ coin ∈ coins, (lowestLarger (coins.foldl lowerOf lowest)).toInt ≤ coin.nValue.toInt := by
  induction coins generalizing lowest with
  | nil => simp
  | cons coin rest ih =>
      obtain ⟨from_, below, all⟩ := ih (lowerOf lowest coin)
      have step : (lowestLarger (lowerOf lowest coin)).toInt ≤ (lowestLarger lowest).toInt ∧
          (lowestLarger (lowerOf lowest coin)).toInt ≤ coin.nValue.toInt := by
        unfold lowerOf
        split
        · rename_i lower
          exact ⟨(Int64.lt_iff_toInt_lt.mp lower).le, le_rfl⟩
        · rename_i notLower
          exact ⟨le_rfl, Int.not_lt.mp (mt Int64.lt_iff_toInt_lt.mpr notLower)⟩
      rw [List.foldl_cons]
      refine ⟨?_, below.trans step.1, List.forall_mem_cons.mpr ⟨below.trans step.2, all⟩⟩
      rcases from_ with same | ⟨other, member, found⟩
      · rw [same]
        unfold lowerOf
        split
        · rename_i lower
          refine Or.inr ⟨coin, List.mem_cons_self, rfl, ?_⟩
          have upper := le_maxMoney (lowestLarger lowest)
          rw [Int64.lt_iff_toInt_lt] at lower
          exact lt_maxMoney_iff.mp (lower.trans_le upper)
        · exact Or.inl rfl
      · exact Or.inr ⟨other, List.mem_cons_of_mem _ member, found⟩

/-- The lowest of the larger coins: none where all have the largest value. -/
theorem lowest_cases (coins : List Coin) :
    (coins.foldl lowerOf none = none ∧ ∀ coin ∈ coins, coin.nValue = maxMoney) ∨
      ∃ coin ∈ coins, coins.foldl lowerOf none = some coin ∧ coin.nValue ≠ maxMoney ∧
        ∀ other ∈ coins, coin.nValue.toInt ≤ other.nValue.toInt := by
  obtain ⟨none | ⟨coin, member, found, below⟩, -, all⟩ := foldl_lowerOf coins none
  · refine Or.inl ⟨none, ?_⟩
    intro coin member
    have lower := all coin member
    rw [none] at lower
    by_contra other
    exact absurd (lt_maxMoney_iff.mpr other) (Int.not_lt.mpr lower)
  · rw [found] at all
    exact Or.inr ⟨coin, member, found, below, all⟩

end Scanning

section Choosing

variable {nTargetValue : Int64} {coins : List Coin}

/-- The target with a cent on it, where there is room for it. -/
theorem target_add_cent (targetNonneg : 0 ≤ nTargetValue.toInt)
    (room : nTargetValue.toInt + cent.toInt ≤ maxMoney.toInt) :
    (nTargetValue + cent).toInt = nTargetValue.toInt + cent.toInt := by
  have cents := cent_toInt
  have wrapped : nTargetValue + cent = Int64.ofInt (nTargetValue.toInt + cent.toInt) := by
    rw [Int64.ofInt_add, Int64.ofInt_toInt, Int64.ofInt_toInt]
  rw [wrapped]
  exact toInt_ofInt_eq (by omega) room

/-- Without room for a cent the bound is negative. -/
theorem target_add_cent_neg (crowded : maxMoney.toInt < nTargetValue.toInt + cent.toInt) :
    (nTargetValue + cent).toInt < 0 := by
  have upper := nTargetValue.toInt_lt
  have cents := cent_toInt
  rw [maxMoney_toInt] at crowded
  rw [Int64.toInt_add, Int.bmod_def, cents]
  split <;> omega

theorem filter_isLower (targetNonneg : 0 ≤ nTargetValue.toInt)
    (room : nTargetValue.toInt + cent.toInt ≤ maxMoney.toInt) (coins : List Coin) :
    coins.filter (isLower nTargetValue) = lowerCoins nTargetValue coins := by
  unfold lowerCoins isLower
  refine List.filter_congr ?_
  intro coin _
  rw [decide_eq_decide, Int64.lt_iff_toInt_lt, target_add_cent targetNonneg room]

/-- The larger coins, where there is room for a cent. -/
theorem mem_larger (targetNonneg : 0 ≤ nTargetValue.toInt)
    (room : nTargetValue.toInt + cent.toInt ≤ maxMoney.toInt) {coin : Coin} :
    coin ∈ coins.filter (fun coin => !isLower nTargetValue coin) ↔
      coin ∈ coins ∧ nTargetValue.toInt + cent.toInt ≤ coin.nValue.toInt := by
  rw [List.mem_filter, isLower, Bool.not_eq_true', decide_eq_false_iff_not, Int64.lt_iff_toInt_lt,
    target_add_cent targetNonneg room, Int.not_lt]

/-- Without room for a cent there are only larger coins. -/
theorem isLower_of_crowded (crowded : maxMoney.toInt < nTargetValue.toInt + cent.toInt)
    (nonneg : ∀ coin ∈ coins, 0 ≤ coin.nValue.toInt) :
    coins.filter (isLower nTargetValue) = [] ∧ coins.filter (fun coin => !isLower nTargetValue coin) = coins := by
  have larger : ∀ coin ∈ coins, isLower nTargetValue coin = false := by
    intro coin member
    have negative := target_add_cent_neg crowded
    have := nonneg coin member
    rw [isLower, decide_eq_false_iff_not, Int64.lt_iff_toInt_lt]
    omega
  refine ⟨List.filter_eq_nil_iff.mpr ?_, List.filter_eq_self.mpr ?_⟩
  · intro coin member
    rw [larger coin member]
    exact Bool.false_ne_true
  · intro coin member
    rw [larger coin member]
    rfl

theorem sortDescending_perm (vValue : List Coin) : (sortDescending vValue).Perm vValue :=
  List.mergeSort_perm _ _

/-- A single coin that reaches the target covers it. -/
theorem covers_single {coin : Coin} (member : coin ∈ coins)
    (reached : nTargetValue.toInt ≤ coin.nValue.toInt) : Covers coins nTargetValue (takeCoins [coin] ([], 0)) := by
  have alone : (List.map Coin.key [coin]).Nodup := List.nodup_singleton _
  rw [takeCoins_eq alone]
  exact ⟨alone, by simpa using member, by simp, by simpa using reached⟩

/-- So do distinct coins whose exact sum is in range and reaches it. -/
theorem covers_list {some : List Coin} (distinct : (coins.map Coin.key).Nodup) {perm : List Coin}
    (sublist : some.Sublist perm) (permuted : perm.Perm (lowerCoins nTargetValue coins))
    (nonneg : ∀ coin ∈ coins, 0 ≤ coin.nValue.toInt) (inRange : coinSum some ≤ maxMoney.toInt)
    (reached : nTargetValue.toInt ≤ coinSum some) : Covers coins nTargetValue (takeCoins some ([], 0)) := by
  have members : ∀ coin ∈ some, coin ∈ coins := fun coin member =>
    List.mem_of_mem_filter (permuted.subset (sublist.subset member))
  have keys : (some.map Coin.key).Nodup := by
    have lower : ((lowerCoins nTargetValue coins).map Coin.key).Nodup :=
      distinct.sublist (List.filter_sublist.map _)
    exact ((permuted.map _).nodup_iff.mpr lower).sublist (sublist.map _)
  rw [takeCoins_eq keys]
  have sumNonneg := coinSum_nonneg fun coin member => nonneg coin (members coin member)
  exact ⟨keys, members, toInt_ofInt_eq (by omega) inRange, reached⟩

/-- The subset search finds coins that reach the target and tells their exact sum. -/
theorem solveSubset_exact (rand : CoinRandom) {vValue : List Coin} {nTotalLower : Int64}
    (targetNonneg : 0 ≤ nTargetValue.toInt) (room : nTargetValue.toInt + cent.toInt ≤ maxMoney.toInt)
    (nonneg : ∀ coin ∈ vValue, 0 ≤ coin.nValue.toInt) (total : nTotalLower.toInt = coinSum vValue)
    (reached : nTargetValue.toInt ≤ nTotalLower.toInt) :
    (solveSubset nTargetValue rand vValue nTotalLower).2.toInt =
        coinSum (flagged vValue (solveSubset nTargetValue rand vValue nTotalLower).1) ∧
      nTargetValue.toInt ≤ (solveSubset nTargetValue rand vValue nTotalLower).2.toInt := by
  simp only [solveSubset]
  split
  · rename_i again
    rw [Int64.le_iff_toInt_le] at again
    obtain ⟨sum, enough⟩ := approximateBestSubset_exact nonneg total again.2 rand.moreBits 1000
    rw [target_add_cent targetNonneg room] at enough
    have cents := cent_toInt
    exact ⟨sum, by omega⟩
  · exact approximateBestSubset_exact nonneg total reached rand.bits 1000

/-- Where the lower coins do not reach the target, the choice is the lowest larger one. -/
theorem chooseCoins_short (rand : CoinRandom) (vValue : List Coin) {nTotalLower : Int64}
    (below : nTotalLower.toInt < nTargetValue.toInt) (lowest : Option Coin) :
    chooseCoins nTargetValue rand vValue nTotalLower lowest =
      lowest.elim (false, [], 0) fun coin => (true, takeCoins [coin] ([], 0)) := by
  have miss : nTotalLower ≠ nTargetValue := by
    intro same
    rw [same] at below
    exact lt_irrefl _ below
  unfold chooseCoins
  rw [if_neg miss, if_pos (Int64.lt_iff_toInt_lt.mpr below)]
  cases lowest <;> rfl

/-- What the choice among sorted coins comes to where the lower coins sum up in range: coins that
cover the target, or none where the lower coins do not reach it and all others have the
largest value. -/
theorem chooseCoins_cases (rand : CoinRandom) (targetNonneg : 0 ≤ nTargetValue.toInt)
    (room : nTargetValue.toInt + cent.toInt ≤ maxMoney.toInt) (distinct : (coins.map Coin.key).Nodup)
    (nonneg : ∀ coin ∈ coins, 0 ≤ coin.nValue.toInt)
    (inRange : coinSum (lowerCoins nTargetValue coins) ≤ maxMoney.toInt) {result : Bool × CoinSet × Int64}
    (chosen : result = chooseCoins nTargetValue rand (lowerCoins nTargetValue coins)
      (Int64.ofInt (coinSum (lowerCoins nTargetValue coins)))
      ((coins.filter fun coin => !isLower nTargetValue coin).foldl lowerOf none)) :
    (result.1 = true ∧ Covers coins nTargetValue result.2) ∨
      (result.1 = false ∧ coinSum (lowerCoins nTargetValue coins) < nTargetValue.toInt ∧
        ∀ coin ∈ coins, nTargetValue.toInt + cent.toInt ≤ coin.nValue.toInt → coin.nValue = maxMoney) := by
  have cents := cent_toInt
  have lowerNonneg : ∀ coin ∈ lowerCoins nTargetValue coins, 0 ≤ coin.nValue.toInt :=
    fun coin member => nonneg coin (List.mem_of_mem_filter member)
  have sumNonneg := coinSum_nonneg lowerNonneg
  have total : (Int64.ofInt (coinSum (lowerCoins nTargetValue coins))).toInt =
      coinSum (lowerCoins nTargetValue coins) := toInt_ofInt_eq (by omega) inRange
  have lowest := lowest_cases (coins.filter fun coin => !isLower nTargetValue coin)
  simp only [mem_larger targetNonneg room] at lowest
  rcases lt_trichotomy (coinSum (lowerCoins nTargetValue coins)) nTargetValue.toInt with below | hit | above
  · rw [chooseCoins_short rand _ (total.trans_lt below)] at chosen
    rcases lowest with ⟨none, largest⟩ | ⟨coin, ⟨member, reached⟩, some, -, -⟩
    · rw [none] at chosen
      subst chosen
      exact Or.inr ⟨rfl, below, fun coin member reached => largest coin ⟨member, reached⟩⟩
    · rw [some] at chosen
      subst chosen
      exact Or.inl ⟨rfl, covers_single member (by omega)⟩
  · have same : Int64.ofInt (coinSum (lowerCoins nTargetValue coins)) = nTargetValue := by
      rw [hit, Int64.ofInt_toInt]
    unfold chooseCoins at chosen
    rw [if_pos same] at chosen
    subst chosen
    exact Or.inl ⟨rfl, covers_list distinct (List.Sublist.refl _) (List.Perm.refl _) nonneg inRange hit.ge⟩
  · have miss : ¬Int64.ofInt (coinSum (lowerCoins nTargetValue coins)) = nTargetValue := by
      intro same
      rw [same] at total
      omega
    have notBelow : ¬Int64.ofInt (coinSum (lowerCoins nTargetValue coins)) < nTargetValue := by
      rw [Int64.lt_iff_toInt_lt, total]
      omega
    unfold chooseCoins at chosen
    rw [if_neg miss, if_neg notBelow] at chosen
    have permuted := sortDescending_perm (lowerCoins nTargetValue coins)
    obtain ⟨sum, reached⟩ := solveSubset_exact rand targetNonneg room
      (fun coin member => lowerNonneg coin (permuted.subset member))
      (total.trans (coinSum_perm permuted).symm) (above.le.trans_eq total.symm)
    have subset : Covers coins nTargetValue (takeCoins (flagged
        (sortDescending (lowerCoins nTargetValue coins)) (solveSubset nTargetValue rand
          (sortDescending (lowerCoins nTargetValue coins))
          (Int64.ofInt (coinSum (lowerCoins nTargetValue coins)))).1) ([], 0)) :=
      covers_list distinct (flagged_sublist _ _) permuted nonneg (sum ▸ le_maxMoney _) (sum ▸ reached)
    rcases lowest with ⟨none, -⟩ | ⟨coin, ⟨member, larger⟩, some, -, -⟩
    · rw [none] at chosen
      subst chosen
      exact Or.inl ⟨rfl, subset⟩
    · rw [some] at chosen
      dsimp only at chosen
      split at chosen
      · subst chosen
        exact Or.inl ⟨rfl, covers_single member (by omega)⟩
      · subst chosen
        exact Or.inl ⟨rfl, subset⟩

/-- Coins of which no larger one is missed, unless there is a lower-valued one, do not reach the
target when none has been chosen. -/
theorem coinSum_lt_of_hopeless (below : coinSum (lowerCoins nTargetValue coins) < nTargetValue.toInt)
    (largest : ∀ coin ∈ coins, nTargetValue.toInt + cent.toInt ≤ coin.nValue.toInt → coin.nValue = maxMoney)
    (found : nTargetValue.toInt ≤ coinSum (lowerCoins nTargetValue coins) ∨
      (∀ coin ∈ coins, coin.nValue ≠ maxMoney) ∨
      ∃ coin ∈ coins, nTargetValue.toInt + cent.toInt ≤ coin.nValue.toInt ∧ coin.nValue ≠ maxMoney) :
    coinSum coins < nTargetValue.toInt := by
  have allLower : lowerCoins nTargetValue coins = coins := by
    rw [lowerCoins, List.filter_eq_self]
    intro coin member
    rw [decide_eq_true_eq]
    by_contra high
    have same := largest coin member (Int.not_lt.mp high)
    rcases found with enough | other | ⟨other, inCoins, reached, belowMax⟩
    · omega
    · exact other coin member same
    · exact belowMax (largest other inCoins reached)
  rw [allLower] at below
  exact below

end Choosing

section Outcomes

variable {isFromMe : Coin → Bool} {nTargetValue : Int64} {nSpendTime : UInt32} {nConfMine nConfTheirs : Int}
  {vCoins : List COutput}

/-- Whatever the random numbers, the selection from the eligible coins comes out right. -/
def AlwaysSelected (isFromMe : Coin → Bool) (nTargetValue : Int64) (nSpendTime : UInt32)
    (nConfMine nConfTheirs : Int) (vCoins : List COutput) : Prop :=
  ∀ rand, ∃ result, selectCoinsMinConf (fun coin => some (isFromMe coin)) nTargetValue nSpendTime nConfMine
      nConfTheirs rand vCoins = some result ∧
    Selected (eligibleCoins isFromMe nSpendTime nConfMine nConfTheirs vCoins) nTargetValue result

/-- Shuffling the coins shuffles the eligible ones. -/
theorem eligibleCoins_perm {shuffled : List COutput} (perm : shuffled.Perm vCoins) :
    (eligibleCoins isFromMe nSpendTime nConfMine nConfTheirs shuffled).Perm
      (eligibleCoins isFromMe nSpendTime nConfMine nConfTheirs vCoins) :=
  (perm.filter _).map _

theorem eligibleCoins_sublist :
    (eligibleCoins isFromMe nSpendTime nConfMine nConfTheirs vCoins).Sublist (vCoins.map COutput.coin) :=
  List.filter_sublist.map _

theorem Covers.of_perm {first second : List Coin} {ret : CoinSet × Int64} (covers : Covers first nTargetValue ret)
    (perm : first.Perm second) : Covers second nTargetValue ret :=
  ⟨covers.distinct, fun coin member => perm.subset (covers.members coin member), covers.total, covers.reached⟩

/-- Selections are right or not whatever the order of the coins. -/
theorem Selected.of_perm {first second : List Coin} {result : Bool × CoinSet × Int64}
    (selected : Selected first nTargetValue result) (perm : first.Perm second) :
    Selected second nTargetValue result := by
  refine ⟨fun yes => (selected.taken yes).of_perm perm, fun no => ?_⟩
  rw [← coinSum_perm perm]
  exact selected.short no

theorem lowerCoins_perm {first second : List Coin} (perm : first.Perm second) :
    coinSum (lowerCoins nTargetValue first) = coinSum (lowerCoins nTargetValue second) :=
  coinSum_perm (perm.filter _)

theorem Selectable.of_perm {first second : List Coin} (selectable : Selectable first nTargetValue)
    (perm : first.Perm second) : Selectable second nTargetValue := by
  have same : coinSum (lowerCoins nTargetValue first) = coinSum (lowerCoins nTargetValue second) :=
    lowerCoins_perm perm
  simpa only [Selectable, same, perm.mem_iff, ← List.length_eq_zero_iff, perm.length_eq] using selectable

theorem NeverShort.of_perm {first second : List Coin} (never : NeverShort first nTargetValue)
    (perm : first.Perm second) : NeverShort second nTargetValue := by
  have same : coinSum (lowerCoins nTargetValue first) = coinSum (lowerCoins nTargetValue second) :=
    lowerCoins_perm perm
  simpa only [NeverShort, same, perm.mem_iff] using never

theorem Hopeless.of_perm {first second : List Coin} (hopeless : Hopeless first nTargetValue)
    (perm : first.Perm second) : Hopeless second nTargetValue := by
  have same : coinSum (lowerCoins nTargetValue first) = coinSum (lowerCoins nTargetValue second) :=
    lowerCoins_perm perm
  simpa only [Hopeless, same, perm.mem_iff] using hopeless

/-- What `SelectCoinsMinConf` comes to, after the shuffle. -/
theorem selectCoinsMinConf_cases (rand : CoinRandom) (vCoins : List COutput) :
    (∃ coin ∈ eligibleCoins isFromMe nSpendTime nConfMine nConfTheirs (rand.shuffle vCoins),
      coin.nValue = nTargetValue ∧
      selectCoinsMinConf (fun coin => some (isFromMe coin)) nTargetValue nSpendTime nConfMine nConfTheirs rand
        vCoins = some (true, takeCoins [coin] ([], 0))) ∨
    ∃ coins, coins = eligibleCoins isFromMe nSpendTime nConfMine nConfTheirs (rand.shuffle vCoins) ∧
      (∀ coin ∈ coins, coin.nValue ≠ nTargetValue) ∧
      selectCoinsMinConf (fun coin => some (isFromMe coin)) nTargetValue nSpendTime nConfMine nConfTheirs rand
        vCoins = some (chooseCoins nTargetValue rand (coins.filter (isLower nTargetValue))
          (Int64.ofInt (coinSum (coins.filter (isLower nTargetValue))))
          ((coins.filter fun coin => !isLower nTargetValue coin).foldl lowerOf none)) := by
  simp only [selectCoinsMinConf, scanCoins_eq]
  rcases @sortCoins_cases nTargetValue
    (eligibleCoins isFromMe nSpendTime nConfMine nConfTheirs (rand.shuffle vCoins)) [] 0 none with
    ⟨coin, member, hit, scanned⟩ | ⟨none, scanned⟩
  · exact Or.inl ⟨coin, member, hit, by rw [scanned]⟩
  · exact Or.inr ⟨_, rfl, none, by rw [scanned, Int64.zero_add, List.nil_append]⟩

/-- Where no selection falls short, one that says yes covers the target, and one that says no is
hopeless. -/
theorem selectCoinsMinConf_neverShort (distinct : ((vCoins.map COutput.coin).map Coin.key).Nodup)
    (nonneg : ∀ output ∈ vCoins, 0 ≤ output.coin.nValue.toInt) (targetNonneg : 0 ≤ nTargetValue.toInt)
    (never : NeverShort (eligibleCoins isFromMe nSpendTime nConfMine nConfTheirs vCoins) nTargetValue)
    (rand : CoinRandom) :
    ∃ result, selectCoinsMinConf (fun coin => some (isFromMe coin)) nTargetValue nSpendTime nConfMine
        nConfTheirs rand vCoins = some result ∧
      (result.1 = true →
        Covers (eligibleCoins isFromMe nSpendTime nConfMine nConfTheirs vCoins) nTargetValue result.2) ∧
      (result.1 = false →
        Hopeless (eligibleCoins isFromMe nSpendTime nConfMine nConfTheirs vCoins) nTargetValue) := by
  have perm : (eligibleCoins isFromMe nSpendTime nConfMine nConfTheirs (rand.shuffle vCoins)).Perm
      (eligibleCoins isFromMe nSpendTime nConfMine nConfTheirs vCoins) := eligibleCoins_perm (rand.shuffled vCoins)
  rcases @selectCoinsMinConf_cases isFromMe nTargetValue nSpendTime nConfMine nConfTheirs rand vCoins with
    ⟨coin, member, hit, run⟩ | ⟨coins, same, none, run⟩
  · exact ⟨_, run, fun _ => covers_single (perm.subset member) (by rw [hit]), by simp⟩
  rw [← same] at perm
  have keys : (coins.map Coin.key).Nodup :=
    (perm.map _).nodup_iff.mpr (distinct.sublist (eligibleCoins_sublist.map _))
  have amounts : ∀ coin ∈ coins, 0 ≤ coin.nValue.toInt := by
    intro coin member
    obtain ⟨output, listed, rfl⟩ := List.mem_map.mp (eligibleCoins_sublist.subset (perm.subset member))
    exact nonneg output listed
  refine ⟨_, run, ?_⟩
  rcases never.of_perm perm.symm with ⟨coin, member, hit⟩ | ⟨room, inRange⟩ | ⟨crowded, all⟩
  · exact absurd hit (none coin member)
  · rw [filter_isLower targetNonneg room]
    rcases chooseCoins_cases rand targetNonneg room keys amounts inRange rfl with
      ⟨yes, covers⟩ | ⟨no, below, largest⟩
    · exact ⟨fun _ => covers.of_perm perm, fun no => absurd (yes.symm.trans no) (by decide)⟩
    · refine ⟨fun yes => absurd (yes.symm.trans no) (by decide), fun _ => Hopeless.of_perm ?_ perm⟩
      exact ⟨none, fun _ => below, fun coin member high => largest coin member (high.resolve_right (by omega))⟩
  · obtain ⟨lower, larger⟩ := isLower_of_crowded crowded amounts
    have cents := cent_toInt
    have below : (Int64.ofInt (coinSum [])).toInt < nTargetValue.toInt := by
      rw [maxMoney_toInt] at crowded
      change (0 : Int) < _
      omega
    rw [lower, larger, chooseCoins_short rand [] below]
    rcases lowest_cases coins with ⟨absent, largest⟩ | ⟨coin, member, found, -, -⟩
    · rw [absent]
      refine ⟨by simp, fun _ => Hopeless.of_perm ?_ perm⟩
      exact ⟨none, fun room => by omega, fun coin member _ => largest coin member⟩
    · rw [found]
      exact ⟨fun _ => (covers_single member (all coin member)).of_perm perm, by simp⟩

/-- Under the condition no selection falls short, and a hopeless one is right. -/
theorem Selectable.neverShort {coins : List Coin} (selectable : Selectable coins nTargetValue) :
    NeverShort coins nTargetValue := by
  rcases selectable with hit | ⟨room, inRange, -⟩ | ⟨crowded, all, -⟩
  · exact Or.inl hit
  · exact Or.inr (Or.inl ⟨room, inRange⟩)
  · exact Or.inr (Or.inr ⟨crowded, all⟩)

theorem Selectable.coinSum_lt {coins : List Coin} (selectable : Selectable coins nTargetValue)
    (positive : 0 < nTargetValue.toInt) (hopeless : Hopeless coins nTargetValue) :
    coinSum coins < nTargetValue.toInt := by
  obtain ⟨none, below, largest⟩ := hopeless
  rcases selectable with ⟨coin, member, hit⟩ | ⟨room, -, found⟩ | ⟨crowded, -, empty | ⟨coin, member, other⟩⟩
  · exact absurd hit (none coin member)
  · exact coinSum_lt_of_hopeless (below room) (fun coin member high => largest coin member (Or.inl high)) found
  · rw [empty]
    exact positive
  · exact absurd (largest coin member (Or.inr crowded)) other

/-- The condition is enough. -/
theorem alwaysSelected_of_selectable (distinct : ((vCoins.map COutput.coin).map Coin.key).Nodup)
    (nonneg : ∀ output ∈ vCoins, 0 ≤ output.coin.nValue.toInt) (positive : 0 < nTargetValue.toInt)
    (selectable : Selectable (eligibleCoins isFromMe nSpendTime nConfMine nConfTheirs vCoins) nTargetValue) :
    AlwaysSelected isFromMe nTargetValue nSpendTime nConfMine nConfTheirs vCoins := by
  intro rand
  obtain ⟨result, run, taken, hopeless⟩ :=
    selectCoinsMinConf_neverShort distinct nonneg positive.le selectable.neverShort rand
  exact ⟨result, run, taken, fun no => selectable.coinSum_lt positive (hopeless no)⟩

/-- Random numbers that change nothing. -/
def plainRandom : CoinRandom where
  shuffle := id
  shuffled _ := List.Perm.refl _
  bits _ _ := false
  moreBits _ _ := false

/-- A selection that comes out right in one run already shows the condition, unless the
lower coins sum up beyond the range. -/
theorem selectable_of_alwaysSelected (nonneg : ∀ output ∈ vCoins, 0 ≤ output.coin.nValue.toInt)
    (positive : 0 < nTargetValue.toInt)
    (inRange : nTargetValue.toInt + cent.toInt ≤ maxMoney.toInt → coinSum (lowerCoins nTargetValue
      (eligibleCoins isFromMe nSpendTime nConfMine nConfTheirs vCoins)) ≤ maxMoney.toInt)
    (always : AlwaysSelected isFromMe nTargetValue nSpendTime nConfMine nConfTheirs vCoins) :
    Selectable (eligibleCoins isFromMe nSpendTime nConfMine nConfTheirs vCoins) nTargetValue := by
  obtain ⟨result, run, selected⟩ := always plainRandom
  have perm : (eligibleCoins isFromMe nSpendTime nConfMine nConfTheirs (plainRandom.shuffle vCoins)).Perm
      (eligibleCoins isFromMe nSpendTime nConfMine nConfTheirs vCoins) :=
    eligibleCoins_perm (plainRandom.shuffled vCoins)
  refine Selectable.of_perm ?_ perm
  replace selected := selected.of_perm perm.symm
  rw [← lowerCoins_perm perm] at inRange
  rcases @selectCoinsMinConf_cases isFromMe nTargetValue nSpendTime nConfMine nConfTheirs plainRandom vCoins with
    ⟨coin, member, hit, -⟩ | ⟨coins, same, none, chosen⟩
  · exact Or.inl ⟨coin, member, hit⟩
  rw [← same] at perm selected inRange ⊢
  rw [chosen, Option.some.injEq] at run
  subst run
  have amounts : ∀ coin ∈ coins, 0 ≤ coin.nValue.toInt := by
    intro coin member
    obtain ⟨output, listed, rfl⟩ := List.mem_map.mp (eligibleCoins_sublist.subset (perm.subset member))
    exact nonneg output listed
  have reach : ∀ coin ∈ coins, coin.nValue = maxMoney → ¬coinSum coins < nTargetValue.toInt := by
    intro coin member largest
    have upper := le_maxMoney nTargetValue
    have single := le_coinSum amounts member
    rw [largest] at single
    exact Int.not_lt.mpr (upper.trans single)
  have lowest := lowest_cases (coins.filter fun coin => !isLower nTargetValue coin)
  by_cases room : nTargetValue.toInt + cent.toInt ≤ maxMoney.toInt
  · refine Or.inr (Or.inl ⟨room, inRange room, ?_⟩)
    by_cases enough : nTargetValue.toInt ≤ coinSum (lowerCoins nTargetValue coins)
    · exact Or.inl enough
    have cents := cent_toInt
    have sumNonneg : 0 ≤ coinSum (lowerCoins nTargetValue coins) :=
      coinSum_nonneg fun coin member => amounts coin (List.mem_of_mem_filter member)
    have below : (Int64.ofInt (coinSum (lowerCoins nTargetValue coins))).toInt < nTargetValue.toInt := by
      rw [toInt_ofInt_eq (by omega) (inRange room)]
      exact Int.not_le.mp enough
    rw [filter_isLower positive.le room, chooseCoins_short plainRandom _ below] at selected
    simp only [mem_larger positive.le room] at lowest
    rcases lowest with ⟨absent, -⟩ | ⟨coin, ⟨member, reached⟩, -, notLargest, -⟩
    · rw [absent] at selected
      exact Or.inr (Or.inl fun coin member largest => reach coin member largest (selected.short rfl))
    · exact Or.inr (Or.inr ⟨coin, member, reached, notLargest⟩)
  · refine Or.inr (Or.inr ⟨Int.not_le.mp room, ?_⟩)
    obtain ⟨lower, larger⟩ := isLower_of_crowded (Int.not_le.mp room) amounts
    have below : (Int64.ofInt (coinSum [])).toInt < nTargetValue.toInt := positive
    rw [lower, larger, chooseCoins_short plainRandom [] below] at selected
    rw [larger] at lowest
    rcases lowest with ⟨absent, largest⟩ | ⟨coin, member, found, notLargest, all⟩
    · rw [absent] at selected
      have none : ∀ coin, coin ∉ coins := fun coin member =>
        reach coin member (largest coin member) (selected.short rfl)
      exact ⟨fun coin member => absurd member (none coin), Or.inl (List.eq_nil_iff_forall_not_mem.mpr none)⟩
    · have alone : (List.map Coin.key [coin]).Nodup := List.nodup_singleton _
      rw [found, Option.elim_some, takeCoins_eq alone] at selected
      have reached := (selected.taken rfl).reached
      rw [coinSum_cons, coinSum_nil, Int.add_zero] at reached
      exact ⟨fun other inCoins => reached.trans (all other inCoins), Or.inr ⟨coin, member, notLargest⟩⟩

end Outcomes

/-- Under the condition `SelectCoinsMinConf` takes distinct eligible coins, tells their exact sum and
reaches the target, or the eligible coins do not, whatever the random numbers. Where the
lower coins sum up in range nothing less will do. `ApproximateBestSubset` tells the exact
sum of its subset and reaches its target, as long as it is told the exact total. -/
theorem selectCoinsMinConf_right_iff {isFromMe : Coin → Bool} {nTargetValue : Int64} {nSpendTime : UInt32}
    {nConfMine nConfTheirs : Int} {vCoins : List COutput}
    (distinct : ((vCoins.map COutput.coin).map Coin.key).Nodup)
    (nonneg : ∀ output ∈ vCoins, 0 ≤ output.coin.nValue.toInt) (positive : 0 < nTargetValue.toInt) :
    (Selectable (eligibleCoins isFromMe nSpendTime nConfMine nConfTheirs vCoins) nTargetValue →
      AlwaysSelected isFromMe nTargetValue nSpendTime nConfMine nConfTheirs vCoins) ∧
    ((nTargetValue.toInt + cent.toInt ≤ maxMoney.toInt → coinSum (lowerCoins nTargetValue
        (eligibleCoins isFromMe nSpendTime nConfMine nConfTheirs vCoins)) ≤ maxMoney.toInt) →
      AlwaysSelected isFromMe nTargetValue nSpendTime nConfMine nConfTheirs vCoins →
      Selectable (eligibleCoins isFromMe nSpendTime nConfMine nConfTheirs vCoins) nTargetValue) ∧
    ∀ (bits : Nat → Nat → Bool) (vValue : List Coin) (nTotalLower nTarget : Int64) (iterations : Nat),
      (∀ coin ∈ vValue, 0 ≤ coin.nValue.toInt) → nTotalLower.toInt = coinSum vValue →
      nTarget.toInt ≤ nTotalLower.toInt →
      (approximateBestSubset bits vValue nTotalLower nTarget iterations).2.toInt =
          coinSum (flagged vValue (approximateBestSubset bits vValue nTotalLower nTarget iterations).1) ∧
        nTarget.toInt ≤ (approximateBestSubset bits vValue nTotalLower nTarget iterations).2.toInt :=
  ⟨alwaysSelected_of_selectable distinct nonneg positive, selectable_of_alwaysSelected nonneg positive,
    fun bits _ _ _ iterations amounts total reached =>
      approximateBestSubset_exact amounts total reached bits iterations⟩

section Concrete

/-- A confirmed output of the given value. -/
def confirmedCoin (label : UInt32) (nValue : Int64) : COutput where
  coin :=
    { hash := label.toNat
      tx := ⟨CWalletTx.ofTx (.labelledSpend label 0 ⟨9, 0⟩ nValue), [], []⟩
      i := 0
      inRange := Nat.zero_lt_one }
  nDepth := 20

/-- Two coins, of which the target takes both. -/
theorem selectCoinsMinConf_right_pair :
    AlwaysSelected (fun _ => false) (3 * coin) 0 1 1 [confirmedCoin 1 (2 * coin), confirmedCoin 2 (2 * coin)] :=
  (selectCoinsMinConf_right_iff (by decide +kernel) (by decide +kernel) (by decide +kernel)).1
    (Or.inr (Or.inl ⟨by decide +kernel, by decide +kernel, Or.inr (Or.inl (by decide +kernel))⟩))

/-- A target close to the largest value is met with a coin of one base unit, and a wallet
with a coin of the largest value is told that it has nothing. -/
theorem selectCoinsMinConf_wrong :
    ¬AlwaysSelected (fun _ => false) maxMoney 0 1 1 [confirmedCoin 1 1] ∧
      ¬AlwaysSelected (fun _ => false) coin 0 1 1 [confirmedCoin 1 maxMoney] := by
  constructor
  · intro always
    obtain ⟨result, run, selected⟩ := always plainRandom
    have outcome : (selectCoinsMinConf (fun _ => some false) maxMoney 0 1 1 plainRandom
        [confirmedCoin 1 1]).map (fun result => (result.1, result.2.2)) = some (true, 1) := by decide +kernel
    rw [run, Option.map_some, Option.some.injEq, Prod.mk.injEq] at outcome
    obtain ⟨-, -, sum, reached⟩ := selected.taken outcome.1
    rw [← sum, outcome.2] at reached
    exact absurd reached (by decide)
  · intro always
    obtain ⟨result, run, selected⟩ := always plainRandom
    have outcome : (selectCoinsMinConf (fun _ => some false) coin 0 1 1 plainRandom
        [confirmedCoin 1 maxMoney]).map Prod.fst = some false := by decide +kernel
    rw [run, Option.map_some, Option.some.injEq] at outcome
    exact absurd (selected.short outcome) (by decide +kernel)

end Concrete

end InfiniteRicks
