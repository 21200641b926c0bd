import InfiniteRicks.Accounts
import InfiniteRicks.Library.Flagged

/-!
# Coin selection

`SelectCoinsMinConf` with `ApproximateBestSubset` (`wallet.cpp`). The random numbers are
parameters: how the coins are shuffled, and the bits that the first pass of each round of the
subset search draws. `std::sort` may leave equal values in any order; shuffling has put them
into any order before.
-/

namespace InfiniteRicks

open Library.Flagged

/-- `pair<const CWalletTx*, unsigned int>`: an output of a wallet transaction. Transactions
of the wallet are told apart by their keys in `mapWallet`. -/
structure Coin where
  hash : UInt256
  tx : AccountTx
  i : UInt32
  inRange : i.toNat < tx.wtx.tx.vout.length

namespace Coin

/-- `pcoin->vout[i]`. -/
def txout (coin : Coin) : CTxOut := coin.tx.wtx.tx.vout.get ⟨coin.i.toNat, coin.inRange⟩

/-- `pcoin->vout[i].nValue`. -/
def nValue (coin : Coin) : Int64 := coin.txout.nValue

/-- What tells a coin apart: the pointer and the index. -/
def key (coin : Coin) : UInt256 × UInt32 := (coin.hash, coin.i)

end Coin

/-- `COutput`. -/
structure COutput where
  coin : Coin
  nDepth : Int

/-- A set of coins, as the list of its elements. -/
abbrev CoinSet := List Coin

/-- `set::insert`. -/
def CoinSet.insert (setCoins : CoinSet) (coin : Coin) : CoinSet :=
  if setCoins.any fun other => other.key = coin.key then setCoins else setCoins ++ [coin]

/-- `setCoinsRet` and `nValueRet` after coins have been taken. -/
def takeCoins (coins : List Coin) (ret : CoinSet × Int64) : CoinSet × Int64 :=
  coins.foldl (fun ret coin => (CoinSet.insert ret.1 coin, ret.2 + coin.nValue)) ret

/-- Random numbers of a `SelectCoinsMinConf`. -/
structure CoinRandom where
  /-- `random_shuffle`. -/
  shuffle : List COutput → List COutput
  shuffled : ∀ vCoins, (shuffle vCoins).Perm vCoins
  /-- `insecure_rand() & 1` in the first search, by round and coin. -/
  bits : Nat → Nat → Bool
  /-- The same in the second search. -/
  moreBits : Nat → Nat → Bool

/-- Loop variables of `ApproximateBestSubset`. -/
structure SubsetSearch where
  nTotal : Int64
  vfIncluded : List Bool
  fReachedTarget : Bool
  vfBest : List Bool
  nBest : Int64

namespace SubsetSearch

/-- A coin is included. When the target is reached, the subset is kept if it is the best so
far, and the coin is taken out again. -/
def includeCoin (nTargetValue : Int64) (i : Nat) (nValue : Int64) (search : SubsetSearch) : SubsetSearch :=
  let nTotal := search.nTotal + nValue
  let vfIncluded := search.vfIncluded.set i true
  if nTargetValue ≤ nTotal then
    { nTotal := nTotal - nValue
      vfIncluded := vfIncluded.set i false
      fReachedTarget := true
      vfBest := if nTotal < search.nBest then vfIncluded else search.vfBest
      nBest := if nTotal < search.nBest then nTotal else search.nBest }
  else { search with nTotal := nTotal, vfIncluded := vfIncluded }

/-- A pass over the coins from `i` on. -/
def pass (nTargetValue : Int64) (included : SubsetSearch → Nat → Bool) :
    Nat → List Coin → SubsetSearch → SubsetSearch
  | _, [], search => search
  | i, coin :: rest, search =>
      pass nTargetValue included (i + 1) rest
        (if included search i then search.includeCoin nTargetValue i coin.nValue else search)

/-- A round: a pass over random coins, and where the target is not reached a pass over the
others. -/
def round (nTargetValue : Int64) (vValue : List Coin) (bits : Nat → Bool) (search : SubsetSearch) : SubsetSearch :=
  let search :=
    { search with nTotal := 0, vfIncluded := List.replicate vValue.length false, fReachedTarget := false }
  let search := pass nTargetValue (fun _ i => bits i) 0 vValue search
  if search.fReachedTarget then search
  else pass nTargetValue (fun search i => !search.vfIncluded.getD i false) 0 vValue search

/-- At most so many rounds from `nRep` on, until the target is hit. -/
def rounds (nTargetValue : Int64) (vValue : List Coin) (bits : Nat → Nat → Bool) :
    Nat → Nat → SubsetSearch → SubsetSearch
  | 0, _, search => search
  | left + 1, nRep, search =>
      if search.nBest = nTargetValue then search
      else rounds nTargetValue vValue bits left (nRep + 1) (search.round nTargetValue vValue (bits nRep))

end SubsetSearch

/-- `ApproximateBestSubset`: `vfBest` and `nBest`. -/
def approximateBestSubset (bits : Nat → Nat → Bool) (vValue : List Coin) (nTotalLower nTargetValue : Int64)
    (iterations : Nat) : List Bool × Int64 :=
  let search := SubsetSearch.rounds nTargetValue vValue bits iterations 0
    ⟨0, [], false, List.replicate vValue.length true, nTotalLower⟩
  (search.vfBest, search.nBest)

/-- What the loop over the coins comes to: a coin of the very value, or the lower coins with
their total and the lowest larger coin. -/
inductive CoinScan where
  | exact (coin : Coin)
  | sorted (vValue : List Coin) (nTotalLower : Int64) (coinLowestLarger : Option Coin)

section Selection

variable (isFromMe : Coin → Option Bool) (nTargetValue : Int64) (nSpendTime : UInt32) (nConfMine nConfTheirs : Int)

/-- `coinLowestLarger.first`. -/
def lowestLarger (coinLowestLarger : Option Coin) : Int64 :=
  match coinLowestLarger with
  | none => Int64.maxValue
  | some coin => coin.nValue

/-- The depth that a coin needs. -/
def minDepth (fromMe : Bool) : Int := if fromMe then nConfMine else nConfTheirs

/-- The loop of `SelectCoinsMinConf` over the coins. `IsFromMe` may throw. -/
def scanCoins : List COutput → List Coin → Int64 → Option Coin → Option CoinScan
  | [], vValue, nTotalLower, coinLowestLarger => some (.sorted vValue nTotalLower coinLowestLarger)
  | output :: rest, vValue, nTotalLower, coinLowestLarger =>
      match isFromMe output.coin with
      | none => none
      | some fromMe =>
          if output.nDepth < minDepth nConfMine nConfTheirs fromMe then
            scanCoins rest vValue nTotalLower coinLowestLarger
          else if nSpendTime < output.coin.tx.wtx.tx.nTime then
            scanCoins rest vValue nTotalLower coinLowestLarger
          else if output.coin.nValue = nTargetValue then some (.exact output.coin)
          else if output.coin.nValue < nTargetValue + cent then
            scanCoins rest (vValue ++ [output.coin]) (nTotalLower + output.coin.nValue) coinLowestLarger
          else if output.coin.nValue < lowestLarger coinLowestLarger then
            scanCoins rest vValue nTotalLower (some output.coin)
          else scanCoins rest vValue nTotalLower coinLowestLarger

/-- The subset search of `SelectCoinsMinConf`, over the lower coins in descending order. -/
def solveSubset (rand : CoinRandom) (vValue : List Coin) (nTotalLower : Int64) : List Bool × Int64 :=
  let best := approximateBestSubset rand.bits vValue nTotalLower nTargetValue 1000
  if best.2 ≠ nTargetValue ∧ nTargetValue + cent ≤ nTotalLower then
    approximateBestSubset rand.moreBits vValue nTotalLower (nTargetValue + cent) 1000
  else best

/-- `sort(vValue.rbegin(), vValue.rend(), CompareValueOnly())`. -/
def sortDescending (vValue : List Coin) : List Coin :=
  vValue.mergeSort fun first second => decide (second.nValue ≤ first.nValue)

/-- `SelectCoinsMinConf` after the loop over the coins. -/
def chooseCoins (rand : CoinRandom) (vValue : List Coin) (nTotalLower : Int64) (coinLowestLarger : Option Coin) :
    Bool × CoinSet × Int64 :=
  if nTotalLower = nTargetValue then (true, takeCoins vValue ([], 0))
  else if nTotalLower < nTargetValue then
    match coinLowestLarger with
    | none => (false, [], 0)
    | some coin => (true, takeCoins [coin] ([], 0))
  else
    let best := solveSubset nTargetValue rand (sortDescending vValue) nTotalLower
    match coinLowestLarger with
    | none => (true, takeCoins (flagged (sortDescending vValue) best.1) ([], 0))
    | some coin =>
        if (best.2 ≠ nTargetValue ∧ best.2 < nTargetValue + cent) ∨ coin.nValue ≤ best.2 then
          (true, takeCoins [coin] ([], 0))
        else (true, takeCoins (flagged (sortDescending vValue) best.1) ([], 0))

/-- `SelectCoinsMinConf`: what it returns, `setCoinsRet` and `nValueRet`. -/
def selectCoinsMinConf (rand : CoinRandom) (vCoins : List COutput) : Option (Bool × CoinSet × Int64) :=
  match scanCoins isFromMe nTargetValue nSpendTime nConfMine nConfTheirs (rand.shuffle vCoins) [] 0 none with
  | none => none
  | some (.exact coin) => some (true, takeCoins [coin] ([], 0))
  | some (.sorted vValue nTotalLower coinLowestLarger) =>
      some (chooseCoins nTargetValue rand vValue nTotalLower coinLowestLarger)

end Selection

end InfiniteRicks
