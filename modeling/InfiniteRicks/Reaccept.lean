import InfiniteRicks.FixSpent
import InfiniteRicks.Rescan

/-!
# Reaccepting the transactions of a wallet

`CWallet::ReacceptWalletTransactions` (`wallet.cpp`). A round marks the outputs that the transaction
index has as spent, and scans the whole chain if it has marked one; where the scan adds a transaction,
there is another round. `AcceptWalletTransaction`, which a round calls for transactions that are in no
block, changes the memory pool only and is left out. An exception leaves the state where it is thrown.
-/

namespace InfiniteRicks

namespace CWalletTx

/-- The test at the top of the loop: one output of a generated transaction is marked spent. -/
def skipped (wtx : CWalletTx) : Bool :=
  (wtx.tx.isCoinBase && wtx.isSpent 0) || (wtx.tx.isCoinStake && wtx.isSpent 1)

/-- The body of the loop over `vSpent`, with `vMissingTx`. `vSpent` is as long as `vout` there. -/
def noteSpent (keys : WalletKeys) (state : CWalletTx × List CDiskTxPos) (entry : CDiskTxPos × Nat) :
    CWalletTx × List CDiskTxPos :=
  match state.1.tx.vout[entry.2]? with
  | none => state
  | some txout =>
      if state.1.isSpent entry.2 then state
      else if !entry.1.isNull && keys.isMine txout.scriptPubKey then
        ((state.1.markSpent entry.2).getD state.1, state.2 ++ [entry.1])
      else state

end CWalletTx

section Code

variable (env : Env) (keys : WalletKeys) (s : Node)

/-- The body of the loop over the wallet, with `vMissingTx`. The log line asks for the credit of a transaction
that has been updated. -/
def reacceptTx (state : WalletCoins × List CDiskTxPos) (hash : UInt256) :
    Except WalletCoins (WalletCoins × List CDiskTxPos) :=
  let (w, vMissingTx) := state
  match w.mapWallet hash with
  | none => .ok state
  | some wtx =>
      if wtx.skipped then .ok state
      else
        match s.txdb.fresh.readTxIndex (env.txHash wtx.tx) with
        | none => .ok state
        | some txindex =>
            if txindex.vSpent.length ≠ wtx.tx.vout.length then .ok state
            else
              match txindex.vSpent.zipIdx.foldl (CWalletTx.noteSpent keys) (wtx, []) with
              | (_, []) => .ok state
              | (wtx, found) =>
                  match w.getCredit keys wtx true with
                  | (none, wtx) => .error (w.set hash wtx)
                  | (some _, wtx) => .ok (w.set hash wtx.markDirty, vMissingTx ++ found)

/-- `AddToWalletIfInvolvingMe` as the scan calls it: after an exception nothing more is called. -/
def addUnlessThrown : AddIfInvolved (Except PooledCoins PooledCoins) := fun w tx block fUpdate =>
  match w with
  | .error w => ⟨.error w, false, []⟩
  | .ok w =>
      match w.coins.addToWalletIfInvolvingMe env keys (w.pool.map PoolKey.id) tx (some block) fUpdate with
      | .error coins => ⟨.error { w with coins := coins }, false, []⟩
      | .ok _ =>
          let offer := PooledCoins.addToWalletIfInvolvingMe env keys w tx block fUpdate
          ⟨.ok offer.wallet, offer.added, offer.generated⟩

/-- The wallet with its birthday. -/
structure ReacceptState where
  wallet : PooledCoins
  nTimeFirstKey : Int64

/-- The order of a loop over `mapWallet`. -/
structure MapOrder (w : WalletCoins) (hashes : List UInt256) : Prop where
  sorted : hashes.Pairwise (· < ·)
  complete : ∀ hash, hash ∈ hashes ↔ (w.mapWallet hash).isSome = true

/-- One round, over the wallet in its order, and `fRepeat` after it. -/
def reacceptRound (hashes : List UInt256) (state : ReacceptState) : Except PooledCoins (ReacceptState × Bool) :=
  match hashes.foldlM (reacceptTx env keys s) (state.wallet.coins, []) with
  | .error coins => .error { state.wallet with coins := coins }
  | .ok (coins, []) => .ok (⟨{ state.wallet with coins := coins }, state.nTimeFirstKey⟩, false)
  | .ok (coins, _ :: _) =>
      let scan := scanForWalletTransactions (addUnlessThrown env keys) s s.pindexGenesisBlock false
        (.ok { state.wallet with coins := coins }) state.nTimeFirstKey
      match scan.wallet with
      | .error wallet => .error wallet
      | .ok wallet => .ok (⟨wallet, scan.nTimeFirstKey⟩, decide (scan.ret ≠ 0))

/-- `ReacceptWalletTransactions`, from a state to the one in which it returns, and the state in which its last
round begins. -/
inductive Reaccepts : ReacceptState → ReacceptState → ReacceptState → Prop
  | last {state after hashes} (order : MapOrder state.wallet.coins hashes)
      (round : reacceptRound env keys s hashes state = .ok (after, false)) : Reaccepts state state after
  | again {state next begins after hashes} (order : MapOrder state.wallet.coins hashes)
      (round : reacceptRound env keys s hashes state = .ok (next, true)) (rest : Reaccepts next begins after) :
      Reaccepts state begins after

end Code

end InfiniteRicks
