import InfiniteRicks.Checkpoints
import InfiniteRicks.Depth
import InfiniteRicks.WalletRecord
import Mathlib.Data.List.AList

/-!
# Balances and accounts

`GetAmounts`, `GetAccountAmounts`, `IsTrusted` and `GetBalance` (`wallet.cpp`, `wallet.h`), and
`GetAccountBalance`, `getbalance` and `listaccounts` (`rpcwallet.cpp`). No sum of 64-bit amounts over
a wallet leaves an `__int128`, so such a sum is an integer here. A call that throws gives `none`, and
an amount that is read only fills its cache.
-/

namespace InfiniteRicks

/-- How the functions of `main.cpp` see a transaction of the wallet in the chain. -/
structure ChainView where
  /-- `IsFinalTx` at the best block. -/
  isFinalTx : CTransaction → Bool
  getDepthInMainChain : CWalletTx → Int
  nCoinbaseMaturity : Int

namespace ChainView

/-- The view from a node; where a merkle branch was verified before, the flag says so. -/
def ofNode (env : Env) (s : Node) (fMerkleVerified : CWalletTx → Bool) : ChainView where
  isFinalTx tx := InfiniteRicks.isFinalTx s tx 0 0
  getDepthInMainChain wtx := (wtx.getDepthInMainChain env s (fMerkleVerified wtx)).1
  nCoinbaseMaturity := env.nCoinbaseMaturity

/-- `GetBlocksToMaturity`. -/
def getBlocksToMaturity (view : ChainView) (wtx : CWalletTx) : Int :=
  if !(wtx.tx.isCoinBase || wtx.tx.isCoinStake) then 0
  else max 0 (view.nCoinbaseMaturity - view.getDepthInMainChain wtx)

end ChainView

/-- A `CWalletTx` with the fields that balances read besides its coins. -/
structure AccountTx where
  wtx : CWalletTx
  vtxPrev : List CWalletTx
  strFromAccount : Bytes

/-- The transactions of a `CWallet` with its accounts. `acentries` are the accounting entries of the wallet file. -/
structure AccountWallet where
  mapWallet : AList fun _ : UInt256 => AccountTx
  mapAddressBook : AList fun _ : CTxDestination => Bytes
  acentries : List CAccountingEntry

/-- What `GetAmounts` returns. -/
structure Amounts where
  listReceived : List (CTxDestination × Int64)
  listSent : List (CTxDestination × Int64)
  nFee : Int64
  strSentAccount : Bytes

/-- What `GetAccountAmounts` returns. -/
structure AccountAmounts where
  nReceived : Int64
  nSent : Int64
  nFee : Int64

namespace AccountWallet

/-- The wallet's coins in a view of the chain. -/
def coins (w : AccountWallet) (view : ChainView) : WalletCoins where
  mapWallet hash := (w.mapWallet.lookup hash).map AccountTx.wtx
  vchDefaultKey := none
  mapAddressBook dest := (w.mapAddressBook.lookup dest).isSome
  blocksToMaturity := view.getBlocksToMaturity

/-- The transactions of the wallet. -/
def txs (w : AccountWallet) : List AccountTx := w.mapWallet.entries.map Sigma.snd

variable (env : Env) (view : ChainView) (keys : WalletKeys) (w : AccountWallet)

/-! ## One transaction -/

/-- The queue of `IsTrusted`, with `mapPrev`. Without fuel there is no answer. -/
def trustedQueue (mapPrev : UInt256 → Option CWalletTx) : Nat → List CWalletTx → Option Bool
  | _, [] => some true
  | 0, _ :: _ => none
  | fuel + 1, ptx :: rest =>
      if view.isFinalTx ptx.tx = false then some false
      else if 1 ≤ view.getDepthInMainChain ptx then trustedQueue mapPrev fuel rest
      else if view.getDepthInMainChain ptx < 0 then some false
      else
        ((w.coins view).getDebitTx keys ptx.tx).bind fun nDebit =>
          if ¬0 < nDebit then some false
          else
            match ptx.tx.vin.mapM fun txin => mapPrev txin.prevout.hash with
            | none => some false
            | some prevs => trustedQueue mapPrev fuel (rest ++ prevs)

/-- `IsTrusted`, with the option `-confchange`. -/
def isTrusted (fConfChange : Bool) (fuel : Nat) (t : AccountTx) : Option Bool :=
  if view.isFinalTx t.wtx.tx = false then some false
  else if 1 ≤ view.getDepthInMainChain t.wtx then some true
  else if view.getDepthInMainChain t.wtx < 0 then some false
  else if fConfChange then some false
  else
    ((w.coins view).getDebit keys t.wtx).1.bind fun nDebit =>
      if ¬0 < nDebit then some false
      else
        trustedQueue view keys w (fun hash => t.vtxPrev.reverse.find? fun tx => env.txHash tx.tx = hash) fuel [t.wtx]

/-- The outputs that `GetAmounts` does not skip. -/
def isListed (nDebit : Int64) (txout : CTxOut) : Bool :=
  !txout.scriptPubKey.isEmpty &&
    (if 0 < nDebit then !(w.coins view).isChange keys txout else keys.isMine txout.scriptPubKey)

/-- The destination of an output with its value. -/
def listEntry (txout : CTxOut) : CTxDestination × Int64 :=
  ((keys.extractDestination txout.scriptPubKey).getD .none, txout.nValue)

/-- The fee in `GetAmounts`. -/
def feeOf (t : AccountTx) (nDebit : Int64) : Option Int64 :=
  if 0 < nDebit then t.wtx.tx.getValueOut.map fun nValueOut => nDebit - nValueOut else some 0

/-- `GetAmounts`. -/
def getAmounts (t : AccountTx) : Option Amounts := do
  let nDebit ← ((w.coins view).getDebit keys t.wtx).1
  let nFee ← feeOf t nDebit
  let listed := t.wtx.tx.vout.filter (w.isListed view keys nDebit)
  some
    { listReceived := (listed.filter fun txout => keys.isMine txout.scriptPubKey).map (listEntry keys)
      listSent := if 0 < nDebit then listed.map (listEntry keys) else []
      nFee := nFee
      strSentAccount := t.strFromAccount }

/-- Whether something received counts for an account. -/
def isReceivedBy (strAccount : Bytes) (r : CTxDestination × Int64) : Bool :=
  match w.mapAddressBook.lookup r.1 with
  | some name => decide (name = strAccount)
  | none => strAccount.isEmpty

/-- `GetAccountAmounts`. -/
def getAccountAmounts (t : AccountTx) (strAccount : Bytes) : Option AccountAmounts :=
  (w.getAmounts view keys t).map fun amounts =>
    { nReceived := ((amounts.listReceived.filter (w.isReceivedBy strAccount)).map Prod.snd).sum
      nSent := if strAccount = amounts.strSentAccount then (amounts.listSent.map Prod.snd).sum else 0
      nFee := if strAccount = amounts.strSentAccount then amounts.nFee else 0 }

/-! ## The whole wallet -/

/-- A sum over the transactions of the wallet. -/
def tally (amount : AccountTx → Option Int) : Option Int := (w.txs.mapM amount).map List.sum

/-- `GetBalance`. -/
def getBalance (fConfChange : Bool) (fuel : Nat) : Option Int :=
  w.tally fun t => (w.isTrusted env view keys fConfChange fuel t).bind fun trusted =>
    if trusted then ((w.coins view).getAvailableCredit keys t.wtx true).1.map Int64.toInt else some 0

/-- The total of some amounts. -/
def total (amounts : List (CTxDestination × Int64)) : Int := (amounts.map fun r => r.2.toInt).sum

/-- `getbalance` of `*`. -/
def getbalanceAll (fConfChange : Bool) (fuel : Nat) (nMinDepth : Int) : Option Int :=
  w.tally fun t => (w.isTrusted env view keys fConfChange fuel t).bind fun trusted =>
    if trusted then
      (w.getAmounts view keys t).map fun amounts =>
        (if nMinDepth ≤ view.getDepthInMainChain t.wtx ∧ view.getBlocksToMaturity t.wtx = 0 then total amounts.listReceived
          else 0) - total amounts.listSent - amounts.nFee.toInt
    else some 0

/-- `ListAccountCreditDebit`: the entries of one account, or of all of them. -/
def listAccountCreditDebit (strAccount : Bytes) : List CAccountingEntry :=
  if strAccount = [42] then w.acentries else w.acentries.filter fun entry => entry.strAccount = strAccount

/-- `GetAccountCreditDebit`. -/
def getAccountCreditDebit (strAccount : Bytes) : Int64 :=
  ((w.listAccountCreditDebit strAccount).map CAccountingEntry.nCreditDebit).sum

/-- `GetAccountBalance`. -/
def getAccountBalance (strAccount : Bytes) (nMinDepth : Int) : Option Int :=
  (w.tally fun t =>
    if view.isFinalTx t.wtx.tx = false ∨ view.getDepthInMainChain t.wtx < 0 then some 0
    else
      (w.getAccountAmounts view keys t strAccount).map fun amounts =>
        (if amounts.nReceived ≠ 0 ∧ nMinDepth ≤ view.getDepthInMainChain t.wtx ∧ view.getBlocksToMaturity t.wtx = 0 then
          amounts.nReceived.toInt else 0) - (amounts.nSent + amounts.nFee).toInt).map
    fun nBalance => nBalance + (w.getAccountCreditDebit strAccount).toInt

/-- `mapAccountBalances`. -/
abbrev AccountBalances := AList fun _ : Bytes => Int64

/-- `mapAccountBalances[strAccount] += nAmount`. -/
def addTo (strAccount : Bytes) (nAmount : Int64) (balances : AccountBalances) : AccountBalances :=
  balances.insert strAccount ((balances.lookup strAccount).getD 0 + nAmount)

/-- The account that something received counts for. -/
def receivingAccount (r : CTxDestination × Int64) : Bytes := (w.mapAddressBook.lookup r.1).getD []

/-- A transaction in `listaccounts`. -/
def listTx (nMinDepth : Int) (balances : AccountBalances) (t : AccountTx) : Option AccountBalances :=
  if view.getDepthInMainChain t.wtx < 0 then some balances
  else
    (w.getAmounts view keys t).map fun amounts =>
      let balances := addTo amounts.strSentAccount (-amounts.nFee) balances
      let balances := amounts.listSent.foldl (fun balances s => addTo amounts.strSentAccount (-s.2) balances) balances
      if nMinDepth ≤ view.getDepthInMainChain t.wtx ∧ view.getBlocksToMaturity t.wtx = 0 then
        amounts.listReceived.foldl (fun balances r => addTo (w.receivingAccount r) r.2 balances) balances
      else balances

/-- `listaccounts`, once accounts are enabled. -/
def listaccounts (nMinDepth : Int) : Option AccountBalances :=
  let balances := w.mapAddressBook.entries.foldl
    (fun (balances : AccountBalances) entry =>
      if keys.isMineDestination entry.1 then balances.insert entry.2 0 else balances) ∅
  (w.txs.foldlM (w.listTx view keys nMinDepth) balances).map fun balances =>
    (w.listAccountCreditDebit [42]).foldl (fun balances entry => addTo entry.strAccount entry.nCreditDebit balances) balances

end AccountWallet

end InfiniteRicks
