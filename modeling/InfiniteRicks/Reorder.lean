import InfiniteRicks.WalletRecord

/-!
# The order of transactions and accounting entries

`ReorderTransactions` (`walletdb.cpp`), which gives a position to what has none. An accounting entry
is kept in the wallet file only, so its position there is its position. `write` tells whether a
record is written; where one is not, `DB_LOAD_FAIL` is returned, here `none`.
-/

namespace InfiniteRicks

/-- What `ReorderTransactions` uses of a wallet: its transactions in the order of their hashes, the accounting entries
of its file in the order of their keys, and the next position. -/
structure OrderWallet where
  mapWallet : List (UInt256 × CWalletTxRecord)
  acentries : List CAccountingEntry
  nOrderPosNext : Int64

/-- `TxPair`: a transaction or an accounting entry. -/
inductive TxPair where
  | tx (hash : UInt256) (wtx : CWalletTxRecord)
  | entry (acentry : CAccountingEntry)

/-- Under what a transaction or an entry is stored. -/
inductive OrderKey where
  | tx (hash : UInt256)
  | entry (strAccount : Bytes) (nEntryNo : UInt64)
deriving DecidableEq

namespace TxPair

def key : TxPair → OrderKey
  | tx hash _ => .tx hash
  | entry acentry => .entry acentry.strAccount acentry.nEntryNo

def nOrderPos : TxPair → Int64
  | tx _ wtx => wtx.nOrderPos
  | entry acentry => acentry.nOrderPos

/-- `nTimeReceived` or `nTime`. -/
def time : TxPair → Int64
  | tx _ wtx => wtx.nTimeReceived.toUInt64.toInt64
  | entry acentry => acentry.nTime

/-- The item with another position. -/
def moved (nOrderPos : Int64) : TxPair → TxPair
  | tx hash wtx => tx hash { wtx with nOrderPos }
  | entry acentry => entry { acentry with nOrderPos }

def isEntry : TxPair → Bool
  | tx _ _ => false
  | entry _ => true

end TxPair

namespace OrderWallet

/-- All transactions and accounting entries. -/
def items (w : OrderWallet) : List TxPair := w.mapWallet.map (fun e => TxPair.tx e.1 e.2) ++ w.acentries.map TxPair.entry

/-- `ListAccountCreditDebit("")`. -/
def unnamed (w : OrderWallet) : List CAccountingEntry := w.acentries.filter fun acentry => acentry.strAccount = []

/-- `txByTime`; what has the same time is in the order in which it was inserted. -/
def txByTime (w : OrderWallet) : List TxPair :=
  (w.mapWallet.map (fun e => TxPair.tx e.1 e.2) ++ w.unnamed.map TxPair.entry).mergeSort fun a b => a.time ≤ b.time

/-- The position of an item, in the wallet or in its file. -/
def setOrderPos (w : OrderWallet) (item : TxPair) (nOrderPos : Int64) : OrderWallet :=
  match item with
  | .tx hash _ =>
      { w with mapWallet := w.mapWallet.map fun e => if e.1 = hash then (e.1, { e.2 with nOrderPos }) else e }
  | .entry acentry =>
      { w with
        acentries := w.acentries.map fun e =>
          if e.strAccount = acentry.strAccount ∧ e.nEntryNo = acentry.nEntryNo then { e with nOrderPos } else e }

/-- The wallet and `nOrderPosOffsets` in the loop. -/
structure Reordering where
  w : OrderWallet
  nOrderPosOffsets : List Int64

/-- One pass through the loop. -/
def visit (write : TxPair → Bool) (s : Reordering) (item : TxPair) : Option Reordering :=
  if item.nOrderPos = -1 then
    let nOrderPos := s.w.nOrderPosNext
    if item.isEntry && !write (item.moved nOrderPos) then none
    else some
      { w := { s.w.setOrderPos item nOrderPos with nOrderPosNext := nOrderPos + 1 }
        nOrderPosOffsets := s.nOrderPosOffsets ++ [nOrderPos] }
  else
    let nOrderPosOff : Int64 :=
      s.nOrderPosOffsets.foldl (fun nOrderPosOff nOffsetStart =>
        if nOffsetStart ≤ item.nOrderPos then nOrderPosOff + 1 else nOrderPosOff) 0
    let nOrderPos := item.nOrderPos + nOrderPosOff
    if nOrderPosOff ≠ 0 ∧ write (item.moved nOrderPos) = false then none
    else some
      { s with
        w := { s.w.setOrderPos item nOrderPos with
          nOrderPosNext := if s.w.nOrderPosNext < nOrderPos + 1 then nOrderPos + 1 else s.w.nOrderPosNext } }

/-- `ReorderTransactions`. -/
def reorderTransactions (write : TxPair → Bool) (w : OrderWallet) : Option OrderWallet :=
  (w.txByTime.foldlM (visit write) ⟨{ w with nOrderPosNext := 0 }, []⟩).map Reordering.w

end OrderWallet

end InfiniteRicks
