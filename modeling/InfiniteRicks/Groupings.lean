import InfiniteRicks.Accounts
import Mathlib.Data.List.Sort
import Mathlib.Logic.Function.Basic

/-!
# Address groupings

`GetAddressGroupings` (`wallet.cpp`). A `std::set` is the list of its elements in order.
`mapWallet[hash]` makes an empty transaction where there is none, so every access changes
the wallet it is made on; the error of a call is an access outside a vector, with the
wallet at that point. Groups are merged through pointers to sets that are freed on the
way, which are addresses of a heap here.
-/

namespace InfiniteRicks

/-- The order of a `CTxDestination`: that of the kinds first, then that of the ids. -/
def CTxDestination.less : CTxDestination → CTxDestination → Bool
  | .none, .none => false
  | .none, _ => true
  | .keyID _, .none => false
  | .keyID first, .keyID second => first < second
  | .keyID _, .scriptID _ => true
  | .scriptID first, .scriptID second => first < second
  | .scriptID _, _ => false

/-- The order of two sets, which is lexicographic. -/
def lessSet {α : Type} (less : α → α → Bool) : List α → List α → Bool
  | _, [] => false
  | [], _ :: _ => true
  | first :: firsts, second :: seconds =>
      less first second || (!less second first && lessSet less firsts seconds)

/-- `std::set::insert`. -/
def insertInto {α : Type} [DecidableEq α] (less : α → α → Bool) (entry : α) (entries : List α) : List α :=
  if entry ∈ entries then entries else entries.orderedInsert (fun first second => less second first = false) entry

/-- `set<CTxDestination>`. -/
abbrev AddressSet := List CTxDestination

def AddressSet.add (address : CTxDestination) (addresses : AddressSet) : AddressSet :=
  insertInto CTxDestination.less address addresses

/-- `set< set<CTxDestination> >`. -/
abbrev AddressSets := List AddressSet

def AddressSets.add (addresses : AddressSet) (sets : AddressSets) : AddressSets :=
  insertInto (lessSet CTxDestination.less) addresses sets

/-! ## The groups of the transactions -/

namespace AccountWallet

variable (keys : WalletKeys)

/-- `mapWallet[hash]`. -/
def walletAt (w : AccountWallet) (hash : UInt256) : AccountTx × AccountWallet :=
  match w.mapWallet.lookup hash with
  | some t => (t, w)
  | none => (⟨.null, [], []⟩, { w with mapWallet := w.mapWallet.insert hash ⟨.null, [], []⟩ })

/-- `IsMine` of an input. -/
def isMineInput (w : AccountWallet) (txin : CTxIn) : Bool :=
  match w.mapWallet.lookup txin.prevout.hash with
  | none => false
  | some prev =>
      match prev.wtx.tx.vout[txin.prevout.n.toNat]? with
      | none => false
      | some txout => keys.isMine txout.scriptPubKey

/-- `pcoin->vin.size() > 0 && IsMine(pcoin->vin[0])`. -/
def firstInputMine (w : AccountWallet) (tx : CTransaction) : Bool :=
  match tx.vin with
  | [] => false
  | txin :: _ => w.isMineInput keys txin

/-- `IsChange`. -/
def isChange (w : AccountWallet) (txout : CTxOut) : Bool :=
  match keys.extractDestination txout.scriptPubKey with
  | none => false
  | some address => keys.isMineDestination address && (w.mapAddressBook.lookup address).isNone

/-- An address is added, where the script has one. -/
def addDestination (scriptPubKey : CScript) (grouping : AddressSet) : AddressSet :=
  match keys.extractDestination scriptPubKey with
  | none => grouping
  | some address => grouping.add address

/-- The address of the output that an input spends. -/
def groupInput (state : AddressSet × AccountWallet) (txin : CTxIn) : Except AccountWallet (AddressSet × AccountWallet) :=
  let (grouping, w) := state
  let (prev, w) := w.walletAt txin.prevout.hash
  match prev.wtx.tx.vout[txin.prevout.n.toNat]? with
  | none => .error w
  | some txout => .ok (addDestination keys txout.scriptPubKey grouping, w)

/-- An output, if it is change; the transaction that the first input spends from is copied for it. -/
def groupChange (vin : List CTxIn) (state : AddressSet × AccountWallet) (txout : CTxOut) :
    Except AccountWallet (AddressSet × AccountWallet) :=
  let (grouping, w) := state
  if w.isChange keys txout then
    match vin with
    | [] => .error w
    | txin :: _ =>
        let (_, w) := w.walletAt txin.prevout.hash
        .ok (addDestination keys txout.scriptPubKey grouping, w)
  else .ok (grouping, w)

/-- The group of all input addresses of a transaction, with its change. -/
def groupTransaction (groupings : AddressSets) (w : AccountWallet) (tx : CTransaction) :
    Except AccountWallet (AddressSets × AccountWallet) := do
  let inputs ← tx.vin.foldlM (groupInput keys) ([], w)
  let (grouping, w) ← tx.vout.foldlM (groupChange keys tx.vin) inputs
  return (groupings.add grouping, w)

/-- An own output makes a group by itself. -/
def groupOutput (groupings : AddressSets) (txout : CTxOut) : AddressSets :=
  if keys.isMine txout.scriptPubKey then
    match keys.extractDestination txout.scriptPubKey with
    | none => groupings
    | some address => groupings.add [address]
  else groupings

/-- The group of a transaction whose first input is mine. -/
def groupSpender (groupings : AddressSets) (w : AccountWallet) (tx : CTransaction) :
    Except AccountWallet (AddressSets × AccountWallet) :=
  if w.firstInputMine keys tx then groupTransaction keys groupings w tx else .ok (groupings, w)

/-- One round of the loop over `mapWallet`. The rounds go over the transactions at the start: one that an access
makes is empty, and the access to its outputs that follows is outside of them. -/
def groupRound (state : AddressSets × AccountWallet) (t : AccountTx) :
    Except AccountWallet (AddressSets × AccountWallet) := do
  let (groupings, w) ← groupSpender keys state.1 state.2 t.wtx.tx
  return (t.wtx.tx.vout.foldl (groupOutput keys) groupings, w)

end AccountWallet

/-! ## Merging the groups -/

/-- The groups that are in memory, with `uniqueGroupings` and `setmap`; `fresh` is the address of the next `new`. -/
structure GroupHeap where
  groups : Nat → Option AddressSet
  fresh : Nat
  uniqueGroupings : List Nat
  setmap : CTxDestination → Option Nat

namespace GroupHeap

def empty : GroupHeap := ⟨fun _ => none, 0, [], fun _ => none⟩

/-- The order of pointers. -/
def lessPointer (first second : Nat) : Bool := first < second

/-- The group that an address is in, if there is one, is hit. -/
def addHit (s : GroupHeap) (hits : List Nat) (address : CTxDestination) : List Nat :=
  match s.setmap address with
  | none => hits
  | some hit => insertInto lessPointer hit hits

/-- The set of the groups that a new group hits. -/
def hits (s : GroupHeap) (grouping : AddressSet) : List Nat := grouping.foldl s.addHit []

/-- `uniqueGroupings.erase(hit)` and `delete hit`. -/
def discard (s : GroupHeap) (hit : Nat) : GroupHeap :=
  { s with groups := Function.update s.groups hit none, uniqueGroupings := s.uniqueGroupings.erase hit }

/-- A group that was hit goes into the merged one and is deleted. There is no result where it was deleted before. -/
def absorb (state : AddressSet × GroupHeap) (hit : Nat) : Option (AddressSet × GroupHeap) :=
  let (merged, s) := state
  match s.groups hit with
  | none => none
  | some members => some (members.foldl (fun merged address => merged.add address) merged, s.discard hit)

/-- The merged group becomes known under its pointer. -/
def record (s : GroupHeap) (merged : AddressSet) : GroupHeap where
  groups := Function.update s.groups s.fresh (some merged)
  fresh := s.fresh + 1
  uniqueGroupings := insertInto lessPointer s.fresh s.uniqueGroupings
  setmap := merged.foldl (fun setmap element => Function.update setmap element (some s.fresh)) s.setmap

/-- One round of the merging loop. -/
def addGroup (s : GroupHeap) (grouping : AddressSet) : Option GroupHeap := do
  let (merged, s) ← (s.hits grouping).foldlM absorb (grouping, s)
  return s.record merged

/-- One round of the last loop: a group is copied to the result and deleted. -/
def release (state : AddressSets × GroupHeap) (uniqueGrouping : Nat) : Option (AddressSets × GroupHeap) :=
  let (ret, s) := state
  match s.groups uniqueGrouping with
  | none => none
  | some members => some (ret.add members, { s with groups := Function.update s.groups uniqueGrouping none })

end GroupHeap

/-- The merging of all groups, up to the result. -/
def mergeGroupings (groupings : AddressSets) : Option AddressSets := do
  let s ← groupings.foldlM GroupHeap.addGroup .empty
  let (ret, _) ← s.uniqueGroupings.foldlM GroupHeap.release ([], s)
  return ret

/-- The end of the call, where the groups are merged. -/
def AccountWallet.endGroupings (w : AccountWallet) : Option AddressSets → Except AccountWallet (AddressSets × AccountWallet)
  | none => .error w
  | some ret => .ok (ret, w)

/-- `GetAddressGroupings`, with the wallet afterwards. -/
def AccountWallet.getAddressGroupings (keys : WalletKeys) (w : AccountWallet) :
    Except AccountWallet (AddressSets × AccountWallet) := do
  let (groupings, w) ← w.txs.foldlM (groupRound keys) ([], w)
  w.endGroupings (mergeGroupings groupings)

end InfiniteRicks
