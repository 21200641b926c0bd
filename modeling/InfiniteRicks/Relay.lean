import InfiniteRicks.MruSet
import InfiniteRicks.NetAddr

/-!
# What a peer is told

`PushInventory`, `AddInventoryKnown`, `PushAddress` and `AddAddressKnown` (`net.h`), and the parts of `SendMessages`
(`main.cpp`) that announce the inventory and the addresses of the two queues. Each queue stands beside a bounded set of
what the peer is known to have, which forgets. The ping, the wallet's own transactions and `getdata` are left out.
-/

namespace InfiniteRicks

structure CInv where
  type : Int32
  hash : UInt256
deriving DecidableEq

def CInv.msgTx : Int32 := 1
def CInv.msgBlock : Int32 := 2

/-- The size at which `SendMessages` sends what it has collected. -/
def maxAnnounced : Nat := 1000

/-- `setInventoryKnown` and `vInventoryToSend`, or `setAddrKnown` and `vAddrToSend`. The source keeps neither the
messages, the last one at the end, nor the order in which the set grew, `true` by an announcement. -/
structure Outbox (T : Type) where
  known : MruSet T
  toSend : List T
  sent : List (List T)
  told : List (Bool × T)

/-- `vInv` or `vAddr`, and `vInvWait`, of one call of `SendMessages`. -/
structure Round (T : Type) where
  outbox : Outbox T
  vec : List T
  wait : List T

section Model

variable {T K : Type} [DecidableEq T] [DecidableEq K] (key : T → K)

def MruSet.count (m : MruSet T) (x : T) : Bool := decide (∃ y ∈ m.set, key y = key x)

namespace Outbox

def new (nMaxSizeIn : Nat) : Outbox T := ⟨.new nMaxSizeIn, [], [], []⟩

/-- `insert` into the set, by an announcement or not. -/
def note (o : Outbox T) (announced : Bool) (x : T) : Outbox T :=
  let ret := o.known.insert key x
  { o with known := ret.1, told := if ret.2 then o.told ++ [(announced, x)] else o.told }

/-- The body of `PushInventory` and `PushAddress`. -/
def push (o : Outbox T) (x : T) : Outbox T :=
  if o.known.count key x then o else { o with toSend := o.toSend ++ [x] }

end Outbox

namespace Round

/-- `push_back`, and the message when it has its greatest size. -/
def collect (r : Round T) (x : T) : Round T :=
  let vec := r.vec ++ [x]
  if maxAnnounced ≤ vec.length then { r with outbox := { r.outbox with sent := r.outbox.sent ++ [vec] }, vec := [] }
  else { r with vec := vec }

/-- What was not yet in the set is sent. -/
def offer (r : Round T) (x : T) : Round T :=
  let noted := { r with outbox := r.outbox.note key true x }
  if (r.outbox.known.insert key x).2 then noted.collect x else noted

/-- The body of the loop over the inventory, where `waits` are the entries to trickle out later. -/
def visit (waits : T → Bool) (r : Round T) (x : T) : Round T :=
  if r.outbox.known.count key x then r
  else if waits x then { r with wait := r.wait ++ [x] }
  else r.offer key x

/-- After the loop: the rest is the last message. -/
def finish (r : Round T) : Outbox T :=
  { r.outbox with
    toSend := r.wait
    sent := if r.vec = [] then r.outbox.sent else r.outbox.sent ++ [r.vec] }

end Round

namespace Outbox

def announce (waits : T → Bool) (o : Outbox T) : Outbox T :=
  (o.toSend.foldl (Round.visit key waits) ⟨o, [], []⟩).finish

/-- The loop over the addresses, where nothing waits. -/
def announceAll (o : Outbox T) : Outbox T := (o.toSend.foldl (Round.offer key) ⟨o, [], []⟩).finish

/-- `setAddrKnown.clear()`; what is remembered here begins again. -/
def forget (o : Outbox T) : Outbox T := { o with known := o.known.clear, sent := [], told := [] }

end Outbox

end Model

/-- What `SendMessages` asks for: `Hash` of 32 bytes, and the salt that the first call has drawn. -/
structure RelayEnv where
  hash : UInt256 → UInt256
  hashSalt : UInt256

structure CNode where
  nVersion : Int32
  inventory : Outbox CInv
  addresses : Outbox CAddress

namespace CNode

/-- A new connection, where `nMaxSize` is `SendBufferSize() / 1000`. -/
def new (nMaxSize : Nat) : CNode := ⟨0, .new nMaxSize, .new 5000⟩

def addInventoryKnown (pnode : CNode) (inv : CInv) : CNode :=
  { pnode with inventory := pnode.inventory.note id false inv }

def pushInventory (pnode : CNode) (inv : CInv) : CNode := { pnode with inventory := pnode.inventory.push id inv }

def addAddressKnown (pnode : CNode) (addr : CAddress) : CNode :=
  { pnode with addresses := pnode.addresses.note CAddress.toCService false addr }

def pushAddress (pnode : CNode) (addr : CAddress) : CNode :=
  if addr.isValid then { pnode with addresses := pnode.addresses.push CAddress.toCService addr } else pnode

/-- `fTrickleWait`: three of four transactions wait, and our own always. -/
def trickleWait (env : RelayEnv) (fFromMe : UInt256 → Bool) (inv : CInv) : Bool :=
  let hashRand := env.hash (inv.hash ^^^ env.hashSalt)
  if hashRand &&& 3 ≠ 0 then true else fFromMe inv.hash

/-- `SendMessages`, where `fFromMe` are the hashes of the wallets' own transactions. -/
def sendMessages (env : RelayEnv) (pto : CNode) (fSendTrickle : Bool) (fFromMe : UInt256 → Bool) : CNode :=
  if pto.nVersion = 0 then pto
  else
    { pto with
      addresses := if fSendTrickle then pto.addresses.announceAll CAddress.toCService else pto.addresses
      inventory := pto.inventory.announce id fun inv =>
        inv.type == CInv.msgTx && !fSendTrickle && trickleWait env fFromMe inv }

end CNode

/-- What happens to a connection. -/
inductive RelayEvent where
  | version (nVersion : Int32)
  | pushInventory (inv : CInv)
  | addInventoryKnown (inv : CInv)
  | pushAddress (addr : CAddress)
  | addAddressKnown (addr : CAddress)
  /-- The answer to `getaddr`: the queue is cleared and filled from the address manager. -/
  | getaddr (vAddr : List CAddress)
  /-- The daily refresh. -/
  | clearAddrKnown
  | sendMessages (fSendTrickle : Bool) (fFromMe : UInt256 → Bool)

def RelayEvent.step (env : RelayEnv) (pnode : CNode) : RelayEvent → CNode
  | version nVersion => { pnode with nVersion := nVersion }
  | pushInventory inv => pnode.pushInventory inv
  | addInventoryKnown inv => pnode.addInventoryKnown inv
  | pushAddress addr => pnode.pushAddress addr
  | addAddressKnown addr => pnode.addAddressKnown addr
  | getaddr vAddr =>
      vAddr.foldl CNode.pushAddress { pnode with addresses := { pnode.addresses with toSend := [] } }
  | clearAddrKnown => { pnode with addresses := pnode.addresses.forget }
  | sendMessages fSendTrickle fFromMe => pnode.sendMessages env fSendTrickle fFromMe

/-- The connection after some events. -/
def CNode.run (env : RelayEnv) (nMaxSize : Nat) (events : List RelayEvent) : CNode :=
  events.foldl (RelayEvent.step env) (.new nMaxSize)

end InfiniteRicks
